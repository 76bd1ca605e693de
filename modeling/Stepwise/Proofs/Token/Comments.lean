import Stepwise.Proofs.Token.Layout

/-! # Comments are blanks

A comment between two tokens may be replaced by a blank, and a line comment may be deleted up
to its newline: the text has the same lexemes and includes the same libraries. On the line of
a directive the lexer looks for no comments. There the law holds if the comment ends on that
line, and the directive includes no library: what it includes is all that stands after the
word, the comment too.
-/

namespace Stepwise

/-- A comment, what takes its place, and what follows it: a block comment gives way to a space, a
line comment, which goes up to the end of its line, to nothing. -/
inductive Comment : List Char → List Char → List Char → Prop
  | block {body : List Char} (after : List Char) (hbody : ¬ ['*', '/'] <:+: body) :
    Comment ('/' :: '*' :: body ++ ['*', '/']) [' '] after
  | line {body after : List Char} (hbody : '\n' ∉ body) (hafter : ∀ c ∈ after.head?, c = '\n') :
    Comment ('/' :: '/' :: body) [] after

/-- The place after `before` is between tokens: only separators lie between it and the last token
before it, or the start of the text. -/
def Outside (tokens : List Token) (before : List Char) : Prop :=
  ∃ k, k ≤ before.length ∧ (k = 0 ∨ ∃ t ∈ tokens, k = t.span.stop) ∧ Gap (before.drop k)

/-- The line of a directive names a library to include. -/
def Includes (line : List Char) : Prop :=
  "include".toList <+: (line.dropWhile (· = '#')).dropWhile Text.isBlank

namespace Scan

/-- What a text includes, and its lexemes if there are no errors. -/
def content (s : Scan) : List String × Option (List Lexeme) :=
  (s.includes, s.tokens.toOption.map (·.map Token.lexeme))

/-- The content with names and lexemes before it. -/
def precede (names : List String) (ls : List Lexeme) (c : List String × Option (List Lexeme)) :
    List String × Option (List Lexeme) :=
  (names ++ c.1, c.2.map (ls ++ ·))

variable {r r' : Reader} {k n : Nat} {cs ds tail tail' : List Char}

theorem precede_precede (names names' : List String) (ls ls' : List Lexeme)
    (c : List String × Option (List Lexeme)) :
    precede names ls (precede names' ls' c) = precede (names ++ names') (ls ++ ls') c := by
  simp only [precede, List.append_assoc, Option.map_map]
  congr 2

theorem isSome_precede (names : List String) (ls : List Lexeme)
    (c : List String × Option (List Lexeme)) : (precede names ls c).2.isSome = c.2.isSome := by
  simp [precede]

theorem isSome_content {s : Scan} : s.content.2.isSome = true ↔ ∃ ts, s.tokens = .ok ts := by
  cases h : s.tokens <;> simp [content, h, Except.toOption]

/-- A gap precedes what follows it with names alone. -/
theorem exists_precede_of_gap (h : Gap cs) : ∃ names, ∀ (r : Reader) (tail : List Char),
    r.rest = cs ++ tail →
      (Scan.from r).content = precede names [] (Scan.from (r.drop cs.length)).content := by
  obtain ⟨names, hnames⟩ := exists_names h
  refine ⟨names, fun r tail hrest => ?_⟩
  rw [hnames r tail hrest]
  simp only [content, precede, List.nil_append, Option.map_id']

/-- A lexeme with the gap before it precedes what follows it. -/
theorem Leads.exists_precede {l : Lexeme} (h : Leads cs k n l) :
    ∃ names, ∀ r : Reader, Text.Shares (k + n) cs r.rest →
      (Scan.from r).content = precede names [l] (Scan.from (r.drop (k + n))).content := by
  obtain ⟨names, hnames⟩ := h.exists_names
  refine ⟨names, fun r hs => ?_⟩
  rw [hnames r hs]
  simp only [content, precede]
  cases (Scan.from (r.drop (k + n))).tokens <;> rfl

/-- The content of a text does not depend on where it stands. -/
theorem content_of_rest (h : (Scan.from r).content.2.isSome = true) (hrest : r'.rest = r.rest) :
    (Scan.from r').content = (Scan.from r).content := by
  obtain ⟨ts, h⟩ := isSome_content.mp h
  induction ts generalizing r r' with
  | nil =>
    obtain ⟨-, hcloses⟩ | ⟨k, m, l, us, -, hts, -⟩ := from_cases h
    · cases hcloses.tokens_eq h
    · cases hts
  | cons t ts ih =>
    obtain ⟨-, names, hnames⟩ | ⟨k, m, l, us, hleads, hts, hus⟩ := from_cases h
    · rw [hnames r rfl, hnames r' hrest]
      rfl
    · obtain ⟨rfl, rfl⟩ := List.cons.inj hts
      obtain ⟨names, hnames⟩ := hleads.exists_precede
      have hshares : Text.Shares (k + m) r.rest r'.rest := by
        rw [hrest]
        exact .refl hleads.fits
      rw [hnames r (.refl hleads.fits), hnames r' hshares,
        ih (isSome_content.mpr ⟨ts, hus⟩) (congrArg (List.drop _) hrest) hus]

/-- The tokens up to one of them are found in every text that shares their characters. -/
theorem exists_precede {before after : List Token} {t : Token} (hne : after ≠ [])
    (h : (Scan.from r).tokens = .ok (before ++ t :: after)) :
    ∃ k, t.span.stop = r.position.offset + k ∧ k ≤ r.rest.length ∧ ∃ names ls, ∀ r' : Reader,
      Text.Shares k r.rest r'.rest →
        (Scan.from r').content = precede names ls (Scan.from (r'.drop k)).content := by
  induction before generalizing r with
  | nil =>
    obtain ⟨-, hcloses⟩ | ⟨k, n, l, us, hleads, hts, -⟩ := from_cases h
    · exact absurd (List.cons.inj (hcloses.tokens_eq h)).2 hne
    · obtain ⟨rfl, rfl⟩ := List.cons.inj hts
      obtain ⟨names, hnames⟩ := hleads.exists_precede
      refine ⟨k + n, ?_, hleads.fits, names, [l], hnames⟩
      simp only [Span.between, Reader.drop, Position.after_offset,
        List.length_take_of_le hleads.fits]
  | cons s before ih =>
    obtain ⟨-, hcloses⟩ | ⟨k, n, l, us, hleads, hts, hus⟩ := from_cases h
    · exact absurd (List.cons.inj (hcloses.tokens_eq h)).2 (by simp)
    · obtain ⟨rfl, rfl⟩ := List.cons.inj hts
      obtain ⟨names, hnames⟩ := hleads.exists_precede
      obtain ⟨m, hstop, hm, names', ls, hls⟩ := ih hus
      rw [Reader.rest_drop, List.length_drop] at hm
      have hfits := hleads.fits
      refine ⟨k + n + m, ?_, by omega, names ++ names', [l] ++ ls, fun r' hs => ?_⟩
      · rw [hstop]
        simp only [Reader.drop, Position.after_offset, List.length_take_of_le hfits]
        omega
      · rw [hnames r' (hs.mono (Nat.le_add_right _ m)), hls (r'.drop (k + n)) hs.drop, precede_precede,
          Reader.drop_drop]

/-- The tokens up to an offset where one of them ends, or where the text starts. -/
theorem exists_precede_of_stop {source : String} {tokens : List Token} {k : Nat}
    (h : (scan source).tokens = .ok tokens) (hk : k < source.toList.length)
    (hstop : k = 0 ∨ ∃ t ∈ tokens, k = t.span.stop) :
    ∃ names ls, ∀ r' : Reader, Text.Shares k source.toList r'.rest →
      (Scan.from r').content = precede names ls (Scan.from (r'.drop k)).content := by
  obtain rfl | ⟨t, ht, rfl⟩ := hstop
  · exact ⟨[], [], fun r' _ => by simp [precede, Reader.drop_zero]⟩
  obtain ⟨before, after, rfl⟩ := List.append_of_mem ht
  have hne : after ≠ [] := by
    rintro rfl
    obtain ⟨before', last, hlast, -, -, hend, -⟩ := (scan_follow h).exists_last
    obtain ⟨-, heq⟩ := List.append_inj' hlast rfl
    obtain rfl : t = last := (List.cons.inj heq).1
    omega
  obtain ⟨k, hk, -, hall⟩ := exists_precede hne h
  have hoffset : (Reader.ofText source).position.offset = 0 := rfl
  rw [hoffset, Nat.zero_add] at hk
  rw [hk]
  exact hall

/-- What stands before a place between tokens precedes the rest, in every text that begins with
it. -/
theorem exists_precede_of_outside {before rest : List Char} {tokens : List Token}
    (h : (scan (String.ofList (before ++ rest))).tokens = .ok tokens) (hne : rest ≠ [])
    (hplace : Outside tokens before) :
    ∃ names ls, ∀ (r' : Reader) (rest' : List Char), r'.rest = before ++ rest' →
      Text.Shares before.length (before ++ rest) (before ++ rest') →
      (Scan.from r').content = precede names ls (Scan.from (r'.drop before.length)).content := by
  obtain ⟨k, hk, hstop, hgap⟩ := hplace
  have hlen : k < (String.ofList (before ++ rest)).toList.length := by
    rw [String.toList_ofList, List.length_append]
    have := List.length_pos_iff.mpr hne
    omega
  obtain ⟨names, ls, hls⟩ := exists_precede_of_stop h hlen hstop
  rw [String.toList_ofList] at hls
  obtain ⟨names', hnames⟩ := exists_precede_of_gap hgap
  refine ⟨names ++ names', ls ++ [], fun r' rest' hrest hs => ?_⟩
  have hdrop : (r'.drop k).rest = before.drop k ++ rest' := by
    rw [Reader.rest_drop, hrest, List.drop_append_of_le_length hk]
  rw [hls r' (hrest ▸ hs.mono hk), hnames _ rest' hdrop, precede_precede, Reader.drop_drop,
    List.length_drop, Nat.add_sub_cancel' hk]

/-- A comment and its blank lead to the same text. -/
theorem content_of_comment {comment blank after : List Char} (hc : Comment comment blank after)
    (hrest : r.rest = comment ++ after) (hrest' : r'.rest = blank ++ after)
    (h : (Scan.from r).content.2.isSome = true) :
    (Scan.from r').content = (Scan.from r).content := by
  cases hc with
  | @block body _ hbody =>
    have hblock : r.rest = '/' :: '*' :: (body ++ '*' :: '/' :: after) := by simp [hrest]
    have hblank : Scan.from r' = Scan.from (r'.drop 1) := from_white hrest' (by decide)
    rw [from_block hblock (commentLength?_eq hbody after)] at h ⊢
    rw [hblank]
    refine content_of_rest h ?_
    rw [Reader.rest_drop, Reader.rest_drop, hblock, hrest']
    simp
  | @line body _ hbody hafter =>
    have hline : r.rest = '/' :: '/' :: (body ++ after) := by simp [hrest]
    rw [from_line hline, takeWhile_line _ hbody hafter] at h ⊢
    cases after with
    | nil =>
      refine content_of_rest h ?_
      rw [hrest', Reader.rest_drop, hline]
      simp
    | cons c after =>
      obtain rfl := hafter c rfl
      rw [from_white hrest' (by decide)]
      refine content_of_rest h ?_
      rw [Reader.rest_drop, Reader.rest_drop, hline, hrest']
      simp

end Scan

/-- **A comment between tokens is a blank.** -/
theorem scan_comment {before comment blank after : List Char} {tokens : List Token}
    (hc : Comment comment blank after)
    (h : (scan (String.ofList (before ++ (comment ++ after)))).tokens = .ok tokens)
    (hplace : Outside tokens before) :
    (scan (String.ofList (before ++ (blank ++ after)))).content =
      (scan (String.ofList (before ++ (comment ++ after)))).content := by
  have hne : comment ++ after ≠ [] := by cases hc <;> simp
  have hends : Text.Ends (blank ++ after) := by
    cases hc with
    | block => exact fun c hc => .inl (Option.some.inj hc).symm
    | line _ hafter => exact fun c hc => .inr (hafter c hc)
  obtain ⟨names, ls, hpre⟩ := Scan.exists_precede_of_outside h hne hplace
  have hcomment := hpre (.ofText (String.ofList (before ++ (comment ++ after)))) _
    String.toList_ofList (.refl (by simp))
  have hblank := hpre (.ofText (String.ofList (before ++ (blank ++ after)))) _
    String.toList_ofList (.of_append before _ hends)
  have hsome := Scan.isSome_content.mpr ⟨tokens, h⟩
  rw [scan, hcomment, Scan.isSome_precede] at hsome
  rw [scan, scan, hcomment, hblank]
  congr 1
  refine Scan.content_of_comment hc ?_ ?_ hsome <;>
    simp [Reader.drop, Reader.ofText]

/-! ### On the line of a directive -/

section

variable {body comment blank after : List Char}

theorem Comment.exists_cons (hc : Comment comment blank after) : ∃ cs, comment = '/' :: cs := by
  cases hc <;> exact ⟨_, rfl⟩

theorem dropWhile_append_of_stop {p : Char → Bool} (cs : List Char) {c : Char} (hc : p c = false)
    (tail : List Char) : (cs ++ c :: tail).dropWhile p = cs.dropWhile p ++ c :: tail := by
  rw [List.dropWhile_append]
  split
  · next h => rw [List.isEmpty_iff.mp h, List.dropWhile_cons, hc]; rfl
  · rfl

theorem dropWhile_append_of_ne_nil {p : Char → Bool} {cs : List Char} (h : cs.dropWhile p ≠ [])
    (tail : List Char) : (cs ++ tail).dropWhile p = cs.dropWhile p ++ tail := by
  rw [List.dropWhile_append, if_neg (by simpa using h)]

/-- A word that a solidus ends stands before it. -/
theorem prefix_of_prefix_append {word cs tail : List Char} {c : Char} (hword : c ∉ word)
    (h : word <+: cs ++ c :: tail) : word <+: cs := by
  induction cs generalizing word with
  | nil =>
    cases word with
    | nil => exact List.nil_prefix
    | cons d word =>
      obtain ⟨rfl, -⟩ := List.cons_prefix_cons.mp h
      exact absurd List.mem_cons_self hword
  | cons d cs ih =>
    cases word with
    | nil => exact List.nil_prefix
    | cons e word =>
      obtain ⟨rfl, hrest⟩ := List.cons_prefix_cons.mp h
      exact List.cons_prefix_cons.mpr ⟨rfl, ih (fun hm => hword (List.mem_cons_of_mem _ hm)) hrest⟩

/-- The word `include` stands before a comment on its line, or it is not the directive's name. -/
theorem includes_of_comment (hc : Comment comment blank after) (line tail tail' : List Char)
    (h : Includes (line ++ (comment ++ tail))) : Includes (line ++ tail') := by
  obtain ⟨cs, rfl⟩ := hc.exists_cons
  rw [Includes, List.cons_append, dropWhile_append_of_stop line (by decide),
    dropWhile_append_of_stop _ (by decide)] at h
  have hword : "include".toList <+: (line.dropWhile (· = '#')).dropWhile Text.isBlank :=
    prefix_of_prefix_append (by decide) h
  have hinner : (line.dropWhile (· = '#')).dropWhile Text.isBlank ≠ [] := by
    intro hnil
    rw [hnil] at hword
    exact absurd (List.prefix_nil.mp hword) (by decide)
  have houter : line.dropWhile (· = '#') ≠ [] := by
    intro hnil
    rw [hnil] at hinner
    exact hinner rfl
  rw [Includes, dropWhile_append_of_ne_nil houter, dropWhile_append_of_ne_nil hinner]
  exact hword.trans (List.prefix_append _ _)

theorem includeName?_eq_none {line : List Char} (h : ¬ Includes line) : includeName? line = none := by
  have hpre : "include".toList.isPrefixOf
      ((line.dropWhile (· = '#')).dropWhile Text.isBlank) = false :=
    Bool.eq_false_iff.mpr fun hp => h (List.isPrefixOf_iff_prefix.mp hp)
  simp only [includeName?, hpre, Bool.false_eq_true, if_false]

/-- A directive precedes what follows its line with the name it includes. -/
theorem Scan.exists_content_of_directive {r : Reader} {line : List Char} (hline : '\n' ∉ line)
    (hrest : r.rest = '#' :: (line ++ after)) :
    ∃ s : Reader, s.rest = after.drop ((after.takeWhile (· ≠ '\n')).length + 1) ∧
      (Scan.from r).content = precede
        (includeName? ('#' :: (line ++ after.takeWhile (· ≠ '\n')))).toList [] (Scan.from s).content := by
  have htake : (line ++ after).takeWhile (· ≠ '\n') = line ++ after.takeWhile (· ≠ '\n') :=
    List.takeWhile_append_of_pos fun c hc => decide_eq_true fun h => hline (h ▸ hc)
  refine ⟨r.drop ((line ++ after.takeWhile (· ≠ '\n')).length + 2), ?_, ?_⟩
  · rw [Reader.rest_drop, hrest, List.length_append, List.drop_succ_cons, Nat.add_assoc,
      ← List.drop_drop, List.drop_left]
  · rw [from_directive hrest, htake]
    simp only [content, precede, List.nil_append, Option.map_id']

end

/-- **A comment on the line of a directive** may be replaced if it ends on that line. The lexemes
stay, and so do the names if the line that remains includes no library. -/
theorem scan_directive_comment {start body comment blank after : List Char} {tokens : List Token}
    (hc : Comment comment blank after) (hbody : '\n' ∉ body) (hline : '\n' ∉ comment)
    (h : (scan (String.ofList (start ++ ('#' :: body ++ (comment ++ after))))).tokens = .ok tokens)
    (hplace : Outside tokens start) :
    (scan (String.ofList (start ++ ('#' :: body ++ (blank ++ after))))).content.2 =
        (scan (String.ofList (start ++ ('#' :: body ++ (comment ++ after))))).content.2 ∧
      (¬ Includes ('#' :: body ++ (blank ++ after.takeWhile (· ≠ '\n'))) →
        (scan (String.ofList (start ++ ('#' :: body ++ (blank ++ after))))).content =
          (scan (String.ofList (start ++ ('#' :: body ++ (comment ++ after))))).content) := by
  have hends : Text.Ends (blank ++ after) := by
    cases hc with
    | block => exact fun c hc => .inl (Option.some.inj hc).symm
    | line _ hafter => exact fun c hc => .inr (hafter c hc)
  have hblank : '\n' ∉ blank := by cases hc <;> simp
  obtain ⟨names, ls, hpre⟩ := Scan.exists_precede_of_outside h (by simp) hplace
  have hcontent (cs : List Char) (hcs : '\n' ∉ cs)
      (hs : Text.Shares start.length (start ++ ('#' :: body ++ (comment ++ after)))
        (start ++ ('#' :: body ++ (cs ++ after)))) :
      ∃ s : Reader, s.rest = after.drop ((after.takeWhile (· ≠ '\n')).length + 1) ∧
        (scan (String.ofList (start ++ ('#' :: body ++ (cs ++ after))))).content =
          Scan.precede names ls (Scan.precede (includeName? ('#' ::
            (body ++ (cs ++ after.takeWhile (· ≠ '\n'))))).toList [] (Scan.from s).content) := by
    have hdirective :
        ((Reader.ofText (String.ofList (start ++ ('#' :: body ++ (cs ++ after))))).drop
          start.length).rest = '#' :: ((body ++ cs) ++ after) := by
      simp [Reader.drop, Reader.ofText]
    obtain ⟨s, hrest, hscan⟩ := Scan.exists_content_of_directive
      (by simp [hbody, hcs]) hdirective
    refine ⟨s, hrest, ?_⟩
    rw [scan, hpre _ _ String.toList_ofList hs, hscan, List.append_assoc]
  obtain ⟨s, hrest, hscan⟩ := hcontent comment hline (.refl (by simp))
  have hshares : Text.Shares start.length (start ++ ('#' :: body ++ (comment ++ after)))
      (start ++ ('#' :: body ++ (blank ++ after))) := by
    rw [← List.append_assoc, ← List.append_assoc start]
    exact .mono (.of_append _ _ hends) (by rw [List.length_append]; omega)
  obtain ⟨s', hrest', hscan'⟩ := hcontent blank hblank hshares
  have hsome := Scan.isSome_content.mpr ⟨tokens, h⟩
  rw [hscan, Scan.isSome_precede, Scan.isSome_precede] at hsome
  have hsame := Scan.content_of_rest hsome (hrest'.trans hrest.symm)
  rw [hscan, hscan', hsame]
  refine ⟨rfl, fun hno => ?_⟩
  have hno' : ¬ Includes ('#' :: body ++ (comment ++ after.takeWhile (· ≠ '\n'))) :=
    fun hi => hno (includes_of_comment hc _ _ _ hi)
  rw [← List.cons_append, includeName?_eq_none hno, ← List.cons_append, includeName?_eq_none hno']

/-- **Comments are blanks.** A comment between tokens may be replaced by its blank: the text includes
the same libraries and has the same lexemes. On the line of a directive this holds for a comment
that ends on the line, but for the name if the line is left as one that includes a library. -/
theorem scan_without_comment {before comment blank after : List Char} {tokens : List Token}
    (hc : Comment comment blank after)
    (h : (scan (String.ofList (before ++ (comment ++ after)))).tokens = .ok tokens) :
    (Outside tokens before →
      (scan (String.ofList (before ++ (blank ++ after)))).content =
        (scan (String.ofList (before ++ (comment ++ after)))).content) ∧
    ∀ start body, before = start ++ '#' :: body → '\n' ∉ body → '\n' ∉ comment →
      Outside tokens start →
      (scan (String.ofList (before ++ (blank ++ after)))).content.2 =
          (scan (String.ofList (before ++ (comment ++ after)))).content.2 ∧
        (¬ Includes ('#' :: body ++ (blank ++ after.takeWhile (· ≠ '\n'))) →
          (scan (String.ofList (before ++ (blank ++ after)))).content =
            (scan (String.ofList (before ++ (comment ++ after)))).content) := by
  refine ⟨scan_comment hc h, ?_⟩
  rintro start body rfl hbody hline hplace
  rw [List.append_assoc] at h ⊢
  rw [List.append_assoc]
  exact scan_directive_comment hc hbody hline h hplace

/-- A comment between tokens, and one on the line of a directive. -/
theorem scan_without_comment_sample :
    ((scan (String.ofList (['x', ' '] ++ (['/', '*', '*', '/'] ++ [';'])))).tokens =
        .ok [⟨.identifier "x", ⟨0, 1, 1, 1⟩⟩, ⟨.symbol .semicolon, ⟨6, 7, 1, 7⟩⟩,
          ⟨.endOfFile, ⟨7, 7, 1, 8⟩⟩] ∧
      (scan (String.ofList (['x', ' '] ++ ([' '] ++ [';'])))).content =
        (scan (String.ofList (['x', ' '] ++ (['/', '*', '*', '/'] ++ [';'])))).content) ∧
    (scan (String.ofList (['#', 'a'] ++ (['/', '/', 'b'] ++ [])))).tokens =
        .ok [⟨.endOfFile, ⟨5, 5, 1, 6⟩⟩] ∧
      (scan (String.ofList (['#', 'a'] ++ ([] ++ [])))).content =
        (scan (String.ofList (['#', 'a'] ++ (['/', '/', 'b'] ++ [])))).content := by
  have hblock : (scan (String.ofList (['x', ' '] ++ (['/', '*', '*', '/'] ++ [';'])))).tokens =
      .ok [⟨.identifier "x", ⟨0, 1, 1, 1⟩⟩, ⟨.symbol .semicolon, ⟨6, 7, 1, 7⟩⟩,
        ⟨.endOfFile, ⟨7, 7, 1, 8⟩⟩] := by
    rw [scan, Reader.ofText, String.toList_ofList]
    cbv
  have hline : (scan (String.ofList (['#', 'a'] ++ (['/', '/', 'b'] ++ [])))).tokens =
      .ok [⟨.endOfFile, ⟨5, 5, 1, 6⟩⟩] := by
    obtain ⟨names, hnames⟩ := Scan.closes_lastLine
      (show '\n' ∉ ['a', '/', '/', 'b'] by decide) (.inr rfl)
    rw [scan, hnames _ String.toList_ofList, Scan.last, Reader.ofText, String.toList_ofList]
    rfl
  have hbody : ¬ ['*', '/'] <:+: ([] : List Char) := by simp
  refine ⟨⟨hblock, ?_⟩, hline, ?_⟩
  · exact (scan_without_comment (.block [';'] hbody) hblock).1
      ⟨1, by decide, .inr ⟨_, .head _, rfl⟩, (Separator.blank (by decide)).gap⟩
  · have hcomment : Comment ['/', '/', 'b'] [] [] := .line (by decide) (by simp)
    refine ((scan_without_comment hcomment hline).2 [] ['a'] rfl (by decide) (by decide)
      ⟨0, by decide, .inl rfl, .nil⟩).2 ?_
    rw [Includes]
    decide

/-- The comment after an included name is part of the name, and a comment that begins on the line of
a directive does not go beyond that line. -/
theorem directive_keeps_comment :
    scan "#include <a>//b" = ⟨["a>//b"], .ok [⟨.endOfFile, ⟨15, 15, 1, 16⟩⟩]⟩ ∧
    scan "#include <a>" = ⟨["a"], .ok [⟨.endOfFile, ⟨12, 12, 1, 13⟩⟩]⟩ ∧
    scan "#A/*\n*/x" = ⟨[], .ok [⟨.symbol .star, ⟨5, 6, 2, 1⟩⟩, ⟨.symbol .slash, ⟨6, 7, 2, 2⟩⟩,
      ⟨.identifier "x", ⟨7, 8, 2, 3⟩⟩, ⟨.endOfFile, ⟨8, 8, 2, 4⟩⟩]⟩ ∧
    scan "#A x" = ⟨[], .ok [⟨.endOfFile, ⟨4, 4, 1, 5⟩⟩]⟩ := by
  have hopen : (Reader.ofText "#A/*\n*/x").rest = '#' :: ['A', '/', '*', '\n', '*', '/', 'x'] := rfl
  have hblank : (Reader.ofText "#A x").rest = '#' :: ['A', ' ', 'x'] := rfl
  have hnone : includeName? ['#', 'A', '/', '*'] = none ∧ includeName? ['#', 'A', ' ', 'x'] = none := by
    decide
  have htake : ['A', '/', '*', '\n', '*', '/', 'x'].takeWhile (· ≠ '\n') = ['A', '/', '*'] ∧
      ['A', ' ', 'x'].takeWhile (· ≠ '\n') = ['A', ' ', 'x'] := by
    decide
  refine ⟨by cbv, by cbv, ?_, ?_⟩
  · rw [scan, Scan.from_directive hopen, htake.1, hnone.1]
    cbv
  · rw [scan, Scan.from_directive hblank, htake.2, hnone.2]
    cbv

end Stepwise
