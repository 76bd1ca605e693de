import Mathlib
import Stepwise.Proofs.Token.Locality
import Stepwise.Proofs.Token.Scanning

/-! # The layout of the tokens of a text

The tokens of a text follow one another. What stands between two of them is a gap: blanks,
comments and directives, each with its end. After the last lexeme comes a gap whose last line
may lack its newline.
-/

namespace Stepwise

/-- What separates two tokens: a blank, a comment, or a directive, which goes from its number
sign to the end of the line. -/
inductive Separator : List Char → Prop
  | blank {c : Char} (hc : c ∈ [' ', '\t', '\r', '\n']) : Separator [c]
  | line {body : List Char} (hbody : '\n' ∉ body) : Separator ('/' :: '/' :: body ++ ['\n'])
  | block {body : List Char} (hbody : ¬ ['*', '/'] <:+: body) :
    Separator ('/' :: '*' :: body ++ ['*', '/'])
  | directive {body : List Char} (hbody : '\n' ∉ body) : Separator ('#' :: body ++ ['\n'])

/-- A sequence of separators. -/
inductive Gap : List Char → Prop
  | nil : Gap []
  | cons {cs ds : List Char} (hcs : Separator cs) (hds : Gap ds) : Gap (cs ++ ds)

theorem Separator.gap {cs : List Char} (h : Separator cs) : Gap cs := by
  rw [← List.append_nil cs]
  exact .cons h .nil

theorem Gap.append {cs ds : List Char} (hcs : Gap cs) (hds : Gap ds) : Gap (cs ++ ds) := by
  induction hcs with
  | nil => exact hds
  | cons hc _ ih =>
    rw [List.append_assoc]
    exact .cons hc ih

theorem commentLength?_cons {c : Char} {cs : List Char} (h : ¬ ['*', '/'] <+: c :: cs) :
    commentLength? (c :: cs) = (commentLength? cs).map (· + 1) := by
  rw [commentLength?]
  rintro ds rfl rfl
  exact h ⟨ds, rfl⟩

/-- A block comment ends with the first mark that closes one. -/
theorem commentLength?_eq {body : List Char} (hbody : ¬ ['*', '/'] <:+: body) (tail : List Char) :
    commentLength? (body ++ '*' :: '/' :: tail) = some (body.length + 2) := by
  induction body with
  | nil => rfl
  | cons c body ih =>
    have hno : ¬ ['*', '/'] <+: c :: (body ++ '*' :: '/' :: tail) := by
      intro hpre
      obtain ⟨rfl, hrest⟩ := List.cons_prefix_cons.mp hpre
      cases body with
      | nil => exact absurd (List.cons_prefix_cons.mp hrest).1 (by decide)
      | cons d body =>
        obtain ⟨rfl, -⟩ := List.cons_prefix_cons.mp hrest
        exact hbody ⟨[], body, rfl⟩
    have hbody' : ¬ ['*', '/'] <:+: body := fun hm => hbody (List.infix_cons hm)
    rw [List.cons_append, commentLength?_cons hno, ih hbody', Option.map_some, List.length_cons]

/-- The body of the block comment whose length is found. -/
theorem exists_of_commentLength? {cs : List Char} {n : Nat} (h : commentLength? cs = some n) :
    ∃ body tail, cs = body ++ '*' :: '/' :: tail ∧ ¬ ['*', '/'] <:+: body ∧
      n = body.length + 2 := by
  induction cs generalizing n with
  | nil => cases h
  | cons c cs ih =>
    by_cases hclose : ['*', '/'] <+: c :: cs
    · obtain ⟨tail, htail⟩ := hclose
      rw [← htail] at h ⊢
      refine ⟨[], tail, rfl, by simp, ?_⟩
      exact (Option.some.inj h).symm
    · rw [commentLength?_cons hclose, Option.map_eq_some_iff] at h
      obtain ⟨m, hm, rfl⟩ := h
      obtain ⟨body, tail, rfl, hbody, rfl⟩ := ih hm
      refine ⟨c :: body, tail, rfl, fun hinfix => ?_, rfl⟩
      obtain hpre | hinfix := List.infix_cons_iff.mp hinfix
      · refine hclose (hpre.trans ?_)
        exact List.cons_prefix_cons.mpr ⟨rfl, List.prefix_append _ _⟩
      · exact hbody hinfix

namespace Scan

section

variable {r : Reader} {c : Char} {cs : List Char}

theorem from_line (hrest : r.rest = '/' :: '/' :: cs) :
    Scan.from r = Scan.from (r.drop ((cs.takeWhile (· ≠ '\n')).length + 3)) := by
  rcases r with ⟨_, p⟩
  subst hrest
  rw [Scan.from]
  rfl

theorem from_block {n : Nat} (hrest : r.rest = '/' :: '*' :: cs) (hn : commentLength? cs = some n) :
    Scan.from r = Scan.from (r.drop (n + 2)) := by
  rcases r with ⟨_, p⟩
  subst hrest
  rw [Scan.from]
  simp [hn]

theorem from_openBlock (hrest : r.rest = '/' :: '*' :: cs) (hn : commentLength? cs = none) :
    ∃ e, Scan.from r = ⟨[], .error e⟩ := by
  rcases r with ⟨_, p⟩
  subst hrest
  rw [Scan.from]
  simp [hn]

theorem from_directive (hrest : r.rest = '#' :: cs) :
    Scan.from r =
      { Scan.from (r.drop ((cs.takeWhile (· ≠ '\n')).length + 2)) with
        includes := (includeName? ('#' :: cs.takeWhile (· ≠ '\n'))).toList ++
          (Scan.from (r.drop ((cs.takeWhile (· ≠ '\n')).length + 2))).includes } := by
  rcases r with ⟨_, p⟩
  subst hrest
  rw [Scan.from]
  rfl

/-- A line of a text goes up to its newline, or to the end of the text. -/
theorem takeWhile_line {body : List Char} (tail : List Char) (hbody : '\n' ∉ body)
    (htail : ∀ c ∈ tail.head?, c = '\n') : (body ++ tail).takeWhile (· ≠ '\n') = body := by
  refine Text.takeWhile_append_of_stop (fun c hc => ?_) fun c hc => ?_
  · exact decide_eq_true fun h => hbody (h ▸ hc)
  · exact decide_eq_false fun h => h (htail c hc)

end

/-- The names that a separator includes. -/
def namesOf : List Char → List String
  | '#' :: body => (includeName? ('#' :: body.takeWhile (· ≠ '\n'))).toList
  | _ => []

/-- A separator adds the names it includes. -/
theorem from_separator {r : Reader} {cs tail : List Char} (h : Separator cs)
    (hrest : r.rest = cs ++ tail) :
    Scan.from r = { Scan.from (r.drop cs.length) with
      includes := namesOf cs ++ (Scan.from (r.drop cs.length)).includes } := by
  cases h with
  | @blank c hc =>
    have hnames : ∀ c ∈ [' ', '\t', '\r', '\n'], namesOf [c] = [] :=
      List.forall_iff_forall_mem.mp (by decide)
    rw [hnames c hc, from_white hrest hc]
    rfl
  | @line body hbody =>
    have hrest' : r.rest = '/' :: '/' :: (body ++ '\n' :: tail) := by simp [hrest]
    have hlen : ('/' :: '/' :: body ++ ['\n']).length = body.length + 3 := by simp
    rw [from_line hrest', takeWhile_line _ hbody (by simp), hlen]
    rfl
  | @block body hbody =>
    have hrest' : r.rest = '/' :: '*' :: (body ++ '*' :: '/' :: tail) := by simp [hrest]
    have hlen : ('/' :: '*' :: body ++ ['*', '/']).length = body.length + 2 + 2 := by simp
    rw [from_block hrest' (commentLength?_eq hbody tail), hlen]
    rfl
  | @directive body hbody =>
    have hrest' : r.rest = '#' :: (body ++ '\n' :: tail) := by simp [hrest]
    have hlen : ('#' :: body ++ ['\n']).length = body.length + 2 := by simp
    have hnames : namesOf ('#' :: body ++ ['\n']) = (includeName? ('#' :: body)).toList := by
      rw [List.cons_append, namesOf, takeWhile_line _ hbody (by simp)]
    rw [from_directive hrest', takeWhile_line _ hbody (by simp), hlen, hnames]

/-- A gap adds names, the same in every text. -/
theorem exists_names {cs : List Char} (h : Gap cs) :
    ∃ names, ∀ (r : Reader) (tail : List Char), r.rest = cs ++ tail →
      Scan.from r = { Scan.from (r.drop cs.length) with
        includes := names ++ (Scan.from (r.drop cs.length)).includes } := by
  induction h with
  | nil => exact ⟨[], fun r tail _ => rfl⟩
  | @cons cs ds hcs _ ih =>
    obtain ⟨names, hnames⟩ := ih
    refine ⟨namesOf cs ++ names, fun r tail hrest => ?_⟩
    rw [List.append_assoc] at hrest
    have hdrop : (r.drop cs.length).rest = ds ++ tail := by
      rw [Reader.rest_drop, hrest, List.drop_left]
    rw [from_separator hcs hrest, hnames _ tail hdrop, Reader.drop_drop, List.length_append]
    simp only [List.append_assoc]

theorem tokens_of_gap {r : Reader} {cs tail : List Char} (h : Gap cs) (hrest : r.rest = cs ++ tail) :
    (Scan.from r).tokens = (Scan.from (r.drop cs.length)).tokens := by
  obtain ⟨names, hnames⟩ := exists_names h
  rw [hnames r tail hrest]

/-- What a text begins with: a separator, a comment or directive in its last line, a comment without
an end, or a lexeme. -/
theorem leading_cases (c : Char) (cs : List Char) :
    (∃ ds tail, c :: cs = ds ++ tail ∧ Separator ds) ∨
      (∃ body, '\n' ∉ body ∧ (c :: cs = '/' :: '/' :: body ∨ c :: cs = '#' :: body)) ∨
      (∃ ds, c :: cs = '/' :: '*' :: ds ∧ commentLength? ds = none) ∨
      Lexeme.OpensLexeme (c :: cs) := by
  by_cases hblank : c ∈ [' ', '\t', '\r', '\n']
  · exact .inl ⟨[c], cs, rfl, .blank hblank⟩
  by_cases hsign : c = '#'
  · subst hsign
    by_cases hline : '\n' ∈ cs
    · obtain ⟨body, tail, rfl, hbody⟩ := List.eq_append_cons_of_mem hline
      exact .inl ⟨'#' :: body ++ ['\n'], tail, by simp, .directive hbody⟩
    · exact .inr (.inl ⟨cs, hline, .inr rfl⟩)
  by_cases hcomment : c = '/' ∧ ∃ d ∈ cs.head?, d ∈ ['/', '*']
  case neg =>
    refine .inr (.inr (.inr ⟨fun hm => ?_, fun hc d hd hm => hcomment ⟨hc, d, hd, hm⟩⟩))
    obtain hm | hm := List.mem_append.mp (show c ∈ [' ', '\t', '\r', '\n'] ++ ['#'] from hm)
    · exact hblank hm
    · exact hsign (List.mem_singleton.mp hm)
  obtain ⟨rfl, d, hd, hm⟩ := hcomment
  obtain ⟨cs, rfl⟩ : ∃ ds, cs = d :: ds := by
    cases cs with
    | nil => cases hd
    | cons e cs => exact ⟨cs, by rw [Option.some.inj hd]⟩
  simp only [List.mem_cons, List.not_mem_nil, or_false] at hm
  obtain rfl | rfl := hm
  · by_cases hline : '\n' ∈ cs
    · obtain ⟨body, tail, rfl, hbody⟩ := List.eq_append_cons_of_mem hline
      exact .inl ⟨'/' :: '/' :: body ++ ['\n'], tail, by simp, .line hbody⟩
    · exact .inr (.inl ⟨cs, hline, .inl rfl⟩)
  · cases hlen : commentLength? cs with
    | none => exact .inr (.inr (.inl ⟨cs, rfl, hlen⟩))
    | some n =>
      obtain ⟨body, tail, rfl, hbody, -⟩ := exists_of_commentLength? hlen
      exact .inl ⟨'/' :: '*' :: body ++ ['*', '/'], tail, by simp, .block hbody⟩

/-- The token at the end of the text that a reader has before it. -/
def last (r : Reader) : Token :=
  ⟨.endOfFile, .between (r.position.after r.rest) (r.position.after r.rest)⟩

theorem last_drop (r : Reader) (n : Nat) : last (r.drop n) = last r := by
  simp only [last, Reader.drop, ← Position.after_append, List.take_append_drop]

/-- The text has no lexeme before its end, wherever it stands. -/
def Closes (cs : List Char) : Prop :=
  ∃ names, ∀ r : Reader, r.rest = cs → Scan.from r = ⟨names, .ok [last r]⟩

theorem closes_nil : Closes [] :=
  ⟨[], fun r hrest => by rw [from_nil hrest, last, hrest]; rfl⟩

/-- A comment or a directive in the last line of a text closes it. -/
theorem closes_lastLine {cs body : List Char} (hbody : '\n' ∉ body)
    (hcs : cs = '/' :: '/' :: body ∨ cs = '#' :: body) : Closes cs := by
  have htake : body.takeWhile (· ≠ '\n') = body := by
    simpa using takeWhile_line [] hbody (by simp)
  have hend {r : Reader} {n : Nat} (hn : r.rest.length ≤ n) :
      Scan.from (r.drop n) = ⟨[], .ok [last r]⟩ := by
    have hdrop : (r.drop n).rest = [] := List.drop_of_length_le hn
    rw [from_nil hdrop, ← last_drop r n, last, hdrop]
    rfl
  obtain rfl | rfl := hcs
  · refine ⟨[], fun r hrest => ?_⟩
    rw [from_line hrest, htake, hend (by simp [hrest])]
  · refine ⟨(includeName? ('#' :: body)).toList ++ [], fun r hrest => ?_⟩
    rw [from_directive hrest, htake, hend (by simp [hrest])]

theorem Closes.tokens_eq {r : Reader} {ts : List Token} (h : Closes r.rest)
    (hts : (Scan.from r).tokens = .ok ts) : ts = [last r] := by
  obtain ⟨names, hnames⟩ := h
  rw [hnames r rfl] at hts
  exact (Except.ok.inj hts).symm

/-- A text that a gap begins closes if the rest of it does. -/
theorem Closes.of_gap {cs ds : List Char} (h : Closes ds) (hcs : Gap cs) : Closes (cs ++ ds) := by
  obtain ⟨names, hnames⟩ := exists_names hcs
  obtain ⟨names', hnames'⟩ := h
  refine ⟨names ++ names', fun r hrest => ?_⟩
  have hdrop : (r.drop cs.length).rest = ds := by
    rw [Reader.rest_drop, hrest, List.drop_left]
  rw [hnames r ds hrest, hnames' _ hdrop, last_drop]

/-- A text whose tokens are found is a gap that may lack its last newline, or a gap and then a text
that opens with a lexeme. -/
theorem exists_gap {r : Reader} {ts : List Token} (h : (Scan.from r).tokens = .ok ts) :
    (Gap (r.rest ++ ['\n']) ∧ Closes r.rest) ∨
      ∃ k, k ≤ r.rest.length ∧ Gap (r.rest.take k) ∧ Lexeme.OpensLexeme (r.drop k).rest := by
  induction hlen : r.rest.length using Nat.strongRecOn generalizing r with
  | ind len ih =>
  subst hlen
  cases hrest : r.rest with
  | nil => exact .inl ⟨(Separator.blank (by decide)).gap, closes_nil⟩
  | cons c cs =>
    rw [← hrest]
    obtain ⟨ds, tail, hds, hsep⟩ | ⟨body, hbody, hline⟩ | ⟨ds, hds, hopen⟩ | hopens :=
      leading_cases c cs
    · have hrest' : r.rest = ds ++ tail := hrest.trans hds
      have hne : ds ≠ [] := by rintro rfl; cases hsep
      have hdrop : (r.drop ds.length).rest = tail := by
        rw [Reader.rest_drop, hrest', List.drop_left]
      have hshorter : (r.drop ds.length).rest.length < r.rest.length :=
        Reader.length_drop_lt (List.length_pos_iff.mpr hne) (Reader.ne_nil_of_rest hrest)
      rw [tokens_of_gap hsep.gap hrest'] at h
      obtain ⟨hend, hcloses⟩ | ⟨k, hk, hgap, hopens⟩ := ih _ hshorter h rfl
      · rw [hdrop] at hend hcloses
        rw [hrest', List.append_assoc]
        exact .inl ⟨hsep.gap.append hend, hcloses.of_gap hsep.gap⟩
      · rw [hdrop] at hk hgap
        refine .inr ⟨ds.length + k, ?_, ?_, Reader.drop_drop r _ _ ▸ hopens⟩
        · rw [hrest', List.length_append]
          omega
        · rw [hrest', List.take_length_add_append]
          exact hsep.gap.append hgap
    · have hcloses := closes_lastLine hbody (hline.imp hrest.trans hrest.trans)
      refine .inl ⟨?_, hcloses⟩
      obtain hline | hline := hline
      · rw [hrest, hline]
        exact (Separator.line hbody).gap
      · rw [hrest, hline]
        exact (Separator.directive hbody).gap
    · obtain ⟨e, he⟩ := from_openBlock (hrest.trans hds) hopen
      rw [he] at h
      cases h
    · exact .inr ⟨0, Nat.zero_le _, .nil, by rw [Reader.drop_zero, hrest]; exact hopens⟩

/-- The text has a gap of `k` characters and then, on the next `n`, the lexeme `l`. -/
structure Leads (cs : List Char) (k n : Nat) (l : Lexeme) : Prop where
  gap : Gap (cs.take k)
  opens : Lexeme.OpensLexeme (cs.drop k)
  pos : 0 < n
  fits : k + n ≤ cs.length
  reads : ∀ (r : Reader) (hr : r.rest ≠ []), Text.Shares n (cs.drop k) r.rest →
    Lexeme.Gives (Lexeme.next r hr) l (r.drop n)

theorem Leads.ne_endOfFile {cs : List Char} {k n : Nat} {l : Lexeme} (h : Leads cs k n l) :
    l ≠ .endOfFile := by
  obtain ⟨c, ds, hds⟩ : ∃ c ds, cs.drop k = c :: ds := by
    cases hdrop : cs.drop k with
    | nil => exact absurd h.opens (by rw [hdrop]; exact id)
    | cons c ds => exact ⟨c, ds, rfl⟩
  have hself : Text.Shares n (cs.drop k) ((cs.drop k).take n) :=
    .take_self (by have := h.fits; rw [List.length_drop]; omega)
  have hne : (cs.drop k).take n ≠ [] := by
    rw [← List.length_pos_iff]
    exact Nat.lt_of_lt_of_le h.pos hself.length_le
  exact Lexeme.next_ne_endOfFile (h.reads ⟨_, .start⟩ hne hself)

theorem opensLexeme_local {n : Nat} {cs ds : List Char} (hn : 0 < n)
    (hs : Text.Shares n cs ds) (h : Lexeme.OpensLexeme cs) : Lexeme.OpensLexeme ds := by
  obtain ⟨rfl, -⟩ | ⟨c, cs, ds, rfl, rfl, hrest⟩ := hs.cases
  · cases hn
  refine ⟨h.1, fun hc d hd => ?_⟩
  obtain hsame | hends := hrest.head?_or
  · exact h.2 hc d (hsame ▸ hd)
  · rcases hends d hd with rfl | rfl <;> decide

/-- The text leads with the lexeme wherever its characters are shared. -/
theorem Leads.shares {cs ds : List Char} {k n : Nat} {l : Lexeme} (h : Leads cs k n l)
    (hs : Text.Shares (k + n) cs ds) : Leads ds k n l where
  gap := by
    rw [(hs.mono (Nat.le_add_right k n)).take]
    exact h.gap
  opens := opensLexeme_local h.pos hs.drop h.opens
  pos := h.pos
  fits := hs.length_le
  reads r hr hs' := h.reads r hr (hs.drop.trans hs')

/-- Where the text goes on with the lexeme, that is the first token. -/
theorem Leads.from_eq {cs : List Char} {k n : Nat} {l : Lexeme} (h : Leads cs k n l) {r : Reader}
    (hs : Text.Shares n (cs.drop k) r.rest) :
    Scan.from r = { Scan.from (r.drop n) with
      tokens := (Scan.from (r.drop n)).tokens.map
        (⟨l, .between r.position (r.drop n).position⟩ :: ·) } := by
  have hr : r.rest ≠ [] := by
    rw [← List.length_pos_iff]
    exact Nat.lt_of_lt_of_le h.pos hs.length_le
  obtain ⟨x, hx, rfl, hnext⟩ := h.reads r hr hs
  rw [from_opens hr (opensLexeme_local h.pos hs h.opens), hx, ofReading, hnext]

/-- What a text leads with is its first token, after the names that the gap includes. -/
theorem Leads.exists_names {cs : List Char} {k n : Nat} {l : Lexeme} (h : Leads cs k n l) :
    ∃ names, ∀ r : Reader, Text.Shares (k + n) cs r.rest → Scan.from r =
      { includes := names ++ (Scan.from (r.drop (k + n))).includes
        tokens := (Scan.from (r.drop (k + n))).tokens.map
          (⟨l, .between (r.drop k).position (r.drop (k + n)).position⟩ :: ·) } := by
  obtain ⟨names, hnames⟩ := Scan.exists_names h.gap
  refine ⟨names, fun r hs => ?_⟩
  have hrest : r.rest = cs.take k ++ r.rest.drop k := by
    rw [← (hs.mono (Nat.le_add_right k n)).take, List.take_append_drop]
  have hlen : (cs.take k).length = k := List.length_take_of_le (by have := h.fits; omega)
  rw [hnames r _ hrest, hlen, h.from_eq hs.drop, Reader.drop_drop]

theorem Leads.tokens_eq {r : Reader} {k n : Nat} {l : Lexeme} (h : Leads r.rest k n l) :
    (Scan.from r).tokens = (Scan.from (r.drop (k + n))).tokens.map
      (⟨l, .between (r.drop k).position (r.drop (k + n)).position⟩ :: ·) := by
  obtain ⟨names, hnames⟩ := h.exists_names
  rw [hnames r (.refl h.fits)]

/-- The tokens of a text are the lexemes that it leads with, one after the other. -/
theorem from_cases {r : Reader} {ts : List Token} (h : (Scan.from r).tokens = .ok ts) :
    (Gap (r.rest ++ ['\n']) ∧ Closes r.rest) ∨ ∃ k n l us, Leads r.rest k n l ∧
      ts = ⟨l, .between (r.drop k).position (r.drop (k + n)).position⟩ :: us ∧
      (Scan.from (r.drop (k + n))).tokens = .ok us := by
  obtain hend | ⟨k, hk, hgap, hopens⟩ := exists_gap h
  · exact .inl hend
  have hr : (r.drop k).rest ≠ [] := fun hnil => by rw [hnil] at hopens; cases hopens
  have hdrop : (Scan.from r).tokens = (Scan.from (r.drop k)).tokens := by
    rw [tokens_of_gap hgap (List.take_append_drop k _).symm, List.length_take_of_le hk]
  cases hnext : Lexeme.next (r.drop k) hr with
  | error e =>
    rw [hdrop, from_opens hr hopens, hnext] at h
    cases h
  | ok x =>
    obtain ⟨n, hn, hle, -, hlocal⟩ := Lexeme.next_local ⟨x, hnext, rfl, rfl⟩
    rw [Reader.rest_drop, List.length_drop] at hle
    have hleads : Leads r.rest k n x.value := ⟨hgap, hopens, hn, by omega, hlocal⟩
    rw [hleads.tokens_eq] at h
    cases hus : (Scan.from (r.drop (k + n))).tokens with
    | error e => rw [hus] at h; cases h
    | ok us =>
      rw [hus] at h
      exact .inr ⟨k, n, x.value, us, hleads, (Except.ok.inj h).symm, hus⟩

end Scan

theorem Position.after_concat (p : Position) (cs : List Char) (c : Char) :
    p.after (cs ++ [c]) = (p.after cs).next c := by
  rw [after_append]
  rfl

theorem Position.start_after (cs : List Char) : start.after cs =
    ⟨cs.length, 1 + cs.count '\n', 1 + (cs.reverse.takeWhile (· ≠ '\n')).length⟩ := by
  induction cs using List.reverseRecOn with
  | nil => rfl
  | append_singleton cs c ih =>
    rw [after_concat, ih, next]
    split
    · next h => simp [h, Nat.add_assoc]
    · next h => simp [h, Nat.add_assoc]

/-- The text at `t` is where `t` says it is: its line is one more than the newlines before it, its
column one more than the characters since the last of them. -/
def Token.Located (text : List Char) (t : Token) : Prop :=
  t.span.line = 1 + (text.take t.span.start).count '\n' ∧
    t.span.column = 1 + ((text.take t.span.start).reverse.takeWhile (· ≠ '\n')).length

/-- The text of the token, on its own, has this token at its start and no other. -/
def Token.StandsAlone (text : List Char) (t : Token) : Prop :=
  ∃ last : Span, scan (String.ofList (t.span.slice text)) =
    ⟨[], .ok [⟨t.lexeme, ⟨0, t.span.stop - t.span.start, 1, 1⟩⟩, ⟨.endOfFile, last⟩]⟩

/-- The tokens follow one another in the text from offset `n` on, with gaps between them; the last
one is empty and stands at the end of the text. -/
inductive Token.Follow (text : List Char) : Nat → List Token → Prop
  | last {n : Nat} {s : Span} (hn : n ≤ text.length) (hgap : Gap (text.drop n ++ ['\n']))
    (hstart : s.start = text.length) (hstop : s.stop = text.length) :
    Follow text n [⟨.endOfFile, s⟩]
  | cons {n : Nat} {t : Token} {ts : List Token} (hlexeme : t.lexeme ≠ .endOfFile)
    (hstart : n ≤ t.span.start) (hgap : Gap ((text.drop n).take (t.span.start - n)))
    (hstop : t.span.start < t.span.stop) (hrest : Follow text t.span.stop ts) :
    Follow text n (t :: ts)

section

variable {source : String} {n : Nat} {ts : List Token}

/-- The span between two places of a text. -/
theorem between_ofText {source : String} {m k : Nat} (hm : m ≤ source.toList.length)
    (hk : k ≤ source.toList.length) :
    Span.between ((Reader.ofText source).drop m).position ((Reader.ofText source).drop k).position =
      ⟨m, k, 1 + (source.toList.take m).count '\n',
        1 + ((source.toList.take m).reverse.takeWhile (· ≠ '\n')).length⟩ := by
  simp only [Span.between, Reader.ofText, Reader.drop, Position.start_after,
    List.length_take_of_le hm, List.length_take_of_le hk]

/-- A lexeme that the text leads with stands alone. -/
theorem Token.standsAlone_of_leads {text : List Char} {k m : Nat} {t : Token}
    (h : Scan.Leads (text.drop n) k m t.lexeme) (hstart : t.span.start = n + k)
    (hstop : t.span.stop = n + k + m) : Token.StandsAlone text t := by
  have hslice : t.span.slice text = ((text.drop n).drop k).take m := by
    rw [Span.slice, hstart, hstop, List.drop_drop, Nat.add_sub_cancel_left]
  have hm : m ≤ ((text.drop n).drop k).length := by
    have hfits := h.fits
    rw [List.length_drop]
    omega
  have hlen : (((text.drop n).drop k).take m).length = m := List.length_take_of_le hm
  have hscan := h.from_eq (r := .ofText (String.ofList (t.span.slice text))) <| by
    rw [Reader.ofText, hslice, String.toList_ofList]
    exact .take_self hm
  have hnil : ((Reader.ofText (String.ofList (t.span.slice text))).drop m).rest = [] := by
    rw [Reader.rest_drop, Reader.ofText, String.toList_ofList, hslice]
    exact List.drop_of_length_le (Nat.le_of_eq hlen)
  have hspan : Span.between (Reader.ofText (String.ofList (t.span.slice text))).position
      ((Reader.ofText (String.ofList (t.span.slice text))).drop m).position = ⟨0, m, 1, 1⟩ := by
    simp only [Span.between, Reader.ofText, Reader.drop, Position.start, Position.after_offset,
      String.toList_ofList, hslice, List.take_of_length_le (Nat.le_of_eq hlen), hlen, Nat.zero_add]
  rw [Scan.from_nil hnil, hspan] at hscan
  rw [Token.StandsAlone, hstop, hstart, Nat.add_sub_cancel_left]
  exact ⟨_, hscan⟩

/-- The tokens from an offset on follow one another, and each is where it says and stands alone. -/
theorem Token.follow_of_from (hn : n ≤ source.toList.length)
    (h : (Scan.from ((Reader.ofText source).drop n)).tokens = .ok ts) :
    Token.Follow source.toList n ts ∧ ∀ t ∈ ts, t.Located source.toList ∧
      (t.lexeme ≠ .endOfFile → t.StandsAlone source.toList) := by
  have hrest : ((Reader.ofText source).drop n).rest = source.toList.drop n := rfl
  induction ts generalizing n with
  | nil =>
    obtain ⟨-, hcloses⟩ | ⟨k, m, l, us, -, hts, -⟩ := Scan.from_cases h
    · cases hcloses.tokens_eq h
    · cases hts
  | cons t ts ih =>
    obtain ⟨hgap, hcloses⟩ | ⟨k, m, l, us, hleads, hts, hus⟩ := Scan.from_cases h
    · obtain ⟨rfl, rfl⟩ := List.cons.inj (hcloses.tokens_eq h)
      have hlast : Scan.last ((Reader.ofText source).drop n) = ⟨.endOfFile, .between
          ((Reader.ofText source).drop source.toList.length).position
          ((Reader.ofText source).drop source.toList.length).position⟩ := by
        rw [Scan.last_drop, Scan.last]
        simp only [Reader.drop, Reader.ofText, List.take_length]
      rw [hlast, between_ofText (Nat.le_refl _) (Nat.le_refl _)]
      refine ⟨.last hn hgap rfl rfl, List.forall_mem_singleton.mpr ⟨⟨rfl, rfl⟩, ?_⟩⟩
      exact fun h => absurd rfl h
    · obtain ⟨rfl, rfl⟩ := List.cons.inj hts
      rw [hrest] at hleads
      rw [Reader.drop_drop] at hus
      have hpos := hleads.pos
      have hfits := hleads.fits
      rw [List.length_drop] at hfits
      rw [Reader.drop_drop, Reader.drop_drop, between_ofText (by omega) (by omega)]
      obtain ⟨hfollow, hall⟩ := ih (by omega) hus rfl
      refine ⟨.cons hleads.ne_endOfFile ?_ ?_ ?_ ?_, List.forall_mem_cons.mpr ⟨⟨⟨rfl, rfl⟩, fun _ =>
        Token.standsAlone_of_leads hleads rfl (Nat.add_assoc n k m).symm⟩, hall⟩⟩
      · exact Nat.le_add_right n k
      · simp only [Nat.add_sub_cancel_left]
        exact hleads.gap
      · show n + k < n + (k + m)
        omega
      · exact hfollow

end

namespace Token.Follow

variable {text : List Char} {n : Nat} {ts : List Token}

theorem le_start (h : Token.Follow text n ts) : ∀ t ∈ ts, n ≤ t.span.start := by
  induction h with
  | last hn _ hstart _ => exact List.forall_mem_singleton.mpr (hstart ▸ hn)
  | cons _ hstart _ hstop _ ih =>
    refine List.forall_mem_cons.mpr ⟨hstart, fun t ht => ?_⟩
    have hle := ih t ht
    omega

/-- Spans that follow one another are disjoint and increase. -/
theorem pairwise (h : Token.Follow text n ts) :
    ts.Pairwise fun s t => s.span.stop ≤ t.span.start := by
  induction h with
  | last => exact List.pairwise_singleton _ _
  | cons _ _ _ _ hrest ih => exact List.pairwise_cons.mpr ⟨hrest.le_start, ih⟩

/-- One token marks the end of the text, and no other is empty. -/
theorem exists_last (h : Token.Follow text n ts) :
    ∃ before last, ts = before ++ [last] ∧ last.lexeme = .endOfFile ∧
      last.span.start = text.length ∧ last.span.stop = text.length ∧
      ∀ t ∈ before, t.lexeme ≠ .endOfFile ∧ t.span.start < t.span.stop := by
  induction h with
  | last _ _ hstart hstop => exact ⟨[], _, rfl, rfl, hstart, hstop, List.forall_mem_nil _⟩
  | @cons _ t _ hlexeme _ _ hstop _ ih =>
    obtain ⟨before, last, rfl, hlast, hbegin, hend, hall⟩ := ih
    exact ⟨t :: before, last, rfl, hlast, hbegin, hend,
      List.forall_mem_cons.mpr ⟨⟨hlexeme, hstop⟩, hall⟩⟩

end Token.Follow

theorem scan_follow {source : String} {tokens : List Token}
    (h : (scan source).tokens = .ok tokens) : Token.Follow source.toList 0 tokens :=
  (Token.follow_of_from (n := 0) (Nat.zero_le _) h).1

/-- **Token spans are exact.** The tokens of a text end with the mark of its end, which is empty and
stands there. The other spans are not empty, they are disjoint and increase, and between them the
text has gaps. Every span is located, and its text on its own is scanned as its one token. -/
theorem scan_spans_exact {source : String} {tokens : List Token}
    (h : (scan source).tokens = .ok tokens) :
    (∃ before last, tokens = before ++ [last] ∧ last.lexeme = .endOfFile ∧
      last.span.start = source.toList.length ∧ last.span.stop = source.toList.length ∧
      ∀ t ∈ before, t.lexeme ≠ .endOfFile ∧ t.span.start < t.span.stop) ∧
    (tokens.Pairwise fun s t => s.span.stop ≤ t.span.start) ∧
    Token.Follow source.toList 0 tokens ∧
    ∀ t ∈ tokens, t.Located source.toList ∧
      (t.lexeme ≠ .endOfFile → t.StandsAlone source.toList) := by
  have hfrom : (Scan.from ((Reader.ofText source).drop 0)).tokens = .ok tokens := h
  obtain ⟨hfollow, hall⟩ := Token.follow_of_from (Nat.zero_le _) hfrom
  exact ⟨hfollow.exists_last, hfollow.pairwise, hfollow, hall⟩

theorem scan_spans_exact_comment :
    (scan "x /**/\n= y;//").tokens = .ok [⟨.identifier "x", ⟨0, 1, 1, 1⟩⟩,
      ⟨.symbol .assign, ⟨7, 8, 2, 1⟩⟩, ⟨.identifier "y", ⟨9, 10, 2, 3⟩⟩,
      ⟨.symbol .semicolon, ⟨10, 11, 2, 4⟩⟩, ⟨.endOfFile, ⟨13, 13, 2, 7⟩⟩] ∧
    Token.StandsAlone "x /**/\n= y;//".toList ⟨.identifier "y", ⟨9, 10, 2, 3⟩⟩ := by
  have htokens : (scan "x /**/\n= y;//").tokens = .ok [⟨.identifier "x", ⟨0, 1, 1, 1⟩⟩,
      ⟨.symbol .assign, ⟨7, 8, 2, 1⟩⟩, ⟨.identifier "y", ⟨9, 10, 2, 3⟩⟩,
      ⟨.symbol .semicolon, ⟨10, 11, 2, 4⟩⟩, ⟨.endOfFile, ⟨13, 13, 2, 7⟩⟩] := by
    cbv
  have hexact := (scan_spans_exact htokens).2.2.2
  exact ⟨htokens, (hexact _ (by simp)).2 (by simp)⟩

end Stepwise
