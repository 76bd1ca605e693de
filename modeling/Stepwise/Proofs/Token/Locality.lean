import Stepwise.Proofs.Token.NumberForms

/-! # Lexemes are local

A lexeme is read off the characters it is made of. The lexer may look further to find that
the lexeme ends, but what it sees there does not matter: any other text that goes on with
the same characters, and has a blank or nothing where the two texts part, begins with the
same lexeme.
-/

namespace Stepwise.Lexeme

open Text

variable {r r' : Reader} {width : CharWidth}

section

variable {l : Lexeme} {s : Reader}

/-- The word that a text begins with. -/
def leadingWord (cs : List Char) : List Char := cs.take 1 ++ (cs.drop 1).takeWhile isWordPart

theorem leadingWord_local {cs ds : List Char} (hcs : cs ≠ [])
    (hs : Shares (leadingWord cs).length cs ds) : leadingWord ds = leadingWord cs := by
  obtain ⟨c, cs, rfl⟩ := List.exists_cons_of_ne_nil hcs
  obtain ⟨ds, rfl, hds⟩ := hs.cons
  exact congrArg (c :: ·) (hds.takeWhile (by decide) (by decide))

/-- The mark that follows the word a text begins with. -/
def quoteAfterWord (cs : List Char) : Option Char := (cs.drop (leadingWord cs).length).head?

theorem length_quoteAfterWord {cs : List Char} {c : Char} (h : quoteAfterWord cs = some c) :
    (leadingWord cs).length + 1 ≤ cs.length := by
  have hpos := List.length_pos_of_mem (List.mem_of_mem_head? h)
  rw [List.length_drop] at hpos
  omega

/-- What a word is: a string or character literal whose character set it announces, or itself. -/
theorem word_eq (hr : r.rest ≠ []) :
    (∃ width, literalWidth? (String.ofList (leadingWord r.rest)) = some width ∧
      quoteAfterWord r.rest = some '"' ∧ word r hr =
        stringBody r width (r.drop ((leadingWord r.rest).length + 1)) []
          (Reader.length_drop_lt (Nat.succ_pos _) hr)) ∨
    (∃ width, literalWidth? (String.ofList (leadingWord r.rest)) = some width ∧
      quoteAfterWord r.rest = some '\'' ∧ word r hr =
        charLiteral r width (r.drop ((leadingWord r.rest).length + 1))
          (Reader.length_drop_lt (Nat.succ_pos _) hr)) ∨
    ((∀ d ∈ quoteAfterWord r.rest, d ∈ ['"', '\''] →
        literalWidth? (String.ofList (leadingWord r.rest)) = none) ∧
      Gives (word r hr) (ofWord (String.ofList (leadingWord r.rest)))
        (r.drop (leadingWord r.rest).length)) := by
  rcases r with ⟨_ | ⟨c, cs⟩, p⟩
  case nil => exact absurd rfl hr
  have hname : leadingWord (c :: cs) = c :: cs.takeWhile isWordPart := rfl
  simp only [word, List.head_cons, List.drop_succ_cons, List.drop_zero, Reader.rest_drop,
    Reader.drop_drop, ← hname]
  split
  case h_1 width hwidth hquote => exact .inl ⟨width, hwidth, hquote, rfl⟩
  case h_2 width hwidth hquote => exact .inr (.inl ⟨width, hwidth, hquote, rfl⟩)
  case h_3 hstring hchar =>
    refine .inr (.inr ⟨fun d hd hm => ?_, _, rfl, rfl, rfl⟩)
    cases hwidth : literalWidth? (String.ofList (leadingWord (c :: cs))) with
    | none => rfl
    | some width =>
      simp only [List.mem_cons, List.not_mem_nil, or_false] at hm
      obtain rfl | rfl := hm
      · exact absurd hd (hstring width hwidth)
      · exact absurd hd (hchar width hwidth)

section

variable {hr : r.rest ≠ []}

theorem word_string (hwidth : literalWidth? (String.ofList (leadingWord r.rest)) = some width)
    (hquote : quoteAfterWord r.rest = some '"') :
    word r hr = stringBody r width (r.drop ((leadingWord r.rest).length + 1)) []
      (Reader.length_drop_lt (Nat.succ_pos _) hr) := by
  obtain ⟨w, hw, -, heq⟩ | ⟨w, -, hq, -⟩ | ⟨hnone, -⟩ := word_eq hr
  · cases hw.symm.trans hwidth
    exact heq
  · cases hq.symm.trans hquote
  · cases (hnone '"' hquote (by decide)).symm.trans hwidth

theorem word_char (hwidth : literalWidth? (String.ofList (leadingWord r.rest)) = some width)
    (hquote : quoteAfterWord r.rest = some '\'') :
    word r hr = charLiteral r width (r.drop ((leadingWord r.rest).length + 1))
      (Reader.length_drop_lt (Nat.succ_pos _) hr) := by
  obtain ⟨w, -, hq, -⟩ | ⟨w, hw, -, heq⟩ | ⟨hnone, -⟩ := word_eq hr
  · cases hq.symm.trans hquote
  · cases hw.symm.trans hwidth
    exact heq
  · cases (hnone '\'' hquote (by decide)).symm.trans hwidth

theorem word_plain (h : ∀ d ∈ quoteAfterWord r.rest, d ∈ ['"', '\''] →
      literalWidth? (String.ofList (leadingWord r.rest)) = none) :
    Gives (word r hr) (ofWord (String.ofList (leadingWord r.rest)))
      (r.drop (leadingWord r.rest).length) := by
  obtain ⟨w, hw, hq, -⟩ | ⟨w, hw, hq, -⟩ | ⟨-, hgives⟩ := word_eq hr
  · cases hw.symm.trans (h '"' hq (by decide))
  · cases hw.symm.trans (h '\'' hq (by decide))
  · exact hgives

end

/-- A word, or a literal that it opens, is read off its own characters. -/
theorem word_local {hr : r.rest ≠ []} (h : Gives (word r hr) l s) :
    ∃ n, 0 < n ∧ n ≤ r.rest.length ∧ s = r.drop n ∧
      ∀ (r' : Reader) (hr' : r'.rest ≠ []), Shares n r.rest r'.rest →
        Gives (word r' hr') l (r'.drop n) := by
  have hpos : 0 < (leadingWord r.rest).length := by
    obtain ⟨c, cs, hrest⟩ := List.exists_cons_of_ne_nil hr
    rw [hrest]
    exact Nat.succ_pos _
  -- where a quote follows the word, it follows it in every text that shares the quote
  have hquoted (k : Nat) (r' : Reader)
      (hs : Shares ((leadingWord r.rest).length + 1 + k) r.rest r'.rest) :
      leadingWord r'.rest = leadingWord r.rest ∧
        quoteAfterWord r'.rest = quoteAfterWord r.rest := by
    have hname := leadingWord_local hr (hs.mono (by omega))
    refine ⟨hname, ?_⟩
    rw [quoteAfterWord, hname]
    exact (hs.mono (Nat.le_add_right _ k)).drop.head? Nat.one_pos
  obtain ⟨width, hwidth, hquote, heq⟩ | ⟨width, hwidth, hquote, heq⟩ | ⟨hplain, hgives⟩ :=
    word_eq hr
  · rw [heq] at h
    obtain ⟨k, hk, rfl, hlocal⟩ := stringBody_local h
    rw [Reader.rest_drop, List.length_drop] at hk
    have hle := length_quoteAfterWord hquote
    refine ⟨_, by omega, by omega, Reader.drop_drop _ _ _, fun r' hr' hs => ?_⟩
    obtain ⟨hname, hquote'⟩ := hquoted k r' hs
    have hgives := hlocal r' _ (Reader.length_drop_lt (Nat.succ_pos _) hr') hs.drop
    rw [Reader.drop_drop] at hgives
    rw [word_string (by rw [hname, hwidth]) (by rw [hquote', hquote])]
    simp only [hname]
    exact hgives
  · rw [heq] at h
    obtain ⟨k, hk, rfl, hlocal⟩ := charLiteral_local h
    rw [Reader.rest_drop, List.length_drop] at hk
    have hle := length_quoteAfterWord hquote
    refine ⟨_, by omega, by omega, Reader.drop_drop _ _ _, fun r' hr' hs => ?_⟩
    obtain ⟨hname, hquote'⟩ := hquoted k r' hs
    have hgives := hlocal r' _ (Reader.length_drop_lt (Nat.succ_pos _) hr') hs.drop
    rw [Reader.drop_drop] at hgives
    rw [word_char (by rw [hname, hwidth]) (by rw [hquote', hquote])]
    simp only [hname]
    exact hgives
  · obtain ⟨x, hx, rfl, rfl⟩ := h
    obtain ⟨y, hy, hvalue, hnext⟩ := hgives
    cases hx.symm.trans hy
    have hlen : (leadingWord r.rest).length ≤ r.rest.length := by
      obtain ⟨c, cs, hrest⟩ := List.exists_cons_of_ne_nil hr
      rw [hrest]
      exact Nat.succ_le_succ (List.takeWhile_prefix _).length_le
    refine ⟨_, hpos, hlen, hnext, fun r' hr' hs => ?_⟩
    have hname := leadingWord_local hr hs
    rw [hvalue, ← hname]
    refine word_plain fun d hd hm => ?_
    rw [hname]
    rw [quoteAfterWord, hname] at hd
    obtain hsame | hends := (Shares.drop (n := 0) hs).head?_or
    · rw [hsame] at hd
      exact hplain d hd hm
    · rcases hends d hd with rfl | rfl <;> exact absurd hm (by decide)

end

/-- A run without blanks that begins `ds` begins `cs` too. -/
theorem prefix_of_shares {n : Nat} {cs ds mark : List Char} (hs : Shares n cs ds)
    (hmark : ∀ c ∈ mark, c ≠ ' ' ∧ c ≠ '\n') (h : mark <+: ds) : mark <+: cs := by
  obtain ⟨run, tail, tail', rfl, rfl, -, ht⟩ := hs
  induction run generalizing mark with
  | nil =>
    cases mark with
    | nil => exact List.nil_prefix
    | cons c mark =>
      obtain ⟨rest, rfl⟩ := h
      obtain ⟨hspace, hline⟩ := hmark c List.mem_cons_self
      rcases ht c rfl with hc | hc
      · exact absurd hc hspace
      · exact absurd hc hline
  | cons d run ih =>
    cases mark with
    | nil => exact List.nil_prefix
    | cons c mark =>
      obtain ⟨rfl, hrest⟩ := List.cons_prefix_cons.mp h
      exact List.cons_prefix_cons.mpr ⟨rfl,
        ih (fun d hd => hmark d (List.mem_cons_of_mem c hd)) hrest⟩

theorem leading?_local {cs ds : List Char} {symbol : Symbol}
    (h : Symbol.leading? cs = some symbol) (hs : Shares symbol.chars.length cs ds) :
    Symbol.leading? ds = some symbol := by
  have hall : ∀ s : Symbol, ∀ c ∈ s.chars, c ≠ ' ' ∧ c ≠ '\n' := by
    intro s
    cases s <;> simp [Symbol.chars]
  obtain ⟨hpre, before, after, hlist, hbefore⟩ := List.find?_eq_some_iff_append.mp h
  refine List.find?_eq_some_iff_append.mpr ⟨?_, before, after, hlist, fun s hmem => ?_⟩
  · rw [List.isPrefixOf_iff_prefix, List.prefix_iff_eq_take] at hpre ⊢
    rw [hs.take]
    exact hpre
  · have hno := hbefore s hmem
    simp only [Bool.not_eq_true', Bool.eq_false_iff, ne_eq, List.isPrefixOf_iff_prefix] at hno ⊢
    exact fun hp => hno (prefix_of_shares hs (hall s) hp)

/-- A number begins here: a digit, or a point with a digit after it. -/
def startsNumber (r : Reader) (hr : r.rest ≠ []) : Bool :=
  (r.rest.head hr).isDigit || (r.rest.head hr = '.' && (r.rest.drop 1).head?.any Char.isDigit)

theorem startsNumber_local {n : Nat} (hr : r.rest ≠ []) (hr' : r'.rest ≠ []) (hn : 0 < n)
    (hs : Shares n r.rest r'.rest)
    (htwo : startsNumber r hr = true → (r.rest.drop 1).head?.any Char.isDigit = true → 2 ≤ n) :
    startsNumber r' hr' = startsNumber r hr := by
  have hhead : r'.rest.head hr' = r.rest.head hr :=
    Option.some.inj (by rw [← List.head?_eq_some_head, ← List.head?_eq_some_head, hs.head? hn])
  obtain ⟨k, rfl⟩ : ∃ k, n = 1 + k := ⟨n - 1, by omega⟩
  obtain hsame | hends := hs.drop.head?_or
  · simp only [startsNumber, hhead, hsame]
  · have hnone : (r'.rest.drop 1).head?.any Char.isDigit = false := by
      rw [Option.any_eq_false]
      intro d hd
      rcases hends d hd with rfl | rfl <;> decide
    cases hdigit : (r.rest.drop 1).head?.any Char.isDigit with
    | false => simp only [startsNumber, hhead, hnone, hdigit]
    | true =>
      cases hstart : startsNumber r hr with
      | false =>
        simp only [startsNumber, hdigit, Bool.and_true, Bool.or_eq_false_iff] at hstart
        simp only [startsNumber, hhead, hnone, hstart, Bool.and_false, Bool.or_false]
      | true =>
        have hk : 0 < k := by have := htwo hstart hdigit; omega
        rw [hs.drop.head? hk, hdigit] at hnone
        cases hnone

theorem length_drop_chars_lt (r : Reader) (hr : r.rest ≠ []) (s : Symbol) :
    (r.drop s.chars.length).rest.length < r.rest.length :=
  Reader.length_drop_lt (List.length_pos_iff.2 s.chars_ne_nil) hr

/-- The symbol that a text begins with. -/
def leadingSymbol (r : Reader) (hr : r.rest ≠ []) : Except LexError (Reading r Lexeme) :=
  match Symbol.leading? r.rest with
  | some s => .ok ⟨.symbol s, r.drop s.chars.length, length_drop_chars_lt r hr s⟩
  | none => .error (.between r (r.drop 1) (.unexpected (r.rest.head hr)))

theorem next_eq (r : Reader) (hr : r.rest ≠ []) : next r hr =
    if r.rest.head hr = '"' then
      stringBody r .narrow (r.drop 1) [] (Reader.length_drop_lt Nat.zero_lt_one hr)
    else if r.rest.head hr = '\'' then
      charLiteral r .narrow (r.drop 1) (Reader.length_drop_lt Nat.zero_lt_one hr)
    else if startsNumber r hr then number r hr
    else if isWordStart (r.rest.head hr) then word r hr
    else leadingSymbol r hr :=
  rfl

theorem gives_leadingSymbol {hr : r.rest ≠ []} {l : Lexeme} {s : Reader} :
    Gives (leadingSymbol r hr) l s ↔
      ∃ symbol, Symbol.leading? r.rest = some symbol ∧ l = .symbol symbol ∧
        s = r.drop symbol.chars.length := by
  unfold leadingSymbol
  split
  · next symbol h =>
    rw [h]
    constructor
    · rintro ⟨x, ⟨⟩, rfl, rfl⟩
      exact ⟨symbol, rfl, rfl, rfl⟩
    · rintro ⟨_, ⟨⟩, rfl, rfl⟩
      exact ⟨_, rfl, rfl, rfl⟩
  · next h => simp [Gives, h]

/-- **Lexemes are local.** A lexeme is read off its own characters. -/
theorem next_local {hr : r.rest ≠ []} {l : Lexeme} {s : Reader} (h : Gives (next r hr) l s) :
    ∃ n, 0 < n ∧ n ≤ r.rest.length ∧ s = r.drop n ∧
      ∀ (r' : Reader) (hr' : r'.rest ≠ []), Shares n r.rest r'.rest →
        Gives (next r' hr') l (r'.drop n) := by
  have hhead (n : Nat) (hn : 0 < n) (r' : Reader) (hr' : r'.rest ≠ [])
      (hs : Shares n r.rest r'.rest) : r'.rest.head hr' = r.rest.head hr :=
    Option.some.inj (by rw [← List.head?_eq_some_head, ← List.head?_eq_some_head, hs.head? hn])
  have hpos := List.length_pos_iff.mpr hr
  rw [next_eq] at h
  split at h
  case isTrue hstring =>
    obtain ⟨k, hk, rfl, hlocal⟩ := stringBody_local h
    rw [Reader.rest_drop, List.length_drop] at hk
    refine ⟨1 + k, by omega, by omega, Reader.drop_drop _ _ _, fun r' hr' hs => ?_⟩
    rw [next_eq, if_pos ((hhead _ (by omega) r' hr' hs).trans hstring), ← Reader.drop_drop]
    exact hlocal r' _ _ hs.drop
  case isFalse hstring =>
  split at h
  case isTrue hchar =>
    obtain ⟨k, hk, rfl, hlocal⟩ := charLiteral_local h
    rw [Reader.rest_drop, List.length_drop] at hk
    refine ⟨1 + k, by omega, by omega, Reader.drop_drop _ _ _, fun r' hr' hs => ?_⟩
    have hc := hhead _ (by omega) r' hr' hs
    rw [next_eq, hc, if_neg hstring, if_pos hchar, ← Reader.drop_drop]
    exact hlocal r' _ _ hs.drop
  case isFalse hchar =>
  split at h
  case isTrue hnumber =>
    obtain ⟨n, hn, htwo, hle, rfl, hlocal⟩ := number_local h
    refine ⟨n, hn, hle, rfl, fun r' hr' hs => ?_⟩
    have hc := hhead n hn r' hr' hs
    rw [next_eq, hc, if_neg hstring, if_neg hchar, startsNumber_local hr hr' hn hs fun _ => htwo,
      if_pos hnumber]
    exact hlocal r' hr' hs
  case isFalse hnumber =>
  have hnumber' (n : Nat) (hn : 0 < n) (r' : Reader) (hr' : r'.rest ≠ [])
      (hs : Shares n r.rest r'.rest) : ¬ startsNumber r' hr' = true := by
    rw [startsNumber_local hr hr' hn hs fun h => absurd h hnumber]
    exact hnumber
  split at h
  case isTrue hword =>
    obtain ⟨n, hn, hle, rfl, hlocal⟩ := word_local h
    refine ⟨n, hn, hle, rfl, fun r' hr' hs => ?_⟩
    have hc := hhead n hn r' hr' hs
    rw [next_eq, hc, if_neg hstring, if_neg hchar, if_neg (hnumber' n hn r' hr' hs), if_pos hword]
    exact hlocal r' hr' hs
  case isFalse hword =>
    obtain ⟨symbol, hlead, rfl, rfl⟩ := gives_leadingSymbol.mp h
    have hn : 0 < symbol.chars.length := List.length_pos_iff.mpr symbol.chars_ne_nil
    have hle : symbol.chars.length ≤ r.rest.length :=
      (List.isPrefixOf_iff_prefix.mp (List.find?_eq_some_iff_append.mp hlead).1).length_le
    refine ⟨_, hn, hle, rfl, fun r' hr' hs => ?_⟩
    have hc := hhead _ hn r' hr' hs
    rw [next_eq, hc, if_neg hstring, if_neg hchar, if_neg (hnumber' _ hn r' hr' hs), if_neg hword]
    exact gives_leadingSymbol.mpr ⟨symbol, leading?_local hlead hs, rfl, rfl⟩

theorem ofWord_ne_endOfFile (name : String) : ofWord name ≠ .endOfFile := by
  unfold ofWord
  split
  · exact Lexeme.noConfusion
  · split
    · exact Lexeme.noConfusion
    · split <;> exact Lexeme.noConfusion

theorem word_ne_endOfFile {hr : r.rest ≠ []} {l : Lexeme} {s : Reader}
    (h : Gives (word r hr) l s) : l ≠ .endOfFile := by
  obtain ⟨width, -, -, heq⟩ | ⟨width, -, -, heq⟩ | ⟨-, y, hy, hvalue, -⟩ := word_eq hr
  · obtain ⟨text, rfl⟩ := exists_string (heq ▸ h)
    exact Lexeme.noConfusion
  · obtain ⟨-, code, -, -, -, -, rfl, -⟩ := gives_charLiteral.mp (heq ▸ h)
    exact Lexeme.noConfusion
  · obtain ⟨x, hx, rfl, -⟩ := h
    cases hx.symm.trans hy
    rw [hvalue]
    exact ofWord_ne_endOfFile _

/-- No text has the end of the file as its next lexeme. -/
theorem next_ne_endOfFile {hr : r.rest ≠ []} {l : Lexeme} {s : Reader}
    (h : Gives (next r hr) l s) : l ≠ .endOfFile := by
  rw [next_eq] at h
  split at h
  case isTrue =>
    obtain ⟨text, rfl⟩ := exists_string h
    exact Lexeme.noConfusion
  case isFalse =>
  split at h
  case isTrue =>
    obtain ⟨-, code, -, -, -, -, rfl, -⟩ := gives_charLiteral.mp h
    exact Lexeme.noConfusion
  case isFalse =>
  split at h
  case isTrue => exact number_ne_endOfFile h
  case isFalse =>
  split at h
  case isTrue => exact word_ne_endOfFile h
  case isFalse =>
    obtain ⟨symbol, -, rfl, -⟩ := gives_leadingSymbol.mp h
    exact Lexeme.noConfusion

end Stepwise.Lexeme
