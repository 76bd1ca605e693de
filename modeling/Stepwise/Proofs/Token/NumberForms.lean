import Stepwise.Proofs.Token.Quoted

/-! # Numerals are local

The lexer finds the end of a numeral by what does not go on with it, part by part: digits, a
fraction, an exponent and a suffix. Each part is read off its own characters, and so is the
numeral.
-/

namespace Stepwise.Lexeme

open Text

variable {r : Reader}

theorem integerSuffix_local {cs ds : List Char} (h : Shares (integerSuffix cs).2.2 cs ds) :
    integerSuffix ds = integerSuffix cs := by
  have hletters := Shares.takeWhile (by decide) (by decide) h
  simp only [integerSuffix, hletters]

theorem fractionPart_eq (c : Char) (cs : List Char) :
    fractionPart (c :: cs) = if c = '.' then '.' :: cs.takeWhile Char.isDigit else [] := by
  unfold fractionPart
  split
  · next h => simp_all
  · next h => rw [if_neg (fun hc => h cs (by rw [hc]))]

theorem fractionPart_of_ends {cs : List Char} (h : Ends cs) : fractionPart cs = [] := by
  cases cs with
  | nil => rfl
  | cons c cs =>
    rcases h c rfl with rfl | rfl <;> exact fractionPart_eq _ _

theorem exponentPart_of_ends {cs : List Char} (h : Ends cs) : exponentPart cs = [] := by
  cases cs with
  | nil => rfl
  | cons c cs =>
    rcases h c rfl with rfl | rfl <;> rfl

theorem fractionPart_local {cs ds : List Char} (h : Shares (fractionPart cs).length cs ds) :
    fractionPart ds = fractionPart cs := by
  obtain ⟨hn, hends⟩ | ⟨c, cs, ds, rfl, rfl, hs⟩ := h.cases
  · rw [fractionPart_of_ends hends, List.length_eq_zero_iff.mp hn]
  · rw [fractionPart_eq, fractionPart_eq] at *
    split
    · next hc =>
      rw [if_pos hc, List.length_cons, Nat.add_sub_cancel] at hs
      rw [hs.takeWhile (by decide) (by decide)]
    · rfl

/-- The number of signs at the start of an exponent. -/
def signs (cs : List Char) : Nat :=
  if cs.head? = some '+' ∨ cs.head? = some '-' then 1 else 0

theorem exponentPart_eq (c : Char) (cs : List Char) :
    exponentPart (c :: cs) = if c = 'e' || c = 'E' then
      'e' :: (cs.take (signs cs) ++ (cs.drop (signs cs)).takeWhile Char.isDigit) else [] := by
  simp only [exponentPart]
  congr 1
  cases cs with
  | nil => rfl
  | cons d cs =>
    simp only [signs, List.head?_cons, Option.some.injEq]
    by_cases hd : d = '+' ∨ d = '-' <;> simp [hd]

theorem exponentPart_local {cs ds : List Char} (h : Shares (exponentPart cs).length cs ds) :
    exponentPart ds = exponentPart cs := by
  obtain ⟨hn, hends⟩ | ⟨c, cs, ds, rfl, rfl, hs⟩ := h.cases
  · rw [exponentPart_of_ends hends, List.length_eq_zero_iff.mp hn]
  rw [exponentPart_eq] at hs
  rw [exponentPart_eq, exponentPart_eq]
  split
  case isFalse => rfl
  case isTrue hmark =>
    rw [if_pos hmark, List.length_cons, Nat.add_sub_cancel, List.length_append] at hs
    have hle : signs cs ≤ cs.length := by
      unfold signs
      split
      · next hsign => cases cs <;> simp_all
      · exact Nat.zero_le _
    rw [List.length_take_of_le hle] at hs
    have hsigns : signs ds = signs cs := by
      obtain ⟨hn, hends⟩ | ⟨d, cs, ds, rfl, rfl, -⟩ := hs.cases
      · rw [Nat.eq_zero_of_add_eq_zero_right hn, signs, if_neg]
        rintro (hd | hd) <;> (have hchar := hends _ hd; simp at hchar)
      · rfl
    have htake := (hs.mono (Nat.le_add_right (signs cs) _)).take
    have hdigits := hs.drop.takeWhile (by decide) (by decide)
    rw [hsigns, htake, hdigits]

theorem announcedBase?_of_ends {cs : List Char} (c : Char) (h : Ends cs) :
    announcedBase? (c :: cs) = none := by
  unfold announcedBase?
  split
  case h_5 => rfl
  all_goals
    next heq =>
    obtain ⟨rfl, rfl⟩ := List.cons.inj heq
    have := h _ rfl
    simp at this

theorem announcedBase?_some {cs : List Char} {base : Nat} (h : announcedBase? cs = some base) :
    2 ≤ cs.length ∧ base ≤ 16 := by
  unfold announcedBase? at h
  split at h
  case h_5 => cases h
  all_goals
    cases h
    simp

theorem announcedBase?_cons_cons (c d : Char) (cs ds : List Char) :
    announcedBase? (c :: d :: ds) = announcedBase? (c :: d :: cs) := by
  have hnone (xs : List Char)
      (h : ¬ ((c = '0') ∧ (d = 'x' ∨ d = 'X' ∨ d = 'b' ∨ d = 'B'))) :
      announcedBase? (c :: d :: xs) = none := by
    unfold announcedBase?
    split <;> simp_all
  by_cases h : (c = '0') ∧ (d = 'x' ∨ d = 'X' ∨ d = 'b' ∨ d = 'B')
  · obtain ⟨rfl, rfl | rfl | rfl | rfl⟩ := h <;> rfl
  · rw [hnone ds h, hnone cs h]

theorem announcedBase?_local {cs ds : List Char} {n : Nat} (hn : 0 < n)
    (h : Shares n cs ds) (hcs : announcedBase? cs ≠ none → 2 ≤ n) :
    announcedBase? ds = announcedBase? cs := by
  obtain ⟨rfl, -⟩ | ⟨c, cs, ds, rfl, rfl, hs⟩ := h.cases
  · cases hn
  obtain ⟨hone, hends⟩ | ⟨d, cs, ds, rfl, rfl, -⟩ := hs.cases
  · rw [announcedBase?_of_ends c hends]
    cases hbase : announcedBase? (c :: cs) with
    | none => rfl
    | some base =>
      have htwo := hcs (by rw [hbase]; exact Option.some_ne_none base)
      omega
  · exact announcedBase?_cons_cons c d cs ds

/-- The suffix of an integer is read off its own letters. -/
theorem integer_local {n radix : Nat} {digits text : List Char} {hn : 0 < n} {hr : r.rest ≠ []}
    {l : Lexeme} {s : Reader} (h : Gives (integer r n radix digits text hn hr) l s)
    (hlen : n ≤ r.rest.length) :
    ∃ k, n + k ≤ r.rest.length ∧ s = r.drop (n + k) ∧
      ∀ (r' : Reader) (hr' : r'.rest ≠ []), Shares (n + k) r.rest r'.rest →
        Gives (integer r' n radix digits text hn hr') l (r'.drop (n + k)) := by
  obtain ⟨x, h, rfl, rfl⟩ := h
  unfold integer at h
  split at h
  case h_1 => cases h
  case h_2 value hvalue =>
    cases h
    refine ⟨(integerSuffix (r.drop n).rest).2.2, ?_, rfl, fun r' hr' hs => ?_⟩
    · have hletters : (integerSuffix (r.drop n).rest).2.2 ≤ (r.drop n).rest.length :=
        (List.takeWhile_prefix _).length_le
      rw [Reader.rest_drop, List.length_drop] at hletters
      rw [Reader.rest_drop]
      omega
    · have hsuffix := integerSuffix_local hs.drop
      unfold integer
      simp only [hvalue, Reader.rest_drop, hsuffix]
      exact ⟨_, rfl, rfl, rfl⟩

/-- Whether a float with this suffix letter is single, and the number of letters that are read. -/
def floatSuffix (suffix : Option Char) : Bool × Nat :=
  let single := suffix = some 'f' || suffix = some 'F'
  (single, if single || suffix = some 'l' || suffix = some 'L' then 1 else 0)

theorem floatSuffix_le (cs : List Char) : (floatSuffix cs.head?).2 ≤ cs.length := by
  cases cs with
  | nil => exact Nat.le_refl 0
  | cons c cs =>
    simp only [floatSuffix, List.length_cons]
    split <;> omega

theorem floatSuffix_local {cs ds : List Char} (h : Shares (floatSuffix cs.head?).2 cs ds) :
    floatSuffix ds.head? = floatSuffix cs.head? := by
  obtain ⟨hn, hends⟩ | ⟨c, cs, ds, rfl, rfl, -⟩ := h.cases
  · have hds : floatSuffix ds.head? = (false, 0) := by
      cases ds with
      | nil => rfl
      | cons d ds => rcases hends d rfl with rfl | rfl <;> rfl
    have hcs : (floatSuffix cs.head?).1 = false := by
      simp only [floatSuffix, ite_eq_right_iff, Nat.one_ne_zero, imp_false, Bool.or_eq_true,
        not_or, Bool.not_eq_true] at hn
      exact Bool.or_eq_false_iff.mpr hn.1.1
    rw [hds, Prod.ext_iff]
    exact ⟨hcs.symm, hn.symm⟩
  · rfl

theorem gives_floating {n : Nat} {text : List Char} {hn : 0 < n} {hr : r.rest ≠ []} {l : Lexeme}
    {s : Reader} : Gives (floating r n text hn hr) l s ↔
      ∃ value, Decimal.read? (String.ofList text) = some value ∧
        l = .float value (floatSuffix (r.drop n).rest.head?).1 ∧
        s = r.drop (n + (floatSuffix (r.drop n).rest.head?).2) := by
  unfold floating
  cases Decimal.read? (String.ofList text) with
  | none => simp [Gives]
  | some value =>
    constructor
    · rintro ⟨x, ⟨⟩, rfl, rfl⟩
      exact ⟨value, rfl, rfl, rfl⟩
    · rintro ⟨_, ⟨⟩, rfl, rfl⟩
      exact ⟨_, rfl, rfl, rfl⟩

/-- The suffix of a float is read off its own letter. -/
theorem floating_local {n : Nat} {text : List Char} {hn : 0 < n} {hr : r.rest ≠ []}
    {l : Lexeme} {s : Reader} (h : Gives (floating r n text hn hr) l s)
    (hlen : n ≤ r.rest.length) :
    ∃ k, n + k ≤ r.rest.length ∧ s = r.drop (n + k) ∧
      ∀ (r' : Reader) (hr' : r'.rest ≠ []), Shares (n + k) r.rest r'.rest →
        Gives (floating r' n text hn hr') l (r'.drop (n + k)) := by
  obtain ⟨value, hvalue, rfl, rfl⟩ := gives_floating.mp h
  refine ⟨_, ?_, rfl, fun r' hr' hs => gives_floating.mpr ⟨value, hvalue, ?_⟩⟩
  · have hletters := floatSuffix_le (r.drop n).rest
    rw [Reader.rest_drop, List.length_drop] at hletters
    rw [Reader.rest_drop]
    omega
  · rw [Reader.rest_drop, Reader.rest_drop, floatSuffix_local hs.drop]
    exact ⟨rfl, rfl⟩

theorem isSpacedDigit_ends {base : Nat} (hb : base ≤ 16) :
    isSpacedDigit base ' ' = false ∧ isSpacedDigit base '\n' = false := by
  have hspace : digitValue ' ' = 16 := by decide
  have hline : digitValue '\n' = 16 := by decide
  constructor
  · exact Bool.or_eq_false_iff.mpr ⟨by decide, decide_eq_false (by rw [hspace]; omega)⟩
  · exact Bool.or_eq_false_iff.mpr ⟨by decide, decide_eq_false (by rw [hline]; omega)⟩

/-- The digits, the fraction and the exponent that follow the first character of a numeral whose
base is not announced. -/
def decimalParts (c : Char) (cs : List Char) : List Char × List Char × List Char :=
  let whole := cs.takeWhile (isSpacedDigit 10)
  let fraction := if c = '.' then [] else fractionPart (cs.drop whole.length)
  (whole, fraction, exponentPart (cs.drop (whole.length + fraction.length)))

theorem length_fractionPart_le (cs : List Char) : (fractionPart cs).length ≤ cs.length := by
  cases cs with
  | nil => exact Nat.le_refl 0
  | cons c cs =>
    rw [fractionPart_eq]
    split
    · exact Nat.succ_le_succ (List.takeWhile_prefix _).length_le
    · exact Nat.zero_le _

theorem length_exponentPart_le (cs : List Char) : (exponentPart cs).length ≤ cs.length := by
  cases cs with
  | nil => exact Nat.le_refl 0
  | cons c cs =>
    rw [exponentPart_eq]
    split
    · have hdigits : ((cs.drop (signs cs)).takeWhile Char.isDigit).length ≤ _ :=
        (List.takeWhile_prefix _).length_le
      rw [List.length_drop] at hdigits
      simp only [List.length_cons, List.length_append, List.length_take]
      omega
    · exact Nat.zero_le _

/-- The numeral with the given characters, whose base is not announced. -/
def ofParts (r : Reader) (hr : r.rest ≠ []) (c : Char) (whole fraction exponent : List Char) :
    Except LexError (Reading r Lexeme) :=
  let spaced := c :: (whole ++ fraction ++ exponent)
  let text := withoutQuotes spaced
  if c = '.' || !fraction.isEmpty || !exponent.isEmpty then
    floating r spaced.length text (Nat.succ_pos _) hr
  else
    match text with
    | '0' :: d :: ds => integer r spaced.length 8 (d :: ds) text (Nat.succ_pos _) hr
    | _ => integer r spaced.length 10 text text (Nat.succ_pos _) hr

section

variable {c : Char} {cs ds whole fraction exponent : List Char}

theorem number_announced_eq {base : Nat} (hr : r.rest ≠ [])
    (hbase : announcedBase? r.rest = some base) :
    number r hr = integer r (((r.rest.drop 2).takeWhile (isSpacedDigit base)).length + 2) base
      (withoutQuotes ((r.rest.drop 2).takeWhile (isSpacedDigit base)))
      (withoutQuotes ((r.rest.drop 2).takeWhile (isSpacedDigit base))) (Nat.succ_pos _) hr := by
  unfold number
  split
  · next base' hbase' =>
    cases hbase.symm.trans hbase'
    rfl
  · next hbase' => cases hbase.symm.trans hbase'

theorem number_eq (hr : r.rest ≠ []) (hrest : r.rest = c :: cs)
    (hbase : announcedBase? r.rest = none)
    (hparts : decimalParts c cs = (whole, fraction, exponent)) :
    number r hr = ofParts r hr c whole fraction exponent := by
  rcases r with ⟨_, p⟩
  subst hrest
  obtain ⟨rfl, rfl, rfl⟩ : _ ∧ _ ∧ _ := by simpa only [decimalParts, Prod.mk.injEq] using hparts
  unfold number
  split
  · next base hbase' => cases hbase.symm.trans hbase'
  · rfl

theorem length_decimalParts_le (h : decimalParts c cs = (whole, fraction, exponent)) :
    whole.length + fraction.length + exponent.length ≤ cs.length := by
  obtain ⟨rfl, hfraction, rfl⟩ : _ ∧ _ ∧ _ := by simpa only [decimalParts, Prod.mk.injEq] using h
  rw [hfraction]
  have hwhole : (cs.takeWhile (isSpacedDigit 10)).length ≤ cs.length :=
    (List.takeWhile_prefix _).length_le
  have hle : fraction.length ≤ cs.length - (cs.takeWhile (isSpacedDigit 10)).length := by
    rw [← List.length_drop, ← hfraction]
    split
    · exact Nat.zero_le _
    · exact length_fractionPart_le _
  have hexponent := length_exponentPart_le
    (cs.drop ((cs.takeWhile (isSpacedDigit 10)).length + fraction.length))
  rw [List.length_drop] at hexponent
  omega

theorem isSpacedDigit_of_isDigit {d : Char} (h : d.isDigit = true) :
    isSpacedDigit 10 d = true := by
  have hdigit : 48 ≤ d.toNat ∧ d.toNat ≤ 57 := by
    simpa [Char.isDigit, UInt32.le_iff_toNat_le] using h
  simp only [isSpacedDigit, isDigitIn, digitValue, h, if_true, Bool.or_eq_true, decide_eq_true_eq]
  omega

theorem length_whole_pos (h : decimalParts c cs = (whole, fraction, exponent))
    (hdigit : cs.head?.any Char.isDigit = true) : 0 < whole.length := by
  obtain ⟨rfl, -⟩ : _ ∧ _ := by simpa only [decimalParts, Prod.mk.injEq] using h
  cases cs with
  | nil => cases hdigit
  | cons d cs =>
    rw [List.takeWhile_cons, if_pos (isSpacedDigit_of_isDigit hdigit)]
    exact Nat.succ_pos _

theorem decimalParts_local (h : decimalParts c cs = (whole, fraction, exponent))
    (hs : Shares (whole.length + fraction.length + exponent.length) cs ds) :
    decimalParts c ds = (whole, fraction, exponent) := by
  simp only [decimalParts, Prod.mk.injEq] at h ⊢
  obtain ⟨rfl, hfraction, hexponent⟩ := h
  obtain ⟨hspace, hline⟩ := isSpacedDigit_ends (show 10 ≤ 16 by decide)
  have hwhole : ds.takeWhile (isSpacedDigit 10) = cs.takeWhile (isSpacedDigit 10) :=
    (hs.mono (by omega)).takeWhile hspace hline
  rw [hfraction] at hexponent
  have hfraction' : (if c = '.' then []
      else fractionPart (ds.drop (cs.takeWhile (isSpacedDigit 10)).length)) = fraction := by
    rw [← hfraction]
    split
    · rfl
    · next hc =>
      rw [if_neg hc] at hfraction
      refine fractionPart_local (Shares.drop (hs.mono ?_))
      rw [hfraction]
      omega
  rw [hwhole, hfraction']
  refine ⟨rfl, rfl, ?_⟩
  rw [← hexponent] at hs ⊢
  exact exponentPart_local hs.drop

theorem ofParts_local {hr : r.rest ≠ []} {l : Lexeme} {s : Reader}
    (h : Gives (ofParts r hr c whole fraction exponent) l s)
    (hlen : (c :: (whole ++ fraction ++ exponent)).length ≤ r.rest.length) :
    ∃ k, (c :: (whole ++ fraction ++ exponent)).length + k ≤ r.rest.length ∧
      s = r.drop ((c :: (whole ++ fraction ++ exponent)).length + k) ∧
      ∀ (r' : Reader) (hr' : r'.rest ≠ []),
        Shares ((c :: (whole ++ fraction ++ exponent)).length + k) r.rest r'.rest →
          Gives (ofParts r' hr' c whole fraction exponent) l
            (r'.drop ((c :: (whole ++ fraction ++ exponent)).length + k)) := by
  simp only [ofParts] at h ⊢
  split at h
  case isTrue hfloat =>
    simp only [if_pos hfloat]
    exact floating_local h hlen
  case isFalse hfloat =>
    simp only [if_neg hfloat]
    split at h
    · exact integer_local h hlen
    · exact integer_local h hlen

end

/-- A numeric literal is read off its own characters, a digit in second place among them. -/
theorem number_local {hr : r.rest ≠ []} {l : Lexeme} {s : Reader}
    (h : Gives (number r hr) l s) :
    ∃ n, 0 < n ∧ ((r.rest.drop 1).head?.any Char.isDigit = true → 2 ≤ n) ∧
      n ≤ r.rest.length ∧ s = r.drop n ∧
      ∀ (r' : Reader) (hr' : r'.rest ≠ []), Shares n r.rest r'.rest →
        Gives (number r' hr') l (r'.drop n) := by
  cases hbase : announcedBase? r.rest with
  | some base =>
    obtain ⟨htwo, hsixteen⟩ := announcedBase?_some hbase
    obtain ⟨hspace, hline⟩ := isSpacedDigit_ends hsixteen
    have hlen : ((r.rest.drop 2).takeWhile (isSpacedDigit base)).length ≤ r.rest.length - 2 := by
      rw [← List.length_drop]
      exact (List.takeWhile_prefix _).length_le
    rw [number_announced_eq hr hbase] at h
    obtain ⟨k, hk, rfl, hlocal⟩ := integer_local h (by omega)
    refine ⟨_, by omega, fun _ => by omega, hk, rfl, fun r' hr' hs => ?_⟩
    have hbase' : announcedBase? r'.rest = some base := by
      rw [announcedBase?_local (by omega) hs (fun _ => by omega), hbase]
    have hspaced : (r'.rest.drop 2).takeWhile (isSpacedDigit base) =
        (r.rest.drop 2).takeWhile (isSpacedDigit base) :=
      (hs.mono (by omega : 2 + _ ≤ _)).drop.takeWhile hspace hline
    rw [number_announced_eq hr' hbase']
    simp only [hspaced]
    exact hlocal r' hr' hs
  | none =>
    obtain ⟨c, cs, hrest⟩ := List.exists_cons_of_ne_nil hr
    obtain ⟨whole, fraction, exponent, hparts⟩ :
        ∃ whole fraction exponent, decimalParts c cs = (whole, fraction, exponent) :=
      ⟨_, _, _, rfl⟩
    have hle := length_decimalParts_le hparts
    have hlen : (c :: (whole ++ fraction ++ exponent)).length ≤ r.rest.length := by
      simp only [hrest, List.length_cons, List.length_append]
      omega
    rw [number_eq hr hrest hbase hparts] at h
    obtain ⟨k, hk, rfl, hlocal⟩ := ofParts_local h hlen
    have hpos : 0 < (c :: (whole ++ fraction ++ exponent)).length + k :=
      Nat.lt_of_lt_of_le (Nat.succ_pos _) (Nat.le_add_right _ k)
    have htwo : (r.rest.drop 1).head?.any Char.isDigit = true →
        2 ≤ (c :: (whole ++ fraction ++ exponent)).length + k := by
      intro hdigit
      have hwhole := length_whole_pos hparts (by rw [hrest] at hdigit; exact hdigit)
      simp only [List.length_cons, List.length_append]
      omega
    refine ⟨_, hpos, htwo, hk, rfl, fun r' hr' hs => ?_⟩
    have hbase' : announcedBase? r'.rest = none := by
      rw [announcedBase?_local hpos hs (fun hne => absurd hbase hne), hbase]
    obtain ⟨ds, hrest', hds⟩ : ∃ ds, r'.rest = c :: ds ∧
        Shares (whole.length + fraction.length + exponent.length) cs ds := by
      rw [hrest] at hs
      refine Shares.cons (hs.mono ?_)
      simp only [List.length_cons, List.length_append]
      omega
    rw [number_eq hr' hrest' hbase' (decimalParts_local hparts hds)]
    exact hlocal r' hr' hs

theorem integer_ne_endOfFile {n radix : Nat} {digits text : List Char} {hn : 0 < n}
    {hr : r.rest ≠ []} {l : Lexeme} {s : Reader}
    (h : Gives (integer r n radix digits text hn hr) l s) : l ≠ .endOfFile := by
  obtain ⟨x, h, rfl, rfl⟩ := h
  unfold integer at h
  split at h <;> cases h
  exact Lexeme.noConfusion

theorem number_ne_endOfFile {hr : r.rest ≠ []} {l : Lexeme} {s : Reader}
    (h : Gives (number r hr) l s) : l ≠ .endOfFile := by
  cases hbase : announcedBase? r.rest with
  | some base =>
    rw [number_announced_eq hr hbase] at h
    exact integer_ne_endOfFile h
  | none =>
    obtain ⟨c, cs, hrest⟩ := List.exists_cons_of_ne_nil hr
    obtain ⟨whole, fraction, exponent, hparts⟩ :
        ∃ whole fraction exponent, decimalParts c cs = (whole, fraction, exponent) :=
      ⟨_, _, _, rfl⟩
    rw [number_eq hr hrest hbase hparts] at h
    simp only [ofParts] at h
    split at h
    · obtain ⟨value, -, rfl, -⟩ := gives_floating.mp h
      exact Lexeme.noConfusion
    · split at h <;> exact integer_ne_endOfFile h

end Stepwise.Lexeme
