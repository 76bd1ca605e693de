import Mathlib.Data.List.Basic
import Mathlib.Data.Nat.Digits.Defs
import Stepwise.Proofs.Token.NumberForms

/-! # Numerals

An integer literal is written as the mark of its base, its digits and its suffix letters.
What follows a literal in a text is blank or nothing, and then the lexer reads back the
number, the base and the suffix.
-/

namespace Stepwise

namespace Text

theorem digitValue_digitChar {d : Nat} (h : d < 16) : digitValue d.digitChar = d := by
  have hall : ∀ d : Fin 16, digitValue (Nat.digitChar d) = d := by decide
  exact hall ⟨d, h⟩

section

variable {b : Nat}

theorem isDigitIn_of_mem_toDigits (hb : 1 < b) (hb' : b ≤ 16) (n : Nat) :
    ∀ c ∈ Nat.toDigits b n, isDigitIn b c = true := by
  induction n using Nat.strongRecOn with
  | ind n ih =>
    rw [Nat.toDigits_eq_if hb]
    split
    case isTrue h =>
      simp only [List.mem_singleton, forall_eq, isDigitIn, decide_eq_true_eq]
      rwa [digitValue_digitChar (Nat.lt_of_lt_of_le h hb')]
    case isFalse h =>
      have hlast : n % b < b := Nat.mod_lt _ (by omega)
      intro c hc
      obtain hc | hc := List.mem_append.mp hc
      · exact ih (n / b) (Nat.div_lt_self (by omega) hb) c hc
      · rw [List.mem_singleton.mp hc]
        simp only [isDigitIn, decide_eq_true_eq]
        rwa [digitValue_digitChar (Nat.lt_of_lt_of_le hlast hb')]

theorem foldl_toDigits (hb : 1 < b) (hb' : b ≤ 16) (n : Nat) :
    (Nat.toDigits b n).foldl (fun n c => b * n + digitValue c) 0 = n := by
  induction n using Nat.strongRecOn with
  | ind n ih =>
    rw [Nat.toDigits_eq_if hb]
    split
    case isTrue h => simp [digitValue_digitChar (Nat.lt_of_lt_of_le h hb')]
    case isFalse h =>
      have hlast : n % b < b := Nat.mod_lt _ (by omega)
      rw [List.foldl_append, ih _ (Nat.div_lt_self (by omega) hb), List.foldl_cons, List.foldl_nil,
        digitValue_digitChar (Nat.lt_of_lt_of_le hlast hb'), Nat.div_add_mod]

/-- The digits of a number are read as that number. -/
theorem readNat?_toDigits (hb : 1 < b) (hb' : b ≤ 16) (n : Nat) :
    readNat? b (Nat.toDigits b n) = some n := by
  have hall : (Nat.toDigits b n).all (isDigitIn b) = true :=
    List.all_eq_true.mpr (isDigitIn_of_mem_toDigits hb hb' n)
  have hne : (Nat.toDigits b n).isEmpty = false := by simp [Nat.toDigits_ne_nil]
  simp only [readNat?, hall, hne, foldl_toDigits hb hb', Bool.not_false, Bool.and_self, if_true]

/-- Only zero has a leading zero. -/
theorem eq_zero_of_toDigits (hb : 1 < b) (hb' : b ≤ 16) {n : Nat} {ds : List Char}
    (h : Nat.toDigits b n = '0' :: ds) : n = 0 := by
  induction n using Nat.strongRecOn generalizing ds with
  | ind n ih =>
    rw [Nat.toDigits_eq_if hb] at h
    split at h
    case isTrue hn =>
      have hd : n.digitChar = '0' := (List.cons.inj h).1
      rw [← digitValue_digitChar (Nat.lt_of_lt_of_le hn hb'), hd]
      rfl
    case isFalse hn =>
      cases hds : Nat.toDigits b (n / b) with
      | nil => exact absurd hds Nat.toDigits_ne_nil
      | cons c cs =>
        rw [hds] at h
        obtain ⟨rfl, -⟩ := List.cons.inj h
        have hq : n / b = 0 := ih _ (Nat.div_lt_self (by omega) hb) hds
        exact absurd (Nat.div_eq_zero_iff_lt (by omega) |>.mp hq) hn

end

/-- Nothing follows, or a blank does. -/
def Breaks (cs : List Char) : Prop := ∀ c ∈ cs.head?, c = ' '

theorem Breaks.cases {cs : List Char} (h : Breaks cs) : cs = [] ∨ ∃ ds, cs = ' ' :: ds := by
  cases cs with
  | nil => exact .inl rfl
  | cons c ds => exact .inr ⟨ds, by rw [h c rfl]⟩

/-- A run of characters that satisfy `p` is all that is taken from a text where `p` stops. -/
theorem takeWhile_append_of_stop {p : Char → Bool} {cs tail : List Char}
    (hcs : ∀ c ∈ cs, p c = true) (ht : ∀ c ∈ tail.head?, p c = false) :
    (cs ++ tail).takeWhile p = cs := by
  have hnil : tail.takeWhile p = [] := by
    cases tail with
    | nil => rfl
    | cons c tail => rw [List.takeWhile_cons, ht c rfl]; rfl
  rw [List.takeWhile_append_of_pos hcs, hnil, List.append_nil]

end Text

namespace Lexeme

open Text

/-- The characters before the digits of an integer literal. -/
def radixMark : Nat → List Char
  | 2 => ['0', 'b']
  | 8 => ['0']
  | 16 => ['0', 'x']
  | _ => []

/-- The letters after the digits of an integer literal. -/
def suffix (unsigned long : Bool) : List Char :=
  (if unsigned then ['u'] else []) ++ if long then ['l'] else []

/-- The characters of an integer literal. -/
def numeral (value radix : Nat) (unsigned long : Bool) : List Char :=
  radixMark radix ++ Nat.toDigits radix value ++ suffix unsigned long

/-- The bases that integer literals are written in. -/
def radices : List Nat := [2, 8, 10, 16]

/-- The letters of integer suffixes. -/
def suffixLetters : List Char := ['u', 'U', 'l', 'L']

/-- The ways to announce a base; a letter announces some bases, small or as a capital. -/
inductive Base
  | binary (capital : Bool)
  | octal
  | decimal
  | hexadecimal (capital : Bool)

namespace Base

def radix : Base → Nat
  | binary _ => 2
  | octal => 8
  | decimal => 10
  | hexadecimal _ => 16

/-- The characters before the digits. -/
def mark : Base → List Char
  | binary capital => ['0', if capital then 'B' else 'b']
  | octal => ['0']
  | decimal => []
  | hexadecimal capital => ['0', if capital then 'X' else 'x']

theorem radix_mem_radices (b : Base) : b.radix ∈ radices := by
  cases b <;> simp [radix, radices]

theorem radix_le (b : Base) : b.radix ≤ 16 := by
  cases b <;> simp [radix]

end Base

/-- The text of an integer literal: the mark of its base, digits with quotes between or after them,
and letters of a suffix in any number and order. A lone zero is taken for a decimal. -/
structure IntegerText where
  base : Base
  spaced : List Char
  letters : List Char
  isSpacedDigit_of_mem : ∀ c ∈ spaced, isSpacedDigit base.radix c = true
  withoutQuotes_ne_nil : withoutQuotes spaced ≠ []
  head?_ne_quote : base = .decimal → spaced.head? ≠ some '\''
  withoutQuotes_ne_zero_cons : base = .decimal → ∀ d ds, withoutQuotes spaced ≠ '0' :: d :: ds
  mem_suffixLetters : ∀ c ∈ letters, c ∈ suffixLetters

namespace IntegerText

variable (w : IntegerText)

def digits : List Char := withoutQuotes w.spaced

def chars : List Char := w.base.mark ++ w.spaced ++ w.letters

/-- The number that the digits denote. -/
def value : Nat := Nat.ofDigits w.base.radix (w.digits.map digitValue).reverse

/-- Some letter of the suffix is a `u`. -/
def unsigned : Bool := w.letters.any fun c => c = 'u' || c = 'U'

/-- Some letter of the suffix is an `l`. -/
def long : Bool := w.letters.any fun c => c = 'l' || c = 'L'

def lexeme : Lexeme := .int w.value w.base.radix w.unsigned w.long

theorem isDigitIn_of_mem_digits {c : Char} (h : c ∈ w.digits) :
    isDigitIn w.base.radix c = true := by
  obtain ⟨hc, hquote⟩ := List.mem_filter.mp h
  have hspaced := w.isSpacedDigit_of_mem c hc
  simp only [decide_eq_true_eq] at hquote
  rwa [isSpacedDigit, decide_eq_false hquote, Bool.false_or] at hspaced

theorem readNat?_digits : readNat? w.base.radix w.digits = some w.value := by
  have hall : w.digits.all (isDigitIn w.base.radix) = true :=
    List.all_eq_true.mpr fun c hc => w.isDigitIn_of_mem_digits hc
  have hne : w.digits.isEmpty = false := List.isEmpty_eq_false_iff.mpr w.withoutQuotes_ne_nil
  rw [readNat?, hall, hne]
  simp only [Bool.not_false, Bool.and_self, if_true, value, Nat.ofDigits_eq_foldr,
    List.foldr_reverse, List.foldl_map, Option.some.injEq]
  simp only [Nat.cast_id, Nat.add_comm]

variable {r : Reader} {tail : List Char}

/-- What may follow the digits of a literal. -/
theorem mem_head?_letters_append (ht : Breaks tail) :
    ∀ c ∈ (w.letters ++ tail).head?, c ∈ ' ' :: suffixLetters := by
  intro c hc
  cases hletters : w.letters with
  | nil =>
    rw [hletters] at hc
    rw [ht c hc]
    exact List.mem_cons_self
  | cons d ds =>
    rw [hletters] at hc
    obtain rfl : d = c := Option.some.inj hc
    exact List.mem_cons_of_mem _ (w.mem_suffixLetters d (by rw [hletters]; exact List.mem_cons_self))

theorem integerSuffix_letters (ht : Breaks tail) :
    integerSuffix (w.letters ++ tail) = (w.unsigned, w.long, w.letters.length) := by
  have htake : (w.letters ++ tail).takeWhile (fun c => c = 'u' || c = 'U' || c = 'l' || c = 'L') =
      w.letters := by
    refine takeWhile_append_of_stop (fun c hc => ?_) fun c hc => ?_
    · simpa [suffixLetters, or_assoc] using w.mem_suffixLetters c hc
    · rw [ht c hc]
      rfl
  rw [integerSuffix, htake]
  rfl

/-- The digits end where the suffix begins. -/
theorem takeWhile_spaced {base : Nat} (hb : base ≤ 16) {cs : List Char}
    (hcs : ∀ c ∈ cs, isSpacedDigit base c = true) (ht : Breaks tail) :
    (cs ++ (w.letters ++ tail)).takeWhile (isSpacedDigit base) = cs := by
  refine takeWhile_append_of_stop hcs fun c hc => ?_
  have hall : ∀ c ∈ ' ' :: suffixLetters, c ≠ '\'' ∧ digitValue c = 16 :=
    List.forall_iff_forall_mem.mp (by decide)
  obtain ⟨hquote, hdigit⟩ := hall c (w.mem_head?_letters_append ht c hc)
  rw [isSpacedDigit, isDigitIn, hdigit, decide_eq_false hquote, Bool.false_or,
    decide_eq_false_iff_not, Nat.not_lt]
  exact hb

theorem fractionPart_letters (ht : Breaks tail) : fractionPart (w.letters ++ tail) = [] := by
  have hall : ∀ c ∈ ' ' :: suffixLetters, c ≠ '.' :=
    List.forall_iff_forall_mem.mp (by decide)
  cases h : w.letters ++ tail with
  | nil => rfl
  | cons c cs =>
    rw [fractionPart_eq, if_neg (hall c (w.mem_head?_letters_append ht c (by rw [h]; rfl)))]

theorem exponentPart_letters (ht : Breaks tail) : exponentPart (w.letters ++ tail) = [] := by
  have hall : ∀ c ∈ ' ' :: suffixLetters, ¬ (c = 'e' ∨ c = 'E') :=
    List.forall_iff_forall_mem.mp (by decide)
  cases h : w.letters ++ tail with
  | nil => rfl
  | cons c cs =>
    rw [exponentPart_eq, if_neg]
    simpa using hall c (w.mem_head?_letters_append ht c (by rw [h]; rfl))

/-- A leading zero announces a base only if a letter follows it. -/
theorem announcedBase?_plain {c : Char} {ds : List Char}
    (hds : ∀ d ∈ ds, isSpacedDigit 10 d = true) (ht : Breaks tail) :
    announcedBase? (c :: (ds ++ (w.letters ++ tail))) = none := by
  have hspaced : ∀ d ∈ ['x', 'X', 'b', 'B'], isSpacedDigit 10 d = false :=
    List.forall_iff_forall_mem.mp (by decide)
  have hsuffix : ∀ d ∈ ['x', 'X', 'b', 'B'], d ∉ ' ' :: suffixLetters :=
    List.forall_iff_forall_mem.mp (by decide)
  have hsecond : ∀ d ∈ (ds ++ (w.letters ++ tail)).head?, d ∉ ['x', 'X', 'b', 'B'] := by
    intro d hd hmark
    cases ds with
    | nil => exact hsuffix d hmark (w.mem_head?_letters_append ht d hd)
    | cons e ds =>
      obtain rfl : e = d := Option.some.inj hd
      have hdigit := hds e List.mem_cons_self
      rw [hspaced e hmark] at hdigit
      cases hdigit
  unfold announcedBase?
  split
  case h_5 => rfl
  all_goals
    rename_i heq
    rw [(List.cons.inj heq).2] at hsecond
    exact absurd (hsecond _ rfl) (by decide)

/-- The digits of a literal whose base is not announced. -/
theorem number_plain {c : Char} {ds : List Char} (hpoint : c ≠ '.')
    (hds : ∀ d ∈ ds, isSpacedDigit 10 d = true)
    (hrest : r.rest = c :: (ds ++ (w.letters ++ tail))) (ht : Breaks tail) (hr : r.rest ≠ []) :
    number r hr = ofParts r hr c ds [] [] := by
  refine number_eq hr hrest (hrest ▸ w.announcedBase?_plain hds ht) ?_
  simp only [decimalParts, w.takeWhile_spaced (by decide) hds ht, List.drop_left, if_neg hpoint,
    w.fractionPart_letters ht, List.length_nil, Nat.add_zero, w.exponentPart_letters ht]

theorem number_announced {mark : List Char} (hmark : mark.length = 2)
    (hrest : r.rest = mark ++ (w.spaced ++ (w.letters ++ tail)))
    (hbase : announcedBase? r.rest = some w.base.radix) (ht : Breaks tail) (hr : r.rest ≠ []) :
    number r hr =
      integer r (w.spaced.length + 2) w.base.radix w.digits w.digits (Nat.succ_pos _) hr := by
  have hspaced : (r.rest.drop 2).takeWhile (isSpacedDigit w.base.radix) = w.spaced := by
    rw [hrest, List.drop_left' hmark]
    exact w.takeWhile_spaced w.base.radix_le w.isSpacedDigit_of_mem ht
  rw [number_announced_eq hr hbase]
  simp only [hspaced]
  rfl

theorem number_octal (hoctal : w.base = .octal)
    (hrest : r.rest = '0' :: (w.spaced ++ (w.letters ++ tail))) (ht : Breaks tail)
    (hr : r.rest ≠ []) :
    number r hr = integer r (w.spaced.length + 1) 8 w.digits ('0' :: w.digits)
      (Nat.succ_pos _) hr := by
  have hds : ∀ d ∈ w.spaced, isSpacedDigit 10 d = true := by
    intro d hd
    have hdigit := w.isSpacedDigit_of_mem d hd
    simp only [hoctal, Base.radix, isSpacedDigit, isDigitIn, Bool.or_eq_true, decide_eq_true_eq]
      at hdigit ⊢
    exact hdigit.imp_right fun hlt => by omega
  rw [w.number_plain (by decide) hds hrest ht hr]
  have hdigits : withoutQuotes ('0' :: w.spaced) = '0' :: w.digits := rfl
  have hne : w.digits ≠ [] := w.withoutQuotes_ne_nil
  simp only [ofParts, List.append_nil, hdigits, List.length_cons]
  cases hcons : w.digits with
  | nil => exact absurd hcons hne
  | cons d ds => rfl

theorem number_decimal {c : Char} {ds : List Char} (hdecimal : w.base = .decimal)
    (hspaced : w.spaced = c :: ds) (hrest : r.rest = c :: (ds ++ (w.letters ++ tail)))
    (ht : Breaks tail) (hr : r.rest ≠ []) :
    number r hr = integer r (ds.length + 1) 10 w.digits w.digits (Nat.succ_pos _) hr := by
  have hds := w.isSpacedDigit_of_mem
  rw [hspaced, hdecimal] at hds
  obtain ⟨hc, hds⟩ := List.forall_mem_cons.mp hds
  have hpoint : c ≠ '.' := by
    rintro rfl
    cases hc
  have hdigits : withoutQuotes (c :: ds) = w.digits := by rw [digits, hspaced]
  rw [w.number_plain hpoint hds hrest ht hr]
  simp only [ofParts, List.append_nil, hdigits, List.length_cons, decide_eq_false hpoint,
    List.isEmpty_nil, Bool.not_true, Bool.or_false, Bool.false_eq_true, if_false]
  split
  · next d es hzero => exact absurd hzero (w.withoutQuotes_ne_zero_cons hdecimal d es)
  · rfl

/-- The lexer takes the digits and reads them in the base. -/
theorem number_eq_integer (hrest : r.rest = w.chars ++ tail) (ht : Breaks tail)
    (hr : r.rest ≠ []) :
    ∃ text hn, number r hr =
      integer r (w.base.mark ++ w.spaced).length w.base.radix w.digits text hn hr := by
  rw [chars, List.append_assoc, List.append_assoc] at hrest
  rw [List.length_append, Nat.add_comm]
  cases hbase : w.base with
  | binary capital =>
    rw [hbase] at hrest
    refine ⟨_, Nat.succ_pos _, hbase ▸ w.number_announced rfl hrest ?_ ht hr⟩
    rw [hrest, hbase]
    cases capital <;> rfl
  | hexadecimal capital =>
    rw [hbase] at hrest
    refine ⟨_, Nat.succ_pos _, hbase ▸ w.number_announced rfl hrest ?_ ht hr⟩
    rw [hrest, hbase]
    cases capital <;> rfl
  | octal =>
    rw [hbase] at hrest
    exact ⟨_, Nat.succ_pos _, w.number_octal hbase hrest ht hr⟩
  | decimal =>
    rw [hbase] at hrest
    cases hspaced : w.spaced with
    | nil => exact absurd (congrArg withoutQuotes hspaced) w.withoutQuotes_ne_nil
    | cons c ds =>
      rw [hspaced] at hrest
      exact ⟨_, Nat.succ_pos _, w.number_decimal hbase hspaced hrest ht hr⟩

/-- Numbers of at most 128 bits are read, others are refused. -/
theorem integer_digits {n : Nat} {text : List Char} (hn : 0 < n) (hr : r.rest ≠ [])
    (hs : (r.drop n).rest = w.letters ++ tail) (ht : Breaks tail) :
    (w.value < pow2 128 → ∃ h, integer r n w.base.radix w.digits text hn hr =
        .ok ⟨w.lexeme, r.drop (n + w.letters.length), h⟩) ∧
      (pow2 128 ≤ w.value → ∃ e, integer r n w.base.radix w.digits text hn hr = .error e) := by
  constructor
  · intro hv
    have hread : readBits? 128 w.base.radix w.digits = some w.value := by
      rw [readBits?, w.readNat?_digits, Option.filter_some, if_pos (decide_eq_true hv)]
    refine ⟨Reader.length_drop_lt (by omega) hr, ?_⟩
    simp only [integer, hread, hs, w.integerSuffix_letters ht]
    rfl
  · intro hv
    have hread : readBits? 128 w.base.radix w.digits = none := by
      rw [readBits?, w.readNat?_digits, Option.filter_some, if_neg]
      simpa using hv
    simp only [integer, hread]
    exact ⟨_, rfl⟩

/-- An integer literal is read back from its characters, unless it needs more than 128 bits. -/
theorem number_chars (hrest : r.rest = w.chars ++ tail) (ht : Breaks tail) (hr : r.rest ≠ []) :
    (w.value < pow2 128 → ∃ h, number r hr = .ok ⟨w.lexeme, r.drop w.chars.length, h⟩) ∧
      (pow2 128 ≤ w.value → ∃ e, number r hr = .error e) := by
  obtain ⟨text, hn, heq⟩ := w.number_eq_integer hrest ht hr
  have hs : (r.drop (w.base.mark ++ w.spaced).length).rest = w.letters ++ tail := by
    rw [Reader.rest_drop, hrest, chars, List.append_assoc]
    exact List.drop_left
  have hlength : w.chars.length = (w.base.mark ++ w.spaced).length + w.letters.length :=
    List.length_append
  rw [heq, hlength]
  exact w.integer_digits hn hr hs ht

theorem exists_chars : ∃ c cs, w.chars = c :: cs ∧ c.isDigit = true := by
  rw [chars, List.append_assoc]
  cases hbase : w.base with
  | binary | octal | hexadecimal => exact ⟨'0', _, rfl, rfl⟩
  | decimal =>
    cases hspaced : w.spaced with
    | nil => exact absurd (congrArg withoutQuotes hspaced) w.withoutQuotes_ne_nil
    | cons c ds =>
      refine ⟨c, ds ++ w.letters, rfl, ?_⟩
      have hdigit := w.isSpacedDigit_of_mem c (by rw [hspaced]; exact List.mem_cons_self)
      have hquote : c ≠ '\'' := fun h => w.head?_ne_quote hbase (by rw [hspaced, h]; rfl)
      have hlt : digitValue c < 10 := by
        simpa [hbase, Base.radix, isSpacedDigit, isDigitIn, hquote] using hdigit
      by_contra hnot
      unfold digitValue at hlt
      rw [if_neg hnot] at hlt
      split at hlt
      · omega
      · split at hlt <;> omega

end IntegerText

theorem isSpacedDigit_of_isDigitIn {base : Nat} {c : Char} (h : isDigitIn base c = true) :
    isSpacedDigit base c = true := by
  rw [isSpacedDigit, h, Bool.or_true]

theorem withoutQuotes_of_isDigitIn {base : Nat} (hb : base ≤ 16) {ds : List Char}
    (h : ∀ c ∈ ds, isDigitIn base c = true) : withoutQuotes ds = ds := by
  refine List.filter_eq_self.mpr fun c hc => ?_
  have hv : digitValue '\'' = 16 := by decide
  have hd : digitValue c < base := by simpa [isDigitIn] using h c hc
  simp only [ne_eq, decide_not, Bool.not_eq_true', decide_eq_false_iff_not]
  rintro rfl
  omega

/-- The canonical text of an integer literal. -/
theorem exists_numeral {radix : Nat} (hradix : radix ∈ radices) (value : Nat)
    (unsigned long : Bool) :
    ∃ w : IntegerText, w.chars = numeral value radix unsigned long ∧
      w.lexeme = .int value radix unsigned long := by
  obtain ⟨base, rfl, hmark⟩ : ∃ base : Base, base.radix = radix ∧ base.mark = radixMark radix := by
    simp only [radices, List.mem_cons, List.not_mem_nil, or_false] at hradix
    rcases hradix with rfl | rfl | rfl | rfl
    · exact ⟨.binary false, rfl, rfl⟩
    · exact ⟨.octal, rfl, rfl⟩
    · exact ⟨.decimal, rfl, rfl⟩
    · exact ⟨.hexadecimal false, rfl, rfl⟩
  have hone : 1 < base.radix := by cases base <;> simp [Base.radix]
  have hdigits := isDigitIn_of_mem_toDigits hone base.radix_le value
  have hunquoted := withoutQuotes_of_isDigitIn base.radix_le hdigits
  let w : IntegerText :=
    { base := base
      spaced := Nat.toDigits base.radix value
      letters := suffix unsigned long
      isSpacedDigit_of_mem := fun c hc => isSpacedDigit_of_isDigitIn (hdigits c hc)
      withoutQuotes_ne_nil := by rw [hunquoted]; exact Nat.toDigits_ne_nil
      head?_ne_quote := fun _ hhead => by
        have hquote := hdigits '\'' (List.mem_of_mem_head? hhead)
        have hv : digitValue '\'' = 16 := by decide
        rw [isDigitIn, hv, decide_eq_true_eq] at hquote
        exact absurd base.radix_le (Nat.not_le.mpr hquote)
      withoutQuotes_ne_zero_cons := fun _ d ds hzero => by
        rw [hunquoted] at hzero
        rw [eq_zero_of_toDigits hone base.radix_le hzero, Nat.toDigits_zero] at hzero
        cases hzero
      mem_suffixLetters :=
        List.forall_iff_forall_mem.mp (by cases unsigned <;> cases long <;> decide) }
  refine ⟨w, ?_, ?_⟩
  · rw [numeral, ← hmark]
    rfl
  · have hvalue : w.value = value := by
      have hread := w.readNat?_digits
      rw [show w.digits = Nat.toDigits base.radix value from hunquoted,
        readNat?_toDigits hone base.radix_le, Option.some.injEq] at hread
      exact hread.symm
    rw [IntegerText.lexeme, hvalue]
    cases unsigned <;> cases long <;> rfl

end Lexeme

end Stepwise
