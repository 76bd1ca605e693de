import Stepwise.Proofs.Format.Directives
import Stepwise.Proofs.Operator.Operands
import Stepwise.Proofs.Token.Numerals
import Stepwise.Stdio.Format

/-! # Integers in fields and formats

The text of an integer in a field fills the width of the field, with blanks on either side or
zeros after the sign. Without the blanks it reads as the integer, whatever the flags are: as a
decimal with its sign, or in the base of the conversion as the two's complement of the integer
at the width of its kind.
-/

namespace Stepwise

namespace Format

/-! ## Reading integers -/

/-- The text without the blanks before and after it. -/
def trimmed (cs : List Char) : List Char :=
  ((cs.dropWhile (· = ' ')).reverse.dropWhile (· = ' ')).reverse

/-- The integer that a decimal stands for, with or without a sign. -/
def readSigned? : List Char → Option Int
  | '-' :: cs => (Text.readNat? 10 cs).map fun n : Nat => -(n : Int)
  | '+' :: cs => (Text.readNat? 10 cs).map Int.ofNat
  | cs => (Text.readNat? 10 cs).map Int.ofNat

section Blanks

variable {cs : List Char} {n : Nat}

theorem dropWhile_blanks (n : Nat) (cs : List Char) :
    (List.replicate n ' ' ++ cs).dropWhile (· = ' ') = cs.dropWhile (· = ' ') :=
  List.dropWhile_append_of_pos fun c hc => by simp [List.eq_of_mem_replicate hc]

theorem dropWhile_of_head? (hcs : ∀ c ∈ cs.head?, c ≠ ' ') : cs.dropWhile (· = ' ') = cs := by
  cases cs with
  | nil => rfl
  | cons c cs => exact List.dropWhile_cons_of_neg (by simpa using hcs c rfl)

/-- A text that neither begins nor ends with a blank is what is left between blanks. -/
theorem trimmed_between_blanks (hne : cs ≠ []) (hhead : ∀ c ∈ cs.head?, c ≠ ' ')
    (hlast : ∀ c ∈ cs.getLast?, c ≠ ' ') (m n : Nat) :
    trimmed (List.replicate m ' ' ++ (cs ++ List.replicate n ' ')) = cs := by
  have hfront : (cs ++ List.replicate n ' ').dropWhile (· = ' ') = cs ++ List.replicate n ' ' :=
    dropWhile_of_head? fun c hc => hhead c (by rwa [List.head?_append_of_ne_nil _ hne] at hc)
  have hback : cs.reverse.dropWhile (· = ' ') = cs.reverse :=
    dropWhile_of_head? fun c hc => hlast c (by rwa [List.head?_reverse] at hc)
  rw [trimmed, dropWhile_blanks, hfront, List.reverse_append, List.reverse_replicate,
    dropWhile_blanks, hback, List.reverse_reverse]

end Blanks

section Digits

variable {b : Nat} {ds : List Char}

/-- Digits in front of which zeros may stand. -/
theorem readNat?_zeros (hb : 0 < b) (k : Nat) (hds : ds ≠ []) :
    Text.readNat? b (List.replicate k '0' ++ ds) = Text.readNat? b ds := by
  have hzero : Text.isDigitIn b '0' = true := decide_eq_true hb
  induction k with
  | zero => rfl
  | succ k ih =>
    rw [← ih, List.replicate_succ, List.cons_append, Text.readNat?, Text.readNat?]
    have hne : (List.replicate k '0' ++ ds).isEmpty = false := by simp [hds]
    have hvalue : b * 0 + Text.digitValue '0' = 0 := rfl
    rw [List.all_cons, hzero, Bool.true_and, List.foldl_cons, hvalue, hne]
    rfl

theorem readSigned?_digits (hds : ∀ c ∈ ds, Text.isDigitIn 10 c = true) :
    readSigned? ds = (Text.readNat? 10 ds).map Int.ofNat := by
  unfold readSigned?
  split
  · cases hds _ List.mem_cons_self
  · cases hds _ List.mem_cons_self
  · rfl

end Digits

namespace Field

variable {f : Field} {ds : List Char}

/-- The sign of a number, or the blank that takes its place. -/
def sign (f : Field) (negative : Bool) : List Char :=
  if negative then ['-'] else if f.plus then ['+'] else if f.space then [' '] else []

theorem signed_eq (f : Field) (negative : Bool) (ds : List Char) :
    f.signed negative ds = f.sign negative ++ ds := by
  simp only [signed, sign]
  split
  · rfl
  · split
    · rfl
    · split <;> rfl

/-- A sign is one character or none. -/
theorem sign_cases (f : Field) (negative : Bool) : f.sign negative = [] ∨
    f.sign negative = ['-'] ∨ f.sign negative = ['+'] ∨ f.sign negative = [' '] := by
  unfold sign
  split
  · simp
  · split
    · simp
    · split <;> simp

section Padded

variable {sign : List Char}
  (hsign : sign = [] ∨ sign = ['-'] ∨ sign = ['+'] ∨ sign = [' '])
  (hne : ds ≠ []) (hds : ∀ c ∈ ds, Text.isDigitIn 16 c = true)

include hsign hds

/-- A padded number has blanks on one side, of which one may stand for the sign, or zeros between
the sign and the digits. -/
theorem exists_pad : ∃ m k n, f.pad (sign ++ ds) true = List.replicate m ' ' ++
    (sign.filter (· ≠ ' ') ++ (List.replicate k '0' ++ ds) ++ List.replicate n ' ') := by
  unfold pad
  extract_lets fill
  split
  case isTrue =>
    rcases hsign with rfl | rfl | rfl | rfl
    case inr.inr.inr => exact ⟨1, 0, fill, by simp⟩
    all_goals exact ⟨0, 0, fill, by simp⟩
  case isFalse =>
    split
    case isTrue =>
      rcases hsign with rfl | rfl | rfl | rfl
      case inl =>
        refine ⟨0, fill, 0, ?_⟩
        rw [List.nil_append]
        -- digits alone do not begin with a sign
        split
        · cases hds _ List.mem_cons_self
        · cases hds _ List.mem_cons_self
        · cases hds _ List.mem_cons_self
        · simp
      case inr.inr.inr => exact ⟨1, fill, 0, by simp⟩
      all_goals exact ⟨0, fill, 0, by simp⟩
    case isFalse =>
      rcases hsign with rfl | rfl | rfl | rfl
      case inr.inr.inr => exact ⟨fill + 1, 0, 0, by simp [List.replicate_succ']⟩
      all_goals exact ⟨fill, 0, 0, by simp⟩

include hne

/-- Without the blanks there are the sign, unless it is one of them, and the digits after zeros. -/
theorem exists_trimmed_pad : ∃ k, trimmed (f.pad (sign ++ ds) true) =
    sign.filter (· ≠ ' ') ++ (List.replicate k '0' ++ ds) := by
  obtain ⟨m, k, n, hpad⟩ := exists_pad (f := f) hsign hds
  have hall : ∀ c ∈ sign.filter (· ≠ ' ') ++ (List.replicate k '0' ++ ds), c ≠ ' ' := by
    simp only [List.mem_append, List.mem_filter, List.mem_replicate]
    rintro c (⟨-, hc⟩ | ⟨-, rfl⟩ | hc)
    · simpa using hc
    · decide
    · rintro rfl
      cases hds _ hc
  exact ⟨k, hpad ▸ trimmed_between_blanks (by simp [hne])
    (fun c hc => hall c (List.mem_of_mem_head? hc))
    (fun c hc => hall c (List.mem_of_getLast? hc)) m n⟩

end Padded

end Field

/-- The integer that a text stands for, apart from blanks around it. -/
def readInteger? (cs : List Char) : Option Int := readSigned? (trimmed cs)

/-- Digits in some base, apart from blanks around them. -/
def readPlain? (b : Nat) (cs : List Char) : Option Nat := Text.readNat? b (trimmed cs)

namespace Field

variable {ds : List Char}

theorem isDigitIn_of_zeros {b k : Nat} (hb : 0 < b) (hds : ∀ c ∈ ds, Text.isDigitIn b c = true) :
    ∀ c ∈ List.replicate k '0' ++ ds, Text.isDigitIn b c = true := by
  intro c hc
  obtain hc | hc := List.mem_append.mp hc
  · rw [List.eq_of_mem_replicate hc]
    exact decide_eq_true hb
  · exact hds c hc

theorem isDigitIn_mono {b b' : Nat} (hb : b ≤ b') {c : Char} (hc : Text.isDigitIn b c = true) :
    Text.isDigitIn b' c = true :=
  decide_eq_true (Nat.lt_of_lt_of_le (of_decide_eq_true hc) hb)

/-- A padded decimal reads as the integer that was written. -/
theorem readInteger?_pad_signed (f : Field) (n : Int) :
    readInteger? (f.pad (f.signed (n < 0) (Nat.toDigits 10 n.natAbs)) true) = some n := by
  have hten := Text.isDigitIn_of_mem_toDigits (b := 10) (by decide) (by decide) n.natAbs
  obtain ⟨k, hk⟩ := exists_trimmed_pad (f := f) (f.sign_cases (n < 0)) Nat.toDigits_ne_nil
    fun c hc => isDigitIn_mono (by decide) (hten c hc)
  have hread : Text.readNat? 10 (List.replicate k '0' ++ Nat.toDigits 10 n.natAbs) =
      some n.natAbs := by
    rw [readNat?_zeros (by decide) k Nat.toDigits_ne_nil,
      Text.readNat?_toDigits (by decide) (by decide)]
  have hplain := readSigned?_digits (isDigitIn_of_zeros (k := k) (by decide) hten)
  rw [signed_eq, readInteger?, hk]
  generalize List.replicate k '0' ++ Nat.toDigits 10 n.natAbs = ds at hread hplain
  by_cases hn : n < 0
  · have hsign : f.sign (decide (n < 0)) = ['-'] := by simp [sign, hn]
    rw [hsign]
    show (Text.readNat? 10 ds).map (fun m : Nat => -(m : Int)) = some n
    rw [hread, Option.map_some, Int.ofNat_natAbs_of_nonpos hn.le, neg_neg]
  · have habs : Int.ofNat n.natAbs = n := Int.natAbs_of_nonneg (not_lt.mp hn)
    rw [hread, Option.map_some, habs] at hplain
    have hplus : readSigned? ('+' :: ds) = some n := by
      show (Text.readNat? 10 ds).map Int.ofNat = some n
      rw [hread, Option.map_some, habs]
    simp only [sign, hn, decide_false, Bool.false_eq_true, if_false]
    split
    · exact hplus
    · split <;> exact hplain

/-- Padded digits of any base read as the number that was written. -/
theorem readPlain?_pad (f : Field) {b : Nat} (hb : 1 < b) (hb' : b ≤ 16) (hne : ds ≠ [])
    (hds : ∀ c ∈ ds, Text.isDigitIn b c = true) :
    readPlain? b (f.pad ds true) = Text.readNat? b ds := by
  obtain ⟨k, hk⟩ := exists_trimmed_pad (f := f) (.inl rfl) hne
    fun c hc => isDigitIn_mono hb' (hds c hc)
  rw [readPlain?, ← List.nil_append ds, hk]
  exact readNat?_zeros (by omega) k hne

end Field

/-! ## Conversions of integers -/

/-- The base of the digits that a conversion without a sign writes. -/
def unsignedBase (conversion : Char) : Nat :=
  if conversion = 'u' then 10 else if conversion = 'o' then 8 else 16

theorem toNat_lt_of_isDigitIn {c : Char} (hc : Text.isDigitIn 16 c = true) : c.toNat < 128 := by
  grind [Text.isDigitIn, Text.digitValue, Char.isDigit, Char.le_def, UInt32.le_iff_toNat_le]

theorem digitValue_toUpper {c : Char} (hc : Text.isDigitIn 16 c = true) :
    Text.digitValue c.toUpper = Text.digitValue c := by
  have hall : ∀ n : Fin 128, Text.isDigitIn 16 (Char.ofNat n) = true →
      Text.digitValue (Char.ofNat n).toUpper = Text.digitValue (Char.ofNat n) := by decide
  have h := hall ⟨c.toNat, toNat_lt_of_isDigitIn hc⟩
  simp only [Char.ofNat_toNat] at h
  exact h hc

theorem isDigitIn_upper {ds : List Char} (hds : ∀ c ∈ ds, Text.isDigitIn 16 c = true) :
    ∀ c ∈ upper ds, Text.isDigitIn 16 c = true := by
  intro c hc
  obtain ⟨d, hd, rfl⟩ := List.mem_map.mp hc
  rw [Text.isDigitIn, digitValue_toUpper (hds d hd)]
  exact hds d hd

/-- Capital letters are the same digits. -/
theorem readNat?_upper {ds : List Char} (hds : ∀ c ∈ ds, Text.isDigitIn 16 c = true) :
    Text.readNat? 16 (upper ds) = Text.readNat? 16 ds := by
  have hfold : (upper ds).foldl (fun n c => 16 * n + Text.digitValue c) 0 =
      ds.foldl (fun n c => 16 * n + Text.digitValue c) 0 := by
    rw [upper, List.foldl_map]
    exact List.foldl_ext _ _ _ fun n c hc => by rw [digitValue_toUpper (hds c hc)]
  have hempty : (upper ds).isEmpty = ds.isEmpty := List.isEmpty_map
  rw [Text.readNat?, Text.readNat?, List.all_eq_true.mpr (isDigitIn_upper hds),
    List.all_eq_true.mpr hds, hfold, hempty]

/-- What is written without a sign are digits in the base of the conversion, of the number. -/
theorem unsignedDigits_spec {conversion : Char} (n : Nat)
    (h : conversion ∈ ['u', 'x', 'X', 'o']) :
    unsignedDigits conversion n ≠ [] ∧
      (∀ c ∈ unsignedDigits conversion n, Text.isDigitIn (unsignedBase conversion) c = true) ∧
      Text.readNat? (unsignedBase conversion) (unsignedDigits conversion n) = some n := by
  have hplain (b : Nat) (hb : 1 < b) (hb' : b ≤ 16) : Nat.toDigits b n ≠ [] ∧
      (∀ c ∈ Nat.toDigits b n, Text.isDigitIn b c = true) ∧
      Text.readNat? b (Nat.toDigits b n) = some n :=
    ⟨Nat.toDigits_ne_nil, Text.isDigitIn_of_mem_toDigits hb hb' n,
      Text.readNat?_toDigits hb hb' n⟩
  obtain ⟨hne, hds, hread⟩ := hplain 16 (by decide) (by decide)
  simp only [List.mem_cons, List.not_mem_nil, or_false] at h
  rcases h with rfl | rfl | rfl | rfl
  · exact hplain 10 (by decide) (by decide)
  · exact ⟨hne, hds, hread⟩
  · exact ⟨mt List.map_eq_nil_iff.mp hne, isDigitIn_upper hds, (readNat?_upper hds).trans hread⟩
  · exact hplain 8 (by decide) (by decide)

end Format

end Stepwise

/-! ## Integers in formats

What `printf` writes for an integer reads back as that integer, for every choice of flags and every
width, and what stands between the directives is copied. Decimals have their sign. The conversions
without a sign write a negative integer in two's complement, at the width of its kind or of `int`
if that is wider.
-/

namespace Stepwise

namespace Format

/-- The conversions that write a sign. -/
def signedConversions : List Char := ['d', 'i']

/-- The conversions that write digits only. -/
def unsignedConversions : List Char := ['u', 'x', 'X', 'o']

section Values

variable {h : Heap} {limits : LimitsTable} {f : Field} {v : Value} {k : ArithKind} {n : Int}
  {conversion : Char}

/-- The integer at the width of a kind without a sign, for the kinds at least as wide as `int`. -/
def twosComplement (limits : LimitsTable) (k : ArithKind) (n : Int) : Int :=
  if 0 ≤ n then n else n + 2 ^ (8 * (limits.get (limits.widened k)).bytes)

/-- A kind of the standard table is at most as wide as 64 bits, and its integers are above the
negative half of the width that it is widened to. -/
theorem width_widened (hlimits : limits.Standard) (hk : k.isIntegral = true) {min max : Int}
    (hr : (limits.get k).range = .integral min max) :
    -2 ^ (8 * (limits.get (limits.widened k)).bytes) ≤ min ∧
      8 * (limits.get (limits.widened k)).bytes ≤ 64 := by
  rw [hlimits] at hr
  rw [LimitsTable.widened_of_standard hlimits, hlimits]
  cases k <;> first | (cases hk; done) | (cases hr; decide)

theorem unsignedOf_eq (hlimits : limits.Standard) (hk : k.isIntegral = true)
    (hn : limits.holds k n = true) :
    (unsignedOf limits (some k) n : Int) = twosComplement limits k n := by
  have hkind : ((some k).filter fun j => limits.rank j ≥ limits.rank .int).getD .int =
      limits.widened k := by
    by_cases hrank : limits.rank k < limits.rank .int
    · simp [LimitsTable.widened, hk, hrank, Option.filter, not_le.mpr hrank]
    · simp [LimitsTable.widened, hrank, Option.filter, not_lt.mp hrank]
  rw [unsignedOf, twosComplement]
  split
  case isTrue hpos => exact Int.toNat_of_nonneg hpos
  case isFalse hneg =>
    obtain ⟨min, max, hr⟩ := LimitsTable.exists_range hlimits hk
    obtain ⟨hwidth, hbits⟩ := width_widened hlimits hk hr
    have hmin : min ≤ n := by
      simp only [LimitsTable.holds, hr, Bool.and_eq_true, decide_eq_true_eq] at hn
      exact hn.1
    generalize hb : 8 * (limits.get (limits.widened k)).bytes = b at hwidth hbits
    have hpow : (2 : Int) ^ b ≤ 2 ^ 64 := pow_le_pow_right₀ (by decide) hbits
    have hmod : b % 128 = b := Nat.mod_eq_of_lt (by omega)
    simp only [hkind, hb, hmod, Numerics.coe_pow2]
    rw [Int.emod_eq_of_lt (by omega) (by omega), Int.toNat_of_nonneg (by omega)]

theorem numberArg_int (hv : v.IsInt k n) : numberArg h v = .ok (.int n) := by
  simp only [numberArg, Value.number?, hv.2, Data.number?]

theorem fieldText_signed (hv : v.IsInt k n) (hc : conversion ∈ signedConversions) :
    fieldText h limits f conversion v =
      .ok (f.pad (f.signed (n < 0) (Nat.toDigits 10 n.natAbs)) true) := by
  rw [fieldText, numberArg_int hv, if_pos (by simpa [signedConversions] using hc)]
  rfl

theorem fieldText_unsigned (hv : v.IsInt k n) (hc : conversion ∈ unsignedConversions) :
    fieldText h limits f conversion v =
      .ok (f.pad (unsignedDigits conversion (unsignedOf limits (some k) n)) true) := by
  have hkind : v.ty.arith? = some k := by rw [hv.1]; rfl
  have hsigned : ¬(conversion = 'd' ∨ conversion = 'i') := by
    rintro (rfl | rfl) <;> exact absurd hc (by decide)
  have hplain : (conversion = 'u' || conversion = 'x' || conversion = 'X' || conversion = 'o') =
      true := by
    simpa [unsignedConversions, or_assoc] using hc
  rw [fieldText, numberArg_int hv, hkind, if_neg (by simpa using hsigned), if_pos hplain]
  rfl

end Values

/-- The text of a directive gives back the integer that it was printed for. -/
inductive ReadsBack (limits : LimitsTable) (d : Directive) (v : Value) (cs : List Char) : Prop
  | signed {k : ArithKind} {n : Int} (conversion : d.conversion ∈ signedConversions)
      (value : v.IsInt k n) (length : cs.length =
        max d.width ((d.field.sign (n < 0)).length + (Nat.toDigits 10 n.natAbs).length))
      (reads : readInteger? cs = some n)
  | unsigned {k : ArithKind} {n : Int} {m : Nat} (conversion : d.conversion ∈ unsignedConversions)
      (value : v.IsInt k n) (reads : readPlain? (unsignedBase d.conversion) cs = some m)
      (complement : (m : Int) = twosComplement limits k n)

/-- The value is an integer that its kind can have. -/
def IsIntegral (limits : LimitsTable) (v : Value) : Prop :=
  ∃ k n, v.IsInt k n ∧ k.isIntegral = true ∧ limits.holds k n = true

/-- Each directive is one for integers and has an integer to print. -/
def Supplied (limits : LimitsTable) : List Segment → List Value → Prop
  | [], _ => True
  | .directive _ :: _, [] => False
  | .directive d :: ss, v :: args =>
    d.conversion ∈ signedConversions ++ unsignedConversions ∧ IsIntegral limits v ∧
      Supplied limits ss args
  | _ :: ss, args => Supplied limits ss args

section Integers

variable {h : Heap} {limits : LimitsTable} {d : Directive} {v : Value}

theorem exists_readsBack (hlimits : limits.Standard)
    (hd : d.conversion ∈ signedConversions ++ unsignedConversions)
    (hv : IsIntegral limits v) : ∃ cs, Prints h limits d v cs ∧ ReadsBack limits d v cs := by
  obtain ⟨k, n, hv, hk, hn⟩ := hv
  obtain hd | hd := List.mem_append.mp hd
  · refine ⟨_, fieldText_signed hv hd, .signed hd hv ?_ (d.field.readInteger?_pad_signed n)⟩
    rw [Field.length_pad, Field.signed_eq, List.length_append]
    rfl
  · obtain ⟨hne, hdigits, hread⟩ := unsignedDigits_spec (unsignedOf limits (some k) n) hd
    refine ⟨_, fieldText_unsigned hv hd, .unsigned hd hv ?_ (unsignedOf_eq hlimits hk hn)⟩
    obtain ⟨hb, hb'⟩ : 1 < unsignedBase d.conversion ∧ unsignedBase d.conversion ≤ 16 := by
      unfold unsignedBase
      split
      · decide
      · split <;> decide
    rw [d.field.readPlain?_pad hb hb' hne hdigits, hread]

/-- A format whose directives are supplied with integers can be filled in. -/
theorem exists_interleaved (hlimits : limits.Standard) {ss : List Segment} {args : List Value}
    (hs : Supplied limits ss args) : ∃ out, Interleaved (Prints h limits) ss args out := by
  induction ss generalizing args with
  | nil => exact ⟨[], .done args⟩
  | cons segment ss ih =>
    cases segment with
    | text c plain =>
      obtain ⟨out, hout⟩ := ih hs
      exact ⟨c :: out, .text hout⟩
    | percent =>
      obtain ⟨out, hout⟩ := ih hs
      exact ⟨'%' :: out, .percent hout⟩
    | directive d =>
      cases args with
      | nil => cases hs
      | cons v args =>
        obtain ⟨hd, hv, hs⟩ := hs
        obtain ⟨cs, hcs, -⟩ := exists_readsBack (h := h) hlimits hd hv
        obtain ⟨out, hout⟩ := ih hs
        exact ⟨cs ++ out, .directive hcs hout⟩

end Integers

/-- A directive prints its field, which gives back the argument if that is an integer and the
conversion is one for integers. -/
def PrintsIntegers (h : Heap) (limits : LimitsTable) (d : Directive) (v : Value)
    (cs : List Char) : Prop :=
  Prints h limits d v cs ∧ (d.conversion ∈ signedConversions ++ unsignedConversions →
    IsIntegral limits v → ReadsBack limits d v cs)

/-- What `printf` prints follows the segments of the format: the texts of the directives stand
between characters that are copied, two percent signs are printed as one, and integers read back.
The call comes back if all directives are for integers and have integers to print. -/
theorem printf_integers {c : Config} {s : State} {ss : List Segment} {format : Value}
    {args : List Value} (hlimits : c.limits.Standard)
    (hformat : s.heap.stringAt format = .ok (String.ofList (written ss))) :
    (∀ r t, RunM.callLibrary .printf (format :: args) c s = .ok r t ↔
      ∃ out : String, Interleaved (PrintsIntegers s.heap c.limits) ss args out.toList ∧
        r = .done (.int .int out.length) ∧ t = { s with console := s.console.write out }) ∧
    (Supplied c.limits ss args →
      ∃ r t, RunM.callLibrary .printf (format :: args) c s = .ok r t) := by
  have hback (d : Directive) (v : Value) (cs : List Char) (hcs : Prints s.heap c.limits d v cs) :
      PrintsIntegers s.heap c.limits d v cs := by
    refine ⟨hcs, fun hd hv => ?_⟩
    obtain ⟨cs', hcs', hread⟩ := exists_readsBack (h := s.heap) hlimits hd hv
    cases hcs.symm.trans hcs'
    exact hread
  constructor
  · intro r t
    rw [printf_eq_ok_iff hformat]
    constructor
    · rintro ⟨out, hout, hr, ht⟩
      exact ⟨out, hout.imp hback, hr, ht⟩
    · rintro ⟨out, hout, hr, ht⟩
      exact ⟨out, hout.imp fun _ _ _ h => h.1, hr, ht⟩
  · intro hs
    obtain ⟨out, hout⟩ := exists_interleaved (h := s.heap) hlimits hs
    exact ⟨_, _, (printf_eq_ok_iff hformat _ _).mpr ⟨.ofList out, by simpa using hout, rfl, rfl⟩⟩

/-- A directive for an integer, without length letters. -/
def Directive.integer (flags : List Flag) (width : Nat) (conversion : Char)
    (h : conversion ∈ conversions) (width_lt : width < pow2 64 := by decide) : Directive :=
  { flags, width, conversion, length_letters := by simp, conversion_known := h, width_lt }

/-- The segments of the format `[%06d|%-5d|%x%%]`. -/
def sampleFormat : List Segment :=
  [.text '[' (by decide), .directive (.integer [.zero] 6 'd' (by decide)),
    .text '|' (by decide), .directive (.integer [.minus] 5 'd' (by decide)),
    .text '|' (by decide), .directive (.integer [] 0 'x' (by decide)), .percent,
    .text ']' (by decide)]

theorem printf_integers_sample :
    let c : Config := {}
    let s : State := { heap := (({} : Heap).alloc (Text.cells (written sampleFormat)).toArray).2 }
    let format := Value.ofArray (.array .char ((written sampleFormat).length + 1)) 0
    let args := [Value.int .int (-42), .int .short 7, .int .int (-1)]
    (c.limits.Standard ∧ s.heap.stringAt format = .ok (String.ofList (written sampleFormat)) ∧
      Supplied c.limits sampleFormat args) ∧
    ∃ out : String, Interleaved (PrintsIntegers s.heap c.limits) sampleFormat args out.toList ∧
      RunM.callLibrary .printf (format :: args) c s =
        .ok (.done (.int .int out.length)) { s with console := s.console.write out } := by
  intro c s format args
  have hlimits : c.limits.Standard := LimitsTable.standard_empty
  have hwritten : written sampleFormat = ['[', '%', '0', '6', 'd', '|', '%', '-', '5', 'd', '|', '%',
      'x', '%', '%', ']'] := rfl
  have hformat : s.heap.stringAt format = .ok (String.ofList (written sampleFormat)) :=
    (RunM.spells_ofArray_alloc {} _).stringAt_eq (by simp [hwritten, Text.IsAscii])
  have hs : Supplied c.limits sampleFormat args :=
    ⟨by decide, ⟨.int, -42, ⟨rfl, rfl⟩, rfl, by decide⟩, by decide,
      ⟨.short, 7, ⟨rfl, rfl⟩, rfl, by decide⟩, by decide, ⟨.int, -1, ⟨rfl, rfl⟩, rfl, by decide⟩,
      trivial⟩
  refine ⟨⟨hlimits, hformat, hs⟩, ?_⟩
  obtain ⟨r, t, hcall⟩ := (printf_integers hlimits hformat).2 hs
  obtain ⟨out, hout, rfl, rfl⟩ := ((printf_integers hlimits hformat).1 r t).mp hcall
  exact ⟨out, hout, hcall⟩

example : expand {} {} (String.ofList (written sampleFormat))
    [.int .int (-42), .int .short 7, .int .int (-1)] = .ok "[-00042|7    |ffffffff%]" := by
  rfl

end Format

end Stepwise
