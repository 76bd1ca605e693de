import Mathlib.Data.List.Basic
import Stepwise.Proofs.Strings.Calls

/-! # Formats and what is printed for them

A format consists of characters that stand for themselves, of percent signs written twice and of
directives: flags, a width, a precision and length letters, and the letter of a conversion. Reading
the format gives back these segments, and what is printed follows them one by one: a directive
takes an argument and prints its field, everything else is copied.
-/

namespace Stepwise

namespace Format

/-! ## The grammar of formats -/

/-- The characters that may follow a percent sign first. -/
inductive Flag
  | minus
  | zero
  | plus
  | space
  /-- A mark that changes nothing. -/
  | hash
  deriving DecidableEq, Repr

/-- The letters of conversions. -/
def conversions : List Char :=
  ['d', 'i', 'u', 'x', 'X', 'o', 'c', 's', 'f', 'F', 'e', 'E', 'g', 'G', 'p']

/-- The letters that may stand before a conversion; they change nothing. -/
def lengthLetters : List Char := ['h', 'l', 'L', 'z']

/-- What a format asks for with one percent sign. The sizes are those that a field can have. -/
structure Directive where
  flags : List Flag := []
  width : Nat := 0
  precision : Option Nat := none
  length : List Char := []
  conversion : Char
  length_letters : ∀ c ∈ length, c ∈ lengthLetters
  conversion_known : conversion ∈ conversions
  width_lt : width < pow2 64 := by decide
  precision_lt : ∀ n ∈ precision, n < pow2 64 := by decide

/-- A part of a format. -/
inductive Segment
  | text (c : Char) (plain : c ≠ '%')
  | percent
  | directive (d : Directive)

def Flag.char : Flag → Char
  | minus => '-'
  | zero => '0'
  | plus => '+'
  | space => ' '
  | hash => '#'

/-- The field with one more flag. -/
def Field.withFlag (f : Field) : Flag → Field
  | .minus => { f with left := true }
  | .zero => { f with zero := true }
  | .plus => { f with plus := true }
  | .space => { f with space := true }
  | .hash => f

namespace Directive

variable (d : Directive)

/-- The characters of a width, if there is one. -/
def widthText : List Char := if d.width = 0 then [] else Nat.toDigits 10 d.width

/-- The characters of a precision, if there is one. -/
def precisionText : List Char :=
  match d.precision with
  | none => []
  | some n => '.' :: Nat.toDigits 10 n

/-- What follows the percent sign. -/
def body : List Char :=
  d.flags.map Flag.char ++ (d.widthText ++ (d.precisionText ++ (d.length ++ [d.conversion])))

/-- The directive as it stands in a format. -/
def written : List Char := '%' :: d.body

/-- The field that the directive asks for. -/
def field : Field :=
  { d.flags.foldl Field.withFlag {} with width := d.width, precision := d.precision }

end Directive

namespace Segment

def written : Segment → List Char
  | text c _ => [c]
  | percent => ['%', '%']
  | directive d => d.written

def piece : Segment → Piece
  | text c _ => .text c
  | percent => .text '%'
  | directive d => .field d.field d.conversion

end Segment

/-- The characters of a format. -/
def written (ss : List Segment) : List Char := ss.flatMap Segment.written

/-! ## Reading a format -/

section Reading

variable {part : Part} {f : Field} {c : Char} {cs : List Char}

theorem pieces_advance {next : Part × Field} (h : advance part f c = some next) :
    pieces (some (part, f)) (c :: cs) = pieces (some next) cs := by
  simp only [pieces, h]

theorem pieces_conversion (h : c ∈ conversions) :
    pieces (some (part, f)) (c :: cs) = .field f c :: pieces none cs := by
  have hnone : advance part f c = none := by
    simp only [conversions, List.mem_cons, List.not_mem_nil, or_false] at h
    rcases h with rfl | rfl | rfl | rfl | rfl | rfl | rfl | rfl | rfl | rfl | rfl | rfl | rfl | rfl | rfl <;>
      simp [advance]
  simp only [pieces, hnone]

theorem pieces_flags (flags : List Flag) (f : Field) (cs : List Char) :
    pieces (some (.flags, f)) (flags.map Flag.char ++ cs) =
      pieces (some (.flags, flags.foldl Field.withFlag f)) cs := by
  induction flags generalizing f with
  | nil => rfl
  | cons flag flags ih =>
    have hadvance : advance .flags f flag.char = some (.flags, f.withFlag flag) := by
      cases flag <;> rfl
    rw [List.map_cons, List.cons_append, pieces_advance hadvance, ih, List.foldl_cons]

theorem pieces_length {length : List Char} (h : ∀ c ∈ length, c ∈ lengthLetters) (part : Part)
    (f : Field) (cs : List Char) : ∃ part' : Part,
      pieces (some (part, f)) (length ++ cs) = pieces (some (part', f)) cs := by
  induction length generalizing part with
  | nil => exact ⟨part, rfl⟩
  | cons c length ih =>
    obtain ⟨hc, h⟩ := List.forall_mem_cons.mp h
    have hadvance : advance part f c = some (.length, f) := by
      simp only [lengthLetters, List.mem_cons, List.not_mem_nil, or_false] at hc
      rcases hc with rfl | rfl | rfl | rfl <;> simp [advance]
    obtain ⟨part', hpart⟩ := ih h .length
    exact ⟨part', by rw [List.cons_append, pieces_advance hadvance, hpart]⟩

theorem digitOf_eq (h : Text.isDigitIn 10 c = true) : digitOf c = Text.digitValue c := by
  grind [digitOf, Text.isDigitIn, Text.digitValue]

theorem isDigit_of_isDigitIn (h : Text.isDigitIn 10 c = true) : c.isDigit = true := by
  grind [Text.isDigitIn, Text.digitValue]

/-- A digit after the flags, other than zero, begins the width. -/
theorem advance_width_first (h : Text.isDigitIn 10 c = true) (hzero : c ≠ '0') (f : Field) :
    advance .flags f c = some (.width, { f with width := withDigit f.width c }) := by
  have hdigit := isDigit_of_isDigitIn h
  have hminus : c ≠ '-' := by rintro rfl; cases h
  have hplus : c ≠ '+' := by rintro rfl; cases h
  have hspace : c ≠ ' ' := by rintro rfl; cases h
  have hhash : c ≠ '#' := by rintro rfl; cases h
  simp [advance, *]

theorem advance_width (h : Text.isDigitIn 10 c = true) (f : Field) :
    advance .width f c = some (.width, { f with width := withDigit f.width c }) := by
  simp [advance, isDigit_of_isDigitIn h]

theorem advance_precision (h : Text.isDigitIn 10 c = true) {n : Nat} (hn : f.precision = some n) :
    advance .precision f c =
      some (.precision, { f with precision := some (withDigit n c) }) := by
  simp [advance, isDigit_of_isDigitIn h, hn]

/-- Digit by digit a size is the number that the digits stand for, up to multiples of `2 ^ 64`. -/
theorem foldl_withDigit {ds : List Char} (hds : ∀ c ∈ ds, Text.isDigitIn 10 c = true) (n : Nat) :
    ds.foldl withDigit (n % pow2 64) =
      ds.foldl (fun n c => 10 * n + Text.digitValue c) n % pow2 64 := by
  induction ds generalizing n with
  | nil => rfl
  | cons c ds ih =>
    obtain ⟨hc, hds⟩ := List.forall_mem_cons.mp hds
    have hstep : withDigit (n % pow2 64) c = (10 * n + Text.digitValue c) % pow2 64 := by
      rw [withDigit, digitOf_eq hc, Nat.mul_comm 10 n]
      exact ((Nat.mod_modEq n (pow2 64)).mul_right 10).add_right _
    rw [List.foldl_cons, List.foldl_cons, hstep, ih hds]

theorem foldl_withDigit_zero {ds : List Char} (hds : ∀ c ∈ ds, Text.isDigitIn 10 c = true) :
    ds.foldl withDigit 0 = ds.foldl (fun n c => 10 * n + Text.digitValue c) 0 % pow2 64 :=
  foldl_withDigit hds 0

/-- The digits of a number that a size can have are read as this number. -/
theorem foldl_withDigit_toDigits {n : Nat} (hn : n < pow2 64) :
    (Nat.toDigits 10 n).foldl withDigit 0 = n := by
  rw [foldl_withDigit_zero (Text.isDigitIn_of_mem_toDigits (by decide) (by decide) n),
    Text.foldl_toDigits (by decide) (by decide), Nat.mod_eq_of_lt hn]

theorem pieces_width_digits {ds : List Char} (hds : ∀ c ∈ ds, Text.isDigitIn 10 c = true)
    (f : Field) (cs : List Char) :
    pieces (some (.width, f)) (ds ++ cs) =
      pieces (some (.width, { f with width := ds.foldl withDigit f.width })) cs := by
  induction ds generalizing f with
  | nil => rfl
  | cons c ds ih =>
    obtain ⟨hc, hds⟩ := List.forall_mem_cons.mp hds
    rw [List.cons_append, pieces_advance (advance_width hc f), ih hds, List.foldl_cons]

theorem pieces_precision_digits {ds : List Char} (hds : ∀ c ∈ ds, Text.isDigitIn 10 c = true)
    (n : Nat) (f : Field) (cs : List Char) :
    pieces (some (.precision, { f with precision := some n })) (ds ++ cs) =
      pieces (some (.precision, { f with precision := some (ds.foldl withDigit n) })) cs := by
  induction ds generalizing n with
  | nil => rfl
  | cons c ds ih =>
    obtain ⟨hc, hds⟩ := List.forall_mem_cons.mp hds
    rw [List.cons_append, pieces_advance (advance_precision hc rfl), ih hds, List.foldl_cons]

variable (d : Directive)

theorem isDigitIn_toDigits (n : Nat) : ∀ c ∈ Nat.toDigits 10 n, Text.isDigitIn 10 c = true :=
  Text.isDigitIn_of_mem_toDigits (by decide) (by decide) n

/-- The width ends the flags, or there is none. -/
theorem pieces_width (hf : f.width = 0) (cs : List Char) : ∃ part : Part,
    (part = .flags ∨ part = .width) ∧ pieces (some (.flags, f)) (d.widthText ++ cs) =
      pieces (some (part, { f with width := d.width })) cs := by
  unfold Directive.widthText
  split
  case isTrue hzero =>
    rw [List.nil_append, hzero, ← hf]
    exact ⟨.flags, .inl rfl, rfl⟩
  case isFalse hzero =>
    have hfold := foldl_withDigit_toDigits d.width_lt
    have hdigits := isDigitIn_toDigits d.width
    cases hds : Nat.toDigits 10 d.width with
    | nil => exact absurd hds Nat.toDigits_ne_nil
    | cons c ds =>
      rw [hds] at hfold hdigits
      obtain ⟨hc, hds'⟩ := List.forall_mem_cons.mp hdigits
      -- a zero here would be read as a flag
      have hne : c ≠ '0' := by
        rintro rfl
        exact hzero (Text.eq_zero_of_toDigits (by decide) (by decide) hds)
      refine ⟨.width, .inr rfl, ?_⟩
      rw [List.cons_append, pieces_advance (advance_width_first hc hne f),
        pieces_width_digits hds', hf, ← hfold]
      rfl

theorem pieces_precision (hpart : part = .flags ∨ part = .width) (hf : f.precision = none)
    (cs : List Char) : ∃ part' : Part, pieces (some (part, f)) (d.precisionText ++ cs) =
      pieces (some (part', { f with precision := d.precision })) cs := by
  unfold Directive.precisionText
  cases hn : d.precision with
  | none =>
    have hsame : { f with precision := none } = f := by rw [← hf]
    exact ⟨part, by rw [hsame]; rfl⟩
  | some n =>
    have hadvance : advance part f '.' = some (.precision, { f with precision := some 0 }) := by
      rcases hpart with rfl | rfl <;> rfl
    refine ⟨.precision, ?_⟩
    show pieces _ ('.' :: (Nat.toDigits 10 n ++ cs)) = _
    rw [pieces_advance hadvance, pieces_precision_digits (isDigitIn_toDigits n),
      foldl_withDigit_toDigits (d.precision_lt n hn)]

theorem foldl_withFlag (flags : List Flag) (f : Field) :
    (flags.foldl Field.withFlag f).width = f.width ∧
      (flags.foldl Field.withFlag f).precision = f.precision := by
  induction flags generalizing f with
  | nil => exact ⟨rfl, rfl⟩
  | cons flag flags ih =>
    obtain ⟨hwidth, hprecision⟩ := ih (f.withFlag flag)
    rw [List.foldl_cons, hwidth, hprecision]
    cases flag <;> exact ⟨rfl, rfl⟩

theorem pieces_text (hc : c ≠ '%') (cs : List Char) :
    pieces none (c :: cs) = .text c :: pieces none cs := by
  rw [pieces]
  · exact fun _ h => absurd h hc
  · exact hc

theorem pieces_percent (h : ∀ ds, cs ≠ '%' :: ds) :
    pieces none ('%' :: cs) = pieces (some (.flags, {})) cs := by
  rw [pieces]
  exact h

/-- One percent sign is all that a directive has. -/
theorem percent_not_mem_body : '%' ∉ d.body := by
  have hflag (flag : Flag) : flag.char ≠ '%' := by cases flag <;> decide
  have hdigits (n : Nat) : '%' ∉ Nat.toDigits 10 n := fun h => by cases isDigitIn_toDigits n _ h
  have hwidth : '%' ∉ d.widthText := by
    unfold Directive.widthText
    split
    · exact List.not_mem_nil
    · exact hdigits _
  have hprecision : '%' ∉ d.precisionText := by
    unfold Directive.precisionText
    split
    · exact List.not_mem_nil
    · exact fun h => (List.mem_cons.mp h).elim (absurd · (by decide)) (hdigits _)
  have hlength : '%' ∉ d.length := fun h => absurd (d.length_letters _ h) (by decide)
  have hconversion : d.conversion ≠ '%' := fun h =>
    absurd (h ▸ d.conversion_known : '%' ∈ conversions) (by decide)
  simp only [Directive.body, List.mem_append, List.mem_map, List.mem_singleton]
  rintro (⟨flag, -, h⟩ | h | h | h | h)
  · exact hflag flag h
  · exact hwidth h
  · exact hprecision h
  · exact hlength h
  · exact hconversion h.symm

/-- A directive is read as its field. -/
theorem pieces_directive (cs : List Char) :
    pieces none (d.written ++ cs) = .field d.field d.conversion :: pieces none cs := by
  obtain ⟨hwidth, hprecision⟩ := foldl_withFlag d.flags {}
  have hne (ds : List Char) : d.body ++ cs ≠ '%' :: ds := by
    intro h
    obtain ⟨c, body, hbody⟩ := List.exists_cons_of_ne_nil (l := d.body) (by simp [Directive.body])
    rw [hbody] at h
    exact percent_not_mem_body d (by simp [hbody, (List.cons.inj h).1])
  obtain ⟨part, hpart, hw⟩ := pieces_width d (f := d.flags.foldl Field.withFlag {}) hwidth
    (d.precisionText ++ (d.length ++ ([d.conversion] ++ cs)))
  obtain ⟨part', hp⟩ := pieces_precision d hpart (f := { d.flags.foldl Field.withFlag {} with
    width := d.width }) hprecision (d.length ++ ([d.conversion] ++ cs))
  obtain ⟨part'', hl⟩ := pieces_length d.length_letters part' d.field ([d.conversion] ++ cs)
  calc pieces none ('%' :: (d.body ++ cs))
    _ = pieces (some (.flags, {})) (d.flags.map Flag.char ++ (d.widthText ++
          (d.precisionText ++ (d.length ++ ([d.conversion] ++ cs))))) := by
        rw [pieces_percent hne]
        simp only [Directive.body, List.append_assoc]
    _ = pieces (some (part'', d.field)) ([d.conversion] ++ cs) := by
        rw [pieces_flags, hw, hp]
        exact hl
    _ = .field d.field d.conversion :: pieces none cs := pieces_conversion d.conversion_known

/-- The segments of a format are what is read from it. -/
theorem pieces_written (ss : List Segment) : pieces none (written ss) = ss.map Segment.piece := by
  induction ss with
  | nil => rfl
  | cons s ss ih =>
    rw [written, List.flatMap_cons, List.map_cons, ← ih]
    cases s with
    | text c plain => exact pieces_text plain (written ss)
    | percent => rfl
    | directive d => exact pieces_directive d (written ss)

end Reading

/-! ## What is printed -/

/-- An output follows the segments: what stands for itself is copied, a percent sign is printed
once, and each directive takes the next argument and prints a text that `P` allows. -/
inductive Interleaved (P : Directive → Value → List Char → Prop) :
    List Segment → List Value → List Char → Prop
  | done (args : List Value) : Interleaved P [] args []
  | text {c : Char} {plain : c ≠ '%'} {ss : List Segment} {args : List Value} {out : List Char} :
      Interleaved P ss args out → Interleaved P (.text c plain :: ss) args (c :: out)
  | percent {ss : List Segment} {args : List Value} {out : List Char} :
      Interleaved P ss args out → Interleaved P (.percent :: ss) args ('%' :: out)
  | directive {d : Directive} {v : Value} {cs : List Char} {ss : List Segment}
      {args : List Value} {out : List Char} : P d v cs → Interleaved P ss args out →
      Interleaved P (.directive d :: ss) (v :: args) (cs ++ out)

theorem Interleaved.imp {P Q : Directive → Value → List Char → Prop} {ss : List Segment}
    {args : List Value} {out : List Char} (hPQ : ∀ d v cs, P d v cs → Q d v cs)
    (hout : Interleaved P ss args out) : Interleaved Q ss args out := by
  induction hout with
  | done args => exact .done args
  | text _ ih => exact .text ih
  | percent _ ih => exact .percent ih
  | directive hcs _ ih => exact .directive (hPQ _ _ _ hcs) ih

/-- A text is the field that a directive prints for an argument. -/
def Prints (h : Heap) (limits : LimitsTable) (d : Directive) (v : Value) (cs : List Char) : Prop :=
  fieldText h limits d.field d.conversion v = .ok cs

section Rendering

variable {h : Heap} {limits : LimitsTable} {ss : List Segment} {args : List Value}

/-- Rendering adds to the output what follows the segments. -/
theorem render_eq_ok_iff (pre r : String) :
    render h limits (ss.map Segment.piece) args pre = .ok r ↔
      ∃ out, Interleaved (Prints h limits) ss args out ∧ r = pre ++ String.ofList out := by
  constructor
  · intro hr
    induction ss generalizing args pre with
    | nil =>
      cases hr
      exact ⟨[], .done args, by simp⟩
    | cons s ss ih =>
      cases s with
      | text c plain =>
        obtain ⟨out, hout, rfl⟩ := ih _ hr
        exact ⟨c :: out, .text hout, String.toList_inj.mp (by simp)⟩
      | percent =>
        obtain ⟨out, hout, rfl⟩ := ih _ hr
        exact ⟨'%' :: out, .percent hout, String.toList_inj.mp (by simp)⟩
      | directive d =>
        cases args with
        | nil => cases hr
        | cons v args =>
          obtain ⟨cs, hcs, hr⟩ := exists_of_bind_eq_ok hr
          obtain ⟨out, hout, rfl⟩ := ih _ hr
          exact ⟨cs ++ out, .directive hcs hout, String.toList_inj.mp (by simp)⟩
  · rintro ⟨out, hout, rfl⟩
    induction hout generalizing pre with
    | done => exact congrArg Except.ok (String.toList_inj.mp (by simp))
    | text _ ih => exact (ih _).trans (congrArg Except.ok (String.toList_inj.mp (by simp)))
    | percent _ ih => exact (ih _).trans (congrArg Except.ok (String.toList_inj.mp (by simp)))
    | directive hcs _ ih =>
      rw [List.map_cons, Segment.piece, render, hcs]
      exact (ih _).trans (congrArg Except.ok (String.toList_inj.mp (by simp)))

theorem expand_eq_ok_iff (r : String) :
    expand h limits (String.ofList (written ss)) args = .ok r ↔
      Interleaved (Prints h limits) ss args r.toList := by
  rw [expand, String.toList_ofList, pieces_written, render_eq_ok_iff]
  constructor
  · rintro ⟨out, hout, rfl⟩
    simpa using hout
  · exact fun hout => ⟨_, hout, by simp⟩

end Rendering

/-- `printf` comes back just when the directives can be filled in, and then it has printed what
follows the segments of the format. -/
theorem printf_eq_ok_iff {c : Config} {s : State} {ss : List Segment} {format : Value}
    {args : List Value} (hformat : s.heap.stringAt format = .ok (String.ofList (written ss)))
    (r : Progress .value) (t : State) :
    RunM.callLibrary .printf (format :: args) c s = .ok r t ↔
      ∃ out : String, Interleaved (Prints s.heap c.limits) ss args out.toList ∧
        r = .done (.int .int out.length) ∧ t = { s with console := s.console.write out } := by
  rw [RunM.callLibrary_printf_eq hformat]
  cases hx : expand s.heap c.limits (String.ofList (written ss)) args with
  | error cause =>
    constructor
    · nofun
    · rintro ⟨out, hout, -⟩
      cases hx.symm.trans (expand_eq_ok_iff out |>.mpr hout)
  | ok out =>
    constructor
    · intro h
      cases h
      exact ⟨out, (expand_eq_ok_iff out).mp hx, rfl, rfl⟩
    · rintro ⟨out', hout, rfl, rfl⟩
      cases hx.symm.trans (expand_eq_ok_iff out' |>.mpr hout)
      rfl

end Format

end Stepwise
