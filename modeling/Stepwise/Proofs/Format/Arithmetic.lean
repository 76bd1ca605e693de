import Stepwise.Proofs.Format.Integers

/-! # The arithmetic of formatted output

Filling in a format takes numbers of its own: widths and precisions are read digit by digit, fields
are padded to their width, and a negative integer gets its two's complement. Sizes are kept in 64
bits and integers in 128. The padding always has room there, and so has the complement for kinds of
less than 128 bits. A size has it as long as the digits that are written stand for a number below
`2 ^ 64`, and nothing looks at this: more digits leave the register without a fault.
-/

namespace Stepwise

namespace Format

/-! ## Filling in step by step -/

/-- Where the filling-in of a format has got to: the field that has begun, the characters and the
arguments that are left, and the output so far. -/
structure Point where
  field : Option (Part × Field)
  rest : List Char
  args : List Value
  out : String

/-- The next character is one more digit of a width or a precision that is `size` so far. -/
inductive Extends : Point → (size : Nat) → Char → Prop
  | width {part : Part} {f : Field} {c : Char} {cs : List Char} {args : List Value} {out : String}
      (part_sized : part = .flags ∧ c ≠ '0' ∨ part = .width) (digit : c.isDigit = true) :
      Extends ⟨some (part, f), c :: cs, args, out⟩ f.width c
  | precision {f : Field} {c : Char} {cs : List Char} {args : List Value} {out : String}
      (digit : c.isDigit = true) :
      Extends ⟨some (.precision, f), c :: cs, args, out⟩ (f.precision.getD 0) c

/-- One step: a character of the output, of a field, or the conversion, which prints the field. -/
inductive Step (h : Heap) (limits : LimitsTable) : Point → Point → Prop
  | text {c : Char} {cs : List Char} {args : List Value} {out : String} (plain : c ≠ '%') :
      Step h limits ⟨none, c :: cs, args, out⟩ ⟨none, cs, args, out.push c⟩
  | percent {cs : List Char} {args : List Value} {out : String} :
      Step h limits ⟨none, '%' :: '%' :: cs, args, out⟩ ⟨none, cs, args, out.push '%'⟩
  | opens {cs : List Char} {args : List Value} {out : String} (single : ∀ ds, cs ≠ '%' :: ds) :
      Step h limits ⟨none, '%' :: cs, args, out⟩ ⟨some (.flags, {}), cs, args, out⟩
  | advance {part : Part} {f : Field} {c : Char} {cs : List Char} {next : Part × Field}
      {args : List Value} {out : String} (more : advance part f c = some next) :
      Step h limits ⟨some (part, f), c :: cs, args, out⟩ ⟨some next, cs, args, out⟩
  | fill {part : Part} {f : Field} {c : Char} {cs text : List Char} {v : Value}
      {args : List Value} {out : String} (ends : Format.advance part f c = none)
      (filled : fieldText h limits f c v = .ok text) :
      Step h limits ⟨some (part, f), c :: cs, v :: args, out⟩
        ⟨none, cs, args, out ++ String.ofList text⟩

/-- The filling-in of a format with arguments gets to a point, having read the digits `ds` of the
size that is read there last. -/
inductive Reads (h : Heap) (limits : LimitsTable) (format : String) (args : List Value) :
    Point → (ds : List Char) → Prop
  | start : Reads h limits format args ⟨none, format.toList, args, ""⟩ []
  | digit {p q : Point} {ds : List Char} {size : Nat} {c : Char}
      (before : Reads h limits format args p ds) (extends_size : Extends p size c)
      (step : Step h limits p q) : Reads h limits format args q (ds ++ [c])
  | other {p q : Point} {ds : List Char} (before : Reads h limits format args p ds)
      (no_digit : ∀ size c, ¬ Extends p size c) (step : Step h limits p q) :
      Reads h limits format args q []

/-! ## The numbers on the way -/

/-- Where numbers are kept: sizes in 64 bits without a sign, integers in 128 bits with one. -/
inductive Register
  | size
  | wide
  deriving DecidableEq, Repr

def Register.holds : Register → Int → Bool
  | size, n => 0 ≤ n && n < pow2 64
  | wide, n => Wide.holds n

/-- The kind at whose width the two's complement of an argument is taken. -/
def complementKind (limits : LimitsTable) (kind : Option ArithKind) : ArithKind :=
  (kind.filter fun k => limits.rank k ≥ limits.rank .int).getD .int

/-- The next step writes the negative integer `n` without a sign, at the width of the kind `k`. -/
inductive Complements (h : Heap) (limits : LimitsTable) : Point → (k : ArithKind) → (n : Int) → Prop
  | intro {part : Part} {f : Field} {c : Char} {cs : List Char} {v : Value} {args : List Value}
      {out : String} {x : Number} (ends : advance part f c = none)
      (conversion : c ∈ unsignedConversions) (number : numberArg h v = .ok x)
      (negative : integerOf x < 0) :
      Complements h limits ⟨some (part, f), c :: cs, v :: args, out⟩
        (complementKind limits v.ty.arith?) (integerOf x)

/-- The numbers that a step computes, and where they are kept. A digit is added to ten times the
size. A field whose text without a width is shorter than the width is filled up. For a complement
the bits of the kind are counted, one is shifted by so many, and the integer is added. -/
inductive Computes (h : Heap) (limits : LimitsTable) : Point → Register → Int → Prop
  | tens {p : Point} {size : Nat} {c : Char} (digit : Extends p size c) :
      Computes h limits p .size ((size * 10 : Nat) : Int)
  | digit {p : Point} {size : Nat} {c : Char} (digit : Extends p size c) :
      Computes h limits p .size ((size * 10 + digitOf c : Nat) : Int)
  | padding {part : Part} {f : Field} {c : Char} {cs body : List Char} {v : Value}
      {args : List Value} {out : String} (ends : advance part f c = none)
      (unpadded : fieldText h limits { f with width := 0 } c v = .ok body)
      (shorter : body.length < f.width) :
      Computes h limits ⟨some (part, f), c :: cs, v :: args, out⟩ .size
        ((f.width : Int) - body.length)
  | bits {p : Point} {k : ArithKind} {n : Int} (complements : Complements h limits p k n) :
      Computes h limits p .size ((8 * (limits.get k).bytes : Nat) : Int)
  | power {p : Point} {k : ArithKind} {n : Int} (complements : Complements h limits p k n) :
      Computes h limits p .wide (2 ^ (8 * (limits.get k).bytes))
  | complement {p : Point} {k : ArithKind} {n : Int} (complements : Complements h limits p k n) :
      Computes h limits p .wide (n + 2 ^ (8 * (limits.get k).bytes))

/-- All numbers on the way stay inside the registers. -/
def Fits (h : Heap) (limits : LimitsTable) (format : String) (args : List Value) : Prop :=
  ∀ p ds, Reads h limits format args p ds → ∀ r n, Computes h limits p r n → r.holds n = true

/-- The number that digits stand for. -/
def decimal (ds : List Char) : Nat := ds.foldl (fun n c => 10 * n + Text.digitValue c) 0

/-- All sizes that are read are written as numbers of 64 bits. -/
def SizesFit (h : Heap) (limits : LimitsTable) (format : String) (args : List Value) : Prop :=
  ∀ p ds, Reads h limits format args p ds → decimal ds < pow2 64

/-- All complements are taken at widths of less than 128 bits. -/
def ComplementsFit (h : Heap) (limits : LimitsTable) (format : String) (args : List Value) : Prop :=
  ∀ p ds k n, Reads h limits format args p ds → Complements h limits p k n →
    (limits.get k).bytes < 16

/-! ## The steps are those of `expand` -/

section Runs

variable {h : Heap} {limits : LimitsTable} {format : String} {args : List Value} {p q : Point}
  {ds : List Char}

/-- What is rendered from a point on. -/
def Point.render (h : Heap) (limits : LimitsTable) (p : Point) : Except LibraryFault String :=
  Format.render h limits (pieces p.field p.rest) p.args p.out

/-- A step renders what comes next. -/
theorem Step.render_eq (hstep : Step h limits p q) : p.render h limits = q.render h limits := by
  cases hstep with
  | text plain => simp only [Point.render, pieces_text plain, Format.render]
  | percent => rfl
  | opens single => simp only [Point.render, pieces_percent single]
  | advance more => simp only [Point.render, pieces_advance more]
  | fill ends filled =>
    simp only [Point.render, pieces, ends, Format.render, filled]
    rfl

theorem Reads.render_eq (hp : Reads h limits format args p ds) :
    expand h limits format args = p.render h limits := by
  induction hp with
  | start => rfl
  | digit _ _ step ih => exact ih.trans step.render_eq
  | other _ _ step ih => exact ih.trans step.render_eq

theorem Reads.next (hp : Reads h limits format args p ds) (hstep : Step h limits p q) :
    ∃ es, Reads h limits format args q es := by
  by_cases hdigit : ∃ size c, Extends p size c
  · obtain ⟨size, c, hdigit⟩ := hdigit
    exact ⟨ds ++ [c], hp.digit hdigit hstep⟩
  · exact ⟨[], hp.other (fun size c h => hdigit ⟨size, c, h⟩) hstep⟩

/-- What can be rendered up to the end has a next step, until nothing is left. -/
theorem Point.exists_step {r : String} (hr : p.render h limits = .ok r) :
    (p.field = none ∧ p.rest = [] ∧ p.out = r) ∨
      ∃ q, Step h limits p q ∧ q.rest.length < p.rest.length := by
  obtain ⟨field, rest, args, out⟩ := p
  cases rest with
  | nil =>
    cases field with
    | none =>
      cases hr
      exact .inl ⟨rfl, rfl, rfl⟩
    | some field => cases hr
  | cons c cs =>
    right
    cases field with
    | none =>
      by_cases hpercent : c = '%'
      · subst hpercent
        by_cases htwo : ∃ ds, cs = '%' :: ds
        · obtain ⟨ds, rfl⟩ := htwo
          exact ⟨_, .percent, by simp only [List.length_cons]; omega⟩
        · exact ⟨_, .opens fun ds h => htwo ⟨ds, h⟩, Nat.lt_succ_self _⟩
      · exact ⟨_, .text hpercent, Nat.lt_succ_self _⟩
    | some field =>
      obtain ⟨part, f⟩ := field
      cases hadvance : advance part f c with
      | some next => exact ⟨_, .advance hadvance, Nat.lt_succ_self _⟩
      | none =>
        simp only [Point.render, pieces, hadvance] at hr
        cases args with
        | nil => cases hr
        | cons v args =>
          obtain ⟨text, htext, -⟩ := exists_of_bind_eq_ok hr
          exact ⟨_, .fill hadvance htext, Nat.lt_succ_self _⟩

theorem Reads.exists_end {r : String} (hp : Reads h limits format args p ds)
    (hr : p.render h limits = .ok r) :
    ∃ left es, Reads h limits format args ⟨none, [], left, r⟩ es := by
  induction hn : p.rest.length using Nat.strong_induction_on generalizing p ds with
  | _ n ih =>
    obtain ⟨hfield, hrest, hout⟩ | ⟨q, hstep, hlt⟩ := p.exists_step hr
    · obtain ⟨field, rest, left, out⟩ := p
      cases hfield
      cases hrest
      cases hout
      exact ⟨left, ds, hp⟩
    · obtain ⟨es, hq⟩ := hp.next hstep
      exact ih _ (hn ▸ hlt) hq (hstep.render_eq ▸ hr) rfl

/-- The format is filled in just when the steps get to its end. -/
theorem expand_eq_ok_iff_reads (out : String) :
    expand h limits format args = .ok out ↔
      ∃ left ds, Reads h limits format args ⟨none, [], left, out⟩ ds := by
  constructor
  · intro hout
    exact Reads.start.exists_end hout
  · rintro ⟨left, ds, hend⟩
    exact hend.render_eq

end Runs

/-! ## Sizes digit by digit -/

section Sizes

variable {h : Heap} {limits : LimitsTable} {format : String} {args : List Value} {p q : Point}
  {ds cs : List Char} {part : Part} {f : Field} {c : Char} {size : Nat}

theorem isDigitIn_of_isDigit (hc : c.isDigit = true) : Text.isDigitIn 10 c = true := by
  grind [Text.isDigitIn, Text.digitValue, Char.isDigit, Char.toNat, UInt32.le_iff_toNat_le]

theorem decimal_concat (ds : List Char) (c : Char) :
    decimal (ds ++ [c]) = 10 * decimal ds + Text.digitValue c := by
  simp only [decimal, List.foldl_append, List.foldl_cons, List.foldl_nil]

theorem withDigit_decimal (hc : c.isDigit = true) (ds : List Char) :
    withDigit (decimal ds % pow2 64) c = decimal (ds ++ [c]) % pow2 64 := by
  rw [decimal_concat]
  exact foldl_withDigit (List.forall_mem_singleton.mpr (isDigitIn_of_isDigit hc)) (decimal ds)

theorem advance_width_digit (hpart : part = .flags ∧ c ≠ '0' ∨ part = .width)
    (hc : c.isDigit = true) (f : Field) :
    advance part f c = some (.width, { f with width := withDigit f.width c }) := by
  obtain ⟨rfl, hzero⟩ | rfl := hpart
  · exact advance_width_first (isDigitIn_of_isDigit hc) hzero f
  · exact advance_width (isDigitIn_of_isDigit hc) f

theorem advance_precision_digit (hc : c.isDigit = true) (f : Field) :
    advance .precision f c =
      some (.precision, { f with precision := some (withDigit (f.precision.getD 0) c) }) := by
  simp [advance, hc]

/-- What one more character does to a field. -/
theorem advance_cases {next : Part × Field} (hnext : advance part f c = some next) :
    (part = .flags ∧ ∃ flag : Flag, c = flag.char ∧ next = (.flags, f.withFlag flag)) ∨
    ((part = .flags ∧ c ≠ '0' ∨ part = .width) ∧ c.isDigit = true ∧
      next = (.width, { f with width := withDigit f.width c })) ∨
    (c = '.' ∧ next = (.precision, { f with precision := some 0 })) ∨
    (part = .precision ∧ c.isDigit = true ∧
      next = (.precision, { f with precision := some (withDigit (f.precision.getD 0) c) })) ∨
    (c ∈ lengthLetters ∧ next = (.length, f)) := by
  simp only [advance, Bool.and_eq_true, Bool.or_eq_true, decide_eq_true_eq] at hnext
  split_ifs at hnext with hminus hzero hplus hspace hhash hwidth hpoint hprecision hlength <;>
    cases hnext
  · exact .inl ⟨hminus.1, .minus, hminus.2, rfl⟩
  · exact .inl ⟨hzero.1, .zero, hzero.2, rfl⟩
  · exact .inl ⟨hplus.1, .plus, hplus.2, rfl⟩
  · exact .inl ⟨hspace.1, .space, hspace.2, rfl⟩
  · exact .inl ⟨hhash.1, .hash, hhash.2, rfl⟩
  · refine .inr (.inl ⟨hwidth.1.imp_left fun hp => ⟨hp, fun hc => hzero ⟨hp, hc⟩⟩, hwidth.2, rfl⟩)
  · exact .inr (.inr (.inl ⟨hpoint.2, rfl⟩))
  · exact .inr (.inr (.inr (.inl ⟨hprecision.1, hprecision.2, rfl⟩)))
  · exact .inr (.inr (.inr (.inr ⟨by simpa [lengthLetters, or_assoc] using hlength, rfl⟩)))

/-- The size that is read holds the number that its digits stand for, up to multiples of `2 ^ 64`,
and the width of the field is a number of 64 bits. -/
def Point.Tracks (p : Point) (ds : List Char) : Prop :=
  match p.field with
  | none => True
  | some (.flags, f) => f.width = 0 ∧ ds = []
  | some (.width, f) => f.width = decimal ds % pow2 64
  | some (.precision, f) => f.width < pow2 64 ∧ f.precision = some (decimal ds % pow2 64)
  | some (.length, f) => f.width < pow2 64

theorem Point.Tracks.width_lt (hp : p.Tracks ds) (hfield : p.field = some (part, f)) :
    f.width < pow2 64 := by
  have hpos : 0 < pow2 64 := by decide
  rw [Point.Tracks, hfield] at hp
  cases part with
  | flags => exact hp.1 ▸ hpos
  | width => exact hp ▸ Nat.mod_lt _ hpos
  | precision => exact hp.1
  | length => exact hp

theorem Point.Tracks.size_eq (hp : p.Tracks ds) (hdigit : Extends p size c) :
    size = decimal ds % pow2 64 := by
  cases hdigit with
  | width part_sized digit =>
    obtain ⟨rfl, -⟩ | rfl := part_sized
    · obtain ⟨hwidth, rfl⟩ := hp
      exact hwidth
    · exact hp
  | precision digit =>
    obtain ⟨-, hprecision⟩ := hp
    rw [hprecision]
    rfl

/-- The digit is the last character of the size after the step. -/
theorem Point.Tracks.digit (hp : p.Tracks ds) (hdigit : Extends p size c)
    (hstep : Step h limits p q) : q.Tracks (ds ++ [c]) := by
  have hsize := hp.size_eq hdigit
  cases hdigit with
  | @width part f c cs args out part_sized digit =>
    have hadvance := advance_width_digit part_sized digit f
    cases hstep with
    | advance more =>
      cases hadvance.symm.trans more
      show withDigit f.width c = _
      rw [hsize, withDigit_decimal digit]
    | fill ends => cases hadvance.symm.trans ends
  | @precision f c cs args out digit =>
    have hadvance := advance_precision_digit digit f
    cases hstep with
    | advance more =>
      cases hadvance.symm.trans more
      refine ⟨hp.1, ?_⟩
      rw [hsize, withDigit_decimal digit]
    | fill ends => cases hadvance.symm.trans ends

/-- After a step that reads no digit no digits have been read. -/
theorem Point.Tracks.other (hp : p.Tracks ds) (hno : ∀ size c, ¬ Extends p size c)
    (hstep : Step h limits p q) : q.Tracks [] := by
  cases hstep with
  | text | percent | fill => trivial
  | opens => exact ⟨rfl, rfl⟩
  | @advance part f c cs next args out more =>
    have hwidth : f.width < pow2 64 := hp.width_lt rfl
    obtain ⟨rfl, flag, rfl, rfl⟩ | ⟨hpart, hdigit, -⟩ | ⟨-, rfl⟩ | ⟨rfl, hdigit, -⟩ | ⟨-, rfl⟩ :=
      advance_cases more
    · refine ⟨?_, rfl⟩
      rw [← hp.1]
      cases flag <;> rfl
    · exact absurd (.width hpart hdigit) (hno _ _)
    · exact ⟨hwidth, rfl⟩
    · exact absurd (.precision hdigit) (hno _ _)
    · exact hwidth

theorem Reads.tracks (hp : Reads h limits format args p ds) : p.Tracks ds := by
  induction hp with
  | start => trivial
  | digit _ hdigit hstep ih => exact ih.digit hdigit hstep
  | other _ hno hstep ih => exact ih.other hno hstep

theorem Extends.isDigit (hdigit : Extends p size c) : c.isDigit = true := by
  cases hdigit <;> assumption

/-- A digit of a size is never refused. -/
theorem Extends.exists_step (hdigit : Extends p size c) (h : Heap) (limits : LimitsTable) :
    ∃ q, Step h limits p q := by
  cases hdigit with
  | width part_sized digit => exact ⟨_, .advance (advance_width_digit part_sized digit _)⟩
  | precision digit => exact ⟨_, .advance (advance_precision_digit digit _)⟩

/-- A digit is added to ten times the number that was written so far if that has 64 bits. -/
theorem Extends.sum_eq (hdigit : Extends p size c) (hp : p.Tracks ds)
    (hlt : decimal ds < pow2 64) : size * 10 + digitOf c = decimal (ds ++ [c]) := by
  rw [decimal_concat, hp.size_eq hdigit, Nat.mod_eq_of_lt hlt,
    digitOf_eq (isDigitIn_of_isDigit hdigit.isDigit), Nat.mul_comm]

/-! ## Digits that follow each other -/

/-- The digits of a size stand in the format, right before what is left of it. -/
theorem Reads.digits_before (hp : Reads h limits format args p ds) :
    (∃ before, format.toList = before ++ (ds ++ p.rest)) ∧ ∀ c ∈ ds, c.isDigit = true := by
  have hrest {p q : Point} (hstep : Step h limits p q) : ∃ cs, p.rest = cs ++ q.rest := by
    cases hstep
    case percent => exact ⟨['%', '%'], rfl⟩
    all_goals exact ⟨[_], rfl⟩
  induction hp with
  | start => exact ⟨⟨[], rfl⟩, by simp⟩
  | @digit p q ds size c before hdigit hstep ih =>
    obtain ⟨⟨before, hformat⟩, hds⟩ := ih
    have hone : p.rest = c :: q.rest := by
      cases hdigit <;> cases hstep <;> rfl
    refine ⟨⟨before, by simp [hformat, hone]⟩, ?_⟩
    simpa [or_imp, forall_and] using ⟨hds, hdigit.isDigit⟩
  | @other p q ds before hno hstep ih =>
    obtain ⟨⟨before, hformat⟩, -⟩ := ih
    obtain ⟨cs, hcs⟩ := hrest hstep
    exact ⟨⟨before ++ ds ++ cs, by simp [hformat, hcs]⟩, by simp⟩

theorem decimal_lt (hds : ∀ c ∈ ds, c.isDigit = true) : decimal ds < 10 ^ ds.length := by
  induction ds using List.reverseRecOn with
  | nil => exact Nat.one_pos
  | append_singleton ds c ih =>
    have hc : Text.digitValue c < 10 :=
      of_decide_eq_true (isDigitIn_of_isDigit (hds c (by simp)))
    have hlt := ih fun d hd => hds d (List.mem_append_left _ hd)
    rw [decimal_concat, List.length_append, List.length_singleton, Nat.pow_succ]
    omega

/-- Nineteen digits fit. -/
theorem sizesFit_of_short (hshort : ∀ ds, ds <:+: format.toList → (∀ c ∈ ds, c.isDigit = true) →
    ds.length < 20) : SizesFit h limits format args := by
  intro p ds hp
  obtain ⟨⟨before, hformat⟩, hds⟩ := hp.digits_before
  have hlength : ds.length < 20 :=
    hshort ds ⟨before, p.rest, by rw [hformat, List.append_assoc]⟩ hds
  calc decimal ds
    _ < 10 ^ ds.length := decimal_lt hds
    _ ≤ 10 ^ 19 := Nat.pow_le_pow_right (by decide) (by omega)
    _ ≤ pow2 64 := by decide

/-- All digits after a point are read as a precision. -/
theorem Reads.precision {es : List Char} {out : String} {left : List Value}
    (hp : Reads h limits format args ⟨some (.precision, f), es ++ cs, left, out⟩ ds)
    (hes : ∀ c ∈ es, c.isDigit = true) :
    ∃ f, Reads h limits format args ⟨some (.precision, f), cs, left, out⟩ (ds ++ es) := by
  induction es generalizing f ds with
  | nil => exact ⟨f, by simpa using hp⟩
  | cons c es ih =>
    obtain ⟨hc, hes⟩ := List.forall_mem_cons.mp hes
    obtain ⟨g, hg⟩ := ih (hp.digit (.precision hc) (.advance (advance_precision_digit hc f))) hes
    exact ⟨g, by simpa using hg⟩

end Sizes

/-! ## What fits -/

section Fitting

variable {h : Heap} {limits : LimitsTable} {format : String} {args : List Value} {p q : Point}
  {ds : List Char}

theorem Register.holds_size (n : Nat) : Register.size.holds n = true ↔ n < pow2 64 := by
  simp [Register.holds]

theorem decimal_lt_of_fits (hfits : Fits h limits format args)
    (hp : Reads h limits format args p ds) : decimal ds < pow2 64 := by
  induction hp with
  | start | other => decide
  | digit before hdigit hstep ih =>
    rw [← hdigit.sum_eq before.tracks ih, ← Register.holds_size]
    exact hfits _ _ before _ _ (.digit hdigit)

/-- One shifted by whole bytes is an integer of 128 bits for less than 16 bytes. -/
theorem holds_power (bytes : Nat) : Wide.holds (2 ^ (8 * bytes)) = true ↔ bytes < 16 := by
  have hlt : (2 : Int) ^ (8 * bytes) < 2 ^ 127 ↔ 8 * bytes < 127 :=
    pow_lt_pow_iff_right₀ (by decide)
  have hpos : (0 : Int) < 2 ^ (8 * bytes) := pow_pos (by decide) _
  rw [Wide.holds_iff]
  constructor
  · rintro ⟨-, hholds⟩
    have hbits := hlt.mp hholds
    omega
  · intro hbytes
    exact ⟨by omega, hlt.mpr (by omega)⟩

/-- An argument whose integer has 128 bits is cut off to an integer of 128 bits. -/
theorem holds_integerOf {x : Number} (hx : ∀ n, x = .int n → Wide.holds n = true) :
    Wide.holds (integerOf x) = true := by
  have hmin : Wide.min = -2 ^ 127 := rfl
  have hmax : Wide.max = 2 ^ 127 - 1 := rfl
  cases x with
  | int n => exact hx n rfl
  | float f =>
    rw [Wide.holds_iff]
    simp only [integerOf]
    split
    · simp only [Wide.clamp]
      split_ifs <;> omega
    · split_ifs <;> omega

/-- All integers among the arguments have 128 bits. -/
def WideArgs (args : List Value) : Prop :=
  ∀ v ∈ args, ∀ n, v.number? = some (.int n) → Wide.holds n = true

theorem Reads.wideArgs (hargs : WideArgs args) (hp : Reads h limits format args p ds) :
    WideArgs p.args := by
  have hkept {p q : Point} (hstep : Step h limits p q) (hwide : WideArgs p.args) :
      WideArgs q.args := by
    cases hstep with
    | text | percent | opens | advance => exact hwide
    | fill => exact fun v hv => hwide v (List.mem_cons_of_mem _ hv)
  induction hp with
  | start => exact hargs
  | digit _ _ hstep ih => exact hkept hstep ih
  | other _ _ hstep ih => exact hkept hstep ih

theorem Complements.holds {k : ArithKind} {n : Int} (hwide : WideArgs p.args)
    (hn : Complements h limits p k n) : n < 0 ∧ Wide.holds n = true := by
  cases hn with
  | @intro part f c cs v args out x ends conversion number negative =>
    refine ⟨negative, holds_integerOf ?_⟩
    rintro n rfl
    refine hwide v List.mem_cons_self n ?_
    rw [numberArg] at number
    cases hv : v.number? with
    | none => rw [hv] at number; cases number
    | some x => rw [hv] at number; cases number; rfl

/-- What a step computes fits if the size that it reads does and the complement is narrow. -/
theorem Computes.holds {r : Register} {n : Int} (hargs : WideArgs args)
    (hp : Reads h limits format args p ds) (hsizes : SizesFit h limits format args)
    (hcomplements : ComplementsFit h limits format args) (hn : Computes h limits p r n) :
    r.holds n = true := by
  have hsum {size : Nat} {c : Char} (hdigit : Extends p size c) :
      size * 10 + digitOf c < pow2 64 := by
    obtain ⟨q, hstep⟩ := hdigit.exists_step h limits
    rw [hdigit.sum_eq hp.tracks (hsizes p ds hp)]
    exact hsizes q _ (hp.digit hdigit hstep)
  cases hn with
  | tens hdigit => exact (Register.holds_size _).mpr ((Nat.le_add_right _ _).trans_lt (hsum hdigit))
  | digit hdigit => exact (Register.holds_size _).mpr (hsum hdigit)
  | @padding part f c cs body v left out ends unpadded shorter =>
    have hwidth : f.width < pow2 64 := hp.tracks.width_lt rfl
    rw [← Int.ofNat_sub shorter.le, Register.holds_size]
    omega
  | bits hk =>
    have hbytes := hcomplements p ds _ _ hp hk
    have hword : 128 < pow2 64 := by decide
    rw [Register.holds_size]
    omega
  | power hk => exact (holds_power _).mpr (hcomplements p ds _ _ hp hk)
  | @complement p k n hk =>
    obtain ⟨hneg, hwide⟩ := hk.holds (hp.wideArgs hargs)
    have hpower := (holds_power _).mpr (hcomplements p ds k n hp hk)
    have hpos : (0 : Int) < 2 ^ (8 * (limits.get k).bytes) := pow_pos (by decide) _
    simp only [Register.holds]
    rw [Wide.holds_iff] at hwide hpower ⊢
    omega

theorem fits_iff (hargs : WideArgs args) : Fits h limits format args ↔
    SizesFit h limits format args ∧ ComplementsFit h limits format args := by
  constructor
  · intro hfits
    refine ⟨fun p ds hp => decimal_lt_of_fits hfits hp, fun p ds k n hp hk => ?_⟩
    exact (holds_power _).mp (hfits p ds hp _ _ (.power hk))
  · rintro ⟨hsizes, hcomplements⟩ p ds hp r n hn
    exact hn.holds hargs hp hsizes hcomplements

/-- The standard kinds have at most 64 bits. -/
theorem complementsFit_of_standard (hlimits : limits.Standard) :
    ComplementsFit h limits format args := by
  have hbytes (k : ArithKind) : (Limits.standard k).bytes < 16 := by cases k <;> decide
  rintro p ds k n - -
  rw [hlimits]
  exact hbytes k

end Fitting

/-! ## What is printed is what was computed -/

section Printing

variable {limits : LimitsTable}

theorem Field.pad_width_zero (f : Field) (body : List Char) (numeric : Bool) :
    { f with width := 0 }.pad body numeric = body := by
  simp only [Field.pad, Nat.zero_sub, List.replicate_zero, List.append_nil, List.nil_append]
  split
  · rfl
  · split
    · split <;> rfl
    · rfl

/-- A text that is answered is filled up to a width from the text that is answered in its place. -/
def FilledUp (width : Nat) (filled plain : Except LibraryFault (List Char)) : Prop :=
  ∀ text, filled = .ok text →
    ∃ body, plain = .ok body ∧ text.length = body.length + (width - body.length)

theorem FilledUp.pad (f : Field) (body : List Char) (numeric : Bool) :
    FilledUp f.width (.ok (f.pad body numeric)) (.ok ({ f with width := 0 }.pad body numeric)) := by
  intro text htext
  cases htext
  refine ⟨body, congrArg _ (f.pad_width_zero body numeric), ?_⟩
  rw [Field.length_pad]
  omega

theorem FilledUp.bind {α : Type} {width : Nat} {x : Except LibraryFault α}
    {g g' : α → Except LibraryFault (List Char)} (h : ∀ a, FilledUp width (g a) (g' a)) :
    FilledUp width (x >>= g) (x >>= g') := by
  intro text htext
  obtain ⟨a, rfl, ha⟩ := exists_of_bind_eq_ok htext
  exact h a text ha

/-- A field has the characters of its text without a width and those of the padding. -/
theorem filledUp_fieldText (h : Heap) (limits : LimitsTable) (f : Field) (c : Char) (v : Value) :
    FilledUp f.width (fieldText h limits f c v) (fieldText h limits { f with width := 0 } c v) := by
  unfold fieldText
  split_ifs
  · exact .bind fun x => .pad f _ _
  · exact .bind fun x => .pad f _ _
  · exact .bind fun x => .pad f _ _
  · exact .bind fun cs => .pad f _ _
  · exact .bind fun x => .pad f _ _
  · exact .pad f _ _
  · intro text htext
    cases htext

/-- The digits of a negative integer without its sign are those of the complement. -/
theorem unsignedOf_complement {kind : Option ArithKind} {n : Int} (hn : n < 0)
    (hbytes : (limits.get (complementKind limits kind)).bytes < 16) :
    (unsignedOf limits kind n : Int) =
      (n + 2 ^ (8 * (limits.get (complementKind limits kind)).bytes)) % 2 ^ 128 := by
  have hmod : 8 * (limits.get (complementKind limits kind)).bytes % 128 =
      8 * (limits.get (complementKind limits kind)).bytes := Nat.mod_eq_of_lt (by omega)
  rw [complementKind] at hmod ⊢
  rw [unsignedOf, if_neg (not_le.mpr hn)]
  simp only [hmod, Numerics.coe_pow2]
  exact Int.toNat_of_nonneg (Int.emod_nonneg _ (by decide))

end Printing

/-- A format is filled in by steps. The numbers that they compute stay inside their registers just
when the digits of every size that is read stand for a number of 64 bits, and no complement is taken
at a width of 128 bits or more. The kinds of the standard table are narrower than that, and a
format in which no twenty digits follow each other has no other sizes. The fields have the padding
that is computed, and negative integers without a sign are printed as the complement that is. -/
theorem expand_arithmetic {args : List Value} (hargs : WideArgs args) (h : Heap)
    (limits : LimitsTable) (format : String) :
    (∀ out, expand h limits format args = .ok out ↔
      ∃ left ds, Reads h limits format args ⟨none, [], left, out⟩ ds) ∧
    (Fits h limits format args ↔
      SizesFit h limits format args ∧ ComplementsFit h limits format args) ∧
    (limits.Standard → (Fits h limits format args ↔ SizesFit h limits format args)) ∧
    ((∀ ds, ds <:+: format.toList → (∀ c ∈ ds, c.isDigit = true) → ds.length < 20) →
      SizesFit h limits format args) ∧
    (∀ f c v, FilledUp f.width (fieldText h limits f c v)
      (fieldText h limits { f with width := 0 } c v)) ∧
    ∀ kind n, n < 0 → (limits.get (complementKind limits kind)).bytes < 16 →
      (unsignedOf limits kind n : Int) =
        (n + 2 ^ (8 * (limits.get (complementKind limits kind)).bytes)) % 2 ^ 128 := by
  refine ⟨expand_eq_ok_iff_reads, fits_iff hargs, fun hlimits => ?_, sizesFit_of_short,
    filledUp_fieldText h limits, fun kind n hn hbytes => unsignedOf_complement hn hbytes⟩
  rw [fits_iff hargs, and_iff_left (complementsFit_of_standard hlimits)]

theorem expand_arithmetic_of_negative :
    let args := [Value.int .int (-1)]
    WideArgs args ∧ Fits {} {} "%12u" args ∧ expand {} {} "%12u" args = .ok "  4294967295" := by
  intro args
  have hargs : WideArgs args := by
    intro v hv n hn
    cases List.mem_singleton.mp hv
    cases hn
    rfl
  obtain ⟨-, -, hstandard, hshort, -⟩ := expand_arithmetic hargs {} {} "%12u"
  have hsizes : SizesFit {} {} "%12u" args := hshort fun ds hds _ =>
    hds.length_le.trans_lt (by decide)
  exact ⟨hargs, (hstandard LimitsTable.standard_empty).mpr hsizes, rfl⟩

/-- The digits of `2 ^ 64 + 1` leave the register, and the precision that is used is one. -/
theorem precision_leaves_register :
    let h : Heap := (({} : Heap).alloc (Text.cells ['a', 'b']).toArray).2
    let args := [Value.ofArray (.array .char 3) 0]
    let format := "%.18446744073709551617s"
    WideArgs args ∧ expand h {} format args = .ok "a" ∧ ¬ Fits h {} format args := by
  have hout : expand (({} : Heap).alloc (Text.cells ['a', 'b']).toArray).2 {}
      "%.18446744073709551617s" [Value.ofArray (.array .char 3) 0] = .ok "a" := by rfl
  have hformat : "%.18446744073709551617s".toList =
      '%' :: '.' :: (Nat.toDigits 10 (2 ^ 64 + 1) ++ ['s']) := by rfl
  intro h args format
  have hargs : WideArgs args := by
    intro v hv n hn
    cases List.mem_singleton.mp hv
    cases hn
  refine ⟨hargs, hout, fun hfits => ?_⟩
  have hstart : Reads h {} format args
      ⟨none, '%' :: '.' :: (Nat.toDigits 10 (2 ^ 64 + 1) ++ ['s']), args, ""⟩ [] :=
    hformat ▸ .start
  have hpercent := hstart.other (by rintro size c ⟨⟩) (.opens (by simp))
  have hpoint := hpercent.other (by rintro size c ⟨-, hdigit⟩; cases hdigit) (.advance rfl)
  obtain ⟨f, hdigits⟩ := hpoint.precision fun c hc =>
    isDigit_of_isDigitIn (isDigitIn_toDigits (2 ^ 64 + 1) c hc)
  have hlt := decimal_lt_of_fits hfits hdigits
  rw [List.nil_append, decimal, Text.foldl_toDigits (by decide) (by decide)] at hlt
  exact absurd hlt (by decide)

end Format

end Stepwise
