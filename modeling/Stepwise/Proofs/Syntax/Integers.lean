import Stepwise.Machine.Expression
import Stepwise.Proofs.Syntax.Printing

/-! # Kinds of integer literals

An integer literal has the first kind of a list that holds its number. The list depends on the
base and on the suffix: letters of a suffix strike out the kinds that they rule out. The program
keeps of a suffix whether there is a `u` and whether there is an `l`, and heeds an `l` in base ten
only, so that some kinds stay in the list that the suffix rules out. They matter to numbers that
fit into four bytes.
-/

namespace Stepwise

open Lexeme (IntegerText)

/-- The kinds in which an integer literal is looked for, in order, by whether its base is ten,
whether there is a `u` in its suffix, and by the number of letters `l` there. -/
def standardKinds : (decimal unsigned : Bool) → (longs : Nat) → List ArithKind
  | true, false, 0 => [.int, .long, .longLong]
  | true, false, 1 => [.long, .longLong]
  | true, false, _ => [.longLong]
  | false, false, 0 =>
    [.int, .unsigned, .long, .unsignedLong, .longLong, .unsignedLongLong]
  | false, false, 1 => [.long, .unsignedLong, .longLong, .unsignedLongLong]
  | false, false, _ => [.longLong, .unsignedLongLong]
  | _, true, 0 => [.unsigned, .unsignedLong, .unsignedLongLong]
  | _, true, 1 => [.unsignedLong, .unsignedLongLong]
  | _, true, _ => [.unsignedLongLong]

/-- The first of the kinds that holds a number in the default limits. -/
def standardKind? (decimal unsigned : Bool) (longs value : Nat) : Option ArithKind :=
  (standardKinds decimal unsigned longs).find? fun k => ({} : LimitsTable).holds k value

theorem find?_cons_eq_ite {α : Type} (p : α → Bool) (a : α) (l : List α) :
    (a :: l).find? p = if p a then some a else l.find? p := by
  rw [List.find?_cons]
  split <;> simp_all

theorem holds_default {k : ArithKind} {min max : Int} (v : Nat)
    (hrange : (Limits.standard k).range = .integral min max) (hmin : min ≤ 0) :
    ({} : LimitsTable).holds k v = decide ((v : Int) ≤ max) := by
  rw [LimitsTable.holds, LimitsTable.get_default, hrange]
  simp only [Bool.and_eq_right_iff_imp, decide_eq_true_eq]
  omega

theorem holds_default_iff (v : Nat) :
    ({} : LimitsTable).holds .int v = decide (v < 2 ^ 31) ∧
      ({} : LimitsTable).holds .unsigned v = decide (v < 2 ^ 32) ∧
      ({} : LimitsTable).holds .long v = decide (v < 2 ^ 31) ∧
      ({} : LimitsTable).holds .unsignedLong v = decide (v < 2 ^ 32) ∧
      ({} : LimitsTable).holds .longLong v = decide (v < 2 ^ 63) ∧
      ({} : LimitsTable).holds .unsignedLongLong v = decide (v < 2 ^ 64) := by
  refine ⟨?_, ?_, ?_, ?_, ?_, ?_⟩ <;>
    · rw [holds_default v rfl (by decide), decide_eq_decide]
      omega

/-- The sizes of numbers at which the kind of a literal changes. -/
theorem standardKind?_eq (decimal unsigned : Bool) (longs v : Nat) :
    standardKind? decimal unsigned longs v =
      if longs < 2 ∧ v < 2 ^ 31 ∧ unsigned = false then
        some (if longs = 0 then .int else .long)
      else if longs < 2 ∧ v < 2 ^ 32 ∧ (unsigned = true ∨ decimal = false) then
        some (if longs = 0 then .unsigned else .unsignedLong)
      else if v < 2 ^ 63 ∧ unsigned = false then some .longLong
      else if v < 2 ^ 64 ∧ (unsigned = true ∨ decimal = false) then some .unsignedLongLong
      else none := by
  obtain ⟨hint, hunsigned, hlong, hulong, hlonger, hulonger⟩ := holds_default_iff v
  rcases longs with _ | _ | longs <;> cases decimal <;> cases unsigned <;>
    simp only [standardKind?, standardKinds, find?_cons_eq_ite, *] <;> grind

/-- Letters `l` have no part in whether a kind holds the number. -/
theorem standardKind?_eq_none_iff (decimal unsigned : Bool) (longs v : Nat) :
    standardKind? decimal unsigned longs v = none ↔
      (if decimal && !unsigned then 2 ^ 63 else 2 ^ 64) ≤ v := by
  rw [standardKind?_eq]
  cases decimal <;> cases unsigned <;> grind

/-- Letters `l` that do not count matter to numbers in four bytes. -/
theorem exists_standardKind?_of_some {decimal unsigned : Bool} {longs v : Nat} {k : ArithKind}
    (h : standardKind? decimal unsigned longs v = some k) :
    ∃ found, standardKind? decimal unsigned (if decimal then min longs 1 else 0) v = some found ∧
      (found = k ↔ longs = 0 ∨ longs = 1 ∧ decimal = true ∨
        (if decimal && !unsigned then 2 ^ 31 else 2 ^ 32) ≤ v) := by
  rw [standardKind?_eq] at h ⊢
  rcases longs with _ | _ | longs <;> cases decimal <;> cases unsigned <;> grind

/-- The kinds of a program, in which an `l` counts once in base ten and not at all in others. -/
theorem find?_kinds (radix : Nat) (unsigned long : Bool) (v : Nat) :
    ((Literal.kinds radix unsigned long).find? fun k => ({} : LimitsTable).holds k v) =
      standardKind? (radix == 10) unsigned (if radix == 10 && long then 1 else 0) v := by
  obtain ⟨hint, hunsigned, hlong, hulong, hlonger, hulonger⟩ := holds_default_iff v
  rw [standardKind?_eq]
  unfold Literal.kinds
  generalize (radix == 10) = decimal
  cases decimal <;> cases unsigned <;> cases long <;> simp only [find?_cons_eq_ite, *] <;> grind

namespace Lexeme.IntegerText

variable (w : IntegerText)

def text : String := String.ofList w.chars

def isDecimal : Bool := w.base.radix == 10

/-- The number of letters `l` in the suffix. -/
def longs : Nat := w.letters.countP fun c => c = 'l' || c = 'L'

/-- The kind that the literal ought to have, if one holds its number. -/
def standardKind? : Option ArithKind :=
  Stepwise.standardKind? w.isDecimal w.unsigned w.longs w.value

theorem long_eq : w.long = decide (0 < w.longs) := by
  rw [Bool.eq_iff_iff, decide_eq_true_eq, longs, List.countP_pos_iff, long, List.any_eq_true]

/-- The text of a literal is parsed as the literal. -/
theorem parse_chars (types : List String) (hv : w.value < pow2 128) :
    ∃ ts p span, scan w.text = ⟨[], .ok ts⟩ ∧
      Parse.expression { Tokens.ofList [] ts with typeNames := types } = .ok p ∧
      p.value = .literal span (.int w.value w.base.radix w.unsigned w.long) ∧
      p.next.rest = [] := by
  obtain ⟨ts, hscan, hlexemes⟩ := w.scan_chars.1 hv
  let e : Expr := .literal default (.int w.value w.base.radix w.unsigned w.long)
  have he : e.Plain types := .int default w.unsigned w.long w.base.radix_mem_radices hv
  let s : Tokens := { Tokens.ofList [] ts with typeNames := types }
  have hs : s.Holds types (e.print .expression ++ []) := by
    refine ⟨?_, rfl⟩
    show ts.dropLast.map Token.lexeme = _
    rw [List.map_dropLast, hlexemes]
    rfl
  obtain ⟨e', t, ht, heq, hbare, hh⟩ :=
    (he.phrase .expression).reads.whole s [] hs (Level.stops_nil .expression)
  obtain ⟨span, rfl⟩ : ∃ span, e' = .literal span (.int w.value w.base.radix w.unsigned w.long) := by
    cases e' with
    | literal span l =>
      cases hbare
      exact ⟨span, rfl⟩
    | _ => cases hbare
  exact ⟨ts, ⟨_, t, ht⟩, span, hscan, heq, rfl, List.map_eq_nil_iff.mp hh.lexemes⟩

/-- The number is the one that the text denotes, and its kind is the first one in the lists of the
program that holds it. -/
theorem evaluate_literal (span : Span) (hint : Option StructTy) {c : Config} (hc : c.limits = {})
    (s : State) :
    RunM.evaluate (.literal span (.int w.value w.base.radix w.unsigned w.long)) hint c s =
      match Stepwise.standardKind? w.isDecimal w.unsigned (if w.isDecimal then min w.longs 1 else 0)
        w.value with
      | some k => .ok (.done (.int k w.value)) s
      | none => .error ⟨.declaration (.literalTooLarge (some w.value)), s.cursor⟩ s := by
  have hlongs : (if w.isDecimal && w.long then 1 else 0) =
      if w.isDecimal then min w.longs 1 else 0 := by
    rw [long_eq]
    grind
  have hkinds := find?_kinds w.base.radix w.unsigned w.long w.value
  rw [show (w.base.radix == 10) = w.isDecimal from rfl, hlongs] at hkinds
  rw [← hkinds, ← hc]
  have hliteral : RunM.literal (.int w.value w.base.radix w.unsigned w.long) c s =
      (match (Literal.kinds w.base.radix w.unsigned w.long).find? fun k =>
        c.limits.holds k w.value with
      | some k => return .int k w.value
      | none => RunM.fail (.declaration (.literalTooLarge (some w.value))) : RunM Value) c s := rfl
  rw [RunM.evaluate]
  simp only [Bind.bind, ReaderT.bind, EStateM.bind, hliteral]
  cases (Literal.kinds w.base.radix w.unsigned w.long).find? fun k => c.limits.holds k w.value <;>
    rfl

/-- The text of an integer literal is scanned, parsed and evaluated to the number that it denotes,
and is refused exactly if no kind of its list holds the number. The kind is the first one of the
list that does so, unless the suffix has letters `l` that do not count and the number is too small
for all kinds that they rule out. -/
theorem evaluate_text (types : List String) (hint : Option StructTy) {c : Config}
    (hc : c.limits = {}) (s : State) :
    (w.value < pow2 128 → ∃ ts p, scan w.text = ⟨[], .ok ts⟩ ∧
        Parse.expression { Tokens.ofList [] ts with typeNames := types } = .ok p ∧
        p.next.rest = [] ∧
        (w.standardKind? = none → RunM.evaluate p.value hint c s =
          .error ⟨.declaration (.literalTooLarge (some w.value)), s.cursor⟩ s) ∧
        ∀ k, w.standardKind? = some k → ∃ found,
          RunM.evaluate p.value hint c s = .ok (.done (.int found w.value)) s ∧
          (found = k ↔ w.longs = 0 ∨ w.longs = 1 ∧ w.isDecimal = true ∨
            (if w.isDecimal && !w.unsigned then 2 ^ 31 else 2 ^ 32) ≤ w.value)) ∧
      (pow2 128 ≤ w.value →
        w.standardKind? = none ∧ ∃ e, scan w.text = ⟨[], .error e⟩) := by
  constructor
  · intro hv
    obtain ⟨ts, p, span, hscan, hparse, hliteral, hend⟩ := w.parse_chars types hv
    refine ⟨ts, p, hscan, hparse, hend, ?_⟩
    rw [hliteral, w.evaluate_literal span hint hc s]
    constructor
    · intro hnone
      have hfound : Stepwise.standardKind? w.isDecimal w.unsigned
          (if w.isDecimal then min w.longs 1 else 0) w.value = none :=
        (standardKind?_eq_none_iff ..).mpr ((standardKind?_eq_none_iff ..).mp hnone)
      rw [hfound]
    · intro k hk
      obtain ⟨found, hfound, hiff⟩ := exists_standardKind?_of_some hk
      refine ⟨found, ?_, hiff⟩
      rw [hfound]
  · intro hv
    refine ⟨(standardKind?_eq_none_iff ..).mpr (le_trans ?_ hv), w.scan_chars.2 hv⟩
    have hbound : 2 ^ 64 ≤ pow2 128 := by decide +kernel
    split <;> omega

/-- In base sixteen, the first number that `int` does not hold is `unsigned`. -/
theorem evaluate_text_unsigned :
    ({} : Config).limits = {} ∧
      ∃ ts p, scan "0X80000000" = ⟨[], .ok ts⟩ ∧
        Parse.expression { Tokens.ofList [] ts with typeNames := [] } = .ok p ∧
        p.next.rest = [] ∧
        RunM.evaluate p.value none {} {} = .ok (.done (.int .unsigned 0x80000000)) {} := by
  let w : IntegerText :=
    { base := .hexadecimal true
      spaced := "80000000".toList
      letters := []
      isSpacedDigit_of_mem := List.forall_iff_forall_mem.mp (by decide)
      withoutQuotes_ne_nil := by decide
      head?_ne_quote := nofun
      withoutQuotes_ne_zero_cons := nofun
      mem_suffixLetters := List.forall_iff_forall_mem.mp (by decide) }
  have hvalue : w.value = 0x80000000 := by decide
  obtain ⟨ts, p, hscan, hparse, hend, -, hkind⟩ :=
    (w.evaluate_text [] none (c := {}) rfl {}).1 (by rw [hvalue]; decide +kernel)
  obtain ⟨found, hfound, hiff⟩ := hkind .unsigned (by decide)
  rw [hiff.mpr (.inl rfl), hvalue] at hfound
  exact ⟨rfl, ts, p, hscan, hparse, hend, hfound⟩

/-- A literal with the suffix `ll` may be a `long`. -/
theorem long_long_literal_long :
    ¬ ∀ (w : IntegerText) (types : List String) (hint : Option StructTy) (c : Config) (s : State)
        (ts : List Token) (p : _) (k : ArithKind), c.limits = {} → w.standardKind? = some k →
      scan w.text = ⟨[], .ok ts⟩ →
      Parse.expression { Tokens.ofList [] ts with typeNames := types } = .ok p →
      RunM.evaluate p.value hint c s = .ok (.done (.int k w.value)) s := by
  intro h
  let w : IntegerText :=
    { base := .decimal
      spaced := ['1']
      letters := ['l', 'l']
      isSpacedDigit_of_mem := List.forall_iff_forall_mem.mp (by decide)
      withoutQuotes_ne_nil := by decide
      head?_ne_quote := by simp
      withoutQuotes_ne_zero_cons := by simp [withoutQuotes]
      mem_suffixLetters := List.forall_iff_forall_mem.mp (by decide) }
  have hvalue : w.value = 1 := by decide
  obtain ⟨ts, p, span, hscan, hparse, hliteral, -⟩ :=
    w.parse_chars [] (by rw [hvalue]; decide +kernel)
  have hlonger := h w [] none {} {} ts p .longLong rfl (by decide) hscan hparse
  have hlong : Stepwise.standardKind? w.isDecimal w.unsigned
      (if w.isDecimal then min w.longs 1 else 0) w.value = some .long := by decide
  rw [hliteral, w.evaluate_literal span none rfl {}, hlong] at hlonger
  cases hlonger

end Lexeme.IntegerText

end Stepwise
