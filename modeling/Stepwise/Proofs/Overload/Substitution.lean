import Mathlib.Data.Fintype.Card
import Mathlib.Data.Fintype.EquivFin
import Mathlib.Logic.Relation
import Stepwise.Proofs.Overload.Derivations

/-! # Substituting template arguments

A template argument may be a template slot itself, so that the search for the shape of a slot goes
from slot to slot. It ends unless it comes to a slot that leads back to itself. Calls are matched
in finite time whatever their signatures are, exactly if the template arguments have no such slot.
-/

namespace Stepwise

namespace Matcher

open Relation

section Slots

variable {bindings : List Shape} {i j : Nat} {o : Option Shape}

/-- The argument for a slot is a slot. -/
def Leads (bindings : List Shape) (i j : Nat) : Prop := ∃ r, bindings[i]? = some (.template j r)

/-- The search from a slot ends with what stands for it. -/
inductive Resolves (bindings : List Shape) : Nat → Option Shape → Prop
  | free {i : Nat} : bindings[i]? = none → Resolves bindings i none
  | shape {i : Nat} {s : Shape} : bindings[i]? = some s → (∀ j r, s ≠ .template j r) →
      Resolves bindings i (some s)
  | next {i j : Nat} {r : Bool} {o : Option Shape} : bindings[i]? = some (.template j r) →
      Resolves bindings j o → Resolves bindings i o

theorem resolveSlot_eq_some_iff : resolveSlot bindings i = some o ↔ Resolves bindings i o := by
  constructor
  · -- whatever the search has found so far was found in a finite search
    apply resolveSlot.partial_correctness bindings (Resolves bindings)
    intro search ih i o h
    split at h
    case h_1 hi => cases h; exact .free hi
    case h_2 next r hi => exact .next hi (ih next o h)
    case h_3 s hslot hi => cases h; exact .shape hi hslot
  · intro h
    induction h with
    | free hi => rw [resolveSlot, hi]
    | @shape i s hi hs =>
      rw [resolveSlot, hi]
      cases s with
      | template j r => exact absurd rfl (hs j r)
      | _ => rfl
    | next hi _ ih => rw [resolveSlot, hi]; exact ih

/-- The search from a slot that leads back to itself has no end. -/
theorem Resolves.not_cycle (h : Resolves bindings i o) : ¬TransGen (Leads bindings) i i := by
  induction h with
  | free hi =>
    intro hcycle
    obtain ⟨k, ⟨r, hk⟩, -⟩ := TransGen.head'_iff.mp hcycle
    cases hi.symm.trans hk
  | shape hi hs =>
    intro hcycle
    obtain ⟨k, ⟨r, hk⟩, -⟩ := TransGen.head'_iff.mp hcycle
    cases hi.symm.trans hk
    exact hs k r rfl
  | @next i j r o hi _ ih =>
    intro hcycle
    obtain ⟨k, ⟨r', hk⟩, hrest⟩ := TransGen.head'_iff.mp hcycle
    cases hi.symm.trans hk
    exact ih (TransGen.tail' hrest ⟨r, hi⟩)

/-- Without such slots every search ends, as there are finitely many of them. -/
theorem exists_resolves (h : ∀ i, ¬TransGen (Leads bindings) i i) (i : Nat) :
    ∃ o, Resolves bindings i o := by
  let after (a b : Fin bindings.length) : Prop := TransGen (Leads bindings) b a
  have : IsTrans _ after := ⟨fun _ _ _ hab hbc => hbc.trans hab⟩
  have : Std.Irrefl after := ⟨fun a => h a⟩
  have hfin (a : Fin bindings.length) : ∃ o, Resolves bindings a o := by
    induction a using (Finite.wellFounded_of_trans_of_irrefl after).induction with
    | _ a ih =>
      have ha : bindings[a.val]? = some bindings[a.val] := List.getElem?_eq_getElem a.isLt
      by_cases hslot : ∃ j r, bindings[a.val] = .template j r
      · obtain ⟨j, r, hj⟩ := hslot
        rw [hj] at ha
        by_cases hlt : j < bindings.length
        · obtain ⟨o, ho⟩ := ih ⟨j, hlt⟩ (.single ⟨r, ha⟩)
          exact ⟨o, .next ha ho⟩
        · exact ⟨none, .next ha (.free (List.getElem?_eq_none (not_lt.mp hlt)))⟩
      · exact ⟨_, .shape ha fun j r hj => hslot ⟨j, r, hj⟩⟩
  by_cases hlt : i < bindings.length
  · exact hfin ⟨i, hlt⟩
  · exact ⟨none, .free (List.getElem?_eq_none (not_lt.mp hlt))⟩

theorem isSome_substitute (h : ∀ i, ¬TransGen (Leads bindings) i i) (p : Shape) :
    (substitute bindings p).isSome = true := by
  cases p with
  | template slot r =>
    obtain ⟨o, ho⟩ := exists_resolves h slot
    rw [substitute, resolveSlot_eq_some_iff.mpr ho]
    rfl
  | _ => rfl

end Slots

/-! ## Runs of the matching

A run gives nothing if it does not come back, and its answer otherwise. -/

/-- The run of a conversion to a parameter that may be a slot. -/
def valueRun (m : Matcher) (bindings : List Shape) (a p : Shape) : Option (Option ArgAction) :=
  (substitute bindings p).map fun
    | none => some .copy
    | some p => m.convertShape a p

/-- The run of the binding of an argument. -/
def convertRun (m : Matcher) (bindings : List Shape) (a p : Shape) : Option (Option ArgAction) :=
  match a, p with
  | .reference a, .reference p =>
    if a.unqualified == p.unqualified && (p.isReadonly || !a.isReadonly) then some (some .share)
    else if p.isReadonly then m.valueRun bindings a p
    else some none
  | a, .reference p => if p.isReadonly then m.valueRun bindings a p else some none
  | .reference a, p => m.valueRun bindings a p
  | a, p => m.valueRun bindings a p

/-- The run of the binding of arguments in order, up to the first that cannot be bound. -/
def bindRun (m : Matcher) (bindings : List Shape) (variadic : Bool) :
    List (Shape × Bool) → List (Shape × Bool) → Option (Option (List ArgAction))
  | [], params => some (if params.all Prod.snd then some [] else none)
  | args, [] => some (if variadic then some (args.map fun _ => .copy) else none)
  | (a, _) :: args, (p, _) :: params =>
    (m.convertRun bindings a p).bind fun
      | none => some none
      | some action => (bindRun m bindings variadic args params).map (Option.map (action :: ·))

/-- The run of the matching of a call with a candidate. -/
def matchRun (m : Matcher) (call candidate : Signature) (templates : List Signature) :
    Option (Option (List ArgAction)) :=
  match Shape.ofSignature? m.rule call, Shape.ofSignature? m.rule candidate,
      templates.mapM Shape.ofType? with
  | some (.function _ args _), some (.function _ params variadic), some bindings =>
    if takes variadic args params then m.bindRun bindings variadic args params else some none
  | _, _, _ => some none

section Runs

variable {m : Matcher} {bindings : List Shape} {variadic : Bool} {a p : Shape}
  {args params : List (Shape × Bool)}

theorem join_valueRun : (m.valueRun bindings a p).join = m.convertValue bindings a p := by
  rw [valueRun, convertValue]
  cases substitute bindings p with
  | none => rfl
  | some o => cases o <;> rfl

theorem join_convertRun : (m.convertRun bindings a p).join = m.convert bindings a p := by
  unfold convertRun convert
  cases p with
  | reference p =>
    cases a with
    | reference a =>
      dsimp only
      split
      · rfl
      · split
        · exact join_valueRun
        · rfl
    | _ =>
      dsimp only
      split
      · exact join_valueRun
      · rfl
  | _ => cases a <;> exact join_valueRun

theorem join_bindRun : (m.bindRun bindings variadic args params).join =
    m.bindAll bindings variadic args params := by
  induction args generalizing params with
  | nil => rw [bindRun, bindAll]; rfl
  | cons a args ih =>
    cases params with
    | nil => rfl
    | cons p params =>
      rw [bindRun, bindAll, ← ih, ← join_convertRun]
      cases m.convertRun bindings a.1 p.1 with
      | none => rfl
      | some o =>
        cases o with
        | none => rfl
        | some action =>
          cases m.bindRun bindings variadic args params with
          | none => rfl
          | some o => cases o <;> rfl

/-- The answer of a run is that of the matching. -/
theorem join_matchRun (m : Matcher) (call candidate : Signature) (templates : List Signature) :
    (m.matchRun call candidate templates).join = m.matchFunction call candidate templates := by
  rw [matchRun, matchFunction]
  cases Shape.ofSignature? m.rule call with
  | none => rfl
  | some c =>
    cases Shape.ofSignature? m.rule candidate with
    | none => cases c <;> rfl
    | some d =>
      cases templates.mapM Shape.ofType? with
      | none => cases c <;> cases d <;> rfl
      | some bindings =>
        cases c with
        | function ret args open? =>
          cases d with
          | function ret' params variadic =>
            show Option.join (if takes variadic args params then _ else _) =
              if takes variadic args params then _ else _
            split
            · exact join_bindRun
            · rfl
          | _ => rfl
        | _ => rfl

theorem isSome_convertRun (h : ∀ p, (substitute bindings p).isSome = true) (a p : Shape) :
    (m.convertRun bindings a p).isSome = true := by
  have hvalue (a p : Shape) : (m.valueRun bindings a p).isSome = true := by
    rw [valueRun, Option.isSome_map]
    exact h p
  unfold convertRun
  split
  · split
    · rfl
    · split
      · exact hvalue _ _
      · rfl
  · split
    · exact hvalue _ _
    · rfl
  · exact hvalue _ _
  · exact hvalue _ _

theorem isSome_bindRun (h : ∀ p, (substitute bindings p).isSome = true) :
    (m.bindRun bindings variadic args params).isSome = true := by
  induction args generalizing params with
  | nil => rfl
  | cons a args ih =>
    cases params with
    | nil => rfl
    | cons p params =>
      obtain ⟨o, ho⟩ := Option.isSome_iff_exists.mp (m.isSome_convertRun h a.1 p.1)
      rw [bindRun, ho]
      cases o with
      | none => rfl
      | some action => exact Option.isSome_map.trans ih

/-- If the search ends for all slots the matching comes back. -/
theorem isSome_matchRun {call candidate : Signature} {templates : List Signature}
    (h : ∀ bindings, templates.mapM Shape.ofType? = some bindings →
      ∀ p, (substitute bindings p).isSome = true) :
    (m.matchRun call candidate templates).isSome = true := by
  unfold matchRun
  split
  case h_1 hb =>
    split
    · exact isSome_bindRun (h _ hb)
    · rfl
  case h_2 => rfl

end Runs

section Single

open Signature

/-- A function with one parameter, of a type without marks. -/
def single (base : BaseTree) : Tree .function :=
  FunctionTree.mk (.mk false .result 0 false) (.param (.mk false base 0 false) false .nil)

theorem ofSignature?_single (base : BaseTree) :
    Shape.ofSignature? .function (single base).tokens =
      some (.function .result [(base.shape false, false)] false) :=
  (single base).ofSignature?_tokens

/-- The matcher that reads functions, with the standard limits. -/
def ofFunctions : Matcher := ⟨.function, {}⟩

/-- An integer that is passed for a slot which leads back to itself keeps the matching going. -/
theorem matchRun_of_cycle {templates : List Signature} {bindings : List Shape} {i : Nat}
    (hb : templates.mapM Shape.ofType? = some bindings) (hi : TransGen (Leads bindings) i i) :
    ofFunctions.matchRun (single (.name "int")).tokens (single (.template i)).tokens templates =
      none := by
  have hslot : resolveSlot bindings i = none := by
    cases ho : resolveSlot bindings i with
    | none => rfl
    | some o => exact absurd hi (resolveSlot_eq_some_iff.mp ho).not_cycle
  have hvalue (a : Shape) : ofFunctions.valueRun bindings a (.template i false) = none := by
    rw [valueRun, substitute, hslot]
    rfl
  have hrule : ofFunctions.rule = .function := rfl
  rw [matchRun, hrule, ofSignature?_single, ofSignature?_single, hb]
  show (ofFunctions.valueRun bindings (.name "int" false) (.template i false)).bind _ = none
  rw [hvalue]
  rfl

end Single

/-- A run of the matching has the answer of the matching. Whether it comes back depends on the
template arguments alone: it does for all calls and all candidates, if and only if no slot leads
back to itself through the arguments. -/
theorem matchRun_returns_iff (templates : List Signature) :
    (∀ (m : Matcher) (call candidate : Signature),
      (m.matchRun call candidate templates).join = m.matchFunction call candidate templates) ∧
    ((∀ (m : Matcher) (call candidate : Signature),
        (m.matchRun call candidate templates).isSome = true) ↔
      ∀ bindings, templates.mapM Shape.ofType? = some bindings →
        ∀ i, ¬TransGen (Leads bindings) i i) := by
  refine ⟨fun m call candidate => m.join_matchRun call candidate templates, ?_⟩
  constructor
  · intro h bindings hb i hi
    have hreturns := h ofFunctions (single (.name "int")).tokens (single (.template i)).tokens
    rw [matchRun_of_cycle hb hi] at hreturns
    cases hreturns
  · intro h m call candidate
    exact isSome_matchRun fun bindings hb => isSome_substitute (h bindings hb)

/-- A slot whose argument is the slot itself keeps the matching of `f(int)` with `f(T0)` going. -/
theorem matchRun_endless :
    ofFunctions.matchRun [.function, .result, .openParen, .name "int", .closeParen]
      [.function, .result, .openParen, .template 0, .closeParen] [[.template 0]] = none := by
  have hslot : Shape.ofType? [.template 0] = some (.template 0 false) :=
    @Signature.Tree.ofSignature?_tokens .type (.mk false (.template 0) 0 false)
  have hb : [[SigToken.template 0]].mapM Shape.ofType? = some [.template 0 false] := by
    rw [List.mapM_cons, hslot]
    rfl
  exact matchRun_of_cycle hb (.single ⟨false, rfl⟩)

end Matcher

end Stepwise
