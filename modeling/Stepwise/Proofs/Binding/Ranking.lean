import Stepwise.Proofs.Binding.Constness
import Stepwise.Proofs.Binding.Prototypes
import Stepwise.Proofs.Overload.Answers
import Mathlib.Data.List.Nodup

/-! # Ranks of candidates

A family of functions that is registered under a name. Each function needs its own casts to accept
a call, whatever stands before or after it, so that the order of the family has no part in where a
call goes: to the one function that needs the fewest casts, or, if several do, to a fault that names
all of them.
-/

namespace Stepwise

/-- A function as it is registered under a name. -/
structure Registration where
  type : FunctionTy
  id : Nat
  templateSlots : Nat

namespace Registration

def overload (r : Registration) : Overload := ⟨.ofFunction r.type, r.id, r.templateSlots, r.type⟩

/-- The text that tells the functions of a family apart. -/
def text (r : Registration) : String := r.overload.signature.text

theorem eq_of_overload_eq {rs : List Registration} (hd : (rs.map text).Nodup) {r r' : Registration}
    (hr : r ∈ rs) (hr' : r' ∈ rs) (h : r.overload = r'.overload) : r = r' :=
  List.inj_on_of_nodup_map hd hr hr' (congrArg (·.signature.text) h)

end Registration

/-- Calls that are answered in the same way: the same function is found, with the same actions, or
none, or the faults name the same candidates in some order. -/
inductive SameAnswer :
    Except NameFault (Option FunctionMatch) → Except NameFault (Option FunctionMatch) → Prop
  | found (answer : Option FunctionMatch) : SameAnswer (.ok answer) (.ok answer)
  | ambiguous (name : String) {candidates candidates' : List String} :
    candidates.Perm candidates' →
    SameAnswer (.error (.ambiguous name candidates)) (.error (.ambiguous name candidates'))

section Order

variable {m : Matcher} {call : Signature} {templates : List Signature} {os os' : List Overload}
  {name : String}

theorem tied_perm (h : os.Perm os') :
    (tied m call templates os).Perm (tied m call templates os') := by
  have hall (p : Overload → Bool) : os.all p = os'.all p := h.all_eq
  unfold tied
  simp only [hall]
  exact h.filter _

/-- What a call is answered over overloads in one order and in another. -/
theorem Resolution.sameAnswer {a b : Except NameFault (Option FunctionMatch)} (h : os.Perm os')
    (ha : Resolution m call templates os name a) (hb : Resolution m call templates os' name b) :
    SameAnswer a b := by
  have htied : (tied m call templates os).Perm (tied m call templates os') := tied_perm h
  obtain ⟨b', hb', hsame⟩ : ∃ b', Resolution m call templates os' name b' ∧ SameAnswer a b' := by
    cases ha with
    | none hn => exact ⟨_, .none fun o ho => hn o (h.mem_iff.mpr ho), .found _⟩
    | only ho hf =>
      rw [ho, List.singleton_perm] at htied
      exact ⟨_, .only htied.symm hf, .found _⟩
    | several hs => exact ⟨_, .several (htied.length_eq ▸ hs), .ambiguous name (htied.map _)⟩
  rwa [hb.unique hb']

/-- The overload that is found needs fewer casts than any other one that accepts the call. -/
theorem Resolution.casts_lt {f : FunctionMatch} (h : Resolution m call templates os name (.ok (some f))) :
    ∃ o ∈ os, o.match? m call templates = some f ∧
      ∀ o' ∈ os, o' ≠ o → ∀ f', o'.match? m call templates = some f' → f.casts < f'.casts := by
  cases h with
  | @only o _ ho hf =>
    obtain ⟨hm, f', hf', hle⟩ := mem_tied.mp (ho ▸ List.mem_singleton_self o)
    cases hf.symm.trans hf'
    refine ⟨o, hm, hf, fun o' hm' hne g hg => ?_⟩
    refine Nat.lt_of_not_le fun hge => hne (List.mem_singleton.mp ?_)
    rw [← ho]
    exact mem_tied.mpr ⟨hm', g, hg, fun o'' hm'' g' hg' => hge.trans (hle o'' hm'' g' hg')⟩

end Order

namespace OverloadTable

variable {m : Matcher} {t : OverloadTable} {name : String} {rs rs' : List Registration}

/-- A new table in which a family is registered in order. -/
def registered (name : String) (rs : List Registration) : Except NameFault OverloadTable :=
  rs.foldlM (fun t r => t.add name r.type r.id r.templateSlots) {}

/-- No answer for the name is remembered. -/
def Unasked (name : String) (t : OverloadTable) : Prop :=
  ∀ s, t.set? name = some s → s.answers = []

theorem foldlM_add (ht : t.Unasked name)
    (hd : ((t.overloads name).map (·.signature.text) ++ rs.map Registration.text).Nodup) :
    ∃ u, rs.foldlM (fun t r => t.add name r.type r.id r.templateSlots) t = .ok u ∧
      u.Unasked name ∧ u.overloads name = t.overloads name ++ rs.map Registration.overload := by
  induction rs generalizing t with
  | nil => exact ⟨t, rfl, ht, by rw [List.map_nil, List.append_nil]⟩
  | cons r rs ih =>
    have hnew : ∀ o ∈ t.overloads name, o.signature.text ≠ (Signature.ofFunction r.type).text := by
      intro o ho heq
      have hdisjoint := List.disjoint_of_nodup_append hd
      exact hdisjoint (List.mem_map_of_mem ho) (List.mem_map.mpr ⟨r, List.mem_cons_self, heq.symm⟩)
    have hadd := add_eq t name r.type r.id r.templateSlots
    rw [if_pos hnew] at hadd
    have hoverloads := overloads_put t name ⟨t.overloads name ++ [r.overload], []⟩ name
    rw [beq_self_eq_true, if_pos rfl] at hoverloads
    have hunasked : (t.put name ⟨t.overloads name ++ [r.overload], []⟩).Unasked name := by
      intro s hs
      rw [set?_put, beq_self_eq_true, if_pos rfl, Option.some.injEq] at hs
      rw [← hs]
    obtain ⟨u, hu, hasked, hall⟩ := ih hunasked (by
      rw [hoverloads]
      simpa [Registration.text] using hd)
    refine ⟨u, ?_, hasked, ?_⟩
    · rw [List.foldlM_cons, hadd]
      exact hu
    · rw [hall, hoverloads, List.append_assoc]
      rfl

/-- A family is registered if no two of its functions have one text. -/
theorem exists_registered (name : String) (hd : (rs.map Registration.text).Nodup) :
    ∃ t, registered name rs = .ok t ∧ t.Unasked name ∧
      t.overloads name = rs.map Registration.overload := by
  obtain ⟨t, ht, hasked, hall⟩ : ∃ t, registered name rs = .ok t ∧ t.Unasked name ∧
      t.overloads name = ({} : OverloadTable).overloads name ++ rs.map Registration.overload :=
    foldlM_add nofun hd
  exact ⟨t, ht, hasked, hall⟩

/-- The first call of a name is resolved over the functions of the name. -/
theorem resolution_of_unasked (ht : t.Unasked name) (args : List ArgSig) (templates : List Ty) :
    Resolution m (.ofCall args) (templates.map .ofType) (t.overloads name) name
      ((t.resolve m name args templates).map Prod.fst) := by
  cases hs : t.set? name with
  | none =>
    rw [resolve_of_set?_none hs ⟨args, templates⟩, overloads, hs]
    exact .none fun _ h => absurd h List.not_mem_nil
  | some s =>
    let q : Query := ⟨args, templates⟩
    have hfresh : (t.resolve m name args templates).map Prod.fst =
        s.resolveFresh name m q.call q.templateArgs := by
      rw [resolve_of_set?_some hs q, OverloadSet.resolve, ht s hs]
      dsimp only [List.lookup_nil]
      cases s.resolveFresh name m q.call q.templateArgs <;> rfl
    rw [hfresh, overloads_of_set? hs]
    exact resolution_resolveFresh s name

/-- A family may be registered in any order: each call that is asked first is answered in the same
way, and the function that it goes to needs fewer casts than any other one that accepts it. -/
theorem resolve_perm (hp : rs.Perm rs') (hd : (rs.map Registration.text).Nodup) (m : Matcher)
    (name : String) (args : List ArgSig) (templates : List Ty) :
    ∃ t t', registered name rs = .ok t ∧ registered name rs' = .ok t' ∧
      SameAnswer ((t.resolve m name args templates).map Prod.fst)
        ((t'.resolve m name args templates).map Prod.fst) ∧
      ∀ f, (t.resolve m name args templates).map Prod.fst = .ok (some f) →
        ∃ r ∈ rs, r.overload.match? m (.ofCall args) (templates.map .ofType) = some f ∧
          ∀ r' ∈ rs, r' ≠ r → ∀ f',
            r'.overload.match? m (.ofCall args) (templates.map .ofType) = some f' →
              f.casts < f'.casts := by
  obtain ⟨t, ht, hasked, hall⟩ := exists_registered name hd
  obtain ⟨t', ht', hasked', hall'⟩ := exists_registered name ((hp.map _).nodup_iff.mp hd)
  have hres := resolution_of_unasked (m := m) hasked args templates
  have hres' := resolution_of_unasked (m := m) hasked' args templates
  rw [hall] at hres
  rw [hall'] at hres'
  refine ⟨t, t', ht, ht', hres.sameAnswer (hp.map _) hres', fun f hf => ?_⟩
  rw [hf] at hres
  obtain ⟨o, ho, hmatch, hlt⟩ := hres.casts_lt
  obtain ⟨r, hr, rfl⟩ := List.mem_map.mp ho
  refine ⟨r, hr, hmatch, fun r' hr' hne => hlt r'.overload (List.mem_map_of_mem hr') fun heq => ?_⟩
  exact hne (Registration.eq_of_overload_eq hd hr' hr heq)

/-- Functions of `int` and of `double` in both orders, and a call with a `char`. -/
theorem resolve_perm_char :
    let f : Registration := ⟨⟨.void, [.plain .int], false⟩, 0, 0⟩
    let g : Registration := ⟨⟨.void, [.plain (.arith .double)], false⟩, 1, 0⟩
    [f, g].Perm [g, f] ∧ ([f, g].map Registration.text).Nodup ∧
      ∃ t t', registered "f" [f, g] = .ok t ∧ registered "f" [g, f] = .ok t' ∧
        SameAnswer ((t.resolve ⟨.function, {}⟩ "f" [.rvalue .char] []).map Prod.fst)
          ((t'.resolve ⟨.function, {}⟩ "f" [.rvalue .char] []).map Prod.fst) := by
  intro f g
  have hd : ([f, g].map Registration.text).Nodup := by decide +kernel
  obtain ⟨t, t', ht, ht', hsame, -⟩ :=
    resolve_perm (.swap g f []) hd ⟨.function, {}⟩ "f" [.rvalue .char] []
  exact ⟨.swap g f [], hd, t, t', ht, ht', hsame⟩

end OverloadTable

/-- A value of one type is passed for a parameter of another one as it is: the types are the same,
the one is promoted to the other, or a function becomes the pointer to it. -/
inductive Ty.PassesAsIs (m : Matcher) (a t : Ty) : Prop
  | same (h : a.decayed = t.decayed)
  | promotion {j k : ArithKind} (ha : a = .arith j) (ht : t = .arith k)
    (h : m.isPromotion j k = true)
  | pointerTo {f : FunctionTy} (ha : a.decayed = .function f) (ht : t.decayed = .functionPointer f)

/-- All arguments are passed as they are, arguments without a parameter to a variadic function, and
parameters without an argument have defaults. -/
inductive AllPassAsIs (m : Matcher) (variadic : Bool) : List ArgSig → List ParamTy → Prop
  | omitted {ps : List ParamTy} : (∀ p ∈ ps, p.optional = true) → AllPassAsIs m variadic [] ps
  | surplus {args : List ArgSig} : variadic = true → AllPassAsIs m variadic args []
  | cons {a : ArgSig} {p : ParamTy} {args : List ArgSig} {ps : List ParamTy} :
    a.ty.PassesAsIs m p.ty → AllPassAsIs m variadic args ps →
    AllPassAsIs m variadic (a :: args) (p :: ps)

namespace Ty

theorem eq_arith_of_decayed {t : Ty} {k : ArithKind} (h : t.decayed = .arith k) : t = .arith k := by
  have harith : t.isArith = true := by rw [← isArith_decayed, h]; rfl
  cases t with
  | arith => exact h
  | _ => cases harith

theorem exists_shape?_false {t : Ty} (h : t.constNamed = true) :
    ∃ s, t.shape? false = some s ∧ s.spelled = (t.decayed, false) :=
  exists_shape? false t h fun hc => absurd hc Bool.false_ne_true

end Ty

namespace Matcher

open Shape Ty

variable {m : Matcher} {a t : Ty} {s s' : Shape} {bindings : List Shape}

/-- Shapes convert without a cast if their types pass as they are. -/
theorem convertShape_eq_copy_iff (ha : a.constNamed = true) (ht : t.constNamed = true)
    (hs : a.shape? false = some s) (hs' : t.shape? false = some s') :
    m.convertShape s s' = some .copy ↔ a.PassesAsIs m t := by
  constructor
  · intro h
    obtain ⟨z, hz, hspelled⟩ := exists_shape?_false ha
    obtain ⟨z', hz', hspelled'⟩ := exists_shape?_false ht
    cases hs.symm.trans hz
    cases hs'.symm.trans hz'
    have hspells : s.spelled.1 = a.decayed := congrArg Prod.fst hspelled
    have hspells' : s'.spelled.1 = t.decayed := congrArg Prod.fst hspelled'
    by_cases hsame : s.unqualified = s'.unqualified
    · refine .same ?_
      rw [← hspells, ← hspells', ← spelled_unqualified s, hsame, spelled_unqualified]
    have hsome : (m.convertShape s s').isSome = true := by rw [h]; rfl
    obtain heq | ⟨j, k, hj, hk⟩ | ⟨x, y, rfl, rfl⟩ | ⟨ret, params, isVariadic, rfl, rfl⟩ :=
      m.cases_of_convertShape hsome
    · exact absurd heq hsame
    · have hj' := eq_arith_of_decayed (hspells.symm.trans (spelled_of_arith? hj))
      have hk' := eq_arith_of_decayed (hspells'.symm.trans (spelled_of_arith? hk))
      refine .promotion hj' hk' ?_
      unfold convertShape at h
      rw [if_neg (mt beq_iff_eq.mp hsame), hj, hk] at h
      by_contra hp
      rw [Option.some_inj, if_neg hp] at h
      cases h
    · rw [convertShape_pointer, if_neg fun hxy => hsame (by rw [hxy])] at h
      split at h
      · cases h
      · split at h <;> cases h
    · refine .pointerTo (f := ⟨ret.spelled.1, spelledParams params, isVariadic⟩) ?_ ?_
      · rw [← hspells, spelled]
      · rw [← hspells', spelled, spelled]
        rfl
  · rintro (h | ⟨rfl, rfl, h⟩ | ⟨hf, hp⟩)
    · exact convertShape_of_same ha ht hs hs' h
    · cases hs
      cases hs'
      unfold convertShape
      split
      · rfl
      · simp only [Shape.arith?, ArithKind.ofName?_name]
        rw [if_pos h]
    · exact convertShape_of_pointerTo ha ht hs hs' hf hp

end Matcher

namespace ArgSig

/-- Signatures keep apart what the argument is: constness stands before types with names only. -/
structure Plain (a : ArgSig) : Prop where
  constNamed : a.ty.constNamed = true
  notPointer : a.readonly = true → a.ty.pointee? = none

/-- An argument is read as its type is, up to its own constness. -/
theorem Plain.exists_shape? {a : ArgSig} (ha : a.Plain) :
    ∃ s s', a.ty.shape? a.readonly = some s ∧ a.ty.shape? false = some s' ∧
      s.unqualified = s'.unqualified := by
  obtain ⟨s', hs', -⟩ := Ty.exists_shape?_false ha.constNamed
  cases hr : a.readonly with
  | false => exact ⟨s', s', hs', hs', rfl⟩
  | true =>
    have hp := ha.notPointer hr
    cases hty : a.ty with
    | pointer | array =>
      rw [hty] at hp
      cases hp
    | functionPointer | function =>
      rw [hty] at hs'
      exact ⟨s', s', hs', hs', rfl⟩
    | void | marker | arith | struct =>
      rw [hty] at hs'
      cases hs'
      exact ⟨_, _, rfl, rfl, rfl⟩

end ArgSig

namespace Matcher

variable {m : Matcher} {bindings : List Shape}

/-- Arguments are bound without a cast if they are passed as they are, and then as copies. -/
theorem bindAll_asIs_iff {variadic : Bool} {args : List ArgSig} {ps : List ParamTy}
    {ss : List Shape} {qs : List (Shape × Bool)} {actions : List ArgAction}
    (ha : ∀ a ∈ args, a.Plain) (hp : ∀ p ∈ ps, p.reference = false ∧ p.ty.constNamed = true)
    (hs : List.Forall₂ (fun a s => a.shape? = some s) args ss)
    (hq : List.Forall₂ (fun p q => Ty.paramShape? p = some q) ps qs) :
    m.bindAll bindings variadic (ss.map (·, false)) qs = some actions ∧ .cast ∉ actions ↔
      actions = args.map (fun _ => .copy) ∧ AllPassAsIs m variadic args ps := by
  induction hs generalizing ps qs actions with
  | nil =>
    have hoptional : qs.all Prod.snd = true ↔ ∀ p ∈ ps, p.optional = true := by
      clear hp
      induction hq with
      | nil => simp
      | cons hq _ ih => simp [ih, paramShape?_optional hq]
    rw [List.map_nil, bindAll]
    constructor
    · rintro ⟨h, -⟩
      split at h
      · cases h
        exact ⟨rfl, .omitted (hoptional.mp ‹_›)⟩
      · cases h
    · rintro ⟨rfl, h⟩
      cases h with
      | omitted h => exact ⟨if_pos (hoptional.mpr h), List.not_mem_nil⟩
      | surplus =>
        cases hq
        exact ⟨rfl, List.not_mem_nil⟩
  | @cons a s args ss has hss ih =>
    obtain ⟨hplain, hargs⟩ := List.forall_mem_cons.mp ha
    cases hq with
    | nil =>
      have hlength : ss.length = args.length := hss.length_eq.symm
      have hsurplus : m.bindAll bindings variadic ((s :: ss).map (·, false)) [] =
          if variadic then some ((a :: args).map fun _ => .copy) else none := by
        simp [bindAll, Function.comp_def, hlength]
      rw [hsurplus]
      constructor
      · rintro ⟨h, -⟩
        split at h
        · cases h
          exact ⟨rfl, .surplus ‹_›⟩
        · cases h
      · rintro ⟨rfl, h⟩
        cases h with
        | surplus h => exact ⟨if_pos h, by simp⟩
    | @cons p q ps qs hpq hqs =>
      obtain ⟨⟨hvalue, hconst⟩, hps⟩ := List.forall_mem_cons.mp hp
      have hq := shape?_of_paramShape? hvalue hpq
      obtain ⟨r, r', hr, hr', hsame⟩ := hplain.exists_shape?
      have hs : (if a.lvalue then .reference r else r) = s := by
        rw [ArgSig.shape?, hr] at has
        exact Option.some.inj has
      have hconvert : m.convert bindings s q.1 = m.convertShape r' q.1 := by
        rw [← hs, convert_byValue hr hq, m.convertShape_congr hsame]
      have hasIs := m.convertShape_eq_copy_iff hplain.constNamed hconst hr' hq
      rw [List.map_cons, List.map_cons, bindAll, hconvert]
      constructor
      · rintro ⟨h, hcast⟩
        obtain ⟨action, haction, h⟩ := Option.bind_eq_some_iff.mp h
        obtain ⟨rest, hrest, h⟩ := Option.bind_eq_some_iff.mp h
        cases h
        rw [List.mem_cons, not_or] at hcast
        obtain rfl : action = .copy := by
          cases action with
          | copy => rfl
          | share => exact absurd haction (convertShape_ne_share _ _)
          | cast => exact absurd rfl hcast.1
        obtain ⟨rfl, hall⟩ := (ih hargs hps hqs).mp ⟨hrest, hcast.2⟩
        exact ⟨rfl, .cons (hasIs.mp haction) hall⟩
      · rintro ⟨rfl, h⟩
        cases h with
        | cons hfirst hall =>
          obtain ⟨hrest, -⟩ := (ih hargs hps hqs).mpr ⟨rfl, hall⟩
          refine ⟨?_, by simp⟩
          rw [hasIs.mpr hfirst, hrest]
          rfl

theorem isSome_paramShape?_of_value {p : ParamTy} (hvalue : p.reference = false)
    (hconst : p.ty.constNamed = true) : (Ty.paramShape? p).isSome = true := by
  obtain ⟨ty, isReference, readonly, optional⟩ := p
  obtain rfl : isReference = false := hvalue
  obtain ⟨s, hs, -⟩ := Ty.exists_shape?_false hconst
  rw [Ty.paramShape?, Bool.and_false, hs]
  rfl

/-- A function with parameters by value takes a call without a cast if all arguments are passed as
they are, and then copies each. -/
theorem matchFunction_asIs_iff {f : FunctionTy} {args : List ArgSig} {templates : List Ty}
    {actions : List ArgAction} (ht : ∀ t ∈ templates, t.constNamed = true)
    (ha : ∀ a ∈ args, a.Plain)
    (hp : ∀ p ∈ f.params, p.reference = false ∧ p.ty.constNamed = true) :
    m.matchFunction (.ofCall args) (.ofFunction f) (templates.map .ofType) = some actions ∧
        .cast ∉ actions ↔
      actions = args.map (fun _ => .copy) ∧ AllPassAsIs m f.variadic args f.params := by
  obtain ⟨ss, hss⟩ : ∃ ss, args.mapM ArgSig.shape? = some ss := by
    refine exists_mapM fun a hmem => ?_
    obtain ⟨s, -, hs, -, -⟩ := (ha a hmem).exists_shape?
    rw [ArgSig.shape?, hs]
    rfl
  obtain ⟨qs, hqs⟩ : ∃ qs, f.params.mapM Ty.paramShape? = some qs :=
    exists_mapM fun p hmem => isSome_paramShape?_of_value (hp p hmem).1 (hp p hmem).2
  obtain ⟨bindings, hbindings⟩ :
      ∃ bindings, (templates.map .ofType).mapM Shape.ofType? = some bindings := by
    refine exists_mapM fun ts hts => ?_
    obtain ⟨t, hmem, rfl⟩ := List.mem_map.mp hts
    obtain ⟨s, hs, -⟩ := Ty.exists_shape?_false (ht t hmem)
    rw [Shape.ofType?_ofType, hs]
    rfl
  rw [matchFunction_ofCall, hss, Ty.paramShapes?_eq_mapM, hqs, hbindings]
  exact bindAll_asIs_iff ha hp (mapM_eq_some_iff.mp hss) (mapM_eq_some_iff.mp hqs)

end Matcher

section Castless

variable {m : Matcher} {call : Signature} {templates : List Signature} {rs : List Registration}
  {r : Registration} {f : FunctionMatch}

/-- If a call can be taken without a cast, then it goes to those that take it so. -/
theorem exists_sublist_tied (hr : r ∈ rs) (hf : r.overload.match? m call templates = some f)
    (hcasts : f.casts = 0) :
    ∃ l : List Registration, l.Sublist rs ∧
      tied m call templates (rs.map Registration.overload) = l.map Registration.overload ∧
      ∀ x, x ∈ l ↔ x ∈ rs ∧ ∃ f', x.overload.match? m call templates = some f' ∧ f'.casts = 0 := by
  refine ⟨_, List.filter_sublist, List.filter_map, fun x => ?_⟩
  rw [List.mem_filter]
  refine and_congr_right fun hx => ?_
  have hx := List.mem_map_of_mem (f := Registration.overload) hx
  refine (and_iff_right hx).symm.trans (List.mem_filter.symm.trans (mem_tied.trans ?_))
  constructor
  · rintro ⟨-, f', hf', hleast⟩
    exact ⟨f', hf', Nat.le_zero.mp (hcasts ▸ hleast _ (List.mem_map_of_mem hr) f hf)⟩
  · rintro ⟨f', hf', hcasts'⟩
    exact ⟨hx, f', hf', fun _ _ f'' _ => hcasts' ▸ Nat.zero_le _⟩

end Castless

namespace Registration

variable {m : Matcher} {args : List ArgSig} {templates : List Ty} {r : Registration}

/-- The function has room for the template arguments and takes all others as they are. -/
def TakesAsIs (m : Matcher) (args : List ArgSig) (templates : List Ty) (r : Registration) : Prop :=
  templates.length ≤ r.templateSlots ∧ AllPassAsIs m r.type.variadic args r.type.params

/-- All parameters of the function are passed by value, and signatures keep their types apart. -/
def ByValue (r : Registration) : Prop :=
  ∀ p ∈ r.type.params, p.reference = false ∧ p.ty.constNamed = true

/-- The function has room for the template arguments, and has as many parameters as there are
arguments, of the same types. -/
def IsExact (args : List ArgSig) (templates : List Ty) (r : Registration) : Prop :=
  templates.length ≤ r.templateSlots ∧
    List.Forall₂ (fun a p => a.ty.decayed = p.ty.decayed) args r.type.params

theorem IsExact.takesAsIs (h : r.IsExact args templates) : r.TakesAsIs m args templates := by
  obtain ⟨hroom, h⟩ := h
  refine ⟨hroom, ?_⟩
  generalize r.type.params = ps at h
  induction h with
  | nil => exact .omitted nofun
  | cons hsame _ ih => exact .cons (.same hsame) ih

theorem match?_asIs_iff (ht : ∀ t ∈ templates, t.constNamed = true) (ha : ∀ a ∈ args, a.Plain)
    (hr : r.ByValue) {f : FunctionMatch} :
    r.overload.match? m (.ofCall args) (templates.map .ofType) = some f ∧ f.casts = 0 ↔
      f = ⟨r.id, r.type, args.map fun _ => .copy⟩ ∧ r.TakesAsIs m args templates := by
  have hcasts (actions : List ArgAction) :
      (FunctionMatch.mk r.id r.type actions).casts = 0 ↔ .cast ∉ actions := List.count_eq_zero
  have hmatch (actions : List ArgAction) :
      m.matchFunction (.ofCall args) r.overload.signature (templates.map .ofType) = some actions ∧
          .cast ∉ actions ↔ _ := Matcher.matchFunction_asIs_iff ht ha hr
  unfold TakesAsIs Overload.match?
  rw [List.length_map]
  split
  · constructor
    · rintro ⟨h, hf⟩
      obtain ⟨actions, hactions, rfl⟩ := Option.map_eq_some_iff.mp h
      obtain ⟨rfl, hall⟩ := (hmatch actions).mp ⟨hactions, (hcasts actions).mp hf⟩
      exact ⟨rfl, ‹_›, hall⟩
    · rintro ⟨rfl, -, hall⟩
      obtain ⟨hactions, hnot⟩ := (hmatch _).mpr ⟨rfl, hall⟩
      exact ⟨Option.map_eq_some_iff.mpr ⟨_, hactions, rfl⟩, (hcasts _).mpr hnot⟩
  · constructor
    · rintro ⟨h, -⟩
      cases h
    · rintro ⟨-, hroom, -⟩
      exact absurd hroom ‹_›

end Registration

namespace OverloadTable

variable {rs : List Registration} {r : Registration} {args : List ArgSig} {templates : List Ty}

/-- A call with arguments of exactly the types of a function goes to the function, however many
others take it with casts, as long as no other one takes it without. Otherwise it is ambiguous
between the functions that take it without a cast. -/
theorem resolve_exact (m : Matcher) (name : String)
    (ht : ∀ t ∈ templates, t.constNamed = true) (ha : ∀ a ∈ args, a.Plain)
    (hvalue : ∀ r ∈ rs, r.ByValue) (hd : (rs.map Registration.text).Nodup) (hr : r ∈ rs)
    (hexact : r.IsExact args templates) :
    ∃ t, registered name rs = .ok t ∧
      ((∀ r' ∈ rs, r'.TakesAsIs m args templates → r' = r) →
        (t.resolve m name args templates).map Prod.fst =
          .ok (some ⟨r.id, r.type, args.map fun _ => .copy⟩)) ∧
      (∀ r' ∈ rs, r'.TakesAsIs m args templates → r' ≠ r →
        ∃ l : List Registration, l.Sublist rs ∧
          (∀ x, x ∈ l ↔ x ∈ rs ∧ x.TakesAsIs m args templates) ∧
          (t.resolve m name args templates).map Prod.fst =
            .error (.ambiguous name (l.map Registration.text))) := by
  obtain ⟨t, htable, hasked, hall⟩ := exists_registered name hd
  have hres := resolution_of_unasked (m := m) hasked args templates
  rw [hall] at hres
  have htakes {x : Registration} (hx : x ∈ rs) :
      (∃ f, x.overload.match? m (.ofCall args) (templates.map .ofType) = some f ∧ f.casts = 0) ↔
        x.TakesAsIs m args templates := by
    simp only [Registration.match?_asIs_iff ht ha (hvalue x hx), exists_eq_left]
  obtain ⟨hfound, hcasts⟩ :=
    (Registration.match?_asIs_iff ht ha (hvalue r hr)).mpr ⟨rfl, hexact.takesAsIs (m := m)⟩
  obtain ⟨l, hl, htied, hmem⟩ := exists_sublist_tied hr hfound hcasts
  have hmem (x : Registration) : x ∈ l ↔ x ∈ rs ∧ x.TakesAsIs m args templates :=
    (hmem x).trans (and_congr_right htakes)
  refine ⟨t, htable, fun hother => ?_, fun r' hr' htakes' hne => ?_⟩
  · have hone : l = [r] := by
      refine List.perm_singleton.mp ((List.perm_ext_iff_of_nodup (hd.of_map.sublist hl)
        (List.nodup_singleton r)).mpr fun x => ?_)
      rw [hmem, List.mem_singleton]
      constructor
      · rintro ⟨hx, hx'⟩
        exact hother x hx hx'
      · rintro rfl
        exact ⟨hr, hexact.takesAsIs⟩
    rw [hone] at htied
    exact hres.unique (.only htied hfound)
  · refine ⟨l, hl, hmem, ?_⟩
    have hr : r ∈ l := (hmem r).mpr ⟨hr, hexact.takesAsIs⟩
    have hr' : r' ∈ l := (hmem r').mpr ⟨hr', htakes'⟩
    have hseveral : 2 ≤ l.length := by
      by_contra hlt
      obtain ⟨x, rfl⟩ := List.length_eq_one_iff.mp
        (Nat.le_antisymm (Nat.not_lt.mp hlt) (List.length_pos_of_mem hr))
      exact hne ((List.mem_singleton.mp hr').trans (List.mem_singleton.mp hr).symm)
    have hfault : Resolution m (.ofCall args) (templates.map .ofType)
        (rs.map Registration.overload) name _ := .several (by rwa [htied, List.length_map])
    rw [htied, List.map_map] at hfault
    exact hres.unique hfault

/-- A call with an `int` goes to the function of `int`, the one of `double` would need a cast. -/
theorem resolve_exact_int :
    let f : Registration := ⟨⟨.void, [.plain .int], false⟩, 0, 0⟩
    let g : Registration := ⟨⟨.void, [.plain (.arith .double)], false⟩, 1, 0⟩
    ((∀ a ∈ [ArgSig.rvalue .int], a.Plain) ∧ (∀ r ∈ [f, g], r.ByValue) ∧
      ([f, g].map Registration.text).Nodup ∧ f.IsExact [.rvalue .int] []) ∧
      ∃ t, registered "f" [f, g] = .ok t ∧
        (t.resolve ⟨.function, {}⟩ "f" [.rvalue .int] []).map Prod.fst =
          .ok (some ⟨0, f.type, [.copy]⟩) := by
  intro f g
  have ha : ∀ a ∈ [ArgSig.rvalue .int], a.Plain := by
    rintro a h
    obtain rfl := List.mem_singleton.mp h
    exact ⟨rfl, nofun⟩
  have hvalue : ∀ r ∈ [f, g], r.ByValue := by
    unfold Registration.ByValue
    decide
  have hd : ([f, g].map Registration.text).Nodup := by decide +kernel
  have hexact : f.IsExact [.rvalue .int] [] := ⟨Nat.le_refl 0, .cons rfl .nil⟩
  obtain ⟨t, ht, hfound, -⟩ :=
    resolve_exact ⟨.function, {}⟩ "f" (List.forall_mem_nil _) ha hvalue hd List.mem_cons_self hexact
  refine ⟨⟨ha, hvalue, hd, hexact⟩, t, ht, hfound fun r' hr' htakes => ?_⟩
  obtain rfl | rfl : r' = f ∨ r' = g := by simpa using hr'
  · rfl
  · obtain ⟨-, hpass⟩ := htakes
    cases hpass with
    | cons hpass _ =>
      rcases hpass with h | ⟨h, h', hp⟩ | ⟨h, -⟩
      · cases h
      · cases h
        cases h'
        cases hp
      · cases h

/-- A promotion ranks like the type itself: a call with a `char` is ambiguous between functions of
`int` and of `char`. -/
theorem promotion_ties_exact :
    ¬ ∀ (m : Matcher) (name : String) (rs : List Registration) (args : List ArgSig)
        (r : Registration), (rs.map Registration.text).Nodup → (∀ r ∈ rs, r.ByValue) → r ∈ rs →
      r.IsExact args [] → (∀ r' ∈ rs, r'.IsExact args [] → r' = r) →
      ∃ t f, registered name rs = .ok t ∧
        (t.resolve m name args []).map Prod.fst = .ok (some f) ∧ f.id = r.id := by
  intro h
  let f : Registration := ⟨⟨.void, [.plain .int], false⟩, 0, 0⟩
  let g : Registration := ⟨⟨.void, [.plain .char], false⟩, 1, 0⟩
  obtain ⟨t, found, ht, hfound, -⟩ := h ⟨.function, {}⟩ "f" [f, g] [.rvalue .char] g
    (by decide +kernel) (by unfold Registration.ByValue; decide) (by simp)
    ⟨Nat.le_refl 0, .cons rfl .nil⟩ (by
      intro r' hr' hexact
      obtain rfl | rfl : r' = f ∨ r' = g := by simpa using hr'
      · obtain ⟨-, hsame⟩ := hexact
        cases hsame with
        | cons hsame _ => cases hsame
      · rfl)
  have hambiguous : ((registered "f" [f, g]).bind fun t =>
      (t.resolve ⟨.function, {}⟩ "f" [.rvalue .char] []).map Prod.fst).isOk = false := by
    decide +kernel
  rw [ht] at hambiguous
  have hok : ((t.resolve ⟨.function, {}⟩ "f" [.rvalue .char] []).map Prod.fst).isOk = false :=
    hambiguous
  rw [hfound] at hok
  cases hok

end OverloadTable

end Stepwise
