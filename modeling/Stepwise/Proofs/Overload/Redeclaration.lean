import Stepwise.Machine.Functions
import Stepwise.Proofs.Overload.Answers
import Stepwise.Proofs.Overload.Parameters
import Mathlib.Data.List.Pairwise

/-! # Redeclarations

Two functions of one name are taken for the same one by the texts of their signatures. As
long as these tell their parameters, that is the case exactly when the parameter lists are
the same, and functions with different parameters are overloads side by side.
-/

namespace Stepwise

namespace Signature

/-- The signature of a declared function tells its parameters. -/
structure Exact (doubled : Bool) (f : FunctionTy) : Prop where
  legible : Ty.legibleParams doubled f.params = true
  flat : Ty.flatParams f.params = true

theorem text_eq_iff {doubled : Bool} {f g : FunctionTy} (hf : Exact doubled f)
    (hg : Exact doubled g) : (ofFunction f).text = (ofFunction g).text ↔ SameParams f g :=
  ⟨fun h => (ofFunction_eq_iff hf.flat hg.flat).mp (ofFunction_eq_of_text hf.legible hg.legible h),
    fun h => congrArg text ((ofFunction_eq_iff hf.flat hg.flat).mpr h)⟩

end Signature

theorem SameParams.symm {f g : FunctionTy} (h : SameParams f g) : SameParams g f :=
  ⟨h.1.symm, h.2.symm⟩

theorem SameParams.trans {f g h : FunctionTy} (hfg : SameParams f g) (hgh : SameParams g h) :
    SameParams f h :=
  ⟨hfg.1.trans hgh.1, hfg.2.trans hgh.2⟩

/-- The functions of a request have signatures that tell their parameters, and its calls are
legible. -/
def TableRequest.Exact (doubled : Bool) : TableRequest → Prop
  | add _ type _ _ => Signature.Exact doubled type
  | resolve _ q => q.Legible doubled

theorem TableRequest.Exact.legible {doubled : Bool} {r : TableRequest} (h : r.Exact doubled) :
    r.Legible doubled := by
  cases r with
  | add => trivial
  | resolve => exact h

/-- The overloads of one name after requests: they have the signatures of their types and come
from the requests, which all have their parameters among them, and no two of them are the same. -/
structure KeptApart (doubled : Bool) (rs : List TableRequest) (name : String)
    (os : List Overload) : Prop where
  signature : ∀ o ∈ os, o.signature = .ofFunction o.type
  exact : ∀ o ∈ os, Signature.Exact doubled o.type
  requested : ∀ o ∈ os, .add name o.type o.id o.templateSlots ∈ rs
  kept : ∀ type id slots, .add name type id slots ∈ rs → ∃ o ∈ os, SameParams o.type type
  apart : os.Pairwise fun o p => ¬ SameParams o.type p.type

namespace KeptApart

variable {doubled : Bool} {rs : List TableRequest} {name : String} {os : List Overload}
  {f : FunctionTy}

theorem text_eq_iff (h : KeptApart doubled rs name os) (hf : Signature.Exact doubled f)
    {o : Overload} (ho : o ∈ os) :
    o.signature.text = (Signature.ofFunction f).text ↔ SameParams o.type f := by
  rw [h.signature o ho, Signature.text_eq_iff (h.exact o ho) hf]

theorem text_ne_iff (h : KeptApart doubled rs name os) (hf : Signature.Exact doubled f) :
    (∀ o ∈ os, o.signature.text ≠ (Signature.ofFunction f).text) ↔
      ∀ o ∈ os, ¬ SameParams o.type f :=
  forall₂_congr fun _ ho => not_congr (h.text_eq_iff hf ho)

theorem nil : KeptApart doubled [] name [] := by
  constructor <;> simp

/-- A request whose parameters are among those of the overloads leaves them as they are. -/
theorem skip (h : KeptApart doubled rs name os) {r : TableRequest}
    (hr : ∀ type id slots, r = .add name type id slots → ∃ o ∈ os, SameParams o.type type) :
    KeptApart doubled (rs ++ [r]) name os where
  signature := h.signature
  exact := h.exact
  requested o ho := List.mem_append_left _ (h.requested o ho)
  kept type id slots hm := by
    rcases List.mem_append.mp hm with hm | hm
    · exact h.kept type id slots hm
    · exact hr type id slots (List.mem_singleton.mp hm).symm
  apart := h.apart

/-- A function with other parameters than the overloads has is one more of them. -/
theorem push (h : KeptApart doubled rs name os) (hf : Signature.Exact doubled f) {id slots : Nat}
    (hnew : ∀ o ∈ os, ¬ SameParams o.type f) :
    KeptApart doubled (rs ++ [.add name f id slots]) name
      (os ++ [⟨.ofFunction f, id, slots, f⟩]) where
  signature := List.forall_mem_append.mpr ⟨h.signature, List.forall_mem_singleton.mpr rfl⟩
  exact := List.forall_mem_append.mpr ⟨h.exact, List.forall_mem_singleton.mpr hf⟩
  requested := List.forall_mem_append.mpr
    ⟨fun o ho => List.mem_append_left _ (h.requested o ho), by simp⟩
  kept type id' slots' hm := by
    rcases List.mem_append.mp hm with hm | hm
    · obtain ⟨o, ho, hsame⟩ := h.kept type id' slots' hm
      exact ⟨o, List.mem_append_left _ ho, hsame⟩
    · cases List.mem_singleton.mp hm
      exact ⟨_, List.mem_append_right _ (List.mem_singleton_self _), rfl, rfl⟩
  apart := List.pairwise_append.mpr
    ⟨h.apart, List.pairwise_singleton _ _, fun o ho _ hp =>
      List.mem_singleton.mp hp ▸ hnew o ho⟩

/-- A further request keeps the overloads apart. -/
theorem declare {os : String → List Overload} (h : KeptApart doubled rs name (os name))
    {r : TableRequest} (hr : r.Exact doubled) :
    KeptApart doubled (rs ++ [r]) name (TableRequest.declare os r name) := by
  cases r with
  | resolve => exact h.skip nofun
  | add other type id slots =>
    rw [TableRequest.declare]
    split
    · rename_i hnew
      obtain ⟨rfl, hnew⟩ := hnew
      exact h.push hr ((h.text_ne_iff hr).mp hnew)
    · rename_i hold
      refine h.skip fun type' id' slots' hadd => ?_
      cases hadd
      rw [eq_self, true_and, h.text_ne_iff hr] at hold
      simpa using hold

theorem declared (hrs : ∀ r ∈ rs, r.Exact doubled) (name : String) :
    KeptApart doubled rs name (TableRequest.declared rs name) := by
  induction rs using List.reverseRecOn with
  | nil => exact nil
  | append_singleton rs r ih =>
    simp only [List.forall_mem_append, List.forall_mem_singleton] at hrs
    simp only [TableRequest.declared, List.foldl_append, List.foldl_cons, List.foldl_nil]
    exact (ih hrs.1).declare hrs.2

theorem eq_of_same (h : KeptApart doubled rs name os) {o p : Overload} (ho : o ∈ os) (hp : p ∈ os)
    (hof : SameParams o.type f) (hpf : SameParams p.type f) : o = p := by
  by_contra hne
  have : Std.Symm fun o p : Overload => ¬ SameParams o.type p.type := ⟨fun _ _ h hs => h hs.symm⟩
  exact h.apart.forall ho hp hne (hof.trans hpf.symm)

/-- Looking for the signature of a function finds the overload with its parameters. -/
theorem find?_eq_some_iff (h : KeptApart doubled rs name os) (hf : Signature.Exact doubled f)
    {o : Overload} :
    (os.find? fun o => o.signature.text == (Signature.ofFunction f).text) = some o ↔
      o ∈ os ∧ SameParams o.type f := by
  constructor
  · intro hfind
    have ho := List.mem_of_find?_eq_some hfind
    exact ⟨ho, (h.text_eq_iff hf ho).mp (by simpa using List.find?_some hfind)⟩
  · rintro ⟨ho, hsame⟩
    have hsome : (os.find? fun o => o.signature.text == (Signature.ofFunction f).text).isSome :=
      List.find?_isSome.mpr ⟨o, ho, by simpa using (h.text_eq_iff hf ho).mpr hsame⟩
    obtain ⟨p, hfind⟩ := Option.isSome_iff_exists.mp hsome
    have hp := List.mem_of_find?_eq_some hfind
    have hpf := (h.text_eq_iff hf hp).mp (by simpa using List.find?_some hfind)
    rw [hfind, h.eq_of_same hp ho hpf hsame]

end KeptApart

namespace OverloadTable

variable {doubled : Bool} {m : Matcher} {rs : List TableRequest} {name : String} {f : FunctionTy}
  {t : OverloadTable}

theorem declared?_eq (t : OverloadTable) (name : String) (f : FunctionTy) :
    t.declared? name f = ((t.overloads name).find? fun o =>
      o.signature.text == (Signature.ofFunction f).text).map Overload.id := by
  unfold declared? overloads
  cases t.set? name <;> rfl

/-- A table takes a function for the overload with the same parameters, and for a new one if there
is none. -/
structure Identifies (t : OverloadTable) (name : String) (f : FunctionTy) : Prop where
  declared?_iff : ∀ id, t.declared? name f = some id ↔
    ∃ o ∈ t.overloads name, SameParams o.type f ∧ o.id = id
  refused : ∀ id slots, (∃ o ∈ t.overloads name, SameParams o.type f) →
    t.add name f id slots = .error (.redeclared name)
  added : ∀ id slots, (∀ o ∈ t.overloads name, ¬ SameParams o.type f) →
    ∃ u, t.add name f id slots = .ok u ∧
      u.overloads name = t.overloads name ++ [⟨.ofFunction f, id, slots, f⟩]

theorem identifies (h : KeptApart doubled rs name (t.overloads name))
    (hf : Signature.Exact doubled f) : t.Identifies name f where
  declared?_iff id := by
    rw [declared?_eq, Option.map_eq_some_iff]
    simp only [h.find?_eq_some_iff hf, and_assoc]
  refused id slots hsame := by
    rw [add_eq, if_neg]
    rw [h.text_ne_iff hf]
    simpa using hsame
  added id slots hnew := by
    rw [add_eq, if_pos ((h.text_ne_iff hf).mpr hnew)]
    refine ⟨_, rfl, ?_⟩
    simp only [overloads_put, beq_self_eq_true, if_true]

end OverloadTable

namespace RunM

variable {name : String} {f : FunctionTy} {t : OverloadTable}

/-- Registering a function completes the overload with the same parameters, and files the function
as a new one if there is none. -/
structure Pairs (entry : FunctionEntry) (config : Config) (s : State) : Prop where
  completes : ∀ o ∈ (s.tables.table entry.owner).overloads entry.name,
    SameParams o.type entry.type → register entry config s = complete o.id entry config s
  files : (∀ o ∈ (s.tables.table entry.owner).overloads entry.name,
      ¬ SameParams o.type entry.type) →
    ∃ table, (s.tables.table entry.owner).add entry.name entry.type s.functions.size 0 =
        .ok table ∧
      register entry config s = .ok ()
        { s with tables := s.tables.put entry.owner table, functions := s.functions.push entry }

/-- The step of registering a function once its overload has been looked for. -/
def registerAs (entry : FunctionEntry) (s : State) : Option Nat → RunM Unit
  | some id => complete id entry
  | none =>
    match (s.tables.table entry.owner).add entry.name entry.type s.functions.size 0 with
    | .error cause => fail (.name cause)
    | .ok table => modify fun s =>
      { s with tables := s.tables.put entry.owner table, functions := s.functions.push entry }

theorem register_eq (entry : FunctionEntry) (config : Config) (s : State) :
    register entry config s =
      registerAs entry s ((s.tables.table entry.owner).declared? entry.name entry.type)
        config s :=
  rfl

theorem pairs {entry : FunctionEntry} {s : State} (config : Config)
    (h : (s.tables.table entry.owner).Identifies entry.name entry.type) : Pairs entry config s where
  completes o ho hsame := by
    rw [register_eq, (h.declared?_iff o.id).mpr ⟨o, ho, hsame, rfl⟩, registerAs]
  files hnew := by
    have hnone : (s.tables.table entry.owner).declared? entry.name entry.type = none := by
      refine Option.eq_none_iff_forall_ne_some.mpr fun id hid => ?_
      obtain ⟨o, ho, hsame, -⟩ := (h.declared?_iff id).mp hid
      exact hnew o ho hsame
    obtain ⟨u, hadd, -⟩ := h.added s.functions.size 0 hnew
    refine ⟨u, hadd, ?_⟩
    rw [register_eq, hnone, registerAs, hadd]
    rfl

end RunM

namespace OverloadTable

variable {doubled : Bool} {m : Matcher} {rs : List TableRequest}

/-- Over every history, functions of one name are taken for the same one exactly when their
parameter lists are the same, also when a definition meets its prototype, and of functions that
differ all are kept and can be called. -/
theorem redeclared_iff_sameParams (hrs : ∀ r ∈ rs, r.Exact doubled) (name : String) :
    let t := after m rs
    KeptApart doubled rs name (t.overloads name) ∧
      (∀ f, Signature.Exact doubled f → t.Identifies name f) ∧
      (∀ entry config s, entry.name = name → Signature.Exact doubled entry.type →
        s.tables.table entry.owner = t → RunM.Pairs entry config s) ∧
      ∀ q : Query, q.Legible doubled → ∀ o f, o.match? m q.call q.templateArgs = some f →
        tied m q.call q.templateArgs (t.overloads name) = [o] →
        (t.resolve m name q.args q.templates).map Prod.fst = .ok (some f) := by
  intro t
  have hkept : KeptApart doubled rs name (t.overloads name) :=
    overloads_after (m := m) rs ▸ KeptApart.declared hrs name
  refine ⟨hkept, fun f hf => identifies hkept hf, ?_, fun q hq o f hf ho => ?_⟩
  · rintro entry config s rfl hf hs
    exact RunM.pairs config (hs ▸ identifies hkept hf)
  · have ht : t.Faithful doubled m := faithful_after fun r hr => (hrs r hr).legible
    exact (resolution_resolve ht name hq).unique (.only ho hf)

/-- An array and a pointer are the same parameter, and a `long` is another one. -/
theorem redeclared_iff_sameParams_array :
    let m : Matcher := ⟨.function, {}⟩
    let rs : List TableRequest :=
      [.add "f" ⟨.void, [.plain (.array .int 3)], false⟩ 0 0,
        .add "f" ⟨.int, [.plain (.pointer .int false)], false⟩ 1 0,
        .add "f" ⟨.void, [.plain (.arith .unsignedLong)], false⟩ 2 0]
    (∀ r ∈ rs, r.Exact true) ∧ KeptApart true rs "f" ((after m rs).overloads "f") := by
  intro m rs
  have hrs : ∀ r ∈ rs, r.Exact true := by
    simp only [rs, List.forall_mem_cons]
    exact ⟨⟨rfl, rfl⟩, ⟨rfl, rfl⟩, ⟨rfl, rfl⟩, nofun⟩
  exact ⟨hrs, (redeclared_iff_sameParams (m := m) hrs "f").1⟩

/-- A function is refused after one whose parameters differ from its own, be it that two words of
one name are taken for two names or that a pointer and its target change constness. -/
theorem refused_after_other :
    let refused (ps qs : List Ty) : Prop :=
      let f : FunctionTy := ⟨.void, ps.map .plain, false⟩
      let g : FunctionTy := ⟨.void, qs.map .plain, false⟩
      ¬ SameParams f g ∧
        (after ⟨.function, {}⟩ [.add "f" f 0 0]).add "f" g 1 0 = .error (.redeclared "f")
    refused [.arith .longLong] [.arith .long, .arith .long] ∧
      refused [.pointer (.pointer .int true) false] [.pointer (.pointer .int false) true] := by
  refine ⟨⟨fun h => ?_, ?_⟩, ⟨fun h => ?_, ?_⟩⟩
  · simp [SameParams, Ty.decayedParams] at h
  · rw [add_eq, if_neg (by decide +kernel)]
  · simp [SameParams, Ty.decayedParams, Ty.decayedParam, ParamOf.plain, Ty.decayed, Ty.int,
      Ty.pointerMarked] at h
  · rw [add_eq, if_neg (by decide +kernel)]

end OverloadTable

end Stepwise
