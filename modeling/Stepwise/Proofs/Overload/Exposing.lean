import Stepwise.Proofs.Binding.Parameters
import Stepwise.Proofs.Overload.Registry

/-! # Exposed functions

A function is exposed if its name stands for it and for no other one. A call that its parameters accept
then goes to it. A library exposes all its functions, and they stay so when functions of other names
are defined and called.
-/

namespace Stepwise

namespace State

variable {s t u : State} {e : FunctionEntry} {name : String}

/-- Nothing global has the name, and no function is filed under it. -/
structure Lacks (s : State) (name : String) : Prop where
  unbound : s.scopes.global.get? name = none
  unfiled : (s.tables.table .global).set? name = none

/-- The global name of the function stands for it, and no other function is filed under the name. -/
structure Exposes (s : State) (e : FunctionEntry) : Prop where
  named : ∃ p v, s.scopes.global.get? e.name = some p ∧ s.heap.load? p = some v ∧
    v.ty = .function e.type ∧ v.data = .function ⟨e.name, .global, none⟩
  filed : ∃ id, s.functions[id]? = some e ∧
    (s.tables.table .global).set? e.name = some ⟨[⟨.ofFunction e.type, id, 0, e.type⟩], []⟩

/-- The second state comes from the first one by defining functions. -/
structure Defines (s t : State) (es : List FunctionEntry) : Prop where
  rest : t = { s with
    heap := t.heap, scopes := { s.scopes with global := t.scopes.global }
    namespaces := t.namespaces, tables := t.tables, functions := t.functions }
  exposes : ∀ e ∈ es, t.Exposes e
  keeps : ∀ e, e.name ∉ es.map FunctionEntry.name → s.Exposes e → t.Exposes e
  lacks : ∀ name ∉ es.map FunctionEntry.name, s.Lacks name → t.Lacks name

/-- The state after a function was defined. -/
def withFunction (s : State) (e : FunctionEntry) : State :=
  { s with
    heap := (s.heap.alloc #[RunM.functionValue e.name e.type]).2
    scopes := s.scopes.defineGlobal e.name (.slot s.heap.blocks.size)
    tables := s.tables.put .global ((s.tables.table .global).put e.name
      ⟨[⟨.ofFunction e.type, s.functions.size, 0, e.type⟩], []⟩)
    functions := s.functions.push e }

theorem Lacks.get?_withFunction (h : s.Lacks e.name) (name : String) :
    (s.withFunction e).scopes.global.get? name =
      (s.scopes.global.get? name).or
        (if name == e.name then some (.slot s.heap.blocks.size) else none) := by
  have hnone : s.scopes.global.contains e.name = false := by rw [Scope.contains, h.unbound]; rfl
  simp only [withFunction, Scopes.defineGlobal, hnone, Bool.false_eq_true, if_false, Scope.get?,
    Scope.add, List.lookup_append, List.lookup_cons, List.lookup_nil]
  cases name == e.name <;> rfl

theorem set?_withFunction (name : String) :
    ((s.withFunction e).tables.table .global).set? name =
      if name == e.name then some ⟨[⟨.ofFunction e.type, s.functions.size, 0, e.type⟩], []⟩
      else (s.tables.table .global).set? name := by
  rw [withFunction, OwnerTables.table_put]
  exact OverloadTable.set?_put _ _ _ _

/-- A function whose name was free is exposed, and others stay so. -/
theorem Lacks.defines_withFunction (h : s.Lacks e.name) : s.Defines (s.withFunction e) [e] where
  rest := by
    simp only [withFunction, Scopes.defineGlobal]
    split <;> rfl
  exposes := by
    rintro _ (_ | ⟨_, ⟨⟩⟩)
    constructor
    · refine ⟨_, _, ?_, RunM.load?_new_slot _ _, rfl, rfl⟩
      rw [h.get?_withFunction, h.unbound, beq_self_eq_true]
      rfl
    · refine ⟨s.functions.size, Array.getElem?_push_size, ?_⟩
      rw [set?_withFunction, beq_self_eq_true, if_pos rfl]
  keeps e' hne he := by
    have hne : (e'.name == e.name) = false := beq_false_of_ne (by simpa using hne)
    obtain ⟨p, v, hp, hv, hty, hdata⟩ := he.named
    obtain ⟨id, hid, hset⟩ := he.filed
    constructor
    · refine ⟨p, v, ?_, Heap.load?_alloc hv _, hty, hdata⟩
      rw [h.get?_withFunction, hp]
      rfl
    · refine ⟨id, ?_, ?_⟩
      · obtain ⟨hlt, -⟩ := Array.getElem?_eq_some_iff.mp hid
        rw [withFunction, Array.getElem?_push, if_neg (Nat.ne_of_lt hlt), hid]
      · rw [set?_withFunction, hne, if_neg Bool.false_ne_true, hset]
  lacks name hne hl := by
    have hne : (name == e.name) = false := beq_false_of_ne (by simpa using hne)
    constructor
    · rw [h.get?_withFunction, hl.unbound, hne]
      rfl
    · rw [set?_withFunction, hne, if_neg Bool.false_ne_true, hl.unfiled]

namespace Defines

variable {es es' : List FunctionEntry}

theorem inner (h : s.Defines t es) : t.scopes.inner = s.scopes.inner := by rw [h.rest]

theorem structs (h : s.Defines t es) : t.structs = s.structs := by rw [h.rest]

theorem typedefs (h : s.Defines t es) : t.typedefs = s.typedefs := by rw [h.rest]

theorem console (h : s.Defines t es) : t.console = s.console := by rw [h.rest]

theorem refl (s : State) : s.Defines s [] where
  rest := rfl
  exposes := nofun
  keeps _ _ h := h
  lacks _ _ h := h

theorem trans (hs : s.Defines t es) (ht : t.Defines u es')
    (hdisjoint : ∀ e ∈ es, e.name ∉ es'.map FunctionEntry.name) : s.Defines u (es ++ es') where
  rest := by rw [ht.rest, hs.rest]
  exposes e he := by
    rcases List.mem_append.mp he with he | he
    · exact ht.keeps e (hdisjoint e he) (hs.exposes e he)
    · exact ht.exposes e he
  keeps e hne he := by
    rw [List.map_append, List.mem_append, not_or] at hne
    exact ht.keeps e hne.2 (hs.keeps e hne.1 he)
  lacks name hne hl := by
    rw [List.map_append, List.mem_append, not_or] at hne
    exact ht.lacks name hne.2 (hs.lacks name hne.1 hl)

end Defines

end State

namespace RunM

variable {c : Config} {s t : State} {e : FunctionEntry}

/-- A function whose name is free is registered under it. -/
theorem define_withFunction (howner : e.owner = .global) (h : s.Lacks e.name) :
    (do register e; defineFunctionName e.name e.type) c s = .ok () (s.withFunction e) := by
  have hset : (s.tables.table e.owner).set? e.name = none := by rw [howner, h.unfiled]
  have hnone : (s.tables.table e.owner).declared? e.name e.type = none := by
    rw [OverloadTable.declared?, hset]
    rfl
  have hadd : (s.tables.table e.owner).add e.name e.type s.functions.size 0 =
      .ok ((s.tables.table e.owner).put e.name
        ⟨[⟨.ofFunction e.type, s.functions.size, 0, e.type⟩], []⟩) := by
    have hoverloads : (s.tables.table e.owner).overloads e.name = [] := by
      rw [OverloadTable.overloads, hset]
      rfl
    rw [OverloadTable.add_eq, hoverloads, if_pos (List.forall_mem_nil _)]
    rfl
  have hregister : register e c s = .ok ()
      { s with
        tables := s.tables.put .global ((s.tables.table .global).put e.name
          ⟨[⟨.ofFunction e.type, s.functions.size, 0, e.type⟩], []⟩)
        functions := s.functions.push e } := by
    rw [register_eq, hnone, registerAs, hadd, howner]
    rfl
  rw [bind_ok hregister]
  rfl

end RunM

/-- The entry of a function of the library. -/
def StdioFunction.entry (f : StdioFunction) : FunctionEntry :=
  ⟨f.name, .global, f.type, f.type.params.map fun _ => ⟨none, none⟩, .library f⟩

/-- The state with what the library declares besides its functions. -/
def State.withStdio (s : State) : State :=
  { s with
    loaded := .stdio :: s.loaded
    structs := (StdioFunction.file.name, StdioFunction.file) ::
      s.structs.filter fun (name, _) => name != StdioFunction.file.name
    typedefs := ("size_t", .arith .unsignedLong) ::
      s.typedefs.filter fun (name, _) => name != "size_t" }

theorem StdioFunction.name_injective {f g : StdioFunction} (h : f.name = g.name) : f = g := by
  cases f <;> cases g <;> first | rfl | exact absurd h (by decide)

namespace RunM

variable {c : Config} {s t : State}

theorem defineLibraryFunction_ok {f : StdioFunction} (h : s.Lacks f.name) :
    ∃ t, defineLibraryFunction f c s = .ok () t ∧ s.Defines t [f.entry] := by
  have hdefines := State.Lacks.defines_withFunction (e := f.entry) h
  obtain ⟨p, -, hp, -⟩ := (hdefines.exposes f.entry (.head _)).named
  let u := s.withFunction f.entry
  refine ⟨{ u with namespaces := u.namespaces.bind "std" f.name p }, ?_, ?_⟩
  · have hfunction := define_withFunction (c := c) (e := f.entry) rfl h
    obtain ⟨_, v, hregister, hname⟩ := bind_eq_ok hfunction
    have hp : u.scopes.global.get? f.name = some p := hp
    rw [defineLibraryFunction]
    refine (bind_ok hregister).trans ((bind_ok hname).trans ?_)
    rw [bind_ok (x := get) (a := u) (t := u) rfl, hp]
    rfl
  · have hrest := hdefines.rest
    exact
      { rest := congrArg
          (fun v : State => { v with namespaces := u.namespaces.bind "std" f.name p }) hrest
        exposes := fun e he => ⟨(hdefines.exposes e he).named, (hdefines.exposes e he).filed⟩
        keeps := fun e hne he => ⟨(hdefines.keeps e hne he).named, (hdefines.keeps e hne he).filed⟩
        lacks := fun n hne hl =>
          ⟨(hdefines.lacks n hne hl).unbound, (hdefines.lacks n hne hl).unfiled⟩ }

/-- Functions with names of their own are all defined. -/
theorem forM_defineLibraryFunction (fs : List StdioFunction) (hfs : fs.Nodup)
    (h : ∀ f ∈ fs, s.Lacks f.name) :
    ∃ t, fs.forM defineLibraryFunction c s = .ok () t ∧ s.Defines t (fs.map StdioFunction.entry) := by
  induction fs generalizing s with
  | nil => exact ⟨s, rfl, .refl s⟩
  | cons f fs ih =>
    obtain ⟨hf, hfs⟩ := List.nodup_cons.mp hfs
    obtain ⟨hlacks, hrest⟩ := List.forall_mem_cons.mp h
    have hother {g : StdioFunction} (hg : g ∈ fs) : g.name ≠ f.name := by
      rintro hname
      exact hf (StdioFunction.name_injective hname ▸ hg)
    obtain ⟨t, ht, hdefines⟩ := defineLibraryFunction_ok (c := c) hlacks
    have hremain (g : StdioFunction) (hg : g ∈ fs) : t.Lacks g.name :=
      hdefines.lacks _ (by simpa [StdioFunction.entry] using hother hg) (hrest g hg)
    obtain ⟨u, hu, hdefines'⟩ := ih hfs hremain
    refine ⟨u, (bind_ok ht).trans hu, hdefines.trans hdefines' ?_⟩
    rintro _ (_ | ⟨_, ⟨⟩⟩) hm
    simp only [List.map_map, List.mem_map, Function.comp] at hm
    obtain ⟨g, hg, hname⟩ := hm
    exact hother hg hname

/-- Loading the library exposes all its functions. -/
theorem loadLibrary_stdio (name : String) (hlibrary : c.library? name = some .stdio)
    (hloaded : s.loaded.contains .stdio = false) (h : ∀ f : StdioFunction, s.Lacks f.name) :
    ∃ t, loadLibrary name c s = .ok () t ∧
      s.withStdio.Defines t (StdioFunction.all.map StdioFunction.entry) := by
  let u : State := { s.withStdio with typedefs := s.typedefs }
  obtain ⟨t, ht, hdefines⟩ := forM_defineLibraryFunction (c := c) (s := u) StdioFunction.all
    (by decide) fun f _ => ⟨(h f).unbound, (h f).unfiled⟩
  refine ⟨{ t with typedefs := s.withStdio.typedefs }, ?_, ?_⟩
  · rw [loadLibrary]
    refine (bind_ok (x := read) (a := c) (t := s) rfl).trans ?_
    simp only [hlibrary]
    refine (bind_ok (x := get) (a := s) (t := s) rfl).trans ?_
    simp only [hloaded, Bool.false_eq_true, if_false]
    refine (bind_ok (a := ()) (t := { s with loaded := .stdio :: s.loaded }) rfl).trans ?_
    refine (bind_ok (a := ()) (t := u) rfl).trans ((bind_ok ht).trans ?_)
    rw [hdefines.rest]
    rfl
  · exact
      { rest := by rw [hdefines.rest]
        exposes := fun e he => ⟨(hdefines.exposes e he).named, (hdefines.exposes e he).filed⟩
        keeps := fun e hne he =>
          have he := hdefines.keeps e hne ⟨he.named, he.filed⟩
          ⟨he.named, he.filed⟩
        lacks := fun n hne hl =>
          have hl := hdefines.lacks n hne ⟨hl.unbound, hl.unfiled⟩
          ⟨hl.unbound, hl.unfiled⟩ }

variable {e : FunctionEntry} {f : Value} {args : List Value} {actions : List ArgAction}

/-- The name of an exposed function stands for it where no local name hides it. -/
theorem value?_of_exposes (h : s.Exposes e)
    (hlocal : ∀ scope ∈ Scopes.frameScopes s.scopes.inner, scope.get? e.name = none) :
    ∃ v, s.value? e.name = some v ∧ v.ty = .function e.type ∧
      v.data = .function ⟨e.name, .global, none⟩ := by
  obtain ⟨p, v, hp, hv, hty, hdata⟩ := h.named
  refine ⟨v, ?_, hty, hdata⟩
  have hnone : (Scopes.frameScopes s.scopes.inner).findSome? (fun scope => scope.get? e.name) =
      none := List.findSome?_eq_none_iff.mpr hlocal
  have hlookup : s.lookup e.name = some p := by
    rw [State.lookup, Scopes.lookup, Scopes.visible, List.findSome?_append, hnone, Option.none_or,
      List.findSome?_cons, hp]
    rfl
  rw [State.value?, hlookup]
  exact hv

/-- A call that the parameters of an exposed function accept goes to it. The answer is remembered, and
functions of other names stay exposed. -/
theorem call_of_exposes (h : s.Exposes e) (hty : f.ty = .function e.type)
    (hdata : f.data = .function ⟨e.name, .global, none⟩)
    (hmatch : c.numerics.matcher.matchFunction (.ofCall (args.map Value.argument))
      (.ofFunction e.type) [] = some actions) :
    ∃ id tables, s.functions[id]? = some e ∧
      (∀ e' : FunctionEntry, e'.name ≠ e.name → s.Exposes e' → { s with tables }.Exposes e') ∧
      call f args c s =
        invoke ⟨⟨e.name, .global, none⟩, ⟨id, e.type, actions⟩⟩ args c { s with tables } := by
  obtain ⟨id, hid, hset⟩ := h.filed
  let signature : Signature := .ofCall (args.map Value.argument)
  let found : FunctionMatch := ⟨id, e.type, actions⟩
  let answered : OverloadSet := ⟨[⟨.ofFunction e.type, id, 0, e.type⟩],
    [(OverloadSet.callText signature [], some found)]⟩
  let table := (s.tables.table .global).put e.name answered
  have hresolve : (s.tables.table .global).resolve c.numerics.matcher e.name
      (args.map Value.argument) [] = .ok (some found, table) := by
    simp only [OverloadTable.resolve, hset, OverloadSet.resolve, OverloadSet.resolveFresh,
      OverloadSet.candidates, OverloadSet.cheapest, List.map_nil, List.length_nil, Nat.le_refl,
      decide_true, List.filter_cons_of_pos, List.filter_nil, List.filterMap_cons, hmatch,
      Option.map_some, List.filterMap_nil, List.all_cons, List.all_nil, Bool.and_true,
      List.lookup_nil]
    rfl
  refine ⟨id, s.tables.put .global table, hid, ?_, ?_⟩
  · intro e' hne he
    have hne : (e'.name == e.name) = false := beq_false_of_ne hne
    obtain ⟨id', hid', hset'⟩ := he.filed
    refine ⟨he.named, id', hid', ?_⟩
    rw [OwnerTables.table_put, if_pos (by rfl), OverloadTable.set?_put, hne,
      if_neg Bool.false_ne_true, hset']
  · have htarget : CallTarget.resolve ⟨c.numerics, s.tables, s.cursor⟩ s.heap f
        (args.map Value.argument) [] =
          .ok (⟨⟨e.name, .global, none⟩, found⟩, s.tables.put .global table) := by
      simp only [CallTarget.resolve, hty, hdata, CallTarget.ofFunction, hresolve]
    rw [call]
    refine (bind_ok (x := read) (a := c) (t := s) rfl).trans ?_
    refine (bind_ok (x := get) (a := s) (t := s) rfl).trans ?_
    simp only [htarget]
    rfl

end RunM

end Stepwise
