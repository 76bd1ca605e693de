import Stepwise.Proofs.Closure.Frames
import Stepwise.Proofs.Overload.Redeclaration
import Mathlib.Logic.Relation

/-! # The functions of a run

Functions are registered one by one, and calls leave their answers in the tables. Through
all of it the tables stay what their requests make of them, and every overload is filed
with the entry of its number.
-/

namespace Stepwise

namespace RunM

variable {config : Config} {s t : State} {id : Nat} {entry existing : FunctionEntry}

/-- The entry once a definition completes it. -/
def completed (existing entry : FunctionEntry) : FunctionEntry :=
  { existing with body := entry.body, params := entry.params }

theorem function_apply (id : Nat) (config : Config) (s : State) :
    function id config s = (match s.functions[id]? with
      | some entry => return entry
      | none => fail (.name (.unknownFunction id)) : RunM FunctionEntry) config s := rfl

theorem function_eq (h : s.functions[id]? = some existing) (config : Config) :
    function id config s = .ok existing s := by
  rw [function_apply, h]
  rfl

theorem of_function_eq_ok (h : function id config s = .ok existing t) :
    s.functions[id]? = some existing ∧ t = s := by
  cases hid : s.functions[id]? with
  | some found =>
    rw [function_eq hid] at h
    cases h
    exact ⟨rfl, rfl⟩
  | none =>
    rw [function_apply, hid] at h
    cases h

/-- A definition completes a prototype with its return type. -/
theorem complete_prototype (h : s.functions[id]? = some existing)
    (hret : (existing.type.ret == entry.type.ret) = true) (hproto : existing.body = .prototype)
    {body : Stmt} (hbody : entry.body = .defined body) (config : Config) :
    complete id entry config s =
      .ok () { s with functions := s.functions.modify id (completed · entry) } := by
  unfold complete
  rw [bind_ok (function_eq h config), hret, hproto, hbody]
  simp only [completed, hbody]
  rfl

/-- Completing leaves all entries as they are, or makes a function of a prototype. -/
theorem complete_eq_ok (h : complete id entry config s = .ok () t) :
    t = s ∨ ∃ existing, s.functions[id]? = some existing ∧ existing.body = .prototype ∧
      t = { s with functions := s.functions.modify id (completed · entry) } := by
  unfold complete at h
  obtain ⟨existing, u, hf, hrest⟩ := bind_eq_ok h
  obtain ⟨hid, rfl⟩ := of_function_eq_ok hf
  dsimp only at hrest
  cases hret : existing.type.ret == entry.type.ret with
  | false =>
    rw [hret] at hrest
    cases hrest
  | true =>
    rw [hret] at hrest
    cases hb : existing.body <;> cases hb' : entry.body <;> rw [hb, hb'] at hrest <;> cases hrest
    all_goals first
      | exact .inl rfl
      | exact .inr ⟨existing, hid, hb, by simp only [completed, hb']⟩

/-- A definition that is refused changes nothing. -/
theorem complete_eq_error {fault : Fault} (h : complete id entry config s = .error fault t) :
    t = s := by
  unfold complete at h
  obtain h | ⟨existing, u, hf, hrest⟩ := bind_eq_error h
  · rw [function_apply] at h
    cases hid : s.functions[id]? <;> rw [hid] at h <;> cases h
    rfl
  · obtain ⟨-, rfl⟩ := of_function_eq_ok hf
    dsimp only at hrest
    cases hret : existing.type.ret == entry.type.ret with
    | false =>
      rw [hret] at hrest
      cases hrest
      rfl
    | true =>
      rw [hret] at hrest
      cases hb : existing.body <;> cases hb' : entry.body <;> rw [hb, hb'] at hrest <;>
        cases hrest
      all_goals rfl

/-- A function that is registered completes an entry, or is filed under a number of its own. -/
theorem register_eq_ok (h : register entry config s = .ok () t) :
    (∃ id, complete id entry config s = .ok () t) ∨ ∃ table,
      (s.tables.table entry.owner).add entry.name entry.type s.functions.size 0 = .ok table ∧
      t = { s with
        tables := s.tables.put entry.owner table, functions := s.functions.push entry } := by
  rw [register_eq] at h
  cases hd : (s.tables.table entry.owner).declared? entry.name entry.type with
  | some id =>
    rw [hd] at h
    exact .inl ⟨id, h⟩
  | none =>
    rw [hd, registerAs] at h
    cases ha : (s.tables.table entry.owner).add entry.name entry.type s.functions.size 0 with
    | error cause =>
      rw [ha] at h
      cases h
    | ok table =>
      rw [ha] at h
      cases h
      exact .inr ⟨table, rfl, rfl⟩

theorem register_eq_error {fault : Fault} (h : register entry config s = .error fault t) :
    t = s := by
  rw [register_eq] at h
  cases hd : (s.tables.table entry.owner).declared? entry.name entry.type with
  | some id =>
    rw [hd] at h
    exact complete_eq_error h
  | none =>
    rw [hd, registerAs] at h
    cases ha : (s.tables.table entry.owner).add entry.name entry.type s.functions.size 0 with
    | error cause =>
      rw [ha] at h
      cases h
      rfl
    | ok table =>
      rw [ha] at h
      cases h

end RunM

/-- A later form of an entry: only prototypes change, and keep their types. -/
structure FunctionEntry.Continues (later entry : FunctionEntry) : Prop where
  name : later.name = entry.name
  owner : later.owner = entry.owner
  type : later.type = entry.type
  defined : entry.body ≠ .prototype → later = entry

namespace FunctionEntry.Continues

variable {e e' e'' : FunctionEntry}

theorem refl (e : FunctionEntry) : e.Continues e := ⟨rfl, rfl, rfl, fun _ => rfl⟩

theorem trans (h' : e''.Continues e') (h : e'.Continues e) : e''.Continues e where
  name := h'.name.trans h.name
  owner := h'.owner.trans h.owner
  type := h'.type.trans h.type
  defined hd := by
    obtain rfl := h.defined hd
    exact h'.defined hd

theorem completed (h : e.body = .prototype) (d : FunctionEntry) : (RunM.completed e d).Continues e :=
  ⟨rfl, rfl, rfl, fun hd => absurd h hd⟩

end FunctionEntry.Continues

namespace State

variable {doubled : Bool} {config : Config} {s t u : State}

/-- What a run may do to its functions: register one, remember the answer to a call, or anything
else that is none of their business. Types are told apart by what signatures say of them. -/
inductive Advances (doubled : Bool) (config : Config) (s : State) : State → Prop
  | register {entry : FunctionEntry} {t : State} (hexact : Signature.Exact doubled entry.type)
      (h : RunM.register entry config s = .ok () t) : Advances doubled config s t
  | call {f : FunctionRef} {args : List ArgSig} {templates : List Ty} {target : CallTarget}
      {tables : OwnerTables} (hlegible : Query.Legible doubled ⟨args, templates⟩)
      (h : CallTarget.ofFunction ⟨config.numerics, s.tables, s.cursor⟩ f args templates =
        .ok (target, tables)) : Advances doubled config s { s with tables }
  | other {t : State} (htables : t.tables = s.tables) (hfunctions : t.functions = s.functions) :
      Advances doubled config s t

/-- The tables come from requests, and every overload has an entry of its name and type. -/
structure Registered (doubled : Bool) (m : Matcher) (s : State) : Prop where
  history : ∀ owner, ∃ rs, (∀ r ∈ rs, TableRequest.Exact doubled r) ∧
    s.tables.table owner = OverloadTable.after m rs
  filed : ∀ owner name, ∀ o ∈ (s.tables.table owner).overloads name,
    ∃ e, s.functions[o.id]? = some e ∧ e.name = name ∧ e.owner = owner ∧ e.type = o.type

/-- No overload is lost, and entries change while they are prototypes at most. -/
structure Continues (t s : State) : Prop where
  overloads : ∀ owner name, ∀ o ∈ (s.tables.table owner).overloads name,
    o ∈ (t.tables.table owner).overloads name
  entry : ∀ (id : Nat) (e : FunctionEntry), s.functions[id]? = some e →
    ∃ e' : FunctionEntry, t.functions[id]? = some e' ∧ e'.Continues e

theorem Continues.refl (s : State) : s.Continues s := ⟨fun _ _ _ ho => ho, fun _ e he => ⟨e, he, .refl e⟩⟩

theorem Continues.trans (hu : u.Continues t) (ht : t.Continues s) : u.Continues s where
  overloads owner name o ho := hu.overloads owner name o (ht.overloads owner name o ho)
  entry id e he := by
    obtain ⟨e', he', h⟩ := ht.entry id e he
    obtain ⟨e'', he'', h'⟩ := hu.entry id e' he'
    exact ⟨e'', he'', h'.trans h⟩

theorem registered_start (doubled : Bool) (m : Matcher) : ({} : State).Registered doubled m where
  history _ := ⟨[], nofun, rfl⟩
  filed _ _ _ ho := nomatch ho

/-- The table of one owner serves a request. -/
structure Serves (m : Matcher) (owner : Owner) (r : TableRequest) (s t : State) : Prop where
  table : t.tables.table owner = (s.tables.table owner).serve m r
  others : ∀ other, other ≠ owner → t.tables.table other = s.tables.table other

theorem serves_of_put {m : Matcher} {owner : Owner} {r : TableRequest} {table : OverloadTable}
    (ht : t.tables = s.tables.put owner table) (h : (s.tables.table owner).serve m r = table) :
    Serves m owner r s t where
  table := by rw [ht, OwnerTables.table_put, beq_self_eq_true, if_pos rfl, h]
  others other ho := by rw [ht, OwnerTables.table_put, beq_false_of_ne ho, if_neg Bool.false_ne_true]

namespace Serves

variable {m : Matcher} {owner : Owner} {r : TableRequest}

theorem history (h : Serves m owner r s t) (hr : r.Exact doubled) (hs : s.Registered doubled m)
    (other : Owner) : ∃ rs, (∀ r ∈ rs, TableRequest.Exact doubled r) ∧
      t.tables.table other = OverloadTable.after m rs := by
  obtain ⟨rs, hrs, htable⟩ := hs.history other
  by_cases ho : other = owner
  · subst ho
    refine ⟨rs ++ [r], List.forall_mem_append.mpr ⟨hrs, List.forall_mem_singleton.mpr hr⟩, ?_⟩
    rw [h.table, htable, OverloadTable.after, OverloadTable.after, List.foldl_append]
    rfl
  · exact ⟨rs, hrs, (h.others other ho).trans htable⟩

/-- The overloads are those that were there, and what a request declares. -/
theorem overloads (h : Serves m owner r s t) (other : Owner) (name : String) :
    (t.tables.table other).overloads name =
      if other = owner then TableRequest.declare (s.tables.table owner).overloads r name
      else (s.tables.table other).overloads name := by
  by_cases ho : other = owner
  · subst ho
    rw [h.table, OverloadTable.overloads_serve, if_pos rfl]
  · rw [h.others other ho, if_neg ho]

end Serves

theorem mem_declare {os : String → List Overload} {r : TableRequest} {name : String} {o : Overload}
    (ho : o ∈ os name) : o ∈ TableRequest.declare os r name := by
  cases r with
  | resolve => exact ho
  | add other type id slots =>
    rw [TableRequest.declare]
    split
    · rename_i hn
      exact List.mem_append_left _ (hn.1 ▸ ho)
    · exact ho

/-- Serving a request in one table keeps the overloads, and answers of calls change nothing else. -/
theorem Serves.continues {m : Matcher} {owner : Owner} {r : TableRequest}
    (h : Serves m owner r s t) (hentry : ∀ (id : Nat) (e : FunctionEntry),
      s.functions[id]? = some e → t.functions[id]? = some e) : t.Continues s where
  overloads other name o ho := by
    rw [h.overloads]
    split
    · rename_i heq
      exact mem_declare (heq ▸ ho)
    · exact ho
  entry id e he := ⟨e, hentry id e he, .refl e⟩

theorem Continues.filed {m : Matcher} (h : t.Continues s) (hs : s.Registered doubled m)
    {owner : Owner} {name : String} {o : Overload}
    (ho : o ∈ (s.tables.table owner).overloads name) :
    ∃ e, t.functions[o.id]? = some e ∧ e.name = name ∧ e.owner = owner ∧ e.type = o.type := by
  obtain ⟨e, he, hname, howner, htype⟩ := hs.filed owner name o ho
  obtain ⟨e', he', hc⟩ := h.entry o.id e he
  exact ⟨e', he', hc.name.trans hname, hc.owner.trans howner, hc.type.trans htype⟩

/-- The state once an entry is completed. -/
theorem continues_completed {id : Nat} {existing d : FunctionEntry}
    (hid : s.functions[id]? = some existing) (hproto : existing.body = .prototype) :
    { s with functions := s.functions.modify id (RunM.completed · d) }.Continues s where
  overloads _ _ _ ho := ho
  entry i e he := by
    have hi : (s.functions.modify id (RunM.completed · d))[i]? =
        if id = i then s.functions[i]?.map (RunM.completed · d) else s.functions[i]? :=
      Array.getElem?_modify
    by_cases heq : id = i
    · subst heq
      rw [hid, Option.some.injEq] at he
      subst he
      refine ⟨_, hi.trans (by rw [if_pos rfl, hid, Option.map_some]), .completed hproto d⟩
    · exact ⟨e, hi.trans (by rw [if_neg heq, he]), .refl e⟩

theorem serves_register {m : Matcher} {entry : FunctionEntry} {table : OverloadTable}
    (h : (s.tables.table entry.owner).add entry.name entry.type s.functions.size 0 = .ok table) :
    Serves m entry.owner (.add entry.name entry.type s.functions.size 0) s
      { s with tables := s.tables.put entry.owner table, functions := s.functions.push entry } :=
  serves_of_put rfl (by rw [OverloadTable.serve, h]; rfl)

theorem serves_call {f : FunctionRef} {args : List ArgSig} {templates : List Ty}
    {target : CallTarget} {tables : OwnerTables}
    (h : CallTarget.ofFunction ⟨config.numerics, s.tables, s.cursor⟩ f args templates =
      .ok (target, tables)) :
    Serves config.numerics.matcher f.owner (.resolve f.name ⟨args, templates⟩) s
      { s with tables } := by
  unfold CallTarget.ofFunction at h
  dsimp only at h
  cases hr : (s.tables.table f.owner).resolve config.numerics.matcher f.name args templates with
  | error cause =>
    rw [hr] at h
    cases h
  | ok answer =>
    obtain ⟨found, table⟩ := answer
    rw [hr] at h
    cases found <;> cases h
    exact serves_of_put rfl (by rw [OverloadTable.serve, hr]; rfl)

namespace Advances

/-- One advance loses no overload and changes no function. -/
theorem continues (h : s.Advances doubled config t) : t.Continues s := by
  cases h with
  | register hexact h =>
    obtain ⟨id, hc⟩ | ⟨table, hadd, rfl⟩ := RunM.register_eq_ok h
    · obtain rfl | ⟨existing, hid, hproto, rfl⟩ := RunM.complete_eq_ok hc
      · exact .refl t
      · exact continues_completed hid hproto
    · refine (serves_register (m := config.numerics.matcher) hadd).continues fun id e he => ?_
      obtain ⟨hi, he⟩ := Array.getElem?_eq_some_iff.mp he
      rw [Array.getElem?_push_lt hi, he]
  | call hlegible h => exact (serves_call h).continues fun _ _ he => he
  | other htables hfunctions =>
    exact ⟨fun _ _ o ho => htables ▸ ho, fun _ e he => ⟨e, hfunctions ▸ he, .refl e⟩⟩

/-- One advance files what it adds. -/
theorem registered (h : s.Advances doubled config t)
    (hs : s.Registered doubled config.numerics.matcher) :
    t.Registered doubled config.numerics.matcher := by
  have hc := h.continues
  cases h with
  | register hexact h =>
    rename_i entry
    obtain ⟨id, hcomplete⟩ | ⟨table, hadd, rfl⟩ := RunM.register_eq_ok h
    · have htables : t.tables = s.tables := by
        obtain rfl | ⟨existing, -, -, rfl⟩ := RunM.complete_eq_ok hcomplete <;> rfl
      exact ⟨fun owner => htables ▸ hs.history owner,
        fun owner name o ho => hc.filed hs (htables ▸ ho)⟩
    · have hserves := serves_register (m := config.numerics.matcher) hadd
      refine ⟨hserves.history hexact hs, fun owner name o ho => ?_⟩
      rw [hserves.overloads] at ho
      split at ho
      · rename_i howner
        subst howner
        rw [TableRequest.declare] at ho
        split at ho
        · rename_i hname
          obtain ho | ho := List.mem_append.mp ho
          · exact hc.filed hs (hname.1 ▸ ho)
          · obtain rfl := List.mem_singleton.mp ho
            exact ⟨entry, Array.getElem?_push_size, hname.1.symm, rfl, rfl⟩
        · exact hc.filed hs ho
      · exact hc.filed hs ho
  | call hlegible h =>
    have hserves := serves_call h
    refine ⟨hserves.history hlegible hs, fun owner name o ho => ?_⟩
    rw [hserves.overloads] at ho
    split at ho
    · rename_i howner
      exact hc.filed hs (howner ▸ ho)
    · exact hc.filed hs ho
  | other htables hfunctions =>
    exact ⟨fun owner => htables ▸ hs.history owner,
      fun owner name o ho => hc.filed hs (htables ▸ ho)⟩

end Advances

/-- A history of advances, from one state to another. -/
def Leads (doubled : Bool) (config : Config) : State → State → Prop :=
  Relation.ReflTransGen (Advances doubled config)

namespace Leads

theorem continues (h : Leads doubled config s t) : t.Continues s := by
  induction h with
  | refl => exact .refl s
  | tail _ hstep ih => exact hstep.continues.trans ih

theorem registered (h : Leads doubled config s t)
    (hs : s.Registered doubled config.numerics.matcher) :
    t.Registered doubled config.numerics.matcher := by
  induction h with
  | refl => exact hs
  | tail _ hstep ih => exact hstep.registered ih

end Leads

namespace Registered

variable {m : Matcher}

/-- The overloads of a name are kept apart by their parameters. -/
theorem keptApart (h : s.Registered doubled m) (owner : Owner) (name : String) :
    ∃ rs, KeptApart doubled rs name ((s.tables.table owner).overloads name) := by
  obtain ⟨rs, hrs, htable⟩ := h.history owner
  refine ⟨rs, ?_⟩
  rw [htable, OverloadTable.overloads_after]
  exact KeptApart.declared hrs name

/-- The tables remember only what their overloads answer. -/
theorem faithful (h : s.Registered doubled m) (owner : Owner) :
    (s.tables.table owner).Faithful doubled m := by
  obtain ⟨rs, hrs, htable⟩ := h.history owner
  exact htable ▸ OverloadTable.faithful_after fun r hr => (hrs r hr).legible

end Registered

end State

end Stepwise
