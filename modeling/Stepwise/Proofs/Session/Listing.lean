import Mathlib.Data.List.Nodup
import Stepwise.Session.Debugger

/-! # The listing of variables

The listing goes through the scopes in view, from the inside to the outside, and passes over names
that it has met. So each name is met where lookup finds it, and what lookup finds is what the listing
shows, unless that is a function.
-/

namespace Stepwise

namespace Scopes

variable {α : Type}

/-- Where a name is looked up: the number of the first scope that has it, and its number in the order
of the declarations there. -/
def address? : List (Scope α) → String → Option (Nat × Nat)
  | [], _ => none
  | scope :: rest, name =>
    if scope.contains name then some (0, scope.entries.findIdx fun e => e.1 == name)
    else (address? rest name).map fun (i, j) => (i + 1, j)

/-- The first name is looked up in a scope further inside than the second one, or declared earlier in
the same scope. -/
def Precedes (scopes : List (Scope α)) (name name' : String) : Prop :=
  ∃ i j i' j', address? scopes name = some (i, j) ∧ address? scopes name' = some (i', j') ∧
    (i < i' ∨ i = i' ∧ j < j')

variable {name : String} {a : α} {seen : List String} {l : List (String × α)} {scope : Scope α}
  {scopes : List (Scope α)}

theorem mem_unshadowed_iff :
    (name, a) ∈ unshadowed seen l ↔ name ∉ seen ∧ l.lookup name = some a := by
  induction l generalizing seen with
  | nil => simp [unshadowed]
  | cons e rest ih =>
    obtain ⟨n, b⟩ := e
    by_cases hname : name = n
    · subst hname
      by_cases hseen : name ∈ seen
      · simp [unshadowed, hseen, ih]
      · simp [unshadowed, hseen, ih, eq_comm]
    · have hlookup : ((n, b) :: rest).lookup name = rest.lookup name := by
        rw [List.lookup_cons, beq_eq_false_iff_ne.mpr hname]
      rw [hlookup]
      by_cases hseen : n ∈ seen
      · simp [unshadowed, hseen, ih]
      · simp [unshadowed, hseen, ih, hname]

theorem not_mem_of_mem_unshadowed {e : String × α} (h : e ∈ unshadowed seen l) : e.1 ∉ seen :=
  (mem_unshadowed_iff.mp h).1

theorem nodup_unshadowed (seen : List String) (l : List (String × α)) :
    ((unshadowed seen l).map Prod.fst).Nodup := by
  induction l generalizing seen with
  | nil => exact .nil
  | cons e rest ih =>
    rw [unshadowed]
    split
    · exact ih seen
    · refine List.nodup_cons.mpr ⟨fun hmem => ?_, ih _⟩
      obtain ⟨e', he', hname⟩ := List.mem_map.mp hmem
      exact not_mem_of_mem_unshadowed he' (hname ▸ List.mem_cons_self)

theorem unshadowed_congr {seen' : List String} (h : ∀ n, n ∈ seen ↔ n ∈ seen') :
    unshadowed seen l = unshadowed seen' l := by
  induction l generalizing seen seen' with
  | nil => rfl
  | cons e rest ih =>
    obtain ⟨n, b⟩ := e
    have hcons : unshadowed (n :: seen) rest = unshadowed (n :: seen') rest :=
      ih fun m => by simp only [List.mem_cons, h]
    simp only [unshadowed, List.contains_iff_mem, h, ih h, hcons]

/-- What comes later is also shadowed by what comes earlier. -/
theorem unshadowed_append (seen : List String) (l l' : List (String × α)) :
    unshadowed seen (l ++ l') =
      unshadowed seen l ++ unshadowed (l.map Prod.fst ++ seen) l' := by
  induction l generalizing seen with
  | nil => rfl
  | cons e rest ih =>
    obtain ⟨n, b⟩ := e
    by_cases hseen : n ∈ seen
    · have hlater : unshadowed (rest.map Prod.fst ++ seen) l' =
          unshadowed (n :: (rest.map Prod.fst ++ seen)) l' :=
        unshadowed_congr fun m => by simp only [List.mem_append, List.mem_cons]; grind
      simp [unshadowed, hseen, ih, hlater]
    · have hlater : unshadowed (rest.map Prod.fst ++ n :: seen) l' =
          unshadowed (n :: (rest.map Prod.fst ++ seen)) l' :=
        unshadowed_congr fun m => by simp only [List.mem_append, List.mem_cons]; grind
      simp [unshadowed, hseen, ih, hlater]

/-- Entries that are left keep their order. -/
theorem pairwise_unshadowed (seen : List String) (l : List (String × α)) :
    (unshadowed seen l).Pairwise fun x y =>
      l.findIdx (fun e => e.1 == x.1) < l.findIdx (fun e => e.1 == y.1) := by
  induction l generalizing seen with
  | nil => exact .nil
  | cons e rest ih =>
    obtain ⟨n, b⟩ := e
    have hskip {m : String} (hm : m ≠ n) :
        ((n, b) :: rest).findIdx (fun e => e.1 == m) = rest.findIdx (fun e => e.1 == m) + 1 := by
      rw [List.findIdx_cons, beq_eq_false_iff_ne.mpr hm.symm]
      rfl
    -- The entries further on are those of the rest, one place later.
    have hrest (seen' : List String) (hn : n ∈ seen') :
        (unshadowed seen' rest).Pairwise fun x y =>
          ((n, b) :: rest).findIdx (fun e => e.1 == x.1) <
            ((n, b) :: rest).findIdx (fun e => e.1 == y.1) := by
      refine (ih seen').imp_of_mem fun hx hy hlt => ?_
      have hne {e : String × α} (he : e ∈ unshadowed seen' rest) : e.1 ≠ n :=
        fun h => not_mem_of_mem_unshadowed he (h.symm ▸ hn)
      rw [hskip (hne hx), hskip (hne hy)]
      exact Nat.succ_lt_succ hlt
    rw [unshadowed]
    split
    · rename_i hseen
      exact hrest seen (List.contains_iff_mem.mp hseen)
    · refine List.pairwise_cons.mpr ⟨fun y hy => ?_, hrest _ List.mem_cons_self⟩
      have hne : y.1 ≠ n := fun h => not_mem_of_mem_unshadowed hy (h ▸ List.mem_cons_self)
      rw [hskip hne, List.findIdx_cons, beq_self_eq_true]
      exact Nat.succ_pos _

theorem contains_of_mem_unshadowed {e : String × α} (h : e ∈ unshadowed seen scope.entries) :
    scope.contains e.1 = true := by
  rw [Scope.contains, Scope.get?, (mem_unshadowed_iff.mp h).2]
  rfl

theorem contains_eq_false (h : name ∉ scope.entries.map Prod.fst) : scope.contains name = false := by
  rw [Scope.contains, Scope.get?, Option.isSome_eq_false_iff, Option.isNone_iff_eq_none,
    List.lookup_eq_none_iff]
  rintro e he
  exact bne_iff_ne.mpr fun hn => h (hn ▸ List.mem_map_of_mem he)

/-- Entries of scopes one after the other have what lookup finds in the scopes. -/
theorem lookup_flatMap (scopes : List (Scope α)) (name : String) :
    (scopes.flatMap Scope.entries).lookup name = scopes.findSome? fun scope => scope.get? name := by
  induction scopes with
  | nil => rfl
  | cons scope rest ih =>
    rw [List.flatMap_cons, List.lookup_append, ih, List.findSome?_cons, Scope.get?]
    cases scope.entries.lookup name <;> rfl

theorem exists_address? (h : (scopes.findSome? fun scope => scope.get? name) = some a) :
    ∃ i j, address? scopes name = some (i, j) := by
  induction scopes with
  | nil => cases h
  | cons scope rest ih =>
    rw [address?]
    split
    · exact ⟨0, _, rfl⟩
    · rename_i hn
      rw [Scope.contains, Option.not_isSome_iff_eq_none] at hn
      rw [List.findSome?_cons, hn] at h
      obtain ⟨i, j, hp⟩ := ih h
      exact ⟨i + 1, j, by rw [hp]; rfl⟩

/-- The names in view come in the order in which they are looked up. -/
theorem precedes_unshadowed (seen : List String) (scopes : List (Scope α)) :
    (unshadowed seen (scopes.flatMap Scope.entries)).Pairwise fun x y =>
      Precedes scopes x.1 y.1 := by
  induction scopes generalizing seen with
  | nil => exact .nil
  | cons scope rest ih =>
    have here {e : String × α} (he : e ∈ unshadowed seen scope.entries) :
        address? (scope :: rest) e.1 = some (0, scope.entries.findIdx fun e' => e'.1 == e.1) := by
      rw [address?, if_pos (contains_of_mem_unshadowed he)]
    have there {e : String × α} {i j : Nat}
        (he : e ∈ unshadowed (scope.entries.map Prod.fst ++ seen) (rest.flatMap Scope.entries))
        (hp : address? rest e.1 = some (i, j)) :
        address? (scope :: rest) e.1 = some (i + 1, j) := by
      have hn := contains_eq_false fun hmem =>
        not_mem_of_mem_unshadowed he (List.mem_append_left _ hmem)
      rw [address?, hn, hp]
      rfl
    rw [List.flatMap_cons, unshadowed_append]
    refine List.pairwise_append.mpr ⟨?_, ?_, fun x hx y hy => ?_⟩
    · refine (pairwise_unshadowed seen scope.entries).imp_of_mem fun hx hy hlt => ?_
      exact ⟨0, _, 0, _, here hx, here hy, .inr ⟨rfl, hlt⟩⟩
    · refine (ih _).imp_of_mem fun hx hy hlt => ?_
      obtain ⟨i, j, i', j', hi, hi', hlt⟩ := hlt
      refine ⟨i + 1, j, i' + 1, j', there hx hi, there hy hi', ?_⟩
      exact hlt.imp Nat.succ_lt_succ (And.imp_left (congrArg _))
    · obtain ⟨i, j, hp⟩ := exists_address? (lookup_flatMap rest y.1 ▸ (mem_unshadowed_iff.mp hy).2)
      exact ⟨0, _, i + 1, j, here hx, there hy hp, .inl (Nat.succ_pos i)⟩

theorem findSome?_get? (scopes : List (Scope α)) (name : String) :
    (scopes.findSome? fun scope => scope.get? name) =
      (scopes.find? fun scope => scope.contains name).bind fun scope => scope.get? name := by
  induction scopes with
  | nil => rfl
  | cons scope rest ih =>
    rw [List.findSome?_cons, List.find?_cons, Scope.contains]
    cases h : scope.get? name with
    | none => exact ih
    | some a => exact h.symm

theorem mem_bindings_iff {s : Scopes α} : (name, a) ∈ s.bindings ↔ s.lookup name = some a := by
  rw [bindings, mem_unshadowed_iff, lookup_flatMap, lookup]
  exact and_iff_right List.not_mem_nil

end Scopes

namespace State

/-- The rows are a listing of the variables in view. -/
structure Lists (s : State) (rows : List VariableRow) : Prop where
  distinct : (rows.map VariableRow.name).Nodup
  /-- A name is listed if the scope in which it is looked up binds it to what is no function. -/
  mem_iff : ∀ row, row ∈ rows ↔ ∃ scope p v,
    (s.scopes.visible.find? fun scope => scope.contains row.name) = some scope ∧
      scope.get? row.name = some p ∧ s.load? p = some v ∧ v.ty.isFunction = false ∧
      row = s.row row.name v
  shown : ∀ row ∈ rows, s.shown? row.name = some row
  /-- The innermost scope comes first, and the order in a scope is that of the declarations. -/
  ordered : rows.Pairwise fun a b => Scopes.Precedes s.scopes.visible a.name b.name

variable {s : State} {row : VariableRow}

/-- The row of an entry, unless it is a function. -/
def entryRow? (s : State) (e : String × Place) : Option VariableRow :=
  match s.load? e.2 with
  | some v => if v.ty.isFunction then none else some (s.row e.1 v)
  | none => none

theorem variableRows_eq (s : State) : s.variableRows = s.scopes.bindings.filterMap s.entryRow? := rfl

theorem entryRow?_eq_some_iff {e : String × Place} : s.entryRow? e = some row ↔
    ∃ v, s.load? e.2 = some v ∧ v.ty.isFunction = false ∧ row = s.row e.1 v := by
  unfold entryRow?
  constructor
  · intro h
    split at h
    · split at h <;> cases h
      exact ⟨_, ‹_›, Bool.eq_false_iff.mpr ‹_›, rfl⟩
    · cases h
  · rintro ⟨v, hv, hfunction, rfl⟩
    simp only [hv, hfunction, Bool.false_eq_true, if_false]

theorem name_of_entryRow? {e : String × Place} (h : s.entryRow? e = some row) : row.name = e.1 := by
  obtain ⟨v, -, -, rfl⟩ := entryRow?_eq_some_iff.mp h
  rfl

theorem mem_variableRows_iff : row ∈ s.variableRows ↔ ∃ p v, s.scopes.lookup row.name = some p ∧
    s.load? p = some v ∧ v.ty.isFunction = false ∧ row = s.row row.name v := by
  rw [variableRows_eq, List.mem_filterMap]
  constructor
  · rintro ⟨⟨name, p⟩, hp, hrow⟩
    obtain rfl : row.name = name := name_of_entryRow? hrow
    exact ⟨p, (entryRow?_eq_some_iff.mp hrow).imp fun v hv => ⟨Scopes.mem_bindings_iff.mp hp, hv⟩⟩
  · rintro ⟨p, v, hp, hv⟩
    exact ⟨(row.name, p), Scopes.mem_bindings_iff.mpr hp, entryRow?_eq_some_iff.mpr ⟨v, hv⟩⟩

/-- Rows are related as the names of their entries are. -/
theorem pairwise_variableRows {R : String → String → Prop}
    (h : s.scopes.bindings.Pairwise fun x y => R x.1 y.1) :
    s.variableRows.Pairwise fun a b => R a.name b.name := by
  rw [variableRows_eq]
  refine h.filterMap _ fun x y hxy a ha b hb => ?_
  rwa [name_of_entryRow? ha, name_of_entryRow? hb]

/-- The debugger lists the variables in view as lookup finds them. -/
theorem lists_variableRows (s : State) : s.Lists s.variableRows where
  distinct :=
    List.pairwise_map.mpr (pairwise_variableRows (List.pairwise_map.mp (Scopes.nodup_unshadowed _ _)))
  mem_iff row := by
    rw [mem_variableRows_iff, Scopes.lookup, Scopes.findSome?_get?]
    constructor
    · rintro ⟨p, v, hp, hv⟩
      obtain ⟨scope, hscope, hp⟩ := Option.bind_eq_some_iff.mp hp
      exact ⟨scope, p, v, hscope, hp, hv⟩
    · rintro ⟨scope, p, v, hscope, hp, hv⟩
      exact ⟨p, v, Option.bind_eq_some_iff.mpr ⟨scope, hscope, hp⟩, hv⟩
  shown row h := by
    obtain ⟨p, v, hp, hv, -, hrow⟩ := mem_variableRows_iff.mp h
    have hvalue : s.value? row.name = some v := by
      rw [value?, State.lookup, hp]
      exact hv
    rw [shown?, hvalue, Option.map_some, ← hrow]
  ordered := pairwise_variableRows (Scopes.precedes_unshadowed [] s.scopes.visible)

end State

end Stepwise
