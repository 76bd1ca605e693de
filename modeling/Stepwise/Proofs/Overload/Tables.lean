import Stepwise.Operator.Call

/-! # Names in overload tables

Replacing the overloads of one name leaves the other names as they are. No table ever
loses a name, neither when a function is added nor when an answer is remembered.
-/

namespace Stepwise

section Lookup

variable {κ β : Type} [BEq κ] [LawfulBEq κ]

theorem lookup_replace (l : List (κ × β)) (key k : κ) (b : β) :
    (l.map fun (n, old) => if n == key then (n, b) else (n, old)).lookup k =
      if k == key then (l.lookup key).map fun _ => b else l.lookup k := by
  induction l with
  | nil => simp only [List.map_nil, List.lookup_nil, Option.map_none, ite_self]
  | cons e l ih =>
    obtain ⟨n, old⟩ := e
    by_cases hn : n = key
    · subst hn
      by_cases hk : k = n
      · simp [hk]
      · have hk : (k == n) = false := beq_false_of_ne hk
        simp [List.lookup_cons, hk, ih]
    · have hkey : (key == n) = false := beq_false_of_ne (Ne.symm hn)
      by_cases hk : k = n
      · simp [hk, hn]
      · have hk : (k == n) = false := beq_false_of_ne hk
        simp [List.lookup_cons, hn, hk, hkey, ih]

theorem lookup_filter_ne (l : List (κ × β)) {key k : κ} (h : k ≠ key) :
    (l.filter fun (n, _) => n != key).lookup k = l.lookup k := by
  induction l with
  | nil => rfl
  | cons e l ih =>
    obtain ⟨n, b⟩ := e
    simp only [List.filter_cons, List.lookup_cons]
    split
    · rw [List.lookup_cons, ih]
    · rename_i hsame
      obtain rfl : n = key := by simpa using hsame
      rw [ih, beq_false_of_ne h]

theorem any_eq_isSome_lookup (l : List (κ × β)) (key : κ) :
    (l.any fun (n, _) => n == key) = (l.lookup key).isSome := by
  induction l with
  | nil => rfl
  | cons e l ih =>
    obtain ⟨n, old⟩ := e
    by_cases hn : n = key
    · simp [hn]
    · have hkey : (key == n) = false := beq_false_of_ne (Ne.symm hn)
      simp [List.lookup_cons, hn, hkey, ih]

end Lookup

namespace OverloadTable

variable {t u : OverloadTable} {name other : String}

theorem set?_put (t : OverloadTable) (name : String) (s : OverloadSet) (other : String) :
    (t.put name s).set? other = if other == name then some s else t.set? other := by
  unfold put
  split
  · rename_i h
    obtain ⟨old, ho⟩ := Option.isSome_iff_exists.mp h
    unfold set? at ho ⊢
    simp only [lookup_replace, ho, Option.map_some]
  · rename_i h
    have hn : t.sets.lookup name = none := Option.not_isSome_iff_eq_none.mp h
    by_cases ho : other = name
    · simp [set?, List.lookup_append, ho, hn]
    · have ho : (other == name) = false := beq_false_of_ne ho
      simp [set?, List.lookup_append, List.lookup_cons, ho]

theorem contains_put (t : OverloadTable) (name : String) (s : OverloadSet) (other : String) :
    (t.put name s).contains other = (other == name || t.contains other) := by
  unfold contains
  rw [set?_put]
  cases other == name <;> rfl

/-- A function that is added has its name in the table, next to the names that were there. -/
theorem contains_of_add {type : FunctionTy} {id slots : Nat}
    (h : t.add name type id slots = .ok u) (other : String) :
    u.contains other = (other == name || t.contains other) := by
  unfold add at h
  dsimp only at h
  cases hs : ((t.set? name).getD {}).add name ⟨.ofFunction type, id, slots, type⟩ with
  | error e => rw [hs] at h; cases h
  | ok s =>
    rw [hs] at h
    cases h
    exact contains_put t name s other

theorem contains_of_declared? {type : FunctionTy} {id : Nat}
    (h : t.declared? name type = some id) : t.contains name = true := by
  obtain ⟨s, hs, -⟩ := Option.bind_eq_some_iff.mp h
  exact Option.isSome_iff_exists.mpr ⟨s, hs⟩

/-- A table that remembers an answer has the names that it had. -/
theorem contains_of_resolve {m : Matcher} {args : List ArgSig} {templates : List Ty}
    {found : Option FunctionMatch} (h : t.resolve m name args templates = .ok (found, u))
    (other : String) : u.contains other = t.contains other := by
  unfold resolve at h
  cases hs : t.set? name with
  | none => rw [hs] at h; cases h; rfl
  | some s =>
    rw [hs] at h
    dsimp only at h
    cases hr : s.resolve name m (.ofCall args) (templates.map .ofType) with
    | error e => rw [hr] at h; cases h
    | ok answer =>
      rw [hr] at h
      cases h
      rw [contains_put]
      by_cases ho : other = name
      · simp [ho, contains, hs]
      · simp [ho]

end OverloadTable

namespace OwnerTables

theorem table_put (t : OwnerTables) (owner : Owner) (table : OverloadTable) (other : Owner) :
    (t.put owner table).table other = if other == owner then table else t.table other := by
  unfold put OwnerTables.table
  rw [any_eq_isSome_lookup]
  split
  · rename_i h
    obtain ⟨old, ho⟩ := Option.isSome_iff_exists.mp h
    rw [lookup_replace, ho]
    split <;> rfl
  · rename_i h
    have hn : t.lookup owner = none := Option.not_isSome_iff_eq_none.mp h
    by_cases ho : other = owner
    · simp [List.lookup_append, ho, hn]
    · have ho : (other == owner) = false := beq_false_of_ne ho
      simp [List.lookup_append, List.lookup_cons, ho]

/-- No name is lost if no table loses one. -/
theorem contains_put {t : OwnerTables} {owner : Owner} {table : OverloadTable}
    (h : ∀ name, (t.table owner).contains name = true → table.contains name = true)
    {other : Owner} {name : String} (hn : (t.table other).contains name = true) :
    ((t.put owner table).table other).contains name = true := by
  rw [table_put]
  split
  · rename_i ho
    rw [beq_iff_eq] at ho
    exact h name (ho ▸ hn)
  · exact hn

end OwnerTables

/-- The tables that remember the resolution of a call have the names that they had. -/
theorem CallTarget.contains_of_resolve {ctx : OperatorContext} {heap : Heap} {callee : Value}
    {args : List ArgSig} {templates : List Ty} {target : CallTarget} {tables : OwnerTables}
    (h : resolve ctx heap callee args templates = .ok (target, tables)) {owner : Owner}
    {name : String} (hn : (ctx.tables.table owner).contains name = true) :
    (tables.table owner).contains name = true := by
  have hf {f : FunctionRef} (h : ofFunction ctx f args templates = .ok (target, tables)) :
      (tables.table owner).contains name = true := by
    unfold ofFunction at h
    split at h
    · cases h
    · cases h
    · rename_i found table hr
      cases h
      refine OwnerTables.contains_put (fun name hn => ?_) hn
      rw [OverloadTable.contains_of_resolve hr]
      exact hn
  unfold resolve at h
  split at h
  · exact hf h
  · exact hf h
  · cases h
  · cases h
  · cases h

end Stepwise
