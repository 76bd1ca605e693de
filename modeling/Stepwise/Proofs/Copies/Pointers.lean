import Mathlib.Data.Fintype.Card
import Stepwise.Proofs.Copies.Assigning
import Stepwise.Session.Run

/-! # Pointers into assigned structs

An assignment keeps the cells of the direct members, so pointers to them stay valid. Whatever lies
deeper is in new blocks afterwards, and pointers to it are left with the cells that were there.
-/

namespace Stepwise

open Value

/-- The value apart from its flag, and from where its cell and its parts are. -/
def Value.payload (v : Value) : Value := (v.withReadonly false).contents

namespace Heap

variable {h h' : Heap} {v w : Value} {b : BlockId} {i : Nat} {p : Place} {path path' : List Nat}

/-- No object is a part of itself. -/
def Grounded (h : Heap) : Prop :=
  ∀ v b path, v.block? = some b → path ≠ [] → h.partBlock? v path ≠ some b

theorem partBlock?_append (path path' : List Nat) : h.partBlock? v (path ++ path') =
    (h.part? v path).bind fun w => h.partBlock? w path' := by
  rw [partBlock?, part?_append, Option.bind_assoc]
  rfl

/-- The way down passes through blocks. -/
theorem exists_part? (hb : h.partBlock? v (path ++ path') = some b) :
    ∃ w s, h.part? v path = some w ∧ w.block? = some s ∧ h.partBlock? w path' = some b := by
  rw [partBlock?_append] at hb
  obtain ⟨w, hw, hb⟩ := Option.bind_eq_some_iff.mp hb
  cases hs : w.block? with
  | some s => exact ⟨w, s, hw, hs, hb⟩
  | none =>
    rw [partBlock?_of_block?_none hs] at hb
    cases hb

/-- A block of a part is met only once on the way down. -/
theorem Grounded.append_ne (hg : h.Grounded) (hp : path' ≠ [])
    (hb : h.partBlock? v path = some b) : h.partBlock? v (path ++ path') ≠ some b := by
  intro hb'
  obtain ⟨w, s, hw, hs, hb'⟩ := exists_part? hb'
  rw [partBlock?, hw, Option.bind_some] at hb
  exact hg w b path' hb hp hb'

/-- A heap is grounded when the ranks of blocks fall on the way down. -/
theorem Grounded.of_rank (rank : BlockId → Nat)
    (hr : ∀ b, ∀ cell ∈ h.cells b, ∀ s, cell.block? = some s → rank s < rank b) : h.Grounded := by
  intro v b path hv hp hb
  cases path with
  | nil => exact hp rfl
  | cons i path =>
    rw [partBlock?_of_block? hv] at hb
    obtain ⟨cell, hcell, hb⟩ := Option.bind_eq_some_iff.mp hb
    have hlt := of_partBlock? (P := fun s => rank s < rank b)
      (hr b cell (Array.mem_of_getElem? hcell))
      (fun s hs cell hcell s' hs' => Nat.lt_trans (hr s cell hcell s' hs') hs) hb
    exact Nat.lt_irrefl _ hlt

/-- The way down is shorter than the heap. -/
theorem Grounded.length_lt (hg : h.Grounded) (hc : h.Closed) (hv : h.Covers v)
    (hb : h.partBlock? v path = some b) : path.length < h.blocks.size := by
  have hon (k : Fin (path.length + 1)) : ∃ s : Fin h.blocks.size,
      h.partBlock? v (path.take k) = some s.val := by
    rw [← List.take_append_drop k path] at hb
    obtain ⟨w, s, hw, hs, -⟩ := exists_part? hb
    have hs' : h.partBlock? v (path.take k) = some s := by rw [partBlock?, hw, Option.bind_some, hs]
    exact ⟨⟨s, hc.partBlock?_lt hv hs'⟩, hs'⟩
  choose block hblock using hon
  have hne (j k : Fin (path.length + 1)) (hjk : j < k) : block j ≠ block k := by
    intro heq
    have hsplit : path.take k = path.take j ++ (path.drop j).take (k - j) := by
      rw [← List.take_add, Nat.add_sub_cancel' (Nat.le_of_lt hjk)]
    refine hg.append_ne ?_ (hblock j) (hsplit ▸ heq ▸ hblock k)
    refine List.ne_nil_of_length_pos ?_
    simp only [List.length_take, List.length_drop]
    omega
  have hinj : Function.Injective block := by
    intro j k heq
    rcases Nat.lt_trichotomy j k with hlt | hjk | hlt
    · exact absurd heq (hne j k hlt)
    · exact Fin.ext hjk
    · exact absurd heq.symm (hne k j hlt)
  simpa [Nat.succ_le_iff] using Fintype.card_le_of_injective block hinj

theorem place_of_load? (hw : h.load? p = some w) : w.place = some p := by
  obtain ⟨cell, -, rfl⟩ := Option.map_eq_some_iff.mp hw
  rfl

/-- A part is read from a cell of the block that the part above it owns. -/
theorem part?_concat (hw : h.part? v (path ++ [i]) = some w) : ∃ u b, h.part? v path = some u ∧
    u.block? = some b ∧ h.load? ⟨u.partRole, b, i⟩ = some w := by
  rw [part?_append] at hw
  obtain ⟨u, hu, hw⟩ := Option.bind_eq_some_iff.mp hw
  obtain ⟨b, hb, hw⟩ := Option.bind_eq_some_iff.mp hw
  obtain ⟨w', hload, hw⟩ := Option.bind_eq_some_iff.mp hw
  cases hw
  exact ⟨u, b, hu, hb, hload⟩

theorem partBlock?_of_concat (hw : h.part? v (path ++ [i]) = some w) (hp : w.place = some p) :
    h.partBlock? v path = some p.block ∧ h.load? p = some w := by
  obtain ⟨u, b, hu, hb, hload⟩ := part?_concat hw
  cases (place_of_load? hload).symm.trans hp
  rw [partBlock?, hu]
  exact ⟨hb, hload⟩

/-- The place stands for the part at the end of the way down: reading through it gives the part, and
what is stored through it the part has then. -/
structure Designates (h : Heap) (p : Place) (v : Value) (path : List Nat) : Prop where
  reads : ∃ w, h.load? p = some w ∧ h.part? v path = some w
  writes : ∀ u h', h.store? p u = some h' →
    ∃ w, h'.part? v path = some w ∧ w.ty = u.ty ∧ w.data = u.data

/-- What is stored in a cell is read from it. -/
theorem load?_store? {u : Value} (hs : h.store? p u = some h') :
    ∃ w, h'.load? p = some w ∧ w.ty = u.ty ∧ w.data = u.data := by
  obtain ⟨w, hw⟩ := load?_of_store? hs
  refine ⟨w, hw, ?_⟩
  rw [load?, getElem?_cells_of_modify? hs, if_pos ⟨rfl, rfl⟩, Option.map_map] at hw
  obtain ⟨cell, -, rfl⟩ := Option.map_eq_some_iff.mp hw
  exact ⟨rfl, rfl⟩

/-- A store does not change the way down to its cell. -/
theorem part?_store? {u : Value} (hs : h.store? p u = some h')
    (hb : h.partBlock? v path = some p.block)
    (hn : ∀ q q', path = q ++ q' → q' ≠ [] → h.partBlock? v q ≠ some p.block) :
    h'.part? v path = h.part? v path := by
  induction path generalizing v with
  | nil => rfl
  | cons i path ih =>
    cases hv : v.block? with
    | none => rw [part?_of_block?_none hv, part?_of_block?_none hv]
    | some s =>
      have hne : p.block ≠ s := fun heq => hn [] (i :: path) rfl (List.cons_ne_nil i path) (heq ▸ hv)
      rw [part?_of_block? hv, part?_of_block? hv, cells_of_modify? hs, if_neg hne]
      rw [partBlock?_of_block? hv] at hb
      cases hcell : (h.cells s)[i]? with
      | none => rfl
      | some cell =>
        rw [hcell, Option.bind_some] at hb
        refine ih (by rwa [partBlock?_placed]) fun q q' hq hq' hqb => hn (i :: q) q' ?_ hq' ?_
        · rw [hq, List.cons_append]
        · rw [partBlock?_of_block? hv, hcell]
          rwa [partBlock?_placed] at hqb

/-- The place of a part stands for it, unless its block is met on the way down. -/
theorem designates_of_place (hw : h.part? v (path ++ [i]) = some w) (hp : w.place = some p)
    (hn : ∀ q q', path = q ++ q' → q' ≠ [] → h.partBlock? v q ≠ some p.block) :
    h.Designates p v (path ++ [i]) := by
  obtain ⟨u, b, hu, hb, hload⟩ := part?_concat hw
  cases (place_of_load? hload).symm.trans hp
  refine ⟨⟨w, hload, hw⟩, fun x h' hs => ?_⟩
  have hpath : h.partBlock? v path = some b := by rw [partBlock?, hu, Option.bind_some, hb]
  obtain ⟨w', hw', hx⟩ := load?_store? hs
  refine ⟨w', ?_, hx⟩
  rw [part?_append, part?_store? hs hpath hn, hu, Option.bind_some, part?, hb, Option.bind_some, hw']
  rfl

/-- Places of parts stand for them. -/
theorem Grounded.designates (hg : h.Grounded) (hpath : path ≠ []) (hw : h.part? v path = some w)
    (hp : w.place = some p) : h.Designates p v path := by
  obtain ⟨path, i, rfl⟩ := path.eq_nil_or_concat'.resolve_left hpath
  have hb := (partBlock?_of_concat hw hp).1
  refine designates_of_place hw hp fun q q' hq hq' hqb => ?_
  subst hq
  exact hg.append_ne hq' hqb hb

section Assigned

variable {l r : Value} {target source : BlockId} {name : String}

theorem Copies.fresh {bound : Nat} (hg : h.Grounded) (hc : h.Closed) (hv : h.Covers v)
    (hbound : h.blocks.size ≤ bound) (hw : Copies bound h v h' w)
    (hb : h'.partBlock? w path = some b) : h.blocks.size ≤ b := by
  rcases (hw.owned path b hb).2 with hle | ⟨hle, hb⟩
  · exact hle
  · exact absurd (hg.length_lt hc hv hb) (Nat.not_lt_of_le (Nat.le_trans hbound hle))

/-- What became of the member at an index. -/
theorem Assigned.cell (ha : Assigned source target h (h.cells source).size h')
    (hm : (h.cells target).size = (h.cells source).size) (i : Nat) :
    (h.cells source)[i]? = none ∧ (h'.cells target)[i]? = none ∨
      ∃ new old cell, (h.cells source)[i]? = some new ∧ (h.cells target)[i]? = some old ∧
        (h'.cells target)[i]? = some cell ∧ Member h new old target h' cell := by
  by_cases hi : i < (h.cells source).size
  · have hnew := Array.getElem?_eq_getElem hi
    have hold := Array.getElem?_eq_getElem (hm ▸ hi)
    obtain ⟨cell, hcell, hmember⟩ := ha.copied i hi _ _ hnew hold
    exact .inr ⟨_, _, cell, hnew, hold, hcell, hmember⟩
  · have hnone : (h.cells target)[i]? = none := Array.getElem?_eq_none (by omega)
    exact .inl ⟨Array.getElem?_eq_none (by omega), ha.left i (by omega) ▸ hnone⟩

variable (ha : h.Assignable name l r target source)
  (hs : Assigned source target h (h.cells source).size h')

include ha hs

/-- Below its members, the object has the contents of the other one. -/
theorem Assigned.contents (hp : 2 ≤ path.length) :
    (h'.part? l path).map contents = (h.part? r path).map contents := by
  match path, hp with
  | i :: j :: path, _ =>
    rw [part?_of_block? ha.left.block?, part?_of_block? ha.right.block?]
    rcases hs.cell ha.members i with ⟨hnew, hcell⟩ | ⟨new, old, cell, hnew, -, hcell, hm⟩
    · rw [hnew, hcell]
      rfl
    · rw [hnew, hcell, Option.bind_some, Option.bind_some, contents_part?_placed,
        contents_part?_placed, hm.copies.parts _ (List.cons_ne_nil j path)]

/-- The object has the payloads of the other one, down to its deepest parts. -/
theorem Assigned.payloads (hp : path ≠ []) :
    (h'.part? l path).map payload = (h.part? r path).map payload := by
  match path, hp with
  | [i], _ =>
    rw [part?_of_block? ha.left.block?, part?_of_block? ha.right.block?]
    rcases hs.cell ha.members i with ⟨hnew, hcell⟩ | ⟨new, old, cell, hnew, -, hcell, hm⟩
    · rw [hnew, hcell]
      rfl
    · rw [hnew, hcell]
      exact congrArg (some <| withReadonly · false) hm.copies.root
  | i :: j :: path, _ =>
    have hlength : 2 ≤ (i :: j :: path).length := Nat.le_add_left 2 path.length
    have hcontents := hs.contents ha hlength
    have hpayload := congrArg (Option.map (withReadonly · false)) hcontents
    rwa [Option.map_map, Option.map_map] at hpayload

/-- The members have the flags that they had. -/
theorem Assigned.flags (i : Nat) :
    (h'.part? l [i]).map readonly = (h.part? l [i]).map readonly := by
  rw [part?_of_block? ha.left.block?, part?_of_block? ha.left.block?]
  rcases hs.cell ha.members i with ⟨hnew, hcell⟩ | ⟨new, old, cell, -, hold, hcell, hm⟩
  · have hnone : (h.cells target)[i]? = none := by
      rw [Array.getElem?_eq_none_iff] at hnew ⊢
      rwa [ha.members]
    rw [hcell, hnone]
    rfl
  · rw [hold, hcell]
    exact congrArg some hm.readonly

/-- Below its members, the object owns new blocks. -/
theorem Assigned.fresh (hg : h.Grounded) (hp : path ≠ []) (hb : h'.partBlock? l path = some b) :
    h.blocks.size ≤ b := by
  cases path with
  | nil => exact absurd rfl hp
  | cons i path =>
    rw [partBlock?_of_block? ha.left.block?] at hb
    rcases hs.cell ha.members i with ⟨-, hcell⟩ | ⟨new, old, cell, hnew, -, hcell, hm⟩
    · rw [hcell] at hb
      cases hb
    · rw [hcell, Option.bind_some] at hb
      have hcovers : h.Covers new := ha.closed source new (Array.mem_of_getElem? hnew)
      exact hm.copies.fresh hg ha.closed hcovers (Nat.le_succ _) hb

/-- The places of the members are still those of the members. -/
theorem Assigned.designates (hw : h.part? l [i] = some w) (hp : w.place = some p) :
    h'.Designates p l [i] := by
  rw [part?_of_block? ha.left.block?] at hw
  obtain ⟨old, hold, hw⟩ := Option.bind_eq_some_iff.mp hw
  cases hw
  cases hp
  rcases hs.cell ha.members i with ⟨hnew, -⟩ | ⟨new, old', cell, -, -, hcell, -⟩
  · have hi := (Array.getElem?_eq_some_iff.mp hold).1
    rw [Array.getElem?_eq_none_iff, ← ha.members] at hnew
    omega
  · have hpart : h'.part? l ([] ++ [i]) = some (cell.placed ⟨l.partRole, target, i⟩) := by
      rw [List.nil_append, part?_of_block? ha.left.block?, hcell]
      rfl
    refine designates_of_place hpart rfl fun q q' hq hq' => ?_
    exact absurd (List.append_eq_nil_iff.mp hq.symm).2 hq'

/-- The places of parts below the members are places of no part any more, and what is in their cells
stays there. -/
theorem Assigned.stale (hg : h.Grounded) (hpath : 2 ≤ path.length) (hw : h.part? l path = some w)
    (hp : w.place = some p) : h'.load? p = some w ∧
      ∀ path' w', path' ≠ [] → h'.part? l path' = some w' → w'.place ≠ some p := by
  have hne : path ≠ [] := List.ne_nil_of_length_pos (by omega)
  obtain ⟨path, i, rfl⟩ := path.eq_nil_or_concat'.resolve_left hne
  have hne : path ≠ [] := List.ne_nil_of_length_pos (by simpa [Nat.succ_le_iff] using hpath)
  obtain ⟨hb, hload⟩ := partBlock?_of_concat hw hp
  have hlt : p.block < h.blocks.size := ha.closed.partBlock?_lt ha.covers.1 hb
  have htarget : p.block ≠ target := fun heq => hg l target path ha.left.block? hne (heq ▸ hb)
  constructor
  · rw [← hload, load?, load?, hs.same.cells p.block hlt p.index htarget]
  · intro path' w' hne' hw' hp'
    obtain ⟨path', j, rfl⟩ := path'.eq_nil_or_concat'.resolve_left hne'
    have hb' := (partBlock?_of_concat hw' hp').1
    by_cases hnil : path' = []
    · subst hnil
      exact htarget (Option.some.inj (hb'.symm.trans ha.left.block?))
    · exact Nat.not_le_of_lt hlt (hs.fresh ha hg hnil hb')

end Assigned

end Heap

namespace Operator

variable {h : Heap} {name : String} {l r : Value} {target source : BlockId}

/-- A struct that is assigned to has the payloads of the other one in all its parts. Places of its
members stand for them still, and places of deeper parts do if it was assigned to itself; otherwise
they are places of cells that no part has any more, which stay as they were. -/
theorem assign_designates (ha : h.Assignable name l r target source) (hg : h.Grounded)
    (ctx : OperatorContext) : ∃ h', assign.apply l (some r) ctx h = .ok l h' ∧
      (∀ path ≠ [], (h'.part? l path).map payload = (h.part? r path).map payload) ∧
      ∀ path w p, path ≠ [] → h.part? l path = some w → w.place = some p →
        h.Designates p l path ∧
        if path.length = 1 ∨ target = source then h'.Designates p l path
        else h'.load? p = some w ∧
          ∀ path' w', path' ≠ [] → h'.part? l path' = some w' → w'.place ≠ some p := by
  obtain ⟨h', hassign, hs⟩ := assign_struct ha ctx
  refine ⟨h', hassign, ?_⟩
  by_cases hsame : target = source
  · rw [if_pos hsame] at hs
    subst hs
    subst hsame
    refine ⟨fun path hp => ?_, fun path w p hpath hw hp => ?_⟩
    · have hblock := ha.left.block?.trans ha.right.block?.symm
      rw [Heap.part?_congr hblock (ha.left.partRole.trans ha.right.partRole.symm) hp]
    · rw [if_pos (.inr rfl), and_self_iff]
      exact hg.designates hpath hw hp
  · rw [if_neg hsame] at hs
    refine ⟨fun path => hs.payloads ha, fun path w p hpath hw hp => ⟨hg.designates hpath hw hp, ?_⟩⟩
    split
    · rename_i hone
      obtain ⟨i, rfl⟩ := List.length_eq_one_iff.mp (hone.resolve_right hsame)
      exact hs.designates ha hw hp
    · rename_i hdeep
      have hlength := List.length_pos_of_ne_nil hpath
      exact hs.stale ha hg (by omega) hw hp

/-- Two objects of `struct In { int v; }; struct S { In in; };`. -/
def nestedObjects : Heap where
  blocks :=
    let struct (name : String) (store : BlockId) : Value := .fresh (.struct name []) (.struct store)
    #[#[.int .int 1], #[struct "In" 0], #[struct "S" 1], #[.int .int 2], #[struct "In" 3],
      #[struct "S" 4]]

/-- The pointer to `a.in` stands for it after `a = b`, and the one to `a.in.v` reads what was there
before. -/
theorem assign_designates_nested :
    let ctx : OperatorContext := ⟨{}, [], none⟩
    let h := nestedObjects
    let a : Value := { ty := .struct "S" [], data := .struct 1, place := some (.slot 2) }
    let b : Value := { ty := .struct "S" [], data := .struct 4, place := some (.slot 5) }
    ∃ h', assign.apply a (some b) ctx h = .ok a h' ∧
      h.Designates (.member 1 0) a [0] ∧ h'.Designates (.member 1 0) a [0] ∧
      h.Designates (.member 0 0) a [0, 0] ∧ ¬h'.Designates (.member 0 0) a [0, 0] ∧
      (h'.load? (.member 0 0)).map payload = some (.int .int 1) ∧
      (h'.part? a [0, 0]).map payload = some (.int .int 2) := by
  intro ctx h a b
  have hg : h.Grounded := .of_rank id (Heap.forall_cells.mpr (by decide))
  have happart : h.Apart b 1 := by
    intro path hb
    have hmem := Heap.of_partBlock? (P := fun s => s ∈ [3, 4]) (h := h) (by decide) (by decide) hb
    exact absurd hmem (by decide)
  have hassignable : h.Assignable "S" a b 1 4 :=
    { left := ⟨⟨[], rfl⟩, rfl⟩
      right := ⟨⟨[], rfl⟩, rfl⟩
      lvalue := rfl
      writable := rfl
      closed := by decide
      covers := by decide
      members := rfl
      apart := fun _ => happart }
  obtain ⟨h', hassign, hpayloads, hplaces⟩ := assign_designates hassignable hg ctx
  obtain ⟨hin, hin'⟩ := hplaces [0] _ (.member 1 0) (List.cons_ne_nil _ _) rfl rfl
  obtain ⟨hv, hv'⟩ := hplaces [0, 0] _ (.member 0 0) (List.cons_ne_nil _ _) rfl rfl
  obtain ⟨hold, hstale⟩ := hv'
  refine ⟨h', hassign, hin, hin', hv, ?_, ?_, ?_⟩
  · rintro ⟨⟨w, hload, hpart⟩, -⟩
    exact hstale [0, 0] w (List.cons_ne_nil _ _) hpart (Heap.place_of_load? hload)
  · rw [hold]
    rfl
  · rw [hpayloads [0, 0] (List.cons_ne_nil _ _)]
    rfl

end Operator

/-- `struct In { int v; }; struct S { In in; };`
`int main() { S a = {{1}}; S b = {{2}}; int *p = &a.in.v; a = b; return *p; }` -/
def Program.ofNestedPointer : Program where
  includes := []
  items :=
    let named (name : String) : Declarator := .mk default [] false (.named name) []
    let int : TypeSpec := ⟨[], ["int"], default⟩
    let literal (n : Nat) : Initializer := .expr (.literal default (.int n 10 false false))
    let object (name : String) (v : Nat) : Stmt :=
      .declaration default ⟨⟨[], ["S"], default⟩,
        [⟨named name, some (.list default [.list default [literal v]])⟩]⟩
    let name (name : String) : Expr := .identifier default name
    let pointer : Expr :=
      .unary default .addrOf (.member default (.member default (name "a") "in" false) "v" false)
    [.struct default "In" [⟨int, named "v", none⟩] [],
      .struct default "S" [⟨⟨[], ["In"], default⟩, named "in", none⟩] [],
      .function default (.mk int
        (.mk default [] false (.named "main") [.params [] false])
        (.compound default
          [object "a" 1, object "b" 2,
            .declaration default
              ⟨int, [⟨.mk default [false] false (.named "p") [], some (.expr pointer)⟩]⟩,
            .expression default (some (.assign default none (name "a") (name "b"))),
            .returnJump default (some (.unary default .deref (name "p")))]))]

/-- The pointer to `a.in.v` reads the value from before the assignment. -/
theorem Run.nested_pointer_left :
    let run (n : Nat) : Run := (ofProgram {} .ofNestedPointer {} {}).steps n
    let heap (n : Nat) : Heap := (run n).state.heap
    let a (n : Nat) : Option Value := (heap n).load? (.slot 3)
    let part (n : Nat) : Option Value := do (heap n).part? (← a n) [0, 0]
    ((part 16).bind fun v => v.place.map fun p => (p.block, p.index)) = some (1, 0) ∧
      (part 21).bind Value.int? = some 2 ∧
      ((heap 21).load? (.member 1 0)).bind Value.int? = some 1 ∧
      (run 21).exitStatus? = some 1 := by
  decide +kernel

end Stepwise
