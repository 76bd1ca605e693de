import Stepwise.Operator.Apply
import Stepwise.Proofs.Operator.Layout

/-! # Operators that read the heap

A deep copy of a struct or an array fills blocks of its own. It has the type of the original and a
payload of that type, and the cells that were there keep theirs. Most other operators leave the heap
as it is, and what they answer is a well-formed value if their operands are. The rules for such
computations come first, then the basic operations and the conversions.
-/

namespace Stepwise

section Copies

theorem Ty.isPointer_of_isArray {t : Ty} (h : t.isArray = true) : t.isPointer = true := by
  cases t <;> first | rfl | cases h

namespace HeapM

variable {α β : Type} {members : String → List Ty} {h h' : Heap}

/-- From a well-formed heap the computation leads to one that keeps its cells. -/
def Sound (members : String → List Ty) (h : Heap) (x : HeapM α) (post : α → Heap → Prop) : Prop :=
  h.WellFormed members →
    (x.run h).2.WellFormed members ∧ h.Keeps (x.run h).2 ∧ post (x.run h).1 (x.run h).2

namespace Sound

variable {x : HeapM α} {f : α → HeapM β} {post : α → Heap → Prop} {post' : β → Heap → Prop}

theorem pure {a : α} (hp : post a h) : Sound members h (pure a) post :=
  fun hw => ⟨hw, .refl h, hp⟩

theorem bind (hx : Sound members h x post)
    (hf : ∀ a h', h.Keeps h' → h'.WellFormed members → post a h' →
      Sound members h' (f a) post') : Sound members h (x >>= f) post' := by
  intro hw
  obtain ⟨hw', hk, hp⟩ := hx hw
  obtain ⟨hw'', hk', hp'⟩ := hf _ _ hk hw' hp hw'
  exact ⟨hw'', hk.trans hk', hp'⟩

theorem mono {post' : α → Heap → Prop} (hx : Sound members h x post)
    (hp : ∀ a h', h.Keeps h' → post a h' → post' a h') : Sound members h x post' := by
  intro hw
  obtain ⟨hw', hk, hpost⟩ := hx hw
  exact ⟨hw', hk, hp _ _ hk hpost⟩

/-- Cells that are made one by one, each of the type of an old one. -/
theorem mapM {g : Value → HeapM Value}
    (hg : ∀ h cell, h.Fits members cell.ty cell.data → Sound members h (g cell) fun w h' =>
      h'.Fits members w.ty w.data ∧ w.ty = cell.ty)
    (cells : List Value) (hc : ∀ cell ∈ cells, h.Fits members cell.ty cell.data) :
    Sound members h (cells.mapM g) fun ws h' =>
      (∀ w ∈ ws, h'.Fits members w.ty w.data) ∧ ws.map Value.ty = cells.map Value.ty := by
  induction cells generalizing h with
  | nil => exact .pure ⟨nofun, rfl⟩
  | cons cell cells ih =>
    rw [List.forall_mem_cons] at hc
    rw [List.mapM_cons]
    refine .bind (hg h cell hc.1) fun w h' hk _ ⟨hw, hty⟩ => ?_
    refine .bind (ih fun c hm => (hc.2 c hm).mono hk) fun ws h'' hk' _ ⟨hws, htys⟩ => ?_
    exact .pure ⟨List.forall_mem_cons.mpr ⟨hw.mono hk', hws⟩, by simp [hty, htys]⟩

theorem mapM_array {g : Value → HeapM Value}
    (hg : ∀ h cell, h.Fits members cell.ty cell.data → Sound members h (g cell) fun w h' =>
      h'.Fits members w.ty w.data ∧ w.ty = cell.ty)
    (cells : Array Value) (hc : ∀ cell ∈ cells, h.Fits members cell.ty cell.data) :
    Sound members h (cells.mapM g) fun ws h' =>
      (∀ w ∈ ws, h'.Fits members w.ty w.data) ∧
        ws.toList.map Value.ty = cells.toList.map Value.ty := by
  rw [Array.mapM_eq_mapM_toList]
  intro hw
  obtain ⟨hw', hk, hfits, htys⟩ := mapM hg cells.toList (by simpa using hc) hw
  exact ⟨hw', hk, fun w hm => hfits w (Array.mem_toList_iff.mpr hm), htys⟩

end Sound

theorem sound_cells (b : BlockId) :
    Sound members h (cells b) fun cs h' => h' = h ∧ cs = h.cells b :=
  fun hw => ⟨hw, .refl h, rfl, rfl⟩

theorem sound_alloc {cells : Array Value} (hc : ∀ cell ∈ cells, h.Fits members cell.ty cell.data) :
    Sound members h (alloc cells) fun b h' =>
      b < h'.blocks.size ∧ h'.types b = cells.toList.map fun cell => cell.ty.named := by
  intro hw
  refine ⟨hw.alloc hc, Heap.keeps_alloc h cells, ?_, ?_⟩
  · show h.blocks.size < (h.blocks.push cells).size
    rw [Array.size_push]
    exact Nat.lt_succ_self _
  · show (h.alloc cells).2.types h.blocks.size = _
    rw [Heap.types, Heap.cells_alloc, if_pos rfl]

/-- What a copy is, compared with the original. -/
structure IsCopy (members : String → List Ty) (v w : Value) (h : Heap) : Prop where
  fits : h.Fits members w.ty w.data
  ty : w.ty = v.ty
  place : w.place = none

variable {v : Value}

theorem isCopy_rvalue (hv : h.Fits members v.ty v.data) : IsCopy members v v.rvalue h :=
  ⟨hv, rfl, rfl⟩

theorem sound_deepCopyWithin (bound : Nat) (hv : h.Fits members v.ty v.data) :
    Sound members h (deepCopyWithin bound v) (IsCopy members v) := by
  induction bound generalizing h v with
  | zero => exact .pure (isCopy_rvalue hv)
  | succ bound ih =>
    unfold deepCopyWithin
    extract_lets copyBlock
    have hcopy (store : BlockId) : Sound members h (copyBlock store) fun b h' =>
        b < h'.blocks.size ∧ h'.types b = h.types store := by
      refine .bind (sound_cells store) fun _ _ _ hw hcells => ?_
      obtain ⟨rfl, rfl⟩ := hcells
      refine .bind (.mapM_array (fun h cell hc => ?_) _ (hw store)) fun copies h' _ _ hcopies => ?_
      · exact .bind (ih hc) fun w h' _ _ hw => .pure ⟨hw.fits, hw.ty⟩
      · refine (sound_alloc hcopies.1).mono fun b h'' _ hb => ⟨hb.1, hb.2.trans ?_⟩
        have hmap := congrArg (List.map Ty.named) hcopies.2
        rwa [List.map_map, List.map_map] at hmap
    split
    · rename_i store hd
      refine .bind (hcopy store) fun b h' hk _ ⟨hb, ht⟩ => .pure ⟨?_, rfl, rfl⟩
      rw [hd] at hv
      obtain ⟨ty, _, _, _⟩ := v
      cases hv with
      | pointer _ hp => cases hp
      | struct hs hm => exact .struct hb (ht.trans hm)
    · split
      · rename_i store position hd harray
        refine .bind (hcopy store) fun b h' _ _ _ => .pure ⟨.pointer ?_ rfl, rfl, rfl⟩
        exact Ty.isPointer_of_isArray harray
      · exact .pure (isCopy_rvalue hv)
    · exact .pure (isCopy_rvalue hv)

theorem sound_deepCopy (hv : h.Fits members v.ty v.data) :
    Sound members h (deepCopy v) (IsCopy members v) :=
  sound_deepCopyWithin (h.blocks.size + 1) hv

end HeapM

end Copies

namespace OperatorM

variable {α β : Type} {members : String → List Ty} {h : Heap}

/-- With the standard limits, the computation leaves the heap as it is and answers as `post`
says. -/
structure Reads (h : Heap) (x : OperatorM α) (post : α → Prop) : Prop where
  run : ∀ ctx : OperatorContext, ctx.numerics.limits.Standard →
    match x ctx h with
    | .ok a h' => h' = h ∧ post a
    | .error _ h' => h' = h

namespace Reads

variable {x y : OperatorM α} {f : α → OperatorM β} {post : α → Prop} {post' : β → Prop}

theorem pure {a : α} (hp : post a) : Reads h (pure a) post := ⟨fun _ _ => ⟨rfl, hp⟩⟩

theorem throw (fault : Fault) : Reads h (throw fault : OperatorM α) post := ⟨fun _ _ => rfl⟩

theorem fail (cause : OperatorFault) : Reads h (fail cause : OperatorM α) post := ⟨fun _ _ => rfl⟩

theorem unsupported (op : Operator) (l : Value) (r : Option Value) :
    Reads h (unsupported op l r : OperatorM α) post := .fail _

theorem bind (hx : Reads h x post) (hf : ∀ a, post a → Reads h (f a) post') :
    Reads h (x >>= f) post' := by
  refine ⟨fun ctx hctx => ?_⟩
  have hx := hx.run ctx hctx
  simp only [Bind.bind, ReaderT.bind, EStateM.bind]
  revert hx
  cases x ctx h with
  | error e h' => exact id
  | ok a h' =>
    rintro ⟨rfl, hp⟩
    exact (hf a hp).run ctx hctx

theorem mono {post' : α → Prop} (hx : Reads h x post) (hp : ∀ a, post a → post' a) :
    Reads h x post' := by
  refine ⟨fun ctx hctx => ?_⟩
  have hx := hx.run ctx hctx
  revert hx
  cases x ctx h with
  | ok a h' => exact fun ⟨hh, ha⟩ => ⟨hh, hp a ha⟩
  | error => exact id

theorem ite {c : Prop} [Decidable c] (hx : c → Reads h x post) (hy : ¬ c → Reads h y post) :
    Reads h (if c then x else y) post := by
  split
  · exact hx ‹_›
  · exact hy ‹_›

/-- A check that may end the computation. -/
theorem check {c : Prop} [Decidable c] {stop : OperatorM PUnit} {rest : PUnit → OperatorM α}
    (hstop : Reads h stop fun _ => False) (hr : ¬ c → Reads h (rest ⟨⟩) post) :
    Reads h (if c then stop >>= rest else rest ⟨⟩) post :=
  .ite (fun _ => .bind hstop fun _ hfalse => hfalse.elim) hr

theorem get_bind {f : Heap → OperatorM β} (hf : Reads h (f h) post') :
    Reads h (get >>= f) post' := ⟨hf.run⟩

theorem read_bind {f : OperatorContext → OperatorM β}
    (hf : ∀ ctx, ctx.numerics.limits.Standard → Reads h (f ctx) post') :
    Reads h (read >>= f) post' := ⟨fun ctx hctx => (hf ctx hctx).run ctx hctx⟩

theorem ofExcept {x : Except OperatorFault α} (hx : ∀ a, x = .ok a → post a) :
    Reads h (ofExcept x) post := by
  cases x with
  | ok a => exact .pure (hx a rfl)
  | error cause => exact .fail cause

end Reads

section Basic

variable (v l : Value) (r : Option Value)

theorem reads_load? (p : Place) : Reads h (load? p) fun found => found = h.load? p :=
  .get_bind (.pure rfl)

theorem reads_text : Reads h (text v) fun _ => True := .get_bind (.pure trivial)

theorem reads_place : Reads h (place l) fun p => l.place = some p := by
  unfold place
  split
  · exact .pure ‹_›
  · exact .bind (reads_text l) fun _ _ => .fail _

theorem reads_checkWritable : Reads h (checkWritable l) fun _ => True :=
  .bind (.bind (reads_place l) fun _ _ => .pure trivial) fun _ (_ : True) =>
    .ite (fun _ => .bind (reads_text l) fun _ _ => .fail _) fun _ => .pure trivial

theorem reads_operand (op : Operator) : Reads h (operand op l r) fun v => r = some v := by
  cases r with
  | some v => exact .pure rfl
  | none => exact .unsupported op l none

end Basic

end OperatorM

namespace Heap

variable {members : String → List Ty} {h : Heap}

/-- What is loaded from a well-formed heap is an operand. -/
theorem WellFormed.load? (hw : h.WellFormed members) {p : Place} {v : Value}
    (hv : h.load? p = some v) : h.Holds members v := by
  have hload := hv
  obtain ⟨cell, hc, rfl⟩ := Option.map_eq_some_iff.mp hv
  refine ⟨hw p.block cell (Array.mem_of_getElem? hc), fun q hq => ?_⟩
  cases hq
  exact ⟨_, hload, rfl⟩

theorem Holds.rvalue {v : Value} (hv : h.Holds members v) : h.Holds members v.rvalue :=
  ⟨hv.fits, nofun⟩

end Heap

namespace OperatorM

variable {members : String → List Ty} {h : Heap}

section Convert

variable {v : Value} {target : Ty} {k : ArithKind} {explicit : Bool}

theorem fits_null (hty : target.isPointer = true) : h.Fits members target (.null target) := by
  cases target <;> first | exact .pointer rfl rfl | cases hty

theorem reads_converts (a b : Ty) : Reads h (converts a b) fun _ => True :=
  .read_bind fun _ _ => .pure trivial

theorem reads_number (x : Number) :
    Reads h (number k x) fun w => h.Holds members w ∧ w.ty = .arith k := by
  refine .read_bind fun ctx hctx => .ofExcept fun w hw => ?_
  refine ⟨Numerics.holds_of_value hctx hw, ?_⟩
  obtain ⟨d, -, hd⟩ := exists_of_bind_eq_ok hw
  cases hd
  rfl

theorem reads_cannotConvert {post : Value → Prop} : Reads h (cannotConvert v target) post :=
  .bind (reads_text v) fun _ _ => .fail _

/-- A conversion comes to a value of its target. -/
def Converted (members : String → List Ty) (h : Heap) (target : Ty) (w : Value) : Prop :=
  h.Holds members w ∧ w.ty.named = target.named

theorem reads_convertPointer (hty : target.isPointer = true) :
    Reads h (convertPointer v target explicit) (Converted members h target) := by
  have hnull : Converted members h target (.null target) := ⟨.fresh (fits_null hty), rfl⟩
  have hno : Reads h (cannotConvert v target) (Converted members h target) := reads_cannotConvert
  unfold convertPointer
  split
  case h_2 | h_3 =>
    extract_lets rest
    have hrest (compatible : Bool) :
        Reads h (rest compatible) (Converted members h target) := by
      refine .ite (fun _ => .pure ⟨.fresh (.pointer hty ?_), rfl⟩) fun _ => hno
      simp_all [Data.isPointer]
    refine .ite (fun _ => ?_) fun _ => ?_
    · exact .bind (.pure trivial) fun b (_ : True) => hrest b
    · exact .bind (reads_converts v.ty target) fun b _ => hrest b
  case h_4 => exact .ite (fun _ => .pure hnull) fun _ => hno
  all_goals exact hno

theorem reads_convertFunctionPointer (hty : target.isPointer = true) :
    Reads h (convertFunctionPointer v target) (Converted members h target) := by
  have hnull : Converted members h target (.null target) := ⟨.fresh (fits_null hty), rfl⟩
  have hno : Reads h (cannotConvert v target) (Converted members h target) := reads_cannotConvert
  unfold convertFunctionPointer
  split
  · exact .pure ⟨.fresh (.pointer hty rfl), rfl⟩
  · exact .pure ⟨.fresh (.pointer hty rfl), rfl⟩
  case h_3 | h_4 | h_5 => exact .ite (fun _ => .pure hnull) fun _ => hno
  · exact hno

theorem reads_convertArith :
    Reads h (convertArith v k explicit) (Converted members h (.arith k)) := by
  have hno : Reads h (cannotConvert v (.arith k)) (Converted members h (.arith k)) :=
    reads_cannotConvert
  have hnumber (x : Number) : Reads h (number k x) (Converted members h (.arith k)) :=
    (reads_number x).mono fun w hw => ⟨hw.1, congrArg Ty.named hw.2⟩
  unfold convertArith
  split
  · exact hnumber _
  · refine .ite (fun hc => .pure ⟨Heap.holds_bool _, ?_⟩) fun _ =>
      .ite (fun _ => hnumber _) fun _ => hno
    simp_all [Value.bool, Value.int, Value.fresh]

theorem reads_convert (hv : h.Holds members v) :
    Reads h (convert v target explicit) (Converted members h target) := by
  have hno : Reads h (cannotConvert v target) (Converted members h target) := reads_cannotConvert
  refine .ite (fun hty => .pure ⟨hv.rvalue, Ty.beq_iff_named.mp hty⟩) fun _ => ?_
  cases target with
  | void => exact .pure ⟨.fresh .void, rfl⟩
  | arith k => exact reads_convertArith
  | pointer _ _ => exact reads_convertPointer rfl
  | array _ _ => exact reads_convertPointer rfl
  | functionPointer _ => exact reads_convertFunctionPointer rfl
  | function _ =>
    dsimp only
    split
    · rename_i hd
      exact .pure ⟨.fresh (hd ▸ .function), rfl⟩
    · exact hno
  | struct _ _ => exact hno
  | marker => exact hno

end Convert

end OperatorM

end Stepwise

/-! ## Pointers in well-formed heaps

A pointer may have been converted to point to any type. What is read through it is a cell
with the type that the cell has, so the answer is well formed all the same.
-/

namespace Stepwise

theorem Ty.isPointer_pointerTo (t : Ty) : t.pointerTo.isPointer = true := by cases t <;> rfl

theorem Ty.isPointer_constPointerTo (t : Ty) : t.constPointerTo.isPointer = true := rfl

namespace OperatorM

variable {members : String → List Ty} {h : Heap} {l n v : Value} {r : Option Value}

theorem isPointer_movedType {t : Ty} (ht : t.isPointer = true) :
    (movedType t).isPointer = true := by
  cases t <;> first | exact Ty.isPointer_pointerTo _ | exact ht

/-- The type of a value with the payload of a data pointer. -/
theorem isPointer_of_fits {t : Ty} {d : Data} (hf : h.Fits members t d) (hd : d.isPointer = true) :
    t.isPointer = true := by
  cases hf <;> assumption

theorem reads_position (i : Int) : Reads h (position i) fun j => j = i :=
  .ite (fun _ => .pure rfl) fun _ => .fail _

theorem reads_addressOf : Reads h (addressOf l r) (h.Holds members) := by
  unfold addressOf
  refine .check (.unsupported _ l r) fun _ => ?_
  refine .bind (reads_place l) fun p _ => ?_
  have hty : (if l.readonly then l.ty.constPointerTo else l.ty.pointerTo).isPointer = true := by
    split
    · exact Ty.isPointer_constPointerTo l.ty
    · exact Ty.isPointer_pointerTo l.ty
  dsimp only
  split
  · exact .bind (reads_position _) fun _ _ => .pure (.fresh (.pointer hty rfl))
  · exact .pure (.fresh (.pointer hty rfl))

theorem reads_element (hw : h.WellFormed members) (store : BlockId) (i : Int) :
    Reads h (element store i) (h.Holds members) := by
  unfold element
  extract_lets rest
  have hrest (found : Option Value) (hf : ∀ v, found = some v → h.Holds members v) :
      Reads h (rest found) (h.Holds members) := by
    cases found with
    | some v => exact .pure (hf v rfl)
    | none => exact .get_bind (.fail _)
  split
  · exact .bind (reads_load? _) fun found hf => hrest found fun v hv => hw.load? (hf ▸ hv)
  · exact .bind (.pure rfl) fun found hf => hrest found fun v hv => nomatch hf.trans hv

theorem reads_deref (hw : h.WellFormed members) : Reads h (deref l r) (h.Holds members) := by
  have hno : Reads h (unsupported .deref l none : OperatorM Value) (h.Holds members) :=
    .unsupported _ l none
  unfold deref
  refine .check (.fail _) fun _ => ?_
  dsimp only
  split
  · refine .bind (reads_load? _) fun found hf => ?_
    cases found with
    | some v => exact .pure (hw.load? hf.symm)
    | none => exact .fail _
  · exact reads_element hw _ _
  · split
    · exact .pure (.fresh .function)
    · exact hno
  · exact .fail _
  · exact .fail _
  · exact .fail _
  · exact hno

theorem reads_offset (hl : h.Holds members l) (sign : Int) :
    Reads h (offset l n sign) (h.Holds members) := by
  have hty (hd : l.data.isPointer = true) := isPointer_of_fits hl.fits hd
  unfold offset
  extract_lets rest
  have hrest (delta : Int) : Reads h (rest delta) (h.Holds members) := by
    dsimp only [rest]
    split
    · rename_i hd
      have hm := isPointer_movedType (hty (by rw [hd]; rfl))
      exact .bind (reads_position _) fun _ _ => .pure (.fresh (.pointer hm rfl))
    · rename_i hd
      have hp := hty (by rw [hd]; rfl)
      refine .bind (reads_position _) fun _ _ => ?_
      exact .bind (reads_position _) fun _ _ => .pure (.fresh (.pointer hp rfl))
    · exact .ite (fun _ => .pure hl.rvalue) fun _ => .fail _
    · exact .fail _
  split
  · refine .ite (fun _ => ?_) fun _ => ?_
    · exact .bind (reads_position _) fun delta _ => hrest delta
    · exact .bind (.fail _) fun delta (_ : False) => hrest delta
  · exact .bind (.fail _) fun delta (_ : False) => hrest delta

theorem reads_index (hw : h.WellFormed members) (hl : h.Holds members l) :
    Reads h (index l r) (h.Holds members) := by
  refine .bind (reads_operand l r _) fun n _ => ?_
  exact .bind (reads_offset hl 1) fun moved _ => reads_deref hw

theorem reads_equal : Reads h (equal l n) fun _ => True := by
  have htrue (b : Bool) : Reads h (pure b : OperatorM Bool) fun _ => True := .pure trivial
  unfold equal
  refine .ite (fun _ => .unsupported _ _ _) fun _ => .ite (fun _ => ?_) fun _ => ?_
  · exact .ite (fun _ => htrue _) fun _ => .unsupported _ _ _
  refine .ite (fun _ => htrue _) fun _ => .ite (fun _ => htrue _) fun _ => ?_
  split
  · exact htrue _
  · exact htrue _
  · split <;> exact htrue _

theorem reads_commonPositions (across : OperatorFault) :
    Reads h (commonPositions l n across) fun _ => True := by
  unfold commonPositions
  split
  · exact .ite (fun _ => .pure trivial) fun _ => .fail _
  · exact .fail _

theorem reads_pointerBinary (hl : h.Holds members l) (op : BinaryOp) :
    Reads h (pointerBinary op l r) (h.Holds members) := by
  refine .bind (reads_operand l r _) fun n _ => ?_
  have hcompare : Reads h (commonPositions l n .compareAcrossArrays >>= fun p =>
      return Value.bool (Number.test op (some (compare p.1 p.2)))) (h.Holds members) :=
    .bind (reads_commonPositions _) fun _ _ => .pure (Heap.holds_bool _)
  cases op with
  | add => exact reads_offset hl 1
  | sub =>
    refine .ite (fun _ => reads_offset hl (-1)) fun _ => ?_
    exact .bind (reads_commonPositions _) fun _ _ => (reads_number _).mono fun _ hw => hw.1
  | eq => exact .bind reads_equal fun _ _ => .pure (Heap.holds_bool _)
  | ne => exact .bind reads_equal fun _ _ => .pure (Heap.holds_bool _)
  | lt => exact hcompare
  | le => exact hcompare
  | gt => exact hcompare
  | ge => exact hcompare
  | _ => exact .unsupported _ l _

end OperatorM

end Stepwise
