import Stepwise.Proofs.Copies.Ownership
import Stepwise.Proofs.Operator.Payloads

/-! # Separate objects

A copy has no block in common with the original. What is written to parts of the one changes no
part of the other, and leaves them separate: cells of numbers and of pointers own nothing, and a
struct that is assigned to gets blocks of its own.
-/

namespace Stepwise

open Value

theorem Ty.isArray_named (t : Ty) : t.named.isArray = t.isArray := by cases t <;> rfl

/-- A payload that is not that of a struct, with a type that is not that of an array, owns
nothing. -/
theorem Value.block?_of_simple {v : Value} (hd : v.data.Simple) (hty : v.ty.isArray = false) :
    v.block? = none := by
  unfold Value.block?
  cases hv : v.data with
  | struct b => exact absurd hv (hd b)
  | array => simp [hty]
  | _ => rfl

namespace OperatorM

open Heap

variable {α : Type} {h : Heap} {l : Value} {r : Option Value}

/-- The computation renews the heap. -/
def Renewing (h : Heap) (x : OperatorM α) : Prop := h.Closed → h.Founded →
  ∀ ctx a h', x ctx h = .ok a h' → h.Renews h'

namespace Renewing

theorem pure (a : α) : Renewing h (pure a : OperatorM α) := by
  rintro hc hf ctx a' h' ⟨⟩
  exact .refl hc hf

theorem fail (cause : OperatorFault) : Renewing h (fail cause : OperatorM α) :=
  fun _ _ _ _ _ hx => nomatch hx

theorem fail_bind {β : Type} (cause : OperatorFault) (f : β → OperatorM α) :
    Renewing h (OperatorM.fail cause >>= f) := fun _ _ _ _ _ hx => nomatch hx

theorem ite {p : Prop} [Decidable p] {x y : OperatorM α} (hx : Renewing h x) (hy : Renewing h y) :
    Renewing h (if p then x else y) := by
  split
  · exact hx
  · exact hy

/-- Nothing is changed before. -/
theorem after {β : Type} {x : OperatorM α} {f : α → OperatorM β} {post : α → Prop}
    (hx : Gives h x post) (hf : ∀ a, post a → Renewing h (f a)) : Renewing h (x >>= f) := by
  intro hc hf' ctx b h' hb
  simp only [Bind.bind, ReaderT.bind, EStateM.bind] at hb
  split at hb
  · obtain ⟨rfl, ha⟩ := hx ctx _ _ ‹_›
    exact hf _ ha hc hf' ctx b h' hb
  · cases hb

theorem read_bind {f : OperatorContext → OperatorM α} (hf : ∀ ctx, Renewing h (f ctx)) :
    Renewing h (read >>= f) := fun hc hf' ctx => hf ctx hc hf' ctx

/-- What is answered with afterwards does not matter. -/
theorem answer {β : Type} {x : OperatorM α} (hx : Renewing h x) (g : α → β) :
    Renewing h (x >>= fun a => Pure.pure (g a)) := by
  intro hc hf ctx b h' hb
  simp only [Bind.bind, ReaderT.bind, EStateM.bind] at hb
  split at hb
  · cases hb
    exact hx hc hf ctx _ _ ‹_›
  · cases hb

/-- A cell takes what owns nothing. -/
theorem write {v : Value} (hv : v.block? = none) : Renewing h (write l v) := by
  intro hc hf ctx a h' hx
  cases hl : l.place with
  | none =>
    unfold OperatorM.write OperatorM.place at hx
    rw [hl] at hx
    cases hx
  | some p =>
    rw [write_apply hl] at hx
    cases hs : h.store? p v with
    | none =>
      rw [hs] at hx
      cases hx
    | some h₁ =>
      obtain ⟨stored, hstored⟩ := load?_of_store? hs
      simp only [hs, hstored] at hx
      cases hx
      exact .store? hc hf hv hs

theorem checked {f : PUnit → OperatorM α} (hf : ∀ u, Renewing h (f u)) :
    Renewing h (checkWritable l >>= f) :=
  .after (.of_leaves (reading_leaves.checkWritable l)) fun u _ => hf u

section Assign

variable (hr : ∀ v, r = some v → v.Regular)

include hr

theorem operand {f : Value → OperatorM α} (hf : ∀ v : Value, v.Regular → Renewing h (f v)) :
    Renewing h (OperatorM.operand .assign l r >>= f) := by
  cases r with
  | none => exact fun _ _ _ _ _ hx => nomatch hx
  | some v => exact hf v (hr v rfl)

omit hr in
/-- A cell that is neither that of an array nor that of a struct takes a value of its type. -/
theorem writeConverted {v : Value} (hv : v.Regular) (ha : l.ty.isArray = false)
    (hs : ∀ name ms, l.ty ≠ .struct name ms) :
    Renewing h (convert v l.ty false >>= fun v => OperatorM.write l v) := by
  intro hc hf
  have hgives : Gives h (convert v l.ty false) fun w => w.block? = none := by
    intro ctx w h' hw
    obtain ⟨hh, hderived⟩ := Gives.simple_convert hv hs false ctx w h' hw
    obtain ⟨-, hconverted⟩ := Gives.convert v false ctx w h' hw
    refine ⟨hh, block?_of_simple hderived.payload ?_⟩
    rw [← Ty.isArray_named, hconverted.type, Ty.isArray_named, ha]
  exact Renewing.after hgives (fun w hw => write hw) hc hf

theorem assignNumber {k : ArithKind} (hl : l.ty = .arith k) : Renewing h (assignNumber l r) :=
  operand hr fun v hv => checked fun _ =>
    writeConverted hv (by rw [hl]; rfl) (by rw [hl]; exact nofun)

theorem assignPointer (hl : l.ty.isPointer = true) : Renewing h (assignPointer l r) := by
  refine operand hr fun v hv => checked fun _ => ?_
  split
  · exact fail_bind _ _
  · refine writeConverted hv (Bool.eq_false_iff.mpr ‹_›) fun name ms hty => ?_
    rw [hty] at hl
    cases hl

theorem assignStruct (hl : h.Covers l) : Renewing h (assignStruct l r) := by
  have hno (v : Value) : Renewing h (unsupported .assign l (some v) : OperatorM Value) := .fail _
  refine operand hr fun v _ => checked fun _ => ?_
  split
  · rename_i target _ _ _ _ hd _ _
    refine .ite (hno v) (.ite (.pure l) (.answer ?_ _))
    exact fun hc hf ctx _ _ => renews_copyMembers hc hf (hl target (by rw [Value.block?, hd]))
  · exact hno v

end Assign

theorem stepNumber (increment : Bool) : Renewing h (stepNumber l r increment) := by
  unfold OperatorM.stepNumber
  split
  · refine checked fun _ => .after (.of_leaves reading_leaves.get) fun heap _ => ?_
    refine read_bind fun ctx => .after (.ofExcept fun d => Numerics.number_of_step) fun d hd => ?_
    refine .answer (write ?_) _
    exact block?_of_simple (Data.simple_number hd) rfl
  · exact .fail _

theorem stepPointer (increment : Bool) : Renewing h (stepPointer l r increment) := by
  refine checked fun _ => ?_
  split
  · dsimp only
    by_cases hl : l.ty.isArray = true
    · rw [if_pos hl]
      exact fail_bind _ _
    · rw [if_neg hl]
      refine .after (.position _) fun moved _ => .answer (write ?_) _
      exact if_neg hl
  · exact .fail _

end Renewing

end OperatorM

namespace Operator

open OperatorM Heap

variable {op : Operator} {h : Heap} {l : Value} {r : Option Value}

theorem renewing_applyOwn (hop : op.writes = true) (hl : h.Covers l)
    (hr : ∀ v, r = some v → v.Regular) : Renewing h (applyOwn op l r) := by
  unfold applyOwn
  split
  · rename_i f hf
    have hpointer (hl : l.ty.isPointer = true) (hf : op.ofPointer? = some f) :
        Renewing h (f l r) := by
      cases op with
      | assign => cases hf; exact .assignPointer hr hl
      | inc | dec => cases hf; exact .stepPointer _
      | compound => cases hf
      | _ => cases hop
    cases hty : l.ty <;> rw [hty] at hf
    case arith =>
      cases op with
      | assign => cases hf; exact .assignNumber hr hty
      | inc | dec => cases hf; exact .stepNumber _
      | compound => cases hf
      | _ => cases hop
    case pointer | array | functionPointer => exact hpointer (by rw [hty]; rfl) hf
    case struct =>
      cases op with
      | assign => cases hf; exact .assignStruct hr hl
      | inc | dec | compound => cases hf
      | _ => cases hop
    all_goals cases op <;> cases hop <;> cases hf
  · exact .fail _

/-- An operator that writes renews the heap. -/
theorem renewing_apply (hop : op.writes = true) (hl : h.Covers l)
    (hr : ∀ v, r = some v → v.Regular) : Renewing h (op.apply l r) := by
  cases op with
  | compound op =>
    rw [apply_compound, apply_binary]
    refine .after (simple_applyOwn op l r) fun v hv => ?_
    rw [apply_assign]
    refine renewing_applyOwn rfl hl fun w hw => ?_
    cases hw
    exact .inl hv.payload
  | _ =>
    rw [apply_eq_applyOwn r]
    · exact renewing_applyOwn hop hl hr
    · nofun

end Operator

namespace Heap

variable {h h' : Heap} {v w l x : Value} {op : Operator} {r : Option Value} {ctx : OperatorContext}
  {name : String} {target source b : BlockId} {i : Nat} {path : List Nat}

/-- What comes of the heap when parts of an object are written to, one after the other. -/
inductive Rewrites (w : Value) (h : Heap) : Heap → Prop
  | nothing : Rewrites w h h
  | write {h' h'' : Heap} {op : Operator} {l x : Value} {r : Option Value} {path : List Nat}
      {ctx : OperatorContext} (before : Rewrites w h h') (part : h'.part? w path = some l)
      (writes : op.writes = true) (regular : ∀ v, r = some v → v.Regular)
      (apply : op.apply l r ctx h' = .ok x h'') : Rewrites w h h''

/-- The objects own no block in common, however deep, and nothing owns blocks without end. -/
structure Separate (h : Heap) (v w : Value) : Prop where
  closed : h.Closed
  founded : h.Founded
  covers : h.Covers v ∧ h.Covers w
  apart : ∀ path path' b, h.partBlock? v path = some b → h.partBlock? w path' ≠ some b

theorem Separate.symm (hs : h.Separate v w) : h.Separate w v where
  closed := hs.closed
  founded := hs.founded
  covers := hs.covers.symm
  apart path path' b hw hv := hs.apart path' path b hv hw

/-- What is touched by writing to a part of a struct is in a block of the struct. -/
theorem partBlock?_of_touches (hw : w.IsStruct name source) (hl : h.part? w path = some l)
    (ht : op.Touches l b i) : ∃ path', h.partBlock? w path' = some b := by
  have hcell {role : PlaceRole} (hp : l.place = some ⟨role, b, i⟩)
      (hty : ∀ ms, l.ty ≠ .struct name ms) : ∃ path', h.partBlock? w path' = some b := by
    rcases path.eq_nil_or_concat' with rfl | ⟨path, j, rfl⟩
    · cases hl
      obtain ⟨ms, hms⟩ := hw.type
      exact absurd hms (hty ms)
    · exact ⟨path, (partBlock?_of_concat hl hp).1⟩
  obtain ⟨-, ht⟩ := ht
  cases hty : l.ty <;> rw [hty] at ht hcell <;> try exact ht.elim
  case struct =>
    refine ⟨path, ?_⟩
    rw [partBlock?, hl, Option.bind_some, Value.block?, ht.2]
  all_goals
    obtain ⟨role, hp⟩ := ht
    refine hcell hp ?_
    rintro ms ⟨⟩

/-- What is written to a part of the one object leaves the other one as it was, and apart from
it. -/
theorem Separate.apply (hs : h.Separate v w) (hw : w.IsStruct name source)
    (hl : h.part? w path = some l) (hop : op.writes = true) (hr : ∀ v, r = some v → v.Regular)
    (hx : op.apply l r ctx h = .ok x h') :
    (∀ path, h'.part? v path = h.part? v path) ∧ h'.Separate v w := by
  have hcovers : h.Covers l := fun b hb =>
    have hblock : h.partBlock? w path = some b := by rw [partBlock?, hl]; exact hb
    hs.closed.partBlock?_lt hs.covers.2 hblock
  have hrenews := op.renewing_apply hop hcovers hr hs.closed hs.founded ctx x h' hx
  have hatomic : (op.apply l r).Atomic (op.Touches l) := op.atomic_apply r
  have hsame := hatomic ctx h
  rw [hx] at hsame
  have hspared : h.Spared (op.Touches l) v := by
    intro path b i hb ht
    obtain ⟨path', hb'⟩ := partBlock?_of_touches hw hl ht
    exact hs.apart path path' b hb hb'
  refine ⟨part?_of_sameBut hsame hs.closed hs.covers.1 hspared, hrenews.closed, hrenews.founded,
    ⟨hs.covers.1.mono hsame, hs.covers.2.mono hsame⟩, fun path path' b hv hb => ?_⟩
  rw [partBlock?_of_sameBut hsame hs.closed hs.covers.1 hspared] at hv
  -- A block of the object that was written to was one before, or it is new.
  have hblocks := of_partBlock?
    (P := fun s => (∃ path, h.partBlock? w path = some s) ∨ h.blocks.size ≤ s)
    (fun s hs => .inl ⟨[], hs⟩) (fun s hs' cell hcell s' hcs => ?_) hb
  · rcases hblocks with ⟨path', hb'⟩ | hle
    · exact hs.apart path path' b hv hb'
    · exact Nat.not_le_of_lt (hs.closed.partBlock?_lt hs.covers.1 hv) hle
  · rcases hrenews.owned s s' ⟨cell, hcell, hcs⟩ with ho | hle
    · rcases hs' with ⟨path', hb'⟩ | hle
      · obtain ⟨i, hi⟩ := partBlock?_of_owns hb' ho
        exact .inl ⟨_, hi⟩
      · exact absurd ho.lt_size (Nat.not_lt_of_le hle)
    · exact .inr hle

/-- However often parts of the one object are written to, the other one stays as it was. -/
theorem Separate.rewrites (hs : h.Separate v w) (hw : w.IsStruct name source)
    (hr : Rewrites w h h') : (∀ path, h'.part? v path = h.part? v path) ∧ h'.Separate v w := by
  induction hr with
  | nothing => exact ⟨fun _ => rfl, hs⟩
  | write _ part writes regular apply ih =>
    obtain ⟨hparts, hs'⟩ := ih
    obtain ⟨hparts', hs''⟩ := hs'.apply hw part writes regular apply
    exact ⟨fun path => (hparts' path).trans (hparts path), hs''⟩

/-- In the second heap, an object is an independent copy of the one that was there in the first heap
and still is: its parts have the same payloads, the two own no block in common, and whatever is
written to parts of either, the parts of the other one stay as they are. -/
structure Independent (h : Heap) (v : Value) (h' : Heap) (w : Value) : Prop where
  type : w.ty.named = v.ty.named
  payloads : ∀ path ≠ [], (h'.part? w path).map payload = (h.part? v path).map payload
  original : ∀ path, h'.part? v path = h.part? v path
  separate : h'.Separate v w
  copyWritten : ∀ h'', Rewrites w h' h'' → ∀ path, h''.part? v path = h'.part? v path
  originalWritten : ∀ h'', Rewrites v h' h'' → ∀ path, h''.part? w path = h'.part? w path

theorem Independent.of_separate (hv : v.IsStruct name source) (hw : w.IsStruct name target)
    (hp : ∀ path ≠ [], (h'.part? w path).map payload = (h.part? v path).map payload)
    (ho : ∀ path, h'.part? v path = h.part? v path) (hs : h'.Separate v w) :
    Independent h v h' w where
  type := by
    obtain ⟨ms, hv⟩ := hv.type
    obtain ⟨ms', hw⟩ := hw.type
    rw [hv, hw]
    rfl
  payloads := hp
  original := ho
  separate := hs
  copyWritten _ hr := (hs.rewrites hw hr).1
  originalWritten _ hr := (hs.symm.rewrites hv hr).1

theorem map_payload {x y : Option Value} (hxy : x.map contents = y.map contents) :
    x.map payload = y.map payload := by
  have hpayload := congrArg (Option.map (withReadonly · false)) hxy
  rwa [Option.map_map, Option.map_map] at hpayload

section Copied

variable (hv : v.IsStruct name source) (hc : h.Closed) (hf : h.Founded) (hcov : h.Covers v)

include hv

theorem isStruct_deepCopy (h : Heap) :
    ∃ target, ((HeapM.deepCopy v).run h).1.IsStruct name target := by
  obtain ⟨hty, hd⟩ := hv
  have hcopy (h : Heap) (n : Nat) :
      ∃ target, ((HeapM.deepCopyWithin (n + 1) v).run h).1.IsStruct name target := by
    unfold HeapM.deepCopyWithin
    simp only [hd]
    exact ⟨_, hty, rfl⟩
  exact hcopy h h.blocks.size

include hc hf hcov

/-- A copy that goes down to the last parts is independent. -/
theorem Copies.independent (hw : w.IsStruct name target)
    (hcopies : Copies (h.blocks.size + 1) h v h' w) (hgrows : h.GrowsTo h')
    (hrenews : h.Renews h') : Independent h v h' w := by
  refine .of_separate hv hw (fun path hp => map_payload (hcopies.parts path hp))
    (part?_of_sameBut hgrows hc hcov .nothing) ⟨hrenews.closed, hrenews.founded,
      ⟨hcov.mono hgrows, hcopies.covers⟩, fun path path' b hvb hwb => ?_⟩
  rw [partBlock?_of_sameBut hgrows hc hcov .nothing] at hvb
  have hfresh := hcopies.fresh hf.grounded hc hcov (Nat.le_succ _) hwb
  exact Nat.not_le_of_lt (hc.partBlock?_lt hcov hvb) hfresh

/-- A deep copy is independent. -/
theorem independent_deepCopy :
    Independent h v ((HeapM.deepCopy v).run h).2 ((HeapM.deepCopy v).run h).1 := by
  obtain ⟨target, hw⟩ := isStruct_deepCopy hv h
  have hone := HeapM.duplicates_deepCopy hc hcov
  exact hone.copies.independent hv hc hf hcov hw hone.grows (HeapM.renews_deepCopy hc hf hcov)

/-- What is initialized with a struct is an independent copy. -/
theorem independent_copy (ctx : OperatorContext) :
    ∃ w h', OperatorM.copy v v.ty ctx h = .ok w h' ∧ Independent h v h' w := by
  obtain ⟨ms, hty⟩ := hv.type
  have hr : v.rvalue.IsStruct name source := ⟨⟨ms, hty⟩, hv.data⟩
  obtain ⟨target, hw⟩ := isStruct_deepCopy hr h
  have hone := HeapM.duplicates_deepCopy (v := v.rvalue) hc hcov
  have hrenews := HeapM.renews_deepCopy (v := v.rvalue) hc hf hcov
  have hcopy : OperatorM.copy v v.ty ctx h =
      .ok ((HeapM.deepCopy v.rvalue).run h).1 ((HeapM.deepCopy v.rvalue).run h).2 := by
    have hrty : v.rvalue.ty = .struct name ms := hty
    unfold OperatorM.copy OperatorM.convert
    rw [if_pos (Ty.beq_iff_named.mpr rfl)]
    simp only [pure_bind, hrty]
    rfl
  exact ⟨_, _, hcopy, hone.copies.of_rvalue.independent hv hc hf hcov hw hone.grows hrenews⟩

omit hc hcov in
/-- A struct that is assigned to is an independent copy of the other one. -/
theorem independent_assign (ha : h.Assignable name l v target source) (hne : target ≠ source)
    (ctx : OperatorContext) :
    ∃ h', Operator.assign.apply l (some v) ctx h = .ok l h' ∧ Independent h v h' l := by
  obtain ⟨h', hassign, hs⟩ := Operator.assign_struct ha ctx
  rw [if_neg hne] at hs
  have hregular (w : Value) (hw : some v = some w) : w.Regular := by
    cases hw
    exact .inr ⟨name, hv.type⟩
  have hrenews := Operator.renewing_apply rfl ha.covers.1 hregular ha.closed hf ctx l h' hassign
  have hspared := (ha.apart hne).spared
  refine ⟨h', hassign, .of_separate hv ha.left (fun path => hs.payloads ha)
    (part?_of_sameBut hs.same ha.closed ha.covers.2 hspared) ⟨hrenews.closed, hrenews.founded,
      ⟨ha.covers.2.mono hs.same, ha.covers.1.mono hs.same⟩, fun path path' b hvb hlb => ?_⟩⟩
  rw [partBlock?_of_sameBut hs.same ha.closed ha.covers.2 hspared] at hvb
  by_cases hp : path' = []
  · subst hp
    cases ha.left.block?.symm.trans hlb
    exact ha.apart hne path hvb
  · have hfresh := hs.fresh ha hf.grounded hp hlb
    exact Nat.not_le_of_lt (ha.closed.partBlock?_lt ha.covers.2 hvb) hfresh

/-- A struct that is converted to its type, copied as it is, or assigned to another object that is no
part of it, is left beside an independent copy of it. -/
theorem copies_independent (ctx : OperatorContext) :
    (∃ w h', OperatorM.copy v v.ty ctx h = .ok w h' ∧ Independent h v h' w) ∧
      (let r := (HeapM.deepCopy v).run h; Independent h v r.2 r.1) ∧
      ∀ l target, h.Assignable name l v target source → target ≠ source →
        ∃ h', Operator.assign.apply l (some v) ctx h = .ok l h' ∧ Independent h v h' l :=
  ⟨independent_copy hv hc hf hcov ctx, independent_deepCopy hv hc hf hcov,
    fun _ _ ha hne => independent_assign hv hf ha hne ctx⟩

end Copied

/-- A heap is founded if its blocks own only blocks that were there before them. -/
theorem Founded.of_lt (ho : ∀ b, ∀ cell ∈ h.cells b, ∀ s, cell.block? = some s → s < b) :
    h.Founded :=
  Subrelation.wf (fun {s b} hos => by
    obtain ⟨cell, hcell, hs⟩ := hos
    exact ho b cell hcell s hs) Nat.lt_wfRel.wf

/-- `S a = b; a.in.v = 3;` where `b.in.v` is `2`. -/
theorem copies_independent_nested :
    let ctx : OperatorContext := ⟨{}, [], none⟩
    let h := Operator.nestedObjects
    let b : Value := { ty := .struct "S" [], data := .struct 4, place := some (.slot 5) }
    let r := (HeapM.deepCopy b).run h
    let member (h : Heap) (v : Value) : Option Int := (h.part? v [0, 0]).bind Value.int?
    h.Closed ∧ h.Founded ∧ h.Covers b ∧ Independent h b r.2 r.1 ∧
      (r.2.part? r.1 [0, 0]).any fun l =>
        match Operator.assign.apply l (some (.int .int 3)) ctx r.2 with
        | .ok _ h' => member h' r.1 == some 3 && member h' b == some 2
        | .error .. => false := by
  intro ctx h b r member
  have hclosed : h.Closed := by decide
  have hfounded : h.Founded := .of_lt (forall_cells.mpr (by decide))
  have hcovers : h.Covers b := by decide
  have hb : b.IsStruct "S" 4 := ⟨⟨[], rfl⟩, rfl⟩
  obtain ⟨-, hr, -⟩ := copies_independent hb hclosed hfounded hcovers ctx
  exact ⟨hclosed, hfounded, hcovers, hr, by decide +kernel⟩

/-- An object that is assigned to itself is not copied, so that what is written to it is written to
both operands of the assignment. A struct that got another member after the left object was made is
assigned without that member. -/
theorem assign_shared :
    let ctx : OperatorContext := ⟨{}, [], none⟩
    let struct (store slot : BlockId) : Value :=
      { ty := .struct "S" [], data := .struct store, place := some (.slot slot) }
    let h : Heap := ⟨#[#[.int .int 1], #[struct 0 1], #[.int .int 2, .int .int 3], #[struct 2 3]]⟩
    let a := struct 0 1
    let b := struct 2 3
    (Operator.assign.apply a (some a) ctx h = .ok a h ∧
      ∃ h', Rewrites a h h' ∧ (h.part? a [0]).bind Value.int? = some 1 ∧
        (h'.part? a [0]).bind Value.int? = some 2) ∧
      (h.part? b [1]).bind Value.int? = some 3 ∧
      (match Operator.assign.apply a (some b) ctx h with
        | .ok _ h' => (h'.part? a [1]).isNone
        | .error .. => false) = true := by
  intro ctx struct h a b
  have hregular (v : Value) (hv : some (Value.int .int 2) = some v) : v.Regular := by
    cases hv
    exact .inl (Data.simple_number rfl)
  let member (n : Int) : Value := { Value.int .int n with place := some (.member 0 0) }
  let written : Heap := ⟨h.blocks.set! 0 #[.int .int 2]⟩
  have hassign : Operator.assign.apply (member 1) (some (.int .int 2)) ctx h =
      .ok (member 2) written := by with_unfolding_all rfl
  have hpart : h.part? a [0] = some (member 1) := rfl
  have hwrite : Rewrites a h written := .write .nothing hpart rfl hregular hassign
  exact ⟨⟨rfl, written, hwrite, rfl, rfl⟩, rfl, by decide +kernel⟩

end Heap

end Stepwise
