import Stepwise.Proofs.Closure.Frames
import Stepwise.Proofs.Operator.Layout

/-! # Results of operators that only read

Most operators leave the heap as it is. A conversion answers with a value of the type that was
asked for, which no cell holds yet; the copy of a struct or of an array is one, too, but it
has storage of its own.
-/

namespace Stepwise

/-- The value is detached from all cells. -/
def Value.Detached (v : Value) : Prop := v.place = none

/-- A value of the type that no cell holds yet. -/
structure Value.Converted (ty : Ty) (v : Value) : Prop where
  detached : v.Detached
  writable : v.readonly = false
  type : v.ty.named = ty.named

theorem Value.Converted.fresh {ty ty' : Ty} (hty : ty'.named = ty.named) (d : Data) :
    (Value.fresh ty' d).Converted ty := ⟨rfl, rfl, hty⟩

/-- A deep copy has the type of the original, and no cell holds it yet. -/
theorem HeapM.converted_deepCopyWithin (bound : Nat) (v : Value) (h : Heap) :
    ((deepCopyWithin bound v).run h).1.Converted v.ty := by
  cases bound with
  | zero => exact ⟨rfl, rfl, rfl⟩
  | succ bound =>
    unfold deepCopyWithin
    extract_lets copyBlock
    split
    · exact ⟨rfl, rfl, rfl⟩
    · split <;> exact ⟨rfl, rfl, rfl⟩
    · exact ⟨rfl, rfl, rfl⟩

namespace OperatorM

variable {α β : Type} {h : Heap}

section Sequences

variable {x : OperatorM α} {f : α → OperatorM β} {ctx : OperatorContext} {h' : Heap}

theorem bind_ok {a : α} (hx : x ctx h = .ok a h') : (x >>= f) ctx h = f a ctx h' := by
  simp only [Bind.bind, ReaderT.bind, EStateM.bind, hx]

theorem bind_error {fault : Fault} (hx : x ctx h = .error fault h') :
    (x >>= f) ctx h = .error fault h' := by
  simp only [Bind.bind, ReaderT.bind, EStateM.bind, hx]

/-- A left value that is no constant may be written. -/
theorem checkWritable_ok {l : Value} {p : Place} (hp : l.place = some p) (hl : l.readonly = false)
    (ctx : OperatorContext) (h : Heap) : checkWritable l ctx h = .ok .unit h := by
  simp only [checkWritable, OperatorM.place, hp, hl]
  rfl

end Sequences

/-- If the computation has a result, it is as `post` says, and the heap is as before. -/
def Gives (h : Heap) (x : OperatorM α) (post : α → Prop) : Prop := ∀ ctx a h',
  x ctx h = .ok a h' → h' = h ∧ post a

namespace Gives

variable {x y : OperatorM α} {f : α → OperatorM β} {post : α → Prop} {post' : β → Prop}

theorem pure {a : α} (hp : post a) : Gives h (pure a) post := by
  rintro ctx a' h' ⟨⟩
  exact ⟨rfl, hp⟩

theorem fail (cause : OperatorFault) : Gives h (fail cause : OperatorM α) post :=
  fun _ _ _ hx => nomatch hx

theorem stop (cause : OperatorFault) : Gives h (OperatorM.fail cause >>= f) post' :=
  fun _ _ _ hx => nomatch hx

theorem bind (hx : Gives h x post) (hf : ∀ a, post a → Gives h (f a) post') :
    Gives h (x >>= f) post' := by
  intro ctx b h' hb
  simp only [Bind.bind, ReaderT.bind, EStateM.bind] at hb
  split at hb
  · obtain ⟨rfl, ha⟩ := hx ctx _ _ ‹_›
    exact hf _ ha ctx b h' hb
  · cases hb

theorem ite {b : Prop} [Decidable b] (hx : Gives h x post) (hy : Gives h y post) :
    Gives h (if b then x else y) post := by
  split
  · exact hx
  · exact hy

theorem read_bind {f : OperatorContext → OperatorM β} (hf : ∀ ctx, Gives h (f ctx) post') :
    Gives h (read >>= f) post' := fun ctx => hf ctx ctx

theorem load? (p : Place) : Gives h (load? p) fun found => found = h.load? p := by
  rintro ctx a h' ⟨⟩
  exact ⟨rfl, rfl⟩

theorem position (i : Int) : Gives h (position i) fun _ => True :=
  ite (pure trivial) (fail _)

theorem operand (op : Operator) (l : Value) (r : Option Value) :
    Gives h (operand op l r) fun _ => True := by
  cases r with
  | some v => exact pure trivial
  | none => exact fail _

section Conversions

variable (v : Value) {target : Ty}

theorem number (k : ArithKind) (x : Number) : Gives h (number k x) (Value.Converted (.arith k)) := by
  refine read_bind fun ctx => ?_
  unfold Numerics.value
  cases ctx.numerics.fit k x with
  | ok d => exact pure (.fresh rfl d)
  | error cause => exact fail cause

theorem cannotConvert (ty : Ty) {post : Value → Prop} : Gives h (cannotConvert v ty) post :=
  fun _ _ _ hx => nomatch hx

theorem converts (a b : Ty) : Gives h (converts a b) fun _ => True := by
  rintro ctx r h' ⟨⟩
  exact ⟨rfl, trivial⟩

theorem null : Gives h (return .null target) (Value.Converted target) := pure (.fresh rfl _)

theorem convertPointer (explicit : Bool) :
    Gives h (convertPointer v target explicit) (Value.Converted target) := by
  have hchecked (compatible : Bool) :
      Gives h (if explicit || compatible then return .fresh target v.data else
        OperatorM.cannotConvert v target) (Value.Converted target) :=
    ite (pure (.fresh rfl _)) (cannotConvert v target)
  unfold OperatorM.convertPointer
  split
  · exact cannotConvert v target
  · exact ite (hchecked true) (bind (converts _ _) fun compatible _ => hchecked compatible)
  · exact ite (hchecked true) (bind (converts _ _) fun compatible _ => hchecked compatible)
  · exact ite null (cannotConvert v target)
  · exact cannotConvert v target

theorem convertFunctionPointer :
    Gives h (convertFunctionPointer v target) (Value.Converted target) := by
  unfold OperatorM.convertFunctionPointer
  split
  · exact pure (.fresh rfl _)
  · exact pure (.fresh rfl _)
  · exact ite null (cannotConvert v target)
  · exact ite null (cannotConvert v target)
  · exact ite null (cannotConvert v target)
  · exact cannotConvert v target

theorem convertArith (k : ArithKind) (explicit : Bool) :
    Gives h (convertArith v k explicit) (Value.Converted (.arith k)) := by
  unfold OperatorM.convertArith
  split
  · exact number k _
  · split
    · rename_i hk
      obtain ⟨-, rfl⟩ : v.data.isPointer = true ∧ k = .bool := by simpa using hk
      exact pure ⟨rfl, rfl, rfl⟩
    · exact ite (number k _) (cannotConvert v _)

/-- A conversion answers with a value of the type that was asked for. -/
theorem convert (explicit : Bool) :
    Gives h (convert v target explicit) (Value.Converted target) := by
  unfold OperatorM.convert
  split
  · exact pure ⟨rfl, rfl, Ty.beq_iff_named.mp ‹_›⟩
  · split
    · exact pure ⟨rfl, rfl, rfl⟩
    · exact convertArith v _ explicit
    · exact convertPointer v explicit
    · exact convertPointer v explicit
    · exact convertFunctionPointer v
    · split
      · exact pure (.fresh rfl _)
      · exact cannotConvert v _
    · exact cannotConvert v _
    · exact cannotConvert v _

end Conversions

end Gives

theorem named_eq_struct {t : Ty} {name : String} {ms : List MemberTy} (h : t.named = .struct name ms) :
    ∃ ms', t = .struct name ms' := by
  cases t <;> cases h
  exact ⟨_, rfl⟩

/-- A change of the heap that may not be possible. -/
theorem attempt_apply (g : Heap → Option Heap) (ctx : OperatorContext) (h : Heap) :
    (HeapM.attempt g : OperatorM Bool) ctx h = .ok (g h).isSome ((g h).getD h) := by
  change (match (HeapM.attempt g).run h with
    | (b, h') => (.ok b h' : EStateM.Result Fault Heap Bool)) = _
  simp only [HeapM.attempt, StateT.run_modifyGet]
  cases g h <;> rfl

/-- A copy is a value of the type that was asked for. -/
theorem converted_of_copy {v w : Value} {target : Ty} {ctx : OperatorContext} {h' : Heap}
    (hw : copy v target ctx h = .ok w h') : w.Converted target := by
  simp only [OperatorM.copy, Bind.bind, ReaderT.bind, EStateM.bind] at hw
  cases hc : OperatorM.convert v target false ctx h with
  | error fault u =>
    rw [hc] at hw
    cases hw
  | ok converted u =>
    rw [hc] at hw
    have hd := (Gives.convert v false ctx converted u hc).2
    dsimp only at hw
    cases hty : converted.ty with
    | struct name members =>
      rw [hty] at hw
      cases hw
      have hcopy := HeapM.converted_deepCopyWithin (u.blocks.size + 1) converted u
      exact ⟨hcopy.detached, hcopy.writable, hcopy.type.trans hd.type⟩
    | _ =>
      rw [hty] at hw
      cases hw
      exact hd

/-- What is not a struct is converted. -/
theorem convert_of_copy {v w : Value} {target : Ty} {ctx : OperatorContext} {h' : Heap}
    (hs : ∀ name ms, target ≠ .struct name ms) (hw : copy v target ctx h = .ok w h') :
    convert v target false ctx h = .ok w h' := by
  simp only [copy, Bind.bind, ReaderT.bind, EStateM.bind] at hw
  cases hc : convert v target false ctx h with
  | error fault u =>
    rw [hc] at hw
    cases hw
  | ok converted u =>
    rw [hc] at hw
    have hd := (Gives.convert v false ctx converted u hc).2
    dsimp only at hw
    cases hty : converted.ty with
    | struct name members =>
      have hnamed : target.named = .struct name [] := by rw [← hd.type, hty, Ty.named]
      obtain ⟨ms', rfl⟩ := named_eq_struct hnamed
      exact absurd rfl (hs name ms')
    | _ =>
      rw [hty] at hw
      cases hw
      rfl

/-- Copies of anything but structs leave the heap as it is. -/
theorem gives_copy (v : Value) {target : Ty} (hs : ∀ name ms, target ≠ .struct name ms) :
    Gives h (copy v target) (Value.Converted target) := by
  refine .bind (.convert v false) fun converted hd => ?_
  split
  · rename_i name ms hty
    have hnamed : target.named = .struct name [] := by rw [← hd.type, hty, Ty.named]
    obtain ⟨ms', rfl⟩ := named_eq_struct hnamed
    exact absurd rfl (hs name ms')
  · exact .pure hd

end OperatorM

/-- What an operator gives, its computation in a run gives. -/
theorem RunM.operate_gives {α : Type} {x : OperatorM α} {post : α → Prop} {c : Config}
    {s t : State} (hx : x.Gives s.heap post) {a : α} (h : operate x c s = .ok a t) :
    t = s ∧ post a := by
  obtain ⟨heap, hx', rfl⟩ := operate_eq_ok h
  obtain ⟨rfl, hp⟩ := hx _ _ _ hx'
  exact ⟨rfl, hp⟩

/-- A change of the heap that may not be possible. -/
theorem RunM.discard_attempt {g : Heap → Option Heap} {c : Config} {s t : State} {a : Unit}
    (h : discard (onHeap (HeapM.attempt g)) c s = .ok a t) :
    t = { s with heap := (g s.heap).getD s.heap } := by
  change (onHeap (HeapM.attempt g) >>= fun _ => pure ()) c s = _ at h
  obtain ⟨_, u, hu, hrest⟩ := bind_eq_ok h
  cases hrest
  obtain ⟨heap, hattempt, rfl⟩ := operate_eq_ok hu
  have hrun := OperatorM.attempt_apply g ⟨c.numerics, s.tables, s.cursor⟩ s.heap
  cases hrun.symm.trans hattempt
  rfl

end Stepwise
