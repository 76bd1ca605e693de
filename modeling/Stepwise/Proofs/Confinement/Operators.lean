import Stepwise.Proofs.Confinement.Values
import Stepwise.Proofs.Copies.Separation

/-! # Operators pass hidden blocks by

Operators whose operands do not lead to hidden blocks pass these by, and their results do not lead
there either: payloads are derived from those of the operands, and cells are reached by what leads
to them.
-/

namespace Stepwise

open Value

theorem Data.derivable_simple_within (R : Set BlockId) :
    Derivable fun d => d.Simple ∧ d.Within R where
  number hd := ⟨simple_number hd, derivable_within.number hd⟩
  null ty := ⟨derivable_simple.null ty, derivable_within.null ty⟩
  void := ⟨derivable_simple.void, derivable_within.void⟩
  moved j h := ⟨derivable_simple.moved j h.1, derivable_within.moved j h.2⟩
  element j h := ⟨derivable_simple.element j h.1, derivable_within.element j h.2⟩
  function h := ⟨derivable_simple.function h.1, derivable_within.function h.2⟩

namespace OperatorM

open Heap

variable {α β : Type} {H : Set BlockId} {h : Heap}

/-- The computation passes hidden blocks by. Its result is as `post` says, which may speak of the
blocks in reach afterwards. -/
def PassesBy (H : Set BlockId) (h : Heap) (x : OperatorM α) (post : Set BlockId → α → Prop) : Prop :=
  ∀ ctx a h', x ctx h = .ok a h' → h.PassesBy H h' ∧ post (h'.reach H) a

/-- The computation passes hidden blocks by, and its result does not lead there. -/
abbrev Confined (H : Set BlockId) (h : Heap) (x : OperatorM Value) : Prop :=
  x.PassesBy H h fun R v => v.Within R

namespace PassesBy

variable {x y : OperatorM α} {f : α → OperatorM β} {post : Set BlockId → α → Prop}
  {post' : Set BlockId → β → Prop}

theorem fail (cause : OperatorFault) : (fail cause : OperatorM α).PassesBy H h post :=
  fun _ _ _ hx => nomatch hx

theorem fail_bind (cause : OperatorFault) : (OperatorM.fail cause >>= f).PassesBy H h post' :=
  fun _ _ _ hx => nomatch hx

/-- A check that may end the computation. -/
theorem check {p : Prop} [Decidable p] {cause : OperatorFault} {f : PUnit → OperatorM β}
    (hf : (f ⟨⟩).PassesBy H h post') :
    (if p then OperatorM.fail cause >>= f else f ⟨⟩).PassesBy H h post' := by
  split
  · exact fail_bind cause
  · exact hf

theorem ite {p : Prop} [Decidable p] (hx : x.PassesBy H h post) (hy : y.PassesBy H h post) :
    (if p then x else y).PassesBy H h post := by
  split
  · exact hx
  · exact hy

theorem read_bind {f : OperatorContext → OperatorM β} (hf : ∀ ctx, (f ctx).PassesBy H h post') :
    (read >>= f).PassesBy H h post' := fun ctx => hf ctx ctx

theorem bind (hx : x.PassesBy H h post)
    (hf : ∀ a h', h.PassesBy H h' → post (h'.reach H) a → (f a).PassesBy H h' post') :
    (x >>= f).PassesBy H h post' := by
  intro ctx b h'' hb
  simp only [Bind.bind, ReaderT.bind, EStateM.bind] at hb
  split at hb
  · obtain ⟨hp, ha⟩ := hx ctx _ _ ‹_›
    obtain ⟨hp', hb⟩ := hf _ _ hp ha ctx b h'' hb
    exact ⟨hp.trans hp', hb⟩
  · cases hb

/-- Nothing is changed before. -/
theorem after {post : α → Prop} (hx : Gives h x post)
    (hf : ∀ a, post a → (f a).PassesBy H h post') : (x >>= f).PassesBy H h post' := by
  intro ctx b h' hb
  simp only [Bind.bind, ReaderT.bind, EStateM.bind] at hb
  split at hb
  · obtain ⟨rfl, ha⟩ := hx ctx _ _ ‹_›
    exact hf _ ha ctx b h' hb
  · cases hb

theorem checked {l : Value} {f : PUnit → OperatorM β} (hf : ∀ u, (f u).PassesBy H h post') :
    (checkWritable l >>= f).PassesBy H h post' :=
  .after (.of_leaves (reading_leaves.checkWritable l)) fun u _ => hf u

theorem operand {op : Operator} {l : Value} {r : Option Value} {f : Value → OperatorM β}
    (hf : ∀ v, r = some v → (f v).PassesBy H h post') :
    (OperatorM.operand op l r >>= f).PassesBy H h post' := by
  cases r with
  | none => exact fun _ _ _ hx => nomatch hx
  | some v => exact hf v rfl

end PassesBy

variable (hh : h.Hides H)

include hh

theorem PassesBy.pure {a : α} {post : Set BlockId → α → Prop} (ha : post (h.reach H) a) :
    (pure a : OperatorM α).PassesBy H h post := by
  rintro ctx a' h' ⟨⟩
  exact ⟨.refl hh, ha⟩

theorem PassesBy.of_gives {x : OperatorM α} {post : Set BlockId → α → Prop}
    (hx : Gives h x fun a => post (h.reach H) a) : x.PassesBy H h post := by
  intro ctx a h' ha
  obtain ⟨rfl, hp⟩ := hx ctx a h' ha
  exact ⟨.refl hh, hp⟩

theorem Confined.derived {x : OperatorM Value}
    (hx : Gives h x (Derived fun d => d.Simple ∧ d.Within (h.reach H))) : x.Confined H h :=
  .of_gives hh fun ctx v h' hv => (hx ctx v h' hv).imp_right Derived.within

omit hh in
theorem gives_place (l : Value) : Gives h (place l) fun p => l.place = some p := by
  intro ctx p h' hp
  unfold place at hp
  cases hl : l.place with
  | none =>
    rw [hl] at hp
    cases hp
  | some q =>
    rw [hl] at hp
    cases hp
    exact ⟨rfl, rfl⟩

omit hh in
theorem gives_convert {v : Value} {R : Set BlockId} (hv : v.Lies R) (target : Ty) (explicit : Bool) :
    Gives h (convert v target explicit) fun w => w.Within R := by
  by_cases hsame : (v.ty == target) = true
  · unfold convert
    rw [if_pos hsame]
    exact .pure hv.rvalue
  · intro ctx w h' hw
    have hgives := Gives.derived_convert v (Data.derivable_simple_within R) (fun hs => ⟨hs, hv.data⟩)
      (fun hs => absurd hs hsame) explicit ctx w h' hw
    exact hgives.imp_right Derived.within

omit hh in
/-- What is converted to a type that is neither that of an array nor that of a struct owns
nothing. -/
theorem gives_scalar {v : Value} {R : Set BlockId} {target : Ty} (hv : v.Lies R)
    (hd : Gives h (convert v target false) (Derived Data.Simple)) (ha : target.isArray = false) :
    Gives h (convert v target false) fun w => w.Within R ∧ w.block? = none := by
  intro ctx w h' hw
  obtain ⟨hh', hwithin⟩ := gives_convert hv target false ctx w h' hw
  obtain ⟨-, hderived⟩ := hd ctx w h' hw
  obtain ⟨-, hconverted⟩ := Gives.convert v false ctx w h' hw
  refine ⟨hh', hwithin, block?_of_simple hderived.payload ?_⟩
  rw [← Ty.isArray_named, hconverted.type, Ty.isArray_named, ha]

theorem confined_convert {v : Value} (hv : v.Lies (h.reach H)) (target : Ty) (explicit : Bool) :
    (convert v target explicit).Confined H h := .of_gives hh (gives_convert hv target explicit)

theorem confined_deepCopy {v : Value} (hv : v.Lies (h.reach H)) :
    Confined H h (HeapM.deepCopy v) := by
  rintro ctx w h' ⟨⟩
  exact HeapM.passesBy_deepCopy hh hv

theorem confined_copy {v : Value} (hv : v.Lies (h.reach H)) (target : Ty) :
    (copy v target).Confined H h := by
  refine .after (gives_convert hv target false) fun w hw => ?_
  split
  · exact confined_deepCopy hh hw.toLies
  · exact .pure hh hw

theorem passesBy_condition {v : Value} : (condition v).PassesBy H h fun _ _ => True :=
  .of_gives hh (.bind (fun ctx w h' hw => (Gives.convert v false ctx w h' hw).imp_right fun _ => trivial)
    fun _ _ => .pure trivial)

omit hh in
/-- What a number is converted to owns nothing. -/
theorem gives_ofNumber {v : Value} {R : Set BlockId} {target : Ty} (hv : v.Lies R)
    (hi : v.ty.isIntegral = true) (ha : target.isArray = false) :
    Gives h (convert v target false) fun w => w.Within R ∧ w.block? = none := by
  have hsimple : v.data.Simple := by
    refine hv.regular.resolve_right ?_
    rintro ⟨name, ms, hty⟩
    rw [hty] at hi
    cases hi
  exact gives_scalar hv (Gives.derived_convert v Data.derivable_simple id (fun _ => hsimple) false) ha

/-- A cell in reach, if there is one, is filled with what owns nothing. -/
theorem passesBy_fill {p : Place} (hp : p.block ∈ h.reach H) {w : Value} (hw : w.Lies (h.reach H))
    (hb : w.block? = none) :
    PassesBy H h (HeapM.attempt fun h => h.init? p w) fun _ _ => True := by
  intro ctx filled h' hx
  rw [attempt_apply] at hx
  cases hx
  cases hm : h.init? p w with
  | none => exact ⟨.refl hh, trivial⟩
  | some h' =>
    have hrenews : h.Renews h' :=
      .of_owns hh.closed hh.founded (size_of_modify? hm) fun b s ho => by
        rcases owns_modify? hm ho with ho | ⟨-, cell, hcell⟩
        · exact ho
        · cases hb.symm.trans hcell
    refine ⟨.of_modify? hh hp.2 (fun _ => ?_) hm hrenews.closed hrenews.founded, trivial⟩
    exact ⟨hw.regular, hw.data⟩

section Cells

variable {l v : Value} (hl : l.Within (h.reach H))

include hl

/-- A cell in reach takes what owns nothing. -/
theorem confined_write (hv : v.Lies (h.reach H)) (hb : v.block? = none) :
    (write l v).Confined H h := by
  intro ctx w h' hw
  cases hp : l.place with
  | none =>
    unfold write place at hw
    rw [hp] at hw
    cases hw
  | some p =>
    have hreach := hl.place p hp
    rw [write_apply hp] at hw
    cases hs : h.store? p v with
    | none =>
      rw [hs] at hw
      cases hw
    | some h₁ =>
      obtain ⟨stored, hstored⟩ := load?_of_store? hs
      simp only [hs, hstored] at hw
      cases hw
      have hpasses := PassesBy.store? hh hreach.2 hv hb hs
      exact ⟨hpasses, hpasses.hides.load? (hpasses.reach hreach) hstored⟩

/-- A cell that is neither that of an array nor that of a struct takes a value of its type. -/
theorem confined_writeConverted (hv : v.Lies (h.reach H)) (ha : l.ty.isArray = false)
    (hs : ∀ name ms, l.ty ≠ .struct name ms) :
    (convert v l.ty false >>= fun v => write l v).Confined H h := by
  have hgives := gives_scalar hv (Gives.simple_convert (h := h) hv.regular hs false) ha
  exact .after hgives fun w hw => confined_write hh hl hw.1.toLies hw.2

end Cells

/-- What a place in reach holds. -/
theorem confined_found {p : Place} (hp : p.block ∈ h.reach H) {failure : OperatorM Value}
    (hf : failure.Confined H h) : (do
      match ← load? p with
      | some v => return v
      | none => failure : OperatorM Value).Confined H h := by
  refine .after (.load? p) fun found hfound => ?_
  subst hfound
  split
  · exact .pure hh (hh.load? hp ‹_›)
  · exact hf

theorem confined_element {store : BlockId} (hs : store ∈ h.reach H) (position : Int) :
    (element store position).Confined H h := by
  cases position with
  | ofNat index =>
    exact confined_found hh hs (.after (.of_leaves reading_leaves.get) fun _ _ => .fail _)
  | negSucc index => exact fun _ _ _ hx => nomatch hx

section Operators

variable {l v : Value} (hl : l.Within (h.reach H)) (r : Option Value)

include hl

theorem confined_addressOf : (addressOf l r).Confined H h := by
  unfold addressOf
  refine .check ?_
  refine .after (gives_place l) fun p hp => ?_
  have hreach := hl.place p hp
  have hresult (ty : Ty) {d : Data} (hd : d.isPointer = true) (hb : d.blocks = [p.block]) :
      (return Value.fresh ty d : OperatorM Value).Confined H h :=
    .pure hh (within_fresh (Data.simple_pointer hd) fun s hs => by
      rw [hb] at hs
      exact List.mem_singleton.mp hs ▸ hreach)
  dsimp only
  split
  · exact .after (.position _) fun _ _ => hresult _ rfl rfl
  · exact hresult _ rfl rfl

theorem confined_deref : (deref l r).Confined H h := by
  have hd := hl.data
  unfold deref
  refine .check ?_
  · dsimp only
    split
    · rename_i p hp
      rw [hp] at hd
      exact confined_found hh (hd _ (List.mem_singleton_self _)) (.fail _)
    · rename_i store position hp
      rw [hp] at hd
      exact confined_element hh (hd _ (List.mem_singleton_self _)) position
    · rename_i f hp
      rw [hp] at hd
      split
      · exact .pure hh (within_fresh (fun _ h => nomatch h) hd)
      · exact .fail _
    · exact .fail _
    · exact .fail _
    · exact .fail _
    · exact .fail _

omit hh in
theorem gives_offset (n : Value) (sign : Int) :
    Gives h (offset l n sign) fun w => w.Within (h.reach H) :=
  fun ctx v h' hv => (Gives.derived_offset l (Data.derivable_simple_within _)
    (fun hs => ⟨hs, hl.data⟩) n sign ctx v h' hv).imp_right Derived.within

theorem confined_index : (index l r).Confined H h :=
  .operand fun v _ => .after (gives_offset hl v 1) fun _ hw => confined_deref hh hw none

theorem confined_addressOfFunction : (addressOfFunction l r).Confined H h := by
  have hd := hl.data
  unfold addressOfFunction
  refine .check ?_
  · dsimp only
    split
    · rename_i f hf
      rw [hf] at hd
      refine .read_bind fun ctx => ?_
      split
      · exact fun _ _ _ hx => nomatch hx
      · exact .pure hh (within_fresh (fun _ h => nomatch h) hd)
      · exact .read_bind fun _ _ _ _ hx => nomatch hx
    · exact .fail _

theorem confined_stepNumber (increment : Bool) : (stepNumber l r increment).Confined H h := by
  unfold stepNumber
  split
  · refine .checked fun _ => .after (.of_leaves reading_leaves.get) fun heap _ => ?_
    refine .read_bind fun ctx => .after (.ofExcept fun d => Numerics.number_of_step) fun d hd => ?_
    refine .bind (confined_write hh hl (within_number hd).toLies ?_) fun stored h' hp hs => ?_
    · exact block?_of_simple (Data.simple_number hd) rfl
    · refine .pure hp.hides ?_
      split
      · exact (hl.toLies.mono hp.reach).rvalue
      · exact hs
  · exact .fail _

theorem confined_stepPointer (increment : Bool) : (stepPointer l r increment).Confined H h := by
  have hd := hl.data
  refine .checked fun _ => ?_
  split
  · rename_i store i hdata
    rw [hdata] at hd
    dsimp only
    by_cases ha : l.ty.isArray = true
    · rw [if_pos ha]
      exact .fail_bind _
    · rw [if_neg ha]
      refine .after (.position _) fun moved _ => ?_
      have hmoved : (Value.fresh l.ty (.array store moved)).Within (h.reach H) :=
        within_fresh (fun _ h => nomatch h) hd
      refine .bind (confined_write hh hl hmoved.toLies (if_neg ha)) fun stored h' hp hs => ?_
      refine .pure hp.hides ?_
      split
      · exact (hl.toLies.mono hp.reach).rvalue
      · exact hs
  · exact .fail _

end Operators

section Members

variable {source target : BlockId}

/-- A cell in reach takes a copy, or there is no such cell. -/
theorem passesBy_copyMember (ht : target ∈ h.reach H) {new : Value} (hnew : new.Lies (h.reach H))
    (old : Value) (n : Nat) : (copyMember target (new, old) n).PassesBy H h fun _ _ => True := by
  intro ctx u h' hx
  have hrenews := renews_copyMember hh.closed hh.founded (covers_of_lies hnew) ht.1 hx
  obtain ⟨hp, hw⟩ := HeapM.passesBy_deepCopy hh hnew
  rw [copyMember_apply] at hx
  generalize (HeapM.deepCopy new).run h = r at hx hp hw
  cases hm : r.2.init? (.member target n) (r.1.withReadonly old.readonly) with
  | none =>
    rw [hm] at hx
    cases hx
    exact ⟨hp, trivial⟩
  | some h₂ =>
    rw [hm] at hx
    cases hx
    refine ⟨hp.trans (.of_modify? hp.hides ht.2 (fun _ => ?_) hm hrenews.closed hrenews.founded), trivial⟩
    exact ⟨hw.regular, hw.data⟩

/-- The members of a struct are copied one by one. -/
theorem passesBy_copyFrom (ht : target ∈ h.reach H) {members : List (Value × Value)}
    (hm : ∀ c ∈ members, c.1.Lies (h.reach H)) (n : Nat) :
    (copyFrom target members n).PassesBy H h fun _ _ => True := by
  induction members generalizing n h with
  | nil => exact .pure hh trivial
  | cons c members ih =>
    obtain ⟨hfirst, hrest⟩ := List.forall_mem_cons.mp hm
    refine .bind (passesBy_copyMember hh ht hfirst c.2 n) fun _ h' hp _ => ?_
    exact ih hp.hides (hp.reach ht) (fun c hc => (hrest c hc).mono hp.reach) (n + 1)

theorem passesBy_copyMembers (hs : source ∈ h.reach H) (ht : target ∈ h.reach H) :
    (copyMembers source target).PassesBy H h fun _ _ => True := by
  intro ctx u h' hx
  rw [copyMembers_eq_copyFrom] at hx
  refine passesBy_copyFrom hh ht (fun c hm => ?_) 0 ctx u h' hx
  rw [Array.toList_zip] at hm
  exact hh.cells source hs.2 c.1 (Array.mem_toList_iff.mp (List.of_mem_zip hm).1)

end Members

section Assign

variable {l : Value} {r : Option Value} (hl : l.Within (h.reach H))
  (hr : ∀ v, r = some v → v.Lies (h.reach H))

include hl hr

theorem confined_assignNumber {k : ArithKind} (hty : l.ty = .arith k) :
    (assignNumber l r).Confined H h :=
  .operand fun v hv => .checked fun _ => confined_writeConverted hh hl (hr v hv) (by rw [hty]; rfl)
    (by rw [hty]; exact fun _ _ h => nomatch h)

theorem confined_assignPointer (hty : l.ty.isPointer = true) : (assignPointer l r).Confined H h := by
  refine .operand fun v hv => .checked fun _ => ?_
  split
  · exact .fail_bind _
  · refine confined_writeConverted hh hl (hr v hv) (Bool.eq_false_iff.mpr ‹_›) fun name ms hs => ?_
    rw [hs] at hty
    cases hty

theorem confined_assignStruct : (assignStruct l r).Confined H h := by
  refine .operand fun v hv => .checked fun _ => ?_
  split
  · rename_i target _ _ source _ hd _ hd'
    refine .ite (.fail _) (.ite (.pure hh hl) ?_)
    have ht := hl.data target (by rw [hd]; exact List.mem_singleton_self _)
    have hs := (hr v hv).data source (by rw [hd']; exact List.mem_singleton_self _)
    exact .bind (passesBy_copyMembers hh hs ht) fun _ h' hp _ => .pure hp.hides (hl.mono hp.reach)
  · exact .fail _

end Assign

end OperatorM

namespace Operator

open OperatorM Heap

variable {op : Operator} {H : Set BlockId} {h : Heap} {l : Value} {r : Option Value}
  {f : Value → Option Value → OperatorM Value} (hh : h.Hides H) (hl : l.Within (h.reach H))
  (hr : ∀ v, r = some v → v.Within (h.reach H))

include hh hl hr

omit hl in
theorem confined_comma : (OperatorM.comma l r).Confined H h := by
  cases r with
  | none => exact .pure hh within_void
  | some v => exact .pure hh (hr v rfl)

theorem confined_binary (op : BinaryOp) : (applyOwn (.binary op) l r).Confined H h :=
  .derived hh (derived_applyOwn (Data.derivable_simple_within _) op (fun hs => ⟨hs, hl.data⟩)
    fun v hv hs => ⟨hs, (hr v hv).data⟩)

theorem confined_ofNumber? {k : ArithKind} (hty : l.ty = .arith k) (hf : op.ofNumber? = some f) :
    (f l r).Confined H h := by
  have hvalue {x : Except OperatorFault Value}
      (hx : ∀ v, x = .ok v → v.Derived fun d => d.Simple ∧ d.Within (h.reach H)) :
      (OperatorM.ofExcept x).Confined H h := .derived hh (.ofExcept hx)
  cases op with
  | binary op =>
    have hown := confined_binary hh hl hr op
    unfold applyOwn at hown
    rw [hty] at hown
    cases hf
    exact hown
  | assign => cases hf; exact confined_assignNumber hh hl (fun v hv => (hr v hv).toLies) hty
  | comma => cases hf; exact confined_comma hh hr
  | neg =>
    cases hf
    unfold OperatorM.negate
    split
    · exact .read_bind fun _ => hvalue fun _ => Numerics.derived_of_negate (Data.derivable_simple_within _)
    · exact .fail _
  | plus => cases hf; exact .pure hh hl.toLies.rvalue
  | addrOf => cases hf; exact confined_addressOf hh hl r
  | not =>
    cases hf
    unfold OperatorM.not
    split
    · exact .pure hh (within_bool _)
    · exact .fail _
  | bitNot =>
    cases hf
    unfold OperatorM.complement
    split
    · exact .read_bind fun _ => hvalue fun _ => Numerics.derived_of_value (Data.derivable_simple_within _)
    · exact .fail _
  | inc | dec => cases hf; exact confined_stepNumber hh hl r _
  | compound _ | deref | index => cases hf

theorem confined_ofPointer? (hty : l.ty.isPointer = true) (hof : ofType? l.ty = ofPointer?)
    (hf : op.ofPointer? = some f) : (f l r).Confined H h := by
  cases op with
  | binary op =>
    have hown := confined_binary hh hl hr op
    unfold applyOwn at hown
    rw [hof, hf] at hown
    exact hown
  | assign => cases hf; exact confined_assignPointer hh hl (fun v hv => (hr v hv).toLies) hty
  | comma => cases hf; exact confined_comma hh hr
  | deref => cases hf; exact confined_deref hh hl r
  | addrOf => cases hf; exact confined_addressOf hh hl r
  | not => cases hf; exact .pure hh (within_bool _)
  | inc | dec => cases hf; exact confined_stepPointer hh hl r _
  | index => cases hf; exact confined_index hh hl r
  | compound _ | neg | plus | bitNot => cases hf

theorem confined_applyOwn : (applyOwn op l r).Confined H h := by
  unfold applyOwn
  split
  · rename_i f hf
    cases hty : l.ty <;> rw [hty] at hf
    case arith => exact confined_ofNumber? hh hl hr hty hf
    case pointer | array | functionPointer =>
      exact confined_ofPointer? hh hl hr (by rw [hty]; rfl) (by rw [hty]; rfl) hf
    case struct =>
      cases op with
      | assign => cases hf; exact confined_assignStruct hh hl fun v hv => (hr v hv).toLies
      | addrOf => cases hf; exact confined_addressOf hh hl r
      | comma => cases hf; exact confined_comma hh hr
      | _ => cases hf
    case function =>
      cases op with
      | addrOf => cases hf; exact confined_addressOfFunction hh hl r
      | comma => cases hf; exact confined_comma hh hr
      | _ => cases hf
    case void =>
      cases op with
      | comma => cases hf; exact confined_comma hh hr
      | _ => cases hf
    case marker => cases op <;> cases hf
  · exact .fail _

/-- An operator passes hidden blocks by, and its result does not lead there. -/
theorem confined_apply : (op.apply l r).Confined H h := by
  cases op with
  | compound op =>
    rw [apply_compound, apply_binary]
    refine .bind (confined_binary hh hl hr op) fun v h' hp hv => ?_
    rw [apply_assign]
    refine confined_applyOwn hp.hides (hl.mono hp.reach) fun w hw => ?_
    cases hw
    exact hv
  | _ =>
    rw [apply_eq_applyOwn r]
    · exact confined_applyOwn hh hl hr
    · exact fun _ h => nomatch h

end Operator

end Stepwise
