import Stepwise.Proofs.Operator.Conversions

/-! # Soundness of operators

Operators that write change the payload of a cell, or of the cells of a struct, and write
what was converted to the types of the cells. So from a well-formed heap every operator
leads to a well-formed one that keeps all cells with their types, and answers with a
well-formed value.
-/

namespace Stepwise

namespace Heap

variable {members : String → List Ty} {h h' : Heap} {v : Value}

theorem load?_eq_some_iff {p : Place} :
    h.load? p = some v ↔ ∃ cell, (h.cells p.block)[p.index]? = some cell ∧
      { cell with place := some p } = v := Option.map_eq_some_iff

/-- An operand stays one while cells are kept. -/
theorem Holds.mono (hv : h.Holds members v) (hk : h.Keeps h') : h'.Holds members v where
  fits := hv.fits.mono hk
  placed p hp := by
    obtain ⟨cell, hload, hty⟩ := hv.placed p hp
    obtain ⟨c, hc, rfl⟩ := load?_eq_some_iff.mp hload
    obtain ⟨c', hc', hty'⟩ := hk.cell hc
    exact ⟨_, load?_eq_some_iff.mpr ⟨c', hc', rfl⟩, hty'.trans hty⟩

end Heap

namespace OperatorM

variable {α β : Type} {members : String → List Ty} {h : Heap}

/-- From a well-formed heap, and with the standard limits, the computation leads to a well-formed
heap that keeps its cells, also if it faults, and answers as `post` says. -/
structure Sound (members : String → List Ty) (h : Heap) (x : OperatorM α)
    (post : α → Heap → Prop) : Prop where
  run : h.WellFormed members → ∀ ctx : OperatorContext, ctx.numerics.limits.Standard →
    match x ctx h with
    | .ok a h' => h'.WellFormed members ∧ h.Keeps h' ∧ post a h'
    | .error _ h' => h'.WellFormed members ∧ h.Keeps h'

namespace Sound

variable {x : OperatorM α} {f : α → OperatorM β} {post : α → Heap → Prop} {post' : β → Heap → Prop}

theorem pure {a : α} (hp : post a h) : Sound members h (pure a) post :=
  ⟨fun hw _ _ => ⟨hw, .refl h, hp⟩⟩

theorem fail (cause : OperatorFault) : Sound members h (fail cause : OperatorM α) post :=
  ⟨fun hw _ _ => ⟨hw, .refl h⟩⟩

theorem unsupported (op : Operator) (l : Value) (r : Option Value) :
    Sound members h (unsupported op l r : OperatorM α) post := .fail _

theorem bind (hx : Sound members h x post)
    (hf : ∀ a h', h.Keeps h' → h'.WellFormed members → post a h' →
      Sound members h' (f a) post') : Sound members h (x >>= f) post' := by
  refine ⟨fun hw ctx hctx => ?_⟩
  have hx := hx.run hw ctx hctx
  simp only [Bind.bind, ReaderT.bind, EStateM.bind]
  revert hx
  cases x ctx h with
  | error e h' => exact id
  | ok a h' =>
    rintro ⟨hw', hk, hp⟩
    have hf := (hf a h' hk hw' hp).run hw' ctx hctx
    dsimp only
    revert hf
    cases f a ctx h' with
    | ok b h'' => exact fun ⟨hw'', hk', hp'⟩ => ⟨hw'', hk.trans hk', hp'⟩
    | error e h'' => exact fun ⟨hw'', hk'⟩ => ⟨hw'', hk.trans hk'⟩

theorem mono {post' : α → Heap → Prop} (hx : Sound members h x post)
    (hp : ∀ a h', h.Keeps h' → post a h' → post' a h') : Sound members h x post' := by
  refine ⟨fun hw ctx hctx => ?_⟩
  have hx := hx.run hw ctx hctx
  revert hx
  cases x ctx h with
  | ok a h' => exact fun ⟨hw', hk, hpost⟩ => ⟨hw', hk, hp a h' hk hpost⟩
  | error => exact id

theorem of_reads {post : α → Prop} (hx : Reads h x post) :
    Sound members h x fun a h' => h' = h ∧ post a := by
  refine ⟨fun hw ctx hctx => ?_⟩
  have hx := hx.run ctx hctx
  revert hx
  cases x ctx h with
  | ok a h' =>
    rintro ⟨rfl, hp⟩
    exact ⟨hw, .refl _, rfl, hp⟩
  | error e h' =>
    rintro rfl
    exact ⟨hw, .refl _⟩

/-- An answer that is computed by reading. -/
theorem value {x : OperatorM Value} (hx : Reads h x (h.Holds members)) :
    Sound members h x fun w h' => h'.Holds members w := by
  refine (of_reads hx).mono fun w h' _ hw => ?_
  obtain ⟨rfl, hw⟩ := hw
  exact hw

/-- A computation that starts by reading. -/
theorem reads_bind {post : α → Prop} (hx : Reads h x post)
    (hf : ∀ a, h.WellFormed members → post a → Sound members h (f a) post') :
    Sound members h (x >>= f) post' :=
  .bind (.of_reads hx) fun a _ _ hw hp => by
    obtain ⟨rfl, hp⟩ := hp
    exact hf a hw hp

theorem of_wellFormed (hx : h.WellFormed members → Sound members h x post) :
    Sound members h x post := ⟨fun hw => (hx hw).run hw⟩

theorem get_bind {f : Heap → OperatorM β} (hf : Sound members h (f h) post') :
    Sound members h (get >>= f) post' := ⟨hf.run⟩

theorem read_bind {f : OperatorContext → OperatorM β}
    (hf : ∀ ctx, ctx.numerics.limits.Standard → Sound members h (f ctx) post') :
    Sound members h (read >>= f) post' :=
  ⟨fun hw ctx hctx => (hf ctx hctx).run hw ctx hctx⟩

theorem heap {x : HeapM α} (hx : HeapM.Sound members h x post) :
    Sound members h (x : OperatorM α) post := ⟨fun hw _ _ => hx hw⟩

theorem ite {c : Prop} [Decidable c] {y : OperatorM α} (hx : c → Sound members h x post)
    (hy : ¬ c → Sound members h y post) : Sound members h (if c then x else y) post := by
  split
  · exact hx ‹_›
  · exact hy ‹_›

/-- A change of the heap that is made if it can be. -/
theorem attempt {g : Heap → Option Heap}
    (hg : ∀ h', g h = some h' → h.WellFormed members → h'.WellFormed members ∧ h.Keeps h') :
    Sound members h (HeapM.attempt g : OperatorM Bool) fun _ _ => True := by
  refine .heap fun hw => ?_
  cases hgh : g h with
  | none =>
    have hrun : StateT.run (HeapM.attempt g) h = (false, h) := by
      simp only [HeapM.attempt, StateT.run_modifyGet, hgh]
      rfl
    rw [hrun]
    exact ⟨hw, .refl h, trivial⟩
  | some h' =>
    have hrun : StateT.run (HeapM.attempt g) h = (true, h') := by
      simp only [HeapM.attempt, StateT.run_modifyGet, hgh]
      rfl
    rw [hrun]
    exact ⟨(hg h' hgh hw).1, (hg h' hgh hw).2, trivial⟩

/-- A loop over values that goes to the cells of a block one after the other. A step leaves the
counter at the next cell and does not change what the cells are. -/
theorem forIn_cells {γ σ : Type} (types : List Ty) (b : BlockId) (At : σ → Nat → Prop)
    (value : γ → Value) {body : γ → σ → OperatorM (ForInStep σ)}
    (hbody : ∀ h c s i, b < h.blocks.size → h.types b = types → At s i →
      types[i]? = some (value c).ty.named → h.Fits members (value c).ty (value c).data →
        Sound members h (body c s) fun step _ => ∀ s', step = .yield s' → At s' (i + 1))
    (cs : List γ) {s : σ} {i : Nat} (hs : At s i) (hb : b < h.blocks.size)
    (ht : h.types b = types) (hi : (types.drop i) = cs.map fun c => (value c).ty.named)
    (hc : ∀ c ∈ cs, h.Fits members (value c).ty (value c).data) :
    Sound members h (forIn cs s body) fun _ _ => True := by
  induction cs generalizing h s i with
  | nil => exact .pure trivial
  | cons c cs ih =>
    rw [List.forIn_cons]
    rw [List.forall_mem_cons] at hc
    have hhead : types[i]? = some (value c).ty.named := by
      rw [← List.head?_drop, hi, List.map_cons, List.head?_cons]
    have htail : types.drop (i + 1) = cs.map fun c => (value c).ty.named := by
      rw [← List.tail_drop, hi, List.map_cons, List.tail_cons]
    refine .bind (hbody h c s i hb ht hs hhead hc.1) fun step h' hk _ hstep => ?_
    cases step with
    | done s' => exact .pure trivial
    | yield s' =>
      exact ih (hstep s' rfl) (Nat.lt_of_lt_of_le hb hk.size) ((hk.types b hb).trans ht) htail
        fun c hm => (hc.2 c hm).mono hk

end Sound

variable {l v : Value} {r : Option Value}

/-- The type of the cell at a place, which an answer that is stored there must have. -/
theorem keeps_of_store {p : Place} {f : Value → Value} {h' : Heap} {w : Value}
    (hw : h.WellFormed members) (hm : h.modify? p f = some h')
    (hf : ∀ cell, (f cell).ty = w.ty ∧ (f cell).data = w.data)
    (hv : h.Fits members w.ty w.data)
    (hty : (h.types p.block)[p.index]? = some w.ty.named) :
    h'.WellFormed members ∧ h.Keeps h' := by
  have hcell : ∀ cell, (h.cells p.block)[p.index]? = some cell →
      (f cell).ty.named = cell.ty.named ∧ h.Fits members (f cell).ty (f cell).data := by
    intro cell hc
    rw [Heap.getElem?_types, hc, Option.map_some, Option.some.injEq] at hty
    rw [(hf cell).1, (hf cell).2]
    exact ⟨hty.symm, hv⟩
  exact ⟨hw.modify? hm hcell, Heap.keeps_of_modify? hm fun cell hc => (hcell cell hc).1⟩

theorem sound_write (hl : h.Holds members l) (hv : h.Fits members v.ty v.data)
    (hty : v.ty.named = l.ty.named) :
    Sound members h (write l v) fun w h' => h'.Holds members w := by
  refine .reads_bind (reads_place l) fun p _ hp => ?_
  refine .bind (.attempt fun h' hs hw => ?_) fun stored h' _ _ _ => ?_
  · refine keeps_of_store hw hs (fun _ => ⟨rfl, rfl⟩) hv ?_
    obtain ⟨cell, hload, hcell⟩ := hl.placed p hp
    obtain ⟨c, hc, rfl⟩ := Heap.load?_eq_some_iff.mp hload
    rw [Heap.getElem?_types, hc, hty, ← hcell]
    rfl
  · refine .ite (fun _ => ?_) fun _ => .fail _
    refine .reads_bind (reads_load? p) fun found hw hfound => ?_
    cases found with
    | some v => exact .pure (hw.load? hfound.symm)
    | none => exact .fail _

/-- A value is copied into a cell of its type. -/
theorem sound_copyInto {new : Value} {p : Place} {readonly : Bool} {step : α}
    (hnew : h.Fits members new.ty new.data) (hp : p.block < h.blocks.size)
    (hty : (h.types p.block)[p.index]? = some new.ty.named) :
    Sound members h (do
      let copied ← HeapM.deepCopy new
      discard (HeapM.attempt fun h => h.init? p (copied.withReadonly readonly))
      pure step) fun a _ => a = step := by
  refine .bind (.heap (HeapM.sound_deepCopy hnew)) fun copied h' hk _ hcopy => ?_
  refine .bind (.bind (.attempt fun h'' hi hw => ?_) fun _ _ _ _ _ => .pure trivial)
    fun _ _ _ _ (_ : True) => .pure rfl
  refine keeps_of_store (w := copied) hw hi (fun _ => ⟨rfl, rfl⟩) hcopy.fits ?_
  rw [hk.types _ hp, hty, hcopy.ty]

theorem reads_cells (b : BlockId) :
    Reads h (HeapM.cells b : OperatorM (Array Value)) fun cells => cells = h.cells b :=
  ⟨fun _ _ => ⟨rfl, rfl⟩⟩

theorem struct_of_fits {ty : Ty} {name : String} {ms : List MemberTy} {d : Data} {b : BlockId}
    (hf : h.Fits members ty d) (hty : ty = .struct name ms) (hd : d = .struct b) :
    b < h.blocks.size ∧ h.types b = (members name).map Ty.named := by
  subst hty hd
  cases hf with
  | pointer hty => cases hty
  | struct hs ht => exact ⟨hs, ht⟩

/-- The members of a struct fit into the cells of another one with members of the same types. -/
theorem sound_copyMembers {source target : BlockId} {types : List Ty}
    (hstypes : h.types source = types) (ht : target < h.blocks.size)
    (httypes : h.types target = types) :
    Sound members h (copyMembers source target) fun _ _ => True := by
  refine .of_wellFormed fun hw => ?_
  refine .reads_bind (reads_cells source) fun news _ hnews => ?_
  refine .reads_bind (reads_cells target) fun olds _ holds => ?_
  subst hnews holds
  dsimp only
  rw [← Array.forIn_toList]
  refine .bind (.forIn_cells types target
    (fun s i => s.start = i ∧ s.step = 1) Prod.fst ?_ _ (i := 0) ⟨rfl, rfl⟩ ht
    httypes ?_ ?_)
    fun _ h' _ _ _ => .pure trivial
  · rintro h' ⟨new, old⟩ s i hb ht ⟨rfl, hstep⟩ hti hfits
    simp only [Std.Stream.next?, hstep]
    split
    · exact .pure fun s' hs' => nomatch hs'
    · rename_i index s' hnext
      obtain ⟨-, hnext⟩ := Option.ite_none_right_eq_some.mp hnext
      cases hnext
      refine (sound_copyInto hfits hb (ht ▸ hti)).mono fun step _ _ hstep s' hs' => ?_
      cases hstep.symm.trans hs'
      exact ⟨rfl, rfl⟩
  · have hsize : (h.cells source).size = (h.cells target).size := by
      have hlen := congrArg List.length (hstypes.trans httypes.symm)
      simpa [Heap.types] using hlen
    have hfst : ((h.cells source).zip (h.cells target)).toList.map Prod.fst =
        (h.cells source).toList := by
      rw [Array.toList_zip]
      exact List.map_fst_zip (Nat.le_of_eq hsize)
    rw [List.drop_zero, ← hstypes, Heap.types, ← hfst, List.map_map]
    rfl
  · rintro ⟨new, old⟩ hmem
    exact hw source new (Array.mem_toList_iff.mp (List.of_mem_zip (Array.toList_zip ▸ hmem)).1)

theorem sound_assignStruct (hl : h.Holds members l) (hr : ∀ v, r = some v → h.Holds members v) :
    Sound members h (assignStruct l r) fun w h' => h'.Holds members w := by
  refine .reads_bind (reads_operand l r _) fun n _ hn => ?_
  refine .reads_bind (reads_checkWritable l) fun _ _ _ => ?_
  split
  · rename_i a _ target b _ source hlty hldata hnty hndata
    refine .ite (fun _ => .unsupported _ l _) fun hname => .ite (fun _ => .pure hl) fun _ => ?_
    obtain rfl : a = b := by simpa using hname
    obtain ⟨htarget, httypes⟩ := struct_of_fits hl.fits hlty hldata
    obtain ⟨-, hstypes⟩ := struct_of_fits (hr n hn).fits hnty hndata
    exact .bind (sound_copyMembers hstypes htarget httypes) fun _ _ hk _ _ =>
      .pure (hl.mono hk)
  · exact .unsupported _ l _

theorem sound_assignPointer (hl : h.Holds members l)
    (hr : ∀ v, r = some v → h.Holds members v) :
    Sound members h (assignPointer l r) fun w h' => h'.Holds members w := by
  refine .reads_bind (reads_operand l r _) fun n _ hn => ?_
  refine .reads_bind (reads_checkWritable l) fun _ _ _ => ?_
  refine .ite (fun _ => .reads_bind (.fail _) fun _ _ (hfalse : False) => hfalse.elim) fun _ => ?_
  exact .reads_bind (reads_convert (hr n hn)) fun v _ hv => sound_write hl hv.1.fits hv.2

theorem sound_assignNumber (hl : h.Holds members l)
    (hr : ∀ v, r = some v → h.Holds members v) :
    Sound members h (assignNumber l r) fun w h' => h'.Holds members w := by
  refine .reads_bind (reads_operand l r _) fun n _ hn => ?_
  refine .reads_bind (reads_checkWritable l) fun _ _ _ => ?_
  exact .reads_bind (reads_convert (hr n hn)) fun v _ hv => sound_write hl hv.1.fits hv.2

/-- A value is stored into the cell of `l`, and the answer is that cell or the value before. -/
theorem sound_step (hl : h.Holds members l) (hv : h.Fits members v.ty v.data)
    (hty : v.ty.named = l.ty.named) (trailing : Bool) :
    Sound members h (do
      let stored ← write l v
      return if trailing then l.rvalue else stored) fun w h' => h'.Holds members w := by
  refine .bind (sound_write hl hv hty) fun stored h' hk _ hs => .pure ?_
  split
  · exact (hl.mono hk).rvalue
  · exact hs

theorem sound_stepPointer (hl : h.Holds members l) (increment : Bool) :
    Sound members h (stepPointer l r increment) fun w h' => h'.Holds members w := by
  refine .reads_bind (reads_checkWritable l) fun _ _ _ => ?_
  split
  · rename_i store i hd
    have hty : l.ty.isPointer = true := isPointer_of_fits hl.fits (by rw [hd]; rfl)
    refine .ite (fun _ => .reads_bind (.fail _) fun _ _ (hfalse : False) => hfalse.elim) fun _ => ?_
    refine .reads_bind (reads_position _) fun moved _ _ => ?_
    exact sound_step (v := .fresh l.ty (.array store moved)) hl (.pointer hty rfl) rfl _
  · exact .fail _

theorem sound_stepNumber (hl : h.Holds members l) (increment : Bool) :
    Sound members h (stepNumber l r increment) fun w h' => h'.Holds members w := by
  unfold stepNumber
  split
  · rename_i k x hk hx
    refine .reads_bind (reads_checkWritable l) fun _ _ _ =>
      .get_bind (.read_bind fun ctx hctx => ?_)
    have hty : l.ty = .arith k := by
      cases hl : l.ty <;> rw [hl] at hk <;> cases hk
      rfl
    refine .reads_bind (.ofExcept fun data hd => ?_) fun data _ hdata =>
      sound_step hl hdata (congrArg Ty.named hty.symm) _
    exact Numerics.fits_of_step hctx (hty ▸ hl.fits) hx hd
  · exact .fail _

theorem reads_arithBinary (hr : ∀ v, r = some v → h.Holds members v)
    (op : BinaryOp) : Reads h (arithBinary op l r) (h.Holds members) := by
  cases r with
  | none => exact .fail _
  | some v =>
    refine .ite (fun _ => reads_offset (hr v rfl) 1) fun _ =>
      .ite (fun _ => reads_pointerBinary (hr v rfl) op) fun _ => ?_
    split
    · exact .read_bind fun ctx hctx => .ofExcept fun w hw => Numerics.holds_of_binary hctx hw
    · exact .fail _

theorem reads_negate : Reads h (negate l r) (h.Holds members) := by
  unfold negate
  split
  · exact .read_bind fun ctx hctx => .ofExcept fun w hw => Numerics.holds_of_negate hctx hw
  · exact .unsupported _ l none

theorem reads_not : Reads h (OperatorM.not l r) (h.Holds members) := by
  unfold OperatorM.not
  split
  · exact .pure (Heap.holds_bool _)
  · exact .unsupported _ l none

theorem reads_complement : Reads h (complement l r) (h.Holds members) := by
  unfold complement
  split
  · exact .read_bind fun ctx hctx => .ofExcept fun w hw => Numerics.holds_of_complement hctx hw
  · exact .unsupported _ l none

theorem reads_comma (hr : ∀ v, r = some v → h.Holds members v) :
    Reads h (OperatorM.comma l r) (h.Holds members) := by
  cases r with
  | none => exact .pure (.fresh .void)
  | some v => exact .pure (hr v rfl)

theorem reads_addressOfFunction : Reads h (addressOfFunction l r) (h.Holds members) := by
  unfold addressOfFunction
  refine .check (.fail _) fun _ => ?_
  dsimp only
  split
  · refine .read_bind fun ctx _ => ?_
    split
    · exact .throw _
    · exact .pure (.fresh (.pointer rfl rfl))
    · exact .read_bind fun _ _ => .throw _
  · exact .unsupported _ l none

end OperatorM

namespace Operator

open OperatorM

variable {members : String → List Ty} {h : Heap} {l : Value} {r : Option Value}
  {f : Value → Option Value → OperatorM Value} {op : Operator}

theorem sound_ofNumber? (hl : h.Holds members l) (hr : ∀ v, r = some v → h.Holds members v)
    (hf : op.ofNumber? = some f) : Sound members h (f l r) fun w h' => h'.Holds members w := by
  cases op with
  | binary op => cases hf; exact .value (reads_arithBinary hr op)
  | assign => cases hf; exact sound_assignNumber hl hr
  | comma => cases hf; exact .value (reads_comma hr)
  | neg => cases hf; exact .value reads_negate
  | plus => cases hf; exact .pure hl.rvalue
  | addrOf => cases hf; exact .value reads_addressOf
  | not => cases hf; exact .value reads_not
  | bitNot => cases hf; exact .value reads_complement
  | inc | dec => cases hf; exact sound_stepNumber hl _
  | compound _ | deref | index => cases hf

theorem sound_ofPointer? (hl : h.Holds members l) (hr : ∀ v, r = some v → h.Holds members v)
    (hf : op.ofPointer? = some f) : Sound members h (f l r) fun w h' => h'.Holds members w := by
  cases op with
  | binary op =>
    obtain ⟨-, hf⟩ := Option.ite_none_right_eq_some.mp hf
    cases hf
    exact .value (reads_pointerBinary hl op)
  | assign => cases hf; exact sound_assignPointer hl hr
  | comma => cases hf; exact .value (reads_comma hr)
  | deref => cases hf; exact .of_wellFormed fun hw => .value (reads_deref hw)
  | addrOf => cases hf; exact .value reads_addressOf
  | not => cases hf; exact .pure (Heap.holds_bool _)
  | inc | dec => cases hf; exact sound_stepPointer hl _
  | index => cases hf; exact .of_wellFormed fun hw => .value (reads_index hw hl)
  | compound _ | neg | plus | bitNot => cases hf

theorem sound_ofType? (hl : h.Holds members l) (hr : ∀ v, r = some v → h.Holds members v)
    {ty : Ty} (hf : ofType? ty op = some f) :
    Sound members h (f l r) fun w h' => h'.Holds members w := by
  unfold ofType? at hf
  split at hf
  · exact sound_ofNumber? hl hr hf
  · exact sound_ofPointer? hl hr hf
  · exact sound_ofPointer? hl hr hf
  · exact sound_ofPointer? hl hr hf
  · cases hf; exact sound_assignStruct hl hr
  · cases hf; exact .value reads_addressOf
  · cases hf; exact .value reads_addressOfFunction
  · cases hf; exact .value (reads_comma hr)
  · cases hf; exact .value (reads_comma hr)
  · cases hf; exact .value (reads_comma hr)
  · cases hf

theorem sound_applyOwn (hl : h.Holds members l) (hr : ∀ v, r = some v → h.Holds members v) :
    Sound members h (applyOwn op l r) fun w h' => h'.Holds members w := by
  unfold applyOwn
  split
  · exact sound_ofType? hl hr ‹_›
  · exact .unsupported op l r

/-- The operator of an expression, whichever type its left operand has. -/
theorem sound_apply (hl : h.Holds members l) (hr : ∀ v, r = some v → h.Holds members v) :
    Sound members h (op.apply l r) fun w h' => h'.Holds members w := by
  unfold Operator.apply
  split
  · exact sound_ofType? hl hr ‹_›
  · exact .bind (sound_applyOwn hl hr) fun v h' hk _ hv =>
      sound_applyOwn (hl.mono hk) fun w hw => Option.some.inj hw ▸ hv
  · exact .unsupported _ l r

/-- Under the standard limits and either overflow policy, an operator that answers on a well-formed
heap and well-formed operands answers with a well-formed value and leaves a well-formed heap, in
which no cell has changed its type. -/
theorem apply_wellFormed {ctx : OperatorContext} {h' : Heap} {v : Value}
    (hctx : ctx.numerics.limits.Standard) (hw : h.WellFormed members) (hl : h.Holds members l)
    (hr : ∀ v, r = some v → h.Holds members v) (happly : op.apply l r ctx h = .ok v h') :
    h'.Holds members v ∧ h'.WellFormed members ∧
      ∀ p cell, h.load? p = some cell →
        ∃ cell', h'.load? p = some cell' ∧ (cell'.ty == cell.ty) = true := by
  have hs := (@sound_apply members h l r op hl hr).run hw ctx hctx
  rw [happly] at hs
  obtain ⟨hw', hk, hv⟩ := hs
  refine ⟨hv, hw', fun p cell hload => ?_⟩
  obtain ⟨c, hc, rfl⟩ := Heap.load?_eq_some_iff.mp hload
  obtain ⟨c', hc', hty⟩ := hk.cell hc
  exact ⟨_, Heap.load?_eq_some_iff.mpr ⟨c', hc', rfl⟩, Ty.beq_iff_named.mpr hty⟩

/-- A pointer to `int` that leads to a variable of type `bool`. -/
theorem apply_wellFormed_bool :
    let h : Heap := ⟨#[#[.bool true]]⟩
    let l : Value := .fresh (.pointer .int false) (.pointer (some (.slot 0)))
    let ctx : OperatorContext := ⟨{}, [], none⟩
    let v : Value := { Value.bool true with place := some (.slot 0) }
    h.WellFormed (fun _ => []) ∧ h.Holds (fun _ => []) l ∧
      Operator.deref.apply l none ctx h = .ok v h ∧ h.Holds (fun _ => []) v := by
  intro h l ctx v
  have hw : h.WellFormed fun _ => [] :=
    Heap.wellFormed_empty.alloc (by simpa using (Heap.holds_bool true).fits)
  have hl : h.Holds (fun _ => []) l := .fresh (.pointer rfl rfl)
  have hr : ∀ w, none = some w → h.Holds (fun _ => []) w := fun w hw => nomatch hw
  have happly : Operator.deref.apply l none ctx h = .ok v h := rfl
  exact ⟨hw, hl, happly, (apply_wellFormed LimitsTable.standard_empty hw hl hr happly).1⟩

end Operator

end Stepwise
