import Stepwise.Proofs.Confinement.Suspensions

/-! # What a run does passes hidden blocks by

Objects are made of parts that are in reach, calls bind arguments that are, and names are declared
for cells that are. So whatever a run goes on with from values in reach passes hidden blocks by.
-/

namespace Stepwise

namespace RunM

variable {H : Set BlockId} {s : State} {j k : Completion}

/-- No part is made yet. -/
theorem lies_empty {R : Set BlockId} : ∀ v ∈ (#[] : Array Value), v.Lies R :=
  fun v hv => absurd hv (Array.not_mem_empty v)

section Fill

variable {make : Making → RunM (Progress .value)}
  (hm : ∀ {s : State}, s.Hides H → ∀ m : Making, m.Within (s.reach H) → (make m).Confined H s)

theorem confined_finish (hs : s.Hides H) (f : Filling) {made : Array Value}
    (hmade : ∀ v ∈ made, v.Lies (s.reach H)) : (finish f made).Confined H s := by
  refine .bind (passesBy_alloc hs hmade) fun store t hp hstore => .done hp.hides ?_
  have hblock (b : BlockId) (hb : b ∈ [store]) : b ∈ t.reach H := List.mem_singleton.mp hb ▸ hstore
  refine ⟨Value.Lies.withReadonly (v := .fresh _ _) ?_ _, fun _ hp => nomatch hp⟩
  cases hty : f.target with
  | struct name members => exact ⟨.inr ⟨name, members, rfl⟩, hblock⟩
  | _ => exact ⟨.inl (Data.simple_pointer rfl), hblock⟩

include hm

/-- A part is made, or a frame waits for it. -/
theorem confined_part (hs : s.Hides H) {m : Making} (hwithin : m.Within (s.reach H)) {f : Filling}
    (hf : f.Within (s.reach H)) {next : Value → RunM (Progress .value)}
    (hn : ∀ v t, s.PassesBy H t → v.Lies (t.reach H) → (next v).Confined H t) :
    (do
      match ← make m with
      | .paused p path => return .paused p (path ++ Frames.one (.fill f))
      | .done v => next v : RunM (Progress .value)).Confined H s := by
  refine .bind (hm hs m hwithin) fun p t hp hpw => ?_
  cases p with
  | done v => exact hn v t hp hpw.toLies
  | paused p path => exact .paused hp.hides hpw.1 (hpw.2.append ⟨hf.mono hp.reach, trivial⟩)

theorem confined_fillDefaults (hs : s.Hides H) (f : Filling) (count : Nat) {made : Array Value}
    (hmade : ∀ v ∈ made, v.Lies (s.reach H)) : (fillDefaults make f count made).Confined H s := by
  induction count generalizing s made with
  | zero => exact confined_finish hs f hmade
  | succ n ih =>
    refine confined_part hm hs (m := .default _ _) trivial 
      (f := { f with made, next := [], defaults := n }) ⟨hmade, List.forall_mem_nil _⟩
      fun v t hp hv => ?_
    have hmade' (v : Value) (hm : v ∈ made) : v.Lies (t.reach H) := (hmade v hm).mono hp.reach
    refine .ite (confined_finish hp.hides f fun w hw => ?_) (ih hp.hides fun w hw => ?_)
    · rcases Array.mem_append.mp hw with hw | hw
      · exact hmade' w hw
      · exact (Array.mem_replicate.mp hw).2 ▸ hv
    · rcases Array.mem_push.mp hw with hw | rfl
      · exact hmade' w hw
      · exact hv

theorem confined_fillNext (hs : s.Hides H) (f : Filling) {next : List Making} {made : Array Value}
    (hnext : ∀ m ∈ next, m.Within (s.reach H)) (hmade : ∀ v ∈ made, v.Lies (s.reach H)) :
    (fillNext make f next made).Confined H s := by
  induction next generalizing s made with
  | nil => exact confined_fillDefaults hm hs f f.defaults hmade
  | cons m rest ih =>
    obtain ⟨hfirst, hrest⟩ := List.forall_mem_cons.mp hnext
    refine confined_part hm hs hfirst (f := { f with made, next := rest }) ⟨hmade, hrest⟩ fun v t hp hv => ih hp.hides
      (fun m hm => (hrest m hm).mono hp.reach) fun w hw => ?_
    rcases Array.mem_push.mp hw with hw | rfl
    · exact (hmade w hw).mono hp.reach
    · exact hv

theorem confined_fillArray (hs : s.Hides H) (ty element : Ty) (size : Nat)
    (items : List Initializer) (readonly : Bool) (hint : Option StructTy) (outermost : Bool) :
    (fillArray make ty element size items readonly hint outermost).Confined H s := by
  unfold fillArray
  refine .check fun _ => ?_
  split
  · exact .visit hs _ hint ⟨trivial, trivial⟩
  · refine confined_fillNext hm hs _ (fun m hm => ?_) lies_empty
    obtain ⟨item, -, rfl⟩ := List.mem_map.mp hm
    cases item with
    | expr e => trivial
    | list span items => cases element <;> trivial

end Fill

/-- The parts of a struct come from items, initializers and defaults. -/
theorem forall_members {P : Making → Prop} (hi : ∀ ty init r hint, P (.initial ty init r hint))
    (hd : ∀ ty r, P (.default ty r)) (readonly : Bool) (hint : Option StructTy) (ms : List MemberTy)
    (items : List Initializer) : ∀ m ∈ members readonly hint ms items, P m := by
  induction ms generalizing items with
  | nil => exact List.forall_mem_nil _
  | cons m ms ih =>
    cases items with
    | cons item items => exact List.forall_mem_cons.mpr ⟨hi _ _ _ _, ih items⟩
    | nil =>
      refine List.forall_mem_cons.mpr ⟨?_, ih []⟩
      cases m.default with
      | some init => exact hi _ _ _ _
      | none => exact hd _ _

/-- The elements of an array in reach. -/
theorem passesBy_elementsFrom (hs : s.Hides H) {v : Value} (hv : v.Lies (s.reach H)) :
    (elementsFrom v).PassesBy H s fun R cells => ∀ cell ∈ cells, cell.Lies R := by
  unfold elementsFrom
  split
  · rename_i store position hstore
    refine .get_bind (.pure hs fun cell hm => ?_)
    exact hs.heap.cells store (hv.array? hstore).2 cell
      (Array.mem_toList_iff.mp (List.mem_of_mem_drop hm))
  · exact .fail_text _ _

theorem confined_makeWithin (hs : s.Hides H) (depth : Nat) {m : Making}
    (hm : m.Within (s.reach H)) : (makeWithin depth m).Confined H s := by
  induction depth generalizing s m with
  | zero => exact .fail _
  | succ depth ih =>
    have hnull (ty : Ty) (readonly : Bool) :
        (return .done ((Value.null ty).withReadonly readonly) : RunM (Progress .value)).Confined H s :=
      .done hs ((Value.within_null ty).withReadonly readonly)
    cases m with
    | default ty readonly =>
      cases ty with
      | arith k =>
        refine .done hs (Value.Within.withReadonly ?_ _)
        cases k.isFloat <;> exact Value.within_number rfl
      | array element size => exact confined_fillNext (fun hs _ hm => ih hs hm) hs _ (List.forall_mem_nil _) lies_empty
      | struct name fields => exact .inspect_bind (ih hs trivial)
      | pointer | functionPointer => exact hnull _ _
      | void => exact .done hs (Value.within_void.withReadonly _)
      | function _ | marker => exact .fail _
    | initial ty init readonly hint =>
      cases init with
      | expr e =>
        refine .ite (.visit hs e hint ⟨trivial, trivial⟩) (.inspect_bind ?_)
        exact .visit hs e _ ⟨trivial, trivial⟩
      | list span items =>
        simp only [makeWithin]
        split
        · exact confined_fillArray (fun hs _ hm => ih hs hm) hs _ _ _ _ _ _ _
        · exact .inspect_bind (ih hs trivial)
        · exact ih hs trivial
        · exact ih hs trivial
        · exact .fail _
        · exact .fail _
    | row ty items readonly hint =>
      cases ty with
      | array element size => exact confined_fillArray (fun hs _ hm => ih hs hm) hs _ _ _ _ _ _ _
      | _ => exact .fail _
    | struct d items readonly hint =>
      simp only [makeWithin]
      refine .check fun _ => confined_fillNext (fun hs _ hm => ih hs hm) hs _ ?_ lies_empty
      exact forall_members (fun _ _ _ _ => trivial) (fun _ _ => trivial) _ _ _ _
    | copy ty v readonly =>
      exact .bind (passesBy_copy hs hm ty) fun w t hp hw => .done hp.hides (hw.withReadonly _)
    | arrayOf ty v readonly =>
      cases ty with
      | array element size =>
        refine .bind (passesBy_elementsFrom hs hm) fun cells t hp hcells => ?_
        refine .check fun _ => confined_fillNext (fun hs _ hm => ih hs hm) hp.hides _ ?_ lies_empty
        intro part hpart
        obtain ⟨cell, hcell, rfl⟩ := List.mem_map.mp hpart
        split <;> exact hcells cell hcell
      | _ => exact .fail _
    | nested => exact .fail _

theorem confined_make (hs : s.Hides H) {m : Making} (hm : m.Within (s.reach H)) :
    (make m).Confined H s := .inspect_bind (confined_makeWithin hs _ hm)

section Objects

variable (hs : s.Hides H) {v : Value} (hv : v.Lies (s.reach H)) (ty : Ty) (readonly : Bool)

include hs

theorem confined_resumeFilling {f : Filling} (hf : f.Within (s.reach H)) (hv : v.Lies (s.reach H)) :
    (resumeFilling f v).Confined H s := by
  refine confined_fillNext (fun hs _ hm => confined_make hs hm) hs f hf.next fun w hw => ?_
  rcases Array.mem_push.mp hw with hw | rfl
  · exact hf.made w hw
  · exact hv

include hv

theorem confined_makeArrayFrom : (makeArrayFrom ty readonly v).Confined H s :=
  .ite (fun _ _ _ h => nomatch h) (confined_make hs hv)

theorem confined_makeOpen : (makeOpen ty readonly v).Confined H s :=
  .bind (passesBy_elementsFrom hs hv) fun _ _ hp _ => confined_make hp.hides (hv.mono hp.reach)

/-- A number is stored into the first scalar of an array in reach. -/
theorem passesBy_storeIntoFirst (hi : v.ty.isIntegral = true) :
    (ty : Ty) → {array : Value} → array.Lies (s.reach H) →
      (storeIntoFirst v readonly ty array).PassesBy H s fun _ _ => True
  | .array element _, array, ha => by
    unfold storeIntoFirst
    split
    · exact .pure hs trivial
    · rename_i store position hstore
      have hreach : store ∈ s.reach H := ha.array? hstore
      refine .inspect_bind ?_
      split
      · exact .pure hs trivial
      · rename_i first hfirst
        split
        · exact passesBy_storeIntoFirst hi element (hs.heap.load? hreach hfirst).toLies
        · have hnumber : (operate (OperatorM.convert v first.ty false)).PassesBy H s fun R w =>
              w.Within R ∧ w.block? = none :=
            passesBy_operate hs (.of_gives hs.heap (OperatorM.gives_ofNumber hv hi
              (Bool.eq_false_iff.mpr ‹_›)))
          refine .bind hnumber fun w t hp hw => ?_
          obtain ⟨hw, hb⟩ := hw
          have hfill := OperatorM.passesBy_fill hp.hides.heap (p := .element store 0)
            (hp.reach hreach) (hw.toLies.withReadonly readonly) hb
          exact .discard (passesBy_operate hp.hides hfill)
  | .void, _, _ | .arith _, _, _ | .pointer .., _, _ | .struct .., _, _ => .pure hs trivial
  | .functionPointer _, _, _ | .function _, _, _ | .marker, _, _ => .pure hs trivial

theorem confined_storeFirst (hi : v.ty.isIntegral = true) {array : Value}
    (ha : array.Within (s.reach H)) : (storeFirst v readonly array).Confined H s :=
  .bind (passesBy_storeIntoFirst hs hv readonly hi array.ty ha.toLies) fun _ _ hp _ =>
    .done hp.hides (ha.mono hp.reach)

theorem confined_makeSingle : (makeSingle ty readonly v).Confined H s := by
  cases ty with
  | array element size =>
    refine .ite (confined_fillNext (fun hs _ hm => confined_make hs hm) hs _ ?_ lies_empty) ?_
    · exact List.forall_mem_singleton.mpr hv
    · split
      · rename_i hi
        obtain ⟨hi, -⟩ := Bool.and_eq_true_iff.mp hi
        refine .bind (confined_make hs trivial) fun p t hp hpw => ?_
        have hv' := hv.mono hp.reach
        have hframe : (Frame.storeFirst v readonly).Within (t.reach H) := ⟨hv', hi⟩
        exact .andThen hp.hides hpw hframe fun array ha =>
          confined_storeFirst hp.hides hv' readonly hi ha
      · exact .fail_text _ _
  | _ => exact .fail _

end Objects

section Calls

theorem confined_intResult (hs : s.Hides H) (n : Int) : (intResult n).Confined H s :=
  .done hs (Value.within_int _ _)

theorem confined_readCharacter (hs : s.Hides H) : readCharacter.Confined H s := by
  intro c p t h
  rw [readCharacter_apply] at h
  have hread : State.Hides H { s with console := s.console.read.2 } := hs.beside ⟨rfl, rfl, rfl⟩
  have hbeside : s.PassesBy H { s with console := s.console.read.2 } := .beside hs ⟨rfl, rfl, rfl⟩
  cases hr : s.console.read.1 <;> rw [hr] at h <;> cases h
  · exact ⟨hbeside, Value.within_int _ _⟩
  · exact ⟨hbeside, trivial, trivial⟩
  · exact ⟨hbeside, Value.within_int _ _⟩

/-- Whatever a function of the library does, its result is a number, or a new file. -/
theorem confined_callLibrary (hs : s.Hides H) (f : StdioFunction) (args : List Value) :
    (callLibrary f args).Confined H s := by
  have hT := sequential_beside
  have hchange {x : RunM Unit} (hx : x.Beside fun _ => True) (n : Int) {t : State} (ht : t.Hides H) :
      (do x; intResult n : RunM (Progress .value)).Confined H t :=
    .beside_bind ht hx fun _ u hu _ => confined_intResult hu.hides n
  have hwrite (text : String) : (writeConsole text).Beside fun _ => True :=
    .modify fun _ => ⟨rfl, rfl, rfl⟩
  unfold callLibrary
  split
  -- printf, puts and putchar
  · refine .beside_bind hs (hT.stringArgument _) fun format t ht _ => .get_bind (.read_bind fun c => ?_)
    refine .beside_bind ht.hides (hT.ofLibrary _) fun out u hu _ => hchange (hwrite _) _ hu.hides
  · exact .fail _
  · exact .beside_bind hs (hT.stringArgument _) fun out t ht _ => hchange (hwrite _) _ ht.hides
  · split
    · exact .fail _
    · extract_lets rest
      split
      · exact hchange (hwrite _) _ hs
      · exact confined_intResult hs _
  · exact confined_readCharacter hs
  -- fopen
  · refine .beside_bind hs (hT.stringArgument _) fun name t ht _ => ?_
    refine .beside_bind ht.hides (hT.stringArgument _) fun mode u hu _ => ?_
    exact .answer (delivers_filePointer hu.hides name mode)
  -- fputs, fgetc and fclose
  · refine .beside_bind hs (hT.stringArgument _) fun out t ht _ => ?_
    refine .beside_bind ht.hides (hT.fileHandle _) fun handle u hu _ => .get_bind ?_
    split
    · exact confined_intResult hu.hides _
    · refine hchange (.modify ?_) _ hu.hides
      exact fun _ => ⟨rfl, rfl, rfl⟩
  · refine .beside_bind hs (hT.fileHandle _) fun handle u hu _ => .get_bind ?_
    split
    · exact confined_intResult hu.hides _
    · refine hchange (.modify ?_) _ hu.hides
      exact fun _ => ⟨rfl, rfl, rfl⟩
  · refine .beside_bind hs (hT.fileHandle _) fun handle u hu _ => .get_bind ?_
    split
    · exact confined_intResult hu.hides _
    · refine hchange (.modify ?_) _ hu.hides
      exact fun _ => ⟨rfl, rfl, rfl⟩
  · exact .fail _

theorem passesBy_boundArguments (hs : s.Hides H) {args : List Value}
    (ha : ∀ v ∈ args, v.Within (s.reach H)) (actions : List ArgAction) (params : List ParamTy) :
    (boundArguments args actions params).PassesBy H s fun R bound => ∀ v ∈ bound, v.Within R := by
  induction args generalizing s actions params with
  | nil => exact .pure hs (List.forall_mem_nil _)
  | cons v vs ih =>
    obtain ⟨hfirst, hrest⟩ := List.forall_mem_cons.mp ha
    unfold boundArguments
    extract_lets rest
    have hbound (bound : Value) {t : State} (hp : s.PassesBy H t) (hb : bound.Within (t.reach H)) :
        (rest bound).PassesBy H t fun R bound => ∀ v ∈ bound, v.Within R := by
      refine .bind (ih hp.hides (fun w hw => (hrest w hw).mono hp.reach) _ _) fun ws u hp' hws => ?_
      exact .pure hp'.hides (List.forall_mem_cons.mpr ⟨hb.mono hp'.reach, hws⟩)
    split
    · exact hbound _ (.refl hs) hfirst.toLies.rvalue
    · split
      · exact hbound _ (.refl hs) hfirst
      · refine .bind (passesBy_copy hs hfirst.toLies _) fun w t hp hw => ?_
        exact hbound _ hp (hw.withReadonly _)

theorem passesBy_bindReceiver (hs : s.Hides H) {r : Receiver} (hr : r.Within (s.reach H)) :
    (bindReceiver r).PassesBy H s fun _ _ => True := by
  unfold bindReceiver
  split
  · rename_i name fields hty
    refine .inspect_bind ?_
    extract_lets rest
    have hrest (object : Place) {t : State} (ht : t.Hides H) (ho : object.block ∈ t.reach H) :
        (rest object).PassesBy H t fun _ _ => True := by
      have hthis (ty : Ty) : (Value.fresh ty (.pointer (some object))).Lies (t.reach H) :=
        (Value.within_fresh (Data.simple_pointer rfl) fun b hb =>
          List.mem_singleton.mp hb ▸ ho).toLies
      refine .bind (passesBy_defineVariable ht ((hthis _).withReadonly true) _) fun _ u hp _ => ?_
      refine .inspect_bind ?_
      split
      · exact .fail _
      · rename_i store hstore
        obtain ⟨v, hv, hstore⟩ := Option.bind_eq_some_iff.mp hstore
        have hv := hp.hides.load? (hp.reach ho) hv
        refine .bind (passesBy_forIn hp.hides fun (m, i) _ w hw => ?_) fun _ w hw _ => .pure hw.hides trivial
        refine .bind (passesBy_declare hw.hides ?_ _) fun _ x hx _ => .pure hx.hides rfl
        exact hw.reach (hv.toLies.structStore? hstore)
    split
    · exact hrest _ hs (hr.place _ ‹_›)
    · refine .bind (passesBy_newSlot hs ⟨.inr ⟨_, _, hty⟩, fun b hb => ?_⟩) fun p t hp hb => ?_
      · exact List.mem_singleton.mp hb ▸ hr.store
      · exact hrest p hp.hides hb
  · exact .fail _

theorem passesBy_bindParameter (hs : s.Hides H) {v : Value} (hv : v.Within (s.reach H))
    (name : Option String) : (bindParameter name v).PassesBy H s fun _ _ => True := by
  unfold bindParameter
  split
  · exact .pure hs trivial
  · exact passesBy_declare hs (hv.place _ ‹_›) _
  · exact passesBy_defineVariable hs hv.toLies _

section Body

variable (entry : FunctionEntry) (body : Stmt)

theorem confined_runDefaults (hs : s.Hides H) (params : List (ParamInfo × ParamTy)) :
    (runDefaults entry body params).Confined H s := by
  unfold runDefaults
  split
  · exact .visitStmt hs body false trivial
  · exact .visit hs _ none ⟨trivial, trivial⟩
  · exact .fail _

theorem confined_takeDefault (hs : s.Hides H) (name : String) (param : ParamTy)
    (rest : List (ParamInfo × ParamTy)) {v : Value} (hv : v.Lies (s.reach H)) :
    (takeDefault entry body name param rest v).Confined H s :=
  .bind (passesBy_copy hs hv _) fun _ _ hp hw =>
    .bind (passesBy_defineVariable hp.hides (hw.toLies.withReadonly _) name) fun _ _ hp' _ =>
      confined_runDefaults entry body hp'.hides rest

theorem confined_beginBody (hs : s.Hides H) {receiver : Option Receiver}
    (hr : ∀ r, receiver = some r → r.Within (s.reach H)) {args : List Value}
    (ha : ∀ v ∈ args, v.Within (s.reach H)) : (beginBody entry receiver body args).Confined H s := by
  unfold beginBody
  extract_lets rest
  have hrest {t : State} (hp : s.PassesBy H t) : (rest ⟨⟩).Confined H t := by
    refine .bind (passesBy_forIn hp.hides fun (v, info) hm u hu => ?_) fun _ u hu _ => ?_
    · refine .bind (passesBy_bindParameter hu.hides ?_ _) fun _ w hw _ => .pure hw.hides rfl
      exact (ha v (List.of_mem_zip hm).1).mono (hp.trans hu).reach
    · exact confined_runDefaults entry body hu.hides _
  split
  · refine .bind (passesBy_bindReceiver hs (hr _ rfl)) fun _ t hp _ => ?_
    exact .bind (passesBy_pushScope hp.hides _) fun _ u hu _ => hrest (hp.trans hu)
  · exact hrest (.refl hs)

end Body

theorem delivers_returned (hs : s.Hides H) (entry : FunctionEntry) {flow : Flow}
    (hf : flow.Within (s.reach H)) : (returned entry flow).Delivers H s := by
  refine .ite (.pure hs Value.within_void) ?_
  split
  · exact passesBy_copy hs (Value.Within.toLies hf) _
  · exact .ite (.pure hs (Value.within_int _ _)) (.fail _)

theorem confined_endCall (hs : s.Hides H) (entry : FunctionEntry) (depth : Nat) {flow : Flow}
    (hf : flow.Within (s.reach H)) : (endCall entry depth flow).Confined H s :=
  .bind (passesBy_leaveScopes hs depth) fun _ _ hp _ =>
    .answer (delivers_returned hp.hides entry (Flow.Within.mono hf hp.reach))

theorem confined_enterBody (hs : s.Hides H) (entry : FunctionEntry) {receiver : Option Receiver}
    (hr : ∀ r, receiver = some r → r.Within (s.reach H)) (body : Stmt) {args : List Value}
    (ha : ∀ v ∈ args, v.Within (s.reach H)) : (enterBody entry receiver body args).Confined H s := by
  refine .get_bind (.bind (passesBy_modify (.onScopes hs (hs.names.scopes.opened _ true)))
    fun _ t hp _ => ?_)
  refine .rescue (confined_beginBody entry body hp.hides (fun r hm => (hr r hm).mono hp.reach)
    fun v hm => (ha v hm).mono hp.reach) (fun p u hu hpw => ?_) fun _ => rfl
  have hframe : (Frame.endCall entry s.scopes.depth).Within (u.reach H) := trivial
  exact .andThen hu.hides hpw hframe fun flow hf => confined_endCall hu.hides entry _ hf

/-- The function that is called is the one that the value stands for. -/
theorem function_of_resolve {ctx : OperatorContext} {heap : Heap} {f : Value} {args : List ArgSig}
    {templates : List Ty} {target : CallTarget} {tables : OwnerTables}
    (h : CallTarget.resolve ctx heap f args templates = .ok (target, tables)) :
    f.data = .function target.function ∨ f.data = .functionPointer (some target.function) := by
  have hfunction {g : FunctionRef}
      (h : CallTarget.ofFunction ctx g args templates = .ok (target, tables)) :
      target.function = g := by
    unfold CallTarget.ofFunction at h
    split at h
    · cases h
    · cases h
    · cases h
      rfl
  unfold CallTarget.resolve at h
  dsimp only at h
  split at h
  · rw [hfunction h]
    exact .inl ‹_›
  · rw [hfunction h]
    exact .inr ‹_›
  all_goals cases h

theorem beside_resolveCall (f : Value) (args : List Value) : (resolveCall f args).Beside fun target =>
    f.data = .function target.function ∨ f.data = .functionPointer (some target.function) := by
  have hT := sequential_beside
  refine hT.read_bind fun c => hT.get_bind (fun _ _ => rfl) fun s => ?_
  dsimp only
  split
  · exact fun _ _ _ _ h => nomatch h
  · exact hT.bind (.modify fun _ => ⟨rfl, rfl, rfl⟩) fun _ _ => hT.pure (function_of_resolve ‹_›)

theorem confined_call (hs : s.Hides H) {f : Value} (hf : f.Lies (s.reach H)) {args : List Value}
    (ha : ∀ v ∈ args, v.Within (s.reach H)) : (call f args).Confined H s := by
  rw [call_eq_resolveCall]
  refine .beside_bind hs (beside_resolveCall f args) fun target t ht htarget => ?_
  have hfunction : target.function.Within (s.reach H) := by
    have hdata := hf.data
    rcases htarget with htarget | htarget <;> rw [htarget] at hdata
    · exact FunctionRef.within_of_blocks hdata
    · exact FunctionRef.within_of_blocks hdata
  refine .beside_bind ht.hides (sequential_beside.function _) fun entry u hu _ => ?_
  have hreach := (ht.trans hu).reach
  refine .bind (passesBy_boundArguments hu.hides (fun v hv => (ha v hv).mono hreach) _ _) fun bound w hp hbound => ?_
  split
  · exact confined_callLibrary hp.hides _ _
  · exact .fail _
  · exact confined_enterBody hp.hides entry (fun r hr => (hfunction r hr).mono (hreach.trans hp.reach)) _
      hbound

end Calls

section Expressions

theorem confined_sizeValue (hs : s.Hides H) (ty : Ty) : (sizeValue ty).Confined H s :=
  .ask_bind fun _ => .done hs (Value.within_int _ _)

theorem confined_evaluate (hs : s.Hides H) (e : Expr) (hint : Option StructTy) :
    (evaluate e hint).Confined H s := by
  cases e with
  | literal _ l => exact .answer (delivers_literal hs l)
  | identifier _ name =>
    exact .get_bind (.answer (delivers_named hs (fun _ hv => within_value? hs hv) name))
  | qualified _ path =>
    refine .inspect_bind (.answer (delivers_named hs (fun v hv => ?_) _))
    obtain ⟨p, hp, hv⟩ := Option.bind_eq_some_iff.mp hv
    exact hs.load? (hs.names.namespaces.lookup hp) hv
  | cast _ spec target operand =>
    exact .ask_bind fun ty => .visit hs operand hint ⟨trivial, trivial⟩
  | sizeofType _ spec target => exact .ask_bind fun ty => confined_sizeValue hs ty
  | list _ items =>
    cases hint with
    | some d => exact confined_make hs trivial
    | none => exact .fail _
  | _ => exact .visit hs _ hint ⟨trivial, trivial⟩

theorem confined_applyTo (hs : s.Hides H) (op : Operator) {l r : Value}
    (hl : l.Within (s.reach H)) (hr : r.Within (s.reach H)) : (applyTo op l r).Confined H s := by
  refine .answer (passesBy_apply hs hl fun v hv => ?_)
  cases hv
  exact hr

theorem confined_decideLogical (hs : s.Hides H) (op : LogicalOp) (right : Expr)
    (hint : Option StructTy) (l : Value) : (decideLogical op right hint l).Confined H s := by
  refine .bind (passesBy_holds hs l) fun holds t hp _ => ?_
  split
  · exact .done hp.hides (Value.within_bool _)
  · exact .done hp.hides (Value.within_bool _)
  · exact .visit hp.hides right hint ⟨trivial, trivial⟩

theorem confined_nextArgument (hs : s.Hides H) {f : Value} (hf : f.Within (s.reach H))
    {values : List Value} (hv : ∀ v ∈ values, v.Within (s.reach H)) (hint : Option StructTy)
    (args : List Expr) : (nextArgument f values hint args).Confined H s := by
  cases args with
  | nil => exact confined_call hs hf.toLies fun v hm => hv v (List.mem_reverse.mp hm)
  | cons e rest => exact .visit hs e hint ⟨⟨hf, hv⟩, trivial⟩

theorem confined_memberOf (hs : s.Hides H) {object : Value} (ho : object.Within (s.reach H))
    (name : String) (throughPointer : Bool) :
    (memberOf object name throughPointer).Confined H s := by
  unfold memberOf
  extract_lets rest
  have hrest {target : Value} {t : State} (ht : t.Hides H) (hv : target.Within (t.reach H)) :
      (rest target).Confined H t := .answer (delivers_member ht hv name)
  refine .ite ?_ (hrest hs ho)
  exact .bind (passesBy_apply hs ho fun _ h => nomatch h) fun _ _ hp hv => hrest hp.hides hv

theorem confined_applyUnary (hs : s.Hides H) (op : UnaryOp) {v : Value}
    (hv : v.Within (s.reach H)) : (applyUnary op v).Confined H s := by
  refine .answer (passesBy_apply hs hv fun w hw => ?_)
  have hmarker : Value.marker.Within (s.reach H) := Value.within_fresh (fun _ h => nomatch h)
    (List.forall_mem_nil _)
  cases op <;> cases hw <;> exact hmarker

end Expressions

section Declarations

theorem passesBy_bindReference (hs : s.Hides H) (name : String) (d : Declared) {v : Value}
    (hv : v.Within (s.reach H)) : (bindReference name d v).PassesBy H s fun _ _ => True := by
  unfold bindReference
  split
  · exact passesBy_declare hs (hv.place _ ‹_›) name
  · split
    · refine .bind (passesBy_copy hs hv.toLies _) fun w t hp hw => ?_
      exact passesBy_defineVariable hp.hides (hw.toLies.withReadonly true) name
    · exact .fail_text _ _

/-- A name is bound to a cell, or to a copy. -/
theorem passesBy_bindDeclared (hs : s.Hides H) (name : String) (d : Declared) {v : Value}
    (hv : v.Within (s.reach H)) : (if d.reference then bindReference name d v else do
      defineVariable name ((← operate (OperatorM.copy v d.type)).withReadonly d.readonly)
      : RunM Unit).PassesBy H s fun _ _ => True := by
  refine .ite (passesBy_bindReference hs name d hv) ?_
  refine .bind (passesBy_copy hs hv.toLies _) fun w t hp hw => ?_
  exact passesBy_defineVariable hp.hides (hw.toLies.withReadonly _) name

theorem passesBy_bind (hs : s.Hides H) (binding : Binding) {v : Value}
    (hv : v.Within (s.reach H)) : (RunM.bind binding v).PassesBy H s fun _ _ => True := by
  cases binding with
  | name name => exact passesBy_defineVariable hs hv.toLies name
  | auto spec d => exact .ask_bind fun d => .nameOf_bind fun name => passesBy_bindDeclared hs name d hv
  | reference name d => exact passesBy_bindReference hs name d hv

theorem confined_initialValue (hs : s.Hides H) (name : String) (d : Declared)
    (init : Option Initializer) : (initialValue name d init).Confined H s := by
  unfold initialValue
  split
  · unfold openValue
    split
    · exact .fail _
    · exact confined_make hs trivial
    · exact .visit hs _ none ⟨trivial, trivial⟩
    · exact .fail _
  · exact confined_make hs trivial
  · exact confined_make hs trivial

theorem passesBy_defineFunctionName (hs : s.Hides H) (name : String) (type : FunctionTy) :
    (defineFunctionName name type).PassesBy H s fun _ _ => True := by
  have hv (R : Set BlockId) : (functionValue name type).Lies R :=
    ⟨.inl (fun _ h => nomatch h), List.forall_mem_nil _⟩
  refine .bind (passesBy_newSlot hs (hv _)) fun p t hp hb => ?_
  exact passesBy_modify (.onScopes hp.hides (hp.names.scopes.defineGlobal hb))

theorem beside_register (entry : FunctionEntry) : (register entry).Beside fun _ => True := by
  have hT := sequential_beside
  have hr (name : String) : (redeclared name : RunM Unit).Beside fun _ => True := .fail _
  refine hT.get_bind (fun _ _ => rfl) fun s => ?_
  dsimp only
  split
  · refine hT.bind (hT.function _) fun existing _ => hT.check (hr _) ?_
    dsimp only
    split
    · exact hT.pure trivial
    · exact .modify fun _ => ⟨rfl, rfl, rfl⟩
    · exact hr _
  · split
    · exact .fail _
    · exact .modify fun _ => ⟨rfl, rfl, rfl⟩

/-- What declares a declarator binds names in reach, or waits for a value. -/
theorem passesBy_declareOne (hs : s.Hides H) (spec : TypeSpec) (item : InitDeclarator) :
    (declareOne spec item).PassesBy H s fun R found => ∀ e ∈ found, e.2.Within R := by
  have hvalue (binding : Binding) {x : RunM (Progress .value)} (hx : x.Confined H s) :
      (do return some (binding, ← x)).PassesBy H s fun R found => ∀ e ∈ found, e.2.Within R := by
    refine .bind hx fun p t hp hpw => .pure hp.hides fun e he => ?_
    cases he
    exact hpw
  unfold declareOne
  split
  · split
    · exact hvalue _ (.visit hs _ none trivial)
    · exact .fail _
    · exact .fail _
  · refine .ask_bind fun d => .nameOf_bind fun name => ?_
    split
    · refine .bind (.beside_bind hs (beside_register _) fun _ t hp _ =>
        passesBy_defineFunctionName hp.hides name _) fun _ t hp _ => .pure hp.hides fun _ h => nomatch h
    · exact hvalue _ (.visit hs _ none trivial)
    · exact .fail _
    · exact hvalue _ (confined_initialValue hs name d _)

theorem confined_declareAll (hs : s.Hides H) (spec : TypeSpec) (items : List InitDeclarator) :
    (declareAll spec items).Confined H s := by
  induction items generalizing s with
  | nil => exact .normal hs
  | cons item rest ih =>
    refine .bind (passesBy_declareOne hs spec item) fun found t hp hfound => ?_
    cases found with
    | none => exact ih hp.hides
    | some found =>
      have hframe : (Frame.bind found.1 spec rest).Within (t.reach H) := trivial
      refine .andThen hp.hides (hfound found rfl) hframe fun v hv => ?_
      exact .bind (passesBy_bind hp.hides _ hv) fun _ u hu _ => ih hu.hides

theorem confined_declaration (hs : s.Hides H) (decl : Declaration) :
    (declaration decl).Confined H s := by
  have hall {t : State} (hp : s.PassesBy H t) :
      (declareAll decl.spec decl.declarators).Confined H t := confined_declareAll hp.hides _ _
  unfold declaration
  split
  · refine .bind (?_ : (forwardDeclare decl.spec).PassesBy H s fun _ _ => True) fun _ _ hp _ => hall hp
    unfold forwardDeclare
    split
    · refine .get_bind (.ite (passesBy_modify (.beside hs ⟨rfl, rfl, rfl⟩)) (.pure hs trivial))
    · exact .pure hs trivial
  · exact hall (.refl hs)

theorem passesBy_defineFunction (hs : s.Hides H) (f : FunctionDef) (owner : Owner) :
    (defineFunction f owner).PassesBy H s fun _ _ => True := by
  refine .ask_bind fun d => ?_
  split
  · refine .nameOf_bind fun name => .check fun _ => ?_
    refine .beside_bind hs (beside_register _) fun _ t hp _ => ?_
    exact .ite (passesBy_defineFunctionName hp.hides name _) (.pure hp.hides trivial)
  · exact .fail _

theorem beside_structMembers (name : String) (fields : List MemberDecl) (known : List MemberTy) :
    (structMembers name fields known).Beside fun _ => True := by
  have hT := sequential_beside
  induction fields generalizing known with
  | nil => exact hT.pure trivial
  | cons m rest ih =>
    refine hT.bind (hT.ask fun _ hU => hU.declared _ _) fun d _ => ?_
    refine hT.bind (hT.nameOf d _) fun name _ => ?_
    refine hT.check (R := fun _ => True) (fun _ _ _ _ h => nomatch h) ?_
    exact hT.check (R := fun _ => True) (fun _ _ _ _ h => nomatch h) (ih _)

theorem passesBy_defineStructType (hs : s.Hides H) (name : String) (fields : List MemberDecl)
    (methods : List FunctionDef) :
    (defineStructType name fields methods).PassesBy H s fun _ _ => True := by
  have hdefine (d : StructTy) : (defineStruct d).Beside fun _ => True :=
    .modify fun _ => ⟨rfl, rfl, rfl⟩
  refine .beside_bind hs (hdefine _) fun _ t ht _ => ?_
  refine .beside_bind ht.hides (beside_structMembers name fields []) fun ms u hu _ => ?_
  refine .beside_bind hu.hides (hdefine _) fun _ w hw _ => passesBy_forM hw.hides fun m _ x hx => ?_
  exact passesBy_defineFunction hx.hides m _

theorem beside_defineTypedefs (decl : Declaration) :
    (defineTypedefs decl).Beside fun _ => True :=
  sequential_beside.defineTypedefs_of_names (fun _ _ => .modify fun _ => ⟨rfl, rfl, rfl⟩) decl

theorem passesBy_onNamespaces (hs : s.Hides H)
    {f : Namespaces Place → Except String (Namespaces Place)}
    (hf : ∀ n P, n.All P → ∀ n', f n = .ok n' → n'.All P) :
    (onNamespaces f).PassesBy H s fun _ _ => True := by
  refine .get_bind ?_
  split
  · exact passesBy_modify (.onNamespaces hs (hf _ _ hs.names.namespaces _ ‹_›))
  · exact .fail _

end Declarations

end RunM

end Stepwise
