import Stepwise.Proofs.Closure.Frames
import Stepwise.Proofs.Closure.Steps
import Stepwise.Proofs.Session.Schedules

/-! # Invariants

What single changes of heap and state maintain, operators, computations and whole steps
maintain. An invariant may depend on the configuration, which is the same in all of a run.
-/

namespace Stepwise

/-- A relation of an earlier heap and a later one that is kept by all that operators do. -/
structure Heap.Kept (H : Heap → Heap → Prop) : Prop where
  refl : ∀ h, H h h
  trans : ∀ {h h' h'' : Heap}, H h h' → H h' h'' → H h h''
  alloc : ∀ (h : Heap) cells, H h (h.alloc cells).2
  store : ∀ {h h' : Heap} {p v}, h.store? p v = some h' → H h h'
  init : ∀ {h h' : Heap} {p v}, h.init? p v = some h' → H h h'

/-- A relation of an earlier heap and a later one that is kept when blocks are added. -/
structure Heap.Grown (H : Heap → Heap → Prop) : Prop where
  refl : ∀ h, H h h
  trans : ∀ {h h' h'' : Heap}, H h h' → H h' h'' → H h h''
  alloc : ∀ (h : Heap) cells, H h (h.alloc cells).2

/-- A relation of an earlier heap and a later one that is also kept when values are stored. -/
structure Heap.Stored (H : Heap → Heap → Prop) : Prop extends Heap.Grown H where
  store : ∀ {h h' : Heap} {p v}, h.store? p v = some h' → H h h'

variable {H : Heap → Heap → Prop}

theorem Heap.Kept.stored (hH : Heap.Kept H) : Heap.Stored H :=
  ⟨⟨hH.refl, hH.trans, hH.alloc⟩, hH.store⟩

namespace HeapM

variable (hH : Heap.Grown H)

include hH

theorem grown_mapM {g : Value → HeapM Value} (hg : ∀ v h, H h ((g v).run h).2)
    (cells : Array Value) (h : Heap) : H h ((cells.mapM g).run h).2 := by
  rw [Array.mapM_eq_mapM_toList]
  change H h ((cells.toList.mapM g).run h).2
  induction cells.toList generalizing h with
  | nil => exact hH.refl h
  | cons cell cells ih =>
    rw [List.mapM_cons]
    exact hH.trans (hg cell h) (ih _)

theorem grown_deepCopyWithin (bound : Nat) (v : Value) (h : Heap) :
    H h ((deepCopyWithin bound v).run h).2 := by
  induction bound generalizing v h with
  | zero => exact hH.refl h
  | succ bound ih =>
    unfold deepCopyWithin
    extract_lets copyBlock
    have hcopy (store : BlockId) (h : Heap) : H h ((copyBlock store).run h).2 :=
      hH.trans (grown_mapM hH (g := fun cell => do
        return (← deepCopyWithin bound cell).withReadonly cell.readonly) ih (h.cells store) h)
        (hH.alloc _ _)
    split
    · exact hcopy _ h
    · split
      · exact hcopy _ h
      · exact hH.refl h
    · exact hH.refl h

theorem grown_deepCopy (v : Value) (h : Heap) : H h ((deepCopy v).run h).2 :=
  grown_deepCopyWithin hH _ v h

theorem grown_attempt {g : Heap → Option Heap} {h : Heap} (hg : ∀ h', g h = some h' → H h h') :
    H h ((attempt g).run h).2 := by
  simp only [attempt, StateT.run_modifyGet]
  cases hgh : g h with
  | some h' => exact hg h' hgh
  | none => exact hH.refl h

end HeapM

namespace OperatorM

variable {α β : Type}

/-- The computation keeps the relation, and does not fail for want of the end of an object. -/
def Keeps (H : Heap → Heap → Prop) (x : OperatorM α) : Prop := ∀ ctx h,
  match x ctx h with
  | .ok _ h' => H h h'
  | .error fault h' => H h h' ∧ fault.cause.isCommon = true

theorem copying_keeps (hH : Heap.Grown H) : Copying fun _ x => x.Keeps H where
  pure _ := fun _ h => hH.refl h
  bind {_ _ x f} hx hf := by
    intro ctx h
    have hx := hx ctx h
    simp only [Bind.bind, ReaderT.bind, EStateM.bind]
    cases ha : x ctx h with
    | error fault h' => rwa [ha] at hx
    | ok a h' =>
      rw [ha] at hx
      have hf := hf a ctx h'
      dsimp only
      cases hb : f a ctx h' with
      | ok b h'' => rw [hb] at hf; exact hH.trans hx hf
      | error fault h'' => rw [hb] at hf; exact ⟨hH.trans hx hf.1, hf.2⟩
  throw _ hf := fun _ h => ⟨hH.refl h, hf⟩
  get := fun _ h => hH.refl h
  read_bind hg _ := fun ctx h => hg ctx ctx h
  numerics {_ g} _ := by
    intro ctx h
    have hrun : (do ofExcept (g (← read).numerics) : OperatorM _) ctx h =
        ofExcept (g ctx.numerics) ctx h := rfl
    rw [hrun]
    cases g ctx.numerics with
    | ok a => exact hH.refl h
    | error cause => exact ⟨hH.refl h, rfl⟩
  deepCopy v := fun _ h => HeapM.grown_deepCopy hH v h

theorem keeps_attempt (hH : Heap.Grown H) {g : Heap → Option Heap}
    (hg : ∀ h h', g h = some h' → H h h') : Keeps H (HeapM.attempt g : OperatorM Bool) :=
  fun _ h => HeapM.grown_attempt hH (hg h)

theorem storing_keeps (hH : Heap.Stored H) : Storing fun _ x => x.Keeps H where
  toCopying := copying_keeps hH.toGrown
  store _ _ := keeps_attempt hH.toGrown fun _ _ hs => hH.store hs

theorem closed_keeps (hH : Heap.Kept H) : Closed fun _ x => x.Keeps H where
  toStoring := storing_keeps hH.stored
  init _ _ := keeps_attempt hH.stored.toGrown fun _ _ hs => hH.init hs

end OperatorM

namespace RunM

/-- From states with `I` the computation comes to states with `I`; its results are as `Q` says, and
its faults as `R` does. -/
def Maintains {α : Type} (I : State → Prop) (R : Fault → Prop) (c : Config) (x : RunM α)
    (Q : α → Prop) : Prop := ∀ s, I s →
  match x c s with
  | .ok a t => I t ∧ Q a
  | .error fault t => I t ∧ R fault

/-- What has to be known of an invariant: it stands the changes of single parts of a state, and
allows the faults that are not about objects. -/
structure Invariant (I : State → Prop) (R : Fault → Prop) (c : Config) : Prop where
  raises : ∀ fault : Fault, fault.cause.isEndless = false → R fault
  orAt : ∀ {fault node}, R fault → R (fault.orAt node)
  change : ∀ {h : State → State}, State.Aside h → ∀ {s}, I s → I (h s)
  alloc : ∀ {s : State} cells, I s → I { s with heap := (s.heap.alloc cells).2 }
  write : ∀ {s : State} text, I s → I { s with console := s.console.write text }
  register : ∀ entry, (register entry).Maintains I R c fun _ => True
  resolveCall : ∀ f args, (resolveCall f args).Maintains I R c fun _ => True
  nameArith : ∀ name k, (defineTypedef name (.arith k)).Maintains I R c fun _ => True
  defineTypedefs : ∀ decl, (defineTypedefs decl).Maintains I R c fun _ => True

variable {I : State → Prop} {R : Fault → Prop} {c : Config} {α β : Type} {Q : α → Prop}

theorem Invariant.common (hI : Invariant I R c) (fault : Fault)
    (hf : fault.cause.isCommon = true) : R fault :=
  hI.raises fault (FaultCause.isEndless_of_isCommon hf)

namespace Maintains

section Results

variable {x : RunM α} {s t : State} (hx : x.Maintains I R c Q) (hs : I s)

include hx hs

theorem of_ok {a : α} (h : x c s = .ok a t) : I t ∧ Q a := by
  have hm := hx s hs
  rwa [h] at hm

theorem of_error {fault : Fault} (h : x c s = .error fault t) : I t ∧ R fault := by
  have hm := hx s hs
  rwa [h] at hm

end Results

theorem pure {a : α} (ha : Q a) : (pure a : RunM α).Maintains I R c Q := fun _ hs => ⟨hs, ha⟩

theorem raise {fault : Fault} (hf : R fault) : (throw fault : RunM α).Maintains I R c Q :=
  fun _ hs => ⟨hs, hf⟩

theorem fail (hr : ∀ fault, R fault) (cause : FaultCause) :
    (RunM.fail cause : RunM α).Maintains I R c Q := fun _ hs => ⟨hs, hr _⟩

theorem modify {h : State → State} (hh : ∀ s, I s → I (h s)) :
    (modify h : RunM Unit).Maintains I R c fun _ => True := fun s hs => ⟨hh s hs, trivial⟩

theorem bind {x : RunM α} {f : α → RunM β} {P : β → Prop} (hx : x.Maintains I R c Q)
    (hf : ∀ a, Q a → (f a).Maintains I R c P) : (x >>= f).Maintains I R c P := by
  intro s hs
  cases h : x c s with
  | ok a t =>
    obtain ⟨ht, ha⟩ := hx.of_ok hs h
    rw [bind_ok h]
    exact hf a ha t ht
  | error fault t =>
    rw [bind_error h]
    exact hx.of_error hs h

theorem ask (hr : ∀ fault : Fault, fault.cause.isCommon = true → R fault) {x : ReadM α}
    (hx : ∀ U, ReadM.Closed U → U α x) : (ask x).Maintains I R c fun _ => True := by
  intro s hs
  have hends := hx _ ReadM.closed_common (c, s)
  unfold RunM.ask
  cases h : x (c, s) with
  | ok a => exact ⟨hs, trivial⟩
  | error fault => exact ⟨hs, hr _ (hends fault h)⟩

/-- The answer to a question is as the invariant makes it. -/
theorem ask_of (hr : ∀ fault, R fault) {x : ReadM α}
    (hq : ∀ s a, I s → x (c, s) = .ok a → Q a) : (RunM.ask x).Maintains I R c Q := by
  intro s hs
  unfold RunM.ask
  cases h : x (c, s) with
  | ok a => exact ⟨hs, hq s a hs h⟩
  | error fault => exact ⟨hs, hr fault⟩

/-- An operator, whatever it does to the heap. -/
theorem operate (hr : ∀ fault : Fault, fault.cause.isCommon = true → R fault)
    {H : Heap → Heap → Prop} (hH : ∀ {s : State} {heap}, I s → H s.heap heap → I { s with heap })
    {x : OperatorM α} (hx : x.Keeps H) : (operate x).Maintains I R c fun _ => True := by
  intro s hs
  have hkeeps := hx ⟨c.numerics, s.tables, s.cursor⟩ s.heap
  unfold RunM.operate
  dsimp only [ReaderT.run, EStateM.run]
  cases h : x ⟨c.numerics, s.tables, s.cursor⟩ s.heap with
  | ok a heap => rw [h] at hkeeps; exact ⟨hH hs hkeeps, trivial⟩
  | error fault heap => rw [h] at hkeeps; exact ⟨hH hs hkeeps.1, hr _ hkeeps.2⟩

theorem rescue {x : RunM α} {f : Except Fault α → RunM β} {y : RunM Unit} {P : β → Prop}
    (hx : x.Maintains I R c Q) (hf : ∀ a, Q a → (f (.ok a)).Maintains I R c P)
    (hy : y.Maintains I R c fun _ => True) (hr : ∀ fault, f (.error fault) = do y; throw fault) :
    (outcome x >>= f).Maintains I R c P := by
  intro s hs
  simp only [outcome, Bind.bind, ReaderT.bind, EStateM.bind]
  cases h : x c s with
  | ok a t =>
    obtain ⟨ht, ha⟩ := hx.of_ok hs h
    exact hf a ha t ht
  | error fault t =>
    obtain ⟨ht, hfault⟩ := hx.of_error hs h
    dsimp only
    rw [hr]
    exact bind hy (fun _ _ => raise hfault) t ht

end Maintains

theorem sequential_maintains (hr : ∀ fault : Fault, fault.cause.isCommon = true → R fault) :
    Sequential fun _ x Q => x.Maintains I R c Q where
  pure := .pure
  bind := .bind
  raise fault hf := .raise (hr fault hf)
  read_bind hf := fun s hs => hf c s hs
  get_bind _ hf := fun s hs => hf s s hs
  ask := .ask hr

/-- What only reads maintains an invariant that allows new blocks. -/
theorem reading_maintains (hr : ∀ fault : Fault, fault.cause.isCommon = true → R fault)
    (hc : ∀ {s : State} node, I s → I { s with cursor := node })
    (ha : ∀ {s : State} cells, I s → I { s with heap := (s.heap.alloc cells).2 }) :
    Reading fun _ x Q => x.Maintains I R c Q where
  toSequential := sequential_maintains hr
  setCursor node := .modify fun _ hs => hc node hs
  alloc cells := fun _ hs => ⟨ha cells hs, trivial⟩
  operate {_ x} hx := by
    let H (h h' : Heap) : Prop := ∀ s : State, I { s with heap := h } → I { s with heap := h' }
    have hgrown : Heap.Grown H :=
      ⟨fun _ _ hs => hs, fun hh hh' s hs => hh' s (hh s hs), fun _ cells _ hs => ha cells hs⟩
    exact .operate hr (H := H) (fun {s _} hs hh => hh s hs)
      (hx _ (OperatorM.copying_keeps hgrown))

/-- What adds blocks to the heap maintains an invariant that allows new blocks. -/
theorem plain_maintains (hr : ∀ fault : Fault, fault.cause.isCommon = true → R fault)
    (hc : ∀ {h : State → State}, State.Aside h → ∀ {s}, I s → I (h s))
    (ha : ∀ {s : State} cells, I s → I { s with heap := (s.heap.alloc cells).2 }) :
    Plain fun _ x Q => x.Maintains I R c Q where
  toReading := by
    refine reading_maintains hr (fun {s} node hs => ?_) ha
    refine hc (h := fun s => { s with cursor := node }) ⟨?_, ?_, ?_, ?_⟩ hs
    · exact ⟨fun _ => rfl, fun _ => rfl, fun _ _ => rfl⟩
    all_goals exact fun _ => rfl
  change hh := .modify fun _ hs => hc hh hs

section Invariant

variable (hI : Invariant I R c)

include hI

theorem maintains_declare (name : String) (p : Place) :
    (declare name p).Maintains I R c fun _ => True := by
  intro s hs
  rw [declare_apply]
  cases s.scopes.define? name p with
  | some scopes =>
    refine ⟨hI.change (h := fun s => { s with scopes }) ?_ hs, trivial⟩
    exact ⟨⟨fun _ => rfl, fun _ => rfl, fun _ _ => rfl⟩, fun _ => rfl, fun _ => rfl, fun _ => rfl⟩
  | none => exact ⟨hs, hI.raises _ rfl⟩

theorem quiet_maintains : Quiet fun _ x Q => x.Maintains I R c Q where
  toPlain := plain_maintains hI.common hI.change hI.alloc
  declare := maintains_declare hI
  writeConsole text := .modify fun _ hs => hI.write text hs
  register := hI.register
  resolveCall := hI.resolveCall
  nameArith := hI.nameArith
  defineTypedefs := hI.defineTypedefs
  rescue := .rescue

/-- An invariant that says nothing of the heap is maintained by what writes to it, too. -/
theorem closed_maintains (hh : ∀ {s : State} heap, I s → I { s with heap }) :
    Closed fun _ x Q => x.Maintains I R c Q where
  toQuiet := quiet_maintains hI
  write hx := .operate hI.common (H := fun _ _ => True) (fun hs _ => hh _ hs)
    (hx _ (OperatorM.closed_keeps ⟨fun _ => trivial, fun _ _ => trivial, fun _ _ => trivial,
      fun _ => trivial, fun _ => trivial⟩))

variable {j k : Completion}

theorem maintains_unwind (path : Frames j k) {fault : Fault} (hf : R fault) :
    (unwind path fault : RunM α).Maintains I R c Q := by
  induction path generalizing fault with
  | nil => exact .raise hf
  | cons f fs ih =>
    cases f with
    | leave node previous => exact ih (hI.orAt hf)
    | endCall entry depth =>
      exact .bind ((quiet_maintains hI).leaveScopes depth) fun _ _ => ih hf
    | _ => exact ih hf

theorem maintains_within {path : Frames j k} {x : RunM (Progress j)}
    {next : j.Result → RunM (Progress k)} (hx : x.Maintains I R c fun _ => True)
    (hn : ∀ r, (next r).Maintains I R c fun _ => True) :
    (within path x next).Maintains I R c fun _ => True := by
  intro s hs
  cases h : x c s with
  | error fault t =>
    obtain ⟨ht, hf⟩ := hx.of_error hs h
    rw [within_error h]
    exact maintains_unwind hI path hf t ht
  | ok p t =>
    obtain ⟨ht, -⟩ := hx.of_ok hs h
    cases p with
    | done r =>
      rw [within_done h]
      exact hn r t ht
    | paused p inner =>
      rw [within_paused h]
      exact ⟨ht, trivial⟩

/-- Frames maintain what each one of them does. -/
theorem maintains_resumeFrames
    (hf : ∀ {j k : Completion} (f : Frame j k) (r : j.Result),
      (resumeFrame f r).Maintains I R c fun _ => True) (path : Frames j k) (r : j.Result) :
    (resumeFrames path r).Maintains I R c fun _ => True := by
  induction path with
  | nil => exact .pure trivial
  | cons frame rest ih => exact maintains_within hI (hf frame r) ih

end Invariant

section Steps

variable {j k : Completion} (hT : Closed fun _ x Q => x.Maintains I (fun _ => True) c Q)
  (hc : ∀ {s : State} console, I s → I { s with console })
  (hd : ∀ {s : State} structs, I s → I { s with structs })

theorem maintains_make (hT : Plain fun _ x Q => x.Maintains I (fun _ => True) c Q) (m : Making) :
    (make m).Maintains I (fun _ => True) c Progress.Proceeds := by
  refine hT.inspect_bind (fun _ _ => rfl) fun depth => hT.makeWithin (fun m => ?_) depth m
  exact .fail (fun _ => trivial) _

include hc in
theorem maintains_readCharacter :
    readCharacter.Maintains I (fun _ => True) c fun _ => True := by
  intro s hs
  rw [readCharacter_apply]
  cases s.console.read.1 <;> exact ⟨hc _ hs, trivial⟩

include hT hc

theorem maintains_resumeFrame (f : Frame j k) (r : j.Result) :
    (resumeFrame f r).Maintains I (fun _ => True) c fun _ => True :=
  hT.resumeFrame_any (maintains_make hT.toPlain) (maintains_readCharacter hc) f r

include hd

theorem maintains_resumePause (p : Pause j) :
    (resumePause p).Maintains I (fun _ => True) c fun _ => True :=
  hT.resumePause (maintains_readCharacter hc) (maintains_make hT.toPlain)
    (fun _ => .modify fun _ hs => hd _ hs) p

/-- All that a step does maintains the invariant. -/
theorem maintains_step (hI : Invariant I (fun _ => True) c) (p : Pause j) (path : Frames j k) :
    (step p path).Maintains I (fun _ => True) c fun _ => True :=
  maintains_within hI (maintains_resumePause hT hc hd p)
    (maintains_resumeFrames hI (maintains_resumeFrame hT hc) path)

end Steps

end RunM

end Stepwise

/-! ## Contracts

A contract says in which states computations begin, how the state before is related to the
one after, and with which faults they may end. What the single changes of heap and state
keep, operators, computations and whole steps keep.
-/

namespace Stepwise

/-- What is asked of computations: the states in which they may begin, what they keep of heaps and
of whole states, and the faults with which they may end. -/
structure Contract where
  pre : State → Prop
  heap : Heap → Heap → Prop
  kept : State → State → Prop
  raises : Fault → Prop

/-- The contract is kept by what only changes parts of the state, and leaves structs alone. -/
structure Contract.Lawful (K : Contract) : Prop where
  heaps : Heap.Kept K.heap
  refl : ∀ s, K.kept s s
  trans : ∀ {s t u}, K.kept s t → K.kept t u → K.kept s u
  stays : ∀ {s t}, K.pre s → K.kept s t → K.pre t
  raises : ∀ fault : Fault, fault.cause.isEndless = false → K.raises fault
  orAt : ∀ {fault node}, K.raises fault → K.raises (fault.orAt node)
  change : ∀ {h : State → State}, State.Change h → ∀ s, K.kept s (h s)
  onHeap : ∀ {s : State} {heap}, K.heap s.heap heap → K.kept s { s with heap }
  write : ∀ (s : State) text, K.kept s { s with console := s.console.write text }

namespace RunM

variable {K : Contract} {α β : Type} {Q : α → Prop}

/-- The computation keeps to the contract, and its results are as `Q` says. -/
def Meets (K : Contract) (x : RunM α) (Q : α → Prop) : Prop := ∀ c s, K.pre s →
  match x c s with
  | .ok a t => K.kept s t ∧ Q a
  | .error fault t => K.kept s t ∧ K.raises fault

namespace Meets

section Results

variable {x : RunM α} {c : Config} {s t : State} (hx : x.Meets K Q) (hs : K.pre s)

include hx hs

theorem of_ok {a : α} (h : x c s = .ok a t) : K.kept s t ∧ Q a := by
  have hm := hx c s hs
  rwa [h] at hm

theorem of_error {fault : Fault} (h : x c s = .error fault t) : K.kept s t ∧ K.raises fault := by
  have hm := hx c s hs
  rwa [h] at hm

end Results

end Meets

section Lawful

variable (hK : K.Lawful)

include hK

/-- A contract is kept if what is kept of every state before is an invariant. -/
theorem meets_iff {x : RunM α} :
    x.Meets K Q ↔ ∀ p : {p : Config × State // K.pre p.2},
      x.Maintains (K.kept p.1.2) K.raises p.1.1 Q := by
  constructor
  · rintro hx ⟨⟨c, s₀⟩, hs₀⟩ s hs
    have hpre := hK.stays hs₀ hs
    cases h : x c s with
    | ok a t => exact ⟨hK.trans hs (hx.of_ok hpre h).1, (hx.of_ok hpre h).2⟩
    | error fault t => exact ⟨hK.trans hs (hx.of_error hpre h).1, (hx.of_error hpre h).2⟩
  · exact fun hx c s hs => hx ⟨(c, s), hs⟩ s (hK.refl s)

theorem invariant_kept (c : Config) (s₀ : State) : Invariant (K.kept s₀) K.raises c :=
  have hcommon (fault : Fault) (hf : fault.cause.isCommon = true) : K.raises fault :=
    hK.raises fault (FaultCause.isEndless_of_isCommon hf)
  have hT := sequential_maintains hcommon
  have hchange {h : State → State} (hh : State.Change h) :
      (modify h : RunM Unit).Maintains (K.kept s₀) K.raises c fun _ => True :=
    .modify fun s hs => hK.trans hs (hK.change hh s)
  have hname (name : String) (ty : Ty) :
      (defineTypedef name ty).Maintains (K.kept s₀) K.raises c fun _ => True :=
    hchange ⟨fun _ => rfl, fun _ => rfl, fun _ _ => rfl⟩
  { raises := hK.raises
    orAt := hK.orAt
    change := fun hh s hs => hK.trans hs (hK.change hh.toChange s)
    alloc := fun {s} cells hs => hK.trans hs (hK.onHeap (hK.heaps.alloc s.heap cells))
    write := fun {s} text hs => hK.trans hs (hK.write s text)
    register := hT.register_of_change (fun hh _ => hchange hh) fun _ =>
      hT.get_bind (fun _ _ => rfl) fun _ => .raise (hK.raises _ rfl)
    resolveCall := hT.resolveCall_of_change fun hh _ => hchange hh
    nameArith := fun name k => hname name (.arith k)
    defineTypedefs := hT.defineTypedefs_of_names hname }

theorem closed_kept (c : Config) (s₀ : State) :
    Closed fun _ x Q => x.Maintains (K.kept s₀) K.raises c Q where
  toQuiet := quiet_maintains (invariant_kept hK c s₀)
  write hx := .operate (invariant_kept hK c s₀).common (fun hs hh => hK.trans hs (hK.onHeap hh))
    (hx _ (OperatorM.closed_keeps hK.heaps))

theorem closed_meets : Closed fun _ x Q => x.Meets K Q := by
  have hall := Closed.forall fun p : {p : Config × State // K.pre p.2} =>
    closed_kept hK p.1.1 p.1.2
  simpa only [← meets_iff hK] using hall

theorem Meets.bind {x : RunM α} {f : α → RunM β} {R : β → Prop} (hx : x.Meets K Q)
    (hf : ∀ a, Q a → (f a).Meets K R) : (x >>= f).Meets K R := (closed_meets hK).bind hx hf

end Lawful

/-- Objects are made to a contract that allows all faults. -/
theorem meets_make (hK : K.Lawful) (hall : ∀ fault, K.raises fault) (m : Making) :
    (make m).Meets K Progress.Proceeds := by
  have hT := closed_meets hK
  refine hT.inspect_bind (fun _ _ => rfl) fun depth => hT.makeWithin (fun m => ?_) depth m
  exact hT.get_bind (fun _ _ => rfl) fun _ _ s _ => ⟨hK.refl s, hall _⟩

/-- Reading a character keeps to a contract that does not mind what is taken from the input. -/
theorem meets_readCharacter (hc : ∀ s : State, K.kept s { s with console := s.console.read.2 }) :
    readCharacter.Meets K fun _ => True := by
  intro c s _
  rw [readCharacter_apply]
  cases s.console.read.1 <;> exact ⟨hc s, trivial⟩

section Steps

variable {j k : Completion} (hK : K.Lawful)

include hK

theorem meets_unwind (path : Frames j k) {fault : Fault} (hf : K.raises fault) :
    (unwind path fault : RunM α).Meets K Q :=
  (meets_iff hK).mpr fun p => maintains_unwind (invariant_kept hK p.1.1 p.1.2) path hf

theorem meets_within {path : Frames j k} {x : RunM (Progress j)}
    {next : j.Result → RunM (Progress k)} (hx : x.Meets K fun _ => True)
    (hn : ∀ r, (next r).Meets K fun _ => True) : (within path x next).Meets K fun _ => True :=
  (meets_iff hK).mpr fun p => maintains_within (invariant_kept hK p.1.1 p.1.2)
    ((meets_iff hK).mp hx p) fun r => (meets_iff hK).mp (hn r) p

variable (hr : readCharacter.Meets K fun _ => True)
  (hm : ∀ m, (make m).Meets K Progress.Proceeds)

include hr hm

theorem meets_resumeFrames (path : Frames j k) (r : j.Result) :
    (resumeFrames path r).Meets K fun _ => True := by
  induction path with
  | nil => exact fun _ s _ => ⟨hK.refl s, trivial⟩
  | cons frame rest ih =>
    exact meets_within hK ((closed_meets hK).resumeFrame_any hm hr frame r) ih

/-- A step keeps to a contract that what it goes on with keeps to. -/
theorem meets_step {p : Pause j} (hp : (resumePause p).Meets K fun _ => True)
    (path : Frames j k) : (step p path).Meets K fun _ => True :=
  meets_within hK hp (meets_resumeFrames hK hr hm path)

end Steps

end RunM

/-- A run keeps to a contract that allows all faults. -/
theorem Run.kept_step {K : Contract} (hK : K.Lawful) (hall : ∀ fault, K.raises fault)
    (hc : ∀ s : State, K.kept s { s with console := s.console.read.2 })
    (hd : ∀ d, (RunM.defineStruct d).Meets K fun _ => True) {r : Run} (hpre : K.pre r.state) :
    K.kept r.state r.step.2.state := by
  obtain ⟨config, s, rest⟩ := r
  cases rest with
  | ended result => exact hK.refl s
  | suspended p path =>
    have hr := RunM.meets_readCharacter hc
    have hm := RunM.meets_make hK hall
    have hp := (RunM.closed_meets hK).resumePause hr hm hd p
    have hstep := RunM.meets_step hK hr hm hp path
    cases hs : RunM.step p path config s with
    | error fault t =>
      rw [step_fault hs]
      exact (hstep.of_error hpre hs).1
    | ok progress t =>
      have ht := (hstep.of_ok hpre hs).1
      cases progress with
      | done v => rwa [step_done hs]
      | paused q inner => rwa [step_paused hs]

end Stepwise
