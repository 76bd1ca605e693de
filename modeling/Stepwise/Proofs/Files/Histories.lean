import Stepwise.Proofs.Files.Calls

/-! # Histories of files

What a program asks of its files and is answered, call after call, whatever it does in between.
Handles are given out once. What concerns one file or one handle is not changed by requests about
others, so that a text that is written to a file is read back from it, and a handle that is closed
stays closed.
-/

namespace Stepwise

/-- A request and the answer to it. -/
structure FileEvent where
  request : FileRequest
  /-- The file that the request was about. -/
  about? : Option String
  reply : FileReply
  deriving DecidableEq, Repr

namespace FileEvent

/-- The handle that a file has been opened with. -/
def opened? (e : FileEvent) : Option Int :=
  match e.reply with
  | .handle h => some h
  | _ => none

/-- The events about one file. -/
def own (name : String) (events : List FileEvent) : List FileEvent :=
  events.filter (·.about? = some name)

end FileEvent

/-! ## Runs of requests -/

namespace Storage

def event (s : Storage) (q : FileRequest) : FileEvent := ⟨q, s.about? q, s.reply q⟩

theorem last_after_of_opened {s : Storage} {q : FileRequest} {h : Int}
    (ho : (s.event q).opened? = some h) :
    h = s.handles.last + 1 ∧ (s.after q).handles.last = s.handles.last + 1 := by
  refine last_after_of_reply ?_
  simp only [event, FileEvent.opened?] at ho
  split at ho
  case h_1 _ hr =>
    cases ho
    exact hr
  case h_2 => cases ho

/-- Requests are answered one after the other. -/
inductive Runs : Storage → List FileEvent → Storage → Prop
  | done (s : Storage) : Runs s [] s
  | step {s t : Storage} {q : FileRequest} {events : List FileEvent} :
      Runs (s.after q) events t → Runs s (s.event q :: events) t

/-- The events of a list of requests. -/
def answers (s : Storage) : List FileRequest → List FileEvent
  | [] => []
  | q :: qs => s.event q :: (s.after q).answers qs

namespace Runs

variable {s t : Storage} {events : List FileEvent} {h : Int} {f : OpenFile} {name text : String}
  {k : Nat}

theorem bounded (hr : Runs s events t) (hs : s.handles.Bounded) : t.handles.Bounded := by
  induction hr with
  | done s => exact hs
  | step _ ih => exact ih (bounded_after hs _)

theorem closed (hr : Runs s events t) (hc : s.Closed h) : t.Closed h := by
  induction hr with
  | done s => exact hc
  | step _ ih => exact ih (closed_after hc _)

/-- The handles that are given out come after the last one. -/
theorem lt_of_opened (hr : Runs s events t) :
    ∀ h ∈ events.filterMap FileEvent.opened?, (s.handles.last : Int) < h := by
  induction hr with
  | done s => simp
  | @step s t q events _ ih =>
    intro h hh
    have hle : (s.handles.last : Int) ≤ (s.after q).handles.last :=
      Int.ofNat_le.mpr (last_le_after s q)
    rw [List.filterMap_cons] at hh
    split at hh
    case h_1 => exact hle.trans_lt (ih h hh)
    case h_2 _ h' hopened =>
      obtain rfl | hh := List.mem_cons.mp hh
      · rw [(last_after_of_opened hopened).1]
        exact Int.lt_add_one_of_le le_rfl
      · exact hle.trans_lt (ih h hh)

/-- No handle is given out twice. -/
theorem pairwise_opened (hr : Runs s events t) :
    (events.filterMap FileEvent.opened?).Pairwise (· < ·) := by
  induction hr with
  | done s => exact .nil
  | @step s t q events hr ih =>
    rw [List.filterMap_cons]
    split
    case h_1 => exact ih
    case h_2 _ h' hopened =>
      obtain ⟨rfl, hlast⟩ := last_after_of_opened hopened
      refine .cons (fun h hh => ?_) ih
      have hlt := lt_of_opened hr h hh
      rwa [hlast] at hlt

/-- A handle that no request goes through stays as it is. -/
theorem get?_of_ne (hr : Runs s events t) (hs : s.handles.Bounded)
    (hf : s.handles.get? h = some f) (hne : ∀ e ∈ events, e.request.handle? ≠ some h) :
    t.handles.get? h = some f := by
  induction hr with
  | done s => exact hf
  | @step s t q events _ ih =>
    obtain ⟨hq, hne⟩ := List.forall_mem_cons.mp hne
    exact ih (bounded_after hs q) ((get?_after_of_ne (hs h f hf) hq).trans hf) hne

/-- A handle that has been closed is closed in the end. -/
theorem closed_of_mem (hr : Runs s events t) (hs : s.handles.Bounded) {name? : Option String}
    (hmem : ⟨.close h, name?, .number 0⟩ ∈ events) : t.Closed h := by
  induction hr with
  | done s => cases hmem
  | @step s t q events hr ih =>
    obtain he | hmem := List.mem_cons.mp hmem
    · obtain ⟨rfl, -, hreply⟩ := FileEvent.mk.inj he
      exact hr.closed (closed_after_close hs hreply.symm)
    · exact ih (bounded_after hs q) hmem

end Runs

end Storage

/-! ## Histories -/

theorem State.handle?_of_null {s : State} {v : Value} (hv : v.data.isNull = true) :
    s.handle? v = none := by
  cases v with | mk ty data
  cases data with
  | pointer target =>
    cases target with
    | none => rfl
    | some p => cases hv
  | _ => rfl

/-- A value gives no two answers. -/
theorem FileReply.Shown.unique {s : State} {v : Value} {r r' : FileReply} (h : r.Shown s v)
    (h' : r'.Shown s v) : r = r' := by
  cases h with
  | handle target =>
    cases h' with
    | handle target' => exact congrArg _ (Option.some.inj (target.symm.trans target'))
    | null null => cases target.symm.trans (State.handle?_of_null null)
    | number number => subst number; cases target
  | null null =>
    cases h' with
    | handle target => cases target.symm.trans (State.handle?_of_null null)
    | null => rfl
    | number number => subst number; cases null
  | number number =>
    subst number
    cases h' with
    | handle target => cases target
    | null null => cases null
    | number number' =>
      cases number'
      rfl

/-- What a program asks of its files and is answered by the calls that it makes. In between, it may
do anything that leaves the files and the handles as they are. -/
inductive History (c : Config) : State → List FileEvent → State → Prop
  | done (s : State) : History c s [] s
  | aside {s t u : State} {events : List FileEvent} (kept : t.storage = s.storage) :
      History c t events u → History c s events u
  | call {s t u : State} {f : StdioFunction} {args : List Value} {q : FileRequest} {v : Value}
      {reply : FileReply} {events : List FileEvent} (request : Requests s f args q)
      (comes : RunM.callLibrary f args c s = .ok (.done v) t) (shown : reply.Shown t v) :
      History c t events u → History c s (⟨q, s.storage.about? q, reply⟩ :: events) u

namespace History

variable {c : Config} {s t u : State} {events events' : List FileEvent}

theorem runs (h : History c s events t) : s.storage.Runs events t.storage := by
  induction h with
  | done s => exact .done _
  | aside kept _ ih =>
    rw [← kept]
    exact ih
  | call request comes shown _ ih =>
    obtain ⟨hstorage, v', hv, hshown⟩ := RunM.shown_of_callLibrary request comes
    cases hv
    rw [shown.unique hshown]
    rw [hstorage] at ih
    exact .step ih

theorem append (h : History c s events t) (h' : History c t events' u) :
    History c s (events ++ events') u := by
  induction h with
  | done s => exact h'
  | aside kept _ ih => exact .aside kept (ih h')
  | call request comes shown _ ih => exact .call request comes shown (ih h')

/-- Whatever is asked in a state that has the arguments for it is answered, if the struct of file
pointers is defined. -/
theorem exists_answers {d : StructTy} (hd : s.struct? "FILE" = some d) {qs : List FileRequest}
    (hqs : ∀ q ∈ qs, ∃ f args, Requests s f args q) (storage : Storage) :
    ∃ t, History c (s.withStorage storage) (storage.answers qs) t ∧
      t.storage = qs.foldl Storage.after storage := by
  induction qs generalizing storage with
  | nil => exact ⟨_, .done _, rfl⟩
  | cons q qs ih =>
    obtain ⟨⟨f, args, hq⟩, hqs⟩ := List.forall_mem_cons.mp hqs
    have hq' : Requests (s.withStorage storage) f args q := by
      cases hq with
      | fopen hname hletters hmode => exact .fopen hname hletters hmode
      | fputs htext hfile => exact .fputs htext hfile
      | fgetc hfile => exact .fgetc hfile
      | fclose hfile => exact .fclose hfile
    obtain ⟨v, t, hcall, ht, hshown⟩ := RunM.callLibrary_of_requests (c := c)
      (s := s.withStorage storage) (d := d) hd hq'
    obtain ⟨u, hu, hafter⟩ := ih hqs (storage.after q)
    -- the arguments are put in place again
    have hkept : (s.withStorage (storage.after q)).storage = t.storage := ht.symm
    exact ⟨u, .call hq' hcall hshown (.aside hkept hu), hafter⟩

/-- Calls for the console may stand anywhere. -/
theorem of_console {f : StdioFunction} {args : List Value} {r : Progress .value}
    (hf : f ∈ [.printf, .puts, .putchar, .getchar])
    (hcall : RunM.callLibrary f args c s = .ok r t) (h : History c t events u) :
    History c s events u := by
  exact .aside (RunM.keepsStorage_callLibrary hf args c s r t hcall) h

end History

/-- A state with the names, modes and texts of requests, and pointers to two handles. -/
def sampleState : State :=
  { heap := ⟨#[(Text.cells ['f']).toArray, (Text.cells ['w']).toArray, (Text.cells ['r']).toArray,
      (Text.cells ['a', 'b']).toArray, #[.int .int 1],
      #[.fresh StdioFunction.file.type (.struct 4)], #[.int .int 2],
      #[.fresh StdioFunction.file.type (.struct 6)]]⟩
    structs := [("FILE", StdioFunction.file)] }

theorem stringAt_sampleState (cs : List Char) (b : BlockId) (hcs : ∀ ch ∈ cs, Text.IsAscii ch)
    (hcells : sampleState.heap.cells b = (Text.cells cs).toArray) :
    sampleState.heap.stringAt (.ofArray (.array .char 2) b) = .ok (String.ofList cs) :=
  Value.Spells.stringAt_eq ⟨⟨b, rfl, hcells⟩, rfl⟩ hcs

end Stepwise
