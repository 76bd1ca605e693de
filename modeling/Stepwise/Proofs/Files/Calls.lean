import Stepwise.Proofs.Files.Storage
import Stepwise.Proofs.Strings.Calls

/-! # Calls about files

A call of `fopen`, `fputs`, `fgetc` or `fclose` stands for a request to the files: the strings that
it is given are read from the heap, and the handle from the struct that a file pointer points to.
The call comes back with the answer to the request, and the files and handles are what the request
leaves.
-/

namespace Stepwise

/-- The files of a state and the handles to them. -/
def State.storage (s : State) : Storage := ⟨s.files, s.openFiles⟩

/-- The state with other files and handles. -/
def State.withStorage (s : State) (storage : Storage) : State :=
  { s with files := storage.files, openFiles := storage.handles }

/-- The handle that a file pointer leads to. -/
def State.handle? (s : State) (v : Value) : Option Int := do
  let p ← match v.data with
    | .pointer target => target
    | _ => none
  let store ← (← s.heap.load? p).structStore?
  (← (s.heap.cells store)[0]?).int?

/-- A call with these arguments asks for something. -/
inductive Requests (s : State) : StdioFunction → List Value → FileRequest → Prop
  | fopen {v w : Value} {rest : List Value} {name letters : String} {mode : FileMode}
      (hname : s.heap.stringAt v = .ok name) (hletters : s.heap.stringAt w = .ok letters)
      (hmode : RunM.plainMode letters = mode.letter) :
      Requests s .fopen (v :: w :: rest) (.openFile name mode)
  | fputs {v file : Value} {rest : List Value} {text : String} {h : Int}
      (htext : s.heap.stringAt v = .ok text) (hfile : s.handle? file = some h) :
      Requests s .fputs (v :: file :: rest) (.write h text)
  | fgetc {file : Value} {rest : List Value} {h : Int} (hfile : s.handle? file = some h) :
      Requests s .fgetc (file :: rest) (.read h)
  | fclose {file : Value} {rest : List Value} {h : Int} (hfile : s.handle? file = some h) :
      Requests s .fclose (file :: rest) (.close h)

/-- A value gives an answer in a state. -/
inductive FileReply.Shown (s : State) (v : Value) : FileReply → Prop
  | handle {h : Int} (target : s.handle? v = some h) : Shown s v (.handle h)
  | null (null : v.data.isNull = true) : Shown s v .null
  | number {n : Int} (number : v = .int .int n) : Shown s v (.number n)

namespace RunM

variable {c : Config} {s t : State} {f : StdioFunction} {args : List Value} {q : FileRequest}
  {v file : Value} {h : Int}

theorem fileHandle_ok (hv : s.handle? v = some h) : fileHandle v c s = .ok h s := by
  rw [fileHandle]
  refine (bind_ok (x := get) (a := s) (t := s) rfl).trans ?_
  cases v with | mk ty data
  cases data with
  | pointer target =>
    simp only [State.handle?] at hv
    simp only [hv]
    rfl
  | _ => cases hv

/-- A call through a handle comes back with the answer, and nothing changes but the files and
handles. -/
theorem callLibrary_of_handle (hq : Requests s f args q) (hh : q.handle? = some h) :
    ∃ n, s.storage.reply q = .number n ∧ callLibrary f args c s = .ok (.done (.int .int n))
      (s.withStorage (s.storage.after q)) := by
  cases hq with
  | fopen => cases hh
  | @fputs v file rest text h htext hfile =>
    refine ⟨_, rfl, ?_⟩
    rw [callLibrary]
    refine (bind_ok (stringArgument_ok htext)).trans ((bind_ok (fileHandle_ok hfile)).trans ?_)
    refine (bind_ok (x := get) (a := s) (t := s) rfl).trans ?_
    have hget : s.storage.handles.get? h = s.openFiles.get? h := rfl
    cases hf : s.openFiles.get? h <;> rw [Storage.after, hget, hf] <;> rfl
  | @fgetc file rest h hfile =>
    refine ⟨_, rfl, ?_⟩
    rw [callLibrary]
    refine (bind_ok (fileHandle_ok hfile)).trans ?_
    refine (bind_ok (x := get) (a := s) (t := s) rfl).trans ?_
    have hread : (s.openFiles.get? h).bind (characterAt s) = s.storage.character? h := rfl
    cases hc : s.storage.character? h <;> rw [Storage.after, hc] <;> simp only [hread, hc] <;> rfl
  | @fclose file rest h hfile =>
    refine ⟨_, rfl, ?_⟩
    rw [callLibrary]
    refine (bind_ok (fileHandle_ok hfile)).trans ?_
    refine (bind_ok (x := get) (a := s) (t := s) rfl).trans ?_
    have hget : s.storage.handles.get? h = s.openFiles.get? h := rfl
    cases hf : s.openFiles.get? h <;> rw [Storage.after, hget, hf] <;> rfl

theorem openFile_eq {name letters : String} {mode : FileMode}
    (hmode : plainMode letters = mode.letter) : openFile name letters c s =
      .ok (s.files.opened? name mode).isSome
        { s with files := (s.files.opened? name mode).getD s.files } := by
  rw [openFile]
  cases mode with
  | read =>
    simp only [hmode, FileMode.letter, FileSystem.opened?]
    show EStateM.Result.ok (s.files.openFile name false).1
      { s with files := (s.files.openFile name false).2 } = _
    cases hread : s.files.read? name <;> simp [FileSystem.openFile, hread]
  | write =>
    simp only [hmode, FileMode.letter, FileSystem.opened?]
    show EStateM.Result.ok true
      { s with files := (s.files.openFile name true).2.clear name } = _
    cases hread : s.files.read? name <;>
      simp [FileSystem.openFile, FileSystem.clear, FileSystem.put_put, hread]
  | append =>
    simp only [hmode, FileMode.letter, FileSystem.opened?]
    show EStateM.Result.ok (s.files.openFile name true).1
      { s with files := (s.files.openFile name true).2 } = _
    cases hread : s.files.read? name <;> simp [FileSystem.openFile, hread]

/-- A pointer to a new struct leads to the handle in it. -/
theorem handle?_of_alloc {heap : Heap} {ty ty' : Ty}
    (ht : t.heap = ((heap.alloc #[.int .int h]).2.alloc
      #[.fresh ty (.struct heap.blocks.size)]).2) :
    t.handle? (.fresh ty' (.pointer (some (.slot (heap.alloc #[.int .int h]).2.blocks.size)))) =
      some h := by
  have hne : heap.blocks.size ≠ (heap.alloc #[.int .int h]).2.blocks.size := by
    simp [Heap.alloc]
  have hslot : t.heap.load? (.slot (heap.alloc #[.int .int h]).2.blocks.size) =
      some { Value.fresh ty (.struct heap.blocks.size) with
        place := some (.slot (heap.alloc #[.int .int h]).2.blocks.size) } := by
    rw [ht, Heap.load?, Heap.cells_alloc]
    simp [Place.slot]
  have hcells : t.heap.cells heap.blocks.size = #[.int .int h] := by
    rw [ht, Heap.cells_alloc, if_neg hne, Heap.cells_alloc, if_pos rfl]
  show ((t.heap.load? (.slot _)).bind fun v => v.structStore?.bind fun store =>
    ((t.heap.cells store)[0]?).bind Value.int?) = some h
  rw [hslot]
  show ((t.heap.cells heap.blocks.size)[0]?).bind Value.int? = some h
  rw [hcells]
  rfl

section Opening

variable {name letters : String} {mode : FileMode} (hmode : plainMode letters = mode.letter)

include hmode

theorem filePointer_of_undefined (hd : s.struct? "FILE" = none) :
    filePointer name letters c s = fail (.library .noFileType) c
      { s with files := (s.files.opened? name mode).getD s.files } := by
  rw [filePointer, bind_ok (openFile_eq hmode)]
  refine (bind_ok (x := get) rfl).trans ?_
  simp only [State.struct?] at hd ⊢
  rw [hd]

theorem filePointer_of_missing {d : StructTy} (hd : s.struct? "FILE" = some d)
    (hopened : s.files.opened? name mode = none) :
    filePointer name letters c s = .ok (.null (Ty.pointerTo d.type)) s := by
  rw [filePointer, bind_ok (openFile_eq hmode), hopened]
  refine (bind_ok (x := get) rfl).trans ?_
  simp only [State.struct?] at hd ⊢
  rw [hd]
  rfl

/-- The struct behind a file pointer is in a new block, and a new cell holds it. -/
theorem filePointer_of_opened {d : StructTy} (hd : s.struct? "FILE" = some d) {files : FileSystem}
    (hopened : s.files.opened? name mode = some files) :
    let heap := (s.heap.alloc #[.int .int (s.openFiles.last + 1)]).2
    let cell : Value := .fresh d.type (.struct s.heap.blocks.size)
    filePointer name letters c s =
      .ok (.fresh (Ty.pointerTo d.type) (.pointer (some (.slot heap.blocks.size))))
        { s with files, openFiles := (s.openFiles.add name).2, heap := (heap.alloc #[cell]).2 } := by
  intro heap cell
  rw [filePointer, bind_ok (openFile_eq hmode), hopened]
  refine (bind_ok (x := get) rfl).trans ?_
  simp only [State.struct?] at hd ⊢
  rw [hd]
  rfl

end Opening

/-- Opening a file comes back with a pointer to the struct of a new handle, or with a null pointer
if there is nothing to open. -/
theorem callLibrary_of_open {d : StructTy} (hd : s.struct? "FILE" = some d) {name : String}
    {mode : FileMode} (hq : Requests s f args (.openFile name mode)) :
    ∃ v t, callLibrary f args c s = .ok (.done v) t ∧
      t.storage = s.storage.after (.openFile name mode) ∧
      (s.storage.reply (.openFile name mode)).Shown t v := by
  obtain ⟨hname, hletters, hmode⟩ := hq
  rw [callLibrary, bind_ok (stringArgument_ok hname), bind_ok (stringArgument_ok hletters)]
  cases hopened : s.files.opened? name mode with
  | none =>
    refine ⟨_, s, bind_ok (filePointer_of_missing hmode hd hopened), ?_, ?_⟩
    · rw [Storage.after, State.storage, hopened]
    · rw [Storage.reply, State.storage, hopened]
      exact .null rfl
  | some files =>
    refine ⟨_, _, bind_ok (filePointer_of_opened hmode hd hopened), ?_, ?_⟩
    · rw [Storage.after, State.storage, State.storage, hopened]
    · rw [Storage.reply, State.storage, hopened]
      exact .handle (handle?_of_alloc rfl)

/-- A call that stands for a request comes back with the answer to it. -/
theorem callLibrary_of_requests {d : StructTy} (hd : s.struct? "FILE" = some d)
    (hq : Requests s f args q) :
    ∃ v t, callLibrary f args c s = .ok (.done v) t ∧ t.storage = s.storage.after q ∧
      (s.storage.reply q).Shown t v := by
  cases hh : q.handle? with
  | none =>
    cases q with
    | openFile name mode => exact callLibrary_of_open hd hq
    | write | read | close => cases hh
  | some h =>
    obtain ⟨n, hreply, hcall⟩ := callLibrary_of_handle (c := c) hq hh
    exact ⟨_, _, hcall, rfl, hreply ▸ .number rfl⟩

/-- What a call that has come back has done. -/
theorem shown_of_callLibrary (hq : Requests s f args q) {r : Progress .value}
    (hcall : callLibrary f args c s = .ok r t) :
    t.storage = s.storage.after q ∧ ∃ v, r = .done v ∧ (s.storage.reply q).Shown t v := by
  cases hh : q.handle? with
  | none =>
    cases q with
    | openFile name mode =>
      cases hd : s.struct? "FILE" with
      | some d =>
        obtain ⟨v, u, hcall', hu⟩ := callLibrary_of_open (c := c) hd hq
        cases hcall.symm.trans hcall'
        exact ⟨hu.1, v, rfl, hu.2⟩
      | none =>
        obtain ⟨hname, hletters, hmode⟩ := hq
        rw [callLibrary, bind_ok (stringArgument_ok hname), bind_ok (stringArgument_ok hletters),
          bind_error (filePointer_of_undefined hmode hd)] at hcall
        cases hcall
    | write | read | close => cases hh
  | some h =>
    obtain ⟨n, hreply, hcall'⟩ := callLibrary_of_handle (c := c) hq hh
    cases hcall.symm.trans hcall'
    exact ⟨rfl, _, rfl, hreply ▸ .number rfl⟩

/-! ## Calls about the console -/

section Console

variable {α β : Type} {x : RunM α} {g : α → RunM β}

/-- A computation leaves the files and handles alone. -/
def KeepsStorage (x : RunM α) : Prop := ∀ c s a t, x c s = .ok a t → t.storage = s.storage

theorem KeepsStorage.bind (hx : KeepsStorage x) (hg : ∀ a, KeepsStorage (g a)) :
    KeepsStorage (x >>= g) := by
  intro c s b u h
  obtain ⟨a, t, ha, hb⟩ := bind_eq_ok h
  exact (hg a c t b u hb).trans (hx c s a t ha)

theorem keepsStorage_pure (a : α) : KeepsStorage (pure a) := by
  rintro c s a t ⟨⟩
  rfl

theorem keepsStorage_fail (cause : FaultCause) : KeepsStorage (fail cause : RunM α) :=
  fun _ _ _ _ h => nomatch h

theorem keepsStorage_get : KeepsStorage (get : RunM State) := by
  rintro c s a t ⟨⟩
  rfl

theorem keepsStorage_modify {g : State → State} (hg : ∀ s, (g s).storage = s.storage) :
    KeepsStorage (modify g) := by
  rintro c s a t ⟨⟩
  exact hg s

theorem keepsStorage_ofLibrary (x : Except LibraryFault α) : KeepsStorage (ofLibrary x) := by
  cases x with
  | ok a => exact keepsStorage_pure a
  | error cause => exact keepsStorage_fail _

theorem keepsStorage_stringArgument (v : Value) : KeepsStorage (stringArgument v) :=
  .bind (.bind keepsStorage_get fun _ => keepsStorage_pure _) fun _ => keepsStorage_ofLibrary _

theorem keepsStorage_writeConsole (text : String) : KeepsStorage (writeConsole text) :=
  keepsStorage_modify fun _ => rfl

/-- The functions for the console do not touch the files. -/
theorem keepsStorage_callLibrary (hf : f ∈ [.printf, .puts, .putchar, .getchar])
    (args : List Value) : KeepsStorage (callLibrary f args) := by
  unfold callLibrary
  split
  · refine .bind (keepsStorage_stringArgument _) fun format => .bind keepsStorage_get fun s => ?_
    refine .bind (fun _ _ _ _ h => by cases h; rfl) fun c => ?_
    refine .bind (keepsStorage_ofLibrary _) fun out => ?_
    exact .bind (keepsStorage_writeConsole _) fun _ => keepsStorage_pure _
  · exact keepsStorage_fail _
  · refine .bind (keepsStorage_stringArgument _) fun text => ?_
    exact .bind (keepsStorage_writeConsole _) fun _ => keepsStorage_pure _
  · split
    · exact keepsStorage_fail _
    · extract_lets rest
      split
      · exact .bind (keepsStorage_writeConsole _) fun _ => keepsStorage_pure _
      · exact keepsStorage_pure _
  · refine .bind keepsStorage_get fun s => .bind (keepsStorage_modify fun _ => rfl) fun _ => ?_
    split <;> exact keepsStorage_pure _
  · simp at hf
  · simp at hf
  · simp at hf
  · simp at hf
  · exact keepsStorage_fail _

end Console

end RunM

end Stepwise
