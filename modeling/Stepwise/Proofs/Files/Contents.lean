import Stepwise.Proofs.Files.Histories

/-! # Contents of files

What a file contains after a history, and what is read from it.
-/

/-! ## Reading back what was written

A file is opened for writing, texts are written through the handle, and it is closed; then it is
opened for reading. What is read is the texts, character by character, and then the end of the file
however often it is read. Requests about other files may come in between.
-/

namespace Stepwise

namespace Storage

variable {s t : Storage} {q : FileRequest} {h : Int} {f : OpenFile} {name text : String} {k : Nat}

/-- The code of a character of a text, or the end of the file. -/
def codeAt (text : String) (k : Nat) : Int :=
  ((text.toList[k]?).map fun ch => (ch.toNat : Int)).getD (-1)

/-! ### One file among others -/

/-- A file and the handles to it are kept. -/
structure KeepsFile (name : String) (s t : Storage) : Prop where
  bounded : t.handles.Bounded
  text : t.files.read? name = s.files.read? name
  handles : ∀ h f, s.handles.get? h = some f → f.name = name → t.handles.get? h = some f

theorem about?_of_handle (hq : q.handle? = some h) : s.about? q = s.name? h := by
  cases q <;> cases hq <;> rfl

theorem keepsFile_after (hs : s.handles.Bounded) (hq : s.about? q ≠ some name) :
    KeepsFile name s (s.after q) where
  bounded := bounded_after hs q
  text := read?_after_of_ne hq
  handles h f hf hname := by
    have hne : q.handle? ≠ some h := by
      intro hh
      rw [about?_of_handle hh, name?, hf, ← hname] at hq
      exact hq rfl
    rw [get?_after_of_ne (hs h f hf) hne, hf]

/-- Up to the first event about a file, the file is kept. -/
theorem Runs.exists_first {events rest : List FileEvent} {e : FileEvent} (hr : Runs s events t)
    (hs : s.handles.Bounded) (hown : FileEvent.own name events = e :: rest) :
    ∃ m q events', KeepsFile name s m ∧ e = m.event q ∧ Runs (m.after q) events' t ∧
      FileEvent.own name events' = rest := by
  induction hr with
  | done s => cases hown
  | @step s t q events hr ih =>
    by_cases hq : s.about? q = some name
    · have hcons : FileEvent.own name (s.event q :: events) =
          s.event q :: FileEvent.own name events :=
        List.filter_cons_of_pos (decide_eq_true hq)
      obtain ⟨rfl, rfl⟩ := List.cons.inj (hcons.symm.trans hown)
      exact ⟨s, q, events, ⟨hs, rfl, fun _ _ hf _ => hf⟩, rfl, hr, rfl⟩
    · have hcons : FileEvent.own name (s.event q :: events) = FileEvent.own name events :=
        List.filter_cons_of_neg fun hq' => hq (of_decide_eq_true hq')
      have hkeep := keepsFile_after hs hq
      obtain ⟨m, q', events', hm, he, hr', hrest⟩ := ih hkeep.bounded (hcons.symm.trans hown)
      refine ⟨m, q', events', ⟨hm.bounded, hm.text.trans hkeep.text, fun h f hf hname => ?_⟩, he,
        hr', hrest⟩
      exact hm.handles h f (hkeep.handles h f hf hname) hname

/-! ### A handle to a text -/

/-- A handle to a file is in use, has read some characters of it, and the file holds a text. -/
structure Holds (s : Storage) (name : String) (h : Int) (position : Nat) (text : String) :
    Prop where
  bounded : s.handles.Bounded
  handle : s.handles.get? h = some ⟨name, position⟩
  text : s.files.read? name = some text

theorem KeepsFile.holds (hk : KeepsFile name s t) (hs : s.Holds name h k text) :
    t.Holds name h k text :=
  ⟨hk.bounded, hk.handles h _ hs.handle rfl, hk.text.trans hs.text⟩

theorem holds_of_opened (mode : FileMode) {files : FileSystem} (hs : s.handles.Bounded)
    (ho : s.files.opened? name mode = some files) (ht : files.read? name = some text) :
    s.event (.openFile name mode) =
        ⟨.openFile name mode, some name, .handle (s.handles.last + 1)⟩ ∧
      (s.after (.openFile name mode)).Holds name (s.handles.last + 1) 0 text := by
  have hafter : s.after (.openFile name mode) = ⟨files, (s.handles.add name).2⟩ := by
    rw [after, ho]
  refine ⟨?_, bounded_after hs _, ?_, ?_⟩
  · rw [event, reply, ho]
    rfl
  · rw [hafter]
    exact OpenFiles.get?_add_self s.handles name
  · rw [hafter]
    exact ht

namespace Holds

variable (hs : s.Holds name h k text)

include hs

theorem name?_eq : s.name? h = some name := by
  rw [name?, hs.handle]
  rfl

theorem write (more : String) :
    s.event (.write h more) = ⟨.write h more, some name, .number 1⟩ ∧
      (s.after (.write h more)).Holds name h k (text ++ more) := by
  have hafter : s.after (.write h more) = { s with files := s.files.write name more } := by
    rw [after, hs.handle]
  refine ⟨?_, bounded_after hs.bounded _, ?_, ?_⟩
  · rw [event, about?, hs.name?_eq, reply, hs.handle]
    rfl
  · rw [hafter]
    exact hs.handle
  · rw [hafter]
    exact FileSystem.read?_write_self hs.text more

theorem close : s.event (.close h) = ⟨.close h, some name, .number 0⟩ ∧
    (s.after (.close h)).files.read? name = some text := by
  constructor
  · rw [event, about?, hs.name?_eq, reply, hs.handle]
    rfl
  · rw [after, hs.handle]
    exact hs.text

omit hs in
/-- Reading goes on until the end of the text and stays there. -/
theorem read {j : Nat} (hs : s.Holds name h (min j text.toList.length) text) :
    s.event (.read h) = ⟨.read h, some name, .number (codeAt text j)⟩ ∧
      (s.after (.read h)).Holds name h (min (j + 1) text.toList.length) text := by
  have hchar : s.character? h = text.toList[j]? := by
    have hmin : text.toList[min j text.toList.length]? = text.toList[j]? := by
      obtain hj | hj := lt_or_ge j text.toList.length
      · rw [min_eq_left hj.le]
      · rw [min_eq_right hj, List.getElem?_eq_none le_rfl, List.getElem?_eq_none hj]
    rw [character?, hs.handle, Option.bind_eq_bind, Option.bind_some, hs.text]
    exact hmin
  refine ⟨?_, bounded_after hs.bounded _, ?_, ?_⟩
  · rw [event, about?, hs.name?_eq, reply, hchar]
    rfl
  · obtain hj | hj := lt_or_ge j text.toList.length
    · have hafter : s.after (.read h) = { s with handles := s.handles.advance h } := by
        rw [after, hchar, List.getElem?_eq_getElem hj]
      rw [hafter, OpenFiles.get?_advance, if_pos rfl, hs.handle, min_eq_left hj.le,
        min_eq_left (Nat.succ_le_of_lt hj)]
      rfl
    · have hafter : s.after (.read h) = s := by
        rw [after, hchar, List.getElem?_eq_none hj]
      rw [hafter, hs.handle, min_eq_right hj, min_eq_right (Nat.le_succ_of_le hj)]
  · rw [after]
    split <;> exact hs.text

end Holds

/-! ### Writing and reading -/

/-- The events about a file that is written and read again. -/
def rewriting (name : String) (h₁ h₂ : Int) (texts : List String) (n : Nat) : List FileEvent :=
  ⟨.openFile name .write, some name, .handle h₁⟩ ::
    (texts.map (fun text => ⟨.write h₁ text, some name, .number 1⟩) ++
    (⟨.close h₁, some name, .number 0⟩ :: ⟨.openFile name .read, some name, .handle h₂⟩ ::
    (List.range' 0 n).map fun k =>
      ⟨.read h₂, some name, .number (codeAt (String.join texts) k)⟩))

theorem requests_rewriting (name : String) (h₁ h₂ : Int) (texts : List String) (n : Nat) :
    (rewriting name h₁ h₂ texts n).map (·.request) = .openFile name .write ::
      (texts.map (.write h₁) ++ (.close h₁ :: .openFile name .read ::
        List.replicate n (.read h₂))) := by
  simp only [rewriting, List.map_cons, List.map_append, List.map_map, Function.comp_def,
    List.map_const', List.length_range']

namespace Runs

variable {events : List FileEvent} {rest : List FileRequest}

/-- The texts that are written are added to the file one after the other. -/
theorem writes {texts : List String} (hr : Runs s events t) (hs : s.Holds name h k text)
    (hq : (FileEvent.own name events).map (·.request) = texts.map (.write h) ++ rest) :
    ∃ m events', Runs m events' t ∧ m.Holds name h k (text ++ String.join texts) ∧
      FileEvent.own name events = texts.map (fun text => ⟨.write h text, some name, .number 1⟩) ++
        FileEvent.own name events' ∧
      (FileEvent.own name events').map (·.request) = rest := by
  induction texts generalizing s events text with
  | nil => exact ⟨s, events, hr, by simpa using hs, rfl, hq⟩
  | cons more texts ih =>
    obtain ⟨e, own, hown, he, hq⟩ := List.map_eq_cons_iff.mp hq
    obtain ⟨m, q, events', hkeep, rfl, hr', rfl⟩ := hr.exists_first hs.bounded hown
    cases he
    obtain ⟨hevent, hm⟩ := (hkeep.holds hs).write more
    obtain ⟨u, rest', hu, hheld, hown', hq'⟩ := ih hr' hm hq
    refine ⟨u, rest', hu, by simpa [String.join_cons, String.append_assoc] using hheld, ?_, hq'⟩
    rw [hown, hevent, hown']
    rfl

/-- The characters are read one after the other. -/
theorem reads {n j : Nat} (hr : Runs s events t)
    (hs : s.Holds name h (min j text.toList.length) text)
    (hq : (FileEvent.own name events).map (·.request) = List.replicate n (.read h)) :
    FileEvent.own name events = (List.range' j n).map fun k =>
      ⟨.read h, some name, .number (codeAt text k)⟩ := by
  induction n generalizing s events j with
  | zero => exact List.map_eq_nil_iff.mp hq
  | succ n ih =>
    obtain ⟨e, own, hown, he, hq⟩ := List.map_eq_cons_iff.mp hq
    obtain ⟨m, q, events', hkeep, rfl, hr', rfl⟩ := hr.exists_first hs.bounded hown
    cases he
    obtain ⟨hevent, hm⟩ := (hkeep.holds hs).read
    rw [hown, hevent, ih hr' hm hq]
    rfl

/-- If the handles that the requests go through are the ones that the file has been opened with,
the answers are determined. -/
theorem own_eq_rewriting {h₁ h₂ : Int} {texts : List String} {n : Nat} (hr : Runs s events t)
    (hs : s.handles.Bounded)
    (hq : (FileEvent.own name events).map (·.request) =
      (rewriting name h₁ h₂ texts n).map (·.request))
    (hopened : (FileEvent.own name events).filterMap FileEvent.opened? <+: [h₁, h₂]) :
    FileEvent.own name events = rewriting name h₁ h₂ texts n := by
  rw [requests_rewriting] at hq
  -- the file is opened for writing
  obtain ⟨e, own, hown, he, hq⟩ := List.map_eq_cons_iff.mp hq
  obtain ⟨m, q, events₁, hkeep, rfl, hr₁, rfl⟩ := hr.exists_first hs hown
  cases he
  obtain ⟨hopen, hm⟩ := holds_of_opened .write hkeep.bounded rfl
    (FileSystem.read?_clear_self m.files name)
  rw [hown, hopen, List.filterMap_cons] at hopened
  obtain ⟨hh₁, hopened⟩ := List.cons_prefix_cons.mp hopened
  rw [hh₁] at hopen hm
  -- the texts are written, and the handle is closed
  obtain ⟨u, events₂, hr₂, hu, hwrites, hq⟩ := writes hr₁ hm hq
  obtain ⟨e, own, hown₂, he, hq⟩ := List.map_eq_cons_iff.mp hq
  obtain ⟨v, q, events₃, hkeep, rfl, hr₃, rfl⟩ := hr₂.exists_first hu.bounded hown₂
  cases he
  obtain ⟨hclose, htext⟩ := (hkeep.holds hu).close
  -- the file is opened for reading
  obtain ⟨e, own, hown₃, he, hq⟩ := List.map_eq_cons_iff.mp hq
  obtain ⟨w, q, events₄, hkeep, rfl, hr₄, rfl⟩ :=
    hr₃.exists_first (bounded_after (hkeep.holds hu).bounded _) hown₃
  cases he
  have htext' : w.files.read? name = some (String.join texts) := by
    rw [hkeep.text, htext, String.empty_append]
  have hsome : w.files.opened? name .read = some w.files := by
    rw [FileSystem.opened?, htext']
    rfl
  obtain ⟨hreopen, hw⟩ := holds_of_opened .read hkeep.bounded hsome htext'
  have hnone : (texts.map fun text => (⟨.write h₁ text, some name, .number 1⟩ : FileEvent)).filterMap
      FileEvent.opened? = [] := by
    simp [FileEvent.opened?]
  rw [hwrites, hown₂, hown₃, hclose, hreopen, List.filterMap_append, hnone, List.nil_append] at hopened
  obtain ⟨hh₂, -⟩ := List.cons_prefix_cons.mp hopened
  rw [hh₂] at hreopen hw
  -- and read
  have hreads := reads (j := 0) hr₄ (by rwa [Nat.zero_min]) hq
  rw [hown, hopen, hwrites, hown₂, hclose, hown₃, hreopen, hreads]
  rfl

end Runs

end Storage

/-! ### Files of a run -/

/-- A run begins with no handles. From any of its states on, a file that is written and read gives
back the texts, whatever happens to other files. No handle is given out twice, and a handle is not
moved by requests through others. A closed handle only ever gives the end of the file, and nothing
changes. What can be asked is answered. -/
theorem History.reads_back {c : Config} {start s t : State} {before events : List FileEvent}
    (hstart : start.openFiles = {}) (hbefore : History c start before s)
    (hevents : History c s events t) :
    (∀ name h₁ h₂ texts n, (FileEvent.own name events).map (·.request) =
        (Storage.rewriting name h₁ h₂ texts n).map (·.request) →
      (FileEvent.own name events).filterMap FileEvent.opened? <+: [h₁, h₂] →
      FileEvent.own name events = Storage.rewriting name h₁ h₂ texts n) ∧
    ((before ++ events).filterMap FileEvent.opened?).Pairwise (· < ·) ∧
    (∀ h f, s.openFiles.get? h = some f → (∀ e ∈ events, e.request.handle? ≠ some h) →
      t.openFiles.get? h = some f) ∧
    (∀ h name?, ⟨.close h, name?, .number 0⟩ ∈ before ++ events → ∀ f args q,
      Requests t f args q → q.handle? = some h →
      RunM.callLibrary f args c t = .ok (.done (.int .int RunM.endOfFile)) t) ∧
    (∀ f args q, Requests t f args q → (t.struct? "FILE").isSome = true ∨ q.handle?.isSome = true →
      ∃ v u, RunM.callLibrary f args c t = .ok (.done v) u) := by
  have hempty : start.storage.handles.Bounded := by
    show start.openFiles.Bounded
    rw [hstart]
    exact OpenFiles.bounded_empty
  have hs : s.storage.handles.Bounded := hbefore.runs.bounded hempty
  have hall := (hbefore.append hevents).runs
  refine ⟨fun name h₁ h₂ texts n => hevents.runs.own_eq_rewriting hs, hall.pairwise_opened,
    fun h f => hevents.runs.get?_of_ne hs, fun h name? hmem f args q hq hh => ?_,
    fun f args q hq hd => ?_⟩
  · obtain ⟨-, hclosed⟩ := hall.closed_of_mem hempty hmem
    obtain ⟨n, hreply, hcall⟩ := RunM.callLibrary_of_handle (c := c) hq hh
    obtain ⟨hend, hsame⟩ := Storage.reply_of_closed hh hclosed
    cases hend.symm.trans hreply
    rw [hcall, hsame]
    rfl
  · cases hh : q.handle? with
    | none =>
      obtain ⟨d, hd⟩ := Option.isSome_iff_exists.mp (hd.resolve_right (by simp [hh]))
      obtain ⟨v, u, hcall, -⟩ := RunM.callLibrary_of_requests (c := c) hd hq
      exact ⟨v, u, hcall⟩
    | some h =>
      obtain ⟨n, -, hcall⟩ := RunM.callLibrary_of_handle (c := c) hq hh
      exact ⟨_, _, hcall⟩

theorem requests_sampleState : ∀ q ∈ (Storage.rewriting "f" 1 2 ["ab"] 4).map (·.request),
    ∃ f args, Requests sampleState f args q := by
  have hname := stringAt_sampleState ['f'] 0 (by simp [Text.IsAscii]) rfl
  have hfirst : sampleState.handle? (.fresh StdioFunction.filePointer
      (.pointer (some (.slot 5)))) = some 1 := rfl
  have hsecond : sampleState.handle? (.fresh StdioFunction.filePointer
      (.pointer (some (.slot 7)))) = some 2 := rfl
  simp only [Storage.requests_rewriting, List.mem_cons, List.mem_append, List.mem_map,
    List.mem_replicate, List.not_mem_nil, or_false]
  rintro q (rfl | ⟨text, rfl, rfl⟩ | rfl | rfl | ⟨-, rfl⟩)
  · exact ⟨.fopen, [_, _], .fopen hname
      (stringAt_sampleState ['w'] 1 (by simp [Text.IsAscii]) rfl) rfl⟩
  · exact ⟨.fputs, [_, _], .fputs
      (stringAt_sampleState ['a', 'b'] 3 (by simp [Text.IsAscii]) rfl) hfirst⟩
  · exact ⟨.fclose, [_], .fclose hfirst⟩
  · exact ⟨.fopen, [_, _], .fopen hname
      (stringAt_sampleState ['r'] 2 (by simp [Text.IsAscii]) rfl) rfl⟩
  · exact ⟨.fgetc, [_], .fgetc hsecond⟩

theorem History.reads_back_sample : ∃ events t, (sampleState.openFiles = {} ∧
      History {} sampleState [] sampleState ∧ History {} sampleState events t ∧
      (FileEvent.own "f" events).map (·.request) =
        (Storage.rewriting "f" 1 2 ["ab"] 4).map (·.request) ∧
      (FileEvent.own "f" events).filterMap FileEvent.opened? <+: [1, 2]) ∧
    FileEvent.own "f" events = Storage.rewriting "f" 1 2 ["ab"] 4 := by
  obtain ⟨t, ht, -⟩ := exists_answers (c := {}) (d := StdioFunction.file) rfl
    requests_sampleState {}
  have hown : FileEvent.own "f" (({} : Storage).answers
      ((Storage.rewriting "f" 1 2 ["ab"] 4).map (·.request))) =
      Storage.rewriting "f" 1 2 ["ab"] 4 := by
    rfl
  have hrequests := congrArg (List.map (·.request)) hown
  have hopened : (FileEvent.own "f" (({} : Storage).answers
      ((Storage.rewriting "f" 1 2 ["ab"] 4).map (·.request)))).filterMap FileEvent.opened? <+:
      [1, 2] := by
    rw [hown]
    decide
  exact ⟨_, t, ⟨rfl, .done _, ht, hrequests, hopened⟩,
    (reads_back rfl (.done _) ht).1 _ _ _ _ _ hrequests hopened⟩

end Stepwise

/-! ## Files that are opened for reading

The mode of a file matters when it is opened and is not kept with the handle. A file that is only
opened for reading is neither made nor emptied, and it changes by what is written through the
handles to it: that is appended, whatever they were opened for.
-/

namespace Stepwise

/-- The text that a request wrote to a file. -/
def FileEvent.written? (name : String) (e : FileEvent) : Option String :=
  match e.request with
  | .write _ text => if e.about? = some name then some text else none
  | _ => none

/-- The file is never opened but for reading. -/
def FileEvent.OnlyReads (name : String) (events : List FileEvent) : Prop :=
  ∀ e ∈ events, ∀ mode, e.request = .openFile name mode → mode = .read

namespace Storage

variable {s t : Storage} {q : FileRequest} {events : List FileEvent} {name : String} {h : Int}

/-- A handle to a file was there before the request, or the request opened the file. -/
theorem name?_after (hh : (s.after q).name? h = some name) : s.name? h = some name ∨
    ∃ mode, q = .openFile name mode ∧ (s.files.opened? name mode).isSome = true := by
  cases q with
  | openFile name' mode =>
    simp only [after] at hh
    split at hh
    · exact .inl hh
    · rename_i files hfiles
      by_cases hne : h = s.handles.last + 1
      · rw [name?, hne, OpenFiles.get?_add_self] at hh
        cases hh
        exact .inr ⟨mode, rfl, by rw [hfiles]; rfl⟩
      · rw [name?, OpenFiles.get?_add_of_ne name' hne] at hh
        exact .inl hh
  | write h' text =>
    simp only [after] at hh
    split at hh <;> exact .inl hh
  | read h' =>
    simp only [after] at hh
    split at hh
    · exact .inl hh
    · rw [name?, OpenFiles.get?_advance] at hh
      split at hh
      · rw [Option.map_map] at hh
        exact .inl hh
      · exact .inl hh
  | close h' =>
    simp only [after] at hh
    split at hh
    · exact .inl hh
    · rw [name?, OpenFiles.get?_remove] at hh
      split at hh
      · cases hh
      · exact .inl hh

/-- There are only handles to the file if it is there. -/
def Present (s : Storage) (name : String) : Prop :=
  ∀ h, s.name? h = some name → (s.files.read? name).isSome = true

section OnlyReads

variable (hq : ∀ mode, q = .openFile name mode → mode = .read) (hs : s.Present name)

include hq hs

/-- What one request adds to a file. -/
theorem read?_after : (s.after q).files.read? name =
    (s.files.read? name).map (· ++ ((s.event q).written? name).getD "") := by
  have hsame : (s.files.read? name).map (· ++ "") = s.files.read? name := by simp
  cases q with
  | openFile name' mode =>
    refine Eq.trans ?_ hsame.symm
    by_cases hne : name = name'
    · subst hne
      obtain rfl := hq mode rfl
      rw [after, FileSystem.opened?]
      split <;> simp_all
    · exact read?_after_of_ne fun he => hne (Option.some.inj he).symm
  | write h text =>
    by_cases hname : s.name? h = some name
    · obtain ⟨old, hold⟩ := Option.isSome_iff_exists.mp (hs h hname)
      obtain ⟨f, hf, rfl⟩ := Option.map_eq_some_iff.mp hname
      rw [after, hf, hold, FileEvent.written?]
      simp only [event, about?, hname, if_true]
      exact FileSystem.read?_write_self hold text
    · refine (read?_after_of_ne (q := .write h text) hname).trans ?_
      simp [FileEvent.written?, event, about?, hname]
  | read h =>
    rw [after]
    split <;> exact hsame.symm
  | close h =>
    rw [after]
    split <;> exact hsame.symm

theorem present_after : (s.after q).Present name := by
  intro h hh
  rw [read?_after hq hs, Option.isSome_map]
  obtain hh | ⟨mode, rfl, hopened⟩ := name?_after hh
  · exact hs h hh
  · obtain rfl := hq mode rfl
    by_contra hnone
    simp [FileSystem.opened?, hnone] at hopened

end OnlyReads

/-- A file that is only opened for reading holds what it held and what has been written since. -/
theorem Runs.read?_eq (hr : Runs s events t) (hs : s.Present name)
    (hread : FileEvent.OnlyReads name events) : t.files.read? name =
      (s.files.read? name).map (· ++ String.join (events.filterMap (FileEvent.written? name))) := by
  induction hr with
  | done s => simp
  | @step s t q events _ ih =>
    obtain ⟨hq, hread⟩ := List.forall_mem_cons.mp hread
    rw [ih (present_after hq hs) hread, read?_after (q := q) hq hs, Option.map_map,
      List.filterMap_cons]
    cases (s.event q).written? name <;>
      simp [Function.comp_def, String.append_assoc, String.join_cons]

/-- Writing through a handle is answered the same whatever it was opened for. -/
theorem Runs.reply_write (hr : Runs s events t) : ∀ e ∈ events, ∀ h text,
    e.request = .write h text → e.reply = .number (if e.about?.isSome then 1 else -1) := by
  induction hr with
  | done s => simp
  | @step s t q events _ ih =>
    refine List.forall_mem_cons.mpr ⟨fun h text hq => ?_, ih⟩
    obtain rfl : q = .write h text := hq
    simp [event, reply, about?, name?]

end Storage

/-- In a run that begins with no handles, a file that is only opened for reading holds what it held
at the beginning, and after that the texts that were written through the handles to it. The answer
to writing is 1 if the handle is in use, and otherwise the end of the file. -/
theorem History.contents_of_onlyReads {c : Config} {s t : State} {events : List FileEvent}
    {name : String} (hstart : s.openFiles = {}) (h : History c s events t)
    (hread : FileEvent.OnlyReads name events) :
    t.files.read? name = (s.files.read? name).map
      (· ++ String.join (events.filterMap (FileEvent.written? name))) ∧
    (events.filterMap (FileEvent.written? name) = [] →
      t.files.read? name = s.files.read? name) ∧
    (∀ e ∈ events, ∀ handle text, e.request = .write handle text →
      e.reply = .number (if e.about?.isSome then 1 else -1)) := by
  have hs : s.storage.Present name := by
    intro h hh
    have hnone : s.storage.handles.get? h = none := by
      show s.openFiles.get? h = none
      rw [hstart]
      rfl
    rw [Storage.name?, hnone] at hh
    cases hh
  have htext := h.runs.read?_eq hs hread
  refine ⟨htext, fun hnone => ?_, h.runs.reply_write⟩
  rw [hnone] at htext
  exact htext.trans (by simp [State.storage])

/-- A state with a file, and the events of opening it for reading and writing to it. -/
def writtenState : State := sampleState.withStorage { files := ({} : FileSystem).put "f" "x" }

def writtenEvents : List FileEvent :=
  [⟨.openFile "f" .read, some "f", .handle 1⟩, ⟨.write 1 "ab", some "f", .number 1⟩]

theorem exists_writtenState :
    ∃ t, History {} writtenState writtenEvents t ∧ t.files.read? "f" = some "xab" := by
  have hqs : ∀ q ∈ [FileRequest.openFile "f" .read, .write 1 "ab"],
      ∃ f args, Requests sampleState f args q := by
    simp only [List.mem_cons, List.not_mem_nil, or_false]
    rintro q (rfl | rfl)
    · exact ⟨.fopen, [_, _], .fopen
        (stringAt_sampleState ['f'] 0 (by simp [Text.IsAscii]) rfl)
        (stringAt_sampleState ['r'] 2 (by simp [Text.IsAscii]) rfl) rfl⟩
    · exact ⟨.fputs, [_, .fresh StdioFunction.filePointer (.pointer (some (.slot 5)))], .fputs
        (stringAt_sampleState ['a', 'b'] 3 (by simp [Text.IsAscii]) rfl) rfl⟩
  obtain ⟨t, ht, hstorage⟩ := History.exists_answers (c := {}) (d := StdioFunction.file) rfl hqs
    { files := ({} : FileSystem).put "f" "x" }
  refine ⟨t, ht, ?_⟩
  show t.storage.files.read? "f" = some "xab"
  rw [hstorage]
  rfl

theorem onlyReads_writtenEvents : FileEvent.OnlyReads "f" writtenEvents := by
  simp [FileEvent.OnlyReads, writtenEvents]

theorem History.contents_of_onlyReads_sample : ∃ t, (writtenState.openFiles = {} ∧
      History {} writtenState writtenEvents t ∧ FileEvent.OnlyReads "f" writtenEvents) ∧
    t.files.read? "f" = (writtenState.files.read? "f").map
      (· ++ String.join (writtenEvents.filterMap (FileEvent.written? "f"))) := by
  obtain ⟨t, ht, -⟩ := exists_writtenState
  exact ⟨t, ⟨rfl, ht, onlyReads_writtenEvents⟩,
    (contents_of_onlyReads rfl ht onlyReads_writtenEvents).1⟩

/-- A file that is only opened for reading is written to, and the answer is not the end of the
file. -/
theorem History.onlyReads_written : ∃ t, writtenState.openFiles = {} ∧
    History {} writtenState writtenEvents t ∧ FileEvent.OnlyReads "f" writtenEvents ∧
    t.files.read? "f" ≠ writtenState.files.read? "f" ∧
    ∃ e ∈ writtenEvents, e.request = .write 1 "ab" ∧ e.about? = some "f" ∧
      e.reply ≠ .number RunM.endOfFile := by
  obtain ⟨t, ht, htext⟩ := exists_writtenState
  have hold : writtenState.files.read? "f" = some "x" := rfl
  refine ⟨t, rfl, ht, onlyReads_writtenEvents, ?_, _, List.mem_cons_of_mem _ List.mem_cons_self, rfl,
    rfl, by decide⟩
  rw [htext, hold]
  decide

end Stepwise
