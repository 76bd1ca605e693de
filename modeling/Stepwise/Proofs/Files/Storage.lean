import Mathlib.Data.List.Basic
import Stepwise.Host.Files

/-! # Requests to files

What a program can ask of its files, and what it is answered. A request is about one file: the one
that it names, or the one that its handle was opened for. Requests about other files and through
other handles leave a file and a handle alone.
-/

namespace Stepwise

/-- The ways to open a file. -/
inductive FileMode
  | read
  | write
  | append
  deriving DecidableEq, Repr

def FileMode.letter : FileMode → String
  | read => "r"
  | write => "w"
  | append => "a"

/-- What a program can ask of its files. -/
inductive FileRequest
  | openFile (name : String) (mode : FileMode)
  | write (handle : Int) (text : String)
  | read (handle : Int)
  | close (handle : Int)
  deriving DecidableEq, Repr

/-- The handle that a request goes through. -/
def FileRequest.handle? : FileRequest → Option Int
  | .openFile .. => none
  | .write h _ | .read h | .close h => some h

/-- What a request is answered. -/
inductive FileReply
  /-- A pointer to the struct of a new handle. -/
  | handle (h : Int)
  /-- A null pointer. -/
  | null
  | number (n : Int)
  deriving DecidableEq, Repr

/-- The files, and the handles to them. -/
structure Storage where
  files : FileSystem := {}
  handles : OpenFiles := {}

/-! ## Single files and handles -/

namespace FileSystem

variable {fs : FileSystem} {name other text : String}

theorem put_put (fs : FileSystem) (name text text' : String) :
    (fs.put name text).put name text' = fs.put name text' := by
  simp [put, List.filter_filter]

/-- The file system after a file has been opened, if it can be. -/
def opened? (fs : FileSystem) (name : String) : FileMode → Option FileSystem
  | .read => if (fs.read? name).isSome then some fs else none
  | .write => some (fs.clear name)
  | .append => some (if (fs.read? name).isSome then fs else fs.put name "")

theorem read?_clear_self (fs : FileSystem) (name : String) :
    (fs.clear name).read? name = some "" :=
  read?_put_self fs name ""

theorem read?_write_self (h : fs.read? name = some text) (more : String) :
    (fs.write name more).read? name = some (text ++ more) := by
  rw [write, read?_put_self, h]
  rfl

theorem read?_write_of_ne (h : other ≠ name) (more : String) :
    (fs.write name more).read? other = fs.read? other :=
  read?_put_of_ne fs _ h

theorem read?_opened?_of_ne {fs' : FileSystem} {mode : FileMode}
    (h : fs.opened? name mode = some fs') (hne : other ≠ name) :
    fs'.read? other = fs.read? other := by
  cases mode with
  | read =>
    simp only [opened?, Option.ite_none_right_eq_some, Option.some.injEq] at h
    rw [h.2]
  | write =>
    cases h
    exact read?_put_of_ne fs "" hne
  | append =>
    cases h
    split
    · rfl
    · exact read?_put_of_ne fs "" hne

end FileSystem

namespace OpenFiles

variable {t : OpenFiles} {h h' : Int} {f : OpenFile}

/-- No handle is in use that has not been given out. -/
def Bounded (t : OpenFiles) : Prop := ∀ h f, t.get? h = some f → h ≤ t.last

theorem bounded_empty : ({} : OpenFiles).Bounded := nofun

theorem get?_add_self (t : OpenFiles) (name : String) :
    (t.add name).2.get? (t.last + 1) = some { name } := by
  simp [add, get?]

theorem get?_add_of_ne (name : String) (hne : h ≠ t.last + 1) :
    (t.add name).2.get? h = t.get? h := by
  have hb : (h == t.last + 1) = false := by simpa using hne
  simp [add, get?, List.lookup_cons, hb]

theorem get?_advance (t : OpenFiles) (h h' : Int) : (t.advance h).get? h' =
    if h' = h then (t.get? h').map fun f => { f with position := f.position + 1 } else t.get? h' := by
  simp only [advance, get?]
  induction t.files with
  | nil => simp
  | cons entry files ih =>
    obtain ⟨k, f⟩ := entry
    rw [List.map_cons, List.lookup_cons, List.lookup_cons]
    cases hk : h' == k with
    | true =>
      obtain rfl := eq_of_beq hk
      by_cases hh : h' = h <;> simp [hh]
    | false => exact ih

theorem get?_remove (t : OpenFiles) (h h' : Int) :
    (t.remove h).get? h' = if h' = h then none else t.get? h' := by
  simp only [remove, get?]
  induction t.files with
  | nil => simp
  | cons entry files ih =>
    obtain ⟨k, f⟩ := entry
    by_cases hk : k = h
    · subst hk
      rw [List.filter_cons_of_neg (by simp), ih, List.lookup_cons]
      by_cases hne : h' = k
      · simp [hne]
      · simp [hne, beq_false_of_ne hne]
    · rw [List.filter_cons_of_pos (by simpa using hk), List.lookup_cons, List.lookup_cons, ih]
      cases hk' : h' == k with
      | true =>
        obtain rfl := eq_of_beq hk'
        simp [hk]
      | false => rfl

end OpenFiles

/-! ## Answers -/

namespace Storage

/-- The file that a handle has been opened for. -/
def name? (s : Storage) (h : Int) : Option String := (s.handles.get? h).map (·.name)

/-- The character that a handle reads next. -/
def character? (s : Storage) (h : Int) : Option Char := do
  let f ← s.handles.get? h
  (← s.files.read? f.name).toList[f.position]?

/-- The file that a request is about. -/
def about? (s : Storage) : FileRequest → Option String
  | .openFile name _ => some name
  | .write h _ | .read h | .close h => s.name? h

/-- The answer to a request; -1 is the end of a file. -/
def reply (s : Storage) : FileRequest → FileReply
  | .openFile name mode =>
    if (s.files.opened? name mode).isSome then .handle (s.handles.last + 1) else .null
  | .write h _ => .number (if (s.handles.get? h).isSome then 1 else -1)
  | .read h => .number (((s.character? h).map fun c => (c.toNat : Int)).getD (-1))
  | .close h => .number (if (s.handles.get? h).isSome then 0 else -1)

/-- What a request leaves behind. -/
def after (s : Storage) : FileRequest → Storage
  | .openFile name mode =>
    match s.files.opened? name mode with
    | none => s
    | some files => ⟨files, (s.handles.add name).2⟩
  | .write h text =>
    match s.handles.get? h with
    | none => s
    | some f => { s with files := s.files.write f.name text }
  | .read h =>
    match s.character? h with
    | none => s
    | some _ => { s with handles := s.handles.advance h }
  | .close h =>
    match s.handles.get? h with
    | none => s
    | some _ => { s with handles := s.handles.remove h }

section Requests

variable {s : Storage} {q : FileRequest} {h : Int} {f : OpenFile} {name text : String}

/-- A request through a handle that is not in use is answered with the end of a file and changes
nothing. -/
theorem reply_of_closed (hq : q.handle? = some h) (hclosed : s.handles.get? h = none) :
    s.reply q = .number (-1) ∧ s.after q = s := by
  cases q <;> cases hq <;> simp [reply, after, character?, hclosed]

theorem last_le_after (s : Storage) (q : FileRequest) :
    s.handles.last ≤ (s.after q).handles.last := by
  cases q <;> simp only [after] <;> split <;> first | exact Nat.le_refl _ | exact Nat.le_succ _

/-- An opened file has the next handle. -/
theorem last_after_of_reply (hr : s.reply q = .handle h) :
    h = s.handles.last + 1 ∧ (s.after q).handles.last = s.handles.last + 1 := by
  cases q with
  | openFile name mode =>
    simp only [reply] at hr
    split at hr
    case isFalse => cases hr
    case isTrue hsome =>
      obtain ⟨files, hfiles⟩ := Option.isSome_iff_exists.mp hsome
      cases hr
      exact ⟨rfl, by rw [after, hfiles]; rfl⟩
  | write => cases hr
  | read => cases hr
  | close => cases hr

/-- A request leaves the handles alone that it does not go through. -/
theorem get?_after_of_ne (hh : h ≤ s.handles.last) (hq : q.handle? ≠ some h) :
    (s.after q).handles.get? h = s.handles.get? h := by
  cases q with
  | openFile name mode =>
    simp only [after]
    split
    · rfl
    · exact OpenFiles.get?_add_of_ne name (by omega)
  | write h' text =>
    simp only [after]
    split <;> rfl
  | read h' =>
    have hne : h ≠ h' := fun he => hq (congrArg some he.symm)
    simp only [after]
    split
    · rfl
    · rw [OpenFiles.get?_advance, if_neg hne]
  | close h' =>
    have hne : h ≠ h' := fun he => hq (congrArg some he.symm)
    simp only [after]
    split
    · rfl
    · rw [OpenFiles.get?_remove, if_neg hne]

/-- A request leaves the files alone that it is not about. -/
theorem read?_after_of_ne (hq : s.about? q ≠ some name) :
    (s.after q).files.read? name = s.files.read? name := by
  cases q with
  | openFile name' mode =>
    simp only [after]
    split
    · rfl
    · rename_i files hfiles
      exact FileSystem.read?_opened?_of_ne hfiles fun he => hq (congrArg some he.symm)
  | write h text =>
    simp only [after]
    split
    · rfl
    · rename_i f hf
      refine FileSystem.read?_write_of_ne (fun he => hq ?_) text
      rw [about?, name?, hf, he]
      rfl
  | read h =>
    simp only [after]
    split <;> rfl
  | close h =>
    simp only [after]
    split <;> rfl

theorem bounded_after (hb : s.handles.Bounded) (q : FileRequest) :
    (s.after q).handles.Bounded := by
  intro h f hf
  cases q with
  | openFile name mode =>
    simp only [after] at hf ⊢
    split at hf
    · exact hb h f hf
    · by_cases hne : h = s.handles.last + 1
      · exact Int.le_of_eq hne
      · rw [OpenFiles.get?_add_of_ne name hne] at hf
        exact Int.le_trans (hb h f hf) (Int.ofNat_le.mpr (Nat.le_succ _))
  | write h' text =>
    simp only [after] at hf ⊢
    split at hf <;> exact hb h f hf
  | read h' =>
    simp only [after] at hf ⊢
    split at hf
    · exact hb h f hf
    · rw [OpenFiles.get?_advance] at hf
      split at hf
      · obtain ⟨f', hf', -⟩ := Option.map_eq_some_iff.mp hf
        exact hb h f' hf'
      · exact hb h f hf
  | close h' =>
    simp only [after] at hf ⊢
    split at hf
    · exact hb h f hf
    · rw [OpenFiles.get?_remove] at hf
      split at hf
      · cases hf
      · exact hb h f hf

/-- A handle that has been given out and taken out of use. -/
def Closed (s : Storage) (h : Int) : Prop := h ≤ s.handles.last ∧ s.handles.get? h = none

theorem closed_after (hc : s.Closed h) (q : FileRequest) : (s.after q).Closed h := by
  obtain ⟨hle, hnone⟩ := hc
  refine ⟨Int.le_trans hle (Int.ofNat_le.mpr (last_le_after s q)), ?_⟩
  by_cases hq : q.handle? = some h
  · rw [(reply_of_closed hq hnone).2, hnone]
  · rw [get?_after_of_ne hle hq, hnone]

/-- Closing takes a handle out of use. -/
theorem closed_after_close (hb : s.handles.Bounded) (hr : s.reply (.close h) = .number 0) :
    (s.after (.close h)).Closed h := by
  cases hf : s.handles.get? h with
  | none => simp [reply, hf] at hr
  | some f =>
    rw [after, hf]
    exact ⟨hb h f hf, by rw [OpenFiles.get?_remove, if_pos rfl]⟩

end Requests

end Storage

end Stepwise
