/-! # Files

A file system that keeps the text of each file by its name, and the handles that a
program has opened. A handle is never given out twice.
-/

namespace Stepwise

/-- The texts of files by name, a name at most once. -/
structure FileSystem where
  files : List (String × String) := []

namespace FileSystem

def read? (fs : FileSystem) (name : String) : Option String := fs.files.lookup name

/-- The file system with the text of one file replaced. -/
def put (fs : FileSystem) (name text : String) : FileSystem :=
  ⟨(name, text) :: fs.files.filter fun (n, _) => n != name⟩

/-- Whether a file can be opened; one that is missing is created if `create` says so. -/
def openFile (fs : FileSystem) (name : String) (create : Bool) : Bool × FileSystem :=
  match fs.read? name with
  | some _ => (true, fs)
  | none => if create then (true, fs.put name "") else (false, fs)

/-- Appends to a file. -/
def write (fs : FileSystem) (name text : String) : FileSystem :=
  fs.put name ((fs.read? name).getD "" ++ text)

def clear (fs : FileSystem) (name : String) : FileSystem := fs.put name ""

theorem read?_put_self (fs : FileSystem) (name text : String) :
    (fs.put name text).read? name = some text := by
  simp [put, read?]

theorem read?_put_of_ne (fs : FileSystem) {name other : String} (text : String)
    (h : other ≠ name) : (fs.put name text).read? other = fs.read? other := by
  have hb : (other == name) = false := by simpa using h
  simp only [put, read?, List.lookup_cons, hb]
  induction fs.files with
  | nil => rfl
  | cons f fs ih =>
    obtain ⟨n, t⟩ := f
    by_cases hn : n = name
    · simp [hn, List.lookup_cons, hb, ih]
    · simp [hn, List.lookup_cons, ih]

end FileSystem

/-- A file that a program has open, and how many of its characters it has read. -/
structure OpenFile where
  name : String
  position : Nat := 0

structure OpenFiles where
  /-- The handle that was given out last. -/
  last : Nat := 0
  files : List (Int × OpenFile) := []

namespace OpenFiles

/-- A new handle for the file `name`. -/
def add (t : OpenFiles) (name : String) : Nat × OpenFiles :=
  (t.last + 1, ⟨t.last + 1, (Int.ofNat (t.last + 1), { name }) :: t.files⟩)

def get? (t : OpenFiles) (handle : Int) : Option OpenFile := t.files.lookup handle

/-- The handle has read one more character. -/
def advance (t : OpenFiles) (handle : Int) : OpenFiles :=
  { t with files := t.files.map fun (h, f) =>
      (h, if h = handle then { f with position := f.position + 1 } else f) }

/-- Takes a handle out of use. -/
def remove (t : OpenFiles) (handle : Int) : OpenFiles :=
  { t with files := t.files.filter fun (h, _) => h != handle }

end OpenFiles

end Stepwise
