import Std.Data.TreeMap
import TupleStore.Error

/-!
# A folder of files

The files that tables and logs live in: one folder, with no folders inside it. A path is a row of
names between slashes, which is walked from left to right. Empty names and `.` stay where they are, so
several paths can lead to one file; `create` and `find` give a file's own name, which is the same for
all of them. `..` and a slash in front lead out of the folder, where there are folders and nothing
else that a path could find.

* `locate` : where a path leads, if it can be walked at all;
* `create`, `find` : a new file, and a file that there is.
-/

namespace TupleStore

set_option autoImplicit false

/-- Files by name. -/
structure Folder where
  files : Std.TreeMap String Bytes := ∅

namespace Folder

/-! ## Paths -/

/-- The names between the slashes of a path. -/
def segments : List Char → List (List Char)
  | [] => [[]]
  | '/' :: rest => [] :: segments rest
  | c :: rest =>
    match segments rest with
    | [] => [[c]]
    | s :: ss => (c :: s) :: ss

/-- Where a path leads. -/
inductive Place where
  /-- To this folder or one above it. The flag says whether the path is empty. -/
  | folder (isEmpty : Bool)
  /-- To an entry of the folder. The flag says whether a slash behind the name asks for a folder. -/
  | entry (name : String) (slash : Bool)
  /-- Through an entry of the folder. -/
  | through (name : String)
  /-- To or through a name outside of the folder. -/
  | outside (name : String)
deriving DecidableEq, Repr

/-- Where the names of a path lead, empty ones left out. The first flag says whether the walk is still
in the folder, the second whether the path ends in a slash. -/
def walk (slash : Bool) : Bool → List (List Char) → Place
  | _, [] => .folder false
  | inside, name :: rest =>
    if name = ['.'] then walk slash inside rest
    else if name = ['.', '.'] then walk slash false rest
    else if !inside then .outside (String.ofList name)
    else if rest.isEmpty then .entry (String.ofList name) slash
    else .through (String.ofList name)

/-- Where a path leads that can be walked. -/
def place (path : String) : Place :=
  let names := segments path.toList
  if path.isEmpty then .folder true
  else walk (names.getLast? = some []) (names.head? ≠ some []) (names.filter (· ≠ []))

/-- The longest name of an entry, in octets. -/
def maxNameLength : Nat := 255

/-- The longest path, in octets, with the slash that stands between the folder and the path. -/
def maxPathLength : Nat := 4095

/-- Where a path leads, if it can be walked. -/
def locate (path : String) : Except FileFault Place :=
  if '\x00' ∈ path.toList then .error .unexpectedNul
  else if maxPathLength < path.utf8ByteSize + 1 then .error .nameTooLong
  else .ok (place path)

/-! ## Files -/

/-- The content of a file by its own name; nothing where there is no such file. -/
def content (f : Folder) (name : String) : Bytes := f.files[name]?.getD []

/-- The folder with a file's content replaced. -/
def put (f : Folder) (name : String) (bytes : Bytes) : Folder := ⟨f.files.insert name bytes⟩

@[simp] theorem content_put_self (f : Folder) (name : String) (bytes : Bytes) :
    (f.put name bytes).content name = bytes := by
  simp [content, put]

theorem content_put_of_ne (f : Folder) {name other : String} (h : name ≠ other) (bytes : Bytes) :
    (f.put name bytes).content other = f.content other := by
  simp [content, put, Std.TreeMap.getElem?_insert, h]

/-- Why a name leads to nothing where it would have to be something that is not there. -/
def absent (name : String) : FileFault :=
  if maxNameLength < name.utf8ByteSize then .nameTooLong else .notFound

/-- Why an entry leads to nothing where it would have to be a folder. -/
def notAFolder (f : Folder) (name : String) : FileFault :=
  if name.utf8ByteSize ≤ maxNameLength ∧ f.files.contains name then .notADirectory else absent name

/-- Creates an empty file; gives its own name. -/
def create (f : Folder) (path : String) : Except FileFault (String × Folder) :=
  match locate path with
  | .error fault => .error fault
  | .ok (.folder isEmpty) => .error (if isEmpty then .isADirectory else .alreadyExists)
  | .ok (.outside name) => .error (absent name)
  | .ok (.through name) => .error (f.notAFolder name)
  | .ok (.entry name slash) =>
    if slash then .error .isADirectory
    else if maxNameLength < name.utf8ByteSize then .error .nameTooLong
    else if f.files.contains name then .error .alreadyExists
    else .ok (name, f.put name [])

/-- The own name of an existing file. -/
def find (f : Folder) (path : String) : Except FileFault String :=
  match locate path with
  | .error fault => .error fault
  | .ok (.folder _) => .error .isADirectory
  | .ok (.outside name) => .error (absent name)
  | .ok (.through name) => .error (f.notAFolder name)
  | .ok (.entry name slash) =>
    if slash then .error (f.notAFolder name)
    else if f.files.contains name then .ok name
    else .error (absent name)

end Folder

end TupleStore
