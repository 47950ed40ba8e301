import Codebase.Data.Table
import Codebase.Host
/-!
# A host in memory

`Memory` holds the texts of files by path.  A directory exists because it was made, because
something is stored beneath it, or because it is a root.  A listing is computed from the stored
paths: each of them that lies beneath the directory shows the child that leads to it, and a child
is a directory when anything shows it as one.
-/

namespace Codebase

structure Memory where
  files : Table Path String
  directories : Roster Path

namespace Memory

def empty : Memory := ⟨Table.empty, Roster.empty⟩

def addFile (memory : Memory) (path : Path) (text : String) : Memory :=
  { memory with files := memory.files.insert path text }

def addDirectory (memory : Memory) (path : Path) : Memory :=
  { memory with directories := memory.directories.insert path }

def removeFile (memory : Memory) (path : Path) : Memory :=
  { memory with files := memory.files.erase path }

def hasFile (memory : Memory) (path : Path) : Bool := memory.files.contains path

def hasDirectory (memory : Memory) (path : Path) : Bool :=
  path.isRoot || path ∈ memory.directories.toList ||
    (memory.files.keys ++ memory.directories.toList).any fun p => p ≠ path && p.isUnder path

def read (memory : Memory) (path : Path) : Except Error String :=
  match memory.files.get? path with
  | some text => .ok text
  | none => .error (.io ("no such file: " ++ path.text))

/-- The child of `directory` that leads to a stored place beneath it, and whether the place shows
it as a directory. -/
def shows (directory : Path) (isFile : Bool) (place : Path) : Option (Path × Bool) :=
  match place.below? directory with
  | none | some [] => none
  | some (name :: rest) => some (directory.join name.text, !rest.isEmpty || !isFile)

/-- What the stored places show of a directory. -/
def sightings (memory : Memory) (directory : Path) : List (Path × Bool) :=
  memory.files.keys.filterMap (shows directory true) ++
    memory.directories.toList.filterMap (shows directory false)

def children (memory : Memory) (directory : Path) : List Host.Entry :=
  let seen := memory.sightings directory
  (Path.sort (seen.map Prod.fst).eraseDups).map fun p => ⟨p, seen.any fun s => s.1 = p && s.2⟩

def list (memory : Memory) (path : Path) : Except Error (List Host.Entry) :=
  if memory.hasDirectory path then .ok (memory.children path)
  else .error (.io ("no such directory: " ++ path.text))

/-- The view of this moment. -/
def host (memory : Memory) : Host where
  entries := memory.files.keys ++ memory.directories.toList
  read := memory.read
  hasFile := memory.hasFile
  hasDirectory := memory.hasDirectory
  list := memory.list
  mem_entries _ h := List.mem_append_left _ (Table.contains_iff.1 h)

end Memory

end Codebase
