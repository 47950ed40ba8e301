import Codebase.Data.Table
import Codebase.Host
/-!
# A host on a disk

`Disk` is an image of a disk: the bytes of its files and its directories, each under the names
that lead to it from the root, innermost first.  The names are those of the disk, which may hold
what a path may not, such as a backslash; a listing shows such a place under the path that its
spelling reads as.

Only paths that start with a slash lie on the disk, and a file can be read when its bytes are
UTF-8.
-/

namespace Codebase

/-- The names that lead to a place on a disk, innermost first. -/
abbrev Disk.Place := List String

structure Disk where
  files : Table Disk.Place ByteArray
  /-- Every directory but the root. -/
  directories : Roster Disk.Place

namespace Disk

def empty : Disk := ⟨Table.empty, Roster.empty⟩

/-- The directories that hold a place, without the root. -/
def above : Place → List Place
  | [] | [_] => []
  | _ :: rest => rest :: above rest

def addDirectory (disk : Disk) (place : Place) : Disk :=
  { disk with directories := (place :: above place).foldl Roster.insert disk.directories }

def addFile (disk : Disk) (place : Place) (bytes : ByteArray) : Disk := {
  files := disk.files.insert place bytes
  directories := (above place).foldl Roster.insert disk.directories }

/-- The place of a path. -/
def place? (path : Path) : Option Place :=
  match path.root with
  | .slash => some (path.names.map Segment.text)
  | .drive .. => none

/-- The names as names of a path. -/
def segments? (place : Place) : Option (List Segment) :=
  place.mapM fun name => if h : Segment.Allowed name then some ⟨name, h⟩ else none

/-- The path that the spelling of a place reads as. -/
def spelled (place : Place) : Path :=
  (⟨.slash, []⟩ : Path).follow (Path.unify ("/".intercalate place.reverse))

/-- The path of a place. -/
def path (place : Place) : Path :=
  match segments? place with
  | some names => ⟨.slash, names⟩
  | none => spelled place

theorem segments?_map_text (names : List Segment) :
    segments? (names.map Segment.text) = some names := by
  induction names with
  | nil => rfl
  | cons name rest ih =>
    have h : segments? ((name :: rest).map Segment.text)
        = (segments? (rest.map Segment.text)).bind fun l => some (name :: l) := by
      simp [segments?, name.allowed]
    rw [h, ih]; rfl

theorem path_of_place? {p : Path} {place : Place} (h : place? p = some place) : path place = p := by
  obtain ⟨root, names⟩ := p
  cases root with
  | drive => simp [place?] at h
  | slash =>
    simp only [place?, Option.some.injEq] at h
    subst h
    simp [path, segments?_map_text]

def hasFile (disk : Disk) (path : Path) : Bool :=
  (place? path).any disk.files.contains

def isDirectory (disk : Disk) (place : Place) : Bool :=
  place.isEmpty || place ∈ disk.directories.toList

def hasDirectory (disk : Disk) (path : Path) : Bool := (place? path).any disk.isDirectory

/-- There is no such file or directory. -/
def missing : Error := .io "No such file or directory (os error 2)"

def notDirectory : Error := .io "Not a directory (os error 20)"

/-- A place where nothing is: the way to it may lead through a file. -/
def absence (disk : Disk) (place : Place) : Error :=
  if (above place).any disk.files.contains then notDirectory else missing

def read (disk : Disk) (path : Path) : Except Error String :=
  match place? path with
  | none => .error missing
  | some place =>
    match disk.files.get? place with
    | some bytes =>
      match String.fromUTF8? bytes with
      | some text => .ok text
      | none => .error (.io "stream did not contain valid UTF-8")
    | none =>
      .error (if disk.isDirectory place then .io "Is a directory (os error 21)"
        else disk.absence place)

/-- The places directly in a directory. -/
def childrenOf (directory : Place) (places : List Place) : List Place :=
  places.filter fun place => !place.isEmpty && place.tail = directory

/-- The entries of a directory, in the order of their paths. -/
def listing (disk : Disk) (directory : Place) : List Host.Entry :=
  let entry (isDirectory : Bool) (place : Place) : Host.Entry := ⟨path place, isDirectory⟩
  ((childrenOf directory disk.files.keys).map (entry false) ++
    (childrenOf directory disk.directories.toList).map (entry true)).mergeSort
    fun a b => a.path.le b.path

def list (disk : Disk) (path : Path) : Except Error (List Host.Entry) :=
  match place? path with
  | none => .error missing
  | some place =>
    if disk.isDirectory place then .ok (disk.listing place)
    else if disk.files.contains place then .error notDirectory
    else .error (disk.absence place)

/-- The view of this moment. -/
def host (disk : Disk) : Host where
  entries := (disk.files.keys ++ disk.directories.toList).map path
  read := disk.read
  hasFile := disk.hasFile
  hasDirectory := disk.hasDirectory
  list := disk.list
  mem_entries p h := by
    obtain ⟨place, hp, hk⟩ := (Option.any_eq_true _ _).1 h
    exact List.mem_map.2
      ⟨place, List.mem_append_left _ (Table.contains_iff.1 hk), path_of_place? hp⟩

end Disk

end Codebase
