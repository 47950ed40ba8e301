import Codebase.Data.Table
import Codebase.Document
/-!
# Documents by path

`Documents` holds every document that the service has touched.  Nothing is resolved here, and which
projects a document belongs to is kept elsewhere.  An operation that fails gives no documents back,
so its caller keeps those it had.
-/

namespace Codebase

structure Documents where
  table : Table Path Document

namespace Documents

/-- What opening a document did. -/
structure Opened where
  /-- There was no document before. -/
  created : Bool
  /-- There was one, and its text was replaced. -/
  contentChanged : Bool
  deriving DecidableEq, Repr

def empty : Documents := ⟨Table.empty⟩

def get? (docs : Documents) (path : Path) : Option Document := docs.table.get? path

def contains (docs : Documents) (path : Path) : Bool := docs.table.contains path

def isOpen (docs : Documents) (path : Path) : Bool :=
  (docs.get? path).any Document.isOpen

def text? (docs : Documents) (path : Path) : Option String :=
  (docs.get? path).map Document.content

def paths (docs : Documents) : List Path := docs.table.keys

def size (docs : Documents) : Nat := docs.table.size

/-- The paths of open documents, in order. -/
def openPaths (docs : Documents) : List Path :=
  Path.sort (docs.paths.filter docs.isOpen)

def put (docs : Documents) (path : Path) (document : Document) : Documents :=
  ⟨docs.table.insert path document⟩

/-- Opens a document with the text of the editor; one that is there keeps its version unless the
text differs. -/
def «open» (docs : Documents) (path : Path) (content : String) :
    Except Error (Opened × Documents) :=
  match docs.get? path with
  | none => .ok (⟨true, false⟩, docs.put path { Document.new content with isOpen := true })
  | some document =>
    match document.replace path content with
    | .error e => .error e
    | .ok (contentChanged, next) =>
      .ok (⟨false, contentChanged⟩, docs.put path { next with isOpen := true })

/-- The open document at `path`. -/
def openAt (docs : Documents) (path : Path) : Except Error Document :=
  match docs.get? path with
  | none => .error (.unknownDocument path.text)
  | some document =>
    if document.isOpen then .ok document else .error (.documentNotOpen path.text)

/-- Closes a document, which stays until it is released. -/
def close (docs : Documents) (path : Path) : Except Error Documents := do
  let document ← docs.openAt path
  return docs.put path { document with isOpen := false }

/-- Applies a change of the editor to an open document. -/
def edit (docs : Documents) (path : Path) (change : TextChange) (version : Nat) :
    Except Error Documents := do
  let document ← docs.openAt path
  return docs.put path (← document.edit path change version)

/-- Records a text that was found on the host; a document that is there is not touched. -/
def note (docs : Documents) (path : Path) (content : String) : Documents :=
  if docs.contains path then docs else docs.put path (Document.new content)

/-- Refreshes a closed document; open ones belong to the editor.  The answer says whether the text
changed. -/
def refresh (docs : Documents) (path : Path) (content : String) :
    Except Error (Bool × Documents) :=
  match docs.get? path with
  | none => .ok (false, docs)
  | some document =>
    if document.isOpen then .ok (false, docs)
    else
      match document.replace path content with
      | .error e => .error e
      | .ok (changed, next) => .ok (changed, docs.put path next)

/-- Drops a closed document; open ones are never dropped. -/
def forget (docs : Documents) (path : Path) : Documents :=
  if docs.isOpen path then docs else ⟨docs.table.erase path⟩

/-- Drops the closed documents of a list. -/
def forgetAll (docs : Documents) (paths : List Path) : Documents :=
  paths.foldl forget docs

end Documents

end Codebase
