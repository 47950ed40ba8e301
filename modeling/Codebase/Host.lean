import Codebase.Path
/-!
# The host

The host is what holds files and directories.  `Host` is a read-only view of one moment of it, so
a change of the host between two steps is a different view.  A view is finite: `entries` lists
every stored place, and no file exists outside of it.

Changes of the host are reported as a `FileEvent`.
-/

namespace Codebase

/-- One entry of a directory listing. -/
structure Host.Entry where
  path : Path
  isDirectory : Bool
  deriving DecidableEq

/-- What can be read of the host at one moment. -/
structure Host where
  entries : List Path
  read : Path → Except Error String
  hasFile : Path → Bool
  hasDirectory : Path → Bool
  /-- The direct children of a directory, in the order of their paths. -/
  list : Path → Except Error (List Host.Entry)
  mem_entries : ∀ p, hasFile p = true → p ∈ entries

namespace Host

/-- The names of all entries, each entry counted once more: a measure of how much there is to
list. -/
def extent (host : Host) : Nat :=
  host.entries.foldr (fun p n => p.names.length + 1 + n) 0

end Host

inductive FileChange where
  | created
  | modified
  | deleted
  deriving DecidableEq, Repr

def FileChange.name : FileChange → String
  | created => "created"
  | modified => "modified"
  | deleted => "deleted"

/-- The host reports a change of one file. -/
structure FileEvent where
  path : Path
  change : FileChange
  deriving DecidableEq

end Codebase
