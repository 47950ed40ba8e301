import Codebase.Manifest
/-!
# Finding a manifest

A directory is governed by the first of the known manifest names that exists in it.  A manifest
that exists and cannot be read is a finding of its own: the directory is governed, but nobody
knows how.
-/

namespace Codebase.Manifest

inductive Lookup where
  | found (manifest : Manifest)
  | notFound
  | failed (path : Path) (reason : String)

/-- The manifest that lies in `directory`. -/
def lookup (host : Host) (names : List String) (directory : Path) : Lookup :=
  match (names.map directory.join).find? host.hasFile with
  | none => .notFound
  | some path =>
    match host.read path with
    | .error e => .failed path e.message
    | .ok text =>
      match parse path text with
      | .error e => .failed path e.message
      | .ok manifest => .found manifest

/-- The file has one of the manifest names. -/
def isNamed (names : List String) (path : Path) : Bool := path.fileName ∈ names

end Codebase.Manifest
