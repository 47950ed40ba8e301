import Codebase.Data.Table
import Codebase.Manifest
/-!
# The roots that a manifest names

`Manifest.roots` lists the existing files that a manifest names one by one, in the order of the
manifest, and then walks the directory of the manifest for the files that its globs name.  The
walk does not enter an excluded directory, nor one that holds a manifest of its own, since that
one is a project of its own.

The walk keeps the directories that are still to be listed, the next one first; the directories
found in a listing are walked before those that were waiting.
-/

namespace Codebase.Manifest

/-- A walk under way. -/
structure Walk where
  pending : List Path
  found : Roster Path

/-- What a walk follows: the manifest, the names of manifests and the known extensions. -/
structure Rules where
  manifest : Manifest
  manifestNames : List String
  extensions : List String

namespace Rules

/-- A directory that forms a project of its own. -/
def isNested (rules : Rules) (host : Host) (directory : Path) : Bool :=
  rules.manifestNames.any fun name => host.hasFile (directory.join name)

/-- The walk goes into this entry. -/
def enters (rules : Rules) (host : Host) (entry : Host.Entry) : Bool :=
  entry.isDirectory && !rules.manifest.excludesDirectory entry.path &&
    !rules.isNested host entry.path

/-- The walk picks this entry up. -/
def picks (rules : Rules) (entry : Host.Entry) : Bool :=
  !entry.isDirectory && rules.manifest.covers entry.path rules.extensions

end Rules

namespace Walk

/-- Lists the next directory; one that cannot be listed is passed over. -/
def step (rules : Rules) (host : Host) (walk : Walk) : Walk :=
  match walk.pending with
  | [] => walk
  | directory :: rest =>
    match host.list directory with
    | .error _ => { walk with pending := rest }
    | .ok entries => {
        pending := (entries.filter (rules.enters host)).map Host.Entry.path ++ rest
        found := ((entries.filter rules.picks).map Host.Entry.path).foldl Roster.insert walk.found }

/-- Walks on until nothing is pending, for `fuel` directories at most. -/
def run (rules : Rules) (host : Host) : Nat → Walk → Walk
  | 0, walk => walk
  | fuel + 1, walk =>
    if walk.pending.isEmpty then walk else run rules host fuel (walk.step rules host)

end Walk

/-- No walk that ends lists more directories.  A walk that ends never comes to a directory that it
has come through, every listing has at most as many entries as the host has, and so has every
chain of directories. -/
def walkBound (host : Host) : Nat := Nat.pow (host.extent + 2) (host.extent + 2)

/-- The existing files that the manifest names one by one. -/
def existingFiles (manifest : Manifest) (host : Host) : Roster Path :=
  Roster.ofList (manifest.files.filter host.hasFile)

/-- The walk before its first step. -/
def startWalk (manifest : Manifest) (host : Host) : Walk :=
  ⟨[manifest.directory], manifest.existingFiles host⟩

/-- The existing files that the manifest names. -/
def roots (manifest : Manifest) (host : Host) (manifestNames extensions : List String) :
    List Path :=
  let rules : Rules := ⟨manifest, manifestNames, extensions⟩
  ((manifest.startWalk host).run rules host (walkBound host)).found.toList

end Codebase.Manifest
