import Codebase.Build
import Codebase.Manifest.Lookup
import Codebase.Manifest.Roots
/-!
# Projects

A project is a list of roots with the files that a build derives from them.  Its origin decides
how long it lives, its capability alone decides how it is built.  A project is *dirty* from any
change that may concern its files until it is rebuilt; while it is dirty it shows no files.

A configured project is governed by a manifest.  When that cannot be loaded the project goes on
with the roots it had, serves syntax only and keeps the reason.
-/

namespace Codebase

/-- The identity of a project. -/
structure ProjectId where
  number : Nat
  deriving DecidableEq, Repr

def ProjectId.name (id : ProjectId) : String := "#" ++ toString id.number

/-- The manifest of a configured project as it was last seen. -/
inductive ManifestState where
  | loaded (manifest : Manifest)
  | failed (reason : String)

inductive ProjectOrigin where
  /-- There is no manifest; the project lives as long as it has roots. -/
  | inferred
  /-- Governed by the manifest at a path. -/
  | configured (manifestPath : Path) (state : ManifestState)
  /-- Serves one file that no other project has. -/
  | auxiliary

inductive ProjectKind where
  | inferred
  | configured
  | auxiliary
  deriving DecidableEq, Repr

def ProjectKind.name : ProjectKind → String
  | inferred => "inferred"
  | configured => "configured"
  | auxiliary => "auxiliarySyntaxOnly"

structure Project where
  id : ProjectId
  origin : ProjectOrigin
  capability : Capability
  roots : Roster Path
  /-- The files of the last build. -/
  derived : Option (List Path)
  isDirty : Bool
  /-- The manifest is to be read again before the next build. -/
  isStale : Bool
  /-- What the last build could not resolve. -/
  unresolved : List Unresolved
  buildCount : Nat

/-- A row of the list of projects. -/
structure Project.Summary where
  id : ProjectId
  name : String
  kind : ProjectKind
  capability : Capability
  rootCount : Nat
  isDirty : Bool
  deriving DecidableEq, Repr

namespace Project

/-! ## New projects -/

def new (id : ProjectId) (origin : ProjectOrigin) (capability : Capability) : Project where
  id := id
  origin := origin
  capability := capability
  roots := Roster.empty
  derived := none
  isDirty := true
  isStale := false
  unresolved := []
  buildCount := 0

/-- A manifest may cap what its project serves. -/
def capped (manifest : Manifest) (capability : Capability) : Capability :=
  if manifest.options.syntaxOnly then .syntacticOnly else capability

def inferred (id : ProjectId) (capability : Capability) : Project := new id .inferred capability

def configured (id : ProjectId) (manifest : Manifest) (capability : Capability) : Project :=
  new id (.configured manifest.path (.loaded manifest)) (capped manifest capability)

/-- A configured project whose manifest could not be loaded. -/
def unloadable (id : ProjectId) (manifestPath : Path) (reason : String) : Project :=
  new id (.configured manifestPath (.failed reason)) .syntacticOnly

def auxiliary (id : ProjectId) (root : Path) : Project :=
  { new id .auxiliary .syntacticOnly with roots := Roster.empty.insert root }

/-! ## Views -/

def kind (project : Project) : ProjectKind :=
  match project.origin with
  | .inferred => .inferred
  | .configured .. => .configured
  | .auxiliary => .auxiliary

def manifestPath? (project : Project) : Option Path :=
  match project.origin with
  | .configured path _ => some path
  | _ => none

def manifest? (project : Project) : Option Manifest :=
  match project.origin with
  | .configured _ (.loaded manifest) => some manifest
  | _ => none

/-- The directory that the manifest governs. -/
def manifestDirectory? (project : Project) : Option Path := project.manifestPath?.bind Path.parent?

def name (project : Project) : String :=
  match project.origin with
  | .inferred => "inferred" ++ project.id.name
  | .configured path _ => path.text
  | .auxiliary => "auxiliary" ++ project.id.name

/-- Why the manifest is not loaded. -/
def manifestError? (project : Project) : Option Error :=
  match project.origin with
  | .configured path (.failed reason) => some (.configurationLoadFailure path.text reason)
  | _ => none

def options (project : Project) : Build.Options :=
  match project.manifest? with
  | some manifest => ⟨manifest.options.types, manifest.options.noLib⟩
  | none => .default

def hasRoot (project : Project) (path : Path) : Bool := path ∈ project.roots.toList

/-- The files, unless the project is dirty. -/
def files? (project : Project) : Option (List Path) :=
  if project.isDirty then none else project.derived

/-- A root, or a file of the last build. -/
def contains (project : Project) (path : Path) : Bool :=
  project.hasRoot path || project.derived.any fun files => path ∈ files

/-- The roots, then the other files of the last build. -/
def members (project : Project) : List Path :=
  project.roots.toList ++ (project.derived.getD []).filter fun p => !project.hasRoot p

/-- The manifest claims `path` as a root; one that is not loaded claims its whole directory. -/
def covers (project : Project) (path : Path) (extensions : List String) : Bool :=
  match project.origin with
  | .configured _ (.loaded manifest) => manifest.covers path extensions
  | .configured manifestPath (.failed _) =>
    match manifestPath.parent? with
    | some directory => path.isUnder directory && path.hasExtension extensions
    | none => false
  | _ => false

def summary (project : Project) : Project.Summary where
  id := project.id
  name := project.name
  kind := project.kind
  capability := project.capability
  rootCount := project.roots.size
  isDirty := project.isDirty

/-! ## Changes -/

def touch (project : Project) : Project := { project with isDirty := true }

/-- The manifest is to be read again. -/
def outdate (project : Project) : Project := { project with isDirty := true, isStale := true }

def addRoot (project : Project) (path : Path) : Project :=
  { project with isDirty := true, roots := project.roots.insert path }

def removeRoot (project : Project) (path : Path) : Project :=
  { project with isDirty := true, roots := project.roots.erase path }

/-- Goes on without the manifest. -/
def withoutManifest (project : Project) (manifestPath : Path) (reason : String) : Project :=
  { project with
    origin := .configured manifestPath (.failed reason)
    capability := .syntacticOnly }

/-- Follows a manifest that has been read again: its roots, then the open ones of the roots so
far. -/
def adopt (project : Project) (ctx : Context) (manifest : Manifest) : Project :=
  let named := manifest.roots ctx.host ctx.settings.manifestFileNames
    ctx.settings.resolution.extensions
  let kept := project.roots.toList.filter ctx.documents.isOpen
  { project with
    origin := .configured manifest.path (.loaded manifest)
    capability := capped manifest ctx.settings.capability
    roots := kept.foldl Roster.insert (Roster.ofList named) }

/-- Reads the manifest again; a project without one has nothing to read. -/
def reread (project : Project) (ctx : Context) : Project :=
  let project := { project with isStale := false }
  match project.manifestPath?, project.manifestDirectory? with
  | some path, some directory =>
    match Manifest.lookup ctx.host ctx.settings.manifestFileNames directory with
    | .found manifest =>
      if manifest.path = path then project.adopt ctx manifest
      else project.withoutManifest path (path.text ++ " is no longer available")
    | .notFound => project.withoutManifest path (path.text ++ " is no longer available")
    | .failed _ reason => project.withoutManifest path reason
  | _, _ => project

/-- A project that is dirty, brought up to date, and what was built; `none` when it is not dirty.
However the manifest fares, the project is clean afterwards. -/
def refresh? (project : Project) (ctx : Context) : Option (Project × Build) :=
  if project.isDirty then
    let current := if project.isStale then project.reread ctx else project
    let build := Build.make (.ofCapability current.capability) ctx current.roots.toList
      current.options
    some ({ current with
      derived := some build.files
      unresolved := build.unresolved
      isDirty := false
      buildCount := current.buildCount + 1 }, build)
  else none

end Project

end Codebase
