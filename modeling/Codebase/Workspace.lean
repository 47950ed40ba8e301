import Codebase.Ownership
/-!
# The workspace

The workspace owns the documents, the projects and the index that links them.  An event is
processed to its end before the next one; each operation takes the view of the host at that
moment and gives the next workspace.

`Answer` pairs the result of an operation that can fail with the workspace after it, so a failure
says as well what it left behind.
-/

namespace Codebase

structure Workspace where
  settings : Settings
  documents : Documents
  /-- The live projects, in the order of their identities. -/
  projects : Table ProjectId Project
  ownership : Ownership
  /-- The number of the latest project. -/
  lastNumber : Nat

/-- A result and the workspace after it. -/
abbrev Answer (α : Type) := Except Error α × Workspace

/-- Live projects by kind. -/
structure Project.Counts where
  inferred : Nat
  configured : Nat
  auxiliary : Nat
  deriving DecidableEq, Repr

namespace Workspace

def new (settings : Settings) : Workspace :=
  ⟨settings, Documents.empty, Table.empty, Ownership.empty, 0⟩

def extensions (w : Workspace) : List String := w.settings.resolution.extensions

/-- What a build may consult now. -/
def context (w : Workspace) (host : Host) : Context := ⟨host, w.documents, w.settings⟩

/-! ## Views -/

def project? (w : Workspace) (id : ProjectId) : Option Project := w.projects.get? id

def projectList (w : Workspace) : List Project := w.projects.values

def summaries (w : Workspace) : List Project.Summary := w.projectList.map Project.summary

/-- The identities of the projects of one kind, oldest first. -/
def ofKind (w : Workspace) (kind : ProjectKind) : List ProjectId :=
  (w.projectList.filter fun p => p.kind = kind).map Project.id

def counts (w : Workspace) : Project.Counts :=
  ⟨(w.ofKind .inferred).length, (w.ofKind .configured).length, (w.ofKind .auxiliary).length⟩

/-- The configured project of the manifest at `path`. -/
def projectOfManifest? (w : Workspace) (path : Path) : Option ProjectId :=
  (w.projectList.find? fun p => p.manifestPath? = some path).map Project.id

/-- The project is live and has `path` as a root. -/
def hasRoot (w : Workspace) (path : Path) (id : ProjectId) : Bool :=
  (w.project? id).any fun p => p.hasRoot path

/-- The owners of `path`: those that have it as a root, then those that only reach it. -/
def projectsOf (w : Workspace) (path : Path) : List ProjectId :=
  let owners := w.ownership.ownersOf path
  owners.filter (w.hasRoot path) ++ owners.filter fun id => !w.hasRoot path id

def firstOwner? (w : Workspace) (path : Path) : Option ProjectId :=
  (w.projectsOf path).head?

/-! ## Small changes -/

def modifyProject (w : Workspace) (id : ProjectId) (f : Project → Project) : Workspace :=
  { w with projects := w.projects.modify id f }

def touchOwners (w : Workspace) (path : Path) : Workspace :=
  (w.ownership.ownersOf path).foldl (fun w id => w.modifyProject id Project.touch) w

/-- Adds a root to a live project and links it. -/
def addRoot (w : Workspace) (id : ProjectId) (path : Path) : Workspace :=
  if w.projects.contains id then
    { w.modifyProject id (·.addRoot path) with ownership := w.ownership.add id path }
  else w

/-- Removes a link, whether or not that was the last one. -/
def removeLink (w : Workspace) (id : ProjectId) (path : Path) : Workspace :=
  { w with ownership := (w.ownership.remove id path).2 }

/-- Adds a new project, which `make` builds from its identity. -/
def addProject (w : Workspace) (make : ProjectId → Project) : ProjectId × Workspace :=
  let id : ProjectId := ⟨w.lastNumber + 1⟩
  (id, { w with projects := w.projects.insert id (make id), lastNumber := w.lastNumber + 1 })

/-- Drops a project with its links, and the closed documents that nobody owns then. -/
def removeProject (w : Workspace) (id : ProjectId) : Workspace :=
  if w.projects.contains id then
    let (orphans, ownership) := w.ownership.removeProject id
    { w with
      projects := w.projects.erase id
      ownership
      documents := w.documents.forgetAll orphans }
  else w

def removeProjects (w : Workspace) (ids : List ProjectId) : Workspace := ids.foldl removeProject w

def forgetUnowned (w : Workspace) (path : Path) : Workspace :=
  if w.ownership.isOwned path then w else { w with documents := w.documents.forget path }

/-! ## Roots change hands -/

/-- Takes the root `path` from one project, and says which projects have been left without roots
so far. -/
def unrootFrom (path : Path) (state : Workspace × List ProjectId) (id : ProjectId) :
    Workspace × List ProjectId :=
  let (w, emptied) := state
  match w.project? id with
  | none => state
  | some project =>
    if project.hasRoot path then
      let next := project.removeRoot path
      let w := w.modifyProject id fun _ => next
      let w := if next.contains path then w else w.removeLink id path
      (w, if next.kind = .inferred ∧ next.roots.isEmpty then emptied ++ [id] else emptied)
    else state

/-- Takes the root `path` from every project but `keep`; inferred projects without roots go. -/
def unroot (w : Workspace) (path : Path) (keep : Option ProjectId) : Workspace :=
  let owners := (w.ownership.ownersOf path).filter fun id => some id ≠ keep
  let (w, emptied) := owners.foldl (unrootFrom path) (w, [])
  w.removeProjects emptied

/-- The open roots of a project that other projects have as roots too. -/
def contestedRoots (w : Workspace) (id : ProjectId) : List Path :=
  match w.project? id with
  | none => []
  | some project =>
    project.roots.toList.filter fun root =>
      w.documents.isOpen root &&
        (w.ownership.ownersOf root).any fun other => other ≠ id && w.hasRoot root other

/-- Takes the open roots of a project away from the projects that had them before. -/
def takeOverOpenRoots (w : Workspace) (id : ProjectId) : Workspace :=
  (w.contestedRoots id).foldl (fun w root => w.unroot root (some id)) w

/-! ## Assignment -/

/-- Who governs a path. -/
inductive Governor where
  | project (id : ProjectId)
  /-- A manifest that no project follows yet. -/
  | manifest (manifest : Manifest)
  /-- A manifest that cannot be loaded. -/
  | unloadable (path : Path) (reason : String)

/-- Who governs `path` from the directory `ancestor`.  A project of that directory decides alone;
a manifest that cannot be loaded governs all beneath it. -/
def governorAt? (w : Workspace) (host : Host) (path ancestor : Path) : Option Governor :=
  match w.projectList.find? fun p => p.manifestDirectory? = some ancestor with
  | some project =>
    if project.covers path w.extensions then some (.project project.id) else none
  | none =>
    match Manifest.lookup host w.settings.manifestFileNames ancestor with
    | .notFound => none
    | .found manifest =>
      if manifest.covers path w.extensions then some (.manifest manifest) else none
    | .failed manifestPath reason => some (.unloadable manifestPath reason)

/-- The nearest governor above `path`. -/
def governor? (w : Workspace) (host : Host) (path : Path) : Option Governor :=
  path.parent?.bind fun directory => directory.ancestors.findSome? (w.governorAt? host path)

/-- Starts the project of a manifest with the roots that it names. -/
def startConfigured (w : Workspace) (host : Host) (manifest : Manifest) :
    ProjectId × Workspace :=
  let roots := manifest.roots host w.settings.manifestFileNames w.extensions
  let (id, w) := w.addProject fun id => .configured id manifest w.settings.capability
  let w := roots.foldl (fun w root => w.addRoot id root) w
  (id, w.takeOverOpenRoots id)

def startInferred (w : Workspace) : ProjectId × Workspace :=
  w.addProject fun id => .inferred id w.settings.capability

/-- The configured project that `path` belongs to, started when there is none yet. -/
def configuredFor (w : Workspace) (host : Host) (path : Path) : Option (ProjectId × Workspace) :=
  if w.settings.syntaxOnly then none
  else
    match w.governor? host path with
    | none => none
    | some (.project id) => some (id, w)
    | some (.manifest manifest) => some (w.startConfigured host manifest)
    | some (.unloadable manifestPath reason) =>
      some (w.addProject fun id => .unloadable id manifestPath reason)

/-- The inferred project that takes the next root. -/
def inferredFor (w : Workspace) : ProjectId × Workspace :=
  match w.ofKind .inferred with
  | id :: _ => if w.settings.useSingleInferredProject then (id, w) else w.startInferred
  | [] => w.startInferred

/-- Makes `path` a root of the project that it belongs to. -/
def assign (w : Workspace) (host : Host) (path : Path) : ProjectId × Workspace :=
  let (id, w) := (w.configuredFor host path).getD w.inferredFor
  (id, w.addRoot id path)

/-- The project, other than an auxiliary one, that has `path` as a root. -/
def holder? (w : Workspace) (path : Path) : Option ProjectId :=
  (w.ownership.ownersOf path).find? fun id =>
    (w.project? id).any fun p => p.kind ≠ .auxiliary && p.hasRoot path

/-- Drops the auxiliary projects that own `path`. -/
def dropStandIns (w : Workspace) (path : Path) : Workspace :=
  w.removeProjects ((w.ownership.ownersOf path).filter fun id =>
    (w.project? id).any fun p => p.kind = .auxiliary)

/-! ## Building -/

/-- Rebuilds a project if it is dirty, and records what the build read. -/
def refresh (w : Workspace) (host : Host) (id : ProjectId) : Answer Unit :=
  match w.project? id with
  | none => (.error (.unknownProject id.name), w)
  | some project =>
    match project.refresh? (w.context host) with
    | none => (.ok (), w)
    | some (rebuilt, build) =>
      let tracked := build.discovered.foldl (fun docs found => docs.note found.1 found.2)
        w.documents
      let (orphans, ownership) := w.ownership.replaceMembers id rebuilt.members
      let w := { w.modifyProject id fun _ => rebuilt with
        ownership
        documents := tracked.forgetAll orphans }
      (.ok (), if rebuilt.kind = .configured then w.takeOverOpenRoots id else w)

/-- Brings up to date those of a list of projects that are still there. -/
def refreshEach (w : Workspace) (host : Host) : List ProjectId → Answer Unit
  | [] => (.ok (), w)
  | id :: rest =>
    if w.projects.contains id then
      match w.refresh host id with
      | (.error e, w) => (.error e, w)
      | (.ok (), w) => w.refreshEach host rest
    else w.refreshEach host rest

/-- Brings every dirty project up to date. -/
def refreshAll (w : Workspace) (host : Host) : Answer Unit :=
  w.refreshEach host ((w.projectList.filter Project.isDirty).map Project.id)

/-- The files of a project, which is rebuilt first when it is dirty. -/
def filesOf (w : Workspace) (host : Host) (id : ProjectId) : Answer (List Path) :=
  match w.refresh host id with
  | (.error e, w) => (.error e, w)
  | (.ok (), w) =>
    match w.project? id with
    | none => (.error (.unknownProject id.name), w)
    | some project => (.ok (project.files?.getD []), w)

/-- The project to serve `path`: its first owner, or an auxiliary project for a file that the host
can read. -/
def providerFor (w : Workspace) (host : Host) (path : Path) : Answer ProjectId :=
  match w.firstOwner? path with
  | some id => (.ok id, w)
  | none =>
    let documents? :=
      if w.documents.contains path then some w.documents
      else (host.read path).toOption.map (w.documents.note path)
    match documents? with
    | none => (.error (.noProject path.text), w)
    | some documents =>
      let (id, w) := { w with documents }.addProject fun id => .auxiliary id path
      (.ok id, { w with ownership := w.ownership.add id path })

end Workspace

end Codebase
