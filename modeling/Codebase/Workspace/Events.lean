import Codebase.Workspace
/-!
# Events

What happens to a workspace: an editor opens, closes and edits documents, and the host reports
that files were created, modified and deleted.  A report about a manifest concerns the project
that it governs, any other report the documents and projects of its path.
-/

namespace Codebase.Workspace

/-! ## Events of an editor -/

/-- Opens a document and gives it to a project, which is dirty afterwards. -/
def openFile (w : Workspace) (host : Host) (path : Path) (content : String) :
    Answer ProjectId :=
  match w.documents.open path content with
  | .error e => (.error e, w)
  | .ok (opened, documents) =>
    let w := { w with documents }.dropStandIns path
    let w := if opened.contentChanged then w.touchOwners path else w
    match w.holder? path with
    | some id => (.ok id, w.modifyProject id Project.touch)
    | none =>
      let (id, w) := w.assign host path
      (.ok id, w)

/-- What the closing of `path` means for one owner: an inferred project loses it as a root, any
other one is dirty.  Says as well which inferred projects have been left without roots so far. -/
def closeIn (path : Path) (state : Workspace × List ProjectId) (id : ProjectId) :
    Workspace × List ProjectId :=
  let (w, emptied) := state
  match w.project? id with
  | none => state
  | some project =>
    if project.kind = .inferred ∧ project.hasRoot path then
      let next := project.removeRoot path
      let w := w.modifyProject id fun _ => next
      let w := if next.contains path then w else w.removeLink id path
      (w, if next.roots.isEmpty then emptied ++ [id] else emptied)
    else (w.modifyProject id Project.touch, emptied)

/-- Closes a document. -/
def closeFile (w : Workspace) (path : Path) : Answer Unit :=
  match w.documents.close path with
  | .error e => (.error e, w)
  | .ok documents =>
    let w := { w with documents }
    let (w, emptied) := (w.ownership.ownersOf path).foldl (closeIn path) (w, [])
    (.ok (), (w.removeProjects emptied).forgetUnowned path)

/-- Applies a change of the editor, whose version has to exceed the current one. -/
def editFile (w : Workspace) (path : Path) (change : TextChange) (version : Nat) :
    Answer Unit :=
  match w.documents.edit path change version with
  | .error e => (.error e, w)
  | .ok documents => (.ok (), { w with documents }.touchOwners path)

/-! ## Reports about files -/

/-- The project might resolve more than before. -/
def hopes (project : Project) : Bool :=
  project.capability.isSemantic && !project.unresolved.isEmpty

/-- The manifest of the project claims a path that is no root yet. -/
def claims (w : Workspace) (path : Path) (project : Project) : Bool :=
  project.manifest?.isSome && project.covers path w.extensions && !project.hasRoot path

/-- A file was created. -/
def fileCreated (w : Workspace) (path : Path) : Workspace :=
  let hopeful := (w.projectList.filter hopes).map Project.id
  let w := hopeful.foldl (fun w id => w.modifyProject id Project.touch) w
  let claimed := (w.projectList.filter (w.claims path)).map Project.id
  claimed.foldl (fun w id => (w.addRoot id path).takeOverOpenRoots id) w

/-- A file was modified; a closed document is read again. -/
def fileModified (w : Workspace) (host : Host) (path : Path) : Answer Unit :=
  if w.documents.contains path && !w.documents.isOpen path then
    match host.read path with
    | .error e => (.error e, w)
    | .ok text =>
      match w.documents.refresh path text with
      | .error e => (.error e, w)
      | .ok (changed, documents) =>
        let w := { w with documents }
        (.ok (), if changed then w.touchOwners path else w)
  else (.ok (), w)

/-- Takes `path` away from one owner. -/
def disown (path : Path) (w : Workspace) (id : ProjectId) : Workspace :=
  (w.modifyProject id (·.removeRoot path)).removeLink id path

/-- A file was deleted; an open document stays with the editor. -/
def fileDeleted (w : Workspace) (path : Path) : Workspace :=
  if w.documents.isOpen path then w
  else
    let standIns := w.projectList.filter fun p => p.kind = .auxiliary && p.hasRoot path
    let w := w.removeProjects (standIns.map Project.id)
    let w := (w.ownership.ownersOf path).foldl (disown path) w
    { w with documents := w.documents.forget path }

/-! ## Reports about manifests -/

/-- `path` is a root of a configured project that `directory` or a directory beneath it governs. -/
def hasNearerOwner (w : Workspace) (directory path : Path) : Bool :=
  (w.ownership.ownersOf path).any fun id =>
    (w.project? id).any fun p =>
      p.hasRoot path && p.manifestDirectory?.any fun d => d.isUnder directory

/-- Gives open documents to the projects that they belong to now. -/
def reassign (w : Workspace) (host : Host) (paths : List Path) : Workspace :=
  paths.foldl (fun w path => (w.assign host path).2) w

/-- The manifest of a project is gone: so is the project, and its open roots go elsewhere. -/
def manifestDeleted (w : Workspace) (host : Host) (id : ProjectId) : Workspace :=
  let openRoots := match w.project? id with
    | some project => project.roots.toList.filter w.documents.isOpen
    | none => []
  (w.removeProject id).reassign host openRoots

/-- A manifest has appeared: the open documents beneath it that no nearer manifest governs are
assigned again. -/
def manifestAppeared (w : Workspace) (host : Host) (directory : Path) : Workspace :=
  let moved := w.documents.openPaths.filter fun p =>
    p.isUnder directory && !w.hasNearerOwner directory p
  moved.foldl (fun w path => ((w.unroot path none).assign host path).2) w

/-- The host reports a change of a manifest. -/
def manifestEvent (w : Workspace) (host : Host) (path : Path) (change : FileChange) : Workspace :=
  match change, w.projectOfManifest? path with
  | .created, some id | .modified, some id => w.modifyProject id Project.outdate
  | .deleted, some id => w.manifestDeleted host id
  | .created, none =>
    match path.parent? with
    | some directory => if w.settings.syntaxOnly then w else w.manifestAppeared host directory
    | none => w
  | _, none => w

/-- The host reports a change of a file. -/
def noticeFile (w : Workspace) (host : Host) (event : FileEvent) : Answer Unit :=
  if Manifest.isNamed w.settings.manifestFileNames event.path then
    (.ok (), w.manifestEvent host event.path event.change)
  else
    match event.change with
    | .created => (.ok (), w.fileCreated event.path)
    | .modified => w.fileModified host event.path
    | .deleted => (.ok (), w.fileDeleted event.path)

end Codebase.Workspace
