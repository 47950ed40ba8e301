import Codebase.Proofs.Ownership
import Codebase.Proofs.Project
import Codebase.Workspace.Events
import Mathlib.Logic.Relation
/-!
# Elementary moves of a workspace

Every operation on a workspace is a chain of a few elementary moves, apart from what an editor does
to the text of a document.  `Move` lists them with all that is known when they happen, so an
invariant is proved once for each move:

* `assign_moves`, `refresh_moves`, … — an operation is a chain of moves.
* `filesOf_inquiries`, … — a question is a chain of rebuilds and of projects that are provided.
* `openFile_opens`, `closeFile_moves`, … — an event is a change of one document followed by a chain
  of moves.
-/

namespace Codebase.Workspace

/-- The part of a rebuild that concerns the project itself: it replaces the project, links its
members, and brings the documents in line. -/
def record (w : Workspace) (id : ProjectId) (rebuilt : Project) (build : Build) : Workspace :=
  { w.modifyProject id fun _ => rebuilt with
    ownership := (w.ownership.replaceMembers id rebuilt.members).2
    documents := (build.discovered.foldl (fun docs found => docs.note found.1 found.2)
      w.documents).forgetAll (w.ownership.replaceMembers id rebuilt.members).1 }

/-- An auxiliary project for `path`, linked to it. -/
def addStandIn (w : Workspace) (path : Path) : ProjectId × Workspace :=
  let (id, w) := w.addProject fun id => .auxiliary id path
  (id, { w with ownership := w.ownership.add id path })

/-- One elementary change of a workspace, with the host as it is at that moment. -/
inductive Move (host : Host) : Workspace → Workspace → Prop
  | touch (w : Workspace) (id : ProjectId) : Move host w (w.modifyProject id Project.touch)
  | outdate (w : Workspace) (id : ProjectId) : Move host w (w.modifyProject id Project.outdate)
  | addRoot (w : Workspace) (id : ProjectId) (path : Path) : Move host w (w.addRoot id path)
  /-- A root goes and stays linked, since the last build has it among its files. -/
  | dropRoot (w : Workspace) (id : ProjectId) (path : Path) (project : Project)
      (live : w.project? id = some project)
      (kept : (project.removeRoot path).contains path = true) :
      Move host w (w.modifyProject id (·.removeRoot path))
  /-- A root goes with its link. -/
  | loseRoot (w : Workspace) (id : ProjectId) (path : Path) : Move host w (disown path w id)
  /-- A project without roots, which is no auxiliary one. -/
  | start (w : Workspace) (origin : ProjectOrigin) (capability : Capability)
      (owned : origin ≠ .auxiliary) :
      Move host w (w.addProject fun id => .new id origin capability).2
  /-- An auxiliary project for a document, or for a file that is noted first. -/
  | standIn (w : Workspace) (path : Path) (documents : Documents)
      (unowned : w.ownership.ownersOf path = [])
      (noted : w.documents.contains path = true ∧ documents = w.documents ∨
        ∃ text, host.read path = .ok text ∧ documents = w.documents.note path text) :
      Move host w ({ w with documents }.addStandIn path).2
  | retire (w : Workspace) (id : ProjectId) : Move host w (w.removeProject id)
  /-- A document without owners is dropped. -/
  | release (w : Workspace) (path : Path) (unowned : w.ownership.ownersOf path = []) :
      Move host w { w with documents := w.documents.forget path }
  | rebuild (w : Workspace) (id : ProjectId) (project rebuilt : Project) (build : Build)
      (live : w.project? id = some project)
      (built : project.refresh? (w.context host) = some (rebuilt, build)) :
      Move host w (w.record id rebuilt build)

/-- A chain of elementary changes. -/
abbrev Moves (host : Host) : Workspace → Workspace → Prop := Relation.ReflTransGen (Move host)

variable {host : Host} {w w' : Workspace} {id : ProjectId} {path : Path}

theorem Move.moves (h : Move host w w') : Moves host w w' := .single h

theorem Moves.foldl {α : Type} {f : Workspace → α → Workspace}
    (h : ∀ w a, Moves host w (f w a)) (l : List α) (w : Workspace) :
    Moves host w (l.foldl f w) := by
  induction l generalizing w with
  | nil => exact .refl
  | cons a l ih => exact (h w a).trans (ih (f w a))

/-- A fold that carries a workspace and a list of its findings. -/
theorem Moves.foldl_fst {α β : Type} {f : Workspace × β → α → Workspace × β}
    (h : ∀ s a, Moves host s.1 (f s a).1) (l : List α) (s : Workspace × β) :
    Moves host s.1 (l.foldl f s).1 := by
  induction l generalizing s with
  | nil => exact .refl
  | cons a l ih => exact (h s a).trans (ih (f s a))

/-! ## Roots change hands -/

theorem touchOwners_moves (w : Workspace) (path : Path) : Moves host w (w.touchOwners path) :=
  Moves.foldl (fun w id => (Move.touch w id).moves) _ w

theorem removeProjects_moves (w : Workspace) (ids : List ProjectId) :
    Moves host w (w.removeProjects ids) :=
  Moves.foldl (fun w id => (Move.retire w id).moves) _ w

theorem dropStandIns_moves (w : Workspace) (path : Path) : Moves host w (w.dropStandIns path) :=
  removeProjects_moves w _

/-- Changing a live project is putting what the change makes of it in its place. -/
theorem modifyProject_of_live {project : Project} (hlive : w.project? id = some project)
    (f : Project → Project) : (w.modifyProject id fun _ => f project) = w.modifyProject id f := by
  unfold modifyProject
  rw [Table.modify_of_get? hlive f]

/-- Taking a root from a project, with its link unless the last build has the file. -/
theorem takeRoot_moves {project : Project} (hlive : w.project? id = some project) :
    Moves host w
      (if (project.removeRoot path).contains path then
        w.modifyProject id fun _ => project.removeRoot path
      else (w.modifyProject id fun _ => project.removeRoot path).removeLink id path) := by
  rw [modifyProject_of_live hlive (·.removeRoot path)]
  split
  · rename_i hkept
    exact (Move.dropRoot w id path project hlive hkept).moves
  · exact (Move.loseRoot w id path).moves

theorem unrootFrom_moves (path : Path) (s : Workspace × List ProjectId) (id : ProjectId) :
    Moves host s.1 (unrootFrom path s id).1 := by
  unfold unrootFrom
  simp only
  split
  · exact .refl
  · rename_i project hlive
    split
    · exact takeRoot_moves hlive
    · exact .refl

theorem unroot_moves (w : Workspace) (path : Path) (keep : Option ProjectId) :
    Moves host w (w.unroot path keep) :=
  (Moves.foldl_fst (unrootFrom_moves path) _ (w, [])).trans (removeProjects_moves _ _)

theorem takeOverOpenRoots_moves (w : Workspace) (id : ProjectId) :
    Moves host w (w.takeOverOpenRoots id) :=
  Moves.foldl (fun w root => unroot_moves w root (some id)) _ w

/-! ## Assignment -/

theorem addRoots_moves (w : Workspace) (id : ProjectId) (roots : List Path) :
    Moves host w (roots.foldl (fun w root => w.addRoot id root) w) :=
  Moves.foldl (fun w root => (Move.addRoot w id root).moves) roots w

theorem startConfigured_moves (w : Workspace) (manifest : Manifest) :
    Moves host w (w.startConfigured host manifest).2 := by
  have hstart : Move host w
      (w.addProject fun id => .configured id manifest w.settings.capability).2 :=
    .start w (.configured manifest.path (.loaded manifest)) _ nofun
  exact (hstart.moves.trans (addRoots_moves _ _ _)).trans (takeOverOpenRoots_moves _ _)

theorem startInferred_moves (w : Workspace) : Moves host w w.startInferred.2 :=
  (Move.start w .inferred _ nofun).moves

theorem inferredFor_moves (w : Workspace) : Moves host w w.inferredFor.2 := by
  unfold inferredFor
  split
  · split
    · exact .refl
    · exact startInferred_moves w
  · exact startInferred_moves w

theorem configuredFor_moves {found : ProjectId × Workspace}
    (h : w.configuredFor host path = some found) : Moves host w found.2 := by
  unfold configuredFor at h
  split at h
  · cases h
  · split at h
    · cases h
    · cases h
      exact .refl
    · cases h
      exact startConfigured_moves w _
    · rename_i manifestPath reason _
      cases h
      exact (Move.start w (.configured manifestPath (.failed reason)) _ nofun).moves

theorem assign_moves (w : Workspace) (path : Path) : Moves host w (w.assign host path).2 := by
  unfold assign
  refine .trans ?_ (Move.addRoot _ _ path).moves
  cases h : w.configuredFor host path with
  | none => exact inferredFor_moves w
  | some found => exact configuredFor_moves h

/-! ## Building -/

theorem refresh_eq (w : Workspace) (host : Host) (id : ProjectId) :
    w.refresh host id = match w.project? id with
      | none => (.error (.unknownProject id.name), w)
      | some project =>
        match project.refresh? (w.context host) with
        | none => (.ok (), w)
        | some (rebuilt, build) =>
          (.ok (),
            if rebuilt.kind = .configured then (w.record id rebuilt build).takeOverOpenRoots id
            else w.record id rebuilt build) := rfl

theorem refresh_moves (host : Host) (w : Workspace) (id : ProjectId) :
    Moves host w (w.refresh host id).2 := by
  rw [refresh_eq]
  split
  · exact .refl
  · rename_i project hlive
    split
    · exact .refl
    · rename_i rebuilt build hbuilt
      have hrecord := (Move.rebuild w id project rebuilt build hlive hbuilt).moves
      simp only
      split
      · exact hrecord.trans (takeOverOpenRoots_moves _ id)
      · exact hrecord

theorem projectsOf_eq_nil_iff : w.projectsOf path = [] ↔ w.ownership.ownersOf path = [] := by
  unfold projectsOf
  simp only [List.append_eq_nil_iff, List.filter_eq_nil_iff]
  constructor
  · rintro ⟨hroot, hother⟩
    refine List.eq_nil_iff_forall_not_mem.2 fun id hid => ?_
    have hfalse : w.hasRoot path id = false := Bool.eq_false_iff.2 (hroot id hid)
    exact hother id hid (by rw [hfalse]; rfl)
  · intro h
    rw [h]
    exact ⟨nofun, nofun⟩

/-- Serving a path changes nothing, or adds an auxiliary project for a path that nobody owns. -/
theorem providerFor_eq (host : Host) (w : Workspace) (path : Path) :
    (w.providerFor host path).2 = w ∨
      ∃ documents, w.ownership.ownersOf path = [] ∧
        (w.documents.contains path = true ∧ documents = w.documents ∨
          ∃ text, host.read path = .ok text ∧ documents = w.documents.note path text) ∧
        (w.providerFor host path).2 = ({ w with documents }.addStandIn path).2 := by
  unfold providerFor
  split
  · exact .inl rfl
  · rename_i hnone
    have hunowned : w.ownership.ownersOf path = [] :=
      projectsOf_eq_nil_iff.1 (List.head?_eq_none_iff.1 hnone)
    by_cases hdocument : w.documents.contains path = true
    · simp only [if_pos hdocument]
      exact .inr ⟨w.documents, hunowned, .inl ⟨hdocument, rfl⟩, rfl⟩
    · simp only [if_neg hdocument]
      cases hread : host.read path with
      | error e => exact .inl rfl
      | ok text => exact .inr ⟨_, hunowned, .inr ⟨text, rfl, rfl⟩, rfl⟩

theorem providerFor_moves (host : Host) (w : Workspace) (path : Path) :
    Moves host w (w.providerFor host path).2 := by
  rcases providerFor_eq host w path with hsame | ⟨documents, hunowned, hnoted, hadded⟩
  · rw [hsame]
  · rw [hadded]
    exact (Move.standIn w path documents hunowned hnoted).moves

/-! ## Inquiries -/

/-- A step on the way to an answer: a project is rebuilt, or the path that was asked about gets one
that serves it. -/
inductive Inquiry (asked : Option Path) (host : Host) (w : Workspace) : Workspace → Prop
  | refresh (id : ProjectId) : Inquiry asked host w (w.refresh host id).2
  | provide (path : Path) (named : asked = some path) :
      Inquiry asked host w (w.providerFor host path).2

/-- A chain of such steps. -/
abbrev Inquiries (asked : Option Path) (host : Host) : Workspace → Workspace → Prop :=
  Relation.ReflTransGen (Inquiry asked host)

theorem Inquiry.moves {asked : Option Path} (h : Inquiry asked host w w') : Moves host w w' := by
  cases h with
  | refresh id => exact refresh_moves host w id
  | provide path => exact providerFor_moves host w path

theorem Inquiries.moves {asked : Option Path} (h : Inquiries asked host w w') :
    Moves host w w' := by
  induction h with
  | refl => exact .refl
  | tail _ hinquiry ih => exact ih.trans hinquiry.moves

theorem refresh_inquiries (asked : Option Path) (host : Host) (w : Workspace) (id : ProjectId) :
    Inquiries asked host w (w.refresh host id).2 :=
  .single (.refresh id)

theorem refreshEach_inquiries (asked : Option Path) (host : Host) (w : Workspace)
    (ids : List ProjectId) : Inquiries asked host w (w.refreshEach host ids).2 := by
  induction ids generalizing w with
  | nil => exact .refl
  | cons id rest ih =>
    unfold refreshEach
    split
    · have hid := refresh_inquiries asked host w id
      split
      · rename_i e next h
        rw [h] at hid
        exact hid
      · rename_i next h
        rw [h] at hid
        exact hid.trans (ih next)
    · exact ih w

theorem filesOf_inquiries (asked : Option Path) (host : Host) (w : Workspace) (id : ProjectId) :
    Inquiries asked host w (w.filesOf host id).2 := by
  have hid := refresh_inquiries asked host w id
  unfold filesOf
  split
  · rename_i e next h
    rw [h] at hid
    exact hid
  · rename_i next h
    rw [h] at hid
    split <;> exact hid

/-! ## Events of an editor -/

/-- The workspace when a document is open, and before it is given to a project. -/
def opening (w : Workspace) (path : Path) (opened : Documents.Opened) (documents : Documents) :
    Workspace :=
  let w := { w with documents }.dropStandIns path
  if opened.contentChanged then w.touchOwners path else w

/-- What opening a document comes to: an error that changes nothing, or an open document with a
project. -/
inductive Opens (host : Host) (w : Workspace) (path : Path) (content : String) :
    Answer ProjectId → Prop
  | refused (e : Error) : Opens host w path content (.error e, w)
  | held {opened : Documents.Opened} {documents : Documents} {id : ProjectId}
      (hopened : w.documents.open path content = .ok (opened, documents))
      (hholder : (w.opening path opened documents).holder? path = some id) :
      Opens host w path content
        (.ok id, (w.opening path opened documents).modifyProject id Project.touch)
  | assigned {opened : Documents.Opened} {documents : Documents}
      (hopened : w.documents.open path content = .ok (opened, documents))
      (hnone : (w.opening path opened documents).holder? path = none) :
      Opens host w path content (.ok ((w.opening path opened documents).assign host path).1,
        ((w.opening path opened documents).assign host path).2)

theorem openFile_opens (host : Host) (w : Workspace) (path : Path) (content : String) :
    Opens host w path content (w.openFile host path content) := by
  unfold openFile
  cases hopened : w.documents.open path content with
  | error e => exact .refused e
  | ok result =>
    obtain ⟨opened, documents⟩ := result
    cases hholder : (w.opening path opened documents).holder? path with
    | some id =>
      unfold opening at hholder
      simp only at hholder ⊢
      rw [hholder]
      exact .held hopened hholder
    | none =>
      unfold opening at hholder
      simp only at hholder ⊢
      rw [hholder]
      exact .assigned hopened hholder

theorem opening_moves (w : Workspace) (path : Path) (opened : Documents.Opened)
    (documents : Documents) :
    Moves host { w with documents } (w.opening path opened documents) := by
  unfold opening
  simp only
  split
  · exact (dropStandIns_moves _ path).trans (touchOwners_moves _ path)
  · exact dropStandIns_moves _ path

theorem closeIn_moves (path : Path) (s : Workspace × List ProjectId) (id : ProjectId) :
    Moves host s.1 (closeIn path s id).1 := by
  unfold closeIn
  simp only
  split
  · exact .refl
  · rename_i project hlive
    split
    · exact takeRoot_moves hlive
    · exact (Move.touch s.1 id).moves

theorem forgetUnowned_moves (w : Workspace) (path : Path) :
    Moves host w (w.forgetUnowned path) := by
  unfold forgetUnowned
  split
  · exact .refl
  · rename_i h
    exact (Move.release w path
      (Ownership.ownersOf_eq_nil_of_not_isOwned (Bool.eq_false_iff.2 h))).moves

theorem closeFile_moves {documents : Documents} (h : w.documents.close path = .ok documents) :
    Moves host { w with documents } (w.closeFile path).2 := by
  unfold closeFile
  rw [h]
  exact ((Moves.foldl_fst (closeIn_moves path) _ ({ w with documents }, [])).trans
    (removeProjects_moves _ _)).trans (forgetUnowned_moves _ path)

/-! ## Reports of the host -/

theorem fileCreated_moves (w : Workspace) (path : Path) : Moves host w (w.fileCreated path) :=
  .trans (Moves.foldl (fun w id => (Move.touch w id).moves) _ w)
    (Moves.foldl (fun w id => (Move.addRoot w id path).moves.trans
      (takeOverOpenRoots_moves _ id)) _ _)

theorem ownersOf_foldl_disown {ids : List ProjectId} {x : ProjectId} :
    x ∈ (ids.foldl (disown path) w).ownership.ownersOf path ↔
      x ∈ w.ownership.ownersOf path ∧ x ∉ ids := by
  induction ids generalizing w with
  | nil => simp
  | cons id rest ih =>
    rw [List.foldl_cons, ih, List.mem_cons, not_or, ← and_assoc]
    have hstep : x ∈ (disown path w id).ownership.ownersOf path ↔
        x ∈ w.ownership.ownersOf path ∧ x ≠ id := by
      refine Ownership.mem_ownersOf_remove.trans ?_
      rw [and_iff_left rfl]
      rfl
    rw [hstep]

/-- Nobody owns a closed file that was deleted. -/
theorem ownersOf_fileDeleted (hclosed : w.documents.isOpen path = false) :
    (w.fileDeleted path).ownership.ownersOf path = [] := by
  unfold fileDeleted
  rw [if_neg (Bool.eq_false_iff.1 hclosed)]
  exact List.eq_nil_iff_forall_not_mem.2 fun x hx =>
    (ownersOf_foldl_disown.1 hx).2 (ownersOf_foldl_disown.1 hx).1

theorem fileDeleted_moves (w : Workspace) (path : Path) : Moves host w (w.fileDeleted path) := by
  unfold fileDeleted
  split
  · exact .refl
  · have hunowned : ∀ w₁ : Workspace,
        ((w₁.ownership.ownersOf path).foldl (disown path) w₁).ownership.ownersOf path = [] :=
      fun w₁ => List.eq_nil_iff_forall_not_mem.2 fun x hx =>
        (ownersOf_foldl_disown.1 hx).2 (ownersOf_foldl_disown.1 hx).1
    exact ((removeProjects_moves w _).trans
      (Moves.foldl (fun w id => (Move.loseRoot w id path).moves) _ _)).trans
      (Move.release _ path (hunowned _)).moves

theorem reassign_moves (w : Workspace) (paths : List Path) :
    Moves host w (w.reassign host paths) :=
  Moves.foldl (fun w path => assign_moves w path) _ w

theorem manifestDeleted_moves (w : Workspace) (id : ProjectId) :
    Moves host w (w.manifestDeleted host id) :=
  (Move.retire w id).moves.trans (reassign_moves _ _)

theorem manifestAppeared_moves (w : Workspace) (directory : Path) :
    Moves host w (w.manifestAppeared host directory) :=
  Moves.foldl (fun w path => (unroot_moves w path none).trans (assign_moves _ path)) _ w

theorem manifestEvent_moves (w : Workspace) (path : Path) (change : FileChange) :
    Moves host w (w.manifestEvent host path change) := by
  unfold manifestEvent
  split
  · exact (Move.outdate w _).moves
  · exact (Move.outdate w _).moves
  · exact manifestDeleted_moves w _
  · split
    · split
      · exact .refl
      · exact manifestAppeared_moves w _
    · exact .refl
  · exact .refl

end Codebase.Workspace
