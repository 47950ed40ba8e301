import Codebase.Proofs.Workspace.Fresh
import Codebase.Proofs.Workspace.Rebuild
/-!
# What an event spares

An event rebuilds nothing.  A project that is clean after it was there before as it is, and the
documents of its files are still the same; any other document has been dropped at most.

* `Move.spares` — a move that neither rebuilds nor notes anything is of this sort.
* `unroot_spares`, `takeOverOpenRoots_spares`, `assign_spares` — so is a change of roots.
* `openFile_spares`, `fileCreated_spares` — and so are the events that add a file.
* `closeFile_spares` — and so is the one that closes a document.
-/

namespace Codebase.Workspace

variable {host : Host} {w w' w'' : Workspace} {id x : ProjectId} {path q : Path}

/-- Documents stay or go, and what is clean afterwards was there before as it is, with the documents
of its files. -/
structure Spares (w w' : Workspace) : Prop where
  settings : w'.settings = w.settings
  consistent : Consistent w'
  documents : ∀ q, w'.documents.get? q = w.documents.get? q ∨ w'.documents.get? q = none
  dulls : Dulls w w'
  kept : ∀ x p files, w'.project? x = some p → p.isDirty = false → p.derived = some files →
    ∀ q ∈ files, w'.documents.get? q = w.documents.get? q

theorem spares_refl (h : Consistent w) : Spares w w :=
  ⟨rfl, h, fun _ => .inl rfl, dulls_refl w, fun _ _ _ _ _ _ _ _ => rfl⟩

theorem Spares.trans (h : Spares w w') (h' : Spares w' w'') : Spares w w'' where
  settings := h'.settings.trans h.settings
  consistent := h'.consistent
  documents q := by
    rcases h'.documents q with hsame | hnone
    · rw [hsame]
      exact h.documents q
    · exact .inr hnone
  dulls := h.dulls.trans h'.dulls
  kept x p files hp hclean hfiles q hq := by
    rw [h'.kept x p files hp hclean hfiles q hq]
    exact h.kept x p files (h'.dulls x p hp hclean) hclean hfiles q hq

theorem Spares.contains (h : Spares w w') (hq : w'.documents.contains q = true) :
    w.documents.contains q = true := by
  rcases h.documents q with hsame | hnone
  · rwa [← Documents.contains_congr hsame]
  · rw [show w'.documents.contains q = false from Table.contains_eq_false.2 hnone] at hq
    cases hq

/-! ## Moves -/

theorem Frame.dulls (h : Frame id w w') (hself : ∀ p, w'.project? id = some p → p.isDirty = true) :
    Dulls w w' := by
  intro x p hp hclean
  by_cases hx : x = id
  · subst hx
    rw [hself p hp] at hclean
    cases hclean
  · exact (h.project x hx).symm.trans hp

/-- The files of a clean project are owned, so a move drops none of their documents. -/
theorem Move.spares (h : Move host w w') (hc : Consistent w) (hdulls : Dulls w w')
    (hnone : ∀ q, w.documents.get? q = none → w'.documents.get? q = none) : Spares w w' where
  settings := h.moves.settings
  consistent := h.consistent hc
  dulls := hdulls
  documents q := by
    rcases h.document q with hsame | ⟨hgone, -⟩ | ⟨hnew, -⟩
    · exact .inl hsame
    · exact .inr hgone
    · exact .inr (hnone q hnew)
  kept x p files hp hclean hfiles q hq := by
    rcases h.document q with hsame | ⟨-, hunowned⟩ | ⟨hnew, -⟩
    · exact hsame
    · have howner := (h.consistent hc).owned_of_file hp hclean hfiles hq
      rw [hunowned] at howner
      cases howner
    · rw [hnone q hnew, hnew]

theorem isDirty_modifyProject {p : Project} {f : Project → Project}
    (hf : ∀ p, (f p).isDirty = true) (hp : (w.modifyProject id f).project? id = some p) :
    p.isDirty = true := by
  rw [project?_modifyProject, if_pos rfl] at hp
  obtain ⟨before, -, rfl⟩ := Option.map_eq_some_iff.1 hp
  exact hf before

theorem isDirty_addRoot {p : Project} (hp : (w.addRoot id path).project? id = some p) :
    p.isDirty = true := by
  rw [project?_addRoot, if_pos rfl] at hp
  obtain ⟨before, -, rfl⟩ := Option.map_eq_some_iff.1 hp
  rfl

theorem modifyProject_dulls (w : Workspace) (id : ProjectId) {f : Project → Project}
    (hf : ∀ p, (f p).isDirty = true) : Dulls w (w.modifyProject id f) :=
  (frame_modifyProject w id f).dulls fun _ => isDirty_modifyProject hf

theorem touch_spares (h : Consistent w) (id : ProjectId) :
    Spares w (w.modifyProject id Project.touch) :=
  (Move.touch w id : Move Memory.empty.host w _).spares h
    (modifyProject_dulls w id fun _ => rfl) fun _ hq => hq

theorem foldl_touch_spares (h : Consistent w) (ids : List ProjectId) :
    Spares w (ids.foldl (fun w id => w.modifyProject id Project.touch) w) :=
  List.foldlRecOn ids _ (spares_refl h) fun _ hs id _ => hs.trans (touch_spares hs.consistent id)

theorem removeProject_spares (h : Consistent w) (id : ProjectId) :
    Spares w (w.removeProject id) := by
  refine (Move.retire w id : Move Memory.empty.host w _).spares h (removeProject_dulls w id)
    fun q hq => ?_
  unfold removeProject
  split
  · refine (Documents.get?_forgetAll _ _ q).trans ?_
    rw [hq]
    exact ite_self none
  · exact hq

theorem removeProjects_spares (h : Consistent w) (ids : List ProjectId) :
    Spares w (w.removeProjects ids) :=
  List.foldlRecOn ids removeProject (spares_refl h) fun _ hs id _ =>
    hs.trans (removeProject_spares hs.consistent id)

theorem dropStandIns_spares (h : Consistent w) (path : Path) : Spares w (w.dropStandIns path) :=
  removeProjects_spares h _

theorem addRoot_spares (h : Consistent w) (id : ProjectId) (path : Path) :
    Spares w (w.addRoot id path) := by
  refine (Move.addRoot w id path : Move Memory.empty.host w _).spares h
    ((frame_addRoot w id path).dulls fun _ => isDirty_addRoot) fun q hq => ?_
  unfold Workspace.addRoot
  split <;> exact hq

/-! ## Roots change hands -/

theorem takeRoot_spares {project : Project} (h : Consistent w)
    (hlive : w.project? id = some project) :
    Spares w
      (if (project.removeRoot path).contains path then
        w.modifyProject id fun _ => project.removeRoot path
      else (w.modifyProject id fun _ => project.removeRoot path).removeLink id path) := by
  have hdulls : Dulls w (w.modifyProject id (·.removeRoot path)) :=
    modifyProject_dulls w id fun _ => rfl
  rw [modifyProject_of_live hlive (·.removeRoot path)]
  split
  · rename_i hkept
    exact (Move.dropRoot w id path project hlive hkept : Move Memory.empty.host w _).spares h hdulls
      fun _ hq => hq
  · exact (Move.loseRoot w id path : Move Memory.empty.host w _).spares h hdulls fun _ hq => hq

theorem unrootFrom_spares {s : Workspace × List ProjectId} (h : Consistent s.1) (path : Path)
    (id : ProjectId) : Spares s.1 (unrootFrom path s id).1 := by
  unfold unrootFrom
  simp only
  split
  · exact spares_refl h
  · rename_i project hlive
    split
    · exact takeRoot_spares h hlive
    · exact spares_refl h

theorem unroot_spares (h : Consistent w) (path : Path) (keep : Option ProjectId) :
    Spares w (w.unroot path keep) := by
  let others := (w.ownership.ownersOf path).filter fun id => some id ≠ keep
  have hfold : Spares w (others.foldl (unrootFrom path) (w, [])).1 :=
    List.foldlRecOn (motive := fun s => Spares w s.1) others (unrootFrom path) (spares_refl h)
      fun _ hs id _ => hs.trans (unrootFrom_spares hs.consistent path id)
  exact hfold.trans (removeProjects_spares hfold.consistent _)

theorem takeOverOpenRoots_spares (h : Consistent w) (id : ProjectId) :
    Spares w (w.takeOverOpenRoots id) :=
  List.foldlRecOn (w.contestedRoots id) _ (spares_refl h) fun _ hs root _ =>
    hs.trans (unroot_spares hs.consistent root (some id))

/-! ## Assignment -/

theorem start_spares (h : Consistent w) (origin : ProjectOrigin) (howned : origin ≠ .auxiliary)
    (capability : Capability) :
    Spares w (w.addProject fun id => .new id origin capability).2 := by
  refine (Move.start w origin capability howned : Move Memory.empty.host w _).spares h
    ((frame_addProject w _).dulls fun p hp => ?_) fun _ hq => hq
  rw [project?_addProject, if_pos rfl] at hp
  cases hp
  rfl

theorem startConfigured_spares (h : Consistent w) (host : Host) (manifest : Manifest) :
    Spares w (w.startConfigured host manifest).2 := by
  have hstart : Spares w
      (w.addProject fun id => .configured id manifest w.settings.capability).2 :=
    start_spares h (.configured manifest.path (.loaded manifest)) nofun _
  have hroots : ∀ (id : ProjectId) (roots : List Path),
      Spares w (roots.foldl (fun w root => w.addRoot id root)
        (w.addProject fun id => .configured id manifest w.settings.capability).2) :=
    fun id roots => List.foldlRecOn roots _ hstart fun _ hs root _ =>
      hs.trans (addRoot_spares hs.consistent id root)
  exact (hroots _ _).trans (takeOverOpenRoots_spares (hroots _ _).consistent _)

theorem inferredFor_spares (h : Consistent w) : Spares w w.inferredFor.2 := by
  unfold inferredFor
  split
  · split
    · exact spares_refl h
    · exact start_spares h .inferred nofun _
  · exact start_spares h .inferred nofun _

theorem configuredFor_spares {found : ProjectId × Workspace} (h : Consistent w)
    (hfound : w.configuredFor host path = some found) : Spares w found.2 := by
  unfold configuredFor at hfound
  split at hfound
  · cases hfound
  · split at hfound
    · cases hfound
    · cases hfound
      exact spares_refl h
    · cases hfound
      exact startConfigured_spares h host _
    · rename_i manifestPath reason _
      cases hfound
      exact start_spares h (.configured manifestPath (.failed reason)) nofun _

theorem assign_spares (h : Consistent w) (host : Host) (path : Path) :
    Spares w (w.assign host path).2 := by
  have htaker : Spares w ((w.configuredFor host path).getD w.inferredFor).2 := by
    cases hfound : w.configuredFor host path with
    | none => exact inferredFor_spares h
    | some found => exact configuredFor_spares h hfound
  exact htaker.trans (addRoot_spares htaker.consistent _ path)

/-! ## Events that add a file -/

theorem opening_spares (h : Consistent w) (path : Path) (opened : Documents.Opened)
    (documents : Documents) :
    Spares { w with documents } (w.opening path opened documents) := by
  have hdropped := dropStandIns_spares (h.documents documents) path
  unfold opening
  simp only
  split
  · exact hdropped.trans (foldl_touch_spares hdropped.consistent _)
  · exact hdropped

/-- Opening a document changes that document, spares what is clean afterwards, and leaves the
project of the document dirty. -/
theorem openFile_spares {content : String} (h : Consistent w)
    (hopen : w.openFile host path content = (.ok id, w')) :
    ∃ opened documents, w.documents.open path content = .ok (opened, documents) ∧
      Spares { w with documents } w' ∧ ∀ p, w'.project? id = some p → p.isDirty = true := by
  have hopens := openFile_opens host w path content
  rw [hopen] at hopens
  cases hopens with
  | held hopened hholder =>
    rename_i opened documents
    have hspares := opening_spares h path opened documents
    exact ⟨opened, documents, hopened, hspares.trans (touch_spares hspares.consistent id),
      fun _ => isDirty_modifyProject fun _ => rfl⟩
  | assigned hopened hnone =>
    rename_i opened documents
    have hspares := opening_spares h path opened documents
    exact ⟨opened, documents, hopened, hspares.trans (assign_spares hspares.consistent host path),
      fun _ => isDirty_addRoot⟩

theorem foldl_claim_spares (h : Consistent w) (path : Path) (ids : List ProjectId) :
    Spares w (ids.foldl (fun w id => (w.addRoot id path).takeOverOpenRoots id) w) := by
  refine List.foldlRecOn ids _ (spares_refl h) fun _ hs id _ => ?_
  have hadded := hs.trans (addRoot_spares hs.consistent id path)
  exact hadded.trans (takeOverOpenRoots_spares hadded.consistent id)

theorem fileCreated_spares (h : Consistent w) (path : Path) : Spares w (w.fileCreated path) := by
  have htouched := foldl_touch_spares h ((w.projectList.filter hopes).map Project.id)
  exact htouched.trans (foldl_claim_spares htouched.consistent path _)

/-- A project that could resolve more is not spared when a file is created. -/
theorem hopes_of_fileCreated {p : Project} (h : Consistent w)
    (hp : (w.fileCreated path).project? id = some p) (hclean : p.isDirty = false) :
    hopes p = false := by
  have htouched := foldl_touch_spares h ((w.projectList.filter hopes).map Project.id)
  have hlater := (foldl_claim_spares htouched.consistent path _).dulls id p hp hclean
  rw [project?_foldl_touch] at hlater
  split at hlater
  · obtain ⟨before, -, rfl⟩ := Option.map_eq_some_iff.1 hlater
    cases hclean
  · rename_i hnot
    refine Bool.eq_false_iff.2 fun hhopes => hnot (List.mem_map.2 ⟨p, ?_, h.named id p hlater⟩)
    exact List.mem_filter.2 ⟨mem_projectList.2 ⟨id, hlater⟩, hhopes⟩

/-! ## A document is closed -/

theorem closeIn_spares {s : Workspace × List ProjectId} (h : Consistent s.1) (path : Path)
    (id : ProjectId) : Spares s.1 (closeIn path s id).1 := by
  unfold closeIn
  simp only
  split
  · exact spares_refl h
  · rename_i project hlive
    split
    · exact takeRoot_spares h hlive
    · exact touch_spares h id

theorem forgetUnowned_spares (h : Consistent w) (path : Path) :
    Spares w (w.forgetUnowned path) := by
  unfold forgetUnowned
  split
  · exact spares_refl h
  · rename_i hunowned
    refine (Move.release w path (Ownership.ownersOf_eq_nil_of_not_isOwned
      (Bool.eq_false_iff.2 hunowned)) : Move Memory.empty.host w _).spares h
      (fun _ _ hp _ => hp) fun q hq => ?_
    refine (Documents.get?_forget _ _ q).trans ?_
    rw [hq]
    exact ite_self none

theorem foldl_closeIn_spares {s : Workspace × List ProjectId} (h : Consistent s.1) (path : Path)
    (ids : List ProjectId) : Spares s.1 (ids.foldl (closeIn path) s).1 :=
  List.foldlRecOn (motive := fun s' => Spares s.1 s'.1) ids (closeIn path) (spares_refl h)
    fun _ hs id _ => hs.trans (closeIn_spares hs.consistent path id)

theorem closeFile_spares {documents : Documents} (h : Consistent w)
    (hclose : w.documents.close path = .ok documents) :
    Spares { w with documents } (w.closeFile path).2 := by
  have hclosed := foldl_closeIn_spares (s := ({ w with documents }, []))
    (h.documents documents) path (w.ownership.ownersOf path)
  unfold closeFile
  rw [hclose]
  simp only
  generalize (w.ownership.ownersOf path).foldl (closeIn path)
    ({ w with documents }, []) = state at hclosed
  have hemptied := hclosed.trans (removeProjects_spares hclosed.consistent state.2)
  exact hemptied.trans (forgetUnowned_spares hemptied.consistent path)

end Codebase.Workspace
