import Codebase.Proofs.Path
import Codebase.Proofs.Workspace.Descent
/-!
# What every project has from its start

A project starts in one of four ways, and a configured one starts for a manifest that has just been
looked up.  A property that every project has when it starts, and that no change takes from it, is a
property of all projects at all times:

* `Project.Inborn` — what has to be shown of the property.
* `found_of_governor?`, `failed_of_governor?` — a manifest that governs a path has been looked up.
* `act_upholds` — every action leaves all projects with the property.
* `run_upholds` — so every run does.
-/

namespace Codebase

/-- Every project has the property when it starts, and no change takes it away. -/
structure Project.Inborn (settings : Settings) (P : Project → Prop) : Prop where
  inferred : ∀ id, P (.inferred id settings.capability)
  auxiliary : ∀ id path, P (.auxiliary id path)
  configured : ∀ host directory manifest id,
    Manifest.lookup host settings.manifestFileNames directory = .found manifest →
      P (.configured id manifest settings.capability)
  unloadable : ∀ host directory manifestPath reason id,
    Manifest.lookup host settings.manifestFileNames directory = .failed manifestPath reason →
      P (.unloadable id manifestPath reason)
  touch : ∀ p, P p → P p.touch
  outdate : ∀ p, P p → P p.outdate
  addRoot : ∀ p path, P p → P (p.addRoot path)
  removeRoot : ∀ p path, P p → P (p.removeRoot path)
  refresh? : ∀ {p ctx rebuilt build}, ctx.settings = settings →
    p.refresh? ctx = some (rebuilt, build) → P p → P rebuilt

/-- The property passes on to what becomes of a project without a build. -/
theorem Project.Inborn.lasting {settings : Settings} {P : Project → Prop}
    (hP : Inborn settings P) : Lasting (fun _ => True) fun p p' => P p → P p' where
  refl _ h := h
  trans h h' hp := h' (h hp)
  touch := hP.touch
  removeRoot p path _ := hP.removeRoot p path

namespace Workspace

open Project (Inborn)

variable {settings : Settings} {P : Project → Prop} {host : Host} {w w' : Workspace}
  {id x : ProjectId} {path : Path}

/-- Every project has the property, under these settings. -/
structure Upholds (settings : Settings) (P : Project → Prop) (w : Workspace) : Prop where
  settings : w.settings = settings
  project : ∀ x p, w.project? x = some p → P p

theorem upholds_new (settings : Settings) (P : Project → Prop) :
    Upholds settings P (new settings) :=
  ⟨rfl, fun _ _ h => by cases h⟩

theorem Descends.upholds (h : Descends (fun p p' => P p → P p') w w')
    (hw : Upholds settings P w) : Upholds settings P w' where
  settings := h.settings.trans hw.settings
  project x p' hp' := by
    obtain ⟨p, hp, hkept⟩ := h.project x p' hp'
    exact hkept (hw.project x p hp)

/-! ## What governs a path has been looked up -/

theorem lookup_of_governorAt? {ancestor : Path} {governor : Governor}
    (h : w.governorAt? host path ancestor = some governor) :
    (∀ manifest, governor = .manifest manifest →
      Manifest.lookup host w.settings.manifestFileNames ancestor = .found manifest) ∧
    ∀ manifestPath reason, governor = .unloadable manifestPath reason →
      Manifest.lookup host w.settings.manifestFileNames ancestor =
        .failed manifestPath reason := by
  unfold governorAt? at h
  split at h
  · split at h
    · cases h
      exact ⟨nofun, nofun⟩
    · cases h
  · split at h
    · cases h
    · rename_i found hlookup
      split at h
      · cases h
        exact ⟨fun manifest heq => by cases heq; exact hlookup, nofun⟩
      · cases h
    · rename_i manifestPath reason hlookup
      cases h
      exact ⟨nofun, fun _ _ heq => by cases heq; exact hlookup⟩

/-- Who governs a path does so from a directory above it. -/
theorem exists_governorAt? {governor : Governor} (h : w.governor? host path = some governor) :
    ∃ directory, path.isUnder directory = true ∧
      w.governorAt? host path directory = some governor := by
  obtain ⟨parent, hparent, hfound⟩ := Option.bind_eq_some_iff.1 h
  obtain ⟨directory, hmem, hat⟩ := List.exists_of_findSome?_eq_some hfound
  exact ⟨directory, Path.isUnder_of_mem_ancestors hparent hmem, hat⟩

/-- A manifest that governs a path has been found. -/
theorem found_of_governor? {manifest : Manifest}
    (h : w.governor? host path = some (.manifest manifest)) :
    ∃ directory,
      Manifest.lookup host w.settings.manifestFileNames directory = .found manifest := by
  obtain ⟨directory, -, hat⟩ := exists_governorAt? h
  exact ⟨directory, (lookup_of_governorAt? hat).1 manifest rfl⟩

/-- A manifest that governs a path and cannot be loaded has been come upon. -/
theorem failed_of_governor? {manifestPath : Path} {reason : String}
    (h : w.governor? host path = some (.unloadable manifestPath reason)) :
    ∃ directory,
      Manifest.lookup host w.settings.manifestFileNames directory =
        .failed manifestPath reason := by
  obtain ⟨directory, -, hat⟩ := exists_governorAt? h
  exact ⟨directory, (lookup_of_governorAt? hat).2 manifestPath reason rfl⟩

/-! ## Starting and rebuilding -/

theorem addProject_upholds (hw : Upholds settings P w) {make : ProjectId → Project}
    (hmake : ∀ id, P (make id)) : Upholds settings P (w.addProject make).2 where
  settings := hw.settings
  project x p hp := by
    rw [project?_addProject] at hp
    split at hp
    · cases hp
      exact hmake _
    · exact hw.project x p hp

section Operations

variable (hP : Inborn settings P)
include hP

theorem addRoot_upholds (hw : Upholds settings P w) (id : ProjectId) (path : Path) :
    Upholds settings P (w.addRoot id path) where
  settings := (frame_addRoot w id path).settings.trans hw.settings
  project x p hp := by
    rw [project?_addRoot] at hp
    split at hp
    · obtain ⟨p', hp', rfl⟩ := Option.map_eq_some_iff.1 hp
      exact hP.addRoot p' path (hw.project x p' hp')
    · exact hw.project x p hp

theorem takeOverOpenRoots_upholds (hw : Upholds settings P w) (id : ProjectId) :
    Upholds settings P (w.takeOverOpenRoots id) :=
  (takeOverOpenRoots_descends hP.lasting w id fun _ _ => trivial).upholds hw

theorem startConfigured_upholds (hw : Upholds settings P w) {manifest : Manifest}
    {directory : Path}
    (hfound : Manifest.lookup host w.settings.manifestFileNames directory = .found manifest) :
    Upholds settings P (w.startConfigured host manifest).2 := by
  have hstarted : ∀ id, P (.configured id manifest w.settings.capability) := by
    rw [hw.settings] at hfound ⊢
    intro id
    exact hP.configured host directory manifest id hfound
  unfold startConfigured
  simp only
  refine takeOverOpenRoots_upholds hP ?_ _
  exact List.foldlRecOn (motive := Upholds settings P) _ _ (addProject_upholds hw hstarted)
    fun w hw root _ => addRoot_upholds hP hw _ root

theorem inferredFor_upholds (hw : Upholds settings P w) :
    Upholds settings P w.inferredFor.2 := by
  have hstarted : Upholds settings P w.startInferred.2 := by
    refine addProject_upholds hw fun id => ?_
    rw [hw.settings]
    exact hP.inferred id
  unfold inferredFor
  split
  · split
    · exact hw
    · exact hstarted
  · exact hstarted

theorem configuredFor_upholds {found : ProjectId × Workspace} (hw : Upholds settings P w)
    (hfound : w.configuredFor host path = some found) : Upholds settings P found.2 := by
  unfold configuredFor at hfound
  split at hfound
  · cases hfound
  · split at hfound
    · cases hfound
    · cases hfound
      exact hw
    · rename_i manifest hgovernor
      cases hfound
      obtain ⟨directory, hlookup⟩ := found_of_governor? hgovernor
      exact startConfigured_upholds hP hw hlookup
    · rename_i manifestPath reason hgovernor
      cases hfound
      obtain ⟨directory, hlookup⟩ := failed_of_governor? hgovernor
      rw [hw.settings] at hlookup
      exact addProject_upholds hw fun id =>
        hP.unloadable host directory manifestPath reason id hlookup

theorem assign_upholds (hw : Upholds settings P w) (host : Host) (path : Path) :
    Upholds settings P (w.assign host path).2 := by
  unfold assign
  refine addRoot_upholds hP ?_ _ path
  cases hfound : w.configuredFor host path with
  | none => exact inferredFor_upholds hP hw
  | some found => exact configuredFor_upholds hP hw hfound

theorem refresh_upholds (hw : Upholds settings P w) (host : Host) (id : ProjectId) :
    Upholds settings P (w.refresh host id).2 := by
  rw [refresh_eq]
  split
  · exact hw
  · rename_i project hlive
    split
    · exact hw
    · rename_i rebuilt build hbuilt
      have hrecord : Upholds settings P (w.record id rebuilt build) := by
        refine ⟨hw.settings, fun x p hp => ?_⟩
        rw [project?_record] at hp
        split at hp
        · obtain ⟨p', -, rfl⟩ := Option.map_eq_some_iff.1 hp
          exact hP.refresh? hw.settings hbuilt (hw.project id project hlive)
        · exact hw.project x p hp
      simp only
      split
      · exact takeOverOpenRoots_upholds hP hrecord id
      · exact hrecord

theorem providerFor_upholds (hw : Upholds settings P w) (host : Host) (path : Path) :
    Upholds settings P (w.providerFor host path).2 := by
  rcases providerFor_eq host w path with hsame | ⟨documents, -, -, hadded⟩
  · rw [hsame]
    exact hw
  · have hdocuments : Upholds settings P { w with documents } := ⟨hw.settings, hw.project⟩
    have hstarted := addProject_upholds hdocuments fun id => hP.auxiliary id path
    rw [hadded]
    exact ⟨hstarted.settings, hstarted.project⟩

theorem Inquiries.upholds {asked : Option Path} (h : Inquiries asked host w w')
    (hw : Upholds settings P w) : Upholds settings P w' := by
  induction h with
  | refl => exact hw
  | tail _ hlast ih =>
    cases hlast with
    | refresh id => exact refresh_upholds hP ih host id
    | provide path => exact providerFor_upholds hP ih host path

/-! ## Events -/

theorem openFile_upholds (hw : Upholds settings P w) (host : Host) (path : Path)
    (content : String) : Upholds settings P (w.openFile host path content).2 := by
  have hopens := openFile_opens host w path content
  generalize w.openFile host path content = answer at hopens ⊢
  cases hopens with
  | refused e => exact hw
  | @held opened documents id _ _ =>
    have hopening := (opening_descends hP.lasting w path opened documents).upholds hw
    exact (modifyProject_descends hP.lasting _ id hP.touch).upholds hopening
  | @assigned opened documents _ _ =>
    have hopening := (opening_descends hP.lasting w path opened documents).upholds hw
    exact assign_upholds hP hopening host path

theorem fileCreated_upholds (hw : Upholds settings P w) (path : Path) :
    Upholds settings P (w.fileCreated path) := by
  have htouched := descends_foldl hP.lasting (fun w id =>
    modifyProject_descends hP.lasting w id hP.touch)
    ((w.projectList.filter hopes).map Project.id) w
  unfold fileCreated
  exact List.foldlRecOn (motive := Upholds settings P) _ _ (htouched.upholds hw)
    fun w hw id _ => takeOverOpenRoots_upholds hP (addRoot_upholds hP hw id path) id

theorem manifestEvent_upholds (hw : Upholds settings P w) (host : Host) (path : Path)
    (change : FileChange) : Upholds settings P (w.manifestEvent host path change) := by
  have houtdated : ∀ id, Upholds settings P (w.modifyProject id Project.outdate) := fun id =>
    (modifyProject_descends hP.lasting w id hP.outdate).upholds hw
  unfold manifestEvent
  split
  · exact houtdated _
  · exact houtdated _
  · unfold manifestDeleted reassign
    exact List.foldlRecOn (motive := Upholds settings P) _ _
      ((removeProject_descends hP.lasting w _).upholds hw)
      fun w hw path _ => assign_upholds hP hw host path
  · split
    · split
      · exact hw
      · unfold manifestAppeared
        exact List.foldlRecOn (motive := Upholds settings P) _ _ hw fun w hw path _ =>
          assign_upholds hP ((unroot_descends hP.lasting trivial w none).upholds hw) host path
    · exact hw
  · exact hw

theorem noticeFile_upholds (hw : Upholds settings P w) (host : Host) (event : FileEvent) :
    Upholds settings P (w.noticeFile host event).2 := by
  unfold noticeFile
  split
  · exact manifestEvent_upholds hP hw host event.path event.change
  · split
    · exact fileCreated_upholds hP hw event.path
    · exact (fileModified_descends hP.lasting host w event.path).upholds hw
    · exact (fileDeleted_descends hP.lasting trivial w).upholds hw

/-! ## Actions -/

theorem serve_upholds (hw : Upholds settings P w) (service : LanguageService) (host : Host)
    (request : Request) : Upholds settings P (w.serve service host request).2 := by
  have hserves := serve_serves service host w request
  generalize (w.serve service host request).2 = next at hserves ⊢
  cases hserves with
  | opening path content _ hopen =>
    have hopened := openFile_upholds hP hw host path content
    rw [hopen] at hopened
    exact refresh_upholds hP hopened host _
  | closing file => exact (closeFile_descends hP.lasting trivial w).upholds hw
  | editing file change version =>
    exact (editFile_descends hP.lasting w file change version).upholds hw
  | asking hasked => exact Inquiries.upholds hP hasked hw

/-- **Every action leaves all projects with the property.** -/
theorem act_upholds (hw : Upholds settings P w) (host : Host) (action : Action) :
    Upholds settings P (w.act host action) := by
  cases action with
  | openFile path content => exact openFile_upholds hP hw host path content
  | closeFile path => exact (closeFile_descends hP.lasting trivial w).upholds hw
  | editFile path change version =>
    exact (editFile_descends hP.lasting w path change version).upholds hw
  | notice event => exact noticeFile_upholds hP hw host event
  | refresh id => exact refresh_upholds hP hw host id
  | refreshAll => exact Inquiries.upholds hP (refreshEach_inquiries none host w _) hw
  | filesOf id => exact Inquiries.upholds hP (filesOf_inquiries none host w id) hw
  | providerFor path => exact providerFor_upholds hP hw host path
  | request service request => exact serve_upholds hP hw service host request

/-- **After every run all projects have the property.** -/
theorem run_upholds (steps : List (Host × Action)) : Upholds settings P (run settings steps) := by
  have hact : ∀ w host (action : Action), True → Upholds settings P w →
      Upholds settings P (w.act host action) :=
    fun _ host action _ hw => act_upholds hP hw host action
  exact run_induction (upholds_new settings P) hact steps fun _ _ => trivial

end Operations

end Workspace

end Codebase
