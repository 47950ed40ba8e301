import Codebase.Proofs.Workspace.Holder
/-!
# The links of a closed path

How the links of one path change while other paths are dealt with.  An operation that starts and
builds nothing leaves them alone.  Otherwise a project gets a link when a build reaches the path, or
when it starts with a manifest that names it, and loses one only when a build does not reach it any
more or the project ends:

* `Ignores` — an operation leaves the links of the path alone.
* `Overlooks` — an operation changes them by starting and building projects only.
* `Overlooks.trans` — so does a chain of such operations.
-/

namespace Codebase

namespace Project

variable {project next last rebuilt : Project} {ctx : Context} {build : Build} {path : Path}
  {linked linked' linked'' : Prop}

/-- The projects are alike in all that the links of a path depend on. -/
structure Resembles (path : Path) (project next : Project) : Prop where
  kind : next.kind = project.kind
  manifest : next.manifest? = project.manifest?
  isStale : next.isStale = project.isStale
  hasRoot : next.hasRoot path = project.hasRoot path
  derived : next.derived = project.derived
  buildCount : next.buildCount = project.buildCount

theorem resembles_refl (project : Project) (path : Path) : project.Resembles path project :=
  ⟨rfl, rfl, rfl, rfl, rfl, rfl⟩

theorem Resembles.trans (h : project.Resembles path next) (h' : next.Resembles path last) :
    project.Resembles path last where
  kind := h'.kind.trans h.kind
  manifest := h'.manifest.trans h.manifest
  isStale := h'.isStale.trans h.isStale
  hasRoot := h'.hasRoot.trans h.hasRoot
  derived := h'.derived.trans h.derived
  buildCount := h'.buildCount.trans h.buildCount

theorem touch_resembles (project : Project) (path : Path) :
    project.Resembles path project.touch :=
  ⟨rfl, rfl, rfl, rfl, rfl, rfl⟩

theorem addRoot_resembles (project : Project) {q : Path} (hq : path ≠ q) :
    project.Resembles path (project.addRoot q) where
  kind := rfl
  manifest := rfl
  isStale := rfl
  hasRoot := Bool.eq_iff_iff.2 (hasRoot_addRoot.trans (or_iff_left hq))
  derived := rfl
  buildCount := rfl

theorem removeRoot_resembles (project : Project) {q : Path} (hq : path ≠ q) :
    project.Resembles path (project.removeRoot q) where
  kind := rfl
  manifest := rfl
  isStale := rfl
  hasRoot := Bool.eq_iff_iff.2 (hasRoot_removeRoot.trans (and_iff_left hq))
  derived := rfl
  buildCount := rfl

/-- What becomes of a project, and of its link with a path: between two builds it stays, and a build
links the files.  A project that has no manifest to read keeps the root. -/
structure Succeeds (path : Path) (project next : Project) (linked linked' : Prop) : Prop where
  kind : next.kind = project.kind
  buildCount : project.buildCount ≤ next.buildCount
  fixed : project.isStale = false → next.isStale = false ∧ next.manifest? = project.manifest? ∧
    next.hasRoot path = project.hasRoot path
  idle : next.buildCount = project.buildCount →
    next.derived = project.derived ∧ (linked' ↔ linked)
  built : project.buildCount < next.buildCount →
    (linked' ↔ ∃ files, next.derived = some files ∧ path ∈ files)

theorem Resembles.succeeds (h : project.Resembles path next) (hlinked : linked' ↔ linked) :
    project.Succeeds path next linked linked' where
  kind := h.kind
  buildCount := Nat.le_of_eq h.buildCount.symm
  fixed hfresh := ⟨h.isStale.trans hfresh, h.manifest, h.hasRoot⟩
  idle _ := ⟨h.derived, hlinked⟩
  built hless := absurd hless (by rw [h.buildCount]; exact Nat.lt_irrefl _)

theorem Succeeds.trans (h : project.Succeeds path next linked linked')
    (h' : next.Succeeds path last linked' linked'') :
    project.Succeeds path last linked linked'' where
  kind := h'.kind.trans h.kind
  buildCount := Nat.le_trans h.buildCount h'.buildCount
  fixed hfresh := by
    obtain ⟨hnext, hmanifest, hroot⟩ := h.fixed hfresh
    obtain ⟨hlast, hmanifest', hroot'⟩ := h'.fixed hnext
    exact ⟨hlast, hmanifest'.trans hmanifest, hroot'.trans hroot⟩
  idle hsame := by
    have hnext : next.buildCount = project.buildCount :=
      Nat.le_antisymm (hsame ▸ h'.buildCount) h.buildCount
    obtain ⟨hderived, hlinked⟩ := h.idle hnext
    obtain ⟨hderived', hlinked'⟩ := h'.idle (hsame.trans hnext.symm)
    exact ⟨hderived'.trans hderived, hlinked'.trans hlinked⟩
  built hless := by
    rcases Nat.lt_or_eq_of_le h'.buildCount with hlater | hsame
    · exact h'.built hlater
    · -- the last build is one of the first step
      obtain ⟨hderived, hlinked⟩ := h'.idle hsame.symm
      rw [hlinked, hderived]
      exact h.built (hsame ▸ hless)

/-- A project that is new, and its link with a path: what it has is linked, and its roots are those
that its manifest names.  It is an auxiliary one only if something was asked. -/
structure Arises (asked : Option Path) (host : Host) (settings : Settings) (path : Path)
    (next : Project) (linked : Prop) : Prop where
  isStale : next.isStale = false
  linked : linked ↔ next.contains path = true
  named : next.kind ≠ .auxiliary → (next.hasRoot path = true ↔ ∃ manifest,
    next.manifest? = some manifest ∧
      path ∈ manifest.roots host settings.manifestFileNames settings.resolution.extensions)
  served : next.kind = .auxiliary → asked ≠ none

theorem Arises.succeeds {asked : Option Path} {host : Host} {settings : Settings}
    (h : next.Arises asked host settings path linked)
    (h' : next.Succeeds path last linked linked') (hroot : last.hasRoot path = true → linked') :
    last.Arises asked host settings path linked' := by
  obtain ⟨hstale, hmanifest, hsame⟩ := h'.fixed h.isStale
  refine ⟨hstale, ?_, fun hkind => ?_, fun hkind => h.served (h'.kind.symm.trans hkind)⟩
  · rcases Nat.lt_or_eq_of_le h'.buildCount with hless | heq
    · rw [contains_iff, ← h'.built hless]
      exact ⟨.inr, fun h => h.elim hroot fun hlinked => hlinked⟩
    · obtain ⟨hderived, hlinked⟩ := h'.idle heq.symm
      rw [hlinked, h.linked, contains_iff, contains_iff, hderived, hsame]
  · rw [hsame, hmanifest]
    exact h.named fun heq => hkind (h'.kind.trans heq)

/-- A rebuild counts, and one that reads no manifest keeps manifest and roots. -/
theorem refresh?_spec (h : project.refresh? ctx = some (rebuilt, build)) :
    rebuilt.buildCount = project.buildCount + 1 ∧
      (project.isStale = false → rebuilt.manifest? = project.manifest? ∧
        rebuilt.roots = project.roots) := by
  have hreread : (project.reread ctx).buildCount = project.buildCount := by
    unfold reread
    simp only
    split
    · split
      · split <;> rfl
      · rfl
      · rfl
    · rfl
  obtain ⟨-, -, rfl⟩ := eq_of_refresh? h
  constructor
  · refine congrArg Nat.succ ?_
    unfold prepared
    split
    · exact hreread
    · rfl
  · intro hfresh
    rw [prepared_of_fresh hfresh]
    exact ⟨rfl, rfl⟩

theorem refresh?_succeeds (h : project.refresh? ctx = some (rebuilt, build))
    (hlinked : linked' ↔ path ∈ rebuilt.members) :
    project.Succeeds path rebuilt linked linked' := by
  obtain ⟨-, hrebuilt⟩ := rebuilt_of_refresh? h
  obtain ⟨hcount, hfixed⟩ := refresh?_spec h
  have hmore : project.buildCount < rebuilt.buildCount := by
    rw [hcount]
    exact Nat.lt_succ_self _
  refine ⟨hrebuilt.kind, Nat.le_of_lt hmore, fun hfresh => ?_, fun hsame => ?_, fun _ => ?_⟩
  · obtain ⟨hmanifest, hroots⟩ := hfixed hfresh
    refine ⟨hrebuilt.isStale, hmanifest, ?_⟩
    unfold hasRoot
    rw [hroots]
  · exact absurd hsame (Nat.ne_of_gt hmore)
  · -- the members of a rebuilt project are its files
    have hmembers : rebuilt.Linked fun q => q ∈ rebuilt.members := hrebuilt.linked fun _ => Iff.rfl
    obtain ⟨files, hsettled⟩ := hmembers.settled hrebuilt.isDirty
    rw [hlinked, hsettled.links path]
    exact ⟨fun hpath => ⟨files, hsettled.derived, hpath⟩, fun ⟨_, hderived, hpath⟩ => by
      rw [hsettled.derived] at hderived
      cases hderived
      exact hpath⟩

end Project

namespace Workspace

variable {asked : Option Path} {host : Host} {w w' w'' : Workspace} {id x : ProjectId}
  {path q : Path}

theorem kind_of_manifest? {p : Project} {manifest : Manifest} (h : p.manifest? = some manifest) :
    p.kind ≠ .auxiliary := by
  unfold Project.manifest? at h
  unfold Project.kind
  split at h
  · rename_i horigin
    rw [horigin]
    exact nofun
  · cases h

/-! ## Operations that leave the links alone -/

/-- Nothing starts and nothing is built, and what the links of the path depend on stays. -/
structure Ignores (path : Path) (w w' : Workspace) : Prop where
  settings : w'.settings = w.settings
  lastNumber : w.lastNumber ≤ w'.lastNumber
  project : ∀ x p', w'.project? x = some p' → ∃ p, w.project? x = some p ∧ p.Resembles path p'
  members : ∀ x p', w'.project? x = some p' →
    (path ∈ w'.ownership.membersOf x ↔ path ∈ w.ownership.membersOf x)

theorem ignores_of_same (hsettings : w'.settings = w.settings)
    (hlast : w'.lastNumber = w.lastNumber) (hprojects : ∀ x, w'.project? x = w.project? x)
    (hownership : w'.ownership = w.ownership) : Ignores path w w' where
  settings := hsettings
  lastNumber := Nat.le_of_eq hlast.symm
  project x p hp := ⟨p, (hprojects x).symm.trans hp, p.resembles_refl path⟩
  members x p hp := by rw [hownership]

theorem ignores_refl (w : Workspace) : Ignores path w w :=
  ignores_of_same rfl rfl (fun _ => rfl) rfl

theorem documents_ignores (w : Workspace) (documents : Documents) :
    Ignores path w { w with documents } :=
  ignores_of_same rfl rfl (fun _ => rfl) rfl

theorem Ignores.trans (h : Ignores path w w') (h' : Ignores path w' w'') : Ignores path w w'' where
  settings := h'.settings.trans h.settings
  lastNumber := Nat.le_trans h.lastNumber h'.lastNumber
  project x p'' hp'' := by
    obtain ⟨p', hp', hlater⟩ := h'.project x p'' hp''
    obtain ⟨p, hp, hearlier⟩ := h.project x p' hp'
    exact ⟨p, hp, hearlier.trans hlater⟩
  members x p'' hp'' := by
    obtain ⟨p', hp', -⟩ := h'.project x p'' hp''
    exact (h'.members x p'' hp'').trans (h.members x p' hp')

theorem ignores_of_frame (hframe : Frame id w w')
    (hproject : ∀ p', w'.project? id = some p' →
      ∃ p, w.project? id = some p ∧ p.Resembles path p')
    (hmembers : ∀ p', w'.project? id = some p' →
      (path ∈ w'.ownership.membersOf id ↔ path ∈ w.ownership.membersOf id)) :
    Ignores path w w' where
  settings := hframe.settings
  lastNumber := hframe.lastNumber
  project x p' hp' := by
    by_cases hx : x = id
    · subst hx
      exact hproject p' hp'
    · exact ⟨p', (hframe.project x hx).symm.trans hp', p'.resembles_refl path⟩
  members x p' hp' := by
    by_cases hx : x = id
    · subst hx
      exact hmembers p' hp'
    · exact hframe.members x path hx

theorem ignores_foldl {α : Type} {f : Workspace → α → Workspace}
    (h : ∀ w a, Ignores path w (f w a)) (l : List α) (w : Workspace) :
    Ignores path w (l.foldl f w) :=
  List.foldlRecOn l f (ignores_refl w) fun w' hw a _ => hw.trans (h w' a)

theorem modifyProject_ignores (w : Workspace) (id : ProjectId) {f : Project → Project}
    (hf : ∀ p : Project, p.Resembles path (f p)) : Ignores path w (w.modifyProject id f) := by
  refine ignores_of_frame (frame_modifyProject w id f) (fun p' hp' => ?_) fun _ _ => Iff.rfl
  rw [project?_modifyProject, if_pos rfl] at hp'
  obtain ⟨p, hp, rfl⟩ := Option.map_eq_some_iff.1 hp'
  exact ⟨p, hp, hf p⟩

theorem touchOwners_ignores (w : Workspace) (q : Path) : Ignores path w (w.touchOwners q) :=
  ignores_foldl (fun w id => modifyProject_ignores w id fun p => p.touch_resembles path) _ w

theorem removeProject_ignores (w : Workspace) (id : ProjectId) :
    Ignores path w (w.removeProject id) := by
  have hgone : (w.removeProject id).project? id = none := by
    rw [project?_removeProject, if_pos rfl]
  refine ignores_of_frame (frame_removeProject w id) (fun p' hp' => ?_) fun p' hp' => ?_ <;>
  · rw [hgone] at hp'
    cases hp'

theorem removeProjects_ignores (w : Workspace) (ids : List ProjectId) :
    Ignores path w (w.removeProjects ids) :=
  ignores_foldl removeProject_ignores ids w

theorem addRoot_ignores (w : Workspace) (id : ProjectId) (hq : path ≠ q) :
    Ignores path w (w.addRoot id q) := by
  refine ignores_of_frame (frame_addRoot w id q) (fun p' hp' => ?_) fun _ _ => ?_
  · rw [project?_addRoot, if_pos rfl] at hp'
    obtain ⟨p, hp, rfl⟩ := Option.map_eq_some_iff.1 hp'
    exact ⟨p, hp, p.addRoot_resembles hq⟩
  · unfold Workspace.addRoot
    split
    · exact Ownership.mem_membersOf_add.trans (or_iff_left fun heq => hq heq.2)
    · exact Iff.rfl

theorem disown_ignores (w : Workspace) (id : ProjectId) (hq : path ≠ q) :
    Ignores path w (disown q w id) := by
  refine ignores_of_frame (frame_disown w id q) (fun p' hp' => ?_) fun _ _ => ?_
  · rw [project?_disown, if_pos rfl] at hp'
    obtain ⟨p, hp, rfl⟩ := Option.map_eq_some_iff.1 hp'
    exact ⟨p, hp, p.removeRoot_resembles hq⟩
  · exact Ownership.mem_membersOf_remove.trans (and_iff_left fun heq => hq heq.2)

theorem takeRoot_ignores {project : Project} (hlive : w.project? id = some project)
    (hq : path ≠ q) :
    Ignores path w
      (if (project.removeRoot q).contains q then
        w.modifyProject id fun _ => project.removeRoot q
      else (w.modifyProject id fun _ => project.removeRoot q).removeLink id q) := by
  rw [modifyProject_of_live hlive (·.removeRoot q)]
  split
  · exact modifyProject_ignores w id fun p => p.removeRoot_resembles hq
  · exact disown_ignores w id hq

theorem unroot_ignores (w : Workspace) (keep : Option ProjectId) (hq : path ≠ q) :
    Ignores path w (w.unroot q keep) := by
  have hstep : ∀ (s : Workspace × List ProjectId) (id : ProjectId),
      Ignores path s.1 (unrootFrom q s id).1 := by
    intro s id
    unfold unrootFrom
    simp only
    split
    · exact ignores_refl s.1
    · rename_i project hlive
      split
      · exact takeRoot_ignores hlive hq
      · exact ignores_refl s.1
  unfold unroot
  simp only
  generalize (w.ownership.ownersOf q).filter _ = ids
  have hfold : Ignores path w (ids.foldl (unrootFrom q) (w, [])).1 :=
    List.foldlRecOn (motive := fun s => Ignores path w s.1) ids (unrootFrom q)
      (ignores_refl w) fun s h id _ => h.trans (hstep s id)
  exact hfold.trans (removeProjects_ignores _ _)

/-- What is open is not the closed path. -/
theorem ne_of_isOpen {docs : Documents} (hclosed : docs.isOpen path = false)
    (hopen : docs.isOpen q = true) : path ≠ q := by
  rintro rfl
  rw [hopen] at hclosed
  cases hclosed

theorem takeOverOpenRoots_ignores (id : ProjectId) (hclosed : w.documents.isOpen path = false) :
    Ignores path w (w.takeOverOpenRoots id) := by
  unfold takeOverOpenRoots
  refine List.foldlRecOn _ _ (ignores_refl w) fun w' h root hroot => ?_
  exact h.trans (unroot_ignores w' (some id)
    (ne_of_isOpen hclosed (mem_contestedRoots.1 hroot).2.1))

theorem opening_ignores (w : Workspace) (q : Path) (opened : Documents.Opened)
    (documents : Documents) : Ignores path w (w.opening q opened documents) := by
  have hdropped : Ignores path w ({ w with documents }.dropStandIns q) :=
    (documents_ignores w documents).trans (removeProjects_ignores _ _)
  unfold opening
  simp only
  split
  · exact hdropped.trans (touchOwners_ignores _ q)
  · exact hdropped

theorem closeFile_ignores (w : Workspace) (hq : path ≠ q) :
    Ignores path w (w.closeFile q).2 := by
  have hstep : ∀ (s : Workspace × List ProjectId) (id : ProjectId),
      Ignores path s.1 (closeIn q s id).1 := by
    intro s id
    unfold closeIn
    simp only
    split
    · exact ignores_refl s.1
    · rename_i project hlive
      split
      · exact takeRoot_ignores hlive hq
      · exact modifyProject_ignores s.1 id fun p => p.touch_resembles path
  unfold closeFile
  split
  · exact ignores_refl w
  · rename_i documents _
    have hfold : Ignores path w
        ((w.ownership.ownersOf q).foldl (closeIn q) ({ w with documents }, [])).1 :=
      List.foldlRecOn (motive := fun s => Ignores path w s.1) _ (closeIn q)
        (documents_ignores w documents) fun s h id _ => h.trans (hstep s id)
    simp only
    generalize (w.ownership.ownersOf q).foldl (closeIn q) ({ w with documents }, []) =
      state at hfold ⊢
    have hremoved : Ignores path w (state.1.removeProjects state.2) :=
      hfold.trans (removeProjects_ignores _ _)
    unfold forgetUnowned
    split
    · exact hremoved
    · exact hremoved.trans (documents_ignores _ _)

theorem editFile_ignores (w : Workspace) (q : Path) (change : TextChange) (version : Nat) :
    Ignores path w (w.editFile q change version).2 := by
  unfold editFile
  split
  · exact ignores_refl w
  · rename_i documents _
    exact (documents_ignores w documents).trans (touchOwners_ignores _ q)

theorem fileModified_ignores (host : Host) (w : Workspace) (q : Path) :
    Ignores path w (w.fileModified host q).2 := by
  rcases fileModified_eq host w q with hsame | ⟨_, changed, documents, -, -, hnext⟩
  · rw [hsame]
    exact ignores_refl w
  · have hwritten : Ignores path w { w with documents } := documents_ignores w documents
    rw [hnext]
    split
    · exact hwritten.trans (touchOwners_ignores _ q)
    · exact hwritten

theorem fileDeleted_ignores (w : Workspace) (hq : path ≠ q) :
    Ignores path w (w.fileDeleted q) := by
  unfold fileDeleted
  split
  · exact ignores_refl w
  · exact ((removeProjects_ignores w _).trans
      (ignores_foldl (fun w id => disown_ignores w id hq) _ _)).trans (documents_ignores _ _)

theorem foldl_touch_ignores (w : Workspace) (ids : List ProjectId) :
    Ignores path w (ids.foldl (fun w id => w.modifyProject id Project.touch) w) :=
  ignores_foldl (fun w id => modifyProject_ignores w id fun p => p.touch_resembles path) ids w

/-- A path becomes a root of a project, which takes over what is open. -/
theorem isOpen_claim (w : Workspace) (id : ProjectId) (q r : Path) :
    ((w.addRoot id q).takeOverOpenRoots id).documents.isOpen r = w.documents.isOpen r := by
  have hmoves : Moves Memory.empty.host w ((w.addRoot id q).takeOverOpenRoots id) :=
    (Move.addRoot w id q).moves.trans (takeOverOpenRoots_moves _ id)
  exact hmoves.isOpen r

/-- Another file is created. -/
theorem fileCreated_ignores (hclosed : w.documents.isOpen path = false) (hq : path ≠ q) :
    Ignores path w (w.fileCreated q) := by
  have hfold : ∀ (ids : List ProjectId) (w₁ : Workspace), w₁.documents.isOpen path = false →
      Ignores path w₁ (ids.foldl (fun w id => (w.addRoot id q).takeOverOpenRoots id) w₁) := by
    intro ids
    induction ids with
    | nil => exact fun w₁ _ => ignores_refl w₁
    | cons id rest ih =>
      intro w₁ hclosed
      have hadded : (w₁.addRoot id q).documents.isOpen path = false := by
        unfold Workspace.addRoot
        split <;> exact hclosed
      exact ((addRoot_ignores w₁ id hq).trans (takeOverOpenRoots_ignores id hadded)).trans
        (ih _ ((isOpen_claim w₁ id q path).trans hclosed))
  have hmoves : Moves Memory.empty.host w _ :=
    Moves.foldl (fun w id => (Move.touch w id).moves)
      ((w.projectList.filter hopes).map Project.id) w
  unfold fileCreated
  exact (foldl_touch_ignores w _).trans (hfold _ _ ((hmoves.isOpen path).trans hclosed))

/-! ## Operations that start or build projects -/

/-- The links of the path change by starting and building projects only. -/
structure Overlooks (asked : Option Path) (host : Host) (path : Path) (w w' : Workspace) :
    Prop where
  settings : w'.settings = w.settings
  lastNumber : w.lastNumber ≤ w'.lastNumber
  old : ∀ x p p', w.project? x = some p → w'.project? x = some p' →
    p.Succeeds path p' (path ∈ w.ownership.membersOf x) (path ∈ w'.ownership.membersOf x)
  new : ∀ x p', w.project? x = none → w'.project? x = some p' → w.lastNumber < x.number ∧
    p'.Arises asked host w.settings path (path ∈ w'.ownership.membersOf x)

theorem Ignores.overlooks (h : Ignores path w w') : Overlooks asked host path w w' where
  settings := h.settings
  lastNumber := h.lastNumber
  old x p p' hp hp' := by
    obtain ⟨before, hbefore, hresembles⟩ := h.project x p' hp'
    rw [hp] at hbefore
    cases hbefore
    exact hresembles.succeeds (h.members x p' hp')
  new x p' hnone hp' := by
    obtain ⟨p, hp, -⟩ := h.project x p' hp'
    rw [hnone] at hp
    cases hp

theorem overlooks_refl (w : Workspace) : Overlooks asked host path w w :=
  (ignores_refl w).overlooks

/-- A project that has ended stays so. -/
theorem Overlooks.live (h : Overlooks asked host path w w')
    (h' : Overlooks asked host path w' w'') (hw : Consistent w) {p p'' : Project}
    (hp : w.project? x = some p) (hp'' : w''.project? x = some p'') :
    ∃ p', w'.project? x = some p' := by
  cases hnone : w'.project? x with
  | some p' => exact ⟨p', rfl⟩
  | none =>
    have hlater := (h'.new x p'' hnone hp'').1
    have hearlier := hw.numbered x p hp
    have hlast := h.lastNumber
    omega

theorem Overlooks.trans (h : Overlooks asked host path w w')
    (h' : Overlooks asked host path w' w'') (hw : Consistent w) (hw'' : Consistent w'') :
    Overlooks asked host path w w'' where
  settings := h'.settings.trans h.settings
  lastNumber := Nat.le_trans h.lastNumber h'.lastNumber
  old x p p'' hp hp'' := by
    obtain ⟨p', hp'⟩ := h.live h' hw hp hp''
    exact (h.old x p p' hp hp').trans (h'.old x p' p'' hp' hp'')
  new x p'' hnone hp'' := by
    cases hlive : w'.project? x with
    | none =>
      obtain ⟨hnumber, harises⟩ := h'.new x p'' hlive hp''
      rw [h.settings] at harises
      exact ⟨Nat.lt_of_le_of_lt h.lastNumber hnumber, harises⟩
    | some p' =>
      obtain ⟨hnumber, harises⟩ := h.new x p' hnone hlive
      exact ⟨hnumber, harises.succeeds (h'.old x p' p'' hlive hp'')
        fun hroot => (hw''.linked x p'' hp'').roots path (Project.hasRoot_iff.1 hroot)⟩

end Workspace

end Codebase
