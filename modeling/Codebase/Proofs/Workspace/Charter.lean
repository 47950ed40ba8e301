import Codebase.Proofs.Workspace.Holder
/-!
# What a project is for good

The charter of a project is its kind, and the place of its manifest if it has one.  No change of a
project changes its charter, so what an operation does to `charter?` says which projects it starts
and which it ends:

* `charter?_addProject`, `charter?_removeProjects`, … — one law for each small operation.
* `Thins` — what taking roots away comes to: only inferred projects go, and those that stay keep a
  root.
* `unroot_thins`, `closeFile_thins` — the two operations that take roots away.
-/

namespace Codebase

/-- What a project is for good. -/
inductive Charter where
  | inferred
  | configured (manifestPath : Path)
  | auxiliary
  deriving DecidableEq

def Charter.kind : Charter → ProjectKind
  | inferred => .inferred
  | configured _ => .configured
  | auxiliary => .auxiliary

namespace Project

variable {project rebuilt : Project} {ctx : Context} {build : Build} {path : Path}

def charter (project : Project) : Charter :=
  match project.origin with
  | .inferred => .inferred
  | .configured manifestPath _ => .configured manifestPath
  | .auxiliary => .auxiliary

theorem kind_eq (project : Project) : project.kind = project.charter.kind := by
  unfold kind charter
  cases project.origin <;> rfl

theorem manifestPath?_eq_some_iff :
    project.manifestPath? = some path ↔ project.charter = .configured path := by
  unfold manifestPath? charter
  cases project.origin <;> simp

/-- Without a manifest a charter is no more than a kind. -/
theorem charter_eq_iff {charter : Charter} (h : charter.kind ≠ .configured) :
    project.charter = charter ↔ project.kind = charter.kind := by
  rw [kind_eq]
  cases charter with
  | configured _ => exact absurd rfl h
  | inferred => cases project.charter <;> simp [Charter.kind]
  | auxiliary => cases project.charter <;> simp [Charter.kind]

theorem charter_eq_configured :
    (∃ path, project.charter = .configured path) ↔ project.kind = .configured := by
  rw [kind_eq]
  cases project.charter <;> simp [Charter.kind]

/-- A manifest that is read again is the one that governs the project already. -/
theorem charter_reread (project : Project) (ctx : Context) :
    (project.reread ctx).charter = project.charter := by
  unfold reread
  simp only
  split
  · rename_i manifestPath directory hpath _
    have hcharter : project.charter = .configured manifestPath := manifestPath?_eq_some_iff.1 hpath
    split
    · split
      · rename_i hsame
        rw [hcharter, ← hsame]
        rfl
      · rw [hcharter]
        rfl
    · rw [hcharter]
      rfl
    · rw [hcharter]
      rfl
  · rfl

theorem charter_of_refresh? (h : project.refresh? ctx = some (rebuilt, build)) :
    rebuilt.charter = project.charter := by
  obtain ⟨-, -, rfl⟩ := eq_of_refresh? h
  unfold prepared
  split
  · exact charter_reread project ctx
  · rfl

/-- The charter of a project never changes. -/
theorem enduring_charter (charter : Charter) : Enduring fun p => p.charter = charter where
  touch _ h := h
  outdate _ h := h
  addRoot _ _ h := h
  removeRoot _ _ h := h
  refresh? hbuilt h := (charter_of_refresh? hbuilt).trans h

end Project

namespace Workspace

variable {host : Host} {w w' : Workspace} {id x : ProjectId} {path q : Path} {charter : Charter}
  {ids : List ProjectId}

/-- The charter of a live project. -/
def charter? (w : Workspace) (id : ProjectId) : Option Charter :=
  (w.project? id).map Project.charter

theorem charter?_eq_some :
    w.charter? id = some charter ↔ ∃ p, w.project? id = some p ∧ p.charter = charter :=
  Option.map_eq_some_iff

theorem charter?_congr (h : w'.project? id = w.project? id) : w'.charter? id = w.charter? id := by
  unfold charter?
  rw [h]

theorem charter?_of_live {p : Project} (charter : Charter) (hplain : charter.kind ≠ .configured)
    (hlive : w.project? id = some p) (hkind : p.kind = charter.kind) :
    w.charter? id = some charter :=
  charter?_eq_some.2 ⟨p, hlive, (Project.charter_eq_iff hplain).2 hkind⟩

/-- A root of a project tells its charter, unless it is a configured one. -/
theorem charter?_of_rootKind (charter : Charter) (hplain : charter.kind ≠ .configured)
    (h : w.rootKind path id = some charter.kind) : w.charter? id = some charter := by
  obtain ⟨p, hp, -, hkind⟩ := rootKind_eq_some.1 h
  exact charter?_of_live charter hplain hp hkind

theorem kind_of_charter? {p : Project} (hlive : w.project? id = some p)
    (h : w.charter? id = some charter) : p.kind = charter.kind := by
  obtain ⟨p', hp', rfl⟩ := charter?_eq_some.1 h
  rw [hlive] at hp'
  cases hp'
  exact Project.kind_eq p

/-- Having a root, a project has the kind of its charter. -/
theorem rootKind_of_charter? {kind : ProjectKind} (h : w.charter? id = some charter)
    (hroot : w.rootKind path id = some kind) : kind = charter.kind := by
  obtain ⟨p, hp, -, rfl⟩ := rootKind_eq_some.1 hroot
  exact kind_of_charter? hp h

/-! ## Small operations -/

theorem charter?_modifyProject (f : Project → Project) (hf : ∀ p, (f p).charter = p.charter)
    (id x : ProjectId) : (w.modifyProject id f).charter? x = w.charter? x := by
  unfold charter?
  rw [project?_modifyProject]
  split
  · rw [Option.map_map]
    exact congrFun (congrArg Option.map (funext hf)) _
  · rfl

@[simp] theorem charter?_touch (w : Workspace) (id x : ProjectId) :
    (w.modifyProject id Project.touch).charter? x = w.charter? x :=
  charter?_modifyProject Project.touch (fun _ => rfl) id x

@[simp] theorem charter?_outdate (w : Workspace) (id x : ProjectId) :
    (w.modifyProject id Project.outdate).charter? x = w.charter? x :=
  charter?_modifyProject Project.outdate (fun _ => rfl) id x

@[simp] theorem charter?_addRoot (w : Workspace) (id : ProjectId) (path : Path) (x : ProjectId) :
    (w.addRoot id path).charter? x = w.charter? x := by
  unfold charter?
  rw [project?_addRoot]
  split
  · rw [Option.map_map]
    rfl
  · rfl

theorem charter?_removeRoot (w : Workspace) (id : ProjectId) (path : Path) (x : ProjectId) :
    (w.modifyProject id (·.removeRoot path)).charter? x = w.charter? x :=
  charter?_modifyProject (·.removeRoot path) (fun _ => rfl) id x

@[simp] theorem charter?_disown (w : Workspace) (id : ProjectId) (path : Path) (x : ProjectId) :
    (disown path w id).charter? x = w.charter? x :=
  charter?_removeRoot w id path x

theorem charter?_foldl_disown (w : Workspace) (ids : List ProjectId) (path : Path)
    (x : ProjectId) : (ids.foldl (disown path) w).charter? x = w.charter? x := by
  induction ids generalizing w with
  | nil => rfl
  | cons id rest ih => rw [List.foldl_cons, ih, charter?_disown]

theorem charter?_addProject (w : Workspace) (make : ProjectId → Project) (x : ProjectId) :
    (w.addProject make).2.charter? x =
      if x = ⟨w.lastNumber + 1⟩ then some (make ⟨w.lastNumber + 1⟩).charter else w.charter? x := by
  unfold charter?
  rw [project?_addProject]
  split <;> rfl

theorem charter?_addStandIn (w : Workspace) (path : Path) (x : ProjectId) :
    (w.addStandIn path).2.charter? x =
      if x = ⟨w.lastNumber + 1⟩ then some .auxiliary else w.charter? x := by
  unfold charter?
  rw [project?_addStandIn]
  split <;> rfl

theorem charter?_removeProject (w : Workspace) (id x : ProjectId) :
    (w.removeProject id).charter? x = if x = id then none else w.charter? x := by
  unfold charter?
  rw [project?_removeProject]
  split <;> rfl

theorem charter?_removeProjects (w : Workspace) (ids : List ProjectId) (x : ProjectId) :
    (w.removeProjects ids).charter? x = if x ∈ ids then none else w.charter? x := by
  unfold removeProjects
  induction ids generalizing w with
  | nil => simp
  | cons id rest ih =>
    rw [List.foldl_cons, ih, charter?_removeProject]
    by_cases hx : x = id <;> simp [hx]

theorem charter?_record {project rebuilt : Project} {build : Build}
    (hlive : w.project? id = some project)
    (hbuilt : project.refresh? (w.context host) = some (rebuilt, build)) (x : ProjectId) :
    (w.record id rebuilt build).charter? x = w.charter? x := by
  by_cases hx : x = id
  · subst hx
    unfold charter?
    rw [project?_record_self hlive, hlive, Option.map_some, Option.map_some,
      Project.charter_of_refresh? hbuilt]
  · exact charter?_congr (by rw [project?_record, if_neg hx])

/-- The auxiliary projects that own the path are gone. -/
theorem charter?_dropStandIns (w : Workspace) (path : Path) (x : ProjectId) :
    (w.dropStandIns path).charter? x =
      if x ∈ w.ownership.ownersOf path ∧ w.charter? x = some .auxiliary then none
      else w.charter? x := by
  have hmem : x ∈ (w.ownership.ownersOf path).filter (fun id =>
      (w.project? id).any fun p => p.kind = .auxiliary) ↔
      x ∈ w.ownership.ownersOf path ∧ w.charter? x = some .auxiliary := by
    have hplain : Charter.auxiliary.kind ≠ .configured := nofun
    rw [List.mem_filter, Option.any_eq_true, charter?_eq_some]
    simp only [decide_eq_true_eq, Project.charter_eq_iff hplain, Charter.kind]
  unfold dropStandIns
  rw [charter?_removeProjects]
  simp only [hmem]

/-- The auxiliary projects of the path are gone. -/
theorem charter?_fileDeleted (h : Consistent w) (hclosed : w.documents.isOpen path = false)
    (x : ProjectId) :
    (w.fileDeleted path).charter? x =
      if w.rootKind path x = some .auxiliary then none else w.charter? x := by
  unfold fileDeleted
  rw [if_neg (by rw [hclosed]; exact Bool.false_ne_true)]
  refine (charter?_foldl_disown _ _ path x).trans ?_
  rw [charter?_removeProjects]
  simp only [mem_standIns h]

/-! ## Taking roots away -/

/-- Only inferred projects go, and an inferred project that stays has a root if it had one. -/
structure Thins (w w' : Workspace) : Prop where
  old : ∀ x charter, w'.charter? x = some charter → w.charter? x = some charter
  stays : ∀ x charter, charter ≠ .inferred → w.charter? x = some charter →
    w'.charter? x = some charter
  rooted : ∀ x q, w.rootKind q x = some .inferred → w'.charter? x = some .inferred →
    ∃ r, w'.rootKind r x = some .inferred

/-- Taking a root from project after project, and listing the inferred ones that are left without
roots. -/
structure Thinning (w : Workspace) (s : Workspace × List ProjectId) : Prop where
  charter : ∀ x, s.1.charter? x = w.charter? x
  listed : ∀ x ∈ s.2, w.charter? x = some .inferred
  rooted : ∀ x q, w.rootKind q x = some .inferred →
    (∃ r, s.1.rootKind r x = some .inferred) ∨ x ∈ s.2

theorem thinning_refl (w : Workspace) : Thinning w (w, []) where
  charter _ := rfl
  listed _ h := absurd h List.not_mem_nil
  rooted _ q h := .inl ⟨q, h⟩

theorem charter?_takeRoot {project : Project} (hlive : w.project? id = some project) (path : Path)
    (x : ProjectId) :
    (if (project.removeRoot path).contains path then
        w.modifyProject id fun _ => project.removeRoot path
      else (w.modifyProject id fun _ => project.removeRoot path).removeLink id path).charter? x =
      w.charter? x := by
  rw [modifyProject_of_live hlive (·.removeRoot path), ← charter?_removeRoot w id path x]
  split <;> rfl

/-- Another root goes, and the project is listed if it was the last one. -/
theorem Thinning.takeRoot {s : Workspace × List ProjectId} {project : Project} (h : Thinning w s)
    (hlive : s.1.project? id = some project) (path : Path) :
    Thinning w
      (if (project.removeRoot path).contains path then
        s.1.modifyProject id fun _ => project.removeRoot path
      else (s.1.modifyProject id fun _ => project.removeRoot path).removeLink id path,
      if project.kind = .inferred ∧ (project.removeRoot path).roots.isEmpty = true then
        s.2 ++ [id]
      else s.2) where
  charter x := (charter?_takeRoot hlive path x).trans (h.charter x)
  listed x hx := by
    simp only at hx
    split at hx
    · rename_i hempty
      rcases List.mem_append.1 hx with hx | hx
      · exact h.listed x hx
      · rw [List.mem_singleton.1 hx, ← h.charter]
        exact charter?_of_live .inferred nofun hlive hempty.1
    · exact h.listed x hx
  rooted x q hq := by
    simp only [rootKind_takeRoot hlive]
    by_cases hx : x = id
    · subst hx
      have hkind : project.kind = .inferred := by
        have hcharter := charter?_of_rootKind .inferred nofun hq
        rw [← h.charter] at hcharter
        exact kind_of_charter? hlive hcharter
      by_cases hempty : (project.removeRoot path).roots.isEmpty = true
      · rw [if_pos ⟨hkind, hempty⟩]
        exact .inr (List.mem_append_right _ (List.mem_singleton.2 rfl))
      · -- a root that is left is not the one that goes
        obtain ⟨r, hr⟩ := List.exists_mem_of_ne_nil _ (mt List.isEmpty_iff.2 hempty)
        obtain ⟨hroot, hne⟩ := Project.hasRoot_removeRoot.1 (Project.hasRoot_iff.2 hr)
        refine .inl ⟨r, ?_⟩
        rw [if_neg fun heq => hne heq.2, rootKind_of_live hlive, if_pos hroot, hkind]
    · simp only [if_neg fun heq : x = id ∧ _ => hx heq.1]
      refine (h.rooted x q hq).imp_right fun hlisted => ?_
      split
      · exact List.mem_append_left _ hlisted
      · exact hlisted

theorem Thinning.unrootFrom {s : Workspace × List ProjectId} (h : Thinning w s) (path : Path)
    (id : ProjectId) : Thinning w (unrootFrom path s id) := by
  unfold Workspace.unrootFrom
  simp only
  split
  · exact h
  · rename_i project hlive
    split
    · exact h.takeRoot hlive path
    · exact h

theorem Thinning.closeIn {s : Workspace × List ProjectId} (h : Thinning w s) (path : Path)
    (id : ProjectId) : Thinning w (closeIn path s id) := by
  unfold Workspace.closeIn
  simp only
  split
  · exact h
  · rename_i project hlive
    split
    · rename_i hinferred
      have htaken := h.takeRoot hlive path
      simp only [hinferred.1, true_and] at htaken
      exact htaken
    · refine ⟨fun x => (charter?_touch _ _ x).trans (h.charter x), h.listed, fun x q hq => ?_⟩
      simp only [rootKind_touch]
      exact h.rooted x q hq

/-- The listed projects go. -/
theorem Thinning.thins {s : Workspace × List ProjectId} (h : Thinning w s) :
    Thins w (s.1.removeProjects s.2) where
  old x charter hx := by
    rw [charter?_removeProjects] at hx
    split at hx
    · cases hx
    · rw [← h.charter]
      exact hx
  stays x charter hne hx := by
    rw [charter?_removeProjects, if_neg, h.charter]
    · exact hx
    · intro hlisted
      rw [h.listed x hlisted] at hx
      cases hx
      exact hne rfl
  rooted x q hq hx := by
    rw [charter?_removeProjects] at hx
    split at hx
    · cases hx
    · rename_i hleft
      obtain ⟨r, hr⟩ := (h.rooted x q hq).resolve_right hleft
      refine ⟨r, ?_⟩
      rw [rootKind_removeProjects, if_neg hleft]
      exact hr

theorem unroot_thins (w : Workspace) (path : Path) (keep : Option ProjectId) :
    Thins w (w.unroot path keep) := by
  have hfold := List.foldlRecOn ((w.ownership.ownersOf path).filter fun id => some id ≠ keep)
    (Workspace.unrootFrom path) (thinning_refl w) fun _ hs id _ => hs.unrootFrom path id
  exact hfold.thins

theorem closeFile_thins {documents : Documents} (h : w.documents.close path = .ok documents) :
    Thins w (w.closeFile path).2 := by
  have hfold := List.foldlRecOn (w.ownership.ownersOf path) (Workspace.closeIn path)
    (thinning_refl { w with documents }) fun _ hs id _ => hs.closeIn path id
  have hthins := hfold.thins
  unfold closeFile
  rw [h]
  simp only
  unfold forgetUnowned
  split
  · exact ⟨hthins.old, hthins.stays, hthins.rooted⟩
  · exact ⟨hthins.old, hthins.stays, hthins.rooted⟩

end Workspace

end Codebase
