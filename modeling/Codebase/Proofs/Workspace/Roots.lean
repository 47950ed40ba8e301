import Codebase.Host.Memory
import Codebase.Proofs.Workspace.Consistent
/-!
# Who has a root

`rootKind w path id` is the kind of the project `id`, if that project has `path` as a root.  Each
operation that moves roots between projects has one law that says what it does to this view:

* `rootKind_unroot` — nobody has the root afterwards, except the one that keeps it.
* `rootKind_takeOverOpenRoots` — the open roots of the project are its own afterwards.
* `Passes` — what starting a configured project and a rebuild have in common: an open root stays
  where it is, or one configured project has it alone.
-/

namespace Codebase.Workspace

variable {host : Host} {w w' : Workspace} {id x : ProjectId} {path q : Path} {kind : ProjectKind}
  {ids : List ProjectId}

/-- The kind of a project, if it has `path` as a root. -/
def rootKind (w : Workspace) (path : Path) (id : ProjectId) : Option ProjectKind :=
  ((w.project? id).filter fun p => p.hasRoot path).map Project.kind

theorem rootKind_eq_some : w.rootKind path id = some kind ↔
    ∃ p, w.project? id = some p ∧ p.hasRoot path = true ∧ p.kind = kind := by
  unfold rootKind
  simp only [Option.map_eq_some_iff, Option.filter_eq_some_iff, and_assoc]

theorem rootKind_of_none (h : w.project? id = none) : w.rootKind path id = none := by
  unfold rootKind
  rw [h]
  rfl

theorem rootKind_of_live {p : Project} (h : w.project? id = some p) :
    w.rootKind path id = if p.hasRoot path = true then some p.kind else none := by
  unfold rootKind
  rw [h, Option.filter_some]
  split <;> rfl

theorem rootKind_congr (h : w'.project? id = w.project? id) :
    w'.rootKind path id = w.rootKind path id := by
  unfold rootKind
  rw [h]

theorem hasRoot_eq_isSome : w.hasRoot path id = (w.rootKind path id).isSome := by
  unfold hasRoot
  cases hp : w.project? id with
  | none =>
    rw [rootKind_of_none hp]
    rfl
  | some p =>
    rw [rootKind_of_live hp, Option.any_some]
    split
    · rename_i hroot
      rw [hroot]
      rfl
    · rename_i hroot
      rw [Bool.eq_false_iff.2 hroot]
      rfl

/-- A project that has a root is listed as an owner of it. -/
theorem Consistent.owner_of_rootKind (h : Consistent w) (hroot : w.rootKind path id = some kind) :
    id ∈ w.ownership.ownersOf path := by
  obtain ⟨p, hp, hpath, -⟩ := rootKind_eq_some.1 hroot
  exact h.owner_of_root hp hpath

/-! ## Changes of one project -/

/-- A change that keeps the kind and the roots of a project. -/
theorem rootKind_modifyProject (f : Project → Project) (hkind : ∀ p, (f p).kind = p.kind)
    (hroots : ∀ p, (f p).roots = p.roots) (q : Path) (x : ProjectId) :
    (w.modifyProject id f).rootKind q x = w.rootKind q x := by
  unfold rootKind
  rw [project?_modifyProject]
  split
  · cases w.project? x with
    | none => rfl
    | some p =>
      have hroot : (f p).hasRoot q = p.hasRoot q := by
        unfold Project.hasRoot
        rw [hroots]
      rw [Option.map_some, Option.filter_some, Option.filter_some, hroot]
      split
      · exact congrArg some (hkind p)
      · rfl
  · rfl

@[simp] theorem rootKind_touch (w : Workspace) (id : ProjectId) (q : Path) (x : ProjectId) :
    (w.modifyProject id Project.touch).rootKind q x = w.rootKind q x :=
  rootKind_modifyProject Project.touch (fun _ => rfl) (fun _ => rfl) q x

@[simp] theorem rootKind_outdate (w : Workspace) (id : ProjectId) (q : Path) (x : ProjectId) :
    (w.modifyProject id Project.outdate).rootKind q x = w.rootKind q x :=
  rootKind_modifyProject Project.outdate (fun _ => rfl) (fun _ => rfl) q x

theorem rootKind_foldl_touch (w : Workspace) (ids : List ProjectId) (q : Path) (x : ProjectId) :
    (ids.foldl (fun w id => w.modifyProject id Project.touch) w).rootKind q x =
      w.rootKind q x := by
  induction ids generalizing w with
  | nil => rfl
  | cons id rest ih => rw [List.foldl_cons, ih, rootKind_touch]

@[simp] theorem rootKind_touchOwners (w : Workspace) (path q : Path) (x : ProjectId) :
    (w.touchOwners path).rootKind q x = w.rootKind q x :=
  rootKind_foldl_touch w _ q x

theorem rootKind_addRoot (w : Workspace) (id : ProjectId) (path q : Path) (x : ProjectId) :
    (w.addRoot id path).rootKind q x =
      if x = id ∧ q = path then (w.project? id).map Project.kind else w.rootKind q x := by
  by_cases hx : x = id
  · subst hx
    cases hp : w.project? x with
    | none =>
      have hsame : (w.addRoot x path).project? x = none := by
        rw [project?_addRoot, if_pos rfl, hp]
        rfl
      rw [rootKind_of_none hsame, rootKind_of_none hp]
      split <;> rfl
    | some p =>
      have hadded : (w.addRoot x path).project? x = some (p.addRoot path) := by
        rw [project?_addRoot, if_pos rfl, hp]
        rfl
      rw [rootKind_of_live hadded, rootKind_of_live hp]
      by_cases hq : q = path
      · rw [if_pos (Project.hasRoot_addRoot.2 (.inr hq)), if_pos ⟨rfl, hq⟩]
        rfl
      · simp [hq, Project.hasRoot_addRoot]
  · rw [if_neg fun h => hx h.1]
    exact rootKind_congr (by rw [project?_addRoot, if_neg hx])

theorem rootKind_removeRoot (w : Workspace) (id : ProjectId) (path q : Path) (x : ProjectId) :
    (w.modifyProject id (·.removeRoot path)).rootKind q x =
      if x = id ∧ q = path then none else w.rootKind q x := by
  by_cases hx : x = id
  · subst hx
    cases hp : w.project? x with
    | none =>
      have hsame : (w.modifyProject x (·.removeRoot path)).project? x = none := by
        rw [project?_modifyProject, if_pos rfl, hp]
        rfl
      rw [rootKind_of_none hsame, rootKind_of_none hp]
      split <;> rfl
    | some p =>
      have hremoved : (w.modifyProject x (·.removeRoot path)).project? x =
          some (p.removeRoot path) := by
        rw [project?_modifyProject, if_pos rfl, hp]
        rfl
      rw [rootKind_of_live hremoved, rootKind_of_live hp]
      simp only [Project.hasRoot_removeRoot, Project.kind_removeRoot]
      by_cases hq : q = path <;> simp [hq]
  · rw [if_neg fun h => hx h.1]
    exact rootKind_congr (by rw [project?_modifyProject, if_neg hx])

theorem rootKind_disown (w : Workspace) (id : ProjectId) (path q : Path) (x : ProjectId) :
    (disown path w id).rootKind q x = if x = id ∧ q = path then none else w.rootKind q x :=
  rootKind_removeRoot w id path q x

theorem rootKind_foldl_disown (w : Workspace) (ids : List ProjectId) (path q : Path)
    (x : ProjectId) :
    (ids.foldl (disown path) w).rootKind q x =
      if x ∈ ids ∧ q = path then none else w.rootKind q x := by
  induction ids generalizing w with
  | nil => simp
  | cons id rest ih =>
    rw [List.foldl_cons, ih, rootKind_disown]
    by_cases hq : q = path <;> by_cases hx : x = id <;> simp [hq, hx]

theorem rootKind_removeProject (w : Workspace) (id : ProjectId) (q : Path) (x : ProjectId) :
    (w.removeProject id).rootKind q x = if x = id then none else w.rootKind q x := by
  split
  · exact rootKind_of_none (by rw [project?_removeProject, if_pos ‹_›])
  · exact rootKind_congr (by rw [project?_removeProject, if_neg ‹_›])

theorem rootKind_removeProjects (w : Workspace) (ids : List ProjectId) (q : Path) (x : ProjectId) :
    (w.removeProjects ids).rootKind q x = if x ∈ ids then none else w.rootKind q x := by
  unfold removeProjects
  induction ids generalizing w with
  | nil => simp
  | cons id rest ih =>
    rw [List.foldl_cons, ih, rootKind_removeProject]
    by_cases hx : x = id <;> simp [hx]

/-- A new project without roots. -/
theorem rootKind_addProject (h : Consistent w) {make : ProjectId → Project}
    (hroots : ∀ id, (make id).roots = Roster.empty) (q : Path) (x : ProjectId) :
    (w.addProject make).2.rootKind q x = w.rootKind q x := by
  by_cases hx : x = ⟨w.lastNumber + 1⟩
  · subst hx
    have hnew : (w.addProject make).2.project? ⟨w.lastNumber + 1⟩ =
        some (make ⟨w.lastNumber + 1⟩) := by
      rw [project?_addProject, if_pos rfl]
    have hroot : (make ⟨w.lastNumber + 1⟩).hasRoot q = false := by
      unfold Project.hasRoot
      rw [hroots]
      rfl
    rw [rootKind_of_live hnew, rootKind_of_none h.fresh, hroot]
    rfl
  · exact rootKind_congr (by rw [project?_addProject, if_neg hx])

theorem rootKind_addStandIn (h : Consistent w) (path q : Path) (x : ProjectId) :
    (w.addStandIn path).2.rootKind q x =
      if x = ⟨w.lastNumber + 1⟩ ∧ q = path then some .auxiliary else w.rootKind q x := by
  by_cases hx : x = ⟨w.lastNumber + 1⟩
  · subst hx
    have hnew : (w.addStandIn path).2.project? ⟨w.lastNumber + 1⟩ =
        some (.auxiliary ⟨w.lastNumber + 1⟩ path) := by
      rw [project?_addStandIn, if_pos rfl]
    have hroot : (Project.auxiliary ⟨w.lastNumber + 1⟩ path).hasRoot q = true ↔ q = path := by
      rw [Project.hasRoot_iff]
      exact Roster.mem_insert.trans (or_iff_right nofun)
    rw [rootKind_of_live hnew, rootKind_of_none h.fresh]
    simp only [hroot, true_and]
    rfl
  · rw [if_neg fun h => hx h.1]
    exact rootKind_congr (by rw [project?_addStandIn, if_neg hx])

/-! ## Taking a root away -/

/-- A root is gone whether or not its link is. -/
theorem rootKind_takeRoot {project : Project} (hlive : w.project? id = some project) (path q : Path)
    (x : ProjectId) :
    (if (project.removeRoot path).contains path then
        w.modifyProject id fun _ => project.removeRoot path
      else (w.modifyProject id fun _ => project.removeRoot path).removeLink id path).rootKind q x =
      if x = id ∧ q = path then none else w.rootKind q x := by
  rw [modifyProject_of_live hlive (·.removeRoot path), ← rootKind_removeRoot]
  split <;> rfl

/-- A project that has lost its last root has none. -/
theorem rootKind_takeRoot_of_isEmpty {project : Project} (hlive : w.project? id = some project)
    (hempty : (project.removeRoot path).roots.isEmpty = true) (q : Path) :
    (if (project.removeRoot path).contains path then
        w.modifyProject id fun _ => project.removeRoot path
      else (w.modifyProject id fun _ => project.removeRoot path).removeLink id path).rootKind q id =
      none := by
  rw [rootKind_takeRoot hlive, rootKind_of_live hlive]
  by_cases hq : q = path
  · simp [hq]
  · have hroot : project.hasRoot q ≠ true := fun hroot => by
      have hleft := Project.hasRoot_iff.1 (Project.hasRoot_removeRoot.2 ⟨hroot, hq⟩)
      rw [← Roster.mem_toList, List.isEmpty_iff.1 hempty] at hleft
      exact List.not_mem_nil hleft
    rw [if_neg fun h => hq h.2, if_neg hroot]

/-- A fold that takes the root `path` from project after project, where `taken` says from which kind
it is taken.  The projects that it lists are left without roots. -/
theorem foldl_taking {step : Workspace × List ProjectId → ProjectId → Workspace × List ProjectId}
    (taken : Option ProjectKind → Prop) [DecidablePred taken]
    (hroots : ∀ s id q x, (step s id).1.rootKind q x =
      if x = id ∧ q = path ∧ taken (s.1.rootKind q x) then none else s.1.rootKind q x)
    (hemptied : ∀ s id, ∀ x ∈ (step s id).2,
      x ∈ s.2 ∨ x = id ∧ ∀ q, (step s id).1.rootKind q x = none)
    (ids : List ProjectId) (s : Workspace × List ProjectId)
    (hs : ∀ x ∈ s.2, ∀ q, s.1.rootKind q x = none) :
    (∀ q x, (ids.foldl step s).1.rootKind q x =
      if x ∈ ids ∧ q = path ∧ taken (s.1.rootKind q x) then none else s.1.rootKind q x) ∧
    ∀ x ∈ (ids.foldl step s).2, ∀ q, (ids.foldl step s).1.rootKind q x = none := by
  induction ids generalizing s with
  | nil => exact ⟨fun q x => by simp, hs⟩
  | cons id rest ih =>
    have hnext : ∀ x ∈ (step s id).2, ∀ q, (step s id).1.rootKind q x = none := by
      intro x hx q
      rcases hemptied s id x hx with hx | ⟨-, hnone⟩
      · rw [hroots, hs x hx q]
        split <;> rfl
      · exact hnone q
    obtain ⟨hfirst, hsecond⟩ := ih (step s id) hnext
    refine ⟨fun q x => ?_, hsecond⟩
    rw [List.foldl_cons, hfirst, hroots]
    generalize s.1.rootKind q x = kind
    by_cases hstep : x = id ∧ q = path ∧ taken kind
    · simp only [if_pos hstep, ite_self]
      rw [if_pos ⟨List.mem_cons.2 (.inl hstep.1), hstep.2⟩]
    · simp only [if_neg hstep]
      by_cases hx : x = id
      · have hkept : ¬ (q = path ∧ taken kind) := fun h => hstep ⟨hx, h⟩
        rw [if_neg fun h => hkept h.2, if_neg fun h => hkept h.2]
      · simp [hx]

theorem rootKind_unrootFrom (path : Path) (s : Workspace × List ProjectId) (id : ProjectId)
    (q : Path) (x : ProjectId) :
    (unrootFrom path s id).1.rootKind q x =
      if x = id ∧ q = path then none else s.1.rootKind q x := by
  unfold unrootFrom
  simp only
  split
  · rename_i hnone
    split
    · rename_i h
      rw [h.1]
      exact rootKind_of_none hnone
    · rfl
  · rename_i project hlive
    split
    · exact rootKind_takeRoot hlive path q x
    · rename_i hroot
      split
      · rename_i h
        rw [h.1, h.2, rootKind_of_live hlive, if_neg hroot]
      · rfl

theorem emptied_unrootFrom (path : Path) (s : Workspace × List ProjectId) (id : ProjectId) :
    ∀ x ∈ (unrootFrom path s id).2,
      x ∈ s.2 ∨ x = id ∧ ∀ q, (unrootFrom path s id).1.rootKind q x = none := by
  unfold unrootFrom
  simp only
  intro x
  split
  · exact .inl
  · rename_i project hlive
    split
    · simp only
      split
      · rename_i hempty
        intro hx
        rcases List.mem_append.1 hx with hx | hx
        · exact .inl hx
        · rw [List.mem_singleton.1 hx]
          exact .inr ⟨rfl, rootKind_takeRoot_of_isEmpty hlive hempty.2⟩
      · exact .inl
    · exact .inl

/-- Nobody but the project to keep has the root any more. -/
theorem rootKind_unroot (h : Consistent w) (path : Path) (keep : Option ProjectId) (q : Path)
    (x : ProjectId) :
    (w.unroot path keep).rootKind q x =
      if q = path ∧ some x ≠ keep then none else w.rootKind q x := by
  have htaking : ∀ s id q x, (unrootFrom path s id).1.rootKind q x =
      if x = id ∧ q = path ∧ True then none else s.1.rootKind q x := by
    intro s id q x
    simp only [and_true]
    exact rootKind_unrootFrom path s id q x
  obtain ⟨hroots, hemptied⟩ := foldl_taking (fun _ => True) htaking (emptied_unrootFrom path)
    ((w.ownership.ownersOf path).filter fun id => some id ≠ keep) (w, []) nofun
  have hsame : (w.unroot path keep).rootKind q x =
      (((w.ownership.ownersOf path).filter fun id => some id ≠ keep).foldl (unrootFrom path)
        (w, [])).1.rootKind q x := by
    refine (rootKind_removeProjects _ _ q x).trans ?_
    split
    · rename_i hx
      exact (hemptied x hx q).symm
    · rfl
  rw [hsame, hroots]
  simp only [and_true, List.mem_filter, decide_eq_true_eq]
  by_cases hpath : q = path ∧ some x ≠ keep
  · rw [if_pos hpath]
    split
    · rfl
    · rename_i hnot
      cases hkind : w.rootKind q x with
      | none => rfl
      | some kind =>
        rw [hpath.1] at hkind
        exact absurd ⟨⟨h.owner_of_rootKind hkind, hpath.2⟩, hpath.1⟩ hnot
  · rw [if_neg hpath, if_neg fun hx => hpath ⟨hx.2, hx.1.2⟩]

theorem Consistent.unroot (h : Consistent w) (path : Path) (keep : Option ProjectId) :
    Consistent (w.unroot path keep) := by
  have hmoves : Moves Memory.empty.host w (w.unroot path keep) := unroot_moves w path keep
  exact hmoves.consistent h

theorem rootKind_foldl_unroot (h : Consistent w) (roots : List Path) (id : ProjectId) (q : Path)
    (x : ProjectId) :
    (roots.foldl (fun w root => w.unroot root (some id)) w).rootKind q x =
      if q ∈ roots ∧ x ≠ id then none else w.rootKind q x := by
  induction roots generalizing w with
  | nil => simp
  | cons root rest ih =>
    rw [List.foldl_cons, ih (h.unroot root (some id)), rootKind_unroot h]
    by_cases hx : x = id
    · simp [hx]
    · by_cases hq : q = root <;> simp [hx, hq]

theorem mem_contestedRoots : q ∈ w.contestedRoots id ↔
    (w.rootKind q id).isSome = true ∧ w.documents.isOpen q = true ∧
      ∃ other ∈ w.ownership.ownersOf q, other ≠ id ∧ (w.rootKind q other).isSome = true := by
  unfold contestedRoots
  split
  · rename_i hnone
    rw [rootKind_of_none hnone]
    simp
  · rename_i project hlive
    rw [rootKind_of_live hlive]
    simp only [List.mem_filter, Bool.and_eq_true, List.any_eq_true, decide_eq_true_eq,
      hasRoot_eq_isSome]
    refine and_congr ?_ Iff.rfl
    rw [Roster.mem_toList, ← Project.hasRoot_iff]
    split <;> simp [*]

/-- The open roots of a project are its own afterwards, and nothing else changes. -/
theorem rootKind_takeOverOpenRoots (h : Consistent w) (id : ProjectId) (q : Path) (x : ProjectId) :
    (w.takeOverOpenRoots id).rootKind q x =
      if w.documents.isOpen q = true ∧ (w.rootKind q id).isSome = true ∧ x ≠ id then none
      else w.rootKind q x := by
  unfold takeOverOpenRoots
  rw [rootKind_foldl_unroot h]
  split
  · rename_i hcontested
    obtain ⟨hroot, hopen, -⟩ := mem_contestedRoots.1 hcontested.1
    rw [if_pos ⟨hopen, hroot, hcontested.2⟩]
  · rename_i hnot
    split
    · rename_i hopen
      cases hkind : w.rootKind q x with
      | none => rfl
      | some kind =>
        have hother : (w.rootKind q x).isSome = true := by
          rw [hkind]
          rfl
        have hcontested : q ∈ w.contestedRoots id := mem_contestedRoots.2
          ⟨hopen.2.1, hopen.1, x, h.owner_of_rootKind hkind, hopen.2.2, hother⟩
        exact absurd ⟨hcontested, hopen.2.2⟩ hnot
    · rfl

/-! ## Who loses nothing stays as it was -/

theorem hasRoot_congr (h : w'.rootKind path id = w.rootKind path id) :
    w'.hasRoot path id = w.hasRoot path id := by
  rw [hasRoot_eq_isSome, hasRoot_eq_isSome, h]

theorem hasRoot_of_live {p : Project} (h : w.project? id = some p) :
    w.hasRoot path id = p.hasRoot path := by
  unfold hasRoot
  rw [h]
  rfl

theorem hasRoot_of_same (h : w'.project? id = w.project? id) :
    w'.hasRoot path id = w.hasRoot path id := by
  unfold hasRoot
  rw [h]

theorem project?_unrootFrom (path : Path) (s : Workspace × List ProjectId)
    (hx : x = id → s.1.hasRoot path x = false) (hs : x ∉ s.2) :
    (unrootFrom path s id).1.project? x = s.1.project? x ∧ x ∉ (unrootFrom path s id).2 := by
  unfold unrootFrom
  simp only
  split
  · exact ⟨rfl, hs⟩
  · rename_i project hlive
    split
    · rename_i hroot
      have hne : x ≠ id := by
        rintro rfl
        rw [hasRoot_of_live hlive, hroot] at hx
        exact absurd (hx rfl) nofun
      refine ⟨?_, ?_⟩
      · refine (show _ = (s.1.modifyProject id fun _ => _).project? x by split <;> rfl).trans ?_
        exact (project?_modifyProject _ _ _ _).trans (if_neg hne)
      · simp only
        split
        · rw [List.mem_append, List.mem_singleton, not_or]
          exact ⟨hs, hne⟩
        · exact hs
    · exact ⟨rfl, hs⟩

theorem project?_foldl_unrootFrom (path : Path) (ids : List ProjectId)
    (s : Workspace × List ProjectId) (hx : x ∈ ids → s.1.hasRoot path x = false) (hs : x ∉ s.2) :
    (ids.foldl (unrootFrom path) s).1.project? x = s.1.project? x ∧
      x ∉ (ids.foldl (unrootFrom path) s).2 := by
  induction ids generalizing s with
  | nil => exact ⟨rfl, hs⟩
  | cons id rest ih =>
    obtain ⟨hsame, hlisted⟩ := project?_unrootFrom path s
      (fun heq : x = id => hx (heq ▸ List.mem_cons_self)) hs
    obtain ⟨hfold, hend⟩ := ih (unrootFrom path s id)
      (fun hrest => (hasRoot_of_same hsame).trans (hx (List.mem_cons_of_mem id hrest))) hlisted
    exact ⟨hfold.trans hsame, hend⟩

theorem project?_removeProjects (w : Workspace) (ids : List ProjectId) (hx : x ∉ ids) :
    (w.removeProjects ids).project? x = w.project? x := by
  unfold removeProjects
  induction ids generalizing w with
  | nil => rfl
  | cons id rest ih =>
    rw [List.mem_cons, not_or] at hx
    rw [List.foldl_cons, ih _ hx.2, project?_removeProject, if_neg hx.1]

/-- The project to keep, and those that do not have the root. -/
theorem project?_unroot (w : Workspace) (path : Path) (keep : Option ProjectId)
    (hx : some x ≠ keep → w.hasRoot path x = false) :
    (w.unroot path keep).project? x = w.project? x := by
  have hlisted : x ∈ (w.ownership.ownersOf path).filter (fun id => some id ≠ keep) →
      w.hasRoot path x = false := by
    rw [List.mem_filter, decide_eq_true_eq]
    exact fun h => hx h.2
  obtain ⟨hsame, hleft⟩ := project?_foldl_unrootFrom path _ (w, []) hlisted List.not_mem_nil
  exact (project?_removeProjects _ _ hleft).trans hsame

theorem project?_unroot_self (w : Workspace) (path : Path) (id : ProjectId) :
    (w.unroot path (some id)).project? id = w.project? id :=
  project?_unroot w path (some id) fun hne => absurd rfl hne

/-- The project that takes over, and those that have none of the contested roots. -/
theorem project?_takeOverOpenRoots (w : Workspace) (id : ProjectId)
    (hx : x ≠ id → ∀ root ∈ w.contestedRoots id, w.hasRoot root x = false) :
    (w.takeOverOpenRoots id).project? x = w.project? x := by
  unfold takeOverOpenRoots
  generalize w.contestedRoots id = roots at hx
  induction roots generalizing w with
  | nil => rfl
  | cons root rest ih =>
    have hsame : (w.unroot root (some id)).project? x = w.project? x :=
      project?_unroot w root (some id) fun hne =>
        hx (fun heq => hne (congrArg some heq)) root List.mem_cons_self
    rw [List.foldl_cons, ih _ fun hne r hr =>
      (hasRoot_of_same hsame).trans (hx hne r (List.mem_cons_of_mem root hr)), hsame]

theorem project?_takeOverOpenRoots_self (w : Workspace) (id : ProjectId) :
    (w.takeOverOpenRoots id).project? id = w.project? id :=
  project?_takeOverOpenRoots w id fun hne => absurd rfl hne

/-! ## Open roots pass to a configured project -/

/-- An open root stays with the projects that have it, or the configured project `id` has it alone
afterwards; no inferred project gains a root. -/
structure Passes (id : ProjectId) (w w' : Workspace) : Prop where
  isOpen : ∀ q, w'.documents.isOpen q = w.documents.isOpen q
  roots : ∀ q, w.documents.isOpen q = true →
    (∀ x, w'.rootKind q x = w.rootKind q x) ∨
      ∀ x, w'.rootKind q x = if x = id then some .configured else none
  inferred : ∀ q x, w'.rootKind q x = some .inferred → w.rootKind q x = some .inferred

theorem passes_of_eq (hopen : ∀ q, w'.documents.isOpen q = w.documents.isOpen q)
    (hroots : ∀ q x, w'.rootKind q x = w.rootKind q x) : Passes id w w' :=
  ⟨hopen, fun q _ => .inl (hroots q), fun q x h => (hroots q x).symm.trans h⟩

theorem rootKind_of_frame (h : Frame id w w') (hx : x ≠ id) (q : Path) :
    w'.rootKind q x = w.rootKind q x :=
  rootKind_congr (h.project x hx)

/-- A configured project changes, keeps its open roots, and takes over what it has then. -/
theorem passes_takeOver {p : Project} (h : Consistent w') (hframe : Frame id w w')
    (hopen : ∀ q, w'.documents.isOpen q = w.documents.isOpen q)
    (hlive : w'.project? id = some p) (hkind : p.kind = .configured)
    (hkept : ∀ q, w.documents.isOpen q = true → w'.rootKind q id = none →
      w.rootKind q id = none) :
    Passes id w (w'.takeOverOpenRoots id) where
  isOpen q := by
    have hmoves : Moves Memory.empty.host w' (w'.takeOverOpenRoots id) :=
      takeOverOpenRoots_moves w' id
    rw [hmoves.isOpen, hopen]
  roots q hq := by
    simp only [rootKind_takeOverOpenRoots h, hopen, hq, true_and]
    have hself : w'.rootKind q id = if p.hasRoot q = true then some p.kind else none :=
      rootKind_of_live hlive
    rw [hkind] at hself
    by_cases hroot : p.hasRoot q = true
    · right
      intro x
      rw [if_pos hroot] at hself
      by_cases hx : x = id <;> simp [hx, hself]
    · left
      intro x
      rw [if_neg hroot] at hself
      simp only [hself, Option.isSome_none, Bool.false_eq_true, false_and, if_false]
      by_cases hx : x = id
      · rw [hx, hself, hkept q hq hself]
      · exact rootKind_of_frame hframe hx q
  inferred q x hinferred := by
    rw [rootKind_takeOverOpenRoots h] at hinferred
    split at hinferred
    · cases hinferred
    · by_cases hx : x = id
      · rw [hx, rootKind_of_live hlive, hkind] at hinferred
        split at hinferred <;> cases hinferred
      · rw [← rootKind_of_frame hframe hx q]
        exact hinferred

end Codebase.Workspace
