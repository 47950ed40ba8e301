import Codebase.Proofs.Workspace.Roots
/-!
# Who has a root after an event

What assigning, rebuilding, opening and closing do to the roots of all projects:

* `assign_spec` — a path that nobody has as a root gets one holder, and the other open roots stay or
  pass to one configured project.
* `refresh_passes`, `heldBy_refresh` — a rebuild lets open roots pass to its project, and a dirty
  configured project has its open roots alone afterwards.
* `rootKind_opening_eq_some`, `free_opening` — what opening leaves before the document is given to a
  project.
* `rootKind_closeFile` — what closing leaves.
-/

namespace Codebase.Workspace

variable {host : Host} {w w' : Workspace} {id x : ProjectId} {path q : Path} {kind : ProjectKind}
  {content : String}

/-- Of all projects `id` alone has `path` as a root, and it is of the given kind. -/
def HeldBy (w : Workspace) (path : Path) (id : ProjectId) (kind : ProjectKind) : Prop :=
  ∀ x, w.rootKind path x = if x = id then some kind else none

/-! ## Live projects of a kind -/

theorem mem_projectList {p : Project} : p ∈ w.projectList ↔ ∃ id, w.project? id = some p :=
  Table.mem_values

theorem mem_ofKind (h : Consistent w) :
    id ∈ w.ofKind kind ↔ ∃ p, w.project? id = some p ∧ p.kind = kind := by
  unfold ofKind
  rw [List.mem_map]
  constructor
  · rintro ⟨p, hp, rfl⟩
    rw [List.mem_filter, decide_eq_true_eq] at hp
    obtain ⟨k, hk⟩ := mem_projectList.1 hp.1
    rw [h.named k p hk]
    exact ⟨p, hk, hp.2⟩
  · rintro ⟨p, hp, hkind⟩
    refine ⟨p, List.mem_filter.2 ⟨mem_projectList.2 ⟨id, hp⟩, decide_eq_true hkind⟩, ?_⟩
    exact h.named id p hp

theorem live_of_governorAt? {ancestor : Path} (h : Consistent w)
    (hgovernor : w.governorAt? host path ancestor = some (.project id)) :
    ∃ p, w.project? id = some p ∧ p.kind = .configured := by
  unfold governorAt? at hgovernor
  split at hgovernor
  · rename_i project hfound
    split at hgovernor
    · cases hgovernor
      obtain ⟨k, hk⟩ := mem_projectList.1 (List.mem_of_find?_eq_some hfound)
      rw [h.named k project hk]
      refine ⟨project, hk, ?_⟩
      have hdirectory : project.manifestDirectory? = some ancestor := by
        simpa using List.find?_some hfound
      obtain ⟨manifestPath, hpath, -⟩ := Option.bind_eq_some_iff.1 hdirectory
      exact Project.manifestPath?_eq_some hpath
    · cases hgovernor
  · split at hgovernor
    · cases hgovernor
    · split at hgovernor <;> cases hgovernor
    · cases hgovernor

theorem live_of_governor? (h : Consistent w)
    (hgovernor : w.governor? host path = some (.project id)) :
    ∃ p, w.project? id = some p ∧ p.kind = .configured := by
  obtain ⟨directory, -, hfound⟩ := Option.bind_eq_some_iff.1 hgovernor
  obtain ⟨ancestor, -, hat⟩ := List.exists_of_findSome?_eq_some hfound
  exact live_of_governorAt? h hat

/-! ## Assignment -/

theorem kind_foldl_addRoot (w : Workspace) (roots : List Path) (id : ProjectId) :
    ((roots.foldl (fun w root => w.addRoot id root) w).project? id).map Project.kind =
      (w.project? id).map Project.kind := by
  induction roots generalizing w with
  | nil => rfl
  | cons root rest ih =>
    rw [List.foldl_cons, ih, project?_addRoot, if_pos rfl, Option.map_map]
    rfl

/-- A new configured project is live, and open roots pass to it. -/
theorem startConfigured_spec (h : Consistent w) (host : Host) (manifest : Manifest) :
    (∃ p, (w.startConfigured host manifest).2.project? (w.startConfigured host manifest).1 =
      some p ∧ p.kind = .configured) ∧
    Passes (w.startConfigured host manifest).1 w (w.startConfigured host manifest).2 := by
  unfold startConfigured
  simp only
  generalize manifest.roots host w.settings.manifestFileNames w.extensions = roots
  have hstart : Move host w
      (w.addProject fun id => .configured id manifest w.settings.capability).2 :=
    .start w (.configured manifest.path (.loaded manifest)) _ nofun
  have hframe := (frame_addProject w fun id => .configured id manifest w.settings.capability).trans
    (frame_addRoots _ _ roots)
  have hmoves : Moves host w _ := hstart.moves.trans (addRoots_moves _ ⟨w.lastNumber + 1⟩ roots)
  have hkind := kind_foldl_addRoot
    (w.addProject fun id => .configured id manifest w.settings.capability).2 roots
    ⟨w.lastNumber + 1⟩
  rw [project?_addProject, if_pos rfl] at hkind
  obtain ⟨p, hp, hconfigured⟩ := Option.map_eq_some_iff.1 hkind
  refine ⟨⟨p, (project?_takeOverOpenRoots_self _ _).trans hp, hconfigured⟩, ?_⟩
  exact passes_takeOver (hmoves.consistent h) hframe hmoves.isOpen hp hconfigured
    fun q _ _ => rootKind_of_none h.fresh

theorem startInferred_spec (h : Consistent w) :
    (∃ p, w.startInferred.2.project? w.startInferred.1 = some p ∧ p.kind = .inferred) ∧
      ∀ q x, w.startInferred.2.rootKind q x = w.rootKind q x :=
  ⟨⟨_, (project?_addProject _ _ _).trans (if_pos rfl), rfl⟩,
    rootKind_addProject h fun _ => rfl⟩

theorem inferredFor_spec (h : Consistent w) :
    (∃ p, w.inferredFor.2.project? w.inferredFor.1 = some p ∧ p.kind = .inferred) ∧
      ∀ q x, w.inferredFor.2.rootKind q x = w.rootKind q x := by
  unfold inferredFor
  split
  · rename_i id rest hids
    split
    · have hid : id ∈ w.ofKind .inferred := by
        rw [hids]
        exact List.mem_cons_self
      exact ⟨(mem_ofKind h).1 hid, fun _ _ => rfl⟩
    · exact startInferred_spec h
  · exact startInferred_spec h

theorem configuredFor_spec {found : ProjectId × Workspace} (h : Consistent w)
    (hfound : w.configuredFor host path = some found) :
    (∃ p, found.2.project? found.1 = some p ∧ p.kind = .configured) ∧
      Passes found.1 w found.2 := by
  unfold configuredFor at hfound
  split at hfound
  · cases hfound
  · split at hfound
    · cases hfound
    · rename_i id hgovernor
      cases hfound
      exact ⟨live_of_governor? h hgovernor, passes_of_eq (fun _ => rfl) fun _ _ => rfl⟩
    · cases hfound
      exact startConfigured_spec h host _
    · cases hfound
      refine ⟨⟨_, (project?_addProject _ _ _).trans (if_pos rfl), rfl⟩, ?_⟩
      exact passes_of_eq (fun _ => rfl) (rootKind_addProject h fun _ => rfl)

/-- The project that takes a path is live and no auxiliary one, and open roots pass at most to
it. -/
theorem taker_spec (h : Consistent w) (host : Host) (path : Path) :
    (∃ p, ((w.configuredFor host path).getD w.inferredFor).2.project?
      ((w.configuredFor host path).getD w.inferredFor).1 = some p ∧ p.kind ≠ .auxiliary) ∧
    Passes ((w.configuredFor host path).getD w.inferredFor).1 w
      ((w.configuredFor host path).getD w.inferredFor).2 := by
  cases hfound : w.configuredFor host path with
  | none =>
    obtain ⟨⟨p, hp, hkind⟩, hroots⟩ := inferredFor_spec h
    have hmoves : Moves host w w.inferredFor.2 := inferredFor_moves w
    refine ⟨⟨p, hp, ?_⟩, passes_of_eq hmoves.isOpen hroots⟩
    rw [hkind]
    exact nofun
  | some found =>
    obtain ⟨⟨p, hp, hkind⟩, hpasses⟩ := configuredFor_spec h hfound
    refine ⟨⟨p, hp, ?_⟩, hpasses⟩
    rw [hkind]
    exact nofun

/-- An open document that is nobody's root gets one holder.  The other open roots stay, or pass to
one configured project. -/
theorem assign_spec (h : Consistent w) (host : Host) (hopen : w.documents.isOpen path = true)
    (hfree : ∀ x, w.rootKind path x = none) :
    (∃ kind, kind ≠ .auxiliary ∧
      HeldBy (w.assign host path).2 path (w.assign host path).1 kind) ∧
    (∀ q, q ≠ path → w.documents.isOpen q = true →
      (∀ x, (w.assign host path).2.rootKind q x = w.rootKind q x) ∨
        HeldBy (w.assign host path).2 q (w.assign host path).1 .configured) ∧
    ∀ q x, (w.assign host path).2.rootKind q x = some .inferred →
      w.rootKind q x = some .inferred ∨ q = path := by
  obtain ⟨⟨p, hp, hkind⟩, hpasses⟩ := taker_spec h host path
  have hassign : w.assign host path =
      (((w.configuredFor host path).getD w.inferredFor).1,
        ((w.configuredFor host path).getD w.inferredFor).2.addRoot
          ((w.configuredFor host path).getD w.inferredFor).1 path) := rfl
  rw [hassign]
  generalize (w.configuredFor host path).getD w.inferredFor = taker at hp hpasses ⊢
  obtain ⟨id, w₁⟩ := taker
  refine ⟨⟨p.kind, hkind, fun x => ?_⟩, fun q hq hopenq => ?_, fun q x hinferred => ?_⟩
  · simp only [rootKind_addRoot, and_true]
    by_cases hx : x = id
    · rw [if_pos hx, if_pos hx, hp]
      rfl
    · rw [if_neg hx, if_neg hx]
      rcases hpasses.roots path hopen with hsame | hheld
      · rw [hsame, hfree]
      · rw [hheld, if_neg hx]
  · refine (hpasses.roots q hopenq).imp (fun hsame x => ?_) fun hheld x => ?_
    · rw [rootKind_addRoot, if_neg fun h => hq h.2]
      exact hsame x
    · rw [rootKind_addRoot, if_neg fun h => hq h.2]
      exact hheld x
  · rw [rootKind_addRoot] at hinferred
    split at hinferred
    · rename_i hadded
      exact .inr hadded.2
    · exact .inl (hpasses.inferred q x hinferred)

/-! ## Rebuilding -/

theorem project?_record_self {project rebuilt : Project} {build : Build}
    (hlive : w.project? id = some project) :
    (w.record id rebuilt build).project? id = some rebuilt := by
  rw [project?_record, if_pos rfl, hlive]
  rfl

/-- A rebuild drops no open root. -/
theorem hasRoot_of_rebuilt {project rebuilt : Project} {build : Build}
    (hrebuilt : Project.Rebuilt project (w.context host) rebuilt build)
    (hopen : w.documents.isOpen q = true) (hroot : project.hasRoot q = true) :
    rebuilt.hasRoot q = true :=
  Project.hasRoot_iff.2 (hrebuilt.openRoots q (Project.hasRoot_iff.1 hroot) hopen)

theorem refresh_passes (h : Consistent w) (host : Host) (id : ProjectId) :
    Passes id w (w.refresh host id).2 := by
  rw [refresh_eq]
  split
  · exact passes_of_eq (fun _ => rfl) fun _ _ => rfl
  · rename_i project hlive
    split
    · exact passes_of_eq (fun _ => rfl) fun _ _ => rfl
    · rename_i rebuilt build hbuilt
      obtain ⟨-, hrebuilt⟩ := Project.rebuilt_of_refresh? hbuilt
      have hmove : Move host w (w.record id rebuilt build) :=
        .rebuild w id project rebuilt build hlive hbuilt
      have hnext : (w.record id rebuilt build).project? id = some rebuilt :=
        project?_record_self hlive
      simp only
      split
      · rename_i hconfigured
        refine passes_takeOver (h.record hlive hbuilt) (frame_record w id rebuilt build)
          hmove.isOpen hnext hconfigured fun q hopen hnone => ?_
        rw [rootKind_of_live hnext] at hnone
        rw [rootKind_of_live hlive]
        split
        · rename_i hroot
          rw [if_pos (hasRoot_of_rebuilt hrebuilt hopen hroot)] at hnone
          cases hnone
        · rfl
      · rename_i hother
        refine passes_of_eq hmove.isOpen fun q x => ?_
        by_cases hx : x = id
        · subst hx
          have hroots : rebuilt.roots = project.roots :=
            hrebuilt.ownRoots (by rw [← hrebuilt.kind]; exact hother)
          rw [rootKind_of_live hnext, rootKind_of_live hlive, hrebuilt.kind]
          unfold Project.hasRoot
          rw [hroots]
        · exact rootKind_of_frame (frame_record w id rebuilt build) hx q

/-- A configured project that is dirty has its open roots alone after a rebuild. -/
theorem heldBy_refresh {p : Project} (h : Consistent w) (host : Host)
    (hlive : w.project? id = some p) (hdirty : p.isDirty = true) (hkind : p.kind = .configured)
    (hopen : w.documents.isOpen q = true) (hroot : p.hasRoot q = true) :
    HeldBy (w.refresh host id).2 q id .configured := by
  obtain ⟨rebuilt, build, hbuilt⟩ := Project.refresh?_of_isDirty hdirty (w.context host)
  obtain ⟨-, hrebuilt⟩ := Project.rebuilt_of_refresh? hbuilt
  have hconfigured : rebuilt.kind = .configured := hrebuilt.kind.trans hkind
  have hresult : (w.refresh host id).2 = (w.record id rebuilt build).takeOverOpenRoots id := by
    rw [refresh_eq, hlive]
    simp only [hbuilt]
    rw [if_pos hconfigured]
  have hmove : Move host w (w.record id rebuilt build) :=
    .rebuild w id p rebuilt build hlive hbuilt
  have hself : (w.record id rebuilt build).rootKind q id = some .configured := by
    rw [rootKind_of_live (project?_record_self hlive),
      if_pos (hasRoot_of_rebuilt hrebuilt hopen hroot), hconfigured]
  intro x
  rw [hresult, rootKind_takeOverOpenRoots (h.record hlive hbuilt), hmove.isOpen, hopen]
  by_cases hx : x = id <;> simp [hx, hself]

/-! ## Opening a document -/

/-- The auxiliary projects that own the path are gone, and nothing else changes. -/
theorem rootKind_dropStandIns_eq_some (w : Workspace) (path q : Path) (x : ProjectId)
    (kind : ProjectKind) :
    (w.dropStandIns path).rootKind q x = some kind ↔
      w.rootKind q x = some kind ∧ (x ∈ w.ownership.ownersOf path → kind ≠ .auxiliary) := by
  unfold dropStandIns
  rw [rootKind_removeProjects]
  split
  · rename_i hx
    rw [List.mem_filter, Option.any_eq_true] at hx
    obtain ⟨howner, p, hp, haux⟩ := hx
    refine ⟨nofun, fun ⟨hkind, hnot⟩ => ?_⟩
    obtain ⟨p', hp', -, hkind⟩ := rootKind_eq_some.1 hkind
    rw [hp] at hp'
    cases hp'
    exact absurd (hkind.symm.trans (of_decide_eq_true haux)) (hnot howner)
  · rename_i hx
    refine ⟨fun hkind => ⟨hkind, fun howner haux => hx ?_⟩, And.left⟩
    obtain ⟨p, hp, -, hpkind⟩ := rootKind_eq_some.1 hkind
    rw [List.mem_filter, Option.any_eq_true]
    exact ⟨howner, p, hp, decide_eq_true (hpkind.trans haux)⟩

theorem holder?_eq_some (h : w.holder? path = some id) :
    ∃ kind, kind ≠ .auxiliary ∧ w.rootKind path id = some kind := by
  have hfits := List.find?_some h
  rw [Option.any_eq_true] at hfits
  obtain ⟨p, hp, hholds⟩ := hfits
  rw [Bool.and_eq_true, decide_eq_true_eq] at hholds
  exact ⟨p.kind, hholds.1, rootKind_eq_some.2 ⟨p, hp, hholds.2, rfl⟩⟩

theorem holder?_eq_none (h : Consistent w) (hnone : w.holder? path = none)
    (hkind : w.rootKind path x = some kind) : kind = .auxiliary := by
  have howner := h.owner_of_rootKind hkind
  obtain ⟨p, hp, hroot, rfl⟩ := rootKind_eq_some.1 hkind
  have hnot := List.find?_eq_none.1 hnone x howner
  rw [hp, Option.any_some, Bool.and_eq_true, decide_eq_true_eq] at hnot
  by_contra hother
  exact hnot ⟨hother, hroot⟩

theorem rootKind_opening_eq_some (w : Workspace) (path : Path) (opened : Documents.Opened)
    (documents : Documents) (q : Path) (x : ProjectId) (kind : ProjectKind) :
    (w.opening path opened documents).rootKind q x = some kind ↔
      w.rootKind q x = some kind ∧ (x ∈ w.ownership.ownersOf path → kind ≠ .auxiliary) := by
  refine Iff.trans ?_ (rootKind_dropStandIns_eq_some { w with documents } path q x kind)
  unfold opening
  simp only
  split
  · rw [rootKind_touchOwners]
  · exact Iff.rfl

/-- When no project is found to hold the document, it is nobody's root any more. -/
theorem free_opening {opened : Documents.Opened} {documents : Documents} (h : Consistent w)
    (hnone : (w.opening path opened documents).holder? path = none) (x : ProjectId) :
    (w.opening path opened documents).rootKind path x = none := by
  have hmoves : Moves Memory.empty.host { w with documents } (w.opening path opened documents) :=
    opening_moves w path opened documents
  cases hx : (w.opening path opened documents).rootKind path x with
  | none => rfl
  | some kind =>
    have hkind := holder?_eq_none (hmoves.consistent (h.documents documents)) hnone hx
    obtain ⟨hbefore, hother⟩ := (rootKind_opening_eq_some w path opened documents path x kind).1 hx
    exact absurd hkind (hother (h.owner_of_rootKind hbefore))

/-! ## Closing a document -/

theorem rootKind_closeIn (path : Path) (s : Workspace × List ProjectId) (id : ProjectId) (q : Path)
    (x : ProjectId) :
    (closeIn path s id).1.rootKind q x =
      if x = id ∧ q = path ∧ s.1.rootKind q x = some .inferred then none
      else s.1.rootKind q x := by
  unfold closeIn
  simp only
  split
  · rename_i hnone
    split
    · rename_i h
      rw [h.1]
      exact rootKind_of_none hnone
    · rfl
  · rename_i project hlive
    split
    · rename_i hholds
      rw [rootKind_takeRoot hlive]
      by_cases hx : x = id ∧ q = path
      · have hkind : s.1.rootKind q x = some .inferred := by
          rw [hx.1, hx.2, rootKind_of_live hlive, if_pos hholds.2, hholds.1]
        rw [if_pos hx, if_pos ⟨hx.1, hx.2, hkind⟩]
      · rw [if_neg hx, if_neg fun h => hx ⟨h.1, h.2.1⟩]
    · rename_i hother
      rw [rootKind_touch, if_neg]
      rintro ⟨rfl, rfl, hkind⟩
      obtain ⟨p, hp, hroot, hinferred⟩ := rootKind_eq_some.1 hkind
      rw [hlive] at hp
      cases hp
      exact hother ⟨hinferred, hroot⟩

theorem emptied_closeIn (path : Path) (s : Workspace × List ProjectId) (id : ProjectId) :
    ∀ x ∈ (closeIn path s id).2,
      x ∈ s.2 ∨ x = id ∧ ∀ q, (closeIn path s id).1.rootKind q x = none := by
  unfold closeIn
  simp only
  intro x
  split
  · exact .inl
  · rename_i project hlive
    split
    · simp only
      split
      · rename_i hempty
        intro hx
        rcases List.mem_append.1 hx with hx | hx
        · exact .inl hx
        · rw [List.mem_singleton.1 hx]
          exact .inr ⟨rfl, rootKind_takeRoot_of_isEmpty hlive hempty⟩
      · exact .inl
    · exact .inl

/-- The inferred projects lose the document as a root, and nothing else changes. -/
theorem rootKind_closeFile {documents : Documents} (h : Consistent w)
    (hok : w.documents.close path = .ok documents) (q : Path) (x : ProjectId) :
    (w.closeFile path).2.rootKind q x =
      if q = path ∧ w.rootKind q x = some .inferred then none else w.rootKind q x := by
  obtain ⟨hroots, hemptied⟩ := foldl_taking (fun kind => kind = some .inferred)
    (rootKind_closeIn path) (emptied_closeIn path) (w.ownership.ownersOf path)
    ({ w with documents }, []) nofun
  have hsame : (w.closeFile path).2.rootKind q x =
      ((w.ownership.ownersOf path).foldl (closeIn path) ({ w with documents }, [])).1.rootKind
        q x := by
    unfold closeFile
    rw [hok]
    simp only
    have hforget : ∀ w₁ : Workspace, (w₁.forgetUnowned path).rootKind q x = w₁.rootKind q x := by
      intro w₁
      unfold forgetUnowned
      split <;> rfl
    rw [hforget, rootKind_removeProjects]
    split
    · rename_i hx
      exact (hemptied x hx q).symm
    · rfl
  have hdocuments : { w with documents }.rootKind q x = w.rootKind q x := rfl
  rw [hsame, hroots, hdocuments]
  by_cases hkind : q = path ∧ w.rootKind q x = some .inferred
  · have howner : x ∈ w.ownership.ownersOf path := by
      rw [← hkind.1]
      exact h.owner_of_rootKind hkind.2
    rw [if_pos hkind, if_pos ⟨howner, hkind⟩]
  · rw [if_neg hkind, if_neg fun h => hkind h.2]

end Codebase.Workspace
