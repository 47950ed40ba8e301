import Codebase.Proofs.Workspace.Holder
/-!
# Rebuilding

A rebuild leaves its project clean.  Another project stays as it is, unless the rebuild takes an
open root away from it, and then it is dirty.  So bringing every dirty project up to date, one after
the other, can leave a project dirty that had its turn before, or none.

* `refresh_self` — what a rebuild does to its project.
* `project?_of_refresh`, `project?_refresh` — what it does to the others.
* `isDirty_refreshEach_iff` — which projects are dirty after a series of rebuilds.
* `refreshAll_leaves_dirty_iff` — which ones are when all have been brought up to date.
* `refreshAll_leaves_a_dirty_project` — some may be.
-/

namespace Codebase.Workspace

variable {host : Host} {w w' : Workspace} {id x : ProjectId} {path q : Path}

/-! ## What is clean stays as it was -/

/-- A project that is clean afterwards was there before as it is. -/
def Dulls (w w' : Workspace) : Prop :=
  ∀ x p, w'.project? x = some p → p.isDirty = false → w.project? x = some p

theorem dulls_refl (w : Workspace) : Dulls w w := fun _ _ hp _ => hp

theorem Dulls.trans {w'' : Workspace} (h : Dulls w w') (h' : Dulls w' w'') : Dulls w w'' :=
  fun x p hp hclean => h x p (h' x p hp hclean) hclean

theorem removeProject_dulls (w : Workspace) (id : ProjectId) : Dulls w (w.removeProject id) := by
  intro x p hp _
  rw [project?_removeProject] at hp
  split at hp
  · cases hp
  · exact hp

theorem removeProjects_dulls (w : Workspace) (ids : List ProjectId) :
    Dulls w (w.removeProjects ids) :=
  List.foldlRecOn ids removeProject (dulls_refl w) fun w' hw' id _ =>
    hw'.trans (removeProject_dulls w' id)

/-- What loses a root is dirty. -/
theorem unrootFrom_dulls (path : Path) (s : Workspace × List ProjectId) (id : ProjectId) :
    Dulls s.1 (unrootFrom path s id).1 := by
  intro x p hp hclean
  unfold unrootFrom at hp
  simp only at hp
  split at hp
  · exact hp
  · rename_i project hlive
    split at hp
    · have htaken :
          (s.1.modifyProject id fun _ => project.removeRoot path).project? x = some p := by
        simp only at hp
        split at hp
        · exact hp
        · exact hp
      rw [project?_modifyProject] at htaken
      split at htaken
      · rename_i hx
        rw [hx, hlive] at htaken
        cases htaken
        cases hclean
      · exact htaken
    · exact hp

theorem unroot_dulls (w : Workspace) (path : Path) (keep : Option ProjectId) :
    Dulls w (w.unroot path keep) := by
  let others := (w.ownership.ownersOf path).filter fun id => some id ≠ keep
  have hfold : Dulls w (others.foldl (unrootFrom path) (w, [])).1 :=
    List.foldlRecOn (motive := fun s => Dulls w s.1) others (unrootFrom path) (dulls_refl w)
      fun s hs id _ => hs.trans (unrootFrom_dulls path s id)
  exact hfold.trans (removeProjects_dulls _ _)

theorem takeOverOpenRoots_dulls (w : Workspace) (id : ProjectId) :
    Dulls w (w.takeOverOpenRoots id) := by
  unfold takeOverOpenRoots
  exact List.foldlRecOn _ _ (dulls_refl w) fun w' hw' root _ =>
    hw'.trans (unroot_dulls w' root (some id))

/-- A rebuild changes other projects only if it makes them dirty. -/
theorem project?_of_refresh {p : Project} (host : Host) (hx : x ≠ id)
    (hp : (w.refresh host id).2.project? x = some p) (hclean : p.isDirty = false) :
    w.project? x = some p := by
  rw [refresh_eq] at hp
  split at hp
  · exact hp
  · rename_i project hlive
    split at hp
    · exact hp
    · rename_i rebuilt build hbuilt
      have hrecord : (w.record id rebuilt build).project? x = some p := by
        simp only at hp
        split at hp
        · exact takeOverOpenRoots_dulls _ id x p hp hclean
        · exact hp
      rw [project?_record, if_neg hx] at hrecord
      exact hrecord

/-! ## The project that is rebuilt -/

theorem refresh_of_live {p : Project} (host : Host) (hlive : w.project? id = some p) :
    (w.refresh host id).1 = .ok () := by
  rw [refresh_eq, hlive]
  simp only
  split <;> rfl

theorem refresh_of_none (host : Host) (hnone : w.project? id = none) :
    w.refresh host id = (.error (.unknownProject id.name), w) := by
  rw [refresh_eq, hnone]

/-- A project is clean after its rebuild: as it was, or as its rebuild has made it. -/
theorem refresh_self {p : Project} (host : Host) (hlive : w.project? id = some p) :
    ∃ p', (w.refresh host id).2.project? id = some p' ∧ p'.isDirty = false ∧
      (p' = p ∨ ∃ build, p.refresh? (w.context host) = some (p', build)) := by
  rw [refresh_eq, hlive]
  simp only
  cases hbuilt : p.refresh? (w.context host) with
  | none =>
    refine ⟨p, hlive, Bool.eq_false_iff.2 fun hdirty => ?_, .inl rfl⟩
    obtain ⟨rebuilt, build, hsome⟩ := Project.refresh?_of_isDirty hdirty (w.context host)
    rw [hbuilt] at hsome
    cases hsome
  | some result =>
    obtain ⟨rebuilt, build⟩ := result
    refine ⟨rebuilt, ?_, (Project.rebuilt_of_refresh? hbuilt).2.isDirty, .inr ⟨build, rfl⟩⟩
    simp only
    split
    · rw [project?_takeOverOpenRoots_self]
      exact project?_record_self hlive
    · exact project?_record_self hlive

/-- A project without a manifest that serves syntax only shows its roots after its rebuild. -/
theorem refresh_syntacticOnly {p : Project} (h : Consistent w) (host : Host)
    (hlive : w.project? id = some p) (hkind : p.kind ≠ .configured)
    (hcapability : p.capability = .syntacticOnly) :
    ∃ p', (w.refresh host id).2.project? id = some p' ∧ p'.origin = p.origin ∧
      p'.capability = .syntacticOnly ∧ p'.roots = p.roots ∧
      p'.files? = some p.roots.toList := by
  obtain ⟨p', hp', hclean, rfl | ⟨build, hbuilt⟩⟩ := refresh_self host hlive
  · obtain ⟨files, hsettled⟩ := (h.linked id p' hlive).settled hclean
    refine ⟨p', hp', rfl, hcapability, rfl, ?_⟩
    rw [Project.files?_of_clean hclean, hsettled.derived, hsettled.syntacticOnly hcapability]
  · obtain ⟨-, hrebuilt⟩ := Project.rebuilt_of_refresh? hbuilt
    obtain ⟨horigin, hsame, hroots⟩ := Project.unconfigured_of_refresh? hkind hbuilt
    have hsyntactic : p'.capability = .syntacticOnly := hsame.trans hcapability
    obtain ⟨-, -, hfiles⟩ := hrebuilt.files_spec
    refine ⟨p', hp', horigin, hsyntactic, hroots, ?_⟩
    rw [hrebuilt.files?, hfiles hsyntactic, hroots]

/-- A project with an open root still has it after its rebuild. -/
theorem refresh_hasRoot {p : Project} (host : Host) (hlive : w.project? id = some p)
    (hopen : w.documents.isOpen path = true) (hroot : p.hasRoot path = true) :
    ∃ p', (w.refresh host id).2.project? id = some p' ∧ p'.isDirty = false ∧
      p'.hasRoot path = true := by
  obtain ⟨p', hp', hclean, hsame | ⟨build, hbuilt⟩⟩ := refresh_self host hlive
  · exact ⟨p', hp', hclean, hsame ▸ hroot⟩
  · obtain ⟨-, hrebuilt⟩ := Project.rebuilt_of_refresh? hbuilt
    exact ⟨p', hp', hclean, hasRoot_of_rebuilt hrebuilt hopen hroot⟩

/-! ## The other projects -/

/-- The project is there, and is not a configured one that is dirty. -/
def Quiet (w : Workspace) (id : ProjectId) : Prop :=
  ∃ p, w.project? id = some p ∧ (p.kind = .configured → p.isDirty = false)

theorem Quiet.congr (h : w.Quiet id) (hsame : w'.project? id = w.project? id) : w'.Quiet id := by
  obtain ⟨p, hp, hclean⟩ := h
  exact ⟨p, hsame.trans hp, hclean⟩

/-- The rebuild of a project that is no configured one changes no other project. -/
theorem Quiet.refresh (h : w.Quiet id) (host : Host) (hx : x ≠ id) :
    (w.refresh host id).2.project? x = w.project? x := by
  obtain ⟨p, hlive, hclean⟩ := h
  rw [refresh_eq, hlive]
  simp only
  split
  · rfl
  · rename_i rebuilt build hbuilt
    obtain ⟨hdirty, hrebuilt⟩ := Project.rebuilt_of_refresh? hbuilt
    rw [if_neg, project?_record, if_neg hx]
    intro hkind
    rw [hclean (hrebuilt.kind.symm.trans hkind)] at hdirty
    cases hdirty

/-- A rebuild takes a root from the project `x`. -/
def Deprives (w : Workspace) (host : Host) (id x : ProjectId) : Prop :=
  ∃ root, w.hasRoot root x = true ∧ (w.refresh host id).2.hasRoot root x = false

/-- A rebuild changes another project only if it takes a root from it. -/
theorem project?_refresh (h : Consistent w) (host : Host) (hx : x ≠ id)
    (hkept : ¬ w.Deprives host id x) : (w.refresh host id).2.project? x = w.project? x := by
  unfold Deprives at hkept
  rw [refresh_eq] at hkept ⊢
  split
  · rfl
  · rename_i project hlive
    simp only [hlive] at hkept
    split
    · rfl
    · rename_i rebuilt build hbuilt
      simp only [hbuilt] at hkept
      have hrecord : (w.record id rebuilt build).project? x = w.project? x := by
        rw [project?_record, if_neg hx]
      have hconsistent : Consistent (w.record id rebuilt build) := h.record hlive hbuilt
      split
      · rename_i hkind
        rw [if_pos hkind] at hkept
        refine (project?_takeOverOpenRoots _ id fun _ root hroot => ?_).trans hrecord
        -- a contested root that the project has would be taken from it
        obtain ⟨hself, hopen, -⟩ := mem_contestedRoots.1 hroot
        refine Bool.eq_false_iff.2 fun hhas => hkept ⟨root, ?_, ?_⟩
        · rw [← hasRoot_of_same hrecord]
          exact hhas
        · rw [hasRoot_eq_isSome, rootKind_takeOverOpenRoots hconsistent,
            if_pos ⟨hopen, hself, hx⟩]
          rfl
      · exact hrecord

/-- No rebuild brings a project back. -/
theorem project?_refresh_of_none (h : Consistent w) (host : Host) (hnone : w.project? x = none) :
    (w.refresh host id).2.project? x = none := by
  by_cases hx : x = id
  · rw [← hx, refresh_of_none host hnone]
    exact hnone
  · refine (project?_refresh h host hx ?_).trans hnone
    rintro ⟨root, hroot, -⟩
    rw [hasRoot_eq_isSome, rootKind_of_none hnone] at hroot
    cases hroot

/-- The project is there and dirty. -/
def IsDirty (w : Workspace) (id : ProjectId) : Prop :=
  ∃ p, w.project? id = some p ∧ p.isDirty = true

/-- Another project that is there after a rebuild is dirty if it was before, or if it has lost a
root. -/
theorem isDirty_refresh_iff (h : Consistent w) (host : Host) (hx : x ≠ id)
    (hlive : ((w.refresh host id).2.project? x).isSome = true) :
    (w.refresh host id).2.IsDirty x ↔ w.IsDirty x ∨ w.Deprives host id x := by
  by_cases hdeprived : w.Deprives host id x
  · refine iff_of_true ?_ (.inr hdeprived)
    obtain ⟨p', hp'⟩ := Option.isSome_iff_exists.1 hlive
    refine ⟨p', hp', by_contra fun hclean => ?_⟩
    have hbefore := project?_of_refresh host hx hp' (Bool.eq_false_iff.2 hclean)
    obtain ⟨root, hhad, hlost⟩ := hdeprived
    rw [hasRoot_of_same (hp'.trans hbefore.symm), hhad] at hlost
    cases hlost
  · unfold IsDirty
    rw [project?_refresh h host hx hdeprived, or_iff_left hdeprived]

/-- Only a configured project that is dirty takes roots from others. -/
theorem Deprives.configured (h : w.Deprives host id x) (hx : x ≠ id) :
    ∃ p, w.project? id = some p ∧ p.kind = .configured ∧ p.isDirty = true := by
  obtain ⟨root, hhad, hlost⟩ := h
  cases hlive : w.project? id with
  | none =>
    rw [refresh_of_none host hlive, hhad] at hlost
    cases hlost
  | some p =>
    by_contra hquiet
    have hsame : (w.refresh host id).2.project? x = w.project? x := by
      refine Quiet.refresh ⟨p, hlive, fun hkind => ?_⟩ host hx
      exact Bool.eq_false_iff.2 fun hdirty => hquiet ⟨p, rfl, hkind, hdirty⟩
    rw [hasRoot_of_same hsame, hhad] at hlost
    cases hlost

/-! ## One rebuild after the other -/

/-- A project that is gone when its turn comes is passed over. -/
theorem refreshEach_cons (w : Workspace) (host : Host) (id : ProjectId) (rest : List ProjectId) :
    w.refreshEach host (id :: rest) = (w.refresh host id).2.refreshEach host rest := by
  rw [refreshEach]
  split
  · rename_i hcontains
    obtain ⟨p, hp⟩ := Table.contains_eq_true.1 hcontains
    have hok := refresh_of_live host hp
    generalize w.refresh host id = answer at hok
    obtain ⟨result, next⟩ := answer
    cases hok
    rfl
  · rename_i hdead
    rw [refresh_of_none host (project?_of_not_live (Bool.eq_false_iff.2 hdead))]

theorem refreshEach_isOk (w : Workspace) (host : Host) (ids : List ProjectId) :
    (w.refreshEach host ids).1 = .ok () := by
  induction ids generalizing w with
  | nil => rfl
  | cons id rest ih =>
    rw [refreshEach_cons]
    exact ih _

theorem refresh_consistent (h : Consistent w) (host : Host) (id : ProjectId) :
    Consistent (w.refresh host id).2 :=
  (refresh_moves host w id).consistent h

theorem project?_refreshEach_of_none (h : Consistent w) (host : Host) (ids : List ProjectId)
    (hnone : w.project? x = none) : (w.refreshEach host ids).2.project? x = none := by
  induction ids generalizing w with
  | nil => exact hnone
  | cons id rest ih =>
    rw [refreshEach_cons]
    exact ih (refresh_consistent h host id) (project?_refresh_of_none h host hnone)

/-- Some project of the list takes a root from `x` in its turn, and `x` has no turn of its own after
that. -/
def LeftOut (w : Workspace) (host : Host) (ids : List ProjectId) (x : ProjectId) : Prop :=
  ∃ before id after, ids = before ++ id :: after ∧ x ∉ id :: after ∧
    (w.refreshEach host before).2.Deprives host id x

theorem leftOut_cons_iff {rest : List ProjectId} : w.LeftOut host (id :: rest) x ↔
    (x ∉ id :: rest ∧ w.Deprives host id x) ∨ (w.refresh host id).2.LeftOut host rest x := by
  constructor
  · rintro ⟨before, taker, after, hsplit, hlater, hdeprives⟩
    cases before with
    | nil =>
      cases hsplit
      exact .inl ⟨hlater, hdeprives⟩
    | cons first before =>
      cases hsplit
      rw [refreshEach_cons] at hdeprives
      exact .inr ⟨before, taker, after, rfl, hlater, hdeprives⟩
  · rintro (⟨hlater, hdeprives⟩ | ⟨before, taker, after, rfl, hlater, hdeprives⟩)
    · exact ⟨[], id, rest, rfl, hlater, hdeprives⟩
    · refine ⟨id :: before, taker, after, rfl, hlater, ?_⟩
      rw [refreshEach_cons]
      exact hdeprives

/-- A project that is there after a series of rebuilds is dirty if it was and had no turn, or if it
is left out. -/
theorem isDirty_refreshEach_iff (h : Consistent w) (host : Host) (ids : List ProjectId)
    (hlive : ((w.refreshEach host ids).2.project? x).isSome = true) :
    (w.refreshEach host ids).2.IsDirty x ↔
      (x ∉ ids ∧ w.IsDirty x) ∨ w.LeftOut host ids x := by
  induction ids generalizing w with
  | nil =>
    refine ⟨fun hdirty => .inl ⟨List.not_mem_nil, hdirty⟩, ?_⟩
    rintro (⟨-, hdirty⟩ | ⟨before, id, after, hsplit, -⟩)
    · exact hdirty
    · simp at hsplit
  | cons id rest ih =>
    have hconsistent := refresh_consistent h host id
    rw [refreshEach_cons] at hlive ⊢
    rw [ih hconsistent hlive, leftOut_cons_iff, ← or_assoc]
    refine or_congr_left ?_
    -- the project is there right after the first rebuild
    have hnext : ((w.refresh host id).2.project? x).isSome = true := by
      by_contra hgone
      rw [project?_refreshEach_of_none hconsistent host rest
        (Option.not_isSome_iff_eq_none.1 hgone)] at hlive
      cases hlive
    by_cases hx : x = id
    · subst hx
      refine iff_of_false ?_ ?_
      · rintro ⟨-, p, hp, hdirty⟩
        cases hbefore : w.project? x with
        | none =>
          rw [project?_refresh_of_none h host hbefore] at hp
          cases hp
        | some p₀ =>
          obtain ⟨p', hp', hclean, -⟩ := refresh_self host hbefore
          rw [hp'] at hp
          cases hp
          rw [hclean] at hdirty
          cases hdirty
      · rintro (⟨hother, -⟩ | ⟨hother, -⟩) <;> exact hother List.mem_cons_self
    · rw [isDirty_refresh_iff h host hx hnext, ← and_or_left, List.mem_cons, not_or,
        and_iff_right hx]

/-! ## All projects -/

theorem mem_dirty_iff (h : Consistent w) :
    x ∈ (w.projectList.filter Project.isDirty).map Project.id ↔ w.IsDirty x := by
  rw [List.mem_map]
  constructor
  · rintro ⟨p, hp, rfl⟩
    obtain ⟨hlisted, hdirty⟩ := List.mem_filter.1 hp
    obtain ⟨k, hk⟩ := mem_projectList.1 hlisted
    rw [h.named k p hk]
    exact ⟨p, hk, hdirty⟩
  · rintro ⟨p, hp, hdirty⟩
    exact ⟨p, List.mem_filter.2 ⟨mem_projectList.2 ⟨x, hp⟩, hdirty⟩, h.named x p hp⟩

/-- While no configured project is dirty, no series of rebuilds leaves a project out. -/
theorem not_leftOut_of_quiet (h : Consistent w) (host : Host) {ids : List ProjectId}
    (hids : ∀ id ∈ ids, w.IsDirty id)
    (hquiet : ∀ id p, w.project? id = some p → p.kind = .configured → p.isDirty = false) :
    ¬ w.LeftOut host ids x := by
  rintro ⟨before, id, after, rfl, hlater, hdeprives⟩
  have hx : x ≠ id := fun heq => hlater (heq ▸ List.mem_cons_self)
  obtain ⟨p, hp, hdirty⟩ := hids id (List.mem_append_right _ List.mem_cons_self)
  obtain ⟨p', hp', hkind, -⟩ := hdeprives.configured hx
  have hmoves : Moves host w (w.refreshEach host before).2 :=
    (refreshEach_inquiries none host w before).moves
  have hsame := (hmoves.kind (h.numbered id p hp) fun p₀ hp₀ => by
    rw [hp] at hp₀
    cases hp₀
    rfl).2 p' hp'
  rw [hquiet id p hp (hsame.symm.trans hkind)] at hdirty
  cases hdirty

/-- **What bringing every dirty project up to date comes to.**  It never fails.  Afterwards a live
project is dirty if and only if the rebuild of one of the projects that were dirty has taken an open
root from it, and its own turn did not come after that.  So every live project is clean if no
configured project was dirty. -/
theorem refreshAll_leaves_dirty_iff (settings : Settings) (steps : List (Host × Action))
    (host : Host) :
    let w := run settings steps
    let dirty := (w.projectList.filter Project.isDirty).map Project.id
    (w.refreshAll host).1 = .ok () ∧
    (∀ x p, (w.refreshAll host).2.project? x = some p →
      (p.isDirty = true ↔ w.LeftOut host dirty x)) ∧
    ((∀ id p, w.project? id = some p → p.kind = .configured → p.isDirty = false) →
      ∀ x p, (w.refreshAll host).2.project? x = some p → p.isDirty = false) := by
  intro w dirty
  have h : Consistent w := run_consistent settings steps
  have hiff : ∀ x p, (w.refreshAll host).2.project? x = some p →
      (p.isDirty = true ↔ w.LeftOut host dirty x) := by
    intro x p hp
    have hlive : ((w.refreshEach host dirty).2.project? x).isSome = true :=
      Option.isSome_iff_exists.2 ⟨p, hp⟩
    have hdirty : p.isDirty = true ↔ (w.refreshEach host dirty).2.IsDirty x := by
      refine ⟨fun hdirty => ⟨p, hp, hdirty⟩, fun ⟨p', hp', hdirty⟩ => ?_⟩
      rw [show (w.refreshEach host dirty).2.project? x = some p from hp] at hp'
      cases hp'
      exact hdirty
    rw [hdirty, isDirty_refreshEach_iff h host dirty hlive, mem_dirty_iff h]
    exact or_iff_right fun hboth => hboth.1 hboth.2
  refine ⟨refreshEach_isOk w host dirty, hiff, fun hquiet x p hp => ?_⟩
  refine Bool.eq_false_iff.2 fun hdirty => ?_
  exact not_leftOut_of_quiet h host (fun id hid => (mem_dirty_iff h).1 hid) hquiet
    ((hiff x p hp).1 hdirty)

/-! ### A manifest that comes to name an open file -/

/-- All files without a manifest share a project. -/
def sharedSettings : Settings := { Settings.default with useSingleInferredProject := true }

/-- The manifest names the first file only. -/
def namingFiles : Memory :=
  let place (text : String) : Path := (Path.mk .slash []).join text
  (((Memory.empty.addFile (place "p/tsconfig.json") "\x7b\"files\":[\"a.ts\"]\x7d").addFile
    (place "p/a.ts") "").addFile (place "p/f.ts") "").addFile (place "x.ts") ""

def namingManifest : Path := (Path.mk .slash []).join "p/tsconfig.json"

/-- The host when the manifest names the second file as well. -/
def namingNext : Host :=
  unlistedHost (namingFiles.addFile namingManifest "\x7b\"files\":[\"a.ts\",\"f.ts\"]\x7d")

/-- Three files are opened, of which the last two share a project; then the manifest of the first one
comes to name the second one. -/
def namingSteps : List (Host × Action) :=
  ["/p/a.ts", "/p/f.ts", "/x.ts"].map (fun file =>
    (unlistedHost namingFiles, .request .echo ⟨1, "open", .obj [("file", .str file)]⟩)) ++
    [(namingNext, .notice ⟨namingManifest, .modified⟩)]

/-- The shared project, which was clean, loses a root to the first one's rebuild and stays dirty. -/
theorem refreshAll_leaves_a_dirty_project :
    let w := run sharedSettings namingSteps
    (w.refreshAll namingNext).1.isOk = true ∧
      ((w.refreshAll namingNext).2.project? ⟨2⟩).any Project.isDirty = true := by
  decide +kernel

end Codebase.Workspace
