import Codebase.Proofs.Workspace.Mandate
import Codebase.Proofs.Workspace.Rebuild
import Codebase.Proofs.Workspace.Transaction
/-!
# To whom a path is assigned

The patron of a path is the charter of the project that takes the path when it is assigned.  `Takes`
lists how that project is found or started, and from it follows, for all projects and all paths,
what assigning does; a rebuild has laws of the same form:

* `charter?_assign` — the project that takes a path has the charter of its patron.
* `rootKind_assign`, `mandate?_assign` — the roots and the mandates after a path has been assigned.
* `rootKind_refresh_self`, `rootKind_refresh_other` — the roots after a rebuild.
* `patron_congr` — patrons depend on the mandates alone.
-/

namespace Codebase.Workspace

variable {host : Host} {w w' : Workspace} {id x : ProjectId} {path q : Path} {kind : ProjectKind}
  {charter : Charter} {manifest : Manifest} {mandate : Mandate}

/-- The charter of the project that takes `path` when it is assigned. -/
def patron (w : Workspace) (host : Host) (path : Path) : Charter :=
  if w.settings.syntaxOnly then .inferred
  else
    match w.governor? host path with
    | none => .inferred
    | some (.project id) => (w.charter? id).getD .inferred
    | some (.manifest manifest) => .configured manifest.path
    | some (.unloadable manifestPath _) => .configured manifestPath

/-- The mandate of the project that starts when `path` is assigned, if one starts that follows a
manifest. -/
def commission? (w : Workspace) (host : Host) (path : Path) : Option Mandate :=
  if w.settings.syntaxOnly then none
  else
    match w.governor? host path with
    | some (.manifest manifest) => some ⟨manifest.path, .loaded manifest, false⟩
    | some (.unloadable manifestPath reason) => some ⟨manifestPath, .failed reason, false⟩
    | _ => none

/-- The identity of the next project. -/
def nextId (w : Workspace) : ProjectId := ⟨w.lastNumber + 1⟩

theorem Consistent.next (h : Consistent w) : w.project? w.nextId = none := h.fresh

/-- With the same mandates, the same patrons. -/
theorem patron_congr (h : Consistent w) (hordered : Ordered w) (h' : Consistent w')
    (hordered' : Ordered w') (hsettings : w'.settings = w.settings)
    (hmandate : ∀ x, w'.mandate? x = w.mandate? x) (path : Path) :
    w'.patron host path = w.patron host path := by
  unfold patron
  rw [hsettings, governor?_congr h hordered h' hordered' hsettings hmandate]
  cases hgovernor : w.governor? host path with
  | none => rfl
  | some governor =>
    cases governor with
    | manifest manifest => rfl
    | unloadable manifestPath reason => rfl
    | project id =>
      obtain ⟨p, hp, hkind⟩ := live_of_governor? h hgovernor
      have hsome : w.mandate? id ≠ none := by
        rw [mandate?_of_live hp, Ne, Project.mandate?_eq_none_iff, not_not]
        exact hkind
      obtain ⟨mandate, hid⟩ := Option.ne_none_iff_exists'.1 hsome
      have hcharter := charter?_of_mandate? hid
      have hcharter' := charter?_of_mandate? ((hmandate id).trans hid)
      simp only [hcharter, hcharter']

/-! ## Who takes a path -/

/-- How the project that takes `path` is found or started. -/
inductive Takes (host : Host) (w : Workspace) (path : Path) : ProjectId × Workspace → Prop
  | governed (id : ProjectId) (governing : w.charter? id = some (w.patron host path))
      (configured : (w.patron host path).kind = .configured)
      (settled : w.commission? host path = none) : Takes host w path (id, w)
  | started (manifest : Manifest) (charter : w.patron host path = .configured manifest.path)
      (commission : w.commission? host path = some ⟨manifest.path, .loaded manifest, false⟩) :
      Takes host w path (w.startConfigured host manifest)
  | unloadable (manifestPath : Path) (reason : String)
      (charter : w.patron host path = .configured manifestPath)
      (commission : w.commission? host path = some ⟨manifestPath, .failed reason, false⟩) :
      Takes host w path (w.addProject fun id => .unloadable id manifestPath reason)
  | inferred (charter : w.patron host path = .inferred)
      (settled : w.commission? host path = none) : Takes host w path w.inferredFor

/-- The project that takes `path`, and the workspace when it is there. -/
def taker (w : Workspace) (host : Host) (path : Path) : ProjectId × Workspace :=
  (w.configuredFor host path).getD w.inferredFor

theorem assign_eq (w : Workspace) (host : Host) (path : Path) :
    w.assign host path =
      ((w.taker host path).1, (w.taker host path).2.addRoot (w.taker host path).1 path) := rfl

theorem taker_takes (h : Consistent w) (host : Host) (path : Path) :
    Takes host w path (w.taker host path) := by
  have hpatron : w.patron host path = w.patron host path := rfl
  have hcommission : w.commission? host path = w.commission? host path := rfl
  unfold taker configuredFor
  conv at hpatron => rhs; unfold patron
  conv at hcommission => rhs; unfold commission?
  split
  · rename_i hsyntaxOnly
    rw [if_pos hsyntaxOnly] at hpatron hcommission
    exact .inferred hpatron hcommission
  · rename_i hsyntaxOnly
    rw [if_neg hsyntaxOnly] at hpatron hcommission
    cases hgovernor : w.governor? host path with
    | none =>
      rw [hgovernor] at hpatron hcommission
      exact .inferred hpatron hcommission
    | some governor =>
      rw [hgovernor] at hpatron hcommission
      cases governor with
      | project id =>
        obtain ⟨p, hp, hkind⟩ := live_of_governor? h hgovernor
        have hcharter : w.charter? id = some p.charter := charter?_eq_some.2 ⟨p, hp, rfl⟩
        simp only [hcharter, Option.getD_some] at hpatron
        refine .governed id (by rw [hcharter, hpatron]) ?_ hcommission
        rw [hpatron, ← Project.kind_eq]
        exact hkind
      | manifest manifest => exact .started manifest hpatron hcommission
      | unloadable manifestPath reason => exact .unloadable manifestPath reason hpatron hcommission

/-! ## Charters and mandates -/

theorem charter?_startConfigured (w : Workspace) (host : Host) (manifest : Manifest) :
    (w.startConfigured host manifest).2.charter? (w.startConfigured host manifest).1 =
      some (.configured manifest.path) :=
  charter?_of_mandate? ((mandate?_startConfigured w host manifest _).trans (if_pos rfl))

theorem charter?_taker (h : Consistent w) (host : Host) (path : Path) :
    (w.taker host path).2.charter? (w.taker host path).1 = some (w.patron host path) := by
  have htakes := taker_takes h host path
  generalize w.taker host path = taker at htakes
  cases htakes with
  | governed id hgoverning _ _ => exact hgoverning
  | started manifest hcharter _ =>
    rw [hcharter]
    exact charter?_startConfigured w host manifest
  | unloadable manifestPath reason hcharter _ =>
    rw [hcharter]
    exact (charter?_addProject w _ _).trans (if_pos rfl)
  | inferred hcharter _ =>
    rw [hcharter]
    obtain ⟨⟨p, hp, hkind⟩, -⟩ := inferredFor_spec h
    exact charter?_of_live .inferred nofun hp hkind

/-- The project that takes a path has the charter of its patron. -/
theorem charter?_assign (h : Consistent w) (host : Host) (path : Path) :
    (w.assign host path).2.charter? (w.assign host path).1 = some (w.patron host path) := by
  rw [assign_eq, charter?_addRoot]
  exact charter?_taker h host path

theorem mandate?_next (h : Consistent w) : w.mandate? w.nextId = none := by
  unfold mandate?
  rw [h.next]
  rfl

/-- The mandates after a path has been assigned: those that were there, and the new one. -/
theorem mandate?_assign (h : Consistent w) (host : Host) (path : Path) (x : ProjectId) :
    (w.assign host path).2.mandate? x =
      if x = w.nextId then w.commission? host path else w.mandate? x := by
  rw [assign_eq, mandate?_addRoot]
  have hold : w.commission? host path = none →
      w.mandate? x = if x = w.nextId then w.commission? host path else w.mandate? x := by
    intro hsettled
    split
    · rename_i hx
      rw [hx, hsettled, mandate?_next h]
    · rfl
  have htakes := taker_takes h host path
  generalize w.taker host path = taker at htakes
  cases htakes with
  | governed id _ _ hsettled => exact hold hsettled
  | started manifest _ hcommission =>
    rw [hcommission]
    exact mandate?_startConfigured w host manifest x
  | unloadable manifestPath reason _ hcommission =>
    rw [hcommission]
    exact mandate?_addProject w _ x
  | inferred _ hsettled => exact (mandate?_inferredFor h x).trans (hold hsettled)

/-! ## Roots -/

theorem rootKind_foldl_addRoot (w : Workspace) (roots : List Path) (id : ProjectId) (q : Path)
    (x : ProjectId) :
    (roots.foldl (fun w root => w.addRoot id root) w).rootKind q x =
      if x = id ∧ q ∈ roots then (w.project? id).map Project.kind else w.rootKind q x := by
  induction roots generalizing w with
  | nil => simp
  | cons root rest ih =>
    have hkind : ((w.addRoot id root).project? id).map Project.kind =
        (w.project? id).map Project.kind := kind_foldl_addRoot w [root] id
    rw [List.foldl_cons, ih, hkind, rootKind_addRoot]
    by_cases hx : x = id <;> by_cases hq : q = root <;> simp [hx, hq]

/-- A configured project without roots gets some, and what is open of them is its own. -/
theorem rootKind_endowed {p : Project} (h : Consistent w) (hlive : w.project? id = some p)
    (hkind : p.kind = .configured) (hempty : ∀ q, w.rootKind q id = none) (roots : List Path)
    (q : Path) (x : ProjectId) :
    ((roots.foldl (fun w root => w.addRoot id root) w).takeOverOpenRoots id).rootKind q x =
      if q ∈ roots then
        if x = id then some .configured
        else if w.documents.isOpen q = true then none else w.rootKind q x
      else w.rootKind q x := by
  have hmoves : Moves Memory.empty.host w (roots.foldl (fun w root => w.addRoot id root) w) :=
    addRoots_moves w id roots
  rw [rootKind_takeOverOpenRoots (hmoves.consistent h), hmoves.isOpen, rootKind_foldl_addRoot,
    rootKind_foldl_addRoot, hlive, Option.map_some, hkind, hempty]
  by_cases hq : q ∈ roots <;> by_cases hx : x = id <;> simp [hq, hx]

/-- A configured project starts with what its manifest names, and what is open of that is its
own. -/
theorem rootKind_startConfigured (h : Consistent w) (host : Host) (manifest : Manifest) (q : Path)
    (x : ProjectId) :
    (w.startConfigured host manifest).2.rootKind q x =
      if q ∈ manifest.named host w.settings then
        if x = w.nextId then some .configured
        else if w.documents.isOpen q = true then none else w.rootKind q x
      else w.rootKind q x := by
  let make : ProjectId → Project := fun id => .configured id manifest w.settings.capability
  have hstart : Move host w (w.addProject make).2 :=
    .start w (.configured manifest.path (.loaded manifest)) _ nofun
  have hlive : (w.addProject make).2.project? w.nextId = some (make w.nextId) :=
    (project?_addProject w make _).trans (if_pos rfl)
  have hroots : ∀ q x, (w.addProject make).2.rootKind q x = w.rootKind q x :=
    rootKind_addProject h fun _ => rfl
  have hempty : ∀ q, (w.addProject make).2.rootKind q w.nextId = none := fun q =>
    (hroots q _).trans (rootKind_of_none h.next)
  refine (rootKind_endowed (hstart.consistent h) hlive rfl hempty
    (manifest.named host w.settings) q x).trans ?_
  rw [hroots]
  rfl

/-- What a manifest names that gets a project when `path` is assigned. -/
def granted (w : Workspace) (host : Host) (path : Path) : List Path :=
  match w.commission? host path with
  | some mandate => mandate.named host w.settings
  | none => []

theorem rootKind_taker (h : Consistent w) (host : Host) (path q : Path) (x : ProjectId) :
    (w.taker host path).2.rootKind q x =
      if q ∈ w.granted host path then
        if x = w.nextId then some .configured
        else if w.documents.isOpen q = true then none else w.rootKind q x
      else w.rootKind q x := by
  unfold granted
  have htakes := taker_takes h host path
  generalize w.taker host path = taker at htakes
  cases htakes with
  | governed id _ _ hsettled =>
    rw [hsettled]
    rfl
  | started manifest _ hcommission =>
    rw [hcommission]
    exact rootKind_startConfigured h host manifest q x
  | unloadable manifestPath reason _ hcommission =>
    rw [hcommission]
    exact rootKind_addProject h (fun _ => rfl) q x
  | inferred _ hsettled =>
    rw [hsettled]
    exact (inferredFor_spec h).2 q x

/-- The roots after a path has been assigned. -/
theorem rootKind_assign (h : Consistent w) (host : Host) (path q : Path) (x : ProjectId) :
    (w.assign host path).2.rootKind q x =
      if x = (w.assign host path).1 ∧ q = path then some (w.patron host path).kind
      else if q ∈ w.granted host path then
        if x = w.nextId then some .configured
        else if w.documents.isOpen q = true then none else w.rootKind q x
      else w.rootKind q x := by
  obtain ⟨p, hp, hcharter⟩ := charter?_eq_some.1 (charter?_taker h host path)
  rw [assign_eq, rootKind_addRoot, hp, rootKind_taker h, ← hcharter, ← Project.kind_eq]
  rfl

/-! ## Rebuilding -/

/-- The project is there and has `path` as a root after its next build. -/
def KeepsRoot (w : Workspace) (host : Host) (id : ProjectId) (path : Path) : Prop :=
  ∃ p, w.project? id = some p ∧ p.Retains (w.context host) path

/-- The roots of a project after its rebuild. -/
theorem hasRoot_refresh_self (h : Consistent w) (host : Host) (id : ProjectId) (q : Path) :
    (w.refresh host id).2.hasRoot q id = true ↔ w.KeepsRoot host id q := by
  unfold KeepsRoot
  cases hlive : w.project? id with
  | none =>
    rw [refresh_of_none host hlive]
    unfold hasRoot
    rw [hlive]
    simp
  | some p =>
    obtain ⟨p', hp', hclean, rfl | ⟨build, hbuilt⟩⟩ := refresh_self host hlive
    · obtain ⟨files, hsettled⟩ := (h.linked id p' hlive).settled hclean
      rw [hasRoot_of_live hp']
      simp only [Option.some.injEq, exists_eq_left']
      unfold Project.Retains
      rw [Project.successor?_of_fresh hsettled.isStale]
    · rw [hasRoot_of_live hp', Project.hasRoot_of_refresh? hbuilt]
      simp

/-- A configured project that is there and dirty takes its open roots from the others. -/
def Takeover (w : Workspace) (host : Host) (id : ProjectId) (path : Path) : Prop :=
  w.documents.isOpen path = true ∧ w.KeepsRoot host id path ∧
    ∃ p, w.project? id = some p ∧ p.kind = .configured ∧ p.isDirty = true

/-- The roots of the other projects after a rebuild. -/
theorem rootKind_refresh_other (h : Consistent w) (host : Host) (hx : x ≠ id) (q : Path) :
    (w.Takeover host id q → (w.refresh host id).2.rootKind q x = none) ∧
      (¬ w.Takeover host id q → (w.refresh host id).2.rootKind q x = w.rootKind q x) := by
  unfold Takeover KeepsRoot
  rw [refresh_eq]
  cases hlive : w.project? id with
  | none => exact ⟨fun htake => by simp at htake, fun _ => rfl⟩
  | some p =>
    simp only [Option.some.injEq, exists_eq_left']
    cases hbuilt : p.refresh? (w.context host) with
    | none =>
      refine ⟨fun htake => ?_, fun _ => rfl⟩
      obtain ⟨rebuilt, build, hsome⟩ := Project.refresh?_of_isDirty htake.2.2.2 (w.context host)
      rw [hbuilt] at hsome
      cases hsome
    | some result =>
      obtain ⟨rebuilt, build⟩ := result
      obtain ⟨hdirty, hrebuilt⟩ := Project.rebuilt_of_refresh? hbuilt
      have hother : (w.record id rebuilt build).rootKind q x = w.rootKind q x :=
        rootKind_of_frame (frame_record w id rebuilt build) hx q
      have hisOpen : (w.record id rebuilt build).documents.isOpen q = w.documents.isOpen q :=
        (Move.rebuild w id p rebuilt build hlive hbuilt : Move host _ _).isOpen q
      have hself : ((w.record id rebuilt build).rootKind q id).isSome = true ↔
          p.Retains (w.context host) q := by
        rw [← hasRoot_eq_isSome, hasRoot_of_live (project?_record_self hlive)]
        exact Project.hasRoot_of_refresh? hbuilt
      simp only [hrebuilt.kind, hdirty, and_true]
      by_cases hkind : p.kind = .configured
      · rw [if_pos hkind, rootKind_takeOverOpenRoots (h.record hlive hbuilt), hisOpen, hother]
        refine ⟨fun htake => if_pos ⟨htake.1, hself.2 htake.2.1, hx⟩, fun hnot => if_neg ?_⟩
        exact fun htake => hnot ⟨htake.1, hself.1 htake.2.1, hkind⟩
      · rw [if_neg hkind]
        exact ⟨fun htake => absurd htake.2.2 hkind, fun _ => hother⟩

/-- A project that loses no root of its own in a rebuild keeps its charter. -/
theorem charter?_refresh (h : Consistent w) (host : Host) (id x : ProjectId) {manifestPath : Path}
    (hx : w.charter? x = some (.configured manifestPath)) :
    (w.refresh host id).2.charter? x = some (.configured manifestPath) := by
  have hchain : Transactions host .refreshAll (w, still) ((w.refresh host id).2, still) :=
    refresh_transactions w id
  exact hchain.configured h hx nofun

end Codebase.Workspace
