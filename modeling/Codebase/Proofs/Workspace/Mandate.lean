import Codebase.Proofs.Workspace.Charter
/-!
# What a project knows of its manifest

The mandate of a configured project is what it knows of its manifest: where that lies, what was last
read of it, and whether it is to be read again.  Who governs a path depends on nothing else, so what
an operation does to `mandate?` says whether it changes who governs.

* `mandate?_unroot`, `mandate?_closeFile`, … — taking roots away changes no mandate.
* `mandate?_refresh` — a rebuild changes the mandate of its project alone, and only if the manifest
  is to be read again.
* `Ordered` — the projects are kept in the order of their identities, so the first project with a
  property is the oldest one.
* `governor?_congr` — with the same mandates, the same governors.
-/

namespace Codebase

/-- What a configured project knows of its manifest. -/
structure Mandate where
  manifestPath : Path
  state : ManifestState
  /-- The manifest is to be read again before the next build. -/
  isStale : Bool

/-- The files that a manifest names on a host, under these settings. -/
def Manifest.named (manifest : Manifest) (host : Host) (settings : Settings) : List Path :=
  manifest.roots host settings.manifestFileNames settings.resolution.extensions

namespace Mandate

/-- The files that the manifest names, if it is loaded. -/
def named (mandate : Mandate) (host : Host) (settings : Settings) : List Path :=
  match mandate.state with
  | .loaded manifest => manifest.named host settings
  | .failed _ => []

/-- The manifest that the next build reads, if one is to be read and is still there. -/
def successor? (mandate : Mandate) (host : Host) (settings : Settings) : Option Manifest :=
  if mandate.isStale then
    match mandate.manifestPath.parent? with
    | none => none
    | some directory =>
      match Manifest.lookup host settings.manifestFileNames directory with
      | .found manifest => if manifest.path = mandate.manifestPath then some manifest else none
      | _ => none
  else none

end Mandate

namespace Project

variable {project other rebuilt : Project} {ctx : Context} {build : Build} {path q : Path}

def mandate? (project : Project) : Option Mandate :=
  match project.origin with
  | .configured manifestPath state => some ⟨manifestPath, state, project.isStale⟩
  | _ => none

theorem mandate?_eq_none_iff : project.mandate? = none ↔ project.kind ≠ .configured := by
  unfold mandate? kind
  cases project.origin <;> simp

theorem charter_of_mandate? {mandate : Mandate} (h : project.mandate? = some mandate) :
    project.charter = .configured mandate.manifestPath ∧ project.isStale = mandate.isStale := by
  unfold mandate? at h
  unfold charter
  split at h
  · rename_i manifestPath state horigin
    cases h
    rw [horigin]
    exact ⟨rfl, rfl⟩
  · cases h

theorem manifest?_eq_some {manifest : Manifest} : project.manifest? = some manifest ↔
    ∃ mandate, project.mandate? = some mandate ∧ mandate.state = .loaded manifest := by
  unfold manifest? mandate?
  cases horigin : project.origin with
  | inferred => simp
  | auxiliary => simp
  | configured manifestPath state => cases state <;> simp

theorem manifestPath?_congr (h : other.mandate? = project.mandate?) :
    other.manifestPath? = project.manifestPath? := by
  unfold mandate? at h
  unfold manifestPath?
  cases horigin : project.origin <;> cases horigin' : other.origin <;> simp_all

theorem manifestDirectory?_congr (h : other.mandate? = project.mandate?) :
    other.manifestDirectory? = project.manifestDirectory? := by
  unfold manifestDirectory?
  rw [manifestPath?_congr h]

theorem manifestDirectory?_eq_some {directory : Path} :
    project.manifestDirectory? = some directory ↔ ∃ mandate, project.mandate? = some mandate ∧
      mandate.manifestPath.parent? = some directory := by
  unfold manifestDirectory? manifestPath? mandate?
  cases project.origin <;> simp

theorem covers_congr (h : other.mandate? = project.mandate?) (path : Path)
    (extensions : List String) : other.covers path extensions = project.covers path extensions := by
  unfold mandate? at h
  unfold covers
  cases horigin : project.origin <;> cases horigin' : other.origin <;> simp_all

theorem covers_of_manifest? {manifest : Manifest} {extensions : List String}
    (h : project.manifest? = some manifest) :
    project.covers path extensions = manifest.covers path extensions := by
  unfold manifest? at h
  unfold covers
  split at h
  · rename_i horigin
    cases h
    rw [horigin]
  · cases h

/-- The manifest that the project reads before its next build. -/
def successor? (project : Project) (ctx : Context) : Option Manifest :=
  project.mandate?.bind fun mandate => mandate.successor? ctx.host ctx.settings

theorem successor?_of_fresh (h : project.isStale = false) : project.successor? ctx = none := by
  unfold successor?
  cases hmandate : project.mandate? with
  | none => rfl
  | some mandate =>
    have hfresh : mandate.isStale = false := by
      rw [← (charter_of_mandate? hmandate).2]
      exact h
    unfold Mandate.successor?
    simp [hfresh]

/-- The project has `path` as a root after its next build. -/
def Retains (project : Project) (ctx : Context) (path : Path) : Prop :=
  match project.successor? ctx with
  | some manifest =>
    path ∈ manifest.named ctx.host ctx.settings ∨
      project.hasRoot path = true ∧ ctx.documents.isOpen path = true
  | none => project.hasRoot path = true

theorem hasRoot_adopt {manifest : Manifest} :
    (project.adopt ctx manifest).hasRoot q = true ↔ q ∈ manifest.named ctx.host ctx.settings ∨
      project.hasRoot q = true ∧ ctx.documents.isOpen q = true := by
  unfold adopt Manifest.named
  simp only [hasRoot_iff, Roster.mem_foldl_insert, Roster.mem_ofList, List.mem_filter]
  rfl

/-- Reading the manifest again gives the project the roots that the manifest names, beside its open
ones; without a manifest to follow it keeps those that it has. -/
theorem hasRoot_reread (hstale : project.isStale = true) :
    (project.reread ctx).hasRoot q = true ↔ project.Retains ctx q := by
  unfold Retains successor? mandate? reread Mandate.successor? manifestDirectory? manifestPath?
  simp only
  cases horigin : project.origin with
  | inferred => exact Iff.rfl
  | auxiliary => exact Iff.rfl
  | configured manifestPath state =>
    simp only [Option.bind_some, hstale, if_true]
    cases manifestPath.parent? with
    | none => exact Iff.rfl
    | some directory =>
      simp only
      cases Manifest.lookup ctx.host ctx.settings.manifestFileNames directory with
      | notFound => exact Iff.rfl
      | failed _ reason => exact Iff.rfl
      | found manifest =>
        simp only
        split
        · exact hasRoot_adopt
        · exact Iff.rfl

theorem hasRoot_of_refresh? (h : project.refresh? ctx = some (rebuilt, build)) :
    rebuilt.hasRoot q = true ↔ project.Retains ctx q := by
  obtain ⟨-, -, rfl⟩ := eq_of_refresh? h
  cases hstale : project.isStale with
  | true =>
    rw [prepared_of_stale hstale]
    exact hasRoot_reread hstale
  | false =>
    rw [prepared_of_fresh hstale]
    unfold Retains
    rw [successor?_of_fresh hstale]
    rfl

/-- A project whose manifest is not read again keeps its mandate. -/
theorem mandate?_of_refresh?
    (hfresh : ∀ mandate, project.mandate? = some mandate → mandate.isStale = false)
    (h : project.refresh? ctx = some (rebuilt, build)) : rebuilt.mandate? = project.mandate? := by
  cases hmandate : project.mandate? with
  | none =>
    rw [mandate?_eq_none_iff] at hmandate ⊢
    rw [(rebuilt_of_refresh? h).2.kind]
    exact hmandate
  | some mandate =>
    have hkept : project.isStale = false := by
      rw [(charter_of_mandate? hmandate).2, hfresh mandate hmandate]
    obtain ⟨-, -, rfl⟩ := eq_of_refresh? h
    rw [prepared_of_fresh hkept]
    exact hmandate

end Project

namespace Workspace

variable {host : Host} {w w' : Workspace} {id x : ProjectId} {path q : Path} {mandate : Mandate}
  {charter : Charter}

/-- The mandate of a live project that is configured. -/
def mandate? (w : Workspace) (id : ProjectId) : Option Mandate :=
  (w.project? id).bind Project.mandate?

theorem mandate?_eq_some :
    w.mandate? id = some mandate ↔ ∃ p, w.project? id = some p ∧ p.mandate? = some mandate :=
  Option.bind_eq_some_iff

theorem mandate?_of_live {p : Project} (h : w.project? id = some p) :
    w.mandate? id = p.mandate? := by
  unfold mandate?
  rw [h]
  rfl

theorem mandate?_congr (h : w'.project? id = w.project? id) : w'.mandate? id = w.mandate? id := by
  unfold mandate?
  rw [h]

theorem charter?_of_mandate? (h : w.mandate? id = some mandate) :
    w.charter? id = some (.configured mandate.manifestPath) := by
  obtain ⟨p, hp, hmandate⟩ := mandate?_eq_some.1 h
  exact charter?_eq_some.2 ⟨p, hp, (Project.charter_of_mandate? hmandate).1⟩

/-- Without a manifest there is no mandate. -/
theorem mandate?_eq_none (hplain : charter.kind ≠ .configured) (h : w.charter? id = some charter) :
    w.mandate? id = none := by
  obtain ⟨p, hp, rfl⟩ := charter?_eq_some.1 h
  rw [mandate?_of_live hp, Project.mandate?_eq_none_iff, Project.kind_eq]
  exact hplain

/-! ## Small operations -/

theorem mandate?_modifyProject (f : Project → Project) (hf : ∀ p, (f p).mandate? = p.mandate?)
    (id x : ProjectId) : (w.modifyProject id f).mandate? x = w.mandate? x := by
  unfold mandate?
  rw [project?_modifyProject]
  split
  · rw [Option.bind_map]
    exact congrArg _ (funext hf)
  · rfl

@[simp] theorem mandate?_touch (w : Workspace) (id x : ProjectId) :
    (w.modifyProject id Project.touch).mandate? x = w.mandate? x :=
  mandate?_modifyProject Project.touch (fun _ => rfl) id x

theorem mandate?_removeRoot (w : Workspace) (id : ProjectId) (path : Path) (x : ProjectId) :
    (w.modifyProject id (·.removeRoot path)).mandate? x = w.mandate? x :=
  mandate?_modifyProject (·.removeRoot path) (fun _ => rfl) id x

@[simp] theorem mandate?_addRoot (w : Workspace) (id : ProjectId) (path : Path) (x : ProjectId) :
    (w.addRoot id path).mandate? x = w.mandate? x := by
  refine Eq.trans ?_ (mandate?_modifyProject (w := w) (·.addRoot path) (fun _ => rfl) id x)
  unfold mandate?
  rw [project?_addRoot, project?_modifyProject]

theorem mandate?_foldl_addRoot (w : Workspace) (roots : List Path) (id x : ProjectId) :
    (roots.foldl (fun w root => w.addRoot id root) w).mandate? x = w.mandate? x := by
  induction roots generalizing w with
  | nil => rfl
  | cons root rest ih => rw [List.foldl_cons, ih, mandate?_addRoot]

theorem mandate?_foldl_touch (w : Workspace) (ids : List ProjectId) (x : ProjectId) :
    (ids.foldl (fun w id => w.modifyProject id Project.touch) w).mandate? x = w.mandate? x :=
  List.foldlRecOn (motive := fun w' => w'.mandate? x = w.mandate? x) _ _ rfl
    fun w' hw' id _ => (mandate?_touch w' id x).trans hw'

theorem mandate?_touchOwners (w : Workspace) (path : Path) (x : ProjectId) :
    (w.touchOwners path).mandate? x = w.mandate? x :=
  mandate?_foldl_touch w _ x

theorem mandate?_addProject (w : Workspace) (make : ProjectId → Project) (x : ProjectId) :
    (w.addProject make).2.mandate? x =
      if x = ⟨w.lastNumber + 1⟩ then (make ⟨w.lastNumber + 1⟩).mandate? else w.mandate? x := by
  unfold mandate?
  rw [project?_addProject]
  split <;> rfl

theorem mandate?_removeProjects (w : Workspace) (ids : List ProjectId) (x : ProjectId) :
    (w.removeProjects ids).mandate? x = if x ∈ ids then none else w.mandate? x := by
  split
  · rename_i hx
    cases hmandate : (w.removeProjects ids).mandate? x with
    | none => rfl
    | some mandate =>
      have hcharter := charter?_of_mandate? hmandate
      rw [charter?_removeProjects, if_pos hx] at hcharter
      cases hcharter
  · rename_i hx
    exact mandate?_congr (project?_removeProjects w ids hx)

/-- Projects without a manifest go, and no mandate with them. -/
theorem mandate?_removeProjects_plain {ids : List ProjectId} (hplain : charter.kind ≠ .configured)
    (hids : ∀ id ∈ ids, w.charter? id = some charter) (x : ProjectId) :
    (w.removeProjects ids).mandate? x = w.mandate? x := by
  rw [mandate?_removeProjects]
  split
  · rename_i hx
    exact (mandate?_eq_none hplain (hids x hx)).symm
  · rfl

theorem mandate?_dropStandIns (w : Workspace) (path : Path) (x : ProjectId) :
    (w.dropStandIns path).mandate? x = w.mandate? x := by
  have hplain : Charter.auxiliary.kind ≠ .configured := nofun
  refine mandate?_removeProjects_plain hplain (fun id hid => ?_) x
  obtain ⟨-, hstandIn⟩ := List.mem_filter.1 hid
  obtain ⟨p, hp, hkind⟩ := Option.any_eq_true _ _ |>.1 hstandIn
  exact charter?_of_live .auxiliary hplain hp (of_decide_eq_true hkind)

theorem mandate?_opening (w : Workspace) (path : Path) (opened : Documents.Opened)
    (documents : Documents) (x : ProjectId) :
    (w.opening path opened documents).mandate? x = w.mandate? x := by
  have hdropped : ({ w with documents }.dropStandIns path).mandate? x = w.mandate? x :=
    mandate?_dropStandIns { w with documents } path x
  unfold opening
  simp only
  split
  · rw [mandate?_touchOwners, hdropped]
  · exact hdropped

theorem mandate?_addStandIn (h : Consistent w) (documents : Documents) (path : Path)
    (x : ProjectId) :
    ({ w with documents }.addStandIn path).2.mandate? x = w.mandate? x := by
  by_cases hx : x = ⟨w.lastNumber + 1⟩
  · subst hx
    have hnone : w.mandate? ⟨w.lastNumber + 1⟩ = none := by
      unfold mandate?
      rw [h.fresh]
      rfl
    rw [hnone]
    have hplain : Charter.auxiliary.kind ≠ .configured := nofun
    exact mandate?_eq_none hplain
      ((charter?_addStandIn { w with documents } path _).trans (if_pos rfl))
  · exact mandate?_congr ((project?_addStandIn { w with documents } path x).trans (if_neg hx))

/-! ## Roots change hands -/

theorem mandate?_takeRoot {project : Project} (hlive : w.project? id = some project) (path : Path)
    (x : ProjectId) :
    (if (project.removeRoot path).contains path then
        w.modifyProject id fun _ => project.removeRoot path
      else (w.modifyProject id fun _ => project.removeRoot path).removeLink id path).mandate? x =
      w.mandate? x := by
  rw [modifyProject_of_live hlive (·.removeRoot path), ← mandate?_removeRoot w id path x]
  split <;> rfl

theorem mandate?_unrootFrom (path : Path) (s : Workspace × List ProjectId) (id x : ProjectId) :
    (unrootFrom path s id).1.mandate? x = s.1.mandate? x := by
  unfold unrootFrom
  simp only
  split
  · rfl
  · rename_i project hlive
    split
    · exact mandate?_takeRoot hlive path x
    · rfl

theorem mandate?_closeIn (path : Path) (s : Workspace × List ProjectId) (id x : ProjectId) :
    (closeIn path s id).1.mandate? x = s.1.mandate? x := by
  unfold closeIn
  simp only
  split
  · rfl
  · rename_i project hlive
    split
    · exact mandate?_takeRoot hlive path x
    · exact mandate?_touch _ _ x

/-- The listed projects have no mandate. -/
theorem Thinning.mandate? {s : Workspace × List ProjectId} (h : Thinning w s)
    (hsame : ∀ x, s.1.mandate? x = w.mandate? x) (x : ProjectId) :
    (s.1.removeProjects s.2).mandate? x = w.mandate? x := by
  have hplain : Charter.inferred.kind ≠ .configured := nofun
  refine (mandate?_removeProjects_plain hplain (fun id hid => ?_) x).trans (hsame x)
  rw [h.charter]
  exact h.listed id hid

theorem mandate?_unroot (w : Workspace) (path : Path) (keep : Option ProjectId) (x : ProjectId) :
    (w.unroot path keep).mandate? x = w.mandate? x := by
  let others := (w.ownership.ownersOf path).filter fun id => some id ≠ keep
  have hthinning : Thinning w (others.foldl (Workspace.unrootFrom path) (w, [])) :=
    List.foldlRecOn others _ (thinning_refl w) fun _ hs id _ => hs.unrootFrom path id
  refine hthinning.mandate? (fun x => ?_) x
  refine List.foldlRecOn (motive := fun s => s.1.mandate? x = w.mandate? x) others _ ?_
    fun s hs id _ => (mandate?_unrootFrom path s id x).trans hs
  rfl

theorem mandate?_takeOverOpenRoots (w : Workspace) (id x : ProjectId) :
    (w.takeOverOpenRoots id).mandate? x = w.mandate? x :=
  List.foldlRecOn (motive := fun w' => w'.mandate? x = w.mandate? x) _ _ rfl
    fun w' hw' root _ => (mandate?_unroot w' root (some id) x).trans hw'

theorem mandate?_closeFile (w : Workspace) (path : Path) (x : ProjectId) :
    (w.closeFile path).2.mandate? x = w.mandate? x := by
  unfold closeFile
  split
  · rfl
  · rename_i documents _
    simp only
    let owners := w.ownership.ownersOf path
    have hthinning : Thinning { w with documents }
        (owners.foldl (Workspace.closeIn path) ({ w with documents }, [])) :=
      List.foldlRecOn owners _ (thinning_refl { w with documents }) fun _ hs id _ =>
        hs.closeIn path id
    have hsame : ∀ x, (owners.foldl (Workspace.closeIn path)
        ({ w with documents }, [])).1.mandate? x = { w with documents }.mandate? x :=
      fun x => List.foldlRecOn (motive := fun s => s.1.mandate? x = w.mandate? x) owners _ rfl
        fun s hs id _ => (mandate?_closeIn path s id x).trans hs
    have hremoved := hthinning.mandate? hsame x
    unfold forgetUnowned
    split
    · exact hremoved
    · exact hremoved

/-! ## Starting a project -/

theorem mandate?_startInferred (h : Consistent w) (x : ProjectId) :
    w.startInferred.2.mandate? x = w.mandate? x := by
  refine (mandate?_addProject w _ x).trans ?_
  split
  · rename_i hx
    rw [hx]
    unfold mandate?
    rw [h.fresh]
    rfl
  · rfl

theorem mandate?_inferredFor (h : Consistent w) (x : ProjectId) :
    w.inferredFor.2.mandate? x = w.mandate? x := by
  unfold inferredFor
  split
  · split
    · rfl
    · exact mandate?_startInferred h x
  · exact mandate?_startInferred h x

theorem mandate?_startConfigured (w : Workspace) (host : Host) (manifest : Manifest)
    (x : ProjectId) :
    (w.startConfigured host manifest).2.mandate? x =
      if x = ⟨w.lastNumber + 1⟩ then some ⟨manifest.path, .loaded manifest, false⟩
      else w.mandate? x := by
  unfold startConfigured
  simp only
  rw [mandate?_takeOverOpenRoots, mandate?_foldl_addRoot, mandate?_addProject]
  rfl

/-! ## Rebuilding -/

/-- Only the project that is rebuilt reads its manifest again. -/
theorem mandate?_refresh (host : Host)
    (hkept : x = id → ∀ mandate, w.mandate? id = some mandate → mandate.isStale = false) :
    (w.refresh host id).2.mandate? x = w.mandate? x := by
  rw [refresh_eq]
  split
  · rfl
  · rename_i project hlive
    split
    · rfl
    · rename_i rebuilt build hbuilt
      have hrecord : (w.record id rebuilt build).mandate? x = w.mandate? x := by
        by_cases hx : x = id
        · subst hx
          rw [mandate?_of_live (project?_record_self hlive), mandate?_of_live hlive]
          refine Project.mandate?_of_refresh? (fun mandate hmandate => ?_) hbuilt
          exact hkept rfl mandate ((mandate?_of_live hlive).trans hmandate)
        · exact mandate?_congr (by rw [project?_record, if_neg hx])
      simp only
      split
      · rw [mandate?_takeOverOpenRoots, hrecord]
      · exact hrecord

/-! ## The order of projects -/

/-- The projects are kept in the order of their identities. -/
def Ordered (w : Workspace) : Prop :=
  w.projects.keys.Pairwise fun a b => a.number < b.number

theorem ordered_new (settings : Settings) : Ordered (new settings) := List.Pairwise.nil

theorem Ordered.addProject (h : Ordered w) (hconsistent : Consistent w)
    (make : ProjectId → Project) : Ordered (w.addProject make).2 := by
  have hkeys : (w.addProject make).2.projects.keys =
      w.projects.keys ++ [⟨w.lastNumber + 1⟩] :=
    Table.keys_insert_of_new (Table.contains_eq_false.2 hconsistent.fresh) _
  unfold Ordered
  rw [hkeys, List.pairwise_append]
  refine ⟨h, List.pairwise_singleton _ _, fun a ha b hb => ?_⟩
  obtain ⟨p, hp⟩ := Table.contains_eq_true.1 (Table.contains_iff.2 ha)
  have hlower := hconsistent.numbered a p hp
  rw [List.mem_singleton.1 hb]
  exact Nat.lt_succ_of_le hlower

theorem Ordered.modifyProject (h : Ordered w) (id : ProjectId) (f : Project → Project) :
    Ordered (w.modifyProject id f) := by
  have hkeys : (w.modifyProject id f).projects.keys = w.projects.keys := Table.keys_modify _ _ _
  unfold Ordered
  rw [hkeys]
  exact h

theorem Move.ordered (hmove : Move host w w') (hconsistent : Consistent w) (h : Ordered w) :
    Ordered w' := by
  cases hmove with
  | touch id => exact h.modifyProject id _
  | outdate id => exact h.modifyProject id _
  | addRoot id path =>
    unfold Workspace.addRoot
    split
    · exact h.modifyProject id _
    · exact h
  | dropRoot id path project _ _ => exact h.modifyProject id _
  | loseRoot id path => exact h.modifyProject id _
  | start origin capability _ => exact h.addProject hconsistent _
  | standIn path documents _ _ =>
    have hdocuments : Ordered { w with documents } := h
    exact hdocuments.addProject (hconsistent.documents documents) fun id => .auxiliary id path
  | retire id =>
    unfold Workspace.removeProject
    split
    · exact h.sublist (Table.keys_erase_sublist _ _)
    · exact h
  | release path _ => exact h
  | rebuild id project rebuilt build _ _ => exact h.modifyProject id _

theorem Moves.ordered (hmoves : Moves host w w') (hconsistent : Consistent w) (h : Ordered w) :
    Ordered w' := by
  induction hmoves with
  | refl => exact h
  | tail hfirst hlast ih => exact hlast.ordered (Moves.consistent hfirst hconsistent) ih

theorem run_ordered_projects (settings : Settings) (steps : List (Host × Action)) :
    Ordered (run settings steps) := by
  have hact : ∀ w host (action : Action), True → (Consistent w ∧ Ordered w) →
      (Consistent (w.act host action) ∧ Ordered (w.act host action)) := by
    intro w host action _ ⟨hconsistent, h⟩
    obtain ⟨documents, hmoves⟩ := act_reaches host w action
    exact ⟨act_consistent hconsistent host action,
      hmoves.ordered (hconsistent.documents documents) h⟩
  exact (run_induction ⟨consistent_new settings, ordered_new settings⟩ hact steps
    fun _ _ => trivial).2

theorem map_id_projectList (h : Consistent w) : w.projectList.map Project.id = w.projects.keys := by
  unfold projectList Table.values Table.keys
  rw [List.map_map]
  refine List.map_congr_left fun e he => ?_
  exact h.named e.1 e.2 (Table.mem_entries.1 he)

theorem Ordered.pairwise (h : Ordered w) (hconsistent : Consistent w) :
    w.projectList.Pairwise fun p p' => p.id.number < p'.id.number := by
  have hkeys : (w.projectList.map Project.id).Pairwise fun a b => a.number < b.number := by
    rw [map_id_projectList hconsistent]
    exact h
  rw [List.pairwise_map] at hkeys
  exact hkeys

/-- In a list with rising numbers, the first one with a property is the one with the least
number. -/
theorem find?_eq_some_iff_of_rising {α : Type} {l : List α} {number : α → Nat} {f : α → Bool}
    {a : α} (h : l.Pairwise fun a b => number a < number b) : l.find? f = some a ↔
      a ∈ l ∧ f a = true ∧ ∀ b ∈ l, f b = true → number a ≤ number b := by
  induction l with
  | nil => simp
  | cons first rest ih =>
    obtain ⟨hfirst, hrest⟩ := List.pairwise_cons.1 h
    rw [List.find?_cons]
    cases hf : f first with
    | true =>
      rw [Option.some.injEq]
      constructor
      · rintro rfl
        refine ⟨List.mem_cons_self, hf, fun b hb _ => ?_⟩
        rcases List.mem_cons.1 hb with rfl | hlater
        · exact Nat.le_refl _
        · exact Nat.le_of_lt (hfirst b hlater)
      · rintro ⟨hmem, -, hleast⟩
        rcases List.mem_cons.1 hmem with rfl | hlater
        · rfl
        · exact absurd (hfirst a hlater) (Nat.not_lt.2 (hleast first List.mem_cons_self hf))
    | false =>
      simp only [ih hrest, List.forall_mem_cons, hf, Bool.false_eq_true, false_implies, true_and]
      refine and_congr_left fun ha => ⟨List.mem_cons_of_mem first, fun hmem => ?_⟩
      refine (List.mem_cons.1 hmem).resolve_left ?_
      rintro rfl
      rw [hf] at ha
      cases ha.1

/-- The first project with a property is the oldest one. -/
theorem oldest_of_find? {f : Project → Bool} {p : Project} (h : Consistent w) (hordered : Ordered w)
    (hfind : w.projectList.find? f = some p) :
    w.project? p.id = some p ∧ f p = true ∧
      ∀ x p', w.project? x = some p' → f p' = true → p.id.number ≤ x.number := by
  obtain ⟨hlisted, hf, hleast⟩ := (find?_eq_some_iff_of_rising (hordered.pairwise h)).1 hfind
  obtain ⟨k, hk⟩ := mem_projectList.1 hlisted
  refine ⟨(h.named k p hk).symm ▸ hk, hf, fun x p' hx hf' => ?_⟩
  rw [← h.named x p' hx]
  exact hleast p' (mem_projectList.2 ⟨x, hx⟩) hf'

/-! ## Who governs -/

/-- A project that one workspace finds first, another one with the same mandates finds as well. -/
theorem find?_congr {ancestor : Path} {p : Project} (h : Consistent w) (hordered : Ordered w)
    (h' : Consistent w') (hordered' : Ordered w')
    (hmandate : ∀ x, w'.mandate? x = w.mandate? x)
    (hfind : (w.projectList.find? fun p => p.manifestDirectory? = some ancestor) = some p) :
    ∃ p', (w'.projectList.find? fun p => p.manifestDirectory? = some ancestor) = some p' ∧
      p'.id = p.id ∧ p'.mandate? = p.mandate? := by
  -- what has a manifest in one workspace has the same one in the other
  have hsame : ∀ {w w' : Workspace} {x : ProjectId} {p : Project},
      (∀ x, w'.mandate? x = w.mandate? x) → w.project? x = some p →
      p.manifestDirectory? = some ancestor →
      ∃ p', w'.project? x = some p' ∧ p'.mandate? = p.mandate? ∧
        p'.manifestDirectory? = some ancestor := by
    intro w w' x p hmandate hp hdirectory
    have hx := hmandate x
    rw [mandate?_of_live hp] at hx
    have hsome : p.mandate? ≠ none := by
      rw [Ne, Project.mandate?_eq_none_iff, not_not]
      obtain ⟨manifestPath, hpath, -⟩ := Option.bind_eq_some_iff.1 hdirectory
      exact Project.manifestPath?_eq_some hpath
    obtain ⟨mandate, hm⟩ := Option.ne_none_iff_exists'.1 hsome
    obtain ⟨p', hp', hm'⟩ := mandate?_eq_some.1 (hx.trans hm)
    exact ⟨p', hp', hm'.trans hm.symm,
      (Project.manifestDirectory?_congr (hm'.trans hm.symm)).trans hdirectory⟩
  obtain ⟨hp, hdirectory, hleast⟩ := oldest_of_find? h hordered hfind
  obtain ⟨q, hq, hqmandate, hqdirectory⟩ := hsame hmandate hp (of_decide_eq_true hdirectory)
  cases hfound : w'.projectList.find? fun p => p.manifestDirectory? = some ancestor with
  | none =>
    exact absurd (decide_eq_true hqdirectory)
      (List.find?_eq_none.1 hfound q (mem_projectList.2 ⟨_, hq⟩))
  | some p' =>
    obtain ⟨hp', hdirectory', hleast'⟩ := oldest_of_find? h' hordered' hfound
    obtain ⟨r, hr, -, hrdirectory⟩ := hsame (fun x => (hmandate x).symm) hp'
      (of_decide_eq_true hdirectory')
    have hid : p'.id = p.id := by
      have hle := hleast' p.id q hq (decide_eq_true hqdirectory)
      have hge := hleast p'.id r hr (decide_eq_true hrdirectory)
      cases hid' : p'.id
      cases hid : p.id
      rw [hid', hid] at hle hge
      exact congrArg ProjectId.mk (Nat.le_antisymm hle hge)
    refine ⟨p', rfl, hid, ?_⟩
    rw [hid, hq] at hp'
    cases hp'
    exact hqmandate

theorem governorAt?_congr (h : Consistent w) (hordered : Ordered w) (h' : Consistent w')
    (hordered' : Ordered w') (hsettings : w'.settings = w.settings)
    (hmandate : ∀ x, w'.mandate? x = w.mandate? x) (path ancestor : Path) :
    w'.governorAt? host path ancestor = w.governorAt? host path ancestor := by
  unfold governorAt? extensions
  rw [hsettings]
  cases hfind : w.projectList.find? fun p => p.manifestDirectory? = some ancestor with
  | some p =>
    obtain ⟨p', hfind', hid, hp'⟩ := find?_congr h hordered h' hordered' hmandate hfind
    simp only [hfind', hid, Project.covers_congr hp']
  | none =>
    have hfind' : (w'.projectList.find? fun p => p.manifestDirectory? = some ancestor) = none := by
      cases hfound : w'.projectList.find? fun p => p.manifestDirectory? = some ancestor with
      | none => rfl
      | some p' =>
        obtain ⟨p, hp, -⟩ := find?_congr h' hordered' h hordered (fun x => (hmandate x).symm)
          hfound
        rw [hfind] at hp
        cases hp
    simp only [hfind']

theorem governor?_congr (h : Consistent w) (hordered : Ordered w) (h' : Consistent w')
    (hordered' : Ordered w') (hsettings : w'.settings = w.settings)
    (hmandate : ∀ x, w'.mandate? x = w.mandate? x) (path : Path) :
    w'.governor? host path = w.governor? host path := by
  have hat : w'.governorAt? host path = w.governorAt? host path :=
    funext fun ancestor =>
      governorAt?_congr h hordered h' hordered' hsettings hmandate path ancestor
  unfold governor?
  rw [hat]

end Workspace

end Codebase
