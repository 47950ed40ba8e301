import Codebase.Proofs.Workspace.Bypass
import Codebase.Proofs.Workspace.Home
import Codebase.Proofs.Workspace.Serving
import Codebase.Proofs.Workspace.StandIn
/-!
# Who comes upon the path of a stand-in

A stand-in starts for a path that nobody owns, and ends when that path is opened or deleted.  In
between another project can come by the path, and nothing ends the stand-in then: it stays among the
owners and, being the older root, before the project that has the file as well.

* `Encroaches` — the three ways in which an action gives a project the path of a stand-in.
* `act_owner_iff` — these are all.
* `stand_ins_are_alone_iff` — stand-ins are alone, and hide no project, exactly as long as no action
  encroaches upon one.
* `stand_in_hides_a_project` — they may not be.
-/

namespace Codebase.Workspace

variable {asked : Option Path} {host : Host} {action : Action} {w w' : Workspace}
  {a id x : ProjectId} {path : Path}

/-- An action, which leads from `w` to `w'`, gives the path of a stand-in to the project `x`. -/
inductive Encroaches (host : Host) (action : Action) (w w' : Workspace) (x : ProjectId)
    (path : Path) : Prop
  /-- The project starts, and its manifest names the path. -/
  | starting (p : Project) (manifest : Manifest) (new : w.project? x = none)
      (live : w'.project? x = some p) (loaded : p.manifest? = some manifest)
      (named : path ∈ manifest.roots host w.settings.manifestFileNames
        w.settings.resolution.extensions)
  /-- The project is built, and the path is among its files. -/
  | building (p : Project) (files : List Path) (live : w'.project? x = some p)
      (built : ∀ before, w.project? x = some before → before.buildCount < p.buildCount)
      (derived : p.derived = some files) (reached : path ∈ files)
  /-- The path is reported as created, and the manifest of the project covers it. -/
  | claiming (p : Project) (reported : action = .notice ⟨path, .created⟩)
      (plain : Manifest.isNamed w.settings.manifestFileNames path = false)
      (live : w.project? x = some p) (claimed : w.claims path p = true)

/-! ## Links and encroachment -/

/-- A project that was not linked before is linked exactly if it was started with the path or built
with it. -/
theorem Overlooks.linked_iff_encroaches (h : Overlooks asked host path w w')
    (hw' : Consistent w')
    (hreport : action = .notice ⟨path, .created⟩ →
      Manifest.isNamed w.settings.manifestFileNames path = true)
    (hother : ∀ p', w'.project? x = some p' → p'.kind = .auxiliary →
      path ∉ w'.ownership.membersOf x)
    (hunlinked : ∀ p p', w.project? x = some p → w'.project? x = some p' →
      p'.buildCount = p.buildCount → path ∉ w.ownership.membersOf x) :
    path ∈ w'.ownership.membersOf x ↔ Encroaches host action w w' x path := by
  constructor
  · intro hlinked
    obtain ⟨p', hp'⟩ := hw'.live_of_owner ((hw'.mirrored x path).2 hlinked)
    cases hp : w.project? x with
    | none =>
      obtain ⟨-, harises⟩ := h.new x p' hp hp'
      have hkind : p'.kind ≠ .auxiliary := fun hkind => hother p' hp' hkind hlinked
      rcases Project.contains_iff.1 (harises.linked.1 hlinked) with
        hroot | ⟨files, hderived, hmem⟩
      · obtain ⟨manifest, hmanifest, hnamed⟩ := (harises.named hkind).1 hroot
        exact .starting p' manifest hp hp' hmanifest hnamed
      · refine .building p' files hp' (fun before hbefore => ?_) hderived hmem
        rw [hp] at hbefore
        cases hbefore
    | some p =>
      have hlater := h.old x p p' hp hp'
      rcases Nat.lt_or_eq_of_le hlater.buildCount with hless | hsame
      · obtain ⟨files, hderived, hmem⟩ := (hlater.built hless).1 hlinked
        refine .building p' files hp' (fun before hbefore => ?_) hderived hmem
        rw [hp] at hbefore
        cases hbefore
        exact hless
      · exact absurd ((hlater.idle hsame.symm).2.1 hlinked) (hunlinked p p' hp hp' hsame.symm)
  · intro hencroaches
    cases hencroaches with
    | starting p' manifest hnew hp' hmanifest hnamed =>
      obtain ⟨-, harises⟩ := h.new x p' hnew hp'
      refine harises.linked.2 (Project.contains_iff.2 (.inl ?_))
      exact (harises.named (kind_of_manifest? hmanifest)).2 ⟨manifest, hmanifest, hnamed⟩
    | building p' files hp' hbuilt hderived hmem =>
      cases hp : w.project? x with
      | none =>
        obtain ⟨-, harises⟩ := h.new x p' hp hp'
        exact harises.linked.2 (Project.contains_iff.2 (.inr ⟨files, hderived, hmem⟩))
      | some p => exact ((h.old x p p' hp hp').built (hbuilt p hp)).2 ⟨files, hderived, hmem⟩
    | claiming p hreported hplain hp hclaims =>
      rw [hreport hreported] at hplain
      cases hplain

/-- When nothing starts and nothing is built, only a report can encroach. -/
theorem encroaches_iff_claims (hstill : ∀ p', w'.project? x = some p' →
      ∃ p, w.project? x = some p ∧ p'.buildCount = p.buildCount) :
    Encroaches host action w w' x path ↔
      action = .notice ⟨path, .created⟩ ∧
        Manifest.isNamed w.settings.manifestFileNames path = false ∧
        ∃ p, w.project? x = some p ∧ w.claims path p = true := by
  constructor
  · intro hencroaches
    cases hencroaches with
    | starting p' _ hnew hp' _ _ =>
      obtain ⟨p, hp, -⟩ := hstill p' hp'
      rw [hnew] at hp
      cases hp
    | building p' _ hp' hbuilt _ _ =>
      obtain ⟨p, hp, hsame⟩ := hstill p' hp'
      exact absurd (hbuilt p hp) (by rw [hsame]; exact Nat.lt_irrefl _)
    | claiming p hreported hplain hp hclaims => exact ⟨hreported, hplain, p, hp, hclaims⟩
  · rintro ⟨hreported, hplain, p, hp, hclaims⟩
    exact .claiming p hreported hplain hp hclaims

/-! ## The creation of the file -/

/-- A closed path becomes a root of some configured projects. -/
theorem foldl_claim_spec (h : Consistent w) (hclosed : w.documents.isOpen path = false)
    (ids : List ProjectId)
    (hids : ∀ id ∈ ids, ∃ manifestPath, w.charter? id = some (.configured manifestPath))
    {p' : Project} (hp' : (ids.foldl (fun w id => (w.addRoot id path).takeOverOpenRoots id)
      w).project? x = some p') :
    (∃ p, w.project? x = some p ∧ p'.buildCount = p.buildCount) ∧
      (path ∈ (ids.foldl (fun w id => (w.addRoot id path).takeOverOpenRoots id)
          w).ownership.membersOf x ↔ path ∈ w.ownership.membersOf x ∨ x ∈ ids) := by
  induction ids generalizing w with
  | nil => exact ⟨⟨p', hp', rfl⟩, (or_iff_left List.not_mem_nil).symm⟩
  | cons id rest ih =>
    rw [List.forall_mem_cons] at hids
    obtain ⟨⟨manifestPath, hcharter⟩, hrest⟩ := hids
    have hchain : Transactions Memory.empty.host (.notice ⟨path, .created⟩) (w, still)
        ((w.addRoot id path).takeOverOpenRoots id, still) :=
      foldl_claim_transactions h path [id] fun other hother =>
        ⟨manifestPath, List.mem_singleton.1 hother ▸ hcharter⟩
    obtain ⟨project, hlive, -⟩ := charter?_eq_some.1 hcharter
    obtain ⟨⟨last, hlast, hcount⟩, hlinked⟩ := ih (hchain.consistent h)
      ((isOpen_claim w id path path).trans hclosed)
      (fun other hother => (hrest other hother).imp fun _ hother =>
        hchain.configured h hother nofun) hp'
    -- the takeover concerns open documents only
    have hadded : (w.addRoot id path).documents.isOpen path = false := by
      unfold Workspace.addRoot
      split <;> exact hclosed
    have htaken := takeOverOpenRoots_ignores id hadded
    obtain ⟨next, hnext, hresembles⟩ := htaken.project x last hlast
    have hlink : path ∈ (w.addRoot id path).ownership.membersOf x ↔
        path ∈ w.ownership.membersOf x ∨ x = id := by
      unfold Workspace.addRoot
      rw [if_pos (Table.contains_eq_true.2 ⟨project, hlive⟩)]
      exact Ownership.mem_membersOf_add.trans (or_congr_right (and_iff_left rfl))
    refine ⟨?_, ?_⟩
    · rw [project?_addRoot] at hnext
      have hbefore : next.buildCount = last.buildCount := hresembles.buildCount.symm
      split at hnext
      · obtain ⟨p, hp, rfl⟩ := Option.map_eq_some_iff.1 hnext
        exact ⟨p, hp, hcount.trans hbefore.symm⟩
      · exact ⟨next, hnext, hcount.trans hbefore.symm⟩
    · rw [List.foldl_cons, hlinked, htaken.members x last hlast, hlink, or_assoc, List.mem_cons]

/-- The projects whose manifests claim a path, after those that hope for it were touched. -/
theorem mem_claimed_iff (h : Consistent w) {ids : List ProjectId} {touched : Workspace}
    (htouched : ids.foldl (fun w id => w.modifyProject id Project.touch) w = touched) :
    x ∈ (touched.projectList.filter (touched.claims path)).map Project.id ↔
      ∃ p, w.project? x = some p ∧ w.claims path p = true := by
  have hmoves : Moves Memory.empty.host w touched :=
    htouched ▸ Moves.foldl (fun w id => (Move.touch w id).moves) ids w
  have hclaims : ∀ p : Project, touched.claims path p = w.claims path p := by
    intro p
    unfold claims extensions
    rw [hmoves.settings]
  have hproject := project?_foldl_touch ids w
  rw [htouched] at hproject
  rw [List.mem_map]
  constructor
  · rintro ⟨p, hp, rfl⟩
    obtain ⟨hlisted, hclaimed⟩ := List.mem_filter.1 hp
    obtain ⟨y, hy⟩ := mem_projectList.1 hlisted
    rw [(hmoves.consistent h).named y p hy]
    rw [hclaims] at hclaimed
    rw [hproject] at hy
    split at hy
    · obtain ⟨before, hbefore, rfl⟩ := Option.map_eq_some_iff.1 hy
      exact ⟨before, hbefore, hclaimed⟩
    · exact ⟨p, hy, hclaimed⟩
  · rintro ⟨p, hp, hclaimed⟩
    have hlive : ∃ p', touched.project? x = some p' ∧ w.claims path p' = true := by
      rw [hproject, hp]
      split
      · exact ⟨p.touch, rfl, hclaimed⟩
      · exact ⟨p, rfl, hclaimed⟩
    obtain ⟨p', hp', hclaimed'⟩ := hlive
    refine ⟨p', List.mem_filter.2 ⟨mem_projectList.2 ⟨x, hp'⟩, ?_⟩,
      (hmoves.consistent h).named x p' hp'⟩
    rw [hclaims]
    exact hclaimed'

/-- The creation of a closed file links it to the projects whose manifests claim it. -/
theorem fileCreated_spec (h : Consistent w) (hclosed : w.documents.isOpen path = false)
    {p' : Project} (hp' : (w.fileCreated path).project? x = some p') :
    (∃ p, w.project? x = some p ∧ p'.buildCount = p.buildCount) ∧
      (path ∈ (w.fileCreated path).ownership.membersOf x ↔
        path ∈ w.ownership.membersOf x ∨ ∃ p, w.project? x = some p ∧ w.claims path p = true) := by
  unfold fileCreated at hp' ⊢
  simp only at hp' ⊢
  generalize hids : (w.projectList.filter hopes).map Project.id = ids at hp' ⊢
  have hmoves : Moves Memory.empty.host w
      (ids.foldl (fun w id => w.modifyProject id Project.touch) w) :=
    Moves.foldl (fun w id => (Move.touch w id).moves) ids w
  have htouched : Ignores path w (ids.foldl (fun w id => w.modifyProject id Project.touch) w) :=
    foldl_touch_ignores w ids
  have hconsistent := hmoves.consistent h
  obtain ⟨⟨next, hnext, hcount⟩, hlinked⟩ := foldl_claim_spec hconsistent
    ((hmoves.isOpen path).trans hclosed) _ (fun _ => charter?_of_claims hconsistent) hp'
  obtain ⟨p, hp, hresembles⟩ := htouched.project x next hnext
  exact ⟨⟨p, hp, hcount.trans hresembles.buildCount⟩,
    by rw [hlinked, htouched.members x next hnext, mem_claimed_iff h rfl]⟩

/-! ## One action -/

/-- Every stand-in is the only owner of its path. -/
def Unshadowed (w : Workspace) : Prop :=
  ∀ a path, w.StandsIn a path → ∀ x ∈ w.ownership.ownersOf path, x = a

/-- What is known of the workspaces before and after an action, and of a stand-in after it. -/
structure Stands (w w' : Workspace) (a : ProjectId) (path : Path) : Prop where
  before : Consistent w
  after : Consistent w'
  ancillary : Ancillary w'
  unshadowed : Unshadowed w
  stands : w'.StandsIn a path
  stood : ∀ p, w.project? a = some p → w.StandsIn a path
  closed : w.documents.isOpen path = false

/-- What else owns the path of a stand-in is no stand-in itself. -/
theorem Stands.other {p' : Project} (h : Stands w w' a path) (hx : x ≠ a)
    (hp' : w'.project? x = some p') (hkind : p'.kind = .auxiliary) :
    path ∉ w'.ownership.membersOf x := by
  intro hlinked
  have howner := (h.after.mirrored x path).2 hlinked
  exact hx (h.ancillary.single x a path (h.ancillary.standsIn h.after hp' hkind howner) h.stands)

/-- If the stand-in was there before, nothing else was linked to its path. -/
theorem Stands.unlinked {p : Project} (h : Stands w w' a path) (hx : x ≠ a)
    (ha : w.project? a = some p) : path ∉ w.ownership.membersOf x := fun hlinked =>
  hx (h.unshadowed a path (h.stood p ha) x ((h.before.mirrored x path).2 hlinked))

/-- Where nothing is asked the stand-in was there before. -/
theorem Stands.live (h : Stands w w' a path) (hoverlooks : Overlooks none host path w w') :
    ∃ p, w.project? a = some p := by
  obtain ⟨p', hp', hkind, -⟩ := h.stands
  cases hnone : w.project? a with
  | some p => exact ⟨p, rfl⟩
  | none => exact absurd rfl ((hoverlooks.new a p' hnone hp').2.served hkind)

/-- An operation that asks nothing. -/
theorem Stands.owner_iff (h : Stands w w' a path) (hx : x ≠ a)
    (hoverlooks : Overlooks none host path w w')
    (hreport : action = .notice ⟨path, .created⟩ →
      Manifest.isNamed w.settings.manifestFileNames path = true) :
    x ∈ w'.ownership.ownersOf path ↔ Encroaches host action w w' x path := by
  obtain ⟨p, ha⟩ := h.live hoverlooks
  rw [h.after.mirrored]
  exact hoverlooks.linked_iff_encroaches h.after hreport (fun p' => h.other hx)
    fun _ _ _ _ _ => h.unlinked hx ha

theorem Stands.owner_iff_of_bypasses (h : Stands w w' a path) (hx : x ≠ a)
    (hbypasses : Bypasses none host path w w')
    (hreport : action = .notice ⟨path, .created⟩ →
      Manifest.isNamed w.settings.manifestFileNames path = true) :
    x ∈ w'.ownership.ownersOf path ↔ Encroaches host action w w' x path :=
  h.owner_iff hx (hbypasses.overlooks h.before) hreport

/-- When a stand-in starts on the way to an answer, a project that was not built on this way has no
link to its path. -/
theorem Inquiries.unlinked {p p' : Project} (hinquiries : Inquiries asked host w w')
    (h : Consistent w) (hclosed : w.documents.isOpen path = false) (hnew : w.project? a = none)
    (hstand : w'.StandsIn a path) (hp : w.project? x = some p) (hp' : w'.project? x = some p')
    (hidle : p'.buildCount = p.buildCount) : path ∉ w.ownership.membersOf x := by
  induction hinquiries generalizing p' with
  | refl =>
    obtain ⟨q, hq, -⟩ := hstand
    rw [hnew] at hq
    cases hq
  | @tail between next hfirst hlast ih =>
    have hmoves := Inquiries.moves hfirst
    have hconsistent := hmoves.consistent h
    have hsofar : Overlooks asked host path w between :=
      (Inquiries.bypasses hfirst h hclosed).overlooks h
    have hstep : Overlooks asked host path between next :=
      (hlast.bypasses hconsistent ((hmoves.isOpen path).trans hclosed)).overlooks hconsistent
    obtain ⟨q, hq⟩ := hsofar.live hstep h hp hp'
    have hearlier := hsofar.old x p q hp hq
    have hsame : q.buildCount = p.buildCount := Nat.le_antisymm
      (hidle ▸ (hstep.old x q p' hq hp').buildCount) hearlier.buildCount
    obtain ⟨stand, hlive, hkind, hroot⟩ := hstand
    cases hbefore : between.project? a with
    | some earlier =>
      -- the stand-in has started already, and is the same since
      have hsince := hstep.old a earlier stand hbefore hlive
      have hfresh := (hsofar.new a earlier hnew hbefore).2.isStale
      exact ih ⟨earlier, hbefore, hsince.kind.symm.trans hkind,
        (hsince.fixed hfresh).2.2.symm.trans hroot⟩ hq hsame
    | none =>
      rw [← (hearlier.idle hsame).2, ← hconsistent.mirrored]
      cases hlast with
      | refresh id =>
        rw [project?_refresh_of_none hconsistent host hbefore] at hlive
        cases hlive
      | provide file _ =>
        rcases providerFor_eq host between file with hsame' | ⟨documents, hunowned, -, hadded⟩
        · rw [hsame', hbefore] at hlive
          cases hlive
        · rw [hadded] at hlive
          have hfound := (project?_addStandIn _ file a).symm.trans hlive
          split at hfound
          · cases hfound
            rw [List.mem_singleton.1 (Project.hasRoot_iff.1 hroot), hunowned]
            exact List.not_mem_nil
          · have hnone : between.project? a = some stand := hfound
            rw [hbefore] at hnone
            cases hnone

/-- Steps on the way to an answer. -/
theorem Stands.owner_iff_of_inquiries (h : Stands w w' a path) (hx : x ≠ a)
    (hinquiries : Inquiries asked host w w') (hreport : action ≠ .notice ⟨path, .created⟩) :
    x ∈ w'.ownership.ownersOf path ↔ Encroaches host action w w' x path := by
  rw [h.after.mirrored]
  refine ((hinquiries.bypasses h.before h.closed).overlooks h.before).linked_iff_encroaches h.after
    (fun heq => absurd heq hreport) (fun p' => h.other hx) fun p p' hp hp' hidle => ?_
  cases ha : w.project? a with
  | some stand => exact h.unlinked hx ha
  | none => exact hinquiries.unlinked h.before h.closed ha h.stands hp hp' hidle

/-- A manifest is to be read again. -/
theorem Stands.owner_iff_of_outdate (h : Stands w (w.modifyProject id Project.outdate) a path)
    (hx : x ≠ a) (hreport : action = .notice ⟨path, .created⟩ →
      Manifest.isNamed w.settings.manifestFileNames path = true) :
    x ∈ (w.modifyProject id Project.outdate).ownership.ownersOf path ↔
      Encroaches host action w (w.modifyProject id Project.outdate) x path := by
  have hproject : ∀ y p', (w.modifyProject id Project.outdate).project? y = some p' →
      ∃ p, w.project? y = some p ∧ p'.buildCount = p.buildCount := by
    intro y p' hp'
    rw [project?_modifyProject] at hp'
    split at hp'
    · obtain ⟨p, hp, rfl⟩ := Option.map_eq_some_iff.1 hp'
      exact ⟨p, hp, rfl⟩
    · exact ⟨p', hp', rfl⟩
  obtain ⟨stand, hstand, -⟩ := h.stands
  obtain ⟨before, hbefore, -⟩ := hproject a stand hstand
  rw [encroaches_iff_claims (hproject x), h.after.mirrored]
  refine iff_of_false (h.unlinked hx hbefore) ?_
  rintro ⟨hreported, hplain, -⟩
  rw [hreport hreported] at hplain
  cases hplain

/-- The file itself is created. -/
theorem Stands.owner_iff_of_created (h : Stands w (w.fileCreated path) a path) (hx : x ≠ a)
    (hplain : Manifest.isNamed w.settings.manifestFileNames path = false) :
    x ∈ (w.fileCreated path).ownership.ownersOf path ↔
      Encroaches host (.notice ⟨path, .created⟩) w (w.fileCreated path) x path := by
  have hspec := fun {y : ProjectId} {p' : Project}
    (hp' : (w.fileCreated path).project? y = some p') => fileCreated_spec h.before h.closed hp'
  obtain ⟨stand, hstand, -⟩ := h.stands
  obtain ⟨⟨before, hbefore, -⟩, -⟩ := hspec hstand
  rw [encroaches_iff_claims fun p' hp' => (hspec hp').1, h.after.mirrored, and_iff_right rfl,
    and_iff_right hplain]
  cases hlive : (w.fileCreated path).project? x with
  | some p' => exact (hspec hlive).2.trans (or_iff_right (h.unlinked hx hbefore))
  | none =>
    -- a project with a manifest would not have ended
    refine iff_of_false (fun hlinked => ?_) fun ⟨p, hp, hclaims⟩ => ?_
    · obtain ⟨p', hp'⟩ := h.after.live_of_owner ((h.after.mirrored x path).2 hlinked)
      rw [hlive] at hp'
      cases hp'
    · obtain ⟨manifestPath, hcharter⟩ := Project.charter_eq_configured.2 (kind_of_claims hclaims)
      have hchain : Transactions host (.notice ⟨path, .created⟩) (w, still)
          (w.fileCreated path, still) := fileCreated_transactions h.before path
      have hstays := hchain.configured h.before (charter?_eq_some.2 ⟨p, hp, hcharter⟩) nofun
      rw [charter?, hlive] at hstays
      cases hstays

/-! ### Reports -/

theorem Stands.owner_iff_of_manifestEvent {file : Path} {change : FileChange} {next : Workspace}
    (hnext : w.manifestEvent host file change = next) (h : Stands w next a path) (hx : x ≠ a)
    (hreport : action = .notice ⟨path, .created⟩ →
      Manifest.isNamed w.settings.manifestFileNames path = true) :
    x ∈ next.ownership.ownersOf path ↔ Encroaches host action w next x path := by
  have hquiet : w = next → (x ∈ next.ownership.ownersOf path ↔
      Encroaches host action w next x path) := fun hsame =>
    h.owner_iff hx (hsame ▸ overlooks_refl w) hreport
  unfold manifestEvent at hnext
  split at hnext
  · subst hnext
    exact h.owner_iff_of_outdate hx hreport
  · subst hnext
    exact h.owner_iff_of_outdate hx hreport
  · exact h.owner_iff_of_bypasses hx (hnext ▸ manifestDeleted_bypasses h.before h.closed _) hreport
  · split at hnext
    · split at hnext
      · exact hquiet hnext
      · exact h.owner_iff_of_bypasses hx (hnext ▸ manifestAppeared_bypasses h.before h.closed _)
          hreport
    · exact hquiet hnext
  · exact hquiet hnext

theorem Stands.owner_iff_of_notice {event : FileEvent} {next : Workspace}
    (hnext : (w.noticeFile host event).2 = next) (h : Stands w next a path) (hx : x ≠ a) :
    x ∈ next.ownership.ownersOf path ↔ Encroaches host (.notice event) w next x path := by
  obtain ⟨file, change⟩ := event
  unfold noticeFile at hnext
  simp only at hnext
  split at hnext
  · rename_i hnamed
    refine h.owner_iff_of_manifestEvent hnext hx fun heq => ?_
    cases heq
    exact hnamed
  · rename_i hplain
    rw [Bool.not_eq_true] at hplain
    split at hnext <;> subst hnext
    · by_cases hfile : path = file
      · subst hfile
        exact h.owner_iff_of_created hx hplain
      · refine h.owner_iff hx (fileCreated_ignores h.closed hfile).overlooks fun heq => ?_
        cases heq
        exact absurd rfl hfile
    · exact h.owner_iff hx (fileModified_ignores host w file).overlooks nofun
    · by_cases hfile : path = file
      · -- a deletion ends the stand-ins of the file
        have hstand := standsIn_iff_rootKind.1 h.stands
        subst hfile
        rw [rootKind_fileDeleted h.before h.closed, if_pos (.inl rfl)] at hstand
        cases hstand
      · exact h.owner_iff hx (fileDeleted_ignores w hfile).overlooks nofun

/-! ### Requests and all other actions -/

theorem Stands.owner_iff_of_serves {request : Request} (h : Stands w w' a path) (hx : x ≠ a)
    (hclosed : w'.documents.isOpen path = false) (hserves : Serves host w request w')
    (hreport : action ≠ .notice ⟨path, .created⟩) :
    x ∈ w'.ownership.ownersOf path ↔ Encroaches host action w w' x path := by
  cases hserves with
  | opening file content _ hopen =>
    exact h.owner_iff_of_bypasses hx (openFile_refresh_bypasses h.before h.closed hopen hclosed)
      fun heq => absurd heq hreport
  | closing file _ =>
    exact h.owner_iff_of_bypasses hx (closeFile_bypasses h.closed file)
      fun heq => absurd heq hreport
  | editing file change version =>
    exact h.owner_iff hx (editFile_ignores w file change version).overlooks
      fun heq => absurd heq hreport
  | asking hasked => exact h.owner_iff_of_inquiries hx hasked hreport

/-- **What else owns the path of a stand-in after an action came by it in one of three ways.** -/
theorem act_owner_iff (hlawful : Lawful (w, still)) (hancillary : Ancillary w)
    (halone : Unshadowed w) (hstand : (w.act host action).StandsIn a path) (hx : x ≠ a) :
    x ∈ (w.act host action).ownership.ownersOf path ↔
      Encroaches host action w (w.act host action) x path := by
  have hchain : Transactions host action (w, still) (w.act host action, still) :=
    act_transactions hlawful.consistent action
  have hafter : Lawful (w.act host action, still) := Transactions.lawful hchain hlawful
  have hclosed := hafter.closed_of_standsIn hstand
  have h : Stands w (w.act host action) a path :=
    ⟨hlawful.consistent, hafter.consistent, Transactions.ancillary hchain hlawful hancillary,
      halone, hstand, fun p hp => hlawful.standsIn_act hancillary hp hstand,
      hlawful.closed_of_standsIn_act hstand⟩
  cases action with
  | openFile file content =>
    exact h.owner_iff_of_bypasses hx (openFile_bypasses_of_closed h.before h.closed hclosed) nofun
  | closeFile file => exact h.owner_iff_of_bypasses hx (closeFile_bypasses h.closed file) nofun
  | editFile file change version =>
    exact h.owner_iff hx (editFile_ignores w file change version).overlooks nofun
  | notice event => exact h.owner_iff_of_notice rfl hx
  | refresh id => exact h.owner_iff_of_bypasses hx (refresh_bypasses h.closed id) nofun
  | refreshAll => exact h.owner_iff_of_inquiries hx (refreshEach_inquiries none host w _) nofun
  | filesOf id => exact h.owner_iff_of_inquiries hx (filesOf_inquiries none host w id) nofun
  | providerFor file =>
    exact h.owner_iff_of_inquiries hx (.single (.provide file rfl) : Inquiries (some file) host w _)
      nofun
  | request service request =>
    exact h.owner_iff_of_serves hx hclosed (serve_serves service host w request) nofun

/-! ## Runs -/

theorem unshadowed_new (settings : Settings) : Unshadowed (new settings) :=
  fun _ _ ⟨_, h, _⟩ => by cases h

/-- **An action leaves the stand-ins alone exactly if it does not encroach upon one.** -/
theorem act_unshadowed_iff (hlawful : Lawful (w, still)) (hancillary : Ancillary w)
    (halone : Unshadowed w) : Unshadowed (w.act host action) ↔
      ∀ a path, (w.act host action).StandsIn a path → ∀ x, x ≠ a →
        ¬ Encroaches host action w (w.act host action) x path := by
  constructor
  · intro h a path hstand x hx hencroaches
    exact hx (h a path hstand x ((act_owner_iff hlawful hancillary halone hstand hx).2 hencroaches))
  · intro h a path hstand x howner
    by_contra hx
    exact h a path hstand x hx ((act_owner_iff hlawful hancillary halone hstand hx).1 howner)

/-- Where the first owner is auxiliary there is no other one. -/
theorem Unshadowed.eq_of_firstOwner? {p : Project} (h : Unshadowed w) (hw : Consistent w)
    (hancillary : Ancillary w) (hfirst : w.firstOwner? path = some a)
    (hp : w.project? a = some p) (hkind : p.kind = .auxiliary)
    (hx : x ∈ w.ownership.ownersOf path) : x = a := by
  have howner : a ∈ w.ownership.ownersOf path :=
    mem_projectsOf.1 (List.mem_of_mem_head? (Option.mem_def.2 hfirst))
  exact h a path (hancillary.standsIn hw hp hkind howner) x hx

/-- **A stand-in is the only owner of its path as long as nothing encroaches upon it.**  In a run,
every stand-in is at all times the only project that the index links to its path, and an auxiliary
project is asked first only where no other project owns the path, if and only if no action of the
run gives the path of a stand-in to another project: by starting one whose manifest names it, by a
build that reaches it, or by a report that it was created. -/
theorem stand_ins_are_alone_iff (settings : Settings) (steps : List (Host × Action)) :
    (∀ pre, pre <+: steps →
      (∀ a path, (run settings pre).StandsIn a path →
        ∀ x ∈ (run settings pre).ownership.ownersOf path, x = a) ∧
      ∀ path a p, (run settings pre).firstOwner? path = some a →
        (run settings pre).project? a = some p → p.kind = .auxiliary →
        ∀ x ∈ (run settings pre).ownership.ownersOf path, ∀ q,
          (run settings pre).project? x = some q → ¬ (q.kind = .inferred ∨ q.kind = .configured)) ↔
    ∀ pre host action, pre ++ [(host, action)] <+: steps → ∀ a path,
      (run settings (pre ++ [(host, action)])).StandsIn a path → ∀ x, x ≠ a →
        ¬ Encroaches host action (run settings pre) (run settings (pre ++ [(host, action)])) x
          path := by
  have hact : ∀ pre host action, Unshadowed (run settings pre) →
      (Unshadowed (run settings (pre ++ [(host, action)])) ↔ ∀ a path,
        (run settings (pre ++ [(host, action)])).StandsIn a path → ∀ x, x ≠ a →
          ¬ Encroaches host action (run settings pre)
            (run settings (pre ++ [(host, action)])) x path) := by
    intro pre host action halone
    rw [run_concat]
    exact act_unshadowed_iff (run_lawful settings pre) (run_ancillary settings pre) halone
  constructor
  · intro h pre host action hpre
    exact (hact pre host action (h pre ((List.prefix_append _ _).trans hpre)).1).1 (h _ hpre).1
  · intro h pre
    have halone : pre <+: steps → Unshadowed (run settings pre) := by
      induction pre using List.reverseRecOn with
      | nil => exact fun _ => unshadowed_new settings
      | append_singleton pre step ih =>
        intro hpre
        exact (hact pre step.1 step.2 (ih ((List.prefix_append _ _).trans hpre))).2
          (h pre step.1 step.2 hpre)
    intro hpre
    refine ⟨halone hpre, fun path a p hfirst hp hkind x hx q hq hother => ?_⟩
    have hsame := (halone hpre).eq_of_firstOwner? (run_consistent settings pre)
      (run_ancillary settings pre) hfirst hp hkind hx
    rw [hsame, hp] at hq
    cases hq
    rw [hkind] at hother
    rcases hother with heq | heq <;> cases heq

/-- The manifest of `/p` names two files. -/
def twofold : Memory :=
  ((Memory.empty.addFile ((Path.mk .slash []).join "p/tsconfig.json")
    "\x7b\"files\":[\"a.ts\",\"b.ts\"]\x7d").addFile ((Path.mk .slash []).join "p/a.ts") "").addFile
    ((Path.mk .slash []).join "p/b.ts") ""

/-- A question about the second file, and then the first file is opened. -/
def overtaken : List (Host × Action) :=
  [⟨1, "navtree", .obj [("file", .str "/p/b.ts")]⟩,
    ⟨2, "open", .obj [("file", .str "/p/a.ts")]⟩].map fun request =>
      (unlistedHost twofold, .request .echo request)

/-- **A stand-in may hide a project.**  The configured project that starts for the first file names
the second one as well, and the stand-in for that file stays and comes first. -/
theorem stand_in_hides_a_project :
    let w := run .default overtaken
    let path := (Path.mk .slash []).join "p/b.ts"
    w.StandsIn ⟨1⟩ path ∧ w.ownership.ownersOf path = [⟨1⟩, ⟨2⟩] ∧
      w.rootKind path ⟨2⟩ = some .configured ∧ w.firstOwner? path = some ⟨1⟩ := by
  simp only [standsIn_iff_rootKind]
  decide +kernel

end Codebase.Workspace
