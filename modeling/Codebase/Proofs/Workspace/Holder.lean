import Codebase.Proofs.Workspace.Assign
/-!
# Every open document has one holder

`Owned` is the invariant: every open document is a root of exactly one project, and inferred
projects have open roots only.  While a document is on its way to a project it is `spare` and may
have no holder or several.

* `assign_owned` — assigning the spare document gives it its holder.
* `openFile_owned` — opening alone leaves the document spare if configured projects share it as a
  closed root.
* `openFile_refresh_owned` — the rebuild that follows in a request makes it a root of one of them.
* `open_document_has_one_holder` — every run that opens documents by requests, and loses no
  manifest.
* `openFile_holds_alone_iff` — when opening alone gives the document a single holder.
-/

namespace Codebase.Workspace

variable {host : Host} {w w' : Workspace} {id x : ProjectId} {path q : Path} {kind : ProjectKind}
  {content : String} {spare : Option Path}

/-- Exactly one project has `path` as a root, and it is no auxiliary one. -/
def Single (w : Workspace) (path : Path) : Prop :=
  ∃ id kind, kind ≠ .auxiliary ∧ HeldBy w path id kind

/-- Every open document but the spare one has a single holder, and inferred projects have open roots
only. -/
structure Owned (spare : Option Path) (w : Workspace) : Prop where
  consistent : Consistent w
  single : ∀ q, w.documents.isOpen q = true → some q ≠ spare → Single w q
  inferred : ∀ q x, w.rootKind q x = some .inferred → w.documents.isOpen q = true

theorem owned_new (settings : Settings) : Owned none (new settings) where
  consistent := consistent_new settings
  single _ h := by cases h
  inferred _ _ h := by cases h

theorem HeldBy.congr (h : HeldBy w q id kind) (hroots : ∀ x, w'.rootKind q x = w.rootKind q x) :
    HeldBy w' q id kind :=
  fun x => (hroots x).trans (h x)

/-- The holder stays, and nobody new has the root. -/
theorem HeldBy.of_kept (h : HeldBy w q id kind)
    (hold : ∀ x k, w'.rootKind q x = some k → w.rootKind q x = some k)
    (hkept : w'.rootKind q id = some kind) : HeldBy w' q id kind := by
  intro x
  split
  · rename_i hx
    rw [hx, hkept]
  · rename_i hx
    cases hroot : w'.rootKind q x with
    | none => rfl
    | some k =>
      have hbefore := hold x k hroot
      rw [h x, if_neg hx] at hbefore
      cases hbefore

theorem HeldBy.rootKind_self (h : HeldBy w q id kind) : w.rootKind q id = some kind :=
  (h id).trans (if_pos rfl)

/-! ## What keeps the invariant -/

theorem Passes.owned (hpasses : Passes id w w') (hconsistent : Consistent w')
    (h : Owned spare w) : Owned spare w' where
  consistent := hconsistent
  single q hopen hspare := by
    rw [hpasses.isOpen] at hopen
    rcases hpasses.roots q hopen with hsame | hheld
    · obtain ⟨holder, kind, hkind, hheld⟩ := h.single q hopen hspare
      exact ⟨holder, kind, hkind, hheld.congr hsame⟩
    · exact ⟨id, .configured, nofun, hheld⟩
  inferred q x hkind := by
    rw [hpasses.isOpen]
    exact h.inferred q x (hpasses.inferred q x hkind)

/-- Neither the roots nor what is open changes. -/
theorem owned_of_eq (hconsistent : Consistent w')
    (hopen : ∀ q, w'.documents.isOpen q = w.documents.isOpen q)
    (hroots : ∀ q x, w'.rootKind q x = w.rootKind q x) (h : Owned spare w) : Owned spare w' := by
  have hpasses : Passes ⟨0⟩ w w' := passes_of_eq hopen hroots
  exact hpasses.owned hconsistent h

/-- Moves that leave the roots alone. -/
theorem Moves.owned (hmoves : Moves host w w') (hroots : ∀ q x, w'.rootKind q x = w.rootKind q x)
    (h : Owned spare w) : Owned spare w' :=
  owned_of_eq (hmoves.consistent h.consistent) hmoves.isOpen hroots h

theorem refresh_owned (h : Owned spare w) (host : Host) (id : ProjectId) :
    Owned spare (w.refresh host id).2 :=
  (refresh_passes h.consistent host id).owned ((refresh_moves host w id).consistent h.consistent) h

theorem touchOwners_owned (h : Owned spare w) (path : Path) :
    Owned spare (w.touchOwners path) := by
  have hmoves : Moves Memory.empty.host w (w.touchOwners path) := touchOwners_moves w path
  exact hmoves.owned (rootKind_touchOwners w path) h

/-- The spare document, which is nobody's root, is assigned. -/
theorem assign_owned (h : Owned (some path) w) (host : Host)
    (hopen : w.documents.isOpen path = true) (hfree : ∀ x, w.rootKind path x = none) :
    Owned none (w.assign host path).2 := by
  obtain ⟨⟨kind, hkind, hheld⟩, hothers, hinferred⟩ := assign_spec h.consistent host hopen hfree
  have hmoves : Moves host w (w.assign host path).2 := assign_moves w path
  refine ⟨hmoves.consistent h.consistent, fun q hq _ => ?_, fun q x hx => ?_⟩
  · rw [hmoves.isOpen] at hq
    by_cases hpath : q = path
    · rw [hpath]
      exact ⟨_, kind, hkind, hheld⟩
    · rcases hothers q hpath hq with hsame | hconfigured
      · have hne : some q ≠ some path := fun heq => hpath (Option.some.inj heq)
        obtain ⟨holder, k, hk, hold⟩ := h.single q hq hne
        exact ⟨holder, k, hk, hold.congr hsame⟩
      · exact ⟨_, .configured, nofun, hconfigured⟩
  · rw [hmoves.isOpen]
    rcases hinferred q x hx with hbefore | hpath
    · exact h.inferred q x hbefore
    · rw [hpath]
      exact hopen

/-- Taking a root from everybody makes it spare. -/
theorem unroot_owned (h : Owned none w) (path : Path) :
    Owned (some path) (w.unroot path none) ∧ ∀ x, (w.unroot path none).rootKind path x = none := by
  have hmoves : Moves Memory.empty.host w (w.unroot path none) := unroot_moves w path none
  have hroots := rootKind_unroot h.consistent path none
  refine ⟨⟨h.consistent.unroot path none, fun q hopen hspare => ?_, fun q x hx => ?_⟩,
    fun x => ?_⟩
  · rw [hmoves.isOpen] at hopen
    obtain ⟨holder, kind, hkind, hheld⟩ := h.single q hopen nofun
    have hpath : q ≠ path := fun heq => hspare (congrArg some heq)
    refine ⟨holder, kind, hkind, hheld.congr fun x => ?_⟩
    rw [hroots, if_neg fun heq => hpath heq.1]
  · rw [hmoves.isOpen]
    rw [hroots] at hx
    split at hx
    · cases hx
    · exact h.inferred q x hx
  · rw [hroots, if_pos ⟨rfl, nofun⟩]

/-! ## Events of an editor -/

theorem isOpen_opening {opened : Documents.Opened} {documents : Documents}
    (hopened : w.documents.open path content = .ok (opened, documents)) :
    (w.opening path opened documents).documents.isOpen path = true := by
  have hmoves : Moves Memory.empty.host { w with documents } (w.opening path opened documents) :=
    opening_moves w path opened documents
  exact (hmoves.isOpen path).trans (Documents.of_open hopened).2.1

theorem opening_owned {opened : Documents.Opened} {documents : Documents} (h : Owned none w)
    (hopened : w.documents.open path content = .ok (opened, documents)) :
    Owned (some path) (w.opening path opened documents) := by
  obtain ⟨hothers, hpath, -, -⟩ := Documents.of_open hopened
  have hmoves : Moves Memory.empty.host { w with documents } (w.opening path opened documents) :=
    opening_moves w path opened documents
  have hroots := rootKind_opening_eq_some w path opened documents
  refine ⟨hmoves.consistent (h.consistent.documents documents), fun q hopen hspare => ?_,
    fun q x hx => ?_⟩
  · rw [hmoves.isOpen] at hopen
    have hne : q ≠ path := fun heq => hspare (congrArg some heq)
    have hbefore : w.documents.isOpen q = true :=
      (Documents.isOpen_congr (hothers q hne)).symm.trans hopen
    obtain ⟨holder, kind, hkind, hheld⟩ := h.single q hbefore nofun
    refine ⟨holder, kind, hkind, hheld.of_kept (fun x k hx => ((hroots q x k).1 hx).1) ?_⟩
    exact (hroots q holder kind).2 ⟨hheld.rootKind_self, fun _ => hkind⟩
  · rw [hmoves.isOpen]
    by_cases hne : q = path
    · rw [hne]
      exact hpath
    · refine (Documents.isOpen_congr (hothers q hne)).trans ?_
      exact h.inferred q x ((hroots q x _).1 hx).1

/-- Opening restores the invariant, or leaves the document a root of a configured project that is
dirty. -/
theorem openFile_owned (h : Owned none w) (hok : w.openFile host path content = (.ok id, w')) :
    Owned none w' ∨ Owned (some path) w' ∧ w'.documents.isOpen path = true ∧
      ∃ p, w'.project? id = some p ∧ p.isDirty = true ∧ p.kind = .configured ∧
        p.hasRoot path = true := by
  have hopens := openFile_opens host w path content
  rw [hok] at hopens
  cases hopens with
  | @held opened documents _ hopened hholder =>
    have hspare := opening_owned h hopened
    have hpath := isOpen_opening hopened
    have hroots := rootKind_opening_eq_some w path opened documents
    generalize w.opening path opened documents = w₁ at hspare hroots hpath hholder
    obtain ⟨kind, hkind, hroot⟩ := holder?_eq_some hholder
    obtain ⟨p, hp, hproot, hpkind⟩ := rootKind_eq_some.1 hroot
    have htouch : Moves host w₁ (w₁.modifyProject id Project.touch) := (Move.touch w₁ id).moves
    have htouched := htouch.owned (rootKind_touch w₁ id) hspare
    cases kind with
    | inferred =>
      left
      -- the document was open before, so it had its one holder
      have hbefore : w.rootKind path id = some .inferred := ((hroots path id _).1 hroot).1
      obtain ⟨holder, k, hk, hheld⟩ := h.single path (h.inferred path id hbefore) nofun
      have hkept : HeldBy w₁ path holder k :=
        hheld.of_kept (fun x k hx => ((hroots path x k).1 hx).1)
          ((hroots path holder k).2 ⟨hheld.rootKind_self, fun _ => hk⟩)
      refine ⟨htouched.consistent, fun q hopen _ => ?_, htouched.inferred⟩
      by_cases hq : q = path
      · rw [hq]
        exact ⟨holder, k, hk, hkept.congr fun x => rootKind_touch w₁ id path x⟩
      · exact htouched.single q hopen fun heq => hq (Option.some.inj heq)
    | configured =>
      right
      refine ⟨htouched, hpath, p.touch, ?_, rfl, hpkind, hproot⟩
      rw [project?_modifyProject, if_pos rfl, hp]
      rfl
    | auxiliary => exact absurd rfl hkind
  | @assigned opened documents hopened hnone =>
    exact .inl (assign_owned (opening_owned h hopened) host (isOpen_opening hopened)
      (free_opening h.consistent hnone))

/-- The rebuild that follows in a request makes the project the only holder. -/
theorem openFile_refresh_owned (h : Owned none w)
    (hok : w.openFile host path content = (.ok id, w')) : Owned none (w'.refresh host id).2 := by
  rcases openFile_owned h hok with hnext | ⟨hspare, hpath, p, hp, hdirty, hkind, hroot⟩
  · exact refresh_owned hnext host id
  · have hafter := refresh_owned hspare host id
    refine ⟨hafter.consistent, fun q hq _ => ?_, hafter.inferred⟩
    by_cases hne : q = path
    · rw [hne]
      exact ⟨id, .configured, nofun,
        heldBy_refresh hspare.consistent host hp hdirty hkind hpath hroot⟩
    · exact hafter.single q hq fun heq => hne (Option.some.inj heq)

theorem closeFile_owned (h : Owned none w) (path : Path) :
    Owned none (w.closeFile path).2 := by
  cases hclosed : w.documents.close path with
  | error e =>
    unfold closeFile
    rw [hclosed]
    exact h
  | ok documents =>
    obtain ⟨hothers, -, hpath, -⟩ := Documents.of_close hclosed
    have hmoves : Moves Memory.empty.host { w with documents } (w.closeFile path).2 :=
      closeFile_moves hclosed
    have hroots := rootKind_closeFile h.consistent hclosed
    refine ⟨hmoves.consistent (h.consistent.documents documents), fun q hopen _ => ?_,
      fun q x hx => ?_⟩
    · rw [hmoves.isOpen] at hopen
      have hne : q ≠ path := by
        rintro rfl
        exact absurd (hopen.symm.trans hpath) nofun
      obtain ⟨holder, kind, hkind, hheld⟩ :=
        h.single q ((Documents.isOpen_congr (hothers q hne)).symm.trans hopen) nofun
      refine ⟨holder, kind, hkind, hheld.congr fun x => ?_⟩
      rw [hroots, if_neg fun heq => hne heq.1]
    · rw [hmoves.isOpen]
      rw [hroots] at hx
      split at hx
      · cases hx
      · rename_i hkept
        have hne : q ≠ path := fun heq => hkept ⟨heq, hx⟩
        exact (Documents.isOpen_congr (hothers q hne)).trans (h.inferred q x hx)

/-- The documents change, and none of them is opened or closed. -/
theorem Owned.documents (h : Owned spare w) (documents : Documents)
    (hopen : ∀ q, documents.isOpen q = w.documents.isOpen q) :
    Owned spare { w with documents } := by
  have hnext : Owned spare { w with documents } :=
    owned_of_eq (h.consistent.documents documents) hopen (fun _ _ => rfl) h
  exact hnext

theorem editFile_owned (h : Owned spare w) (path : Path) (change : TextChange) (version : Nat) :
    Owned spare (w.editFile path change version).2 := by
  unfold editFile
  split
  · exact h
  · rename_i documents hedit
    obtain ⟨hothers, hbefore, hafter⟩ := Documents.of_edit hedit
    refine touchOwners_owned (h.documents documents fun q => ?_) path
    by_cases hq : q = path
    · rw [hq, hbefore, hafter]
    · exact Documents.isOpen_congr (hothers q hq)

/-! ## Reports of the host -/

theorem fileModified_owned (h : Owned spare w) (host : Host) (path : Path) :
    Owned spare (w.fileModified host path).2 := by
  rcases fileModified_eq host w path with hsame | ⟨text, changed, documents, -, hrefresh, hnext⟩
  · rw [hsame]
    exact h
  · obtain ⟨hothers, hsame, -⟩ := Documents.of_refresh hrefresh
    have hdocuments : Owned spare { w with documents } := h.documents documents fun q => by
      by_cases hq : q = path
      · rw [hq, hsame]
      · exact Documents.isOpen_congr (hothers q hq)
    rw [hnext]
    split
    · exact touchOwners_owned hdocuments path
    · exact hdocuments

/-- A configured project takes over a path that it claims. -/
theorem claim_passes (h : Consistent w) (hkind : ∀ p, w.project? id = some p → p.kind = .configured)
    (path : Path) : Passes id w ((w.addRoot id path).takeOverOpenRoots id) := by
  have hadd : Moves Memory.empty.host w (w.addRoot id path) := (Move.addRoot w id path).moves
  have hmoves : Moves Memory.empty.host w ((w.addRoot id path).takeOverOpenRoots id) :=
    hadd.trans (takeOverOpenRoots_moves _ id)
  cases hp : w.project? id with
  | none =>
    -- a project that is gone takes nothing
    have hsame : ∀ q x, (w.addRoot id path).rootKind q x = w.rootKind q x := by
      intro q x
      rw [rootKind_addRoot, hp]
      split
      · rename_i hx
        rw [hx.1, rootKind_of_none hp]
        rfl
      · rfl
    refine passes_of_eq hmoves.isOpen fun q x => ?_
    rw [rootKind_takeOverOpenRoots (h.addRoot id path), hsame, hsame, rootKind_of_none hp]
    simp
  | some p =>
    have hadded : (w.addRoot id path).project? id = some (p.addRoot path) := by
      rw [project?_addRoot, if_pos rfl, hp]
      rfl
    refine passes_takeOver (h.addRoot id path) (frame_addRoot w id path) hadd.isOpen hadded
      (hkind p hp) fun q _ hnone => ?_
    rw [rootKind_addRoot, hp] at hnone
    split at hnone
    · cases hnone
    · exact hnone

theorem claims_owned (path : Path) (ids : List ProjectId) (h : Owned spare w)
    (hids : ∀ id ∈ ids, id.number ≤ w.lastNumber ∧
      ∀ p, w.project? id = some p → p.kind = .configured) :
    Owned spare (ids.foldl (fun w id => (w.addRoot id path).takeOverOpenRoots id) w) := by
  induction ids generalizing w with
  | nil => exact h
  | cons id rest ih =>
    have hmoves : Moves Memory.empty.host w ((w.addRoot id path).takeOverOpenRoots id) :=
      (Move.addRoot w id path).moves.trans (takeOverOpenRoots_moves _ id)
    rw [List.forall_mem_cons] at hids
    refine ih ?_ fun other hother => ?_
    · exact (claim_passes h.consistent hids.1.2 path).owned (hmoves.consistent h.consistent) h
    · exact hmoves.kind (hids.2 other hother).1 (hids.2 other hother).2

theorem kind_of_claims {p : Project} (h : w.claims path p = true) : p.kind = .configured := by
  unfold claims at h
  rw [Bool.and_eq_true, Bool.and_eq_true] at h
  obtain ⟨manifest, hmanifest⟩ := Option.isSome_iff_exists.1 h.1.1
  unfold Project.manifest? at hmanifest
  unfold Project.kind
  split at hmanifest
  · rename_i manifestPath m horigin
    rw [horigin]
  · cases hmanifest

theorem fileCreated_owned (h : Owned spare w) (path : Path) : Owned spare (w.fileCreated path) := by
  unfold fileCreated
  simp only
  generalize (w.projectList.filter hopes).map Project.id = hopeful
  have htouch : Moves Memory.empty.host w
      (hopeful.foldl (fun w id => w.modifyProject id Project.touch) w) :=
    Moves.foldl (fun w id => (Move.touch w id).moves) hopeful w
  have htouched := htouch.owned (rootKind_foldl_touch w hopeful) h
  generalize hopeful.foldl (fun w id => w.modifyProject id Project.touch) w = w₁ at htouched
  refine claims_owned path _ htouched fun id hid => ?_
  obtain ⟨p, hp, rfl⟩ := List.mem_map.1 hid
  rw [List.mem_filter] at hp
  obtain ⟨k, hk⟩ := mem_projectList.1 hp.1
  rw [htouched.consistent.named k p hk]
  refine ⟨htouched.consistent.numbered k p hk, fun p' hp' => ?_⟩
  rw [hk] at hp'
  cases hp'
  exact kind_of_claims hp.2

/-- The auxiliary projects that a deletion ends. -/
theorem mem_standIns (h : Consistent w) :
    x ∈ (w.projectList.filter fun p => p.kind = .auxiliary && p.hasRoot path).map Project.id ↔
      w.rootKind path x = some .auxiliary := by
  rw [List.mem_map, rootKind_eq_some]
  constructor
  · rintro ⟨p, hp, rfl⟩
    rw [List.mem_filter, Bool.and_eq_true, decide_eq_true_eq] at hp
    obtain ⟨k, hk⟩ := mem_projectList.1 hp.1
    rw [h.named k p hk]
    exact ⟨p, hk, hp.2.2, hp.2.1⟩
  · rintro ⟨p, hp, hroot, hkind⟩
    refine ⟨p, List.mem_filter.2 ⟨mem_projectList.2 ⟨x, hp⟩, ?_⟩, h.named x p hp⟩
    rw [Bool.and_eq_true, decide_eq_true_eq]
    exact ⟨hkind, hroot⟩

/-- Nobody has a deleted file as a root, and the auxiliary projects that served it are gone. -/
theorem rootKind_fileDeleted (h : Consistent w) (hclosed : w.documents.isOpen path = false)
    (q : Path) (x : ProjectId) :
    (w.fileDeleted path).rootKind q x =
      if q = path ∨ w.rootKind path x = some .auxiliary then none else w.rootKind q x := by
  have hstandIns : ∀ x, x ∈ (w.projectList.filter fun p =>
      p.kind = .auxiliary && p.hasRoot path).map Project.id ↔
      w.rootKind path x = some .auxiliary := fun x => mem_standIns h
  unfold fileDeleted
  rw [if_neg (by rw [hclosed]; exact Bool.false_ne_true)]
  simp only
  generalize (w.projectList.filter fun p => p.kind = .auxiliary && p.hasRoot path).map Project.id =
    ids at hstandIns
  have hremove : Moves Memory.empty.host w (w.removeProjects ids) := removeProjects_moves w ids
  have hconsistent := hremove.consistent h
  refine (rootKind_foldl_disown (w.removeProjects ids) _ path q x).trans ?_
  by_cases hq : q = path
  · have hgone : q = path ∨ w.rootKind path x = some .auxiliary := .inl hq
    rw [if_pos hgone]
    split
    · rfl
    · rename_i hnot
      cases hroot : (w.removeProjects ids).rootKind q x with
      | none => rfl
      | some kind =>
        rw [hq] at hroot
        exact absurd ⟨hconsistent.owner_of_rootKind hroot, hq⟩ hnot
  · rw [if_neg fun heq => hq heq.2, rootKind_removeProjects]
    simp only [hstandIns, hq, false_or]

theorem fileDeleted_owned (h : Owned none w) (path : Path) : Owned none (w.fileDeleted path) := by
  have hmoves : Moves Memory.empty.host w (w.fileDeleted path) := fileDeleted_moves w path
  cases hclosed : w.documents.isOpen path with
  | true =>
    unfold fileDeleted
    rw [if_pos hclosed]
    exact h
  | false =>
    have hroots := rootKind_fileDeleted h.consistent hclosed
    refine ⟨hmoves.consistent h.consistent, fun q hopen _ => ?_, fun q x hx => ?_⟩
    · rw [hmoves.isOpen] at hopen
      obtain ⟨holder, kind, hkind, hheld⟩ := h.single q hopen nofun
      refine ⟨holder, kind, hkind, hheld.of_kept (fun x k hx => ?_) ?_⟩
      · rw [hroots] at hx
        split at hx
        · cases hx
        · exact hx
      · rw [hroots, if_neg, hheld.rootKind_self]
        rintro (rfl | haux)
        · exact absurd (hopen.symm.trans hclosed) nofun
        · -- the holder is no auxiliary project
          obtain ⟨p, hp, -, hpkind⟩ := rootKind_eq_some.1 haux
          obtain ⟨p', hp', -, hpkind'⟩ := rootKind_eq_some.1 hheld.rootKind_self
          rw [hp] at hp'
          cases hp'
          exact hkind (hpkind'.symm.trans hpkind)
    · rw [hmoves.isOpen]
      rw [hroots] at hx
      split at hx
      · cases hx
      · exact h.inferred q x hx

theorem reassign_owned (h : Owned none w) (host : Host) (paths : List Path)
    (hpaths : ∀ p ∈ paths, w.documents.isOpen p = true) :
    Owned none (paths.foldl (fun w path => ((w.unroot path none).assign host path).2) w) := by
  induction paths generalizing w with
  | nil => exact h
  | cons path rest ih =>
    rw [List.forall_mem_cons] at hpaths
    have hunroot : Moves host w (w.unroot path none) := unroot_moves w path none
    have hmoves : Moves host w ((w.unroot path none).assign host path).2 :=
      hunroot.trans (assign_moves _ path)
    obtain ⟨hspare, hfree⟩ := unroot_owned h path
    refine ih (assign_owned hspare host ?_ hfree) fun p hp => ?_
    · exact (hunroot.isOpen path).trans hpaths.1
    · exact (hmoves.isOpen p).trans (hpaths.2 p hp)

theorem isOpen_of_mem_openPaths {docs : Documents} (h : q ∈ docs.openPaths) :
    docs.isOpen q = true := by
  unfold Documents.openPaths Path.sort at h
  rw [List.mem_mergeSort, List.mem_filter] at h
  exact h.2

theorem manifestEvent_owned (h : Owned none w) (host : Host) (path : Path) {change : FileChange}
    (hchange : change ≠ .deleted) : Owned none (w.manifestEvent host path change) := by
  have houtdate : ∀ id, Owned none (w.modifyProject id Project.outdate) := fun id => by
    have hmoves : Moves host w (w.modifyProject id Project.outdate) := (Move.outdate w id).moves
    exact hmoves.owned (rootKind_outdate w id) h
  unfold manifestEvent
  split
  · exact houtdate _
  · exact houtdate _
  · exact absurd rfl hchange
  · split
    · split
      · exact h
      · refine reassign_owned h host _ fun p hp => ?_
        exact isOpen_of_mem_openPaths (List.mem_filter.1 hp).1
    · exact h
  · exact h

theorem noticeFile_owned (h : Owned none w) (host : Host) (event : FileEvent)
    (hkept : Manifest.isNamed w.settings.manifestFileNames event.path = true →
      event.change ≠ .deleted) :
    Owned none (w.noticeFile host event).2 := by
  unfold noticeFile
  split
  · rename_i hnamed
    exact manifestEvent_owned h host event.path (hkept hnamed)
  · split
    · exact fileCreated_owned h event.path
    · exact fileModified_owned h host event.path
    · exact fileDeleted_owned h event.path

/-! ## Questions -/

/-- An auxiliary project is added for a path that nobody owns, so for no open document. -/
theorem providerFor_owned (h : Owned none w) (host : Host) (path : Path) :
    Owned none (w.providerFor host path).2 := by
  have hmoves := providerFor_moves host w path
  rcases providerFor_eq host w path with hsame | ⟨documents, hunowned, -, hadded⟩
  · rw [hsame]
    exact h
  · rw [hadded] at hmoves ⊢
    have hroots := rootKind_addStandIn (h.consistent.documents documents) path
    refine ⟨hmoves.consistent h.consistent, fun q hopen _ => ?_, fun q x hx => ?_⟩
    · rw [hmoves.isOpen] at hopen
      obtain ⟨holder, kind, hkind, hheld⟩ := h.single q hopen nofun
      have hne : q ≠ path := by
        rintro rfl
        have howner := h.consistent.owner_of_rootKind hheld.rootKind_self
        rw [hunowned] at howner
        exact List.not_mem_nil howner
      refine ⟨holder, kind, hkind, hheld.congr fun x => ?_⟩
      rw [hroots, if_neg fun heq => hne heq.2]
      rfl
    · rw [hmoves.isOpen]
      rw [hroots] at hx
      split at hx
      · cases hx
      · exact h.inferred q x hx

theorem Inquiries.owned {asked : Option Path} (hinquiries : Inquiries asked host w w')
    (h : Owned none w) : Owned none w' := by
  induction hinquiries with
  | refl => exact h
  | tail _ hinquiry ih =>
    cases hinquiry with
    | refresh id => exact refresh_owned ih host id
    | provide path => exact providerFor_owned ih host path

theorem serve_owned (h : Owned none w) (service : LanguageService) (host : Host)
    (request : Request) : Owned none (w.serve service host request).2 := by
  have hserves := serve_serves service host w request
  generalize (w.serve service host request).2 = next at hserves ⊢
  cases hserves with
  | opening path content _ hopen => exact openFile_refresh_owned h hopen
  | closing file => exact closeFile_owned h file
  | editing file change version => exact editFile_owned h file change version
  | asking hasked => exact hasked.owned h

/-! ## Runs -/

/-- Documents are opened by requests alone, and no manifest is reported as deleted. -/
def Action.Orderly (manifestNames : List String) : Action → Prop
  | .openFile _ _ => False
  | .notice event =>
    Manifest.isNamed manifestNames event.path = true → event.change ≠ .deleted
  | _ => True

theorem act_owned {action : Action} (h : Owned none w) (host : Host)
    (horderly : action.Orderly w.settings.manifestFileNames) : Owned none (w.act host action) := by
  cases action with
  | openFile path content => exact horderly.elim
  | closeFile path => exact closeFile_owned h path
  | editFile path change version => exact editFile_owned h path change version
  | notice event => exact noticeFile_owned h host event horderly
  | refresh id => exact refresh_owned h host id
  | refreshAll => exact (refreshEach_inquiries none host w _).owned h
  | filesOf id => exact (filesOf_inquiries none host w id).owned h
  | providerFor path => exact providerFor_owned h host path
  | request service request => exact serve_owned h service host request

theorem run_owned (settings : Settings) (steps : List (Host × Action))
    (hsteps : ∀ step ∈ steps, step.2.Orderly settings.manifestFileNames) :
    Owned none (run settings steps) := by
  have hact : ∀ w host (action : Action), action.Orderly settings.manifestFileNames →
      (w.settings = settings ∧ Owned none w) →
      ((w.act host action).settings = settings ∧ Owned none (w.act host action)) := by
    intro w host action horderly ⟨hsettings, h⟩
    rw [← hsettings] at horderly
    exact ⟨(act_settings w host action).trans hsettings, act_owned h host horderly⟩
  exact (run_induction ⟨rfl, owned_new settings⟩ hact steps hsteps).2

/-! ### Two manifests that name one file -/

/-- The host of the files, except that no directory can be listed. -/
def unlistedHost (memory : Memory) : Host :=
  { memory.host with list := fun directory => .error (.io directory.text) }

/-- The manifests of `/a` and `/b` both name `/x.ts`.  No directory of this host can be listed. -/
def sharedHost : Host :=
  let place (text : String) : Path := (Path.mk .slash []).join text
  let memory := ((((Memory.empty.addFile (place "a/tsconfig.json")
    "\x7b\"files\":[\"m.ts\",\"../x.ts\"]\x7d").addFile (place "b/tsconfig.json")
    "\x7b\"files\":[\"n.ts\",\"../x.ts\"]\x7d").addFile (place "a/m.ts") "").addFile
    (place "b/n.ts") "").addFile (place "x.ts") ""
  { memory.host with list := fun directory => .error (.io directory.text) }

def sharedFile : Path := (Path.mk .slash []).join "x.ts"

/-- The first file of either manifest is opened, so that both projects start. -/
def sharedEvents : List (Host × Action) :=
  [(sharedHost, .openFile ((Path.mk .slash []).join "a/m.ts") ""),
    (sharedHost, .openFile ((Path.mk .slash []).join "b/n.ts") "")]

/-- The same by requests, and then the shared file as well. -/
def sharedRequests : List (Host × Action) :=
  ["/a/m.ts", "/b/n.ts", "/x.ts"].map fun file =>
    (sharedHost, .request .echo ⟨1, "open", .obj [("file", .str file)]⟩)

/-- **Every open document is a root of exactly one project, and that is an inferred or a configured
one**, after every run that opens documents by requests alone and is not told that a manifest was
deleted. -/
theorem open_document_has_one_holder (settings : Settings) (steps : List (Host × Action))
    (hsteps : ∀ step ∈ steps, step.2.Orderly settings.manifestFileNames) (path : Path)
    (hopen : (run settings steps).documents.isOpen path = true) :
    ∃ id, (∃ p, (run settings steps).project? id = some p ∧
        (p.kind = .inferred ∨ p.kind = .configured)) ∧
      ∀ other, (run settings steps).hasRoot path other = true ↔ other = id := by
  obtain ⟨id, kind, hkind, hheld⟩ := (run_owned settings steps hsteps).single path hopen nofun
  refine ⟨id, ?_, fun other => ?_⟩
  · obtain ⟨p, hp, -, rfl⟩ := rootKind_eq_some.1 hheld.rootKind_self
    refine ⟨p, hp, ?_⟩
    cases hk : p.kind with
    | inferred => exact .inl rfl
    | configured => exact .inr rfl
    | auxiliary => exact absurd hk hkind
  · rw [hasRoot_eq_isSome, hheld]
    split <;> simp [*]

theorem open_document_has_one_holder_shared :
    (∀ step ∈ sharedRequests, step.2.Orderly Settings.default.manifestFileNames) ∧
      (run .default sharedRequests).documents.isOpen sharedFile = true ∧
      ∃ id, (∃ p, (run .default sharedRequests).project? id = some p ∧
          (p.kind = .inferred ∨ p.kind = .configured)) ∧
        ∀ other, (run .default sharedRequests).hasRoot sharedFile other = true ↔ other = id := by
  have hsteps : ∀ step ∈ sharedRequests, step.2.Orderly Settings.default.manifestFileNames := by
    simp [sharedRequests, Action.Orderly]
  have hopen : (run .default sharedRequests).documents.isOpen sharedFile = true := by
    decide +kernel
  exact ⟨hsteps, hopen,
    open_document_has_one_holder .default sharedRequests hsteps sharedFile hopen⟩

/-! ## Opening alone -/

/-- The project has `path` as a root, and is no auxiliary one. -/
def Holds (w : Workspace) (path : Path) (id : ProjectId) : Prop :=
  ∃ p, w.project? id = some p ∧ p.kind ≠ .auxiliary ∧ p.hasRoot path = true

theorem holds_iff_rootKind :
    w.Holds path id ↔ ∃ kind, kind ≠ .auxiliary ∧ w.rootKind path id = some kind := by
  constructor
  · rintro ⟨p, hp, hkind, hroot⟩
    exact ⟨p.kind, hkind, rootKind_eq_some.2 ⟨p, hp, hroot, rfl⟩⟩
  · rintro ⟨kind, hkind, hroot⟩
    obtain ⟨p, hp, hpath, rfl⟩ := rootKind_eq_some.1 hroot
    exact ⟨p, hp, hkind, hpath⟩

/-- Before the document is given to a project, its holders are those that it had. -/
theorem hasRoot_opening (h : Consistent w) (opened : Documents.Opened) (documents : Documents) :
    (w.opening path opened documents).hasRoot path x = true ↔ w.Holds path x := by
  have hroots := rootKind_opening_eq_some w path opened documents path x
  rw [hasRoot_eq_isSome, Option.isSome_iff_exists, holds_iff_rootKind]
  constructor
  · rintro ⟨kind, hkind⟩
    obtain ⟨hbefore, hother⟩ := (hroots kind).1 hkind
    exact ⟨kind, hother (h.owner_of_rootKind hbefore), hbefore⟩
  · rintro ⟨kind, hother, hbefore⟩
    exact ⟨kind, (hroots kind).2 ⟨hbefore, fun _ => hother⟩⟩

/-- The document is a root of the project that opening names; if it had holders before, opening
leaves it to all of them. -/
theorem hasRoot_openFile (h : Consistent w)
    (hok : w.openFile host path content = (.ok id, w')) :
    w'.hasRoot path id = true ∧
      ((∀ x, ¬ w.Holds path x) ∧ (∀ x, w'.hasRoot path x = true → x = id) ∨
        ∀ x, w'.hasRoot path x = true ↔ w.Holds path x) := by
  have hopens := openFile_opens host w path content
  rw [hok] at hopens
  cases hopens with
  | @held opened documents _ hopened hholder =>
    have hholders : ∀ x, (w.opening path opened documents).hasRoot path x = true ↔
        w.Holds path x := fun x => hasRoot_opening h opened documents
    have hsame : ∀ x, ((w.opening path opened documents).modifyProject id Project.touch).hasRoot
        path x = (w.opening path opened documents).hasRoot path x :=
      fun x => by rw [hasRoot_eq_isSome, hasRoot_eq_isSome, rootKind_touch]
    refine ⟨?_, .inr fun x => by rw [hsame, hholders]⟩
    obtain ⟨kind, -, hroot⟩ := holder?_eq_some hholder
    rw [hsame, hasRoot_eq_isSome, hroot]
    rfl
  | @assigned opened documents hopened hnone =>
    have hmoves : Moves host { w with documents } (w.opening path opened documents) :=
      opening_moves w path opened documents
    have hconsistent := hmoves.consistent (h.documents documents)
    have hfree := free_opening h hnone
    obtain ⟨⟨kind, -, hheld⟩, -⟩ := assign_spec hconsistent host (isOpen_opening hopened) hfree
    have hroot : ∀ x, ((w.opening path opened documents).assign host path).2.hasRoot path x = true ↔
        x = ((w.opening path opened documents).assign host path).1 := by
      intro x
      rw [hasRoot_eq_isSome, hheld]
      split <;> simp [*]
    refine ⟨(hroot _).2 rfl, .inl ⟨fun x hx => ?_, fun x => (hroot x).1⟩⟩
    have hbefore := (hasRoot_opening h opened documents).2 hx
    rw [hasRoot_eq_isSome, hfree] at hbefore
    cases hbefore

/-- **A document that is opened is a root of the project that opening names, and of no other one if
and only if at most one inferred or configured project had it as a root before.**  Several
configured projects may share a closed root; opening does not choose between them, and only the
next rebuild of one of them does. -/
theorem openFile_holds_alone_iff (settings : Settings) (steps : List (Host × Action)) (host : Host)
    (path : Path) (content : String) (id : ProjectId) (w' : Workspace)
    (hok : (run settings steps).openFile host path content = (.ok id, w')) :
    w'.hasRoot path id = true ∧
      ((∀ other, w'.hasRoot path other = true → other = id) ↔
        ∀ x y, (run settings steps).Holds path x → (run settings steps).Holds path y → x = y) := by
  obtain ⟨hself, hroots⟩ := hasRoot_openFile (run_consistent settings steps) hok
  refine ⟨hself, ?_⟩
  rcases hroots with ⟨hnobody, halone⟩ | hsame
  · exact ⟨fun _ x y hx _ => absurd hx (hnobody x), fun _ => halone⟩
  · simp only [hsame] at hself ⊢
    exact ⟨fun halone x y hx hy => (halone x hx).trans (halone y hy).symm,
      fun hunique other hother => hunique other id hother hself⟩

theorem openFile_holds_alone_iff_shared :
    ((run .default sharedEvents).openFile sharedHost sharedFile "").1 = .ok ⟨1⟩ ∧
      ((run .default sharedEvents).openFile sharedHost sharedFile "").2.hasRoot sharedFile ⟨1⟩ =
        true ∧
      ((∀ other, ((run .default sharedEvents).openFile sharedHost sharedFile "").2.hasRoot
          sharedFile other = true → other = ⟨1⟩) ↔
        ∀ x y, (run .default sharedEvents).Holds sharedFile x →
          (run .default sharedEvents).Holds sharedFile y → x = y) := by
  have hfirst : ((run .default sharedEvents).openFile sharedHost sharedFile "").1 = .ok ⟨1⟩ := by
    decide +kernel
  generalize hanswer : (run .default sharedEvents).openFile sharedHost sharedFile "" = answer at *
  obtain ⟨result, w'⟩ := answer
  cases hfirst
  exact ⟨rfl,
    openFile_holds_alone_iff .default sharedEvents sharedHost sharedFile "" ⟨1⟩ w' hanswer⟩

/-- Opening names one project, and the document is a root of another one as well. -/
theorem openFile_leaves_two_holders :
    ((run .default sharedEvents).openFile sharedHost sharedFile "").1 = .ok ⟨1⟩ ∧
      ((run .default sharedEvents).openFile sharedHost sharedFile "").2.hasRoot sharedFile ⟨2⟩ =
        true := by
  decide +kernel

end Codebase.Workspace
