import Codebase.Proofs.Workspace.Lifecycle
/-!
# After a manifest is deleted

The project of a deleted manifest ends, and its open roots are given to other projects, one after
the other.  Doing so may start a project whose manifest names a root that is still to be given away,
and that one is then given away regardless.

* `assign_others` — what assigning one path does to another one.
* `reassign_others` — what assigning a list of paths does to a path that is not on it.
* `deleted_manifest_leaves_one_holder_iff` — which open documents have one holder afterwards.
* `deleted_manifest_leaves_two_holders` — not all of them do.
-/

namespace Codebase.Workspace

variable {host : Host} {w : Workspace} {id x : ProjectId} {path q : Path}

/-! ## Giving paths to projects -/

/-- A project that takes a path leaves all roots alone, or is new. -/
theorem configuredFor_others {taker : ProjectId × Workspace}
    (htaker : w.configuredFor host path = some taker) :
    (∀ q x, taker.2.rootKind q x = w.rootKind q x) ∨ taker.1 = ⟨w.lastNumber + 1⟩ := by
  unfold configuredFor at htaker
  split at htaker
  · cases htaker
  · split at htaker
    · cases htaker
    · cases htaker
      exact .inl fun _ _ => rfl
    · cases htaker
      exact .inr rfl
    · cases htaker
      exact .inr rfl

/-- When one path is assigned, any other open one keeps its holders or passes to a project that has
just been started. -/
theorem assign_others (h : Consistent w) (host : Host) (path : Path)
    (hopen : w.documents.isOpen q = true) (hne : q ≠ path) :
    (∀ x, (w.assign host path).2.rootKind q x = w.rootKind q x) ∨
      ∃ later, w.lastNumber < later.number ∧
        HeldBy (w.assign host path).2 q later .configured := by
  have hroots : ∀ x, (w.assign host path).2.rootKind q x =
      ((w.configuredFor host path).getD w.inferredFor).2.rootKind q x := by
    intro x
    unfold assign
    simp only
    rw [rootKind_addRoot, if_neg fun heq => hne heq.2]
  cases htaker : w.configuredFor host path with
  | none =>
    rw [htaker] at hroots
    exact .inl fun x => (hroots x).trans ((inferredFor_spec h).2 q x)
  | some taker =>
    rw [htaker, Option.getD_some] at hroots
    obtain ⟨-, hpasses⟩ := configuredFor_spec h htaker
    rcases hpasses.roots q hopen with hsame | hheld
    · exact .inl fun x => (hroots x).trans (hsame x)
    · rcases configuredFor_others htaker with hsame | hnew
      · exact .inl fun x => (hroots x).trans (hsame q x)
      · refine .inr ⟨taker.1, ?_, fun x => (hroots x).trans (hheld x)⟩
        rw [hnew]
        exact Nat.lt_succ_self _

/-- The same for a list of paths. -/
theorem reassign_others (h : Consistent w) (host : Host) (paths : List Path)
    (hopen : w.documents.isOpen q = true) (hq : q ∉ paths) :
    (∀ x, (w.reassign host paths).rootKind q x = w.rootKind q x) ∨
      ∃ later, w.lastNumber < later.number ∧
        HeldBy (w.reassign host paths) q later .configured := by
  unfold reassign
  induction paths generalizing w with
  | nil => exact .inl fun _ => rfl
  | cons path rest ih =>
    rw [List.mem_cons, not_or] at hq
    have hmoves : Moves host w (w.assign host path).2 := assign_moves w path
    rw [List.foldl_cons]
    rcases ih (hmoves.consistent h) ((hmoves.isOpen q).trans hopen) hq.2 with
      hsame | ⟨later, hlater, hheld⟩
    · rcases assign_others h host path hopen hq.1 with hbefore | ⟨later, hlater, hheld⟩
      · exact .inl fun x => (hsame x).trans (hbefore x)
      · exact .inr ⟨later, hlater, hheld.congr hsame⟩
    · exact .inr ⟨later, Nat.lt_of_le_of_lt hmoves.lastNumber hlater, hheld⟩

/-- The project that a path is assigned to has it as a root. -/
theorem hasRoot_assign (h : Consistent w) (host : Host) (path : Path) :
    (w.assign host path).2.hasRoot path (w.assign host path).1 = true := by
  obtain ⟨⟨p, hp, -⟩, -⟩ := taker_spec h host path
  have hroot : (w.assign host path).2.rootKind path (w.assign host path).1 = some p.kind := by
    unfold assign
    simp only
    rw [rootKind_addRoot, if_pos ⟨rfl, rfl⟩, hp, Option.map_some]
  rw [hasRoot_eq_isSome, hroot]
  rfl

/-! ## The open roots of a project that ends -/

theorem HeldBy.existsUnique {kind : ProjectKind} (h : HeldBy w q id kind) :
    ∃! holder, w.hasRoot q holder = true := by
  simp only [hasRoot_eq_isSome]
  refine ⟨id, ?_, fun x hx => ?_⟩
  · simp only [h.rootKind_self, Option.isSome_some]
  · simp only [h x] at hx
    split at hx
    · assumption
    · cases hx

/-- A path in a list of paths without repetition has one holder afterwards if it has one when it has
been assigned, or passes to a project that is started later. -/
theorem existsUnique_reassign_iff (h : Consistent w) (host : Host) {before after : List Path}
    (hnodup : (before ++ path :: after).Nodup) (hopen : w.documents.isOpen path = true) :
    let w₁ := w.reassign host before
    let w₂ := (w₁.assign host path).2
    let w' := w.reassign host (before ++ path :: after)
    (∃! holder, w'.hasRoot path holder = true) ↔
      (∀ other, w₂.hasRoot path other = true → other = (w₁.assign host path).1) ∨
        ∃ later, w₂.lastNumber < later.number ∧ w'.hasRoot path later = true := by
  intro w₁ w₂ w'
  have hbefore : Moves host w w₁ := reassign_moves w before
  have hassign : Moves host w w₂ := hbefore.trans (assign_moves w₁ path)
  have hconsistent := hassign.consistent h
  have hafter : path ∉ after := by
    rw [List.nodup_append] at hnodup
    exact (List.nodup_cons.1 hnodup.2.1).1
  have hw' : w' = w₂.reassign host after := by
    unfold w' w₂ w₁ reassign
    rw [List.foldl_append, List.foldl_cons]
  rcases reassign_others hconsistent host after ((hassign.isOpen path).trans hopen) hafter with
    hsame | ⟨later, hlater, hheld⟩
  · have hroots : ∀ x, w'.hasRoot path x = w₂.hasRoot path x := by
      rw [hw']
      exact fun x => hasRoot_congr (hsame x)
    have htaker := hasRoot_assign (hbefore.consistent h) host path
    simp only [hroots]
    refine ⟨fun hone => .inl fun other hother => hone.unique hother htaker, ?_⟩
    rintro (halone | ⟨later, hlater, hroot⟩)
    · exact ⟨_, htaker, halone⟩
    · -- a project that is live has been started before
      obtain ⟨p, hp, -⟩ := (Option.any_eq_true _ _).1 hroot
      exact absurd (hconsistent.numbered later p hp) (Nat.not_le_of_lt hlater)
  · rw [← hw'] at hheld
    refine ⟨fun _ => .inr ⟨later, hlater, ?_⟩, fun _ => hheld.existsUnique⟩
    rw [hasRoot_eq_isSome, hheld.rootKind_self]
    rfl

/-- When a project ends whose members are all open, no document is dropped. -/
theorem removeProject_of_isOpen (hlive : w.projects.contains id = true)
    (hopen : ∀ q ∈ w.ownership.membersOf id, w.documents.isOpen q = true) :
    w.removeProject id = { w with
      projects := w.projects.erase id
      ownership := (w.ownership.removeProject id).2 } := by
  have hkept : w.documents.forgetAll (w.ownership.removeProject id).1 = w.documents :=
    Documents.forgetAll_of_isOpen fun q hq =>
      hopen q (Ownership.mem_membersOf_of_mem_orphans hq)
  unfold removeProject
  rw [if_pos hlive]
  simp only
  rw [hkept]

/-- What a path that has exactly one holder is held by. -/
theorem heldBy_of_existsUnique (h : Lawful (w, still)) (hopen : w.documents.isOpen path = true)
    (hone : ∃! holder, w.hasRoot path holder = true) :
    ∃ id kind, HeldBy w path id kind := by
  obtain ⟨id, hholds⟩ := (h.held path hopen).resolve_left not_false
  obtain ⟨kind, -, hroot⟩ := holds_iff_rootKind.1 hholds
  refine ⟨id, kind, fun x => ?_⟩
  split
  · rename_i hx
    rw [hx, hroot]
  · rename_i hx
    refine Option.not_isSome_iff_eq_none.1 fun hsome => hx ?_
    refine hone.unique ?_ ?_
    · rw [hasRoot_eq_isSome]
      exact hsome
    · rw [hasRoot_eq_isSome, hroot]
      rfl

/-- When a project ends, a document that is no root of it has one holder still. -/
theorem existsUnique_reassign_of_not_root {p : Project} (h : Lawful (w, still)) (host : Host)
    (hlive : w.project? id = some p) (hother : p.hasRoot path = false)
    (hopen : w.documents.isOpen path = true) (hone : ∃! holder, w.hasRoot path holder = true) :
    ∃! holder, ((w.removeProject id).reassign host
      (p.roots.toList.filter w.documents.isOpen)).hasRoot path holder = true := by
  have hremove : Moves host w (w.removeProject id) := (Move.retire w id).moves
  obtain ⟨holder, kind, hheld⟩ := heldBy_of_existsUnique h hopen hone
  have hne : holder ≠ id := by
    rintro rfl
    have hself := hheld.rootKind_self
    rw [rootKind_of_live hlive, hother] at hself
    cases hself
  have hremoved : HeldBy (w.removeProject id) path holder kind := by
    refine hheld.of_kept (fun x k hx => ?_) ?_
    · rw [rootKind_removeProject] at hx
      split at hx
      · cases hx
      · exact hx
    · rw [rootKind_removeProject, if_neg hne, hheld.rootKind_self]
  have hnot : path ∉ p.roots.toList.filter w.documents.isOpen := fun hmem => by
    have hroot := Project.hasRoot_iff.2 (List.mem_filter.1 hmem).1
    rw [hother] at hroot
    cases hroot
  rcases reassign_others (hremove.consistent h.consistent) host _
    ((hremove.isOpen path).trans hopen) hnot with hsame | ⟨later, -, hheld⟩
  · exact (hremoved.congr hsame).existsUnique
  · exact hheld.existsUnique

/-- When an ordinary file is deleted, no open document gets another holder. -/
theorem existsUnique_fileDeleted (h : Lawful (w, still)) (m : Path)
    (hopen : w.documents.isOpen path = true) (hone : ∃! holder, w.hasRoot path holder = true) :
    ∃! holder, (w.fileDeleted m).hasRoot path holder = true := by
  cases hclosed : w.documents.isOpen m with
  | true =>
    unfold fileDeleted
    rw [if_pos hclosed]
    exact hone
  | false =>
    have hmoves : Moves Memory.empty.host w (w.fileDeleted m) := fileDeleted_moves w m
    have hold : ∀ x, (w.fileDeleted m).hasRoot path x = true → w.hasRoot path x = true := by
      intro x hx
      rw [hasRoot_eq_isSome, rootKind_fileDeleted h.consistent hclosed] at hx
      split at hx
      · cases hx
      · rw [hasRoot_eq_isSome]
        exact hx
    obtain ⟨id, p, hp, -, hroot⟩ :=
      ((h.delete hclosed).held path ((hmoves.isOpen path).trans hopen)).resolve_left not_false
    have hid : (w.fileDeleted m).hasRoot path id = true :=
      (Option.any_eq_true _ _).2 ⟨p, hp, hroot⟩
    exact ⟨id, hid, fun other hother => hone.unique (hold other hother) (hold id hid)⟩

/-- The project of a deleted manifest ends, and its open roots are assigned. -/
theorem act_manifestDeleted {m : Path} (host : Host)
    (hnamed : Manifest.isNamed w.settings.manifestFileNames m = true)
    (hproject : w.projectOfManifest? m = some id) :
    w.act host (.notice ⟨m, .deleted⟩) = w.manifestDeleted host id := by
  unfold act noticeFile manifestEvent
  simp only
  rw [if_pos hnamed, hproject]

theorem act_fileDeleted {m : Path} (host : Host)
    (hordinary : Manifest.isNamed w.settings.manifestFileNames m = false) :
    w.act host (.notice ⟨m, .deleted⟩) = w.fileDeleted m := by
  unfold act noticeFile
  simp only
  rw [if_neg (by rw [hordinary]; exact Bool.false_ne_true)]

/-- **Which open documents have one holder after their manifest was deleted**, when each has one
before.  All of them do if the settings do not give the name, so that the file is taken for an
ordinary one.  Otherwise a document that is no root of the ended project has one still; and a root
of it has one holder if and only if, when its turn comes, nobody has claimed it but the project that
it is assigned to, or a project that is started after that claims it. -/
theorem deleted_manifest_leaves_one_holder_iff (settings : Settings) (steps : List (Host × Action))
    (host : Host) (m : Path) (id : ProjectId) (p : Project) (path : Path)
    (hone : ∀ q, (run settings steps).documents.isOpen q = true →
      ∃! holder, (run settings steps).hasRoot q holder = true)
    (hproject : (run settings steps).projectOfManifest? m = some id)
    (hlive : (run settings steps).project? id = some p)
    (hopen : (run settings steps).documents.isOpen path = true) :
    let w := run settings steps
    let w' := w.act host (.notice ⟨m, .deleted⟩)
    (Manifest.isNamed settings.manifestFileNames m = false →
      ∃! holder, w'.hasRoot path holder = true) ∧
    (p.hasRoot path = false → ∃! holder, w'.hasRoot path holder = true) ∧
    (Manifest.isNamed settings.manifestFileNames m = true →
      ∀ before after, p.roots.toList.filter w.documents.isOpen = before ++ path :: after →
        let w₁ := (w.removeProject id).reassign host before
        let w₂ := (w₁.assign host path).2
        ((∃! holder, w'.hasRoot path holder = true) ↔
          (∀ other, w₂.hasRoot path other = true → other = (w₁.assign host path).1) ∨
            ∃ later, w₂.lastNumber < later.number ∧ w'.hasRoot path later = true)) := by
  intro w w'
  have hlawful : Lawful (w, still) := run_lawful settings steps
  have hsettings : w.settings = settings := run_settings settings steps
  have hordinary : Manifest.isNamed settings.manifestFileNames m = false →
      ∃! holder, w'.hasRoot path holder = true := by
    intro hordinary
    have hw' : w' = w.fileDeleted m := act_fileDeleted host (hsettings ▸ hordinary)
    rw [hw']
    exact existsUnique_fileDeleted hlawful m hopen (hone path hopen)
  have hended : Manifest.isNamed settings.manifestFileNames m = true →
      w' = (w.removeProject id).reassign host (p.roots.toList.filter w.documents.isOpen) := by
    intro hnamed
    have hw' : w' = w.manifestDeleted host id :=
      act_manifestDeleted host (hsettings ▸ hnamed) hproject
    have hroots : w.project? id = some p := hlive
    rw [hw', manifestDeleted, hroots]
  refine ⟨hordinary, fun hother => ?_, fun hnamed before after hsplit => ?_⟩
  · cases hnamed : Manifest.isNamed settings.manifestFileNames m with
    | false => exact hordinary hnamed
    | true =>
      rw [hended hnamed]
      exact existsUnique_reassign_of_not_root hlawful host hlive hother hopen (hone path hopen)
  · have hremove : Moves host w (w.removeProject id) := (Move.retire w id).moves
    have hnodup : (before ++ path :: after).Nodup := by
      rw [← hsplit]
      exact p.roots.nodup.filter _
    rw [hended hnamed, hsplit]
    exact existsUnique_reassign_iff (hremove.consistent hlawful.consistent) host hnodup
      ((hremove.isOpen path).trans hopen)

/-! ## Three manifests that overlap -/

/-- One of three manifests names a root of either of the others, and these share one as well. -/
def overlappingFiles : Memory :=
  let place (text : String) : Path := (Path.mk .slash []).join text
  ((((((Memory.empty.addFile (place "p/tsconfig.json")
    "\x7b\"files\":[\"../q/a.ts\",\"../r/b.ts\",\"x.ts\"]\x7d").addFile (place "q/tsconfig.json")
    "\x7b\"files\":[\"a.ts\",\"../r/b.ts\"]\x7d").addFile (place "r/tsconfig.json")
    "\x7b\"files\":[\"b.ts\",\"c.ts\"]\x7d").addFile (place "p/x.ts") "").addFile
    (place "q/a.ts") "").addFile (place "r/b.ts") "").addFile (place "r/c.ts") ""

def overlappingManifest : Path := (Path.mk .slash []).join "p/tsconfig.json"

def overlappingFile : Path := (Path.mk .slash []).join "r/b.ts"

def overlappingRequests : List (Host × Action) :=
  ["/p/x.ts", "/r/c.ts", "/r/b.ts", "/q/a.ts"].map fun file =>
    (unlistedHost overlappingFiles, .request .echo ⟨1, "open", .obj [("file", .str file)]⟩)

/-- The first file is opened, which starts a project, then a file of the third manifest, and then
the roots of the first project that other manifests name. -/
def overlappingStart : Workspace := run .default overlappingRequests

/-- The host when the first manifest is gone. -/
def overlappingRest : Host := unlistedHost (overlappingFiles.removeFile overlappingManifest)

/-- The workspace after the deletion is reported. -/
def overlappingEnd : Workspace :=
  overlappingStart.act overlappingRest (.notice ⟨overlappingManifest, .deleted⟩)

theorem existsUnique_overlapping (q : Path) (hopen : overlappingStart.documents.isOpen q = true) :
    ∃! holder, overlappingStart.hasRoot q holder = true := by
  have horderly : ∀ step ∈ overlappingRequests,
      step.2.Orderly Settings.default.manifestFileNames := by
    simp [overlappingRequests, Action.Orderly]
  obtain ⟨id, kind, -, hheld⟩ :=
    (run_owned .default overlappingRequests horderly).single q hopen (Option.some_ne_none q)
  exact hheld.existsUnique

/-- The manifest governs the first project, whose members are all open. -/
theorem overlappingStart_facts :
    Manifest.isNamed Settings.default.manifestFileNames overlappingManifest = true ∧
      overlappingStart.projectOfManifest? overlappingManifest = some ⟨1⟩ ∧
      overlappingStart.projects.contains ⟨1⟩ = true ∧
      overlappingStart.documents.isOpen overlappingFile = true ∧
      ∀ q ∈ overlappingStart.ownership.membersOf ⟨1⟩,
        overlappingStart.documents.isOpen q = true := by
  decide +kernel

theorem deleted_manifest_leaves_one_holder_iff_overlapping :
    overlappingStart.projectOfManifest? overlappingManifest = some ⟨1⟩ ∧
    overlappingStart.documents.isOpen overlappingFile = true ∧
    ∃ p, overlappingStart.project? ⟨1⟩ = some p ∧
      ∀ before after, p.roots.toList.filter overlappingStart.documents.isOpen =
          before ++ overlappingFile :: after →
        let w₁ := (overlappingStart.removeProject ⟨1⟩).reassign overlappingRest before
        let w₂ := (w₁.assign overlappingRest overlappingFile).2
        ((∃! holder, overlappingEnd.hasRoot overlappingFile holder = true) ↔
          (∀ other, w₂.hasRoot overlappingFile other = true →
            other = (w₁.assign overlappingRest overlappingFile).1) ∨
            ∃ later, w₂.lastNumber < later.number ∧
              overlappingEnd.hasRoot overlappingFile later = true) := by
  obtain ⟨hnamed, hproject, hlive, hopen, -⟩ := overlappingStart_facts
  obtain ⟨p, hp⟩ := Table.contains_eq_true.1 hlive
  obtain ⟨-, -, hroots⟩ := deleted_manifest_leaves_one_holder_iff .default overlappingRequests
    overlappingRest overlappingManifest ⟨1⟩ p overlappingFile existsUnique_overlapping hproject hp
    hopen
  exact ⟨hproject, hopen, p, hp, hroots hnamed⟩

/-- All open documents have one holder, and after the deletion one of them has two. -/
theorem deleted_manifest_leaves_two_holders :
    (∀ q, overlappingStart.documents.isOpen q = true →
      ∃! holder, overlappingStart.hasRoot q holder = true) ∧
    overlappingStart.projectOfManifest? overlappingManifest = some ⟨1⟩ ∧
    overlappingRest.hasFile overlappingManifest = false ∧
    overlappingEnd.documents.isOpen overlappingFile = true ∧
    overlappingEnd.hasRoot overlappingFile ⟨2⟩ = true ∧
    overlappingEnd.hasRoot overlappingFile ⟨3⟩ = true := by
  obtain ⟨hnamed, hproject, hlive, -, hmembers⟩ := overlappingStart_facts
  have hend : overlappingEnd = overlappingStart.manifestDeleted overlappingRest ⟨1⟩ :=
    act_manifestDeleted overlappingRest (by rw [overlappingStart, run_settings]; exact hnamed)
      hproject
  -- all members are open, so nothing has to be sorted to see which ones are dropped
  rw [hend, manifestDeleted, removeProject_of_isOpen hlive hmembers]
  exact ⟨existsUnique_overlapping, hproject, by decide +kernel⟩

end Codebase.Workspace
