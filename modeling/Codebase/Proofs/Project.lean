import Codebase.Project
import Codebase.Proofs.Build.Locality
/-!
# Changes of one project

`Project.Linked` relates a project to the paths that the index links to it, and says what holds of
a project that is not dirty.  Each change of a project has one lemma that keeps it, and
`Project.Rebuilt` lists what a rebuild does:

* `rebuilt_of_refresh?` — a rebuild leaves the project clean, with exactly what was built from its
  roots, and drops no open root.
* `Linked.addRoot`, `Linked.dropRoot`, `Linked.loseRoot`, `Rebuilt.linked` — the links follow.
-/

namespace Codebase.Project

variable {project rebuilt : Project} {ctx : Context} {build : Build} {path q : Path}
  {links next : Path → Prop}

/-! ## Views of changed projects -/

@[simp] theorem kind_addRoot (project : Project) (path : Path) :
    (project.addRoot path).kind = project.kind := rfl

@[simp] theorem kind_removeRoot (project : Project) (path : Path) :
    (project.removeRoot path).kind = project.kind := rfl

theorem hasRoot_iff : project.hasRoot q = true ↔ q ∈ project.roots := by
  unfold hasRoot
  rw [decide_eq_true_eq, Roster.mem_toList]

theorem hasRoot_addRoot :
    (project.addRoot path).hasRoot q = true ↔ project.hasRoot q = true ∨ q = path := by
  rw [hasRoot_iff, hasRoot_iff]
  exact Roster.mem_insert

theorem hasRoot_removeRoot :
    (project.removeRoot path).hasRoot q = true ↔ project.hasRoot q = true ∧ q ≠ path := by
  rw [hasRoot_iff, hasRoot_iff]
  exact Roster.mem_erase

theorem contains_iff : project.contains q = true ↔
    project.hasRoot q = true ∨ ∃ files, project.derived = some files ∧ q ∈ files := by
  unfold contains
  rw [Bool.or_eq_true_iff, Option.any_eq_true]
  simp

theorem mem_members : q ∈ project.members ↔ project.contains q = true := by
  rw [contains_iff]
  unfold members
  rw [List.mem_append, List.mem_filter, Roster.mem_toList, ← hasRoot_iff]
  cases project.derived with
  | none => simp
  | some files => by_cases h : project.hasRoot q = true <;> simp [h]

/-! ## Rebuilding -/

theorem manifestPath?_eq_some (h : project.manifestPath? = some path) :
    project.kind = .configured := by
  unfold manifestPath? at h
  unfold kind
  cases horigin : project.origin with
  | configured _ _ => rfl
  | inferred => rw [horigin] at h; cases h
  | auxiliary => rw [horigin] at h; cases h

theorem mem_roots_adopt {manifest : Manifest} (h : q ∈ project.roots)
    (hopen : ctx.documents.isOpen q = true) : q ∈ (project.adopt ctx manifest).roots := by
  unfold adopt
  rw [Roster.mem_foldl_insert]
  exact .inr (List.mem_filter.2 ⟨h, hopen⟩)

/-- Reading the manifest again: the kind of the project stays, its open roots stay, and a project
without a manifest keeps all of its roots. -/
theorem reread_spec (project : Project) (ctx : Context) :
    (project.reread ctx).id = project.id ∧ (project.reread ctx).kind = project.kind ∧
      (project.reread ctx).isStale = false ∧
      (∀ r ∈ project.roots, ctx.documents.isOpen r = true → r ∈ (project.reread ctx).roots) ∧
      (project.kind ≠ .configured → (project.reread ctx).roots = project.roots) := by
  unfold reread
  simp only
  split
  · rename_i manifestPath directory hpath _
    have hkind : project.kind = .configured :=
      manifestPath?_eq_some (show project.manifestPath? = _ from hpath)
    split
    · split
      · exact ⟨rfl, hkind.symm, rfl, fun r hr hopen => mem_roots_adopt hr hopen,
          fun hne => absurd hkind hne⟩
      · exact ⟨rfl, hkind.symm, rfl, fun r hr _ => hr, fun hne => absurd hkind hne⟩
    · exact ⟨rfl, hkind.symm, rfl, fun r hr _ => hr, fun hne => absurd hkind hne⟩
    · exact ⟨rfl, hkind.symm, rfl, fun r hr _ => hr, fun hne => absurd hkind hne⟩
  · exact ⟨rfl, rfl, rfl, fun r hr _ => hr, fun _ => rfl⟩

/-- What a rebuild makes of a project. -/
structure Rebuilt (project : Project) (ctx : Context) (rebuilt : Project) (build : Build) :
    Prop where
  id : rebuilt.id = project.id
  kind : rebuilt.kind = project.kind
  isDirty : rebuilt.isDirty = false
  isStale : rebuilt.isStale = false
  derived : rebuilt.derived = some build.files
  unresolved : rebuilt.unresolved = build.unresolved
  built : build = Build.make (.ofCapability rebuilt.capability) ctx rebuilt.roots.toList
    rebuilt.options
  openRoots : ∀ r ∈ project.roots, ctx.documents.isOpen r = true → r ∈ rebuilt.roots
  ownRoots : project.kind ≠ .configured → rebuilt.roots = project.roots

/-- The project as a build finds it: its manifest has been read again if that was due. -/
def prepared (project : Project) (ctx : Context) : Project :=
  if project.isStale then project.reread ctx else project

/-- The project with what was built of it. -/
def recorded (project : Project) (build : Build) : Project :=
  { project with
    derived := some build.files
    unresolved := build.unresolved
    isDirty := false
    buildCount := project.buildCount + 1 }

/-- A dirty project is prepared, and what is built of it then is recorded. -/
theorem eq_of_refresh? (h : project.refresh? ctx = some (rebuilt, build)) :
    project.isDirty = true ∧
      build = Build.make (.ofCapability (project.prepared ctx).capability) ctx
        (project.prepared ctx).roots.toList (project.prepared ctx).options ∧
      rebuilt = (project.prepared ctx).recorded build := by
  unfold refresh? at h
  split at h
  · rename_i hdirty
    cases h
    exact ⟨hdirty, rfl, rfl⟩
  · cases h

theorem prepared_of_stale (h : project.isStale = true) (ctx : Context) :
    project.prepared ctx = project.reread ctx := if_pos h

theorem prepared_of_fresh (h : project.isStale = false) (ctx : Context) :
    project.prepared ctx = project := if_neg (by rw [h]; exact Bool.false_ne_true)

theorem rebuilt_of_refresh? (h : project.refresh? ctx = some (rebuilt, build)) :
    project.isDirty = true ∧ Rebuilt project ctx rebuilt build := by
  obtain ⟨hdirty, hbuild, rfl⟩ := eq_of_refresh? h
  refine ⟨hdirty, ?_⟩
  cases hstale : project.isStale with
  | true =>
    obtain ⟨hid, hkind, hread, hopen, hown⟩ := reread_spec project ctx
    rw [prepared_of_stale hstale] at hbuild ⊢
    exact ⟨hid, hkind, rfl, hread, rfl, rfl, hbuild, hopen, hown⟩
  | false =>
    rw [prepared_of_fresh hstale] at hbuild ⊢
    exact ⟨rfl, rfl, rfl, hstale, rfl, rfl, hbuild, fun r hr _ => hr, fun _ => rfl⟩

/-- A project without a manifest has nothing to read. -/
theorem reread_of_unconfigured (h : project.kind ≠ .configured) (ctx : Context) :
    project.reread ctx = { project with isStale := false } := by
  unfold reread
  simp only
  split
  · rename_i hpath _
    exact absurd (manifestPath?_eq_some (show project.manifestPath? = _ from hpath)) h
  · rfl

/-- A rebuild of a project without a manifest changes neither what it is nor its roots. -/
theorem unconfigured_of_refresh? (hkind : project.kind ≠ .configured)
    (h : project.refresh? ctx = some (rebuilt, build)) :
    rebuilt.origin = project.origin ∧ rebuilt.capability = project.capability ∧
      rebuilt.roots = project.roots := by
  obtain ⟨-, -, rfl⟩ := eq_of_refresh? h
  unfold prepared
  split
  · rw [reread_of_unconfigured hkind]
    exact ⟨rfl, rfl, rfl⟩
  · exact ⟨rfl, rfl, rfl⟩

/-- A project that is dirty is rebuilt. -/
theorem refresh?_of_isDirty (h : project.isDirty = true) (ctx : Context) :
    ∃ rebuilt build, project.refresh? ctx = some (rebuilt, build) := by
  unfold refresh?
  rw [if_pos h]
  exact ⟨_, _, rfl⟩

/-- The files of a rebuild have no duplicates and contain the roots; without semantics they are the
roots. -/
theorem Rebuilt.files_spec (h : Rebuilt project ctx rebuilt build) :
    build.files.Nodup ∧ (∀ r ∈ rebuilt.roots, r ∈ build.files) ∧
      (rebuilt.capability = .syntacticOnly → build.files = rebuilt.roots.toList) := by
  rw [h.built]
  cases rebuilt.capability with
  | syntacticOnly => exact ⟨rebuilt.roots.nodup, fun r hr => hr, fun _ => rfl⟩
  | fullSemantic =>
    obtain ⟨hnodup, hseeds, -, -⟩ :=
      Build.closure_sound ctx rebuilt.roots.toList rebuilt.options
    exact ⟨hnodup, fun r hr => hseeds r (Build.mem_seeds_of_mem_roots hr), nofun⟩

/-- What a rebuild lists as read is among the files and has the texts of the host; with semantics
every file that can be read is a document or is listed. -/
theorem Rebuilt.discovered_spec (h : Rebuilt project ctx rebuilt build) :
    (∀ e ∈ build.discovered, e.1 ∈ build.files ∧ ctx.host.read e.1 = .ok e.2) ∧
      (rebuilt.capability = .fullSemantic → ∀ f ∈ build.files, (ctx.read f).isSome = true →
        ctx.documents.contains f = true ∨ f ∈ build.discovered.map Prod.fst) := by
  rw [h.built]
  cases rebuilt.capability with
  | syntacticOnly => exact ⟨nofun, nofun⟩
  | fullSemantic =>
    obtain ⟨-, -, hread, hdiscovered⟩ :=
      Build.closure_sound ctx rebuilt.roots.toList rebuilt.options
    exact ⟨fun e he => (hdiscovered e he).imp_right And.right, fun _ => hread⟩

/-- The project shows what a build of its roots comes to now. -/
def Current (project : Project) (ctx : Context) : Prop :=
  let build := Build.make (.ofCapability project.capability) ctx project.roots.toList
    project.options
  project.files? = some build.files ∧ project.unresolved = build.unresolved

theorem files?_of_clean (h : project.isDirty = false) : project.files? = project.derived := by
  unfold files?
  rw [if_neg (by rw [h]; exact Bool.false_ne_true)]

/-- A project that shows files is clean. -/
theorem clean_of_files? {files : List Path} (h : project.files? = some files) :
    project.isDirty = false := by
  unfold files? at h
  split at h
  · cases h
  · rename_i hclean
    exact Bool.eq_false_iff.2 hclean

theorem Rebuilt.files? (h : Rebuilt project ctx rebuilt build) :
    rebuilt.files? = some build.files :=
  (files?_of_clean h.isDirty).trans h.derived

theorem Rebuilt.current (h : Rebuilt project ctx rebuilt build) : rebuilt.Current ctx := by
  unfold Current
  simp only
  rw [← h.built]
  exact ⟨h.files?, h.unresolved⟩

/-- Without semantics nothing that a build may consult matters. -/
theorem Current.of_syntacticOnly (h : project.Current ctx)
    (hcapability : project.capability = .syntacticOnly) (next : Context) :
    project.Current next := by
  unfold Current at h ⊢
  simp only [hcapability] at h ⊢
  exact h

/-- Without semantics no text matters, and with semantics only those of the files do. -/
theorem Current.of_agree {next : Context} (h : project.Current ctx) (hagree : ctx.Agree next)
    (htext : project.capability = .fullSemantic → ∀ files, project.files? = some files →
      ∀ f ∈ files, ctx.read f = next.read f) : project.Current next := by
  cases hcapability : project.capability with
  | syntacticOnly => exact h.of_syntacticOnly hcapability next
  | fullSemantic =>
    obtain ⟨hfiles, hunresolved⟩ := h
    unfold Current
    simp only [hcapability] at hfiles hunresolved ⊢
    obtain ⟨hsame, hsame'⟩ := Build.make_local hagree (htext hcapability _ hfiles)
    rw [hsame, hsame']
    exact ⟨hfiles, hunresolved⟩

/-! ## Links -/

/-- What holds of a project that is not dirty, when `links` are the paths linked to it. -/
structure Settled (project : Project) (links : Path → Prop) (files : List Path) : Prop where
  derived : project.derived = some files
  isStale : project.isStale = false
  nodup : files.Nodup
  roots : ∀ r ∈ project.roots, r ∈ files
  links : ∀ q, links q ↔ q ∈ files
  syntacticOnly : project.capability = .syntacticOnly → files = project.roots.toList

/-- The links of a project contain its roots, and are among its roots and the files of its last
build; a project that is not dirty is settled. -/
structure Linked (project : Project) (links : Path → Prop) : Prop where
  roots : ∀ r ∈ project.roots, links r
  known : ∀ q, links q → project.contains q = true
  settled : project.isDirty = false → ∃ files, project.Settled links files

/-- A project that is dirty has to fit its links only roughly. -/
theorem linked_of_isDirty (hdirty : project.isDirty = true) (hroots : ∀ r ∈ project.roots, links r)
    (hknown : ∀ q, links q → project.contains q = true) : project.Linked links :=
  ⟨hroots, hknown, fun h => by rw [hdirty] at h; cases h⟩

namespace Linked

theorem touch (h : project.Linked links) : project.touch.Linked links :=
  linked_of_isDirty rfl h.roots h.known

theorem outdate (h : project.Linked links) : project.outdate.Linked links :=
  linked_of_isDirty rfl h.roots h.known

theorem addRoot (h : project.Linked links) (hnext : ∀ q, next q ↔ links q ∨ q = path) :
    (project.addRoot path).Linked next := by
  refine linked_of_isDirty rfl (fun r hr => (hnext r).2 ?_) (fun q hq => contains_iff.2 ?_)
  · rcases hasRoot_addRoot.1 (hasRoot_iff.2 hr) with hr | hr
    · exact .inl (h.roots r (hasRoot_iff.1 hr))
    · exact .inr hr
  · rcases (hnext q).1 hq with hq | hq
    · exact (contains_iff.1 (h.known q hq)).imp_left fun hr => hasRoot_addRoot.2 (.inl hr)
    · exact .inl (hasRoot_addRoot.2 (.inr hq))

/-- A root that the last build has among its files stays linked. -/
theorem dropRoot (h : project.Linked links)
    (hkept : (project.removeRoot path).contains path = true) :
    (project.removeRoot path).Linked links := by
  refine linked_of_isDirty rfl (fun r hr => h.roots r ?_) (fun q hq => ?_)
  · exact hasRoot_iff.1 (hasRoot_removeRoot.1 (hasRoot_iff.2 hr)).1
  · by_cases hpath : q = path
    · rw [hpath]
      exact hkept
    · exact contains_iff.2 ((contains_iff.1 (h.known q hq)).imp_left fun hr =>
        hasRoot_removeRoot.2 ⟨hr, hpath⟩)

/-- A root is dropped together with its link. -/
theorem loseRoot (h : project.Linked links) (hnext : ∀ q, next q ↔ links q ∧ q ≠ path) :
    (project.removeRoot path).Linked next := by
  refine linked_of_isDirty rfl (fun r hr => (hnext r).2 ?_) (fun q hq => ?_)
  · obtain ⟨hr, hne⟩ := hasRoot_removeRoot.1 (hasRoot_iff.2 hr)
    exact ⟨h.roots r (hasRoot_iff.1 hr), hne⟩
  · obtain ⟨hq, hne⟩ := (hnext q).1 hq
    exact contains_iff.2 ((contains_iff.1 (h.known q hq)).imp_left fun hr =>
      hasRoot_removeRoot.2 ⟨hr, hne⟩)

end Linked

/-- After a rebuild the links are the files. -/
theorem Rebuilt.linked (h : Rebuilt project ctx rebuilt build)
    (hnext : ∀ q, next q ↔ q ∈ rebuilt.members) : rebuilt.Linked next := by
  obtain ⟨hnodup, hroots, hsyntactic⟩ := h.files_spec
  have hfiles : ∀ q, next q ↔ q ∈ build.files := by
    intro q
    rw [hnext, mem_members, contains_iff, h.derived]
    constructor
    · rintro (hr | ⟨files, hf, hq⟩)
      · exact hroots q (hasRoot_iff.1 hr)
      · cases hf
        exact hq
    · exact fun hq => .inr ⟨_, rfl, hq⟩
  exact ⟨fun r hr => (hfiles r).2 (hroots r hr), fun q hq => mem_members.1 ((hnext q).1 hq),
    fun _ => ⟨_, h.derived, h.isStale, hnodup, hroots, hfiles, hsyntactic⟩⟩

end Codebase.Project
