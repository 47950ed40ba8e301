import Codebase.Proofs.Host.Report
import Codebase.Proofs.Workspace.Spare
/-!
# A new file

A new file comes from the host, or from an editor that opens a path at which there is none.  In both
cases it can be the target of a reference that had another target before, or none.  An event that
brings one touches some projects, and those that it spares are left to show what they have shown.

* `sameAt_of_created` — where the new file is not a target, references keep their targets.
* `created_file_keeps_coherence` — when a project that is not touched shows what a build would come
  to after the host has reported a new file.
* `shadowing_file_breaks_coherence` — a new file can be preferred to the one that was found before.
* `openFile_thorough_iff` — when unresolved references stay unresolvable after an editor has opened
  a file.
* `opened_file_stays_unresolved` — the file of an editor can be what a reference was missing.
-/

namespace Codebase

/-- The file that a recorded reference names now. -/
def Unresolved.target? (ctx : Context) (reference : Unresolved) : Option Path :=
  ctx.resolver.resolve reference.kind reference.specifier reference.source

namespace Workspace

variable {host host' : Host} {w w' : Workspace} {id : ProjectId} {p : Project} {path q : Path}

instance (p : Project) (ctx : Context) : Decidable (p.Current ctx) :=
  inferInstanceAs (Decidable (_ ∧ _))

/-- Every project that is not dirty shows what a build would come to now. -/
def Coherent (host : Host) (w : Workspace) : Prop :=
  ∀ id p, w.project? id = some p → p.isDirty = false → p.Current (w.context host)

theorem coherent_iff : Coherent host w ↔
    ∀ p ∈ w.projectList, p.isDirty = false → p.Current (w.context host) := by
  simp only [mem_projectList, forall_exists_index]
  exact forall_comm

instance (host : Host) (w : Workspace) : Decidable (Coherent host w) :=
  decidable_of_iff _ coherent_iff.symm

/-- The project is live, is not dirty, and serves semantics. -/
structure Semantic (w : Workspace) (id : ProjectId) (p : Project) : Prop where
  live : w.project? id = some p
  clean : p.isDirty = false
  full : p.capability = .fullSemantic

/-! ## A file is created -/

/-- What a build of the project starts from is the same in both contexts, and so is what it reads
when a file at `path` is new. -/
structure Steady (c d : Context) (path : Path) (p : Project) : Prop where
  seeds : Build.seeds c p.roots.toList p.options = Build.seeds d p.roots.toList p.options
  packages : ∀ q : Path, q.fileName = Resolver.packageFile → c.read q = d.read q
  unread : path ∈ p.files?.getD [] → c.documents.contains path = true

/-- A reference in one of the files that the project shows names `path`. -/
def RefersTo (ctx : Context) (p : Project) (path : Path) : Prop :=
  ∃ f ∈ p.files?.getD [], Build.LeadsTo ctx f path

/-- A build starts from the same seeds in both contexts, and the files that the project shows read
the same, with the same targets. -/
structure Unmoved (c d : Context) (p : Project) : Prop where
  seeds : Build.seeds c p.roots.toList p.options = Build.seeds d p.roots.toList p.options
  files : ∀ f ∈ p.files?.getD [], Build.SameAt c d f

instance (c d : Context) (p : Project) : Decidable (Unmoved c d p) :=
  decidable_of_iff (_ ∧ _) ⟨fun h => ⟨h.1, h.2⟩, fun h => ⟨h.seeds, h.files⟩⟩

theorem Unmoved.current (h : Unmoved (w.context host) (w'.context host') p)
    (hsettings : w'.settings = w.settings) (hfull : p.capability = .fullSemantic)
    (hcurrent : p.Current (w.context host)) : p.Current (w'.context host') := by
  obtain ⟨hfiles, hunresolved⟩ := hcurrent
  have hsameFiles := h.files
  rw [hfull] at hfiles hunresolved
  rw [hfiles, Option.getD_some] at hsameFiles
  obtain ⟨hsame, hsame'⟩ := Build.closure_local (c := w.context host) (d := w'.context host')
    hsettings.symm h.seeds hsameFiles
  unfold Project.Current
  simp only [hfull]
  exact ⟨hfiles.trans (congrArg some hsame.symm), hunresolved.trans hsame'.symm⟩

/-- A project that serves syntax only shows its roots, which are the same as before. -/
theorem coherent_iff_of_spares (hspares : Spares w w') (hcoherent : Coherent host w) :
    Coherent host' w' ↔ ∀ id p, Semantic w' id p → p.Current (w'.context host') := by
  refine ⟨fun h id p hp => h id p hp.live hp.clean, fun h id p hp hclean => ?_⟩
  cases hcapability : p.capability with
  | syntacticOnly =>
    have hcurrent := hcoherent id p (hspares.dulls id p hp hclean) hclean
    exact hcurrent.of_syntacticOnly hcapability _
  | fullSemantic => exact h id p ⟨hp, hclean, hcapability⟩

/-- A path that is tracked neither before nor after reads as the host has it. -/
theorem read_eq_of_untracked (hread : host'.read q = host.read q)
    (hq : q ∉ w.documents.paths ++ w'.documents.paths) :
    (w.context host).read q = (w'.context host').read q := by
  rw [List.mem_append, not_or] at hq
  have hbefore : w.documents.get? q = none := Table.get?_eq_none_iff.2 hq.1
  have hafter : w'.documents.get? q = none := Table.get?_eq_none_iff.2 hq.2
  exact (read_congr (Documents.text?_congr (hafter.trans hbefore.symm)) hread).symm

section Created

variable (hspares : Spares w w') (hevent : FileEvent.Describes ⟨path, .created⟩ host host')

include hspares hevent

/-- No other file is new. -/
theorem hasFile_of_created (hfile : (w'.context host').hasFile q = true) (hq : q ≠ path) :
    (w.context host).hasFile q = true := by
  rcases Bool.or_eq_true_iff.1 hfile with hdocument | hstored
  · exact Bool.or_eq_true_iff.2 (.inl (hspares.contains hdocument))
  · exact Bool.or_eq_true_iff.2 (.inr ((hevent.hasFile q hq).symm.trans hstored))

variable {files : List Path} (hp : w'.project? id = some p) (hclean : p.isDirty = false)
  (hfiles : p.derived = some files)

include hp hclean hfiles

/-- The files of a project that is spared are still there. -/
theorem hasFile_of_spared (hq : q ∈ files) (hfile : (w.context host).hasFile q = true) :
    (w'.context host').hasFile q = true := by
  rcases Bool.or_eq_true_iff.1 hfile with hdocument | hstored
  · refine Bool.or_eq_true_iff.2 (.inl ?_)
    exact (Documents.contains_congr (hspares.kept id p files hp hclean hfiles q hq)).trans hdocument
  · refine Bool.or_eq_true_iff.2 (.inr ((hevent.hasFile q ?_).trans hstored))
    rintro rfl
    exact hevent.existed.1 hstored rfl

/-- The files of a project that is spared read as before, unless one of them is the new file. -/
theorem read_of_spared (hq : q ∈ files) (hold : q = path → w.documents.contains path = true) :
    (w.context host).read q = (w'.context host').read q := by
  have htext : w'.documents.text? q = w.documents.text? q :=
    Documents.text?_congr (hspares.kept id p files hp hclean hfiles q hq)
  by_cases hpath : q = path
  · obtain ⟨document, hdocument⟩ := Table.contains_eq_true.1 (hold hpath)
    have hsome : w.documents.text? path = some document.content :=
      Option.map_eq_some_iff.2 ⟨document, hdocument, rfl⟩
    subst hpath
    exact (Context.read_of_text? hsome).trans (Context.read_of_text? (htext.trans hsome)).symm
  · exact (read_congr htext (hevent.read q hpath)).symm

/-- References in the files of a project that is spared keep their targets, unless the new file is a
target. -/
theorem sameAt_of_created (hunbounded : w.settings.resolution.maxDepth = none)
    (hfull : p.capability = .fullSemantic) (hcurrent : p.Current (w.context host))
    (hsteady : Steady (w.context host) (w'.context host') path p)
    (hmissed : w.documents.contains path = true ∨ ¬ RefersTo (w'.context host') p path)
    (hq : q ∈ files) : Build.SameAt (w.context host) (w'.context host') q := by
  have hshown : p.files? = some files := (Project.files?_of_clean hclean).trans hfiles
  obtain ⟨hbuilt, -⟩ := hcurrent
  rw [hfull, hshown, Option.some.injEq] at hbuilt
  have hunread := hsteady.unread
  unfold RefersTo at hmissed
  rw [hshown, Option.getD_some] at hunread hmissed
  refine Build.sameAt_of_targets hspares.settings.symm hsteady.packages
    (read_of_spared hspares hevent hp hclean hfiles hq fun hpath => hunread (hpath ▸ hq))
    (fun t ht => ?_) fun t ht => ?_
  · have htarget : t ∈ files := by
      rw [hbuilt] at hq ⊢
      exact Build.closure_closed _ _ hunbounded q hq t ht
    obtain ⟨r, -, hr⟩ := ht
    exact hasFile_of_spared hspares hevent hp hclean hfiles htarget
      (Resolver.hasFile_of_resolve hr)
  · by_cases hpath : t = path
    · rcases hmissed with hold | hnot
      · rw [hpath]
        exact Bool.or_eq_true_iff.2 (.inl hold)
      · exact absurd ⟨q, hq, hpath ▸ ht⟩ hnot
    · obtain ⟨r, -, hr⟩ := ht
      exact hasFile_of_created hspares hevent (Resolver.hasFile_of_resolve hr) hpath

/-- A project that is spared is current exactly if the new file is not a target. -/
theorem current_iff_of_created (hunbounded : w.settings.resolution.maxDepth = none)
    (hfull : p.capability = .fullSemantic) (hcurrent : p.Current (w.context host))
    (hsteady : Steady (w.context host) (w'.context host') path p) :
    p.Current (w'.context host') ↔
      w.documents.contains path = true ∨ ¬ RefersTo (w'.context host') p path := by
  have hshown : p.files? = some files := (Project.files?_of_clean hclean).trans hfiles
  constructor
  · rintro ⟨hnow, -⟩
    refine or_iff_not_imp_right.2 fun hrefers => hsteady.unread ?_
    obtain ⟨f, hf, hleads⟩ := not_not.1 hrefers
    rw [hfull] at hnow
    rw [hnow, Option.getD_some] at hf ⊢
    have hunbounded' : (w'.context host').settings.resolution.maxDepth = none := by
      rw [show (w'.context host').settings = w.settings from hspares.settings]
      exact hunbounded
    exact Build.closure_closed _ _ hunbounded' f hf path hleads
  · intro hmissed
    refine Unmoved.current ⟨hsteady.seeds, fun f hf => ?_⟩ hspares.settings hfull hcurrent
    rw [hshown, Option.getD_some] at hf
    exact sameAt_of_created hspares hevent hp hclean hfiles hunbounded hfull hcurrent hsteady
      hmissed hf

end Created

/-- Two scripts of which the first imports the second, which has a declaration file only. -/
def declaring : Memory :=
  (Memory.empty.addFile ((Path.mk .slash []).join "a.ts") "import './b'").addFile
    ((Path.mk .slash []).join "b.d.ts") ""

/-- The first one is opened, and its project is built. -/
def building : List (Host × Action) :=
  [(declaring.host, .openFile ((Path.mk .slash []).join "a.ts") "import './b'"),
    (declaring.host, .refresh ⟨1⟩)]

theorem coherent_building : Coherent declaring.host (run .default building) := by decide +kernel

theorem declaring_describes (hnew : declaring.hasFile path = false) :
    FileEvent.Describes ⟨path, .created⟩ declaring.host (declaring.addFile path "").host := by
  have hdescribes := Memory.addFile_describes declaring path ""
  rwa [hnew] at hdescribes

/-- **A new file is noticed where something was unresolved.**  When the host has created a file and
that has been processed in a coherent state, the projects with semantics that are not dirty were
there before as they are, with nothing unresolved.  The state is coherent again if they are unmoved.
When the depth is not bounded and they are steady, it is so exactly if the new path was tracked
before or no reference in one of their files names it. -/
theorem created_file_keeps_coherence (settings : Settings) (steps : List (Host × Action))
    (host host' : Host) (path : Path)
    (hnamed : Manifest.isNamed settings.manifestFileNames path = false)
    (hevent : FileEvent.Describes ⟨path, .created⟩ host host')
    (hcoherent : Coherent host (run settings steps)) :
    let w := run settings steps
    let w' := w.act host' (.notice ⟨path, .created⟩)
    let c := w.context host
    let d := w'.context host'
    (∀ id p, Semantic w' id p → w.project? id = some p ∧ p.unresolved = []) ∧
    ((∀ id p, Semantic w' id p → Unmoved c d p) → Coherent host' w') ∧
    (settings.resolution.maxDepth = none → (∀ id p, Semantic w' id p → Steady c d path p) →
      (Coherent host' w' ↔ w.documents.contains path = true ∨
        ∀ id p, Semantic w' id p → ¬ RefersTo d p path)) := by
  intro w w' c d
  have hsettings : w.settings = settings := run_settings settings steps
  have hcreated : w' = w.fileCreated path := by
    show (w.noticeFile host' ⟨path, .created⟩).2 = _
    unfold noticeFile
    rw [hsettings, if_neg (Bool.eq_false_iff.1 hnamed)]
  have hconsistent : Consistent w := run_consistent settings steps
  have hspares : Spares w w' := hcreated ▸ fileCreated_spares hconsistent path
  have hcurrent : ∀ id p, w'.project? id = some p → p.isDirty = false → p.Current c :=
    fun id p hp hclean => hcoherent id p (hspares.dulls id p hp hclean) hclean
  have hcoherent_iff : Coherent host' w' ↔ ∀ id p, Semantic w' id p → p.Current d :=
    coherent_iff_of_spares hspares hcoherent
  refine ⟨fun id p hp => ⟨hspares.dulls id p hp.live hp.clean, ?_⟩, fun hunmoved => ?_,
    fun hunbounded hsteady => ?_⟩
  · have hhopes := hopes_of_fileCreated hconsistent (hcreated ▸ hp.live) hp.clean
    unfold hopes at hhopes
    rw [hp.full] at hhopes
    simpa [Capability.isSemantic] using hhopes
  · exact hcoherent_iff.2 fun id p hp =>
      (hunmoved id p hp).current hspares.settings hp.full (hcurrent id p hp.live hp.clean)
  · have hproject : ∀ id p, Semantic w' id p →
        (p.Current d ↔ w.documents.contains path = true ∨ ¬ RefersTo d p path) := by
      intro id p hp
      obtain ⟨files, hsettled⟩ := (hspares.consistent.linked id p hp.live).settled hp.clean
      exact current_iff_of_created hspares hevent hp.live hp.clean hsettled.derived
        ((congrArg (·.resolution.maxDepth) hsettings).trans hunbounded) hp.full
        (hcurrent id p hp.live hp.clean) (hsteady id p hp)
    rw [hcoherent_iff]
    refine ⟨fun h => or_iff_not_imp_left.2 fun hnew id p hp => ?_, fun h id p hp => ?_⟩
    · exact ((hproject id p hp).1 (h id p hp)).resolve_left hnew
    · exact (hproject id p hp).2 (h.imp_right fun hnot => hnot id p hp)

/-- A file that no reference names is created, and the state stays coherent. -/
theorem created_file_keeps_coherence_unnamed :
    let path := (Path.mk .slash []).join "c.ts"
    let host' := (declaring.addFile path "").host
    let w := run .default building
    let w' := w.act host' (.notice ⟨path, .created⟩)
    let c := w.context declaring.host
    let d := w'.context host'
    Manifest.isNamed Settings.default.manifestFileNames path = false ∧
      FileEvent.Describes ⟨path, .created⟩ declaring.host host' ∧ Coherent declaring.host w ∧
      (∃ id p, Semantic w' id p) ∧
      (∀ id p, Semantic w' id p → Unmoved c d p ∧ Steady c d path p ∧ ¬ RefersTo d p path) ∧
      Coherent host' w' := by
  intro path host' w w' c d
  have hnamed : Manifest.isNamed Settings.default.manifestFileNames path = false := by
    decide +kernel
  have hevent : FileEvent.Describes ⟨path, .created⟩ declaring.host host' :=
    declaring_describes (by decide +kernel)
  have hstate : (∀ p ∈ w'.projectList, Unmoved c d p ∧ path ∉ p.files?.getD []) ∧
      (∀ q ∈ w.documents.paths ++ w'.documents.paths, q.fileName ≠ Resolver.packageFile) ∧
      w.documents.contains path ≠ true ∧
      ∃ p ∈ w'.project? ⟨1⟩, p.isDirty = false ∧ p.capability = .fullSemantic := by
    decide +kernel
  obtain ⟨hlisted, hdocuments, huntracked, p, hp, hclean, hfull⟩ := hstate
  have hpackages : ∀ q : Path, q.fileName = Resolver.packageFile → c.read q = d.read q := by
    intro q hq
    refine read_eq_of_untracked (hevent.read q ?_) fun hmem => hdocuments q hmem hq
    rintro rfl
    exact absurd hq (by decide +kernel)
  obtain ⟨-, hkept, hiff⟩ := created_file_keeps_coherence .default building declaring.host host'
    path hnamed hevent coherent_building
  have hunmoved : ∀ id p, Semantic w' id p → Unmoved c d p :=
    fun id p hp => (hlisted p (mem_projectList.2 ⟨id, hp.live⟩)).1
  have hsteady : ∀ id p, Semantic w' id p → Steady c d path p := fun id p hp =>
    ⟨(hunmoved id p hp).seeds, hpackages,
      fun hmem => absurd hmem (hlisted p (mem_projectList.2 ⟨id, hp.live⟩)).2⟩
  have hmissed := ((hiff rfl hsteady).1 (hkept hunmoved)).resolve_left huntracked
  exact ⟨hnamed, hevent, coherent_building, ⟨⟨1⟩, p, hp, hclean, hfull⟩,
    fun id p hp => ⟨hunmoved id p hp, hsteady id p hp, hmissed id p hp⟩, hkept hunmoved⟩

/-- **A new file can be preferred to the one that a reference had as its target.**  The project that
shows the declaration file has nothing unresolved, so it is not touched when the script appears. -/
theorem shadowing_file_breaks_coherence :
    let path := (Path.mk .slash []).join "b.ts"
    let host' := (declaring.addFile path "").host
    let w := run .default building
    Manifest.isNamed Settings.default.manifestFileNames path = false ∧
      FileEvent.Describes ⟨path, .created⟩ declaring.host host' ∧ Coherent declaring.host w ∧
      ¬ Coherent host' (w.act host' (.notice ⟨path, .created⟩)) := by
  intro path host' w
  exact ⟨by decide +kernel, declaring_describes (by decide +kernel), coherent_building,
    by decide +kernel⟩

/-! ## An editor opens a file -/

/-- What a project with semantics could not resolve when it was built cannot be resolved now, unless
the project is dirty. -/
def Thorough (host : Host) (w : Workspace) : Prop :=
  ∀ id p, Semantic w id p → ∀ u ∈ p.unresolved, u.target? (w.context host) = none

theorem thorough_iff : Thorough host w ↔
    ∀ p ∈ w.projectList, p.isDirty = false → p.capability = .fullSemantic →
      ∀ u ∈ p.unresolved, u.target? (w.context host) = none := by
  constructor
  · intro h p hp hclean hfull
    obtain ⟨id, hlive⟩ := mem_projectList.1 hp
    exact h id p ⟨hlive, hclean, hfull⟩
  · exact fun h id p hp => h p (mem_projectList.2 ⟨id, hp.live⟩) hp.clean hp.full

instance (host : Host) (w : Workspace) : Decidable (Thorough host w) :=
  decidable_of_iff _ thorough_iff.symm

/-- Where at most one file is new, a reference that could not be resolved names that file or still
none. -/
theorem target?_of_unresolved {c d : Context} {u : Unresolved}
    (hextensions : c.resolver.extensions = d.resolver.extensions)
    (hpackages : ∀ q : Path, q.fileName = Resolver.packageFile → c.read q = d.read q)
    (hnew : ∀ t, d.hasFile t = true → t ≠ path → c.hasFile t = true)
    (hunresolved : u.target? c = none) :
    u.target? d = none ∨ u.target? d = some path ∧ c.hasFile path = false := by
  rcases Resolver.resolve_concur (r := c.resolver) (s := d.resolver) hextensions hpackages
    u.kind u.specifier u.source with hsame | ⟨t, ht, -⟩ | ⟨t, ht, hmissing⟩
  · exact .inl (hsame.symm.trans hunresolved)
  · cases hunresolved.symm.trans ht
  · have hpath : t = path := by
      by_contra hother
      have hfile := hnew t (Resolver.hasFile_of_resolve ht) hother
      rw [show c.hasFile t = false from hmissing] at hfile
      cases hfile
    exact .inr ⟨hpath ▸ ht, hpath ▸ hmissing⟩

/-- A script that imports one that does not exist. -/
def wanting : Memory :=
  Memory.empty.addFile ((Path.mk .slash []).join "a.ts") "import './b'"

/-- It is opened, and its project is built. -/
def looking : List (Host × Action) :=
  [(wanting.host, .openFile ((Path.mk .slash []).join "a.ts") "import './b'"),
    (wanting.host, .refresh ⟨1⟩)]

theorem thorough_looking : Thorough wanting.host (run .default looking) := by decide +kernel

/-- **Opening a file is noticed by its own projects.**  In a state in which unresolved references
cannot be resolved, an editor opens a file.  The projects that are not dirty then were there before
as they are, and none of them is the project of the file.  If package files read as before, the
unresolved references still cannot be resolved exactly if there was a file at the path, or none of
them names it. -/
theorem openFile_thorough_iff (settings : Settings) (steps : List (Host × Action)) (host : Host)
    (path : Path) (content : String) (id : ProjectId) (w' : Workspace)
    (hthorough : Thorough host (run settings steps))
    (hopen : (run settings steps).openFile host path content = (.ok id, w')) :
    let w := run settings steps
    let c := w.context host
    let d := w'.context host
    (∀ x p, w'.project? x = some p → p.isDirty = false → x ≠ id ∧ w.project? x = some p) ∧
    ((∀ q : Path, q.fileName = Resolver.packageFile → c.read q = d.read q) →
      (Thorough host w' ↔ c.hasFile path = true ∨
        ∀ x p, Semantic w' x p → ∀ u ∈ p.unresolved, u.target? d ≠ some path)) := by
  intro w c d
  obtain ⟨opened, documents, hopened, hspares, hdirty⟩ :=
    openFile_spares (run_consistent settings steps) hopen
  have hold : ∀ x p, w'.project? x = some p → p.isDirty = false → w.project? x = some p :=
    hspares.dulls
  have hnew : ∀ t, d.hasFile t = true → t ≠ path → c.hasFile t = true := by
    intro t hfile ht
    rcases Bool.or_eq_true_iff.1 hfile with hdocument | hstored
    · have hcontains := hspares.contains hdocument
      exact Bool.or_eq_true_iff.2 (.inl
        ((Documents.contains_congr ((Documents.of_open hopened).1 t ht)).symm.trans hcontains))
    · exact Bool.or_eq_true_iff.2 (.inr hstored)
  refine ⟨fun x p hp hclean => ⟨?_, hold x p hp hclean⟩,
    fun hpackages => ⟨fun h => ?_, fun h => ?_⟩⟩
  · rintro rfl
    rw [hdirty p hp] at hclean
    cases hclean
  · exact .inr fun x p hp u hu htarget => nomatch (h x p hp u hu).symm.trans htarget
  · intro x p hp u hu
    have hextensions : c.resolver.extensions = d.resolver.extensions :=
      (congrArg (·.resolution.extensions) hspares.settings).symm
    have hunresolved : u.target? c = none :=
      hthorough x p ⟨hold x p hp.live hp.clean, hp.clean, hp.full⟩ u hu
    rcases target?_of_unresolved hextensions hpackages hnew hunresolved with
      hnone | ⟨htarget, hmissing⟩
    · exact hnone
    · rcases h with hfile | hothers
      · rw [hmissing] at hfile
        cases hfile
      · exact absurd htarget (hothers x p hp u hu)

/-- Another file is opened, and the import still cannot be resolved. -/
theorem openFile_thorough_iff_elsewhere :
    let path := (Path.mk .slash []).join "c.ts"
    let w := run .default looking
    let w' := (w.openFile wanting.host path "").2
    let c := w.context wanting.host
    let d := w'.context wanting.host
    Thorough wanting.host w ∧ w.openFile wanting.host path "" = (.ok ⟨2⟩, w') ∧
      (∀ q : Path, q.fileName = Resolver.packageFile → c.read q = d.read q) ∧
      (∃ x p, Semantic w' x p ∧ p.unresolved ≠ []) ∧ Thorough wanting.host w' := by
  intro path w w' c d
  have hstate : (w.openFile wanting.host path "").1 = .ok ⟨2⟩ ∧
      (∀ q ∈ w.documents.paths ++ w'.documents.paths, q.fileName ≠ Resolver.packageFile) ∧
      (∀ p ∈ w'.projectList, ∀ u ∈ p.unresolved, u.target? d ≠ some path) ∧
      ∃ p ∈ w'.project? ⟨1⟩,
        p.isDirty = false ∧ p.capability = .fullSemantic ∧ p.unresolved ≠ [] := by
    decide +kernel
  obtain ⟨hanswer, hdocuments, hlisted, p, hp, hclean, hfull, hwanting⟩ := hstate
  have hopen : w.openFile wanting.host path "" = (.ok ⟨2⟩, w') := Prod.ext hanswer rfl
  have hpackages : ∀ q : Path, q.fileName = Resolver.packageFile → c.read q = d.read q :=
    fun q hq => read_eq_of_untracked rfl fun hmem => hdocuments q hmem hq
  obtain ⟨-, hiff⟩ := openFile_thorough_iff .default looking wanting.host path "" ⟨2⟩ w'
    thorough_looking hopen
  refine ⟨thorough_looking, hopen, hpackages, ⟨⟨1⟩, p, ⟨hp, hclean, hfull⟩, hwanting⟩, ?_⟩
  exact (hiff hpackages).2
    (.inr fun x p hp => hlisted p (mem_projectList.2 ⟨x, hp.live⟩))

/-- **An editor can bring the file that a reference was missing.**  The project with the import does
not own the new file, so it is not touched when that one is opened. -/
theorem opened_file_stays_unresolved :
    let path := (Path.mk .slash []).join "b.ts"
    let w := run .default looking
    let w' := (w.openFile wanting.host path "").2
    Thorough wanting.host w ∧ w.openFile wanting.host path "" = (.ok ⟨2⟩, w') ∧
      ¬ Thorough wanting.host w' ∧
      ∃ p ∈ w'.project? ⟨1⟩, p.isDirty = false ∧ p.capability = .fullSemantic ∧
        ∃ u ∈ p.unresolved, u.target? (w'.context wanting.host) = some path := by
  intro path w w'
  have hstate : (w.openFile wanting.host path "").1 = .ok ⟨2⟩ ∧ ¬ Thorough wanting.host w' ∧
      ∃ p ∈ w'.project? ⟨1⟩, p.isDirty = false ∧ p.capability = .fullSemantic ∧
        ∃ u ∈ p.unresolved, u.target? (w'.context wanting.host) = some path := by
    decide +kernel
  obtain ⟨hanswer, hunthorough, hproject⟩ := hstate
  exact ⟨thorough_looking, Prod.ext hanswer rfl, hunthorough, hproject⟩

end Workspace

end Codebase
