import Codebase.Proofs.Manifest.Enumeration
import Codebase.Proofs.Workspace.Encroachment
import Codebase.Proofs.Workspace.Inborn
import Codebase.Proofs.Workspace.Mandate
/-!
# What a created file is added to

The report that a file was created adds it to every project whose manifest covers it, and nothing is
walked for that.  A walk from the manifest would come to the file as well, unless a project of its
own lies on the way, of which coverage knows nothing.

* `hasRoot_fileCreated` — who has a root after the report.
* `mem_named_addFile_iff` — what a manifest names when the host has one more file.
* `Project.inborn_sourced` — every manifest of a project was read from a text.
* `created_file_is_enumerated_iff` — when the roots of a project that were what its manifest names
  are that again.
-/

namespace Codebase

/-! ## What a manifest names on a host with one more file -/

namespace Manifest

variable {manifest : Manifest} {memory : Memory} {names : List String} {settings : Settings}
  {path q : Path} {text : String}

theorem Reaches.of_addFile (h : manifest.Reaches (memory.addFile path text) names q) :
    manifest.Reaches memory names q :=
  fun parent hparent directory hunder habove hne hnested =>
    h parent hparent directory hunder habove hne hnested.addFile

theorem reaches_addFile_iff (hplain : ∀ name ∈ names, Segment.Plain name)
    (hordinary : isNamed names path = false) :
    manifest.Reaches (memory.addFile path text) names q ↔ manifest.Reaches memory names q := by
  unfold Reaches
  simp only [Memory.hasAnyOf_addFile_iff hplain (of_decide_eq_false hordinary)]

/-- **What a manifest names when the host has one more file.**  Only what it named before and the
new file come into question, and of these it names what no project of its own keeps from it. -/
theorem mem_named_addFile_iff (h : (memory.addFile path text).Tidy)
    (hexcluded : ∃ globs, Globs.ofList globs = .ok manifest.excluded) :
    q ∈ manifest.named (memory.addFile path text).host settings ↔
      (q ∈ manifest.named memory.host settings ∨
        q = path ∧ manifest.covers path settings.resolution.extensions = true) ∧
      (q ∈ manifest.files ∨
        manifest.Reaches (memory.addFile path text) settings.manifestFileNames q) := by
  unfold named
  rw [mem_roots_iff h hexcluded, mem_roots_iff h.of_addFile hexcluded, Memory.hasFile_addFile]
  constructor
  · rintro ⟨rfl | hfile, hcovers, hclear⟩
    · exact ⟨.inr ⟨rfl, hcovers⟩, hclear⟩
    · exact ⟨.inl ⟨hfile, hcovers, hclear.imp_right Reaches.of_addFile⟩, hclear⟩
  · rintro ⟨⟨hfile, hcovers, -⟩ | ⟨rfl, hcovers⟩, hclear⟩
    · exact ⟨.inr hfile, hcovers, hclear⟩
    · exact ⟨.inl rfl, hcovers, hclear⟩

end Manifest

/-! ## Manifests that were read -/

namespace Project

variable {project : Project}

/-- The manifest of the project, if one is loaded, was read from a text. -/
def Sourced (project : Project) : Prop :=
  ∀ manifest, project.manifest? = some manifest →
    ∃ path text, Manifest.parse path text = .ok manifest

theorem Sourced.of_unloaded (hnone : project.manifest? = none) : project.Sourced := by
  intro manifest hmanifest
  rw [hnone] at hmanifest
  cases hmanifest

theorem Sourced.reread (h : project.Sourced) (ctx : Context) : (project.reread ctx).Sourced := by
  unfold Project.reread
  simp only
  split
  · split
    · rename_i hfound
      split
      · intro manifest hmanifest
        cases hmanifest
        exact Manifest.exists_parse_of_found hfound
      · exact .of_unloaded rfl
    · exact .of_unloaded rfl
    · exact .of_unloaded rfl
  · exact h

/-- **Every manifest of a project was read from a text.** -/
theorem inborn_sourced (settings : Settings) : Inborn settings Sourced where
  inferred _ := .of_unloaded rfl
  auxiliary _ _ := .of_unloaded rfl
  configured _ _ _ _ hfound := by
    intro manifest hmanifest
    cases hmanifest
    exact Manifest.exists_parse_of_found hfound
  unloadable _ _ _ _ _ _ := .of_unloaded rfl
  touch _ h := h
  outdate _ h := h
  addRoot _ _ h := h
  removeRoot _ _ h := h
  refresh? {project ctx _ _} _ hbuilt h := by
    obtain ⟨-, -, rfl⟩ := eq_of_refresh? hbuilt
    unfold prepared
    split
    · exact h.reread ctx
    · exact h

end Project

namespace Workspace

variable {w : Workspace} {id x : ProjectId} {path q : Path} {ids : List ProjectId}

/-! ## One project after the other -/

/-- The first of these projects that has the open root. -/
def claimant? (w : Workspace) (ids : List ProjectId) (q : Path) : Option ProjectId :=
  if w.documents.isOpen q = true then ids.find? (w.hasRoot q) else none

/-- A closed path becomes a root of a project, which takes over its open roots. -/
theorem hasRoot_claim (h : Consistent w) (hclosed : w.documents.isOpen path = false)
    (hlive : (w.project? id).isSome = true) :
    ((w.addRoot id path).takeOverOpenRoots id).hasRoot q x = true ↔
      (w.hasRoot q x = true ∨ q = path ∧ x = id) ∧
        (w.documents.isOpen q = true → w.hasRoot q id = true → x = id) := by
  have hmoves : Moves Memory.empty.host w (w.addRoot id path) := (Move.addRoot w id path).moves
  have hadded := hmoves.consistent h
  have hopen : (w.addRoot id path).documents.isOpen q = w.documents.isOpen q := by
    unfold Workspace.addRoot
    split <;> rfl
  have hroots : ∀ y, (w.addRoot id path).hasRoot q y = true ↔
      w.hasRoot q y = true ∨ q = path ∧ y = id := by
    intro y
    rw [hasRoot_eq_isSome, hasRoot_eq_isSome, rootKind_addRoot]
    by_cases hnew : y = id ∧ q = path
    · rw [if_pos hnew, Option.isSome_map, hlive]
      exact iff_of_true rfl (.inr hnew.symm)
    · rw [if_neg hnew, or_iff_left fun h => hnew h.symm]
  rw [hasRoot_eq_isSome, rootKind_takeOverOpenRoots hadded, hopen, ← hasRoot_eq_isSome]
  by_cases hx : x = id
  · rw [if_neg fun h => h.2.2 hx, ← hasRoot_eq_isSome, hroots]
    exact (and_iff_left fun _ _ => hx).symm
  · split
    · rename_i htaken
      have hself : w.hasRoot q id = true := by
        refine ((hroots id).1 htaken.2.1).resolve_right fun hsame => ?_
        rw [hsame.1, hclosed] at htaken
        cases htaken.1
      exact iff_of_false Bool.false_ne_true fun h => hx (h.2 htaken.1 hself)
    · rename_i hkept
      rw [← hasRoot_eq_isSome, hroots]
      refine (and_iff_left fun hq hself => ?_).symm
      exact absurd ⟨hq, (hroots id).2 (.inl hself), hx⟩ hkept

/-- **A closed path becomes a root of project after project.**  An open root that one of them has
goes to the first of these. -/
theorem hasRoot_foldl_claim (h : Consistent w) (hclosed : w.documents.isOpen path = false)
    (ids : List ProjectId)
    (hids : ∀ id ∈ ids, ∃ manifestPath, w.charter? id = some (.configured manifestPath)) :
    (ids.foldl (fun w id => (w.addRoot id path).takeOverOpenRoots id) w).hasRoot q x = true ↔
      (w.hasRoot q x = true ∨ q = path ∧ x ∈ ids) ∧
        ∀ first, w.claimant? ids q = some first → x = first := by
  induction ids generalizing w with
  | nil =>
    unfold claimant?
    simp
  | cons id rest ih =>
    rw [List.forall_mem_cons] at hids
    obtain ⟨⟨manifestPath, hcharter⟩, hrest⟩ := hids
    obtain ⟨p, hp, -⟩ := charter?_eq_some.1 hcharter
    have hchain : Transactions Memory.empty.host (.notice ⟨path, .created⟩) (w, still)
        ((w.addRoot id path).takeOverOpenRoots id, still) :=
      foldl_claim_transactions h path [id] fun other hother =>
        ⟨manifestPath, List.mem_singleton.1 hother ▸ hcharter⟩
    have hstep : ∀ y, ((w.addRoot id path).takeOverOpenRoots id).hasRoot q y = true ↔
        (w.hasRoot q y = true ∨ q = path ∧ y = id) ∧
          (w.documents.isOpen q = true → w.hasRoot q id = true → y = id) :=
      fun y => hasRoot_claim h hclosed (by rw [hp]; rfl)
    have hlater := ih (hchain.consistent h) ((isOpen_claim w id path path).trans hclosed)
      fun other hother => (hrest other hother).imp fun _ hother => hchain.configured h hother nofun
    rw [List.foldl_cons, hlater, hstep]
    unfold claimant?
    rw [isOpen_claim, List.find?_cons]
    cases hq : w.documents.isOpen q with
    | false =>
      simp [or_assoc, List.mem_cons, and_or_left]
    | true =>
      have hother : q ≠ path := by
        rintro rfl
        rw [hclosed] at hq
        cases hq
      cases hself : w.hasRoot q id with
      | true =>
        -- nobody else has the root any more
        have hnext : ∀ first, rest.find? (((w.addRoot id path).takeOverOpenRoots id).hasRoot q) =
            some first → first = id :=
          fun first hfirst => ((hstep first).1 (List.find?_some hfirst)).2 hq hself
        simp only [hother, false_and, or_false, if_true, forall_const, Option.some.injEq,
          forall_eq']
        exact and_iff_left_of_imp fun hx first hfirst => hx.2.trans (hnext first hfirst).symm
      | false =>
        have hsame : ((w.addRoot id path).takeOverOpenRoots id).hasRoot q = w.hasRoot q := by
          funext y
          rw [Bool.eq_iff_iff, hstep]
          simp [hother, hself]
        simp [hother, hsame]

/-! ## The report -/

/-- A live project whose manifest claims the path. -/
def Claimant (w : Workspace) (path : Path) (id : ProjectId) : Prop :=
  ∃ p, w.project? id = some p ∧ w.claims path p = true

/-- The oldest of those whose manifests claim `path` and that have the root `q`. -/
structure FirstClaimant (w : Workspace) (path q : Path) (id : ProjectId) : Prop where
  claims : w.Claimant path id
  root : w.hasRoot q id = true
  oldest : ∀ other, w.Claimant path other → w.hasRoot q other = true → id.number ≤ other.number

/-- The open root `q` of the project goes to another one when `path` is created. -/
def Yields (w : Workspace) (path q : Path) (id : ProjectId) : Prop :=
  w.documents.isOpen q = true ∧ ∃ first, w.FirstClaimant path q first ∧ first ≠ id

/-- Nobody takes a root that nobody else has. -/
theorem not_yields_of_alone (halone : ∀ other, w.hasRoot q other = true → other = id) :
    ¬ w.Yields path q id := by
  rintro ⟨-, first, hfirst, hother⟩
  exact hother (halone first hfirst.root)

/-- **Who has a root after the report of a new file.**  The file becomes a root of the projects
whose manifests claim it; no root goes except an open one that another of these projects has. -/
theorem hasRoot_fileCreated (h : Consistent w) (hordered : Ordered w)
    (hclosed : w.documents.isOpen path = false) :
    (w.fileCreated path).hasRoot q x = true ↔
      (w.hasRoot q x = true ∨ q = path ∧ w.Claimant path x) ∧ ¬ w.Yields path q x := by
  obtain ⟨touched, htouched⟩ : ∃ touched, ((w.projectList.filter hopes).map Project.id).foldl
      (fun w id => w.modifyProject id Project.touch) w = touched := ⟨_, rfl⟩
  have hmoves : Moves Memory.empty.host w touched :=
    htouched ▸ Moves.foldl (fun w id => (Move.touch w id).moves) _ w
  have hconsistent := hmoves.consistent h
  have hroots : ∀ y, touched.hasRoot q y = w.hasRoot q y := by
    intro y
    rw [← htouched, hasRoot_eq_isSome, hasRoot_eq_isSome, rootKind_foldl_touch]
  obtain ⟨ids, hids⟩ : ∃ ids, (touched.projectList.filter (touched.claims path)).map Project.id =
      ids := ⟨_, rfl⟩
  have hclaimants : ∀ y, y ∈ ids ↔ w.Claimant path y := fun y => hids ▸ mem_claimed_iff h htouched
  have hrising : ids.Pairwise fun a b => a.number < b.number := by
    rw [← hids, List.pairwise_map]
    exact ((hmoves.ordered h hordered).pairwise hconsistent).filter _
  have hfirst : ∀ first, touched.claimant? ids q = some first ↔
      w.documents.isOpen q = true ∧ w.FirstClaimant path q first := by
    intro first
    unfold claimant?
    rw [hmoves.isOpen]
    split
    · rename_i hopen
      rw [find?_eq_some_iff_of_rising hrising]
      simp only [hclaimants, hroots]
      exact ⟨fun ⟨hclaims, hroot, holdest⟩ => ⟨hopen, hclaims, hroot, holdest⟩,
        fun ⟨_, hclaims, hroot, holdest⟩ => ⟨hclaims, hroot, holdest⟩⟩
    · rename_i hopen
      exact iff_of_false nofun fun h => hopen h.1
  unfold fileCreated
  simp only [htouched, hids]
  rw [hasRoot_foldl_claim hconsistent ((hmoves.isOpen path).trans hclosed) ids
    fun id hid => charter?_of_claims hconsistent (hids ▸ hid), hroots, hclaimants]
  simp only [hfirst]
  refine and_congr_right fun _ => ⟨?_, ?_⟩
  · rintro hself ⟨hopen, first, hclaimant, hother⟩
    exact hother (hself first ⟨hopen, hclaimant⟩).symm
  · intro hkept first ⟨hopen, hclaimant⟩
    by_contra hother
    exact hkept ⟨hopen, first, hclaimant, fun hsame => hother hsame.symm⟩

/-- The report changes the roots of projects, not what they know of their manifests. -/
theorem mandate?_fileCreated (w : Workspace) (path : Path) (x : ProjectId) :
    (w.fileCreated path).mandate? x = w.mandate? x := by
  unfold fileCreated
  refine List.foldlRecOn (motive := fun w' : Workspace => w'.mandate? x = w.mandate? x) _ _
    (mandate?_foldl_touch w _ x) fun w' hw' id _ => ?_
  exact (mandate?_takeOverOpenRoots _ id x).trans ((mandate?_addRoot w' id path x).trans hw')

/-! ## Agreement with the manifest -/

theorem claims_iff_of_manifest? {p : Project} {manifest : Manifest}
    (h : p.manifest? = some manifest) : w.claims path p = true ↔
      manifest.covers path w.extensions = true ∧ p.hasRoot path = false := by
  unfold claims
  rw [Project.covers_of_manifest? h, h]
  simp

/-- The roots of a project with a manifest after the report of a new file. -/
theorem exists_of_fileCreated {p : Project} {manifest : Manifest} (h : Consistent w)
    (hordered : Ordered w) (hclosed : w.documents.isOpen path = false)
    (hp : w.project? id = some p) (hmanifest : p.manifest? = some manifest) :
    ∃ p', (w.fileCreated path).project? id = some p' ∧ p'.mandate? = p.mandate? ∧
      ∀ q, p'.hasRoot q = true ↔
        (p.hasRoot q = true ∨ q = path ∧ manifest.covers path w.extensions = true) ∧
          ¬ w.Yields path q id := by
  obtain ⟨mandate, hmandate, -⟩ := Project.manifest?_eq_some.1 hmanifest
  obtain ⟨p', hp', hmandate'⟩ := mandate?_eq_some.1
    ((mandate?_fileCreated w path id).trans ((mandate?_of_live hp).trans hmandate))
  refine ⟨p', hp', hmandate'.trans hmandate.symm, fun q => ?_⟩
  have hclaimant : w.Claimant path id ↔
      manifest.covers path w.extensions = true ∧ p.hasRoot path = false := by
    rw [← claims_iff_of_manifest? hmanifest]
    unfold Claimant
    simp [hp]
  rw [← hasRoot_of_live hp', hasRoot_fileCreated h hordered hclosed, hasRoot_of_live hp, hclaimant]
  refine and_congr_left' ?_
  by_cases hq : q = path
  · subst hq
    cases p.hasRoot q <;> simp
  · simp [hq]

/-- **When the creation of a file leaves a project with the roots that its manifest names.**  The
roots of a live project are those that its manifest names, after any run.  A file is added that is
not open and has no manifest name, and its creation is reported.  The project then keeps its
manifest and has its roots and the file, if the manifest covers it, but for the open roots that go
to another project.  In a tidy host these are what the manifest names if and only if what goes is
what a project of its own keeps from the manifest.  With plain manifest names that means that no
root goes, and that on the way to the file there is no project of its own unless the manifest
does not cover the file or names it one by one. -/
theorem created_file_is_enumerated_iff (settings : Settings) (steps : List (Host × Action))
    (memory : Memory) (path : Path) (text : String) {p : Project} {manifest : Manifest}
    (hordinary : Manifest.isNamed settings.manifestFileNames path = false)
    (hclosed : (run settings steps).documents.isOpen path = false)
    (hp : (run settings steps).project? id = some p) (hmanifest : p.manifest? = some manifest)
    (hnamed : ∀ q, p.hasRoot q = true ↔ q ∈ manifest.named memory.host settings) :
    let w := run settings steps
    let next := memory.addFile path text
    let covered := manifest.covers path settings.resolution.extensions = true
    let clear (q : Path) := q ∈ manifest.files ∨
      manifest.Reaches next settings.manifestFileNames q
    ∃ p', (w.act next.host (.notice ⟨path, .created⟩)).project? id = some p' ∧
      p'.mandate? = p.mandate? ∧
      (∀ q, p'.hasRoot q = true ↔
        (p.hasRoot q = true ∨ q = path ∧ covered) ∧ ¬ w.Yields path q id) ∧
      (next.Tidy → ((∀ q, p'.hasRoot q = true ↔ q ∈ manifest.named next.host settings) ↔
        ∀ q, p.hasRoot q = true ∨ q = path ∧ covered → (¬ w.Yields path q id ↔ clear q))) ∧
      (next.Tidy → (∀ name ∈ settings.manifestFileNames, Segment.Plain name) →
        ((∀ q, p'.hasRoot q = true ↔ q ∈ manifest.named next.host settings) ↔
          (∀ q, p.hasRoot q = true → ¬ w.Yields path q id) ∧ (covered → clear path))) := by
  have hsettings : (run settings steps).settings = settings := run_settings settings steps
  have hsourced : p.Sourced :=
    (run_upholds (Project.inborn_sourced settings) steps).project id p hp
  obtain ⟨manifestPath, source, hparse⟩ := hsourced manifest hmanifest
  have hexcluded := Manifest.excluded_of_parse hparse
  have h := run_consistent settings steps
  have hordered := run_ordered_projects settings steps
  generalize run settings steps = w at *
  intro w next covered clear
  have hact : w.act next.host (.notice ⟨path, .created⟩) = w.fileCreated path := by
    show (w.noticeFile next.host ⟨path, .created⟩).2 = _
    unfold noticeFile
    rw [hsettings, hordinary]
    rfl
  obtain ⟨p', hp', hmandate, hroots⟩ := exists_of_fileCreated h hordered hclosed hp hmanifest
  unfold extensions at hroots
  rw [hsettings] at hroots
  have hagrees : next.Tidy → ((∀ q, p'.hasRoot q = true ↔ q ∈ manifest.named next.host settings) ↔
      ∀ q, p.hasRoot q = true ∨ q = path ∧ covered → (¬ w.Yields path q id ↔ clear q)) := by
    intro htidy
    refine forall_congr' fun q => ?_
    rw [hroots, Manifest.mem_named_addFile_iff htidy hexcluded, ← hnamed]
    exact and_congr_right_iff
  rw [hact]
  refine ⟨p', hp', hmandate, hroots, hagrees, fun htidy hplain => (hagrees htidy).trans ?_⟩
  -- what was named is named still, and a closed path does not go to another project
  have hkept : ∀ q, p.hasRoot q = true → clear q := by
    intro q hroot
    obtain ⟨-, -, hclear⟩ := (Manifest.mem_roots_iff htidy.of_addFile hexcluded).1
      ((hnamed q).1 hroot)
    exact hclear.imp_right (Manifest.reaches_addFile_iff hplain hordinary).2
  have hstays : ¬ w.Yields path path id := by
    rintro ⟨hopen, -⟩
    rw [hclosed] at hopen
    cases hopen
  constructor
  · intro hall
    exact ⟨fun q hroot => (hall q (.inl hroot)).2 (hkept q hroot),
      fun hcovered => (hall path (.inr ⟨rfl, hcovered⟩)).1 hstays⟩
  · rintro ⟨hnone, hclear⟩ q (hroot | ⟨rfl, hcovered⟩)
    · exact iff_of_true (hnone q hroot) (hkept q hroot)
    · exact iff_of_true hstays (hclear hcovered)

/-! ### A project within a project -/

/-- The project of `/p` has another one beneath it. -/
def layeredFiles : Memory :=
  ((Memory.empty.addFile (Path.atTop "p/a.ts") "").addFile
    (Path.atTop "p/sub/tsconfig.json") "\x7b\x7d").addFile (Path.atTop "p/tsconfig.json") "\x7b\x7d"

/-- A file of the outer project is opened. -/
def layeredSteps : List (Host × Action) :=
  [(layeredFiles.host, .openFile (Path.atTop "p/a.ts") "")]

theorem host_layeredFiles : layeredFiles.host = layeredFiles.unsorted :=
  Memory.host_eq_unsorted (by decide +kernel)

/-- The outer project has the roots that its manifest names, and there is no other project. -/
theorem exists_layered_project :
    ∃ p manifest, (run .default layeredSteps).project? ⟨1⟩ = some p ∧
      p.manifest? = some manifest ∧ p.isStale = false ∧ manifest.directory = Path.atTop "p" ∧
      (∀ q, p.hasRoot q = true ↔ q ∈ manifest.named layeredFiles.host .default) ∧
      ∀ q x, (run .default layeredSteps).hasRoot q x = true → x = ⟨1⟩ := by
  have hstate : (((run .default layeredSteps).project? ⟨1⟩).any fun p =>
      p.isStale = false ∧ (p.manifest?.any fun manifest =>
        manifest.directory = Path.atTop "p" ∧
          p.roots.toList = manifest.named layeredFiles.host .default)) = true ∧
      (run .default layeredSteps).projects.keys = [⟨1⟩] := by
    unfold layeredSteps
    rw [host_layeredFiles]
    decide +kernel
  obtain ⟨hlive, honly⟩ := hstate
  obtain ⟨p, hp, hfacts⟩ := (Option.any_eq_true _ _).1 hlive
  obtain ⟨hfresh, hloaded⟩ := of_decide_eq_true hfacts
  obtain ⟨manifest, hmanifest, hnamed⟩ := (Option.any_eq_true _ _).1 hloaded
  obtain ⟨hdirectory, hroots⟩ := of_decide_eq_true hnamed
  refine ⟨p, manifest, hp, hmanifest, hfresh, hdirectory, fun q => ?_, fun q x hx => ?_⟩
  · rw [← hroots, Project.hasRoot_iff, Roster.mem_toList]
  · obtain ⟨other, hother, -⟩ := (Option.any_eq_true _ _).1 hx
    have hkey := Table.contains_iff.1 (Table.contains_eq_true.2 ⟨other, hother⟩)
    rw [honly] at hkey
    exact List.mem_singleton.1 hkey

/-- A file that is created beside the manifest is named by it and becomes a root. -/
theorem created_file_is_enumerated_iff_beside :
    let w := run .default layeredSteps
    let path := Path.atTop "p/z.ts"
    let next := layeredFiles.addFile path ""
    Manifest.isNamed Settings.default.manifestFileNames path = false ∧
      w.documents.isOpen path = false ∧ next.Tidy ∧
      ∃ p manifest p', w.project? ⟨1⟩ = some p ∧ p.manifest? = some manifest ∧
        (∀ q, p.hasRoot q = true ↔ q ∈ manifest.named layeredFiles.host .default) ∧
        (w.act next.host (.notice ⟨path, .created⟩)).project? ⟨1⟩ = some p' ∧
        ∀ q, p'.hasRoot q = true ↔ q ∈ manifest.named next.host .default := by
  intro w path next
  obtain ⟨p, manifest, hp, hmanifest, -, hdirectory, hnamed, halone⟩ := exists_layered_project
  have hordinary : Manifest.isNamed Settings.default.manifestFileNames path = false := by
    decide +kernel
  have hclosed : (run .default layeredSteps).documents.isOpen path = false := by
    unfold layeredSteps
    rw [host_layeredFiles]
    decide +kernel
  have htidy : next.Tidy := by decide +kernel
  obtain ⟨p', hp', -, -, -, hagrees⟩ := created_file_is_enumerated_iff .default layeredSteps
    layeredFiles path "" hordinary hclosed hp hmanifest hnamed
  refine ⟨hordinary, hclosed, htidy, p, manifest, p', hp, hmanifest, hnamed, hp',
    (hagrees htidy (by decide)).2 ⟨fun q _ => not_yields_of_alone (halone q), fun _ => .inr ?_⟩⟩
  intro parent hparent directory hunder habove hne
  have hbeside : path.parent? = some manifest.directory := by
    rw [hdirectory]
    decide +kernel
  rw [hbeside] at hparent
  cases hparent
  exact absurd (Path.isUnder_antisymm habove hunder) hne

/-- **A created file may become a root that the manifest does not name.**  Where the file lies there
is a manifest already, so that a walk from the outer manifest does not come to it. -/
theorem created_file_is_not_enumerated :
    let w := run .default layeredSteps
    let path := Path.atTop "p/sub/z.ts"
    let next := layeredFiles.addFile path ""
    layeredFiles.hasFile path = false ∧
      Manifest.isNamed Settings.default.manifestFileNames path = false ∧
      w.documents.isOpen path = false ∧
      ∃ p manifest p', w.project? ⟨1⟩ = some p ∧ p.manifest? = some manifest ∧
        p.isStale = false ∧
        (∀ q, p.hasRoot q = true ↔ q ∈ manifest.named layeredFiles.host .default) ∧
        (w.act next.host (.notice ⟨path, .created⟩)).project? ⟨1⟩ = some p' ∧
        p'.hasRoot path = true ∧ path ∉ manifest.named next.host .default := by
  intro w path next
  obtain ⟨p, manifest, hp, hmanifest, hfresh, -, hnamed, -⟩ := exists_layered_project
  have hnext : next.host = next.unsorted := Memory.host_eq_unsorted (by decide +kernel)
  have hstate : (run .default layeredSteps).documents.isOpen path = false ∧
      ((run .default layeredSteps).project? ⟨1⟩).any (fun p => p.manifest?.any fun manifest =>
        path ∉ manifest.named next.host .default) = true ∧
      (((run .default layeredSteps).act next.host (.notice ⟨path, .created⟩)).project? ⟨1⟩).any
        (fun p => p.hasRoot path) = true := by
    unfold layeredSteps
    rw [host_layeredFiles, hnext]
    decide +kernel
  obtain ⟨hclosed, hwalked, hreported⟩ := hstate
  rw [hp, Option.any_some, hmanifest, Option.any_some] at hwalked
  obtain ⟨p', hp', hroot⟩ := (Option.any_eq_true _ _).1 hreported
  exact ⟨by decide +kernel, by decide +kernel, hclosed, p, manifest, p', hp, hmanifest, hfresh,
    hnamed, hp', hroot, of_decide_eq_true hwalked⟩

end Workspace

end Codebase
