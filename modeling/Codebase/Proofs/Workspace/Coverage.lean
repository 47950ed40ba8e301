import Codebase.Proofs.Workspace.Appointment
import Codebase.Proofs.Workspace.Home
import Codebase.Proofs.Workspace.Inborn
/-!
# Whether a project covers what it is given

A document that nobody has as a root is given to the project of the nearest manifest that governs
it, and afterwards one may ask that project whether its manifest covers the document.  The two ask
the same of a manifest that is loaded, and of a project that is there already.  A manifest that
cannot be loaded governs whatever lies beneath it until its project has started, but the project
covers files with a known extension only.

* `covers_assign_iff` — when the project that takes a path covers it.
* `exists_above_of_assign` — the directory of its manifest lies above the path.
* `given_document_is_covered_iff` — the same for a document that is opened after any run.
-/

namespace Codebase

variable {path directory : Path} {extensions : List String} {p : Project} {manifest : Manifest}

/-! ## What a project covers -/

/-- Without its manifest a project covers the files with a known extension in its directory. -/
theorem Project.covers_of_unloaded (hkind : p.kind = .configured) (h : p.manifest? = none) :
    p.covers path extensions = true ↔ path.hasExtension extensions = true ∧
      ∃ directory, p.manifestDirectory? = some directory ∧ path.isUnder directory = true := by
  unfold kind at hkind
  unfold manifest? at h
  unfold covers manifestDirectory? manifestPath?
  cases horigin : p.origin with
  | inferred =>
    rw [horigin] at hkind
    cases hkind
  | auxiliary =>
    rw [horigin] at hkind
    cases hkind
  | configured manifestPath state =>
    cases state with
    | loaded manifest =>
      rw [horigin] at h
      cases h
    | failed reason =>
      simp only [Option.bind_some]
      cases manifestPath.parent? with
      | none => simp
      | some directory => simp [and_comm]

namespace Workspace

variable {host : Host} {w w' : Workspace} {id : ProjectId} {content : String} {mandate : Mandate}

/-! ## Assigning a path -/

/-- A configured project takes a path because it is there already and governs it, or it starts with
the mandate of the governor. -/
theorem governor?_of_assign (h : Consistent w)
    (hlive : (w.assign host path).2.project? (w.assign host path).1 = some p)
    (hkind : p.kind = .configured) :
    ∃ governor, w.governor? host path = some governor ∧
      ((governor = .project (w.assign host path).1 ∧
          w.mandate? (w.assign host path).1 = p.mandate?) ∨
        (w.mandate? (w.assign host path).1 = none ∧ governor.mandate? = p.mandate?)) := by
  have hmandate : (w.taker host path).2.mandate? (w.taker host path).1 = p.mandate? := by
    rw [← mandate?_of_live hlive, assign_eq, mandate?_addRoot]
  have hpatron : (w.patron host path).kind = .configured := by
    obtain ⟨q, hq, hcharter⟩ := charter?_eq_some.1 (charter?_assign h host path)
    rw [hlive] at hq
    cases hq
    rw [← hcharter, ← Project.kind_eq]
    exact hkind
  have htaker : (w.assign host path).1 = (w.taker host path).1 := rfl
  rw [htaker]
  unfold patron at hpatron
  split at hpatron
  · cases hpatron
  · rename_i hsemantic
    cases hgovernor : w.governor? host path with
    | none =>
      rw [hgovernor] at hpatron
      cases hpatron
    | some governor =>
      refine ⟨governor, rfl, ?_⟩
      unfold taker configuredFor at hmandate ⊢
      rw [if_neg hsemantic, hgovernor] at hmandate ⊢
      cases governor with
      | project id => exact .inl ⟨rfl, hmandate⟩
      | manifest manifest =>
        refine .inr ⟨mandate?_next h, Eq.trans ?_ hmandate⟩
        exact ((mandate?_startConfigured w host manifest _).trans (if_pos rfl)).symm
      | unloadable manifestPath reason =>
        refine .inr ⟨mandate?_next h, Eq.trans ?_ hmandate⟩
        let make : ProjectId → Project := fun id => .unloadable id manifestPath reason
        exact ((mandate?_addProject w make w.nextId).trans (if_pos rfl)).symm

/-- A manifest that is loaded governs what it covers. -/
theorem covers_of_governorAt?_manifest {manifest : Manifest}
    (hat : w.governorAt? host path directory = some (.manifest manifest)) :
    manifest.covers path w.extensions = true := by
  unfold governorAt? at hat
  split at hat
  · split at hat <;> cases hat
  · split at hat
    · cases hat
    · split at hat
      · rename_i hcovers
        cases hat
        exact hcovers
      · cases hat
    · cases hat

/-- **When the project that takes a path covers it.**  It always does when it was there before or
when its manifest is loaded. -/
theorem covers_assign_iff (h : Consistent w)
    (hlive : (w.assign host path).2.project? (w.assign host path).1 = some p)
    (hkind : p.kind = .configured) :
    p.covers path w.extensions = true ↔
      w.mandate? (w.assign host path).1 ≠ none ∨ p.manifest? ≠ none ∨
        (path.hasExtension w.extensions = true ∧
          ∃ directory, p.manifestDirectory? = some directory ∧ path.isUnder directory = true) := by
  obtain ⟨governor, hgovernor, ⟨rfl, hmandate⟩ | ⟨hnew, hmandate⟩⟩ :=
    governor?_of_assign h hlive hkind
  · obtain ⟨directory, -, hat⟩ := exists_governorAt? hgovernor
    obtain ⟨before, hbefore, -, hcovers⟩ := covers_of_governorAt? h hat
    rw [mandate?_of_live hbefore] at hmandate
    rw [mandate?_of_live hbefore, ← Project.covers_congr hmandate path w.extensions, hmandate]
    exact iff_of_true hcovers (.inl (mt Project.mandate?_eq_none_iff.1 (not_not.2 hkind)))
  · obtain ⟨directory, -, hat⟩ := exists_governorAt? hgovernor
    cases governor with
    | project y =>
      exact absurd hkind (Project.mandate?_eq_none_iff.1 hmandate.symm)
    | manifest manifest =>
      have hloaded : p.manifest? = some manifest :=
        Project.manifest?_eq_some.2 ⟨_, hmandate.symm, rfl⟩
      rw [Project.covers_of_manifest? hloaded, hloaded]
      exact iff_of_true (covers_of_governorAt?_manifest hat) (.inr (.inl nofun))
    | unloadable manifestPath reason =>
      have hunloaded : p.manifest? = none := by
        rw [Option.eq_none_iff_forall_ne_some]
        rintro manifest hloaded
        obtain ⟨mandate, hmandate', hstate⟩ := Project.manifest?_eq_some.1 hloaded
        rw [← hmandate] at hmandate'
        cases hmandate'
        cases hstate
      rw [Project.covers_of_unloaded hkind hunloaded, hnew, hunloaded]
      simp

/-- With plain names, the directory of the manifest lies above the path. -/
theorem exists_above_of_assign (hplain : ∀ name ∈ w.settings.manifestFileNames, Segment.Plain name)
    (h : Consistent w)
    (hlive : (w.assign host path).2.project? (w.assign host path).1 = some p)
    (hkind : p.kind = .configured) :
    ∃ directory, p.manifestDirectory? = some directory ∧ path.isUnder directory = true := by
  obtain ⟨governor, hgovernor, ⟨rfl, hmandate⟩ | ⟨-, hmandate⟩⟩ :=
    governor?_of_assign h hlive hkind
  · obtain ⟨directory, habove, hat⟩ := exists_governorAt? hgovernor
    obtain ⟨before, hbefore, hdirectory, -⟩ := covers_of_governorAt? h hat
    rw [mandate?_of_live hbefore] at hmandate
    refine ⟨directory, ?_, habove⟩
    rw [← Project.manifestDirectory?_congr hmandate]
    exact hdirectory
  · obtain ⟨directory, habove, hat⟩ := exists_governorAt? hgovernor
    obtain ⟨mandate, hsome⟩ := Option.ne_none_iff_exists'.1
      (mt Project.mandate?_eq_none_iff.1 (not_not.2 hkind))
    obtain ⟨-, hlies, -⟩ := ofDirectory?_of_governorAt? hat (hmandate.trans hsome)
    obtain ⟨-, hparent⟩ := Mandate.current_ofDirectory? hplain hlies
    exact ⟨directory, Project.manifestDirectory?_eq_some.2 ⟨mandate, hsome, hparent⟩, habove⟩

/-! ## Opening a document -/

/-- **When the project that a document is given to covers it.**  After any run a document that is no
root of any project is opened and given to a configured project.  The project covers it if and only
if it was there before, or its manifest is loaded, or the document has a known extension and lies
beneath the directory of the manifest.  With plain manifest names, it always lies there. -/
theorem given_document_is_covered_iff (settings : Settings) (steps : List (Host × Action))
    (hfree : ∀ x, (run settings steps).hasRoot path x = false)
    (hok : (run settings steps).openFile host path content = (.ok id, w'))
    (hlive : w'.project? id = some p) (hkind : p.kind = .configured) :
    (p.covers path settings.resolution.extensions = true ↔
      (run settings steps).project? id ≠ none ∨ p.manifest? ≠ none ∨
        (path.hasExtension settings.resolution.extensions = true ∧
          ∃ directory, p.manifestDirectory? = some directory ∧
            path.isUnder directory = true)) ∧
    ((∀ name ∈ settings.manifestFileNames, Segment.Plain name) →
      ∃ directory, p.manifestDirectory? = some directory ∧ path.isUnder directory = true) := by
  have hsettings : (run settings steps).settings = settings := run_settings settings steps
  have h := run_consistent settings steps
  have hordered := run_ordered_projects settings steps
  generalize run settings steps = w at *
  obtain ⟨opened, documents, -, -, hassigned⟩ := openFile_of_free hfree hok
  have hopening : Consistent (w.opening path opened documents) :=
    opening_consistent h opened documents
  have hsame : (w.opening path opened documents).settings = settings :=
    (opening_settings opened documents).trans hsettings
  have hid : ((w.opening path opened documents).assign host path).1 = id := by rw [hassigned]
  have hlive' : ((w.opening path opened documents).assign host path).2.project?
      ((w.opening path opened documents).assign host path).1 = some p := by
    rw [hassigned]
    exact hlive
  -- a project is there before exactly if its manifest is known before
  have hthere : w.mandate? id ≠ none ↔ w.project? id ≠ none := by
    obtain ⟨-, -, new, hyounger, hmandate⟩ := openFile_free h hordered hfree hok
    constructor
    · intro hsome hnone
      exact hsome (by unfold mandate?; rw [hnone]; rfl)
    · intro hsome
      obtain ⟨before, hbefore⟩ := Option.ne_none_iff_exists'.1 hsome
      have hne : id ≠ new := by
        rintro rfl
        exact Nat.lt_irrefl _ (hyounger id before hbefore)
      rw [← (hmandate id).trans (if_neg hne), mandate?_of_live hlive]
      exact mt Project.mandate?_eq_none_iff.1 (not_not.2 hkind)
  constructor
  · have hcovers := covers_assign_iff hopening hlive' hkind
    rw [hid, mandate?_opening, hthere] at hcovers
    unfold extensions at hcovers
    rw [hsame] at hcovers
    exact hcovers
  · intro hplain
    exact exists_above_of_assign (by rw [hsame]; exact hplain) hopening hlive' hkind

/-! ### A manifest that cannot be loaded -/

/-- The manifest of `/p` is no JSON text. -/
def brokenFiles : Memory :=
  ((Memory.empty.addFile (Path.atTop "p/tsconfig.json") "\x7b").addFile
    (Path.atTop "p/a.ts") "").addFile (Path.atTop "p/README.md") ""

/-- The project that starts for the source file covers it, though its manifest is not loaded. -/
theorem given_document_is_covered_iff_source :
    let w := run .default []
    let path : Path := Path.atTop "p/a.ts"
    let answer := w.openFile (unlistedHost brokenFiles) path ""
    (∀ x, w.hasRoot path x = false) ∧ answer.1 = .ok ⟨1⟩ ∧
      ∃ p, answer.2.project? ⟨1⟩ = some p ∧ p.kind = .configured ∧ p.manifest? = none ∧
        w.project? ⟨1⟩ = none ∧
        p.covers path Settings.default.resolution.extensions = true := by
  intro w path answer
  have hlive : (answer.2.project? ⟨1⟩).any (fun p => p.kind = .configured ∧
      p.manifest?.isNone = true) = true := by
    decide +kernel
  have hok : answer.1 = .ok ⟨1⟩ := by decide +kernel
  obtain ⟨p, hp, hfacts⟩ := (Option.any_eq_true _ _).1 hlive
  obtain ⟨hkind, hunloaded⟩ := of_decide_eq_true hfacts
  have hanswer : w.openFile (unlistedHost brokenFiles) path "" = (.ok ⟨1⟩, answer.2) :=
    Prod.ext hok rfl
  obtain ⟨hcovers, habove⟩ := given_document_is_covered_iff .default [] (fun _ => rfl) hanswer hp
    hkind
  refine ⟨fun _ => rfl, hok, p, hp, hkind, Option.isNone_iff_eq_none.1 hunloaded, rfl,
    hcovers.2 (.inr (.inr ⟨by decide +kernel, habove (by decide)⟩))⟩

/-- **A project need not cover what it is given.**  The manifest of `/p` cannot be loaded.  The
first document that is opened beneath it is given to its project, whatever its extension. -/
theorem given_document_is_not_covered :
    let w := run .default []
    let path : Path := Path.atTop "p/README.md"
    let answer := w.openFile (unlistedHost brokenFiles) path ""
    (∀ x, w.hasRoot path x = false) ∧ answer.1 = .ok ⟨1⟩ ∧
      ∃ p, answer.2.project? ⟨1⟩ = some p ∧ p.kind = .configured ∧
        p.covers path Settings.default.resolution.extensions = false := by
  intro w path answer
  have hlive : (answer.2.project? ⟨1⟩).any (fun p => p.kind = .configured ∧
      p.covers path Settings.default.resolution.extensions = false) = true := by
    decide +kernel
  obtain ⟨p, hp, hfacts⟩ := (Option.any_eq_true _ _).1 hlive
  exact ⟨fun _ => rfl, by decide +kernel, p, hp,
    of_decide_eq_true hfacts⟩

end Workspace

end Codebase
