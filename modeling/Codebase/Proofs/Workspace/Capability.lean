import Codebase.Proofs.Manifest
import Codebase.Proofs.Workspace.Inborn
import Codebase.Proofs.Workspace.Mandate
import Codebase.Proofs.Workspace.Rebuild
/-!
# What a project serves

A project serves what its origin allows: what the settings allow, syntax only for an auxiliary
project and for one whose manifest is not loaded, and what the settings and the manifest both allow
for one whose manifest is.  Reading a manifest again changes the origin and the capability together,
so neither is ever left behind:

* `ProjectOrigin.allowance` — what a project of an origin serves.
* `Project.Calibrated.refresh?` — a rebuild keeps it, whatever becomes of the manifest.
* `Project.inborn_calibrated` — so every project is calibrated, at all times.
* `capability_follows_configuration` — what this means in a run, and what a rebuild makes of a
  project whose manifest is to be read again.
-/

namespace Codebase

/-- What a project of this origin serves. -/
def ProjectOrigin.allowance (settings : Settings) : ProjectOrigin → Capability
  | .inferred => settings.capability
  | .configured _ (.loaded manifest) => Project.capped manifest settings.capability
  | .configured _ (.failed _) | .auxiliary => .syntacticOnly

namespace Project

variable {settings : Settings} {project rebuilt : Project} {ctx : Context} {build : Build}

/-- The project serves what its origin allows, and a manifest that is loaded can be read again. -/
structure Calibrated (settings : Settings) (project : Project) : Prop where
  capability : project.capability = project.origin.allowance settings
  placed : ∀ manifestPath manifest, project.origin = .configured manifestPath (.loaded manifest) →
    manifestPath.parent? ≠ none

theorem Calibrated.of_unloaded
    (hcapability : project.capability = project.origin.allowance settings)
    (hnone : project.manifest? = none) : project.Calibrated settings where
  capability := hcapability
  placed manifestPath manifest horigin := by
    unfold manifest? at hnone
    rw [horigin] at hnone
    cases hnone

/-- Origin and capability stay. -/
def Alike (project next : Project) : Prop :=
  next.origin = project.origin ∧ next.capability = project.capability

theorem Calibrated.alike {next : Project} (h : project.Calibrated settings)
    (halike : project.Alike next) : next.Calibrated settings where
  capability := by
    rw [halike.1, halike.2]
    exact h.capability
  placed := by
    rw [halike.1]
    exact h.placed

theorem capped_eq_syntacticOnly_iff (manifest : Manifest) (settings : Settings) :
    capped manifest settings.capability = .syntacticOnly ↔
      settings.syntaxOnly = true ∨ manifest.options.syntaxOnly = true := by
  unfold capped Settings.capability
  cases settings.syntaxOnly <;> cases manifest.options.syntaxOnly <;> simp

theorem Calibrated.of_inferred (h : project.Calibrated settings)
    (hkind : project.kind = .inferred) : project.capability = settings.capability := by
  rw [h.capability]
  unfold kind at hkind
  split at hkind
  · rename_i horigin
    rw [horigin]
    rfl
  · cases hkind
  · cases hkind

theorem Calibrated.of_auxiliary (h : project.Calibrated settings)
    (hkind : project.kind = .auxiliary) : project.capability = .syntacticOnly := by
  rw [h.capability]
  unfold kind at hkind
  split at hkind
  · cases hkind
  · cases hkind
  · rename_i horigin
    rw [horigin]
    rfl

theorem Calibrated.of_manifestError? (h : project.Calibrated settings)
    (herror : project.manifestError?.isSome = true) : project.capability = .syntacticOnly := by
  rw [h.capability]
  unfold manifestError? at herror
  split at herror
  · rename_i horigin
    rw [horigin]
    rfl
  · cases herror

theorem Calibrated.of_manifest? {manifest : Manifest} (h : project.Calibrated settings)
    (hmanifest : project.manifest? = some manifest) : project.capability = .syntacticOnly ↔
      settings.syntaxOnly = true ∨ manifest.options.syntaxOnly = true := by
  rw [h.capability]
  unfold manifest? at hmanifest
  split at hmanifest
  · rename_i horigin
    cases hmanifest
    rw [horigin]
    exact capped_eq_syntacticOnly_iff _ settings
  · cases hmanifest

/-- The manifest that is read sets the capability, and one that is not there leaves syntax only. -/
theorem Calibrated.reread (h : project.Calibrated ctx.settings) :
    (project.reread ctx).Calibrated ctx.settings := by
  unfold Project.reread
  simp only
  split
  · split
    · rename_i manifest hfound
      split
      · refine ⟨rfl, fun manifestPath manifest horigin => ?_⟩
        cases horigin
        exact Manifest.parent?_of_found hfound
      · exact .of_unloaded rfl rfl
    · exact .of_unloaded rfl rfl
    · exact .of_unloaded rfl rfl
  · exact ⟨h.capability, h.placed⟩

theorem Calibrated.refresh? (h : project.Calibrated ctx.settings)
    (hbuilt : project.refresh? ctx = some (rebuilt, build)) :
    rebuilt.Calibrated ctx.settings := by
  obtain ⟨-, -, rfl⟩ := eq_of_refresh? hbuilt
  unfold prepared
  split
  · exact h.reread.alike ⟨rfl, rfl⟩
  · exact h.alike ⟨rfl, rfl⟩

/-- **Every project serves what its origin allows, from its start on.** -/
theorem inborn_calibrated (settings : Settings) : Inborn settings (Calibrated settings) where
  inferred _ := .of_unloaded rfl rfl
  auxiliary _ _ := .of_unloaded rfl rfl
  configured _ _ _ _ hfound := by
    refine ⟨rfl, fun manifestPath loaded horigin => ?_⟩
    cases horigin
    exact Manifest.parent?_of_found hfound
  unloadable _ _ _ _ _ _ := .of_unloaded rfl rfl
  touch _ h := h.alike ⟨rfl, rfl⟩
  outdate _ h := h.alike ⟨rfl, rfl⟩
  addRoot _ _ h := h.alike ⟨rfl, rfl⟩
  removeRoot _ _ h := h.alike ⟨rfl, rfl⟩
  refresh? hsettings hbuilt h := by
    subst hsettings
    exact h.refresh? hbuilt

/-- What is read again is the manifest that is there, if any; without one the roots stay. -/
theorem manifest?_reread (h : project.Calibrated settings) (hstale : project.isStale = true) :
    (project.reread ctx).manifest? = project.successor? ctx ∧
      (project.successor? ctx = none → (project.reread ctx).roots = project.roots) := by
  unfold successor? mandate? Project.reread Mandate.successor? manifestDirectory? manifestPath?
  simp only
  cases horigin : project.origin with
  | inferred => exact ⟨rfl, fun _ => rfl⟩
  | auxiliary => exact ⟨rfl, fun _ => rfl⟩
  | configured manifestPath state =>
    simp only [Option.bind_some, hstale, if_true]
    cases hparent : manifestPath.parent? with
    | none =>
      cases state with
      | loaded manifest => exact absurd hparent (h.placed manifestPath manifest horigin)
      | failed reason => exact ⟨rfl, fun _ => rfl⟩
    | some directory =>
      simp only
      cases Manifest.lookup ctx.host ctx.settings.manifestFileNames directory with
      | notFound => exact ⟨rfl, fun _ => rfl⟩
      | failed _ reason => exact ⟨rfl, fun _ => rfl⟩
      | found manifest =>
        simp only
        split
        · exact ⟨rfl, fun hnone => by cases hnone⟩
        · exact ⟨rfl, fun _ => rfl⟩

theorem manifest?_of_refresh? (h : project.Calibrated settings) (hstale : project.isStale = true)
    (hbuilt : project.refresh? ctx = some (rebuilt, build)) :
    rebuilt.manifest? = project.successor? ctx ∧
      (project.successor? ctx = none → rebuilt.roots = project.roots) := by
  obtain ⟨-, -, rfl⟩ := eq_of_refresh? hbuilt
  rw [prepared_of_stale hstale]
  exact manifest?_reread h hstale

/-- The reason for which a manifest is not loaded is there for configured projects alone, and for
those exactly when there is no manifest. -/
theorem manifestError?_isSome_iff (hkind : project.kind = .configured) :
    project.manifestError?.isSome = true ↔ project.manifest? = none := by
  unfold kind at hkind
  unfold manifestError? manifest?
  cases horigin : project.origin with
  | inferred => rw [horigin] at hkind; cases hkind
  | auxiliary => rw [horigin] at hkind; cases hkind
  | configured manifestPath state => cases state <;> simp

end Project

namespace Workspace

variable {host : Host} {w : Workspace} {id : ProjectId}

/-- Every project serves what its origin allows. -/
def Calibrated (w : Workspace) : Prop :=
  ∀ x p, w.project? x = some p → p.Calibrated w.settings

theorem run_calibrated (settings : Settings) (steps : List (Host × Action)) :
    Calibrated (run settings steps) := by
  intro x p hp
  rw [run_settings settings steps]
  exact (run_upholds (Project.inborn_calibrated settings) steps).project x p hp

/-- A project whose manifest is to be read again is clean after its rebuild, and has the manifest
that is there, if any.  Without one its roots stay. -/
theorem Calibrated.refresh_stale {p : Project} (hw : Calibrated w) (host : Host)
    (hlive : w.project? id = some p) (hdirty : p.isDirty = true) (hstale : p.isStale = true) :
    ∃ p', (w.refresh host id).2.project? id = some p' ∧ p'.isDirty = false ∧
      p'.isStale = false ∧ p'.manifest? = p.successor? (w.context host) ∧
      (p.successor? (w.context host) = none → p'.roots = p.roots) := by
  obtain ⟨p', hp', hclean, hsame | ⟨build, hbuilt⟩⟩ := refresh_self host hlive
  · rw [hsame, hdirty] at hclean
    cases hclean
  · obtain ⟨-, hrebuilt⟩ := Project.rebuilt_of_refresh? hbuilt
    obtain ⟨hmanifest, hroots⟩ :=
      Project.manifest?_of_refresh? (hw id p hlive) hstale hbuilt
    exact ⟨p', hp', hclean, hrebuilt.isStale, hmanifest, hroots⟩

/-- **The configuration decides what a project serves.**  An inferred project serves what the
settings allow, an auxiliary one syntax only.  A configured project has a reason why its manifest is
not loaded exactly when there is no manifest, and then serves syntax only; with a manifest it serves
syntax only exactly when the settings or the manifest ask for that.  A project whose manifest is to
be read again is dirty.  Its rebuild succeeds and leaves it clean, with the manifest that is there
then, and if there is none with the roots it had. -/
theorem capability_follows_configuration (settings : Settings) (steps : List (Host × Action))
    {id : ProjectId} {p : Project} (hlive : (run settings steps).project? id = some p) :
    (p.kind = .inferred → p.capability = settings.capability) ∧
    (p.kind = .auxiliary → p.capability = .syntacticOnly) ∧
    (p.kind = .configured →
      (p.manifestError?.isSome = true ↔ p.manifest? = none) ∧
      (p.manifestError?.isSome = true → p.capability = .syntacticOnly) ∧
      ∀ manifest, p.manifest? = some manifest → (p.capability = .syntacticOnly ↔
        settings.syntaxOnly = true ∨ manifest.options.syntaxOnly = true)) ∧
    (p.isStale = true → p.isDirty = true ∧ ∀ host,
      let next := (run settings steps).refresh host id
      next.1 = .ok () ∧ ∃ p', next.2.project? id = some p' ∧ p'.isDirty = false ∧
        p'.isStale = false ∧
        p'.manifest? = p.successor? ((run settings steps).context host) ∧
        (p.successor? ((run settings steps).context host) = none → p'.roots = p.roots)) := by
  have hcalibrated : Calibrated (run settings steps) := run_calibrated settings steps
  have hserved : p.Calibrated settings := by
    have hp := hcalibrated id p hlive
    rwa [run_settings settings steps] at hp
  refine ⟨hserved.of_inferred, hserved.of_auxiliary, fun hkind =>
    ⟨Project.manifestError?_isSome_iff hkind, hserved.of_manifestError?, fun _ =>
      hserved.of_manifest?⟩, fun hstale => ?_⟩
  have hdirty : p.isDirty = true := by
    by_contra hclean
    obtain ⟨files, hsettled⟩ :=
      ((run_consistent settings steps).linked id p hlive).settled (Bool.eq_false_iff.2 hclean)
    rw [hsettled.isStale] at hstale
    cases hstale
  exact ⟨hdirty, fun host => ⟨refresh_of_live host hlive,
    hcalibrated.refresh_stale host hlive hdirty hstale⟩⟩

/-! ### A manifest that is broken and repaired -/

/-- The manifest at `/p/tsconfig.json` with this text, and a file that it may name. -/
def repairedFiles (text : String) : Memory :=
  let place (text : String) : Path := (Path.mk .slash []).join text
  (Memory.empty.addFile (place "p/tsconfig.json") text).addFile (place "p/a.ts") ""

/-- The host when the manifest is well-formed, and serves more than syntax. -/
def repairedHost : Host := unlistedHost (repairedFiles "\x7b\"files\":[\"a.ts\"]\x7d")

/-- The file is opened while its manifest cannot be read, which is then reported to be modified. -/
def repairedSteps : List (Host × Action) :=
  let broken : Host := unlistedHost (repairedFiles "\x7b\"files\":[")
  let manifestPath : Path := (Path.mk .slash []).join "p/tsconfig.json"
  [(broken, .request .echo ⟨1, "open", .obj [("file", .str "/p/a.ts")]⟩),
    (broken, .notice ⟨manifestPath, .modified⟩)]

/-- The project serves syntax only, for a reason that it tells, until its manifest is read again. -/
theorem repaired_manifest_lifts_the_cap :
    ∃ p p', (run Settings.default repairedSteps).project? ⟨1⟩ = some p ∧
      p.manifestError?.isSome = true ∧ p.capability = .syntacticOnly ∧ p.isStale = true ∧
      ((run Settings.default repairedSteps).refresh repairedHost ⟨1⟩).2.project? ⟨1⟩ = some p' ∧
      p'.isDirty = false ∧ p'.isStale = false ∧ p'.manifest?.isSome = true ∧
      p'.capability = .fullSemantic := by
  have hlive : ((run Settings.default repairedSteps).project? ⟨1⟩).any (fun p =>
      p.kind = .configured ∧ p.manifestError?.isSome = true ∧ p.isStale = true ∧
      (p.successor? ((run Settings.default repairedSteps).context repairedHost)).isSome = true) =
        true := by
    decide +kernel
  have hrebuilt : (((run Settings.default repairedSteps).refresh repairedHost ⟨1⟩).2.project?
      ⟨1⟩).any (fun p => p.capability = .fullSemantic) = true := by
    decide +kernel
  obtain ⟨p, hp, hfacts⟩ := (Option.any_eq_true _ _).1 hlive
  obtain ⟨hkind, herror, hstale, hthere⟩ := of_decide_eq_true hfacts
  obtain ⟨-, -, hconfigured, hreload⟩ :=
    capability_follows_configuration Settings.default repairedSteps hp
  obtain ⟨-, p', hp', hclean, hfresh, hmanifest, -⟩ := (hreload hstale).2 repairedHost
  refine ⟨p, p', hp, herror, (hconfigured hkind).2.1 herror, hstale, hp', hclean, hfresh, ?_, ?_⟩
  · rw [hmanifest]
    exact hthere
  · rw [hp'] at hrebuilt
    exact of_decide_eq_true hrebuilt

end Workspace

end Codebase
