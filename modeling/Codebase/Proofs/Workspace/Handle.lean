import Codebase.Proofs.Workspace.Capability
import Codebase.Proofs.Workspace.Charter
/-!
# Handles that are kept

A gate is made of a live project and carries what this project serves then.  The project may come to
serve less while the gate is kept, when its manifest is read again; the program that the gate is
given tells so, but the gate does not look at it.

* `Gate.refuses_iff` — a gate decides by the capability that it carries.
* `run_append_keeps` — what holds of a project for good holds after further actions.
* `Project.Calibrated.fullSemantic_iff` — which projects serve more than syntax.
* `handle_refuses_iff` — when a kept gate refuses what its project does not serve any more.
-/

namespace Codebase

namespace Gate

variable {gate : Gate} {program : Program} {question : Question}

theorem ask_of_syntacticOnly (hsemantic : question.command.category = .semantic)
    (hcapability : gate.capability = .syntacticOnly) (service : LanguageService) :
    gate.ask service program question =
      .error (.unsupportedInCapabilityMode question.command.name gate.project) := by
  have hpermit : Command.permit question.command gate.capability gate.project =
      .error (.unsupportedInCapabilityMode question.command.name gate.project) := by
    unfold Command.permit Command.isSemantic
    rw [hsemantic, hcapability]
    rfl
  unfold ask
  rw [hpermit]

theorem ask_of_fullSemantic (hcapability : gate.capability = .fullSemantic)
    (service : LanguageService) :
    gate.ask service program question = service program question := by
  have hpermit : Command.permit question.command gate.capability gate.project = .ok () := by
    unfold Command.permit
    rw [hcapability, Capability.isSemantic, Bool.not_true, Bool.and_false]
    rfl
  unfold ask
  rw [hpermit]

/-- A gate decides by the capability that it carries, whatever program it is given. -/
theorem refuses_iff (hsemantic : question.command.category = .semantic) :
    (∀ service, gate.ask service program question =
        .error (.unsupportedInCapabilityMode question.command.name gate.project)) ↔
      gate.capability = .syntacticOnly := by
  refine ⟨fun hrefuses => ?_, ask_of_syntacticOnly hsemantic⟩
  cases hcapability : gate.capability with
  | syntacticOnly => rfl
  | fullSemantic =>
    have hasked := hrefuses fun _ _ => .ok .null
    rw [ask_of_fullSemantic hcapability] at hasked
    cases hasked

end Gate

namespace Project

variable {settings : Settings} {project later : Project}

theorem name_of_charter (project : Project) :
    (project.charter = .inferred → project.name = "inferred" ++ project.id.name) ∧
      (∀ path, project.charter = .configured path → project.name = path.text) ∧
      (project.charter = .auxiliary → project.name = "auxiliary" ++ project.id.name) := by
  unfold charter name
  cases project.origin <;> simp

/-- The name of a project tells its identity and its charter, and nothing else. -/
theorem name_eq_of_charter (hid : later.id = project.id)
    (hcharter : later.charter = project.charter) : later.name = project.name := by
  obtain ⟨hinferred, hconfigured, hauxiliary⟩ := name_of_charter project
  obtain ⟨hinferred', hconfigured', hauxiliary'⟩ := name_of_charter later
  rw [hcharter, hid] at hinferred' hauxiliary'
  rw [hcharter] at hconfigured'
  cases h : project.charter with
  | inferred => rw [hinferred h, hinferred' h]
  | configured path => rw [hconfigured path h, hconfigured' path h]
  | auxiliary => rw [hauxiliary h, hauxiliary' h]

/-- More than syntax is served where the settings allow it, by inferred projects and by those with a
manifest that allows it. -/
theorem Calibrated.fullSemantic_iff (h : project.Calibrated settings) :
    project.capability = .fullSemantic ↔ settings.syntaxOnly = false ∧
      (project.kind = .inferred ∨ ∃ manifest, project.manifest? = some manifest ∧
        manifest.options.syntaxOnly = false) := by
  rw [h.capability]
  unfold kind manifest?
  cases project.origin with
  | inferred =>
    unfold ProjectOrigin.allowance Settings.capability
    cases settings.syntaxOnly <;> simp
  | auxiliary => simp [ProjectOrigin.allowance]
  | configured manifestPath state =>
    cases state with
    | failed reason => simp [ProjectOrigin.allowance]
    | loaded manifest =>
      have hcapped : capped manifest settings.capability = .fullSemantic ↔
          ¬ (settings.syntaxOnly = true ∨ manifest.options.syntaxOnly = true) := by
        rw [← capped_eq_syntacticOnly_iff]
        cases capped manifest settings.capability <;> simp
      simp [ProjectOrigin.allowance, hcapped]

theorem kind_eq_configured_of_manifest? {manifest : Manifest}
    (h : project.manifest? = some manifest) : project.kind = .configured := by
  unfold manifest? at h
  unfold kind
  split at h
  · rename_i horigin
    rw [horigin]
  · cases h

/-- An inferred project serves the same at all times.  So a project that comes to serve syntax only
has served more only while a manifest let it. -/
theorem Calibrated.fullSemantic_iff_of_later (h : project.Calibrated settings)
    (hlater : later.Calibrated settings) (hcharter : later.charter = project.charter)
    (hsyntactic : later.capability = .syntacticOnly) :
    project.capability = .fullSemantic ↔ settings.syntaxOnly = false ∧
      ∃ manifest, project.manifest? = some manifest ∧ manifest.options.syntaxOnly = false := by
  rw [h.fullSemantic_iff]
  refine and_congr_right fun hsettings => or_iff_right fun hkind => ?_
  rw [kind_eq, ← hcharter, ← kind_eq] at hkind
  have hfull := hlater.fullSemantic_iff.2 ⟨hsettings, .inl hkind⟩
  rw [hsyntactic] at hfull
  cases hfull

end Project

namespace Workspace

variable {id : ProjectId} {gate : Gate} {program : Program} {question : Question}

/-! ## What stays -/

/-- What holds of a project for good holds of it after further actions. -/
theorem run_append_keeps {P : Project → Prop} (hP : Project.Enduring P) (settings : Settings)
    (before later : List (Host × Action)) {p : Project}
    (hlive : (run settings before).project? id = some p) (hp : P p) :
    ∀ p', (run settings (before ++ later)).project? id = some p' → P p' := by
  have hkeeps : ∀ w : Workspace, id.number ≤ w.lastNumber → (∀ p, w.project? id = some p → P p) →
      ∀ p', (later.foldl (fun w step => w.act step.1 step.2) w).project? id = some p' → P p' := by
    induction later with
    | nil => exact fun _ _ hw => hw
    | cons step rest ih =>
      intro w hnumber hw
      obtain ⟨documents, hmoves⟩ := act_reaches step.1 w step.2
      obtain ⟨hnumber', hw'⟩ := hmoves.keeps hP (x := id) hnumber hw
      exact ih _ hnumber' hw'
  unfold run
  rw [List.foldl_append]
  refine hkeeps _ ((run_consistent settings before).numbered id p hlive) fun p' hp' => ?_
  have hsame := hlive.symm.trans hp'
  cases hsame
  exact hp

theorem calibrated_of_run {settings : Settings} {steps : List (Host × Action)} {p : Project}
    (hlive : (run settings steps).project? id = some p) : p.Calibrated settings := by
  have hcalibrated := run_calibrated settings steps id p hlive
  rwa [run_settings settings steps] at hcalibrated

theorem ofProject_eq_ok {w : Workspace} (h : Gate.ofProject w id = .ok gate) :
    ∃ p, w.project? id = some p ∧ gate = ⟨p.capability, p.name⟩ := by
  unfold Gate.ofProject at h
  split at h
  · cases h
  · rename_i p hlive
    cases h
    exact ⟨p, hlive, rfl⟩

theorem program_eq_ok {w : Workspace} (h : w.program id = .ok program) :
    ∃ p, w.project? id = some p ∧ program.capability = p.capability ∧
      program.project = p.name := by
  unfold Workspace.program at h
  split at h
  · cases h
  · rename_i p hlive
    split at h
    · cases h
    · cases h
      exact ⟨p, hlive, rfl, rfl⟩

/-- The manifest of the project is loaded and lets it serve more than syntax. -/
def Licensed (w : Workspace) (id : ProjectId) : Prop :=
  ∃ p manifest, w.project? id = some p ∧ p.manifest? = some manifest ∧
    manifest.options.syntaxOnly = false

theorem licensed_iff {w : Workspace} {p : Project} (hlive : w.project? id = some p) :
    Licensed w id ↔
      ∃ manifest, p.manifest? = some manifest ∧ manifest.options.syntaxOnly = false := by
  unfold Licensed
  simp [hlive]

/-! ## A gate and a later program -/

/-- **When a kept gate refuses what its project does not serve any more.**  A gate is made of a
project that is live, and used, after any actions, on the program of the same project, which is
clean and serves syntax only by then.  A question that needs more is refused, without the service,
exactly if the gate carries that only syntax is served; so is a request for semantic diagnostics.
Any other gate asks the service.  This happens exactly if the settings allow more than syntax and
the project, a configured one, was made the gate of while its manifest allowed more; by then the
manifest is not loaded any more or does not allow it. -/
theorem handle_refuses_iff (settings : Settings) (before later : List (Host × Action))
    (hgate : Gate.ofProject (run settings before) id = .ok gate)
    (hprogram : (run settings (before ++ later)).program id = .ok program)
    (hsyntactic : program.capability = .syntacticOnly)
    (hsemantic : question.command.category = .semantic) :
    ((∀ service, gate.ask service program question =
        .error (.unsupportedInCapabilityMode question.command.name program.project)) ↔
      gate.capability = .syntacticOnly) ∧
    (∀ file, (∀ service, gate.semanticDiagnostics service program file =
        .error (.unsupportedInCapabilityMode Command.semanticDiagnosticsSync.name
          program.project)) ↔
      gate.capability = .syntacticOnly) ∧
    (gate.capability = .fullSemantic →
      (∀ service, gate.ask service program question = service program question) ∧
      ∃ p, (run settings (before ++ later)).project? id = some p ∧ p.kind = .configured ∧
        ∀ manifest, p.manifest? = some manifest → manifest.options.syntaxOnly = true) ∧
    (gate.capability = .fullSemantic ↔
      settings.syntaxOnly = false ∧ Licensed (run settings before) id) := by
  obtain ⟨p, hlive, rfl⟩ := ofProject_eq_ok hgate
  obtain ⟨p', hlive', hcapability, hname⟩ := program_eq_ok hprogram
  rw [hcapability] at hsyntactic
  have hcharter : p'.charter = p.charter :=
    run_append_keeps (Project.enduring_charter p.charter) settings before later hlive rfl p' hlive'
  have hsame : program.project = p.name := by
    rw [hname]
    refine Project.name_eq_of_charter ?_ hcharter
    rw [(run_consistent settings _).named id p' hlive',
      (run_consistent settings _).named id p hlive]
  have hserved' := calibrated_of_run hlive'
  have hlicensed : p.capability = .fullSemantic ↔
      settings.syntaxOnly = false ∧ Licensed (run settings before) id := by
    rw [licensed_iff hlive]
    exact (calibrated_of_run hlive).fullSemantic_iff_of_later hserved' hcharter hsyntactic
  rw [hsame]
  have hdiagnostics : ∀ file, Command.category
      (⟨.semanticDiagnosticsSync, file, none⟩ : Question).command = .semantic := fun _ => rfl
  refine ⟨Gate.refuses_iff hsemantic, fun file => Gate.refuses_iff (hdiagnostics file), fun hfull =>
    ⟨Gate.ask_of_fullSemantic hfull, p', hlive', ?_, fun manifest hmanifest => ?_⟩, hlicensed⟩
  · obtain ⟨manifest, hmanifest, -⟩ := (licensed_iff hlive).1 (hlicensed.1 hfull).2
    rw [Project.kind_eq, hcharter, ← Project.kind_eq]
    exact Project.kind_eq_configured_of_manifest? hmanifest
  · have hallowed := (hserved'.of_manifest? hmanifest).1 hsyntactic
    refine hallowed.resolve_left fun hsettings => ?_
    rw [(hlicensed.1 hfull).1] at hsettings
    cases hsettings

/-! ### A manifest that breaks after the gate was made -/

/-- The manifest at `/p/tsconfig.json` with this text, and the file that it names. -/
def breakingFiles (text : String) : Memory :=
  (Memory.empty.addFile (Path.atTop "p/tsconfig.json") text).addFile (Path.atTop "p/a.ts") ""

/-- The file is opened while its manifest is well-formed. -/
def beforeBreak : List (Host × Action) :=
  [(unlistedHost (breakingFiles "\x7b\"files\":[\"a.ts\"]\x7d"),
    .request .echo ⟨1, "open", .obj [("file", .str "/p/a.ts")]⟩)]

/-- The manifest is broken and reported to be modified, and its project is brought up to date. -/
def afterBreak : List (Host × Action) :=
  let broken : Host := unlistedHost (breakingFiles "\x7b\"files\":[")
  [(broken, .notice ⟨Path.atTop "p/tsconfig.json", .modified⟩), (broken, .refresh ⟨1⟩)]

theorem gate_beforeBreak : Gate.ofProject (run Settings.default beforeBreak) ⟨1⟩ =
    .ok ⟨.fullSemantic, "/p/tsconfig.json"⟩ := by
  have hgate : (Gate.ofProject (run Settings.default beforeBreak) ⟨1⟩).toOption =
      some ⟨.fullSemantic, "/p/tsconfig.json"⟩ := by
    decide +kernel
  generalize Gate.ofProject (run Settings.default beforeBreak) ⟨1⟩ = made at hgate
  cases made with
  | error e => cases hgate
  | ok gate => rw [Option.some.inj hgate]

theorem program_afterBreak :
    ∃ program, (run Settings.default (beforeBreak ++ afterBreak)).program ⟨1⟩ = .ok program ∧
      program.capability = .syntacticOnly ∧ program.files = [Path.atTop "p/a.ts"] := by
  have hfacts : ((run Settings.default (beforeBreak ++ afterBreak)).program ⟨1⟩).toOption.any
      (fun program => program.capability = .syntacticOnly ∧
        program.files = [Path.atTop "p/a.ts"]) = true := by
    decide +kernel
  cases hprogram : (run Settings.default (beforeBreak ++ afterBreak)).program ⟨1⟩ with
  | error e =>
    rw [hprogram] at hfacts
    cases hfacts
  | ok program =>
    rw [hprogram] at hfacts
    exact ⟨program, rfl, of_decide_eq_true hfacts⟩

/-- The gate carries what its project served, so its manifest allowed that. -/
theorem handle_refuses_iff_broken :
    ∃ gate program, Gate.ofProject (run Settings.default beforeBreak) ⟨1⟩ = .ok gate ∧
      (run Settings.default (beforeBreak ++ afterBreak)).program ⟨1⟩ = .ok program ∧
      program.capability = .syntacticOnly ∧
      Licensed (run Settings.default beforeBreak) ⟨1⟩ ∧
      ∃ p, (run Settings.default (beforeBreak ++ afterBreak)).project? ⟨1⟩ = some p ∧
        p.kind = .configured := by
  obtain ⟨program, hprogram, hsyntactic, -⟩ := program_afterBreak
  let question : Question := ⟨.completions, Path.atTop "p/a.ts", none⟩
  have hsemantic : question.command.category = .semantic := rfl
  obtain ⟨-, -, hasks, hlicensed⟩ := handle_refuses_iff Settings.default beforeBreak afterBreak
    gate_beforeBreak hprogram hsyntactic hsemantic
  obtain ⟨-, p, hlive, hkind, -⟩ := hasks rfl
  exact ⟨_, program, gate_beforeBreak, hprogram, hsyntactic, (hlicensed.1 rfl).2, p, hlive, hkind⟩

/-- The gate lets a question for completions through to the service, which answers it, though the
project of the program serves syntax only. -/
theorem handle_outlives_license :
    ∃ gate program body, Gate.ofProject (run Settings.default beforeBreak) ⟨1⟩ = .ok gate ∧
      (run Settings.default (beforeBreak ++ afterBreak)).program ⟨1⟩ = .ok program ∧
      program.capability = .syntacticOnly ∧ Command.completions.category = .semantic ∧
      gate.ask .echo program ⟨.completions, Path.atTop "p/a.ts", none⟩ = .ok body := by
  obtain ⟨program, hprogram, hsyntactic, hfiles⟩ := program_afterBreak
  obtain ⟨body, hbody⟩ : ∃ body, LanguageService.echo program
      ⟨.completions, Path.atTop "p/a.ts", none⟩ = .ok body := by
    unfold LanguageService.echo
    rw [if_pos (by rw [hfiles]; exact List.mem_cons_self)]
    exact ⟨_, rfl⟩
  refine ⟨_, program, body, gate_beforeBreak, hprogram, hsyntactic, rfl, ?_⟩
  rw [Gate.ask_of_fullSemantic rfl, hbody]

end Workspace

end Codebase
