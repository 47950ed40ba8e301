import Codebase.Proofs.Workspace.Isolation
import Codebase.Proofs.Workspace.Provision
/-!
# Requests to a workspace that serves syntax only

Under the setting that no project serves more than syntax, a question that needs more is refused
whatever becomes of it: by the gate of a project, or before that because there is no project.  No
rebuild can fail on the way, since no project takes a root from another one, and the language service
is not asked.

* `ask_semantic` — a project that serves syntax only refuses such a question.
* `serveLanguage_semantic` — so a workspace of such projects refuses it.
* `syntax_only_is_gated` — what becomes of every question under that setting.
-/

namespace Codebase.Workspace

variable {host : Host} {w : Workspace} {id : ProjectId} {path : Path}

theorem isSemantic_of_semantic {command : Command} (h : command.category = .semantic) :
    command.isSemantic = true :=
  decide_eq_true h

theorem not_lifecycle_of_semantic {command : Command} (h : command.category = .semantic) :
    command.category ≠ .lifecycle := by
  rw [h]
  exact nofun

/-- A question that needs more than syntax does not pass the gate of a project that serves no
more. -/
theorem ask_semantic {p : Project} (question : Question)
    (hsemantic : question.command.isSemantic = true) (hlive : w.project? id = some p)
    (hcapability : p.capability = .syntacticOnly) (service : LanguageService) :
    w.ask service id question =
      .error (.unsupportedInCapabilityMode question.command.name p.name) := by
  have hpermit : Command.permit question.command p.capability p.name =
      .error (.unsupportedInCapabilityMode question.command.name p.name) := by
    unfold Command.permit
    rw [hsemantic, hcapability]
    rfl
  unfold ask Gate.ofProject
  simp only [hlive]
  simp only [bind, Except.bind, hpermit]

/-- No project can take a root from another one, so all of them are quiet. -/
theorem Isolated.quiet {ids : List ProjectId} (hw : Isolated w) (h : Consistent w)
    (howners : w.projectsOf path = ids) : ∀ id ∈ ids, w.Quiet id :=
  quiet_of_owners h howners fun id p _ hp hkind => absurd hkind (hw.kind id p hp)

/-- A path that is a document has owners: an open one is a root, and a closed one is there for its
owners. -/
theorem contains_of_unowned (h : Lawful (w, still)) (hanchored : Anchored none w)
    (hunowned : w.ownership.ownersOf path = []) : w.documents.contains path = false := by
  refine Bool.eq_false_iff.2 fun hcontains => ?_
  have howner : ∃ x, x ∈ w.ownership.ownersOf path := by
    rcases hanchored.kept path nofun hcontains with hopen | howner
    · obtain ⟨x, p, hp, -, hroot⟩ := (h.held path hopen).resolve_left not_false
      exact ⟨x, h.consistent.owner_of_root hp hroot⟩
    · exact howner
  obtain ⟨x, hx⟩ := howner
  rw [hunowned] at hx
  cases hx

/-- Why a question that needs more than syntax is refused: nobody has the file and the host cannot
read it, or else some project serves syntax only. -/
inductive Refuses (w : Workspace) (host : Host) (command : Command) (file : Path)
    (next : Workspace) : Error → Prop
  | noProject (unowned : w.ownership.ownersOf file = [])
      (unread : ∀ text, host.read file ≠ .ok text) :
      Refuses w host command file next (.noProject file.text)
  | unsupported (found : w.ownership.ownersOf file ≠ [] ∨ ∃ text, host.read file = .ok text)
      (id : ProjectId) (p : Project) (live : next.project? id = some p) :
      Refuses w host command file next (.unsupportedInCapabilityMode command.name p.name)

/-- Such a question is refused, and no service has a part in it. -/
theorem serveLanguage_semantic {command : Command} {arguments : Request.LocationArguments}
    (hw : Isolated w) (h : Lawful (w, still)) (hanchored : Anchored none w) (host : Host)
    (hsemantic : command.category = .semantic) :
    ∃ e next, (∀ service, w.serveLanguage service host command arguments = (.error e, next)) ∧
      Refuses w host command arguments.file next e := by
  let question : Question := ⟨command, arguments.file, arguments.location?⟩
  have hquestion : question.command.isSemantic = true := isSemantic_of_semantic hsemantic
  cases howners : w.projectsOf arguments.file with
  | nil =>
    have hunowned := projectsOf_eq_nil_iff.1 howners
    rcases providerFor_unowned host howners with
      ⟨-, hunread, hrefused⟩ | ⟨hfound, documents, hprovided⟩
    · refine ⟨_, w, fun service => ?_, .noProject hunowned hunread⟩
      unfold serveLanguage targetsFor
      rw [howners]
      simp only [hrefused]
    · obtain ⟨p, hp, -, hcapability, -⟩ :=
        refresh_standIn h.consistent host documents arguments.file
      have hread : ∃ text, host.read arguments.file = .ok text := by
        refine hfound.resolve_left fun hcontains => ?_
        rw [contains_of_unowned h hanchored hunowned] at hcontains
        cases hcontains
      refine ⟨_, _, fun service => ?_, .unsupported (.inr hread) _ p hp⟩
      rw [serveLanguage_provided host howners hprovided]
      simp only
      rw [ask_semantic question hquestion hp hcapability]
  | cons target rest =>
    have hquiet := hw.quiet h.consistent howners
    have hnodup : (target :: rest).Nodup := howners ▸ nodup_projectsOf hanchored arguments.file
    obtain ⟨hok, p, hp, -⟩ := ready_iff.1 (ready_of_quiet host hnodup hquiet)
    have hevolves : Evolves none [] w (w.refreshTargets host (target :: rest)).2 :=
      (refreshTargets_inquiries none host w (target :: rest)).evolves hw
    have hcapability := (hevolves.isolated hw).capability target p hp
    have howned : w.ownership.ownersOf arguments.file ≠ [] := fun hnone => by
      rw [projectsOf_eq_nil_iff.2 hnone] at howners
      cases howners
    refine ⟨_, _, fun service => ?_, .unsupported (.inl howned) target p hp⟩
    rw [serveLanguage_owned host howners]
    generalize w.refreshTargets host (target :: rest) = answer at hok hp
    obtain ⟨result, next⟩ := answer
    cases result with
    | error e => cases hok
    | ok _ =>
      simp only
      rw [ask_semantic question hquestion hp hcapability]

/-- **Under the setting that only syntax is served, a question that needs more is refused.**  The
answer is the same whatever the language service would say: no project, if nobody has the file and
the host cannot read it, and otherwise the refusal of a project that serves syntax only.  A question
of one syntax tree about an open document is always answered. -/
theorem syntax_only_is_gated (settings : Settings) (steps : List (Host × Action))
    (session : Session) (host : Host) (request : Request) (command : Command)
    (arguments : Request.LocationArguments) (hsyntaxOnly : settings.syntaxOnly = true)
    (hsession : session.workspace = run settings steps)
    (hcommand : Command.ofName? request.command = some command)
    (hdecoded : Request.locationArguments request.arguments = .ok arguments) :
    (command.category = .semantic → ∃ answer e,
      (∀ service, session.answer service host request = answer) ∧ answer.1.result = .error e ∧
        Refuses (run settings steps) host command arguments.file answer.2.workspace e) ∧
    (command.category = .syntactic →
      (run settings steps).documents.isOpen arguments.file = true →
        (session.answer .echo host request).1.succeeded = true) := by
  have hisolated : Isolated (run settings steps) := run_isolated hsyntaxOnly steps
  have hlawful : Lawful (run settings steps, still) := run_lawful settings steps
  have hanchored : Anchored none (run settings steps) := run_anchored settings steps
  refine ⟨fun hsemantic => ?_, fun hsyntactic hopen => ?_⟩
  · obtain ⟨e, next, hrefused, hwhy⟩ :=
      serveLanguage_semantic hisolated hlawful hanchored host hsemantic
    have hserve : ∀ service, (run settings steps).serve service host request = (.error e, next) :=
      fun service => (serve_question host hcommand (not_lifecycle_of_semantic hsemantic)
        hdecoded).trans (hrefused service)
    obtain ⟨hresult, -, hnext⟩ := answer_eq hsession .echo host request
    refine ⟨session.answer .echo host request, e, fun service => ?_, ?_, ?_⟩
    · unfold Session.answer
      rw [hsession, hserve, hserve]
    · rw [hresult, hserve]
      rfl
    · rw [hnext, hserve]
      exact hwhy
  · obtain ⟨target, rest, p, howners, hnodup, hlive, hroot⟩ :=
      projectsOf_of_isOpen hlawful hanchored hopen
    have hready := ready_of_quiet host hnodup (hisolated.quiet hlawful.consistent howners)
    obtain ⟨-, hsucceeded, -⟩ := answer_eq hsession .echo host request
    rcases serve_isOpen host hlawful.consistent hcommand hsyntactic hdecoded howners
      (List.nodup_cons.1 hnodup).1 hlive hroot hopen with ⟨-, fields, p', hok, -⟩ | ⟨hnot, -⟩
    · rw [hsucceeded, hok]
      rfl
    · exact absurd hready hnot

/-- A question about an open file that needs more than syntax. -/
def refusedRequest : Request := ⟨5, "references", .obj [("file", .str "/a.ts")]⟩

theorem syntax_only_is_gated_reopening :
    let session : Session := ⟨run plainSettings reopening, 4, []⟩
    plainSettings.syntaxOnly = true ∧
      Command.ofName? refusedRequest.command = some .references ∧
      Request.locationArguments refusedRequest.arguments =
        .ok ⟨(Path.mk .slash []).join "a.ts", none, none⟩ ∧
      ∃ answer e,
        (∀ service, session.answer service (unlistedHost plainFiles) refusedRequest = answer) ∧
        answer.1.result = .error e := by
  intro session
  obtain ⟨hrefused, -⟩ := syntax_only_is_gated plainSettings reopening session
    (unlistedHost plainFiles) refusedRequest .references
    ⟨(Path.mk .slash []).join "a.ts", none, none⟩ rfl rfl rfl rfl
  obtain ⟨answer, e, hsame, hresult, -⟩ := hrefused rfl
  exact ⟨rfl, rfl, rfl, answer, e, hsame, hresult⟩

end Codebase.Workspace
