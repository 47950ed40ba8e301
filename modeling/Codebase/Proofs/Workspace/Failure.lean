import Codebase.Proofs.Workspace.Patron
import Codebase.Proofs.Workspace.Serving
/-!
# Failures

An operation fails before it changes anything.  Where one operation follows another, as when a
request opens a file and has its project rebuilt, the second one cannot fail any more.

* `Unspoilt` — an answer that is a failure leaves the workspace as it was.
* `openFile_unspoilt`, `closeFile_unspoilt`, … — the operations one by one.
* `live_of_openFile`, `filesOf_isOk` — what cannot fail after something has changed.
* `failures_change_nothing` — all of it in a run.

A question to the language service is no such operation: the projects that it asks stay up to date
when the service refuses it.
-/

namespace Codebase.Workspace

variable {host : Host} {w next : Workspace} {id : ProjectId} {path : Path} {α : Type}

/-- If the answer is a failure, the workspace is as it was. -/
def Unspoilt (w : Workspace) (answer : Answer α) : Prop :=
  ∀ e, answer.1 = .error e → answer.2 = w

theorem unspoilt_error (w : Workspace) (e : Error) : Unspoilt w ((.error e, w) : Answer α) :=
  fun _ _ => rfl

theorem unspoilt_ok (w next : Workspace) (a : α) : Unspoilt w (.ok a, next) :=
  fun _ herror => nomatch herror

/-! ## Events -/

theorem openFile_unspoilt (w : Workspace) (host : Host) (path : Path) (content : String) :
    Unspoilt w (w.openFile host path content) := by
  have hopens := openFile_opens host w path content
  generalize w.openFile host path content = answer at hopens ⊢
  cases hopens with
  | refused e => exact unspoilt_error w e
  | held | assigned => exact unspoilt_ok _ _ _

theorem closeFile_unspoilt (w : Workspace) (path : Path) : Unspoilt w (w.closeFile path) := by
  unfold closeFile
  split
  · exact unspoilt_error w _
  · exact unspoilt_ok _ _ _

theorem editFile_unspoilt (w : Workspace) (path : Path) (change : TextChange) (version : Nat) :
    Unspoilt w (w.editFile path change version) := by
  unfold editFile
  split
  · exact unspoilt_error w _
  · exact unspoilt_ok _ _ _

/-- The host is read, and the document replaced, before any owner is touched. -/
theorem fileModified_unspoilt (w : Workspace) (host : Host) (path : Path) :
    Unspoilt w (w.fileModified host path) := by
  unfold fileModified
  split
  · split
    · exact unspoilt_error w _
    · split
      · exact unspoilt_error w _
      · exact unspoilt_ok _ _ _
  · exact unspoilt_ok _ _ _

theorem noticeFile_unspoilt (w : Workspace) (host : Host) (event : FileEvent) :
    Unspoilt w (w.noticeFile host event) := by
  unfold noticeFile
  split
  · exact unspoilt_ok _ _ _
  · split
    · exact unspoilt_ok _ _ _
    · exact fileModified_unspoilt w host event.path
    · exact unspoilt_ok _ _ _

/-! ## Questions to the workspace -/

theorem refresh_unspoilt (w : Workspace) (host : Host) (id : ProjectId) :
    Unspoilt w (w.refresh host id) := by
  cases hlive : w.project? id with
  | none =>
    rw [refresh_of_none host hlive]
    exact unspoilt_error w _
  | some p =>
    intro e herror
    rw [refresh_of_live host hlive] at herror
    cases herror

/-- The files of a live project can always be had, and it is live afterwards. -/
theorem filesOf_isOk {p : Project} (host : Host) (hlive : w.project? id = some p) :
    (∃ files, (w.filesOf host id).1 = .ok files) ∧
      ∃ p', (w.filesOf host id).2.project? id = some p' := by
  obtain ⟨p', hp', -⟩ := refresh_self host hlive
  have hok := refresh_of_live host hlive
  unfold filesOf
  generalize w.refresh host id = answer at hok hp'
  obtain ⟨result, next⟩ := answer
  cases hok
  simp only [hp']
  exact ⟨⟨_, rfl⟩, p', rfl⟩

theorem filesOf_unspoilt (w : Workspace) (host : Host) (id : ProjectId) :
    Unspoilt w (w.filesOf host id) := by
  cases hlive : w.project? id with
  | none =>
    unfold filesOf
    rw [refresh_of_none host hlive]
    exact unspoilt_error w _
  | some p =>
    obtain ⟨⟨files, hok⟩, -⟩ := filesOf_isOk host hlive
    intro e herror
    rw [hok] at herror
    cases herror

theorem providerFor_unspoilt (w : Workspace) (host : Host) (path : Path) :
    Unspoilt w (w.providerFor host path) := by
  unfold providerFor
  split
  · exact unspoilt_ok _ _ _
  · simp only
    generalize (if w.documents.contains path then some w.documents else _) = documents?
    cases documents? with
    | none => exact unspoilt_error w _
    | some documents => exact unspoilt_ok _ _ _

/-! ## Requests -/

/-- The project that a file is opened in is live. -/
theorem live_of_openFile {content : String} (h : Consistent w)
    (hopen : w.openFile host path content = (.ok id, next)) :
    ∃ p, next.project? id = some p := by
  have hopens := openFile_opens host w path content
  rw [hopen] at hopens
  cases hopens with
  | held _ hholder =>
    obtain ⟨kind, -, hkind⟩ := holder?_eq_some hholder
    obtain ⟨p, hp, -⟩ := rootKind_eq_some.1 hkind
    exact ⟨p.touch, by rw [project?_modifyProject, if_pos rfl, hp, Option.map_some]⟩
  | @assigned opened documents _ _ =>
    have hopening : Moves host { w with documents } (w.opening path opened documents) :=
      opening_moves w path opened documents
    obtain ⟨p, hp, -⟩ := charter?_eq_some.1
      (charter?_assign (hopening.consistent (h.documents documents)) host path)
    exact ⟨p, hp⟩

/-- After a file has been opened the rebuild of its project cannot fail. -/
theorem serveOpen_unspoilt (h : Consistent w) (host : Host) (arguments : Request.OpenArguments) :
    Unspoilt w (w.serveOpen host arguments) := by
  unfold serveOpen
  split
  · exact unspoilt_error w _
  · rename_i content _
    have hopened := openFile_unspoilt w host arguments.file content
    split
    · rename_i e next hopen
      rw [hopen] at hopened
      exact fun e' _ => hopened e rfl
    · rename_i id next hopen
      obtain ⟨p, hlive⟩ := live_of_openFile h hopen
      have hok := refresh_of_live host hlive
      split
      · rename_i e last hrefresh
        rw [hrefresh] at hok
        cases hok
      · exact unspoilt_ok _ _ _

theorem serveClose_unspoilt (w : Workspace) (file : Path) : Unspoilt w (w.serveClose file) := by
  have hclosed := closeFile_unspoilt w file
  unfold serveClose
  split
  · rename_i e next hclose
    rw [hclose] at hclosed
    exact fun _ _ => hclosed e rfl
  · exact unspoilt_ok _ _ _

theorem serveChange_unspoilt (w : Workspace) (arguments : Request.ChangeArguments) :
    Unspoilt w (w.serveChange arguments) := by
  unfold serveChange
  split
  · exact unspoilt_error w _
  · split
    · exact unspoilt_error w _
    · rename_i version _
      have hedited := editFile_unspoilt w arguments.file
        (.range arguments.start arguments.stop arguments.insertString) version
      simp only
      split
      · rename_i e next hedit
        rw [hedit] at hedited
        exact fun _ _ => hedited e rfl
      · exact unspoilt_ok _ _ _

/-- An owner in the index is live, so its files can be had and its report can be made. -/
theorem serveProjectInfo_unspoilt (h : Consistent w) (host : Host)
    (arguments : Request.ProjectInfoArguments) :
    Unspoilt w (w.serveProjectInfo host arguments) := by
  unfold serveProjectInfo
  split
  · exact unspoilt_error w _
  · rename_i id hfirst
    have howner : id ∈ w.ownership.ownersOf arguments.file :=
      mem_projectsOf.1 (List.mem_of_mem_head? (Option.mem_def.2 hfirst))
    obtain ⟨p, hlive⟩ := h.live_of_owner howner
    obtain ⟨⟨files, hok⟩, p', hp'⟩ := filesOf_isOk host hlive
    generalize w.filesOf host id = answer at hok hp'
    obtain ⟨result, next⟩ := answer
    cases hok
    simp only [hp']
    exact unspoilt_ok _ _ _

theorem withArguments_unspoilt (decoder : Json.Decoder α) (command : Command) (arguments : Json)
    {serve : α → Answer Served} (h : ∀ a, Unspoilt w (serve a)) :
    Unspoilt w (w.withArguments decoder command arguments serve) := by
  unfold withArguments
  split
  · exact unspoilt_error w _
  · exact h _

theorem serveLifecycle_unspoilt (h : Consistent w) (host : Host) (command : Command)
    (arguments : Json) : Unspoilt w (w.serveLifecycle host command arguments) := by
  unfold serveLifecycle
  split
  · exact withArguments_unspoilt _ _ _ (serveOpen_unspoilt h host)
  · exact withArguments_unspoilt _ _ _ (serveClose_unspoilt w)
  · exact withArguments_unspoilt _ _ _ (serveChange_unspoilt w)
  · exact withArguments_unspoilt _ _ _ (serveProjectInfo_unspoilt h host)
  · exact unspoilt_error w _

/-! ## Actions -/

/-- The action asks the language service. -/
def Action.IsQuestion : Action → Prop
  | .request _ asked =>
    ∃ command, Command.ofName? asked.command = some command ∧ command.category ≠ .lifecycle
  | _ => False

/-- Whether an action succeeds, and with which error it fails. -/
def outcome (w : Workspace) (host : Host) : Action → Except Error Unit
  | .openFile path content => (w.openFile host path content).1.map fun _ => ()
  | .closeFile path => (w.closeFile path).1
  | .editFile path change version => (w.editFile path change version).1
  | .notice event => (w.noticeFile host event).1
  | .refresh id => (w.refresh host id).1
  | .refreshAll => (w.refreshAll host).1
  | .filesOf id => (w.filesOf host id).1.map fun _ => ()
  | .providerFor path => (w.providerFor host path).1.map fun _ => ()
  | .request service request => (w.serve service host request).1.map fun _ => ()

/-- The response to a request is a failure where the action is one. -/
theorem outcome_request (session : Session) (service : LanguageService) (host : Host)
    (request : Request) :
    session.workspace.outcome host (.request service request) =
      (session.answer service host request).1.result.map fun _ => () := by
  unfold outcome Session.answer
  simp only
  cases (session.workspace.serve service host request).1 <;> rfl

theorem error_of_map {result : Except Error α} {e : Error}
    (h : (result.map fun _ => ()) = .error e) : result = .error e := by
  cases result with
  | error e' => exact congrArg Except.error (Except.error.inj h)
  | ok a => cases h

theorem serve_unspoilt (h : Consistent w) (host : Host) (service : LanguageService)
    {request : Request} (hplain : ¬ (Action.request service request).IsQuestion) :
    Unspoilt w (w.serve service host request) := by
  unfold serve
  split
  · exact unspoilt_error w _
  · rename_i command hcommand
    split
    · exact serveLifecycle_unspoilt h host command request.arguments
    · rename_i hcategory
      exact absurd ⟨command, hcommand, hcategory⟩ hplain

/-- **An action that fails leaves everything as it was.** -/
theorem act_of_error (h : Consistent w) {action : Action} (hplain : ¬ action.IsQuestion)
    {e : Error} (herror : w.outcome host action = .error e) : w.act host action = w := by
  cases action with
  | openFile path content => exact openFile_unspoilt w host path content e (error_of_map herror)
  | closeFile path => exact closeFile_unspoilt w path e herror
  | editFile path change version => exact editFile_unspoilt w path change version e herror
  | notice event => exact noticeFile_unspoilt w host event e herror
  | refresh id => exact refresh_unspoilt w host id e herror
  | refreshAll => exact absurd ((refreshEach_isOk w host _).symm.trans herror) nofun
  | filesOf id => exact filesOf_unspoilt w host id e (error_of_map herror)
  | providerFor path => exact providerFor_unspoilt w host path e (error_of_map herror)
  | request service request => exact serve_unspoilt h host service hplain e (error_of_map herror)

/-- **Failures change nothing.**  In every state of a run an action that fails, be it an event, a
question to the workspace, or a request with a lifecycle command or an unknown one, leaves the
documents, the projects, the index and the numbers as they were, and so does such a request to a
session.  Bringing all projects up to date does not fail. -/
theorem failures_change_nothing (settings : Settings) (steps : List (Host × Action))
    (host : Host) :
    let w := run settings steps
    (∀ action, ¬ action.IsQuestion → ∀ e, w.outcome host action = .error e →
      w.act host action = w) ∧
    (∀ session : Session, session.workspace = w → ∀ service request,
      ¬ (Action.request service request).IsQuestion → ∀ e,
        (session.answer service host request).1.result = .error e →
          (session.answer service host request).2.workspace = w) ∧
    (w.refreshAll host).1 = .ok () := by
  have h := run_consistent settings steps
  refine ⟨fun action hplain e => act_of_error h hplain, ?_, refreshEach_isOk _ host _⟩
  rintro session hsession service request hplain e hresult
  rw [workspace_answer, hsession]
  refine act_of_error h hplain (e := e) ?_
  rw [← hsession, outcome_request, hresult]
  rfl

/-- A file is opened, and its text is at the first version. -/
def opened : List (Host × Action) :=
  [(Memory.empty.host, .openFile ((Path.mk .slash []).join "p/a.ts") "let a;")]

/-- A change that comes with the version that the file has already is refused. -/
theorem outdated_change_changes_nothing :
    let action := .editFile ((Path.mk .slash []).join "p/a.ts") (.full "") 1
    (run .default opened).outcome Memory.empty.host action =
        .error (.versionOrderingViolation "/p/a.ts" 1 1) ∧
      (run .default opened).act Memory.empty.host action = run .default opened := by
  have herror : (run .default opened).outcome Memory.empty.host
      (.editFile ((Path.mk .slash []).join "p/a.ts") (.full "") 1) =
        .error (.versionOrderingViolation "/p/a.ts" 1 1) := by
    decide +kernel
  exact ⟨herror, (failures_change_nothing .default opened _).1 _ not_false _ herror⟩

end Codebase.Workspace
