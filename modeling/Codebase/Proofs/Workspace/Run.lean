import Codebase.Proofs.Workspace.Move
import Codebase.Session
/-!
# Runs of a workspace

An `Action` is anything that can be asked of a workspace from outside: the events of an editor and
of the host, a rebuild, and a request to a session.  A run takes actions in any order, and the host
may be a different one for each of them.

* `act_reaches` — every action is a change of documents followed by elementary moves.
* `run_induction` — what holds of a new workspace and is kept by every action of a run holds at
  the end of the run.
-/

namespace Codebase.Workspace

inductive Action where
  | openFile (path : Path) (content : String)
  | closeFile (path : Path)
  | editFile (path : Path) (change : TextChange) (version : Nat)
  /-- The host reports a change of one file. -/
  | notice (event : FileEvent)
  | refresh (id : ProjectId)
  | refreshAll
  | filesOf (id : ProjectId)
  | providerFor (path : Path)
  /-- A session is given a request. -/
  | request (service : LanguageService) (request : Request)

/-- The workspace after an action, whatever it answers. -/
def act (w : Workspace) (host : Host) : Action → Workspace
  | .openFile path content => (w.openFile host path content).2
  | .closeFile path => (w.closeFile path).2
  | .editFile path change version => (w.editFile path change version).2
  | .notice event => (w.noticeFile host event).2
  | .refresh id => (w.refresh host id).2
  | .refreshAll => (w.refreshAll host).2
  | .filesOf id => (w.filesOf host id).2
  | .providerFor path => (w.providerFor host path).2
  | .request service request => (w.serve service host request).2

/-- A new workspace after some actions, each with the host as it is then. -/
def run (settings : Settings) (steps : List (Host × Action)) : Workspace :=
  steps.foldl (fun w step => w.act step.1 step.2) (new settings)

/-- A request to a session is an action on its workspace. -/
theorem workspace_answer (session : Session) (service : LanguageService) (host : Host)
    (request : Request) :
    (session.answer service host request).2.workspace =
      session.workspace.act host (.request service request) := rfl

theorem run_concat (settings : Settings) (steps : List (Host × Action)) (step : Host × Action) :
    run settings (steps ++ [step]) = (run settings steps).act step.1 step.2 := by
  unfold run
  rw [List.foldl_append]
  rfl

/-- An invariant of every action that a run takes holds at its end. -/
theorem run_induction {settings : Settings} {allowed : Action → Prop} {inv : Workspace → Prop}
    (hnew : inv (new settings))
    (hact : ∀ w host action, allowed action → inv w → inv (w.act host action))
    (steps : List (Host × Action)) (hsteps : ∀ step ∈ steps, allowed step.2) :
    inv (run settings steps) := by
  unfold run
  generalize new settings = w at hnew
  induction steps generalizing w with
  | nil => exact hnew
  | cons step rest ih =>
    rw [List.forall_mem_cons] at hsteps
    exact ih hsteps.2 (w.act step.1 step.2) (hact w step.1 step.2 hsteps.1 hnew)

/-! ## Actions as moves -/

/-- A change of documents, then elementary moves. -/
def Reaches (host : Host) (w w' : Workspace) : Prop :=
  ∃ documents, Moves host { w with documents } w'

variable {host : Host} {w w' w'' : Workspace}

theorem Moves.reaches (h : Moves host w w') : Reaches host w w' := ⟨w.documents, h⟩

theorem Reaches.trans_moves (h : Reaches host w w') (h' : Moves host w' w'') :
    Reaches host w w'' := by
  obtain ⟨documents, hw⟩ := h
  exact ⟨documents, hw.trans h'⟩

theorem openFile_reaches (host : Host) (w : Workspace) (path : Path) (content : String) :
    Reaches host w (w.openFile host path content).2 := by
  have hopens := openFile_opens host w path content
  generalize w.openFile host path content = answer at hopens ⊢
  cases hopens with
  | refused e => exact Moves.reaches .refl
  | held hopened hholder =>
    exact ⟨_, (opening_moves w path _ _).trans (Move.touch _ _).moves⟩
  | assigned hopened hnone =>
    exact ⟨_, (opening_moves w path _ _).trans (assign_moves _ path)⟩

theorem closeFile_reaches (host : Host) (w : Workspace) (path : Path) :
    Reaches host w (w.closeFile path).2 := by
  cases h : w.documents.close path with
  | error e =>
    unfold closeFile
    rw [h]
    exact Moves.reaches .refl
  | ok documents => exact ⟨documents, closeFile_moves h⟩

theorem editFile_reaches (host : Host) (w : Workspace) (path : Path) (change : TextChange)
    (version : Nat) : Reaches host w (w.editFile path change version).2 := by
  unfold editFile
  split
  · exact Moves.reaches .refl
  · exact ⟨_, touchOwners_moves _ path⟩

/-- A report that a file was modified changes nothing, or the text of a closed document, whose
owners are dirty if it reads differently. -/
theorem fileModified_eq (host : Host) (w : Workspace) (path : Path) :
    (w.fileModified host path).2 = w ∨
      ∃ text changed documents, host.read path = .ok text ∧
        w.documents.refresh path text = .ok (changed, documents) ∧
        (w.fileModified host path).2 =
          if changed then { w with documents }.touchOwners path else { w with documents } := by
  unfold fileModified
  split
  · split
    · exact .inl rfl
    · rename_i text hread
      cases hrefresh : w.documents.refresh path text with
      | error e => exact .inl rfl
      | ok result => exact .inr ⟨text, result.1, result.2, hread, hrefresh, rfl⟩
  · exact .inl rfl

theorem fileModified_reaches (host : Host) (w : Workspace) (path : Path) :
    Reaches host w (w.fileModified host path).2 := by
  rcases fileModified_eq host w path with hsame | ⟨text, changed, documents, -, -, hnext⟩
  · rw [hsame]
    exact Moves.reaches .refl
  · rw [hnext]
    refine ⟨documents, ?_⟩
    split
    · exact touchOwners_moves _ path
    · exact .refl

theorem noticeFile_reaches (host : Host) (w : Workspace) (event : FileEvent) :
    Reaches host w (w.noticeFile host event).2 := by
  unfold noticeFile
  split
  · exact (manifestEvent_moves w event.path event.change).reaches
  · split
    · exact (fileCreated_moves w event.path).reaches
    · exact fileModified_reaches host w event.path
    · exact (fileDeleted_moves w event.path).reaches

/-! ## Requests -/

/-- A request to open a file changes nothing, or opens it and rebuilds its project. -/
theorem serveOpen_eq (host : Host) (w : Workspace) (arguments : Request.OpenArguments) :
    (w.serveOpen host arguments).2 = w ∨
      ∃ content id next, w.openFile host arguments.file content = (.ok id, next) ∧
        (w.serveOpen host arguments).2 = (next.refresh host id).2 := by
  unfold serveOpen
  split
  · exact .inl rfl
  · rename_i content _
    have hopens := openFile_opens host w arguments.file content
    split
    · rename_i e next hopen
      rw [hopen] at hopens
      cases hopens
      exact .inl rfl
    · rename_i id next hopen
      refine .inr ⟨content, id, next, hopen, ?_⟩
      split
      · rename_i e last h
        rw [h]
      · rename_i last h
        rw [h]

theorem serveClose_eq (w : Workspace) (file : Path) :
    (w.serveClose file).2 = (w.closeFile file).2 := by
  unfold serveClose
  split
  · rename_i e next h
    rw [h]
  · rename_i next h
    rw [h]

/-- A change request changes nothing or edits the file with some version. -/
theorem serveChange_eq (w : Workspace) (arguments : Request.ChangeArguments) :
    (w.serveChange arguments).2 = w ∨
      ∃ change version,
        (w.serveChange arguments).2 = (w.editFile arguments.file change version).2 := by
  unfold serveChange
  split
  · exact .inl rfl
  · split
    · exact .inl rfl
    · rename_i version _
      refine .inr ⟨.range arguments.start arguments.stop arguments.insertString, version, ?_⟩
      simp only
      split
      · rename_i e next h
        rw [h]
      · rename_i next h
        rw [h]

theorem serveProjectInfo_inquiries (asked : Option Path) (host : Host) (w : Workspace)
    (arguments : Request.ProjectInfoArguments) :
    Inquiries asked host w (w.serveProjectInfo host arguments).2 := by
  unfold serveProjectInfo
  split
  · exact .refl
  · rename_i id _
    have hfiles := filesOf_inquiries asked host w id
    split
    · rename_i e next h
      rw [h] at hfiles
      exact hfiles
    · rename_i files next h
      rw [h] at hfiles
      split <;> exact hfiles

theorem refreshTargets_inquiries (asked : Option Path) (host : Host) (w : Workspace)
    (ids : List ProjectId) : Inquiries asked host w (w.refreshTargets host ids).2 := by
  induction ids generalizing w with
  | nil => exact .refl
  | cons id rest ih =>
    have hid := refresh_inquiries asked host w id
    unfold refreshTargets
    split
    · rename_i e next h
      rw [h] at hid
      exact hid
    · rename_i next h
      rw [h] at hid
      exact hid.trans (ih next)

theorem targetsFor_inquiries (host : Host) (w : Workspace) (path : Path) :
    Inquiries (some path) host w (w.targetsFor host path).2 := by
  unfold targetsFor
  split
  · have hprovider : Inquiries (some path) host w _ := .single (.provide path rfl)
    split
    · rename_i e next h
      rw [h] at hprovider
      exact hprovider
    · rename_i id next h
      rw [h] at hprovider
      exact hprovider
  · exact .refl

theorem serveLanguage_inquiries (service : LanguageService) (host : Host) (w : Workspace)
    (command : Command) (arguments : Request.LocationArguments) :
    Inquiries (some arguments.file) host w (w.serveLanguage service host command arguments).2 := by
  unfold serveLanguage
  have htargets := targetsFor_inquiries host w arguments.file
  split
  · rename_i e next h
    rw [h] at htargets
    exact htargets
  · rename_i targets next h
    rw [h] at htargets
    have hrefresh := htargets.trans (refreshTargets_inquiries _ host next targets)
    split
    · rename_i e last h'
      rw [h'] at hrefresh
      exact hrefresh
    · rename_i last h'
      rw [h'] at hrefresh
      split <;> exact hrefresh

/-- The file that a request asks to open. -/
def openedBy? (request : Request) : Option Path :=
  match Command.ofName? request.command, Request.openArguments request.arguments with
  | some .open, .ok arguments => some arguments.file
  | _, _ => none

/-- The file that a request asks to close. -/
def closedBy? (request : Request) : Option Path :=
  match Command.ofName? request.command, Request.fileArgument request.arguments with
  | some .close, .ok file => some file
  | _, _ => none

/-- The file that a question to the language service names. -/
def askedAbout? (request : Request) : Option Path :=
  match Command.ofName? request.command, Request.locationArguments request.arguments with
  | some command, .ok arguments =>
    if command.category = .lifecycle then none else some arguments.file
  | _, _ => none

/-- The document that an action closes. -/
def Action.closed? : Action → Option Path
  | .closeFile path => some path
  | .request _ asked => closedBy? asked
  | _ => none

/-- The path that an action asks about, which may get a project that serves it. -/
def Action.asked? : Action → Option Path
  | .providerFor path => some path
  | .request _ asked => askedAbout? asked
  | _ => none

/-- What a request to a workspace comes to. -/
inductive Serves (host : Host) (w : Workspace) (request : Request) : Workspace → Prop
  /-- A file is opened and its project rebuilt. -/
  | opening {id : ProjectId} {next : Workspace} (path : Path) (content : String)
      (hasks : openedBy? request = some path)
      (hopen : w.openFile host path content = (.ok id, next)) :
      Serves host w request (next.refresh host id).2
  | closing (file : Path) (hasks : closedBy? request = some file) :
      Serves host w request (w.closeFile file).2
  | editing (file : Path) (change : TextChange) (version : Nat) :
      Serves host w request (w.editFile file change version).2
  /-- A question is answered; so is a request that is refused, in no steps. -/
  | asking {next : Workspace} (h : Inquiries (askedAbout? request) host w next) :
      Serves host w request next

theorem Serves.nothing {request : Request} : Serves host w request w := .asking .refl

theorem decodeArguments_eq_ok {α : Type} {decoder : Json.Decoder α} {command : Command}
    {arguments : Json} {a : α} (h : Request.decodeArguments decoder command arguments = .ok a) :
    decoder arguments = .ok a := by
  unfold Request.decodeArguments at h
  split at h
  · rename_i b hb
    cases h
    exact hb
  · cases h

theorem withArguments_serves {α : Type} {request : Request} (decoder : Json.Decoder α)
    (command : Command) (serve : α → Answer Served)
    (h : ∀ a, decoder request.arguments = .ok a → Serves host w request (serve a).2) :
    Serves host w request (w.withArguments decoder command request.arguments serve).2 := by
  unfold withArguments
  split
  · exact .nothing
  · rename_i a ha
    exact h a (decodeArguments_eq_ok ha)

theorem serve_serves (service : LanguageService) (host : Host) (w : Workspace)
    (request : Request) : Serves host w request (w.serve service host request).2 := by
  unfold serve
  split
  · exact .nothing
  · rename_i command hcommand
    split
    · unfold serveLifecycle
      split
      · refine withArguments_serves _ _ _ fun arguments hdecoded => ?_
        rcases serveOpen_eq host w arguments with hsame | ⟨content, id, next, hopen, hnext⟩
        · rw [hsame]
          exact .nothing
        · rw [hnext]
          refine .opening arguments.file content ?_ hopen
          unfold openedBy?
          rw [hcommand, hdecoded]
      · refine withArguments_serves _ _ _ fun file hdecoded => ?_
        rw [serveClose_eq]
        refine .closing file ?_
        unfold closedBy?
        rw [hcommand, hdecoded]
      · refine withArguments_serves _ _ _ fun arguments _ => ?_
        rcases serveChange_eq w arguments with hsame | ⟨change, version, hedit⟩
        · rw [hsame]
          exact .nothing
        · rw [hedit]
          exact .editing _ _ _
      · exact withArguments_serves _ _ _ fun arguments _ =>
          .asking (serveProjectInfo_inquiries _ host w arguments)
      · exact .nothing
    · rename_i hquestion
      refine withArguments_serves _ _ _ fun arguments hdecoded => .asking ?_
      have hasked : askedAbout? request = some arguments.file := by
        unfold askedAbout?
        rw [hcommand, hdecoded]
        exact if_neg hquestion
      rw [hasked]
      exact serveLanguage_inquiries service host w command arguments

theorem serve_reaches (service : LanguageService) (host : Host) (w : Workspace)
    (request : Request) : Reaches host w (w.serve service host request).2 := by
  have hserves := serve_serves service host w request
  generalize (w.serve service host request).2 = next at hserves ⊢
  cases hserves with
  | opening path content _ hopen =>
    have hreaches := openFile_reaches host w path content
    rw [hopen] at hreaches
    exact hreaches.trans_moves (refresh_moves host _ _)
  | closing file => exact closeFile_reaches host w file
  | editing file change version => exact editFile_reaches host w file change version
  | asking h => exact h.moves.reaches

/-- **Every action is a change of documents followed by elementary moves.** -/
theorem act_reaches (host : Host) (w : Workspace) (action : Action) :
    Reaches host w (w.act host action) := by
  cases action with
  | openFile path content => exact openFile_reaches host w path content
  | closeFile path => exact closeFile_reaches host w path
  | editFile path change version => exact editFile_reaches host w path change version
  | notice event => exact noticeFile_reaches host w event
  | refresh id => exact (refresh_moves host w id).reaches
  | refreshAll => exact (refreshEach_inquiries none host w _).moves.reaches
  | filesOf id => exact (filesOf_inquiries none host w id).moves.reaches
  | providerFor path => exact (providerFor_moves host w path).reaches
  | request service request => exact serve_reaches service host w request

end Codebase.Workspace
