import Codebase.Language
import Codebase.Request
import Codebase.Workspace.Events
/-!
# Sessions

A session takes structured requests.  It finds the project that a request concerns, brings it up
to date, refuses what the project does not serve, and asks the language service.  Every request
is answered and logged; a failure is an answer like any other.
-/

namespace Codebase

/-- What a request came to. -/
inductive Outcome where
  /-- It was served, by the named project if one took part. -/
  | success (project : Option String)
  | failure (error : Error)

/-- A line of the log. -/
structure LogEntry where
  seq : Nat
  command : String
  outcome : Outcome

/-- The answer to a request; a success may have a body. -/
structure Response where
  seq : Nat
  requestSeq : Nat
  command : String
  result : Except Error (Option Json)

structure Session where
  workspace : Workspace
  /-- The number of requests so far. -/
  seq : Nat
  /-- The log, in the order of the requests. -/
  log : List LogEntry

namespace Outcome

/-- A failure by gating is a rejection. -/
def isRejection : Outcome → Bool
  | success _ => false
  | failure error => error.isRejection

def status : Outcome → String
  | success _ => "success"
  | failure error => if error.isRejection then "rejected" else "failed"

end Outcome

/-- What a request that was served leads to. -/
structure Served where
  body : Option Json
  project : Option String

def Served.empty : Served := ⟨none, none⟩

namespace Workspace

open Request

/-! ## Documents and projects -/

def serveOpen (w : Workspace) (host : Host) (arguments : OpenArguments) : Answer Served :=
  match (arguments.fileContent.map Except.ok).getD (host.read arguments.file) with
  | .error e => (.error e, w)
  | .ok content =>
    match w.openFile host arguments.file content with
    | (.error e, w) => (.error e, w)
    | (.ok id, w) =>
      match w.refresh host id with
      | (.error e, w) => (.error e, w)
      | (.ok (), w) => (.ok .empty, w)

def serveClose (w : Workspace) (file : Path) : Answer Served :=
  match w.closeFile file with
  | (.error e, w) => (.error e, w)
  | (.ok (), w) => (.ok .empty, w)

/-- The version of a change: the one that it comes with, or the next one. -/
def changeVersion (arguments : ChangeArguments) (current : Nat) : Except Error Nat :=
  match arguments.version with
  | some version => .ok version
  | none =>
    if current < Document.versionLimit then .ok (current + 1)
    else .error (.versionOrderingViolation arguments.file.text current current)

def serveChange (w : Workspace) (arguments : ChangeArguments) : Answer Served :=
  match w.documents.get? arguments.file with
  | none => (.error (.unknownDocument arguments.file.text), w)
  | some document =>
    match changeVersion arguments document.version with
    | .error e => (.error e, w)
    | .ok version =>
      let change := .range arguments.start arguments.stop arguments.insertString
      match w.editFile arguments.file change version with
      | (.error e, w) => (.error e, w)
      | (.ok (), w) => (.ok .empty, w)

/-- The report on a project. -/
def projectInfo (project : Project) (files : Option (List Path)) : Json :=
  .obj ([
    ("configFileName", .str ((project.manifestPath?.map Path.text).getD project.name)),
    ("projectKind", .str project.kind.name),
    ("capability", .str project.capability.name),
    ("languageServiceDisabled", .bool (!project.capability.isSemantic))] ++
    match files with
    | some files => [("fileNames", .array (files.map Path.toJson))]
    | none => [])

def serveProjectInfo (w : Workspace) (host : Host) (arguments : ProjectInfoArguments) :
    Answer Served :=
  match w.firstOwner? arguments.file with
  | none => (.error (.noProject arguments.file.text), w)
  | some id =>
    match w.filesOf host id with
    | (.error e, w) => (.error e, w)
    | (.ok files, w) =>
      match w.project? id with
      | none => (.error (.unknownProject id.name), w)
      | some project =>
        let listed := if arguments.needFileNameList then some files else none
        (.ok ⟨some (projectInfo project listed), some project.name⟩, w)

/-- Decodes the arguments of a request and serves it with them. -/
def withArguments {α : Type} (w : Workspace) (decoder : Json.Decoder α) (command : Command)
    (arguments : Json) (serve : α → Answer Served) : Answer Served :=
  match decodeArguments decoder command arguments with
  | .error e => (.error e, w)
  | .ok a => serve a

def serveLifecycle (w : Workspace) (host : Host) (command : Command) (arguments : Json) :
    Answer Served :=
  match command with
  | .open => w.withArguments openArguments command arguments (w.serveOpen host)
  | .close => w.withArguments fileArgument command arguments w.serveClose
  | .change => w.withArguments changeArguments command arguments w.serveChange
  | .projectInfo =>
    w.withArguments projectInfoArguments command arguments (w.serveProjectInfo host)
  | other => (.error (.invalidRequest ("'" ++ other.name ++ "' is not a lifecycle command")), w)

/-! ## Questions to the language service -/

/-- The projects to serve `path`, at least one. -/
def targetsFor (w : Workspace) (host : Host) (path : Path) : Answer (List ProjectId) :=
  match w.projectsOf path with
  | [] =>
    match w.providerFor host path with
    | (.error e, w) => (.error e, w)
    | (.ok id, w) => (.ok [id], w)
  | ids => (.ok ids, w)

/-- Brings every project of a list up to date. -/
def refreshTargets (w : Workspace) (host : Host) : List ProjectId → Answer Unit
  | [] => (.ok (), w)
  | id :: rest =>
    match w.refresh host id with
    | (.error e, w) => (.error e, w)
    | (.ok (), w) => w.refreshTargets host rest

/-- Asks the service about a project that is up to date. -/
def ask (w : Workspace) (service : LanguageService) (target : ProjectId) (request : Question) :
    Except Error Served := do
  let gate ← Gate.ofProject w target
  Command.permit request.command gate.capability gate.project
  let program ← w.program target
  let body ← gate.ask service program request
  return ⟨some body, some program.project⟩

/-- Asks the service about a file, in the first project that has it. -/
def serveLanguage (w : Workspace) (service : LanguageService) (host : Host) (command : Command)
    (arguments : LocationArguments) : Answer Served :=
  match w.targetsFor host arguments.file with
  | (.error e, w) => (.error e, w)
  | (.ok targets, w) =>
    match w.refreshTargets host targets with
    | (.error e, w) => (.error e, w)
    | (.ok (), w) =>
      match targets with
      | [] => (.error (.noProject arguments.file.text), w)
      | target :: _ =>
        (w.ask service target ⟨command, arguments.file, arguments.location?⟩, w)

/-- Serves a request. -/
def serve (w : Workspace) (service : LanguageService) (host : Host) (request : Request) :
    Answer Served :=
  match Command.ofName? request.command with
  | none => (.error (.invalidRequest ("unknown command '" ++ request.command ++ "'")), w)
  | some command =>
    if command.category = .lifecycle then w.serveLifecycle host command request.arguments
    else
      w.withArguments locationArguments command request.arguments
        (w.serveLanguage service host command)

end Workspace

namespace Session

def new (settings : Settings) : Session := ⟨Workspace.new settings, 0, []⟩

/-- Answers and logs a request. -/
def answer (session : Session) (service : LanguageService) (host : Host) (request : Request) :
    Response × Session :=
  let seq := session.seq + 1
  let (result, workspace) := session.workspace.serve service host request
  let outcome := match result with
    | .ok served => .success served.project
    | .error e => .failure e
  (⟨seq, request.seq, request.command, result.map Served.body⟩,
    ⟨workspace, seq, session.log ++ [⟨request.seq, request.command, outcome⟩]⟩)

/-- Answers a command under the next number. -/
def answerCommand (session : Session) (service : LanguageService) (host : Host)
    (command : Command) (arguments : Json) : Response × Session :=
  session.answer service host ⟨session.seq + 1, command.name, arguments⟩

/-- The log entries of what gating refused. -/
def refusals (session : Session) : List LogEntry :=
  session.log.filter fun entry => entry.outcome.isRejection

def clearLog (session : Session) : Session := { session with log := [] }

end Session

end Codebase
