import Codebase.Workspace
/-!
# Language services

A language service answers a command about one file from a program: the files of a project that
is up to date, with their texts.  `Gate.ask` lets a command through only when the project
serves it, so a service never sees what its project does not serve.

`LanguageService.echo` answers with what it was given.
-/

namespace Codebase

/-- What a language service is shown of a project. -/
structure Program where
  project : String
  capability : Capability
  files : List Path
  text? : Path → Option String

structure Question where
  command : Command
  file : Path
  location : Option Location

/-- Answers a request from a program. -/
abbrev LanguageService := Program → Question → Except Error Json

/-- The program of a project that is up to date. -/
def Workspace.program (w : Workspace) (id : ProjectId) : Except Error Program :=
  match w.project? id with
  | none => .error (.unknownProject id.name)
  | some project =>
    match project.files? with
    | none => .error (.invalidRequest ("project " ++ project.name ++ " is not up to date"))
    | some files => .ok ⟨project.name, project.capability, files, w.documents.text?⟩

/-- The capability and the name of one project, at the time when the gate was made. -/
structure Gate where
  capability : Capability
  project : String
  deriving DecidableEq

namespace Gate

/-- The gate of a live project. -/
def ofProject (w : Workspace) (id : ProjectId) : Except Error Gate :=
  match w.project? id with
  | none => .error (.unknownProject id.name)
  | some project => .ok ⟨project.capability, project.name⟩

/-- Asks a service, unless the project does not serve the command. -/
def ask (gate : Gate) (service : LanguageService) (program : Program)
    (request : Question) : Except Error Json :=
  match Command.permit request.command gate.capability gate.project with
  | .error e => .error e
  | .ok () => service program request

def semanticDiagnostics (gate : Gate) (service : LanguageService) (program : Program)
    (file : Path) : Except Error Json :=
  gate.ask service program ⟨.semanticDiagnosticsSync, file, none⟩

def syntacticDiagnostics (gate : Gate) (service : LanguageService) (program : Program)
    (file : Path) : Except Error Json :=
  gate.ask service program ⟨.syntacticDiagnosticsSync, file, none⟩

end Gate

/-- A service that reports the program and the request that it was given. -/
def LanguageService.echo : LanguageService := fun program request =>
  if request.file ∈ program.files then
    .ok (.obj [
      ("capability", .str program.capability.name),
      ("command", .str request.command.name),
      ("file", request.file.toJson),
      ("files", .array (program.files.map Path.toJson)),
      ("location", .orNull Location.toJson request.location),
      ("project", .str program.project),
      ("textLength", .nat ((program.text? request.file).getD "").length)])
  else
    .error (.languageService
      (request.file.text ++ " is not part of project " ++ program.project))

end Codebase
