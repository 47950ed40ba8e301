/-!
# Failures of the codebase service

Every failure is a value that says what went wrong; its wording lives in `Error.message` alone
and its stable tag in `Error.kind`.  Only `unsupportedInCapabilityMode` is a refusal by
capability gating; every other constructor reports bad input or a broken collaborator.
-/

namespace Codebase

inductive Error where
  /-- A semantic command met a project that serves syntax only. -/
  | unsupportedInCapabilityMode (command project : String)
  | configurationLoadFailure (manifest reason : String)
  | resolutionFailure (source specifier : String)
  /-- An edit whose version does not exceed the current one, or a version past the ceiling. -/
  | versionOrderingViolation (path : String) (current attempted : Nat)
  | unknownDocument (path : String)
  | documentNotOpen (path : String)
  | unknownProject (id : String)
  | noProject (path : String)
  | invalidEdit (path reason : String)
  | invalidPath (text : String)
  | languageService (reason : String)
  | invalidRequest (reason : String)
  | serviceStopped
  | io (reason : String)
  | json (reason : String)
  deriving DecidableEq, Repr

namespace Error

/-- The tag that a structured report carries. -/
def kind : Error → String
  | unsupportedInCapabilityMode .. => "unsupportedInCapabilityMode"
  | configurationLoadFailure .. => "configurationLoadFailure"
  | resolutionFailure .. => "resolutionFailure"
  | versionOrderingViolation .. => "versionOrderingViolation"
  | unknownDocument _ => "unknownDocument"
  | documentNotOpen _ => "documentNotOpen"
  | unknownProject _ => "unknownProject"
  | noProject _ => "noProject"
  | invalidEdit .. => "invalidEdit"
  | invalidPath _ => "invalidPath"
  | languageService _ => "languageService"
  | invalidRequest _ => "invalidRequest"
  | serviceStopped => "serviceStopped"
  | io _ => "io"
  | json _ => "json"

/-- The wording of a failure. -/
def message : Error → String
  | unsupportedInCapabilityMode command project =>
    "command '" ++ command ++ "' is not supported by project " ++ project ++ " in syntactic mode"
  | configurationLoadFailure manifest reason =>
    "failed to load configuration " ++ manifest ++ ": " ++ reason
  | resolutionFailure source specifier =>
    "cannot resolve '" ++ specifier ++ "' from " ++ source
  | versionOrderingViolation path current attempted =>
    "version " ++ toString attempted ++ " of " ++ path ++ " is not newer than current version "
      ++ toString current
  | unknownDocument path => "unknown document: " ++ path
  | documentNotOpen path => "document is not open: " ++ path
  | unknownProject id => "unknown project: " ++ id
  | noProject path => "no project contains " ++ path
  | invalidEdit path reason => "invalid edit for " ++ path ++ ": " ++ reason
  | invalidPath text => "invalid path: " ++ text
  | languageService reason => "language service error: " ++ reason
  | invalidRequest reason => "invalid request: " ++ reason
  | serviceStopped => "project service has stopped"
  | io reason => "I/O error: " ++ reason
  | json reason => "JSON error: " ++ reason

/-- A refusal by capability gating, as opposed to bad input or a broken collaborator. -/
def isRejection : Error → Bool
  | unsupportedInCapabilityMode .. => true
  | _ => false

end Error

end Codebase
