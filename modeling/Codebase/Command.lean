import Codebase.Error
import Codebase.Json.Decode
/-!
# Commands and capabilities

A command is of one of three classes: it manages documents and projects, it can be answered from
one syntax tree, or it needs what files mean together.  A project serves syntax only or
everything; `Command.permit` refuses exactly the semantic commands of a project that serves
syntax only.
-/

namespace Codebase

/-- What a project serves. -/
inductive Capability where
  | fullSemantic
  | syntacticOnly
  deriving DecidableEq, Repr

namespace Capability

def isSemantic : Capability → Bool
  | fullSemantic => true
  | syntacticOnly => false

/-- The name in a report. -/
def name : Capability → String
  | fullSemantic => "fullSemantic"
  | syntacticOnly => "syntacticOnly"

/-- The name in prose. -/
def title : Capability → String
  | fullSemantic => "full-semantic"
  | syntacticOnly => "syntactic-only"

def all : List Capability := [fullSemantic, syntacticOnly]

def decoder : Json.Decoder Capability :=
  Json.Decoder.variant (all.map fun c => (c.name, c)) Json.Decoder.onlyNull

end Capability

/-- What a command needs. -/
inductive CommandClass where
  /-- Documents and projects, handled by the session itself. -/
  | lifecycle
  /-- One syntax tree. -/
  | syntactic
  /-- Bindings and types across files. -/
  | semantic
  deriving DecidableEq, Repr

inductive Command where
  | open
  | close
  | change
  | projectInfo
  | syntacticDiagnosticsSync
  | navTree
  | outliningSpans
  | format
  | braceMatching
  | completions
  | completionEntryDetails
  | definitionAndBoundSpan
  | references
  | rename
  | quickInfo
  | semanticDiagnosticsSync
  | suggestionDiagnosticsSync
  deriving DecidableEq, Repr

namespace Command

/-- The name in a request. -/
def name : Command → String
  | .open => "open"
  | .close => "close"
  | .change => "change"
  | .projectInfo => "projectInfo"
  | .syntacticDiagnosticsSync => "syntacticDiagnosticsSync"
  | .navTree => "navtree"
  | .outliningSpans => "outliningSpans"
  | .format => "format"
  | .braceMatching => "braceMatching"
  | .completions => "completions"
  | .completionEntryDetails => "completionEntryDetails"
  | .definitionAndBoundSpan => "definitionAndBoundSpan"
  | .references => "references"
  | .rename => "rename"
  | .quickInfo => "quickinfo"
  | .semanticDiagnosticsSync => "semanticDiagnosticsSync"
  | .suggestionDiagnosticsSync => "suggestionDiagnosticsSync"

def all : List Command := [
  .open, .close, .change, .projectInfo, .syntacticDiagnosticsSync, .navTree, .outliningSpans,
  .format, .braceMatching, .completions, .completionEntryDetails, .definitionAndBoundSpan,
  .references, .rename, .quickInfo, .semanticDiagnosticsSync, .suggestionDiagnosticsSync]

def ofName? (name : String) : Option Command := all.find? fun c => c.name = name

def category : Command → CommandClass
  | .open | .close | .change | .projectInfo => .lifecycle
  | .syntacticDiagnosticsSync | .navTree | .outliningSpans | .format | .braceMatching => .syntactic
  | _ => .semantic

def isSemantic (command : Command) : Bool := command.category = .semantic

def decoder : Json.Decoder Command :=
  Json.Decoder.variant (all.map fun c => (c.name, c)) Json.Decoder.onlyNull

end Command

/-- Refuses a semantic command of a project that serves syntax only. -/
def Command.permit (command : Command) (capability : Capability) (project : String) :
    Except Error Unit :=
  if command.isSemantic && !capability.isSemantic then
    .error (.unsupportedInCapabilityMode command.name project)
  else .ok ()

end Codebase
