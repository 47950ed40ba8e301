import Codebase.Session.Report
import Codebase.Worker
/-!
# Scenarios

A scenario is a recorded sequence of requests and of reports about files, together with the
settings of the service that it is for.  `Scenario.play` takes a worker through it; every step
gives one line.

A step says by its `type` what it is, so it is read as a whole before it is decoded.  Hence all of
its literals have to denote something and its nesting is bounded, also where nothing of it is
used.
-/

namespace Codebase

inductive Scenario.Step where
  | request (request : Request)
  | fileEvent (event : FileEvent)

structure Scenario where
  settings : Settings
  steps : List Scenario.Step

namespace Scenario

open Json Decoder

/-- The nesting of a text that is read as a whole. -/
def depthLimit : Nat := 127

/-- The nesting of a step, which lies in the list of steps of the scenario. -/
def stepDepthLimit : Nat := depthLimit - 2

def Step.decoder : Decoder Step := fun v =>
  if v.isSound ∧ v.depth ≤ stepDepthLimit then
    tagged [
      ("request", Request.decoder.map .request),
      ("fileEvent", (FileEvent.decoder nullOrEmpty).map .fileEvent)] v
  else .error .malformed

def decoder : Decoder Scenario :=
  record [
    field "config" .defaulted Settings.decoder fun settings d => { d with settings },
    field "steps" .required (list Step.decoder) fun steps d => { d with steps }]
    ⟨Settings.default, []⟩

/-- Reads the text of a scenario. -/
def read (text : String) : Except Flaw Scenario := decodeText decoder text

/-! ## Playing -/

/-- What a step asks of the worker. -/
def Step.call : Step → Call
  | request r => .request r
  | fileEvent e => .fileEvent e

/-- The line of an event. -/
def eventLine (event : FileEvent) (result : Except Error Unit) : Json :=
  .obj ([("event", event.toJson), ("success", .bool result.isOk)] ++
    match result with
    | .ok () => []
    | .error e => [("error", e.toJson)])

/-- The line of a step; a request without a response has none. -/
def Step.line? : Step → Reply → Option Json
  | request _, .response response => some response.toJson
  | request _, _ => none
  | fileEvent event, .done result => some (eventLine event result)
  | fileEvent event, _ => some (eventLine event (.error .serviceStopped))

/-- What came of a scenario. -/
structure Report where
  lines : List Json
  /-- Every step has its line. -/
  isComplete : Bool

/-- Takes a worker through the steps; a step without a line ends it. -/
def playFrom (service : LanguageService) (host : Host) (worker : Worker) : List Step → Report
  | [] => ⟨[], true⟩
  | step :: rest =>
    let (reply, next) := worker.ask service host step.call
    match step.line? reply with
    | none => ⟨[], false⟩
    | some line =>
      let report := playFrom service host next rest
      { report with lines := line :: report.lines }

/-- Takes a new worker through a scenario. -/
def play (scenario : Scenario) (service : LanguageService) (host : Host) : Report :=
  playFrom service host (.new (.new scenario.settings)) scenario.steps

/-- The status that a program ends with: 0 after a whole scenario, else 1. -/
def Report.status (report : Report) : UInt32 := if report.isComplete then 0 else 1

/-- What came of the text of a scenario; one that cannot be read comes to nothing. -/
def playText (text : String) (service : LanguageService) (host : Host) : Report :=
  match read text with
  | .ok scenario => scenario.play service host
  | .error _ => ⟨[], false⟩

end Scenario

end Codebase
