import Codebase.Session
/-!
# What clients are shown

Responses, log entries, projects and failures as JSON.
-/

namespace Codebase

namespace Error

/-- A failure as a report shows it. -/
def toJson (error : Error) : Json :=
  .obj [("kind", .str error.kind), ("message", .str error.message)]

end Error

namespace Response

def succeeded (response : Response) : Bool := response.result.isOk

def toJson (response : Response) : Json :=
  .obj ([
    ("seq", .nat response.seq),
    ("requestSeq", .nat response.requestSeq),
    ("command", .str response.command),
    ("success", .bool response.succeeded)] ++
    match response.result with
    | .ok none => []
    | .ok (some body) => [("body", body)]
    | .error e => [("error", e.toJson)])

end Response

namespace Outcome

def toJson (outcome : Outcome) : Json :=
  .obj (("status", .str outcome.status) ::
    match outcome with
    | success project => [("project", .orNull .str project)]
    | failure e => [("kind", .str e.kind), ("message", .str e.message)])

end Outcome

def LogEntry.toJson (entry : LogEntry) : Json :=
  .obj [
    ("seq", .nat entry.seq),
    ("command", .str entry.command),
    ("outcome", entry.outcome.toJson)]

def Project.Summary.toJson (summary : Project.Summary) : Json :=
  .obj [
    ("id", .nat summary.id.number),
    ("name", .str summary.name),
    ("kind", .str summary.kind.name),
    ("capability", .str summary.capability.name),
    ("rootCount", .nat summary.rootCount),
    ("dirty", .bool summary.isDirty)]

def Project.Counts.toJson (counts : Project.Counts) : Json :=
  .obj [
    ("inferred", .nat counts.inferred),
    ("configured", .nat counts.configured),
    ("auxiliary", .nat counts.auxiliary)]

end Codebase
