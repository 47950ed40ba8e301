import Codebase.Document
import Codebase.Host
import Codebase.Json.Decode
/-!
# Paths, places and changes as JSON

The decoders of what clients and hosts send, and the values that reports show.  A path is a
string, a location an object of two numbers, and a change of a text an object whose `type` says
which change it is.
-/

namespace Codebase

open Json Decoder

def Path.toJson (path : Path) : Json := .str path.text

def Path.decoder : Decoder Path := fun v => do
  match Path.parse (← Json.Decoder.text v) with
  | .ok path => .ok path
  | .error e => .error (.refused e.message)

def Location.toJson (location : Location) : Json :=
  .obj [("line", .nat location.line), ("offset", .nat location.offset)]

def Location.decoder : Decoder Location :=
  record [
    field "line" .required nat32 fun line d => { d with line },
    field "offset" .required nat32 fun offset d => { d with offset }]
    ⟨0, 0⟩

namespace TextChange

def fullDecoder : Decoder TextChange :=
  record [field "text" .required Decoder.text fun text _ => text] "" |>.map .full

structure Range where
  start : Location
  stop : Location
  text : String

def rangeDecoder : Decoder TextChange :=
  record [
    field "start" .required Location.decoder fun start d => { d with start },
    field "end" .required Location.decoder fun stop d => { d with stop },
    field "text" .required Decoder.text fun text d => { d with text }]
    ⟨⟨0, 0⟩, ⟨0, 0⟩, ""⟩ |>.map fun (r : Range) => .range r.start r.stop r.text

def decoder : Decoder TextChange := tagged [("full", fullDecoder), ("range", rangeDecoder)]

end TextChange

def FileChange.all : List FileChange := [.created, .modified, .deleted]

namespace FileEvent

def toJson (event : FileEvent) : Json :=
  .obj [("path", event.path.toJson), ("kind", .str event.change.name)]

/-- An event; `isUnit` says which values stand for no payload of its kind. -/
def decoder (isUnit : Json → Bool) : Decoder FileEvent :=
  record [
    field "path" .required Path.decoder fun path d => { d with path },
    field "kind" .required (variant (FileChange.all.map fun c => (c.name, c)) isUnit)
      fun change d => { d with change }]
    ⟨default, .created⟩

end FileEvent

end Codebase
