import Codebase.Path
/-!
# Documents

A document is the text of one path together with a version and whether an editor has it open.
Its version starts at one, grows with every change of the text and never passes
`Document.versionLimit`.

A `TextChange` replaces the whole text or the part between two locations.  Locations count lines
and characters from one; `offsetOf?` turns one into the number of characters before it.  The place
behind the last character of a line is a location of that line, and no other place beyond it is.
-/

namespace Codebase

/-- A place in a text: a line and a place on it, both counted from one. -/
structure Location where
  line : Nat
  offset : Nat
  deriving DecidableEq, Repr

inductive TextChange where
  | full (text : String)
  /-- Replaces what stands from `start` up to `stop`. -/
  | range (start stop : Location) (text : String)
  deriving DecidableEq, Repr

namespace TextChange

/-- The characters before a place, when lines and characters are counted from zero. -/
def offsetFrom? (line column : Nat) : List Char → Option Nat
  | [] => if line = 0 ∧ column = 0 then some 0 else none
  | c :: rest =>
    match line, column with
    | 0, 0 => some 0
    | 0, column + 1 => if c = '\n' then none else (offsetFrom? 0 column rest).map (· + 1)
    | line + 1, column =>
      (offsetFrom? (if c = '\n' then line else line + 1) column rest).map (· + 1)

/-- The number of characters before a location, if the text has that location. -/
def offsetOf? (text : List Char) (location : Location) : Option Nat :=
  match location.line, location.offset with
  | line + 1, column + 1 => offsetFrom? line column text
  | _, _ => none

/-- A location as a report shows it. -/
def shown (location : Location) : String :=
  toString location.line ++ ":" ++ toString location.offset

/-- The text after a change. -/
def apply (change : TextChange) (path : Path) (content : String) : Except Error String :=
  match change with
  | .full text => .ok text
  | .range start stop text =>
    let invalid (reason : String) : Error := .invalidEdit path.text reason
    match offsetOf? content.toList start with
    | none => .error (invalid ("start " ++ shown start ++ " out of range"))
    | some first =>
      match offsetOf? content.toList stop with
      | none => .error (invalid ("end " ++ shown stop ++ " out of range"))
      | some last =>
        if last < first then .error (invalid "end precedes start")
        else .ok (String.ofList
          (content.toList.take first ++ text.toList ++ content.toList.drop last))

end TextChange

structure Document where
  content : String
  version : Nat
  isOpen : Bool
  deriving DecidableEq, Repr

namespace Document

/-- The largest version. -/
def versionLimit : Nat := 0xffffffff

/-- A closed document in its first version. -/
def new (content : String) : Document := ⟨content, 1, false⟩

/-- Replaces the text and raises the version; a text that is the same changes nothing.  The answer
says whether there was a change. -/
def replace (document : Document) (path : Path) (content : String) :
    Except Error (Bool × Document) :=
  if document.content = content then .ok (false, document)
  else if document.version < versionLimit then
    .ok (true, { document with content, version := document.version + 1 })
  else .error (.versionOrderingViolation path.text document.version document.version)

/-- Applies a change that comes with its version. -/
def edit (document : Document) (path : Path) (change : TextChange) (version : Nat) :
    Except Error Document :=
  if version ≤ document.version then
    .error (.versionOrderingViolation path.text document.version version)
  else
    match change.apply path document.content with
    | .error e => .error e
    | .ok content => .ok { document with content, version }

end Document

end Codebase
