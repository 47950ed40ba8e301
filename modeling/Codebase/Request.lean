import Codebase.Command
import Codebase.Wire
/-!
# Requests

A request carries a command by its name, which need not be known, and the arguments of that command
as a value.  The arguments are decoded when the command is served, so a request with arguments that
are no use is still a request.
-/

namespace Codebase

/-- A request as it arrives: the command is a name that need not be known. -/
structure Request where
  seq : Nat
  command : String
  arguments : Json

namespace Request

open Json Decoder

def decoder : Decoder Request :=
  record [
    field "seq" .required nat64 fun seq d => { d with seq },
    field "command" .required text fun command d => { d with command },
    field "arguments" .defaulted value fun arguments d => { d with arguments }]
    ⟨0, "", .null⟩

/-! ## Arguments -/

structure OpenArguments where
  file : Path
  fileContent : Option String

def openArguments : Decoder OpenArguments :=
  record [
    field "file" .required Path.decoder fun file d => { d with file },
    field "fileContent" .defaulted (optional text) fun fileContent d => { d with fileContent }]
    ⟨default, none⟩

/-- The only argument of a request that names nothing but a file. -/
def fileArgument : Decoder Path :=
  record [field "file" .required Path.decoder fun file _ => file] default

structure ChangeArguments where
  file : Path
  start : Location
  stop : Location
  insertString : String
  version : Option Nat

def changeArguments : Decoder ChangeArguments :=
  record [
    field "file" .required Path.decoder fun file d => { d with file },
    field "line" .required nat32 fun line d => { d with start := ⟨line, d.start.offset⟩ },
    field "offset" .required nat32 fun offset d => { d with start := ⟨d.start.line, offset⟩ },
    field "endLine" .required nat32 fun line d => { d with stop := ⟨line, d.stop.offset⟩ },
    field "endOffset" .required nat32 fun offset d => { d with stop := ⟨d.stop.line, offset⟩ },
    field "insertString" .defaulted text fun insertString d => { d with insertString },
    field "version" .defaulted (optional nat32) fun version d => { d with version }]
    ⟨default, ⟨0, 0⟩, ⟨0, 0⟩, "", none⟩

structure LocationArguments where
  file : Path
  line : Option Nat
  offset : Option Nat

def locationArguments : Decoder LocationArguments :=
  record [
    field "file" .required Path.decoder fun file d => { d with file },
    field "line" .optional (optional nat32) fun line d => { d with line },
    field "offset" .optional (optional nat32) fun offset d => { d with offset }]
    ⟨default, none, none⟩

/-- A location takes both numbers. -/
def LocationArguments.location? (arguments : LocationArguments) : Option Location :=
  match arguments.line, arguments.offset with
  | some line, some offset => some ⟨line, offset⟩
  | _, _ => none

structure ProjectInfoArguments where
  file : Path
  needFileNameList : Bool

def projectInfoArguments : Decoder ProjectInfoArguments :=
  record [
    field "file" .required Path.decoder fun file d => { d with file },
    field "needFileNameList" .defaulted bool fun needFileNameList d => { d with needFileNameList }]
    ⟨default, false⟩

/-- Decodes the arguments of a command. -/
def decodeArguments {α : Type} (decoder : Decoder α) (command : Command) (arguments : Json) :
    Except Error α :=
  match decoder arguments with
  | .ok a => .ok a
  | .error flaw => .error (.invalidRequest
      ("bad arguments for '" ++ command.name ++ "': " ++ flaw.message))

end Request

end Codebase
