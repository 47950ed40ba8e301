import Codebase.Glob.Rule
/-!
# Sets of globs

A set of globs describes the relative paths that any of its patterns describes.  A glob that
names a directory also describes everything below it, so each glob enters the set twice: as it
stands and with `/**` behind it.
-/

namespace Codebase.Glob

/-- Drops every leading `./`. -/
def dropHere : List Char → List Char
  | '.' :: '/' :: rest => dropHere rest
  | text => text

/-- A glob without leading `./` and without trailing slashes. -/
def trim (glob : String) : String :=
  String.ofList ((dropHere glob.toList).reverse.dropWhile (· = '/')).reverse

end Codebase.Glob

namespace Codebase

/-- The patterns of a list of globs. -/
structure Globs where
  patterns : List Glob.Pattern
  deriving Repr

namespace Globs

/-- The two rules of a glob; one that names nothing has none. -/
def rulesOf (glob : String) : Except Glob.Refusal (List Glob.Rule) :=
  let trimmed := Glob.trim glob
  if trimmed = "" then .ok []
  else do return [← Glob.Rule.parse trimmed, ← Glob.Rule.parse (trimmed ++ "/**")]

/-- Reads every glob, then checks that all of them can be compiled. -/
def ofList (globs : List String) : Except Glob.Refusal Globs := do
  let rules := (← globs.mapM rulesOf).flatten
  match Glob.Rule.refusal? rules with
  | some refusal => .error refusal
  | none => return ⟨rules.map Glob.Rule.pattern⟩

/-- Some pattern of the set describes the text, taken as bytes. -/
def accepts (set : Globs) (text : String) : Bool :=
  let bytes := text.toList.flatMap Glob.charBytes
  set.patterns.any fun p => p.accepts bytes

end Globs

end Codebase
