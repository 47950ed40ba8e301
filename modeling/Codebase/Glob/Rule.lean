import Codebase.Glob.Parser
/-!
# Globs in a set

A set of globs does not search for every glob alike.  A glob that is a plain name, a plain path or
everything below a plain path, or that asks for nothing but an extension, is compared directly.
Any other that ends in an extension is tried on files with that extension only.  One that is about
names in any directory is tried on names, unless it has groups, and the rest are searched together.

What a glob describes does not depend on this, but what is refused does: only an expression with
groups can nest too deeply, and those that are searched together are counted among themselves.
-/

namespace Codebase.Glob

/-- How a set looks for a glob. -/
inductive Lookup where
  | direct
  | byExtension (extension : String)
  | byName
  | together
  deriving DecidableEq, Repr

def Token.isLiteral : Token → Bool
  | literal _ => true
  | _ => false

/-- A literal that may stand in an extension. -/
def Token.isExtensionChar : Token → Bool
  | literal c => c ≠ '.' && c ≠ '/'
  | _ => false

/-- The token has no groups and describes nothing with a slash in it. -/
def Token.isWithinName : Token → Bool
  | literal c => c ≠ '/'
  | anyOne => true
  | anyRun => true
  | oneOf negated ranges =>
    !(ByteSet.mk negated (ranges.flatMap rangeBytes)).contains Pattern.slash
  | _ => false

namespace Lookup

/-- The glob can be compared directly. -/
def isDirect : List Token → Bool
  | .leading :: .anyRun :: .literal '.' :: extension => extension.all Token.isExtensionChar
  | .leading :: rest => !rest.isEmpty && rest.all Token.isLiteral
  | tokens =>
    match tokens.reverse with
    | [] => false
    | .everything :: above => above.all Token.isLiteral
    | reversed => reversed.all Token.isLiteral

/-- The extension that a glob ends in, from its tokens in reverse; `read` is what stands behind
them. -/
def extension? (read : List Char) : List Token → Option String
  | .literal c :: rest =>
    if c = '/' then none
    else if c = '.' then some (String.ofList (c :: read))
    else extension? (c :: read) rest
  | _ => none

/-- The glob describes names in any directory. -/
def isAboutNames : List Token → Bool
  | .leading :: rest => !rest.isEmpty && rest.all Token.isWithinName
  | _ => false

def ofTokens (tokens : List Token) : Lookup :=
  if isDirect tokens then .direct
  else
    match extension? [] tokens.reverse with
    | some extension => .byExtension extension
    | none => if isAboutNames tokens then .byName else .together

end Lookup

/-- A glob as a set keeps it. -/
structure Rule where
  pattern : Pattern
  expression : Expression
  lookup : Lookup
  deriving Repr

/-- Why a set of globs is refused. -/
inductive Refusal where
  /-- A glob cannot be read. -/
  | malformed (glob : String) (problem : Problem)
  /-- An expression that is compiled by itself nests too deeply. -/
  | tooDeep (expression : String)
  /-- Of the expressions that are compiled together, the one at this position does. -/
  | tooDeepAt (position : Nat)
  deriving DecidableEq, Repr

def Refusal.message : Refusal → String
  | malformed glob problem => "error parsing glob '" ++ glob ++ "': " ++ problem.message
  | tooDeep expression => "error parsing glob '" ++ expression ++ "': error parsing pattern 0"
  | tooDeepAt position => "error parsing pattern " ++ toString position

namespace Rule

/-- The row of a whole glob; a glob that is nothing but leading directories describes
everything. -/
def wholeRow : List Token → Row
  | [.leading] => ⟨.many Pattern.anyByte, .item ".*" 1⟩
  | tokens => .ofTokens tokens

def ofTokens (tokens : List Token) : Rule where
  pattern := (wholeRow tokens).pattern
  expression := (wholeRow tokens).expression.anchored
  lookup := .ofTokens tokens

/-- Reads a glob. -/
def parse (glob : String) : Except Refusal Rule :=
  match tokens glob.toList with
  | .error problem => .error (.malformed glob problem)
  | .ok tokens => .ok (ofTokens tokens)

def isTooDeep (rule : Rule) : Bool := rule.expression.isTooDeep

def isByExtension (rule : Rule) : Bool :=
  match rule.lookup with
  | .byExtension _ => true
  | _ => false

/-- Why the rules cannot be compiled: those with an extension come first, each by itself, then the
others together. -/
def refusal? (rules : List Rule) : Option Refusal :=
  let single := (rules.filter isByExtension).find? isTooDeep
  let position := (rules.filter fun rule => rule.lookup = .together).findIdx? isTooDeep
  (single.map fun rule => .tooDeep rule.expression.text).or (position.map .tooDeepAt)

end Rule

end Codebase.Glob
