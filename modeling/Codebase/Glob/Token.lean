import Codebase.Glob.Expression
/-!
# Tokens of globs

A glob is a row of tokens.  Each has the pattern of what it describes and the expression that it is
written as; the branches of a group are complete rows, so a group keeps only these two of each.
-/

namespace Codebase.Glob

/-- A row of tokens as a pattern and as an expression. -/
structure Row where
  pattern : Pattern
  expression : Expression
  deriving DecidableEq, Repr

inductive Token where
  | literal (c : Char)
  | anyOne
  | anyRun
  /-- Any leading directories, or none. -/
  | leading
  /-- A slash and everything below. -/
  | everything
  /-- A slash, or slashes with directories between them. -/
  | between
  | oneOf (negated : Bool) (ranges : List (Char × Char))
  | branches (rows : List Row)

/-! ## Tokens as patterns -/

def charBytes (c : Char) : List UInt8 := String.utf8EncodeChar c

/-- The bytes of a range of characters: when it is more than one character, it runs from the last
byte of the first one to the first byte of the last one, and their other bytes stand alone. -/
def rangeBytes (range : Char × Char) : List (UInt8 × UInt8) :=
  let alone := List.map fun b : UInt8 => (b, b)
  let first := charBytes range.1
  let last := charBytes range.2
  if range.1 = range.2 then alone first
  else
    match first.getLast?, last with
    | some b, c :: rest => alone first.dropLast ++ (b, c) :: alone rest
    | _, _ => alone first ++ alone last

namespace Pattern

def slashes : Pattern := bytes [slash]

def subtree : Pattern := slashes.followedBy (.many anyByte)

def directories : Pattern := (Pattern.many anyByte).followedBy slashes

end Pattern

open Pattern in
def Token.pattern : Token → Pattern
  | literal c => bytes (charBytes c)
  | anyOne => .one notSlash
  | anyRun => .many notSlash
  | leading => .either (.either .empty slashes) directories
  | everything => subtree
  | between => .either slashes (slashes.followedBy directories)
  | oneOf negated ranges => .one ⟨negated, ranges.flatMap rangeBytes⟩
  | branches rows => anyOf (rows.map Row.pattern)

/-! ## Tokens as expressions -/

/-- A range of characters inside the brackets of a class. -/
def writtenRange (range : Char × Char) : String :=
  let first := Expression.escapedAll (charBytes range.1)
  if range.1 = range.2 then first
  else first ++ "-" ++ Expression.escapedAll (charBytes range.2)

/-- A class with its brackets; each range of bytes is one member. -/
def writtenClass (negated : Bool) (ranges : List (Char × Char)) : Expression :=
  .ofClass
    ("[" ++ (if negated then "^" else "") ++ "".intercalate (ranges.map writtenRange) ++ "]")
    (ranges.flatMap rangeBytes).length

def Token.expression : Token → Expression
  | literal c => .bytes (charBytes c)
  | anyOne => .item "[^/]" 1
  | anyRun => .item "[^/]*" 2
  | leading => .item "(?:/?|.*/)" 4
  | everything => ⟨"/.*", 2, 1⟩
  | between => .item "(?:/|/.*/)" 4
  | oneOf negated ranges => writtenClass negated ranges
  | branches rows => .choice (rows.map Row.expression)

def Row.ofTokens (tokens : List Token) : Row where
  pattern := Pattern.concat (tokens.map Token.pattern)
  expression := .row (tokens.map Token.expression)

end Codebase.Glob
