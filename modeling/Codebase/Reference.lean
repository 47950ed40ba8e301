import Codebase.Text.Class
/-!
# References of a source text

A source names other sources in two ways: in statements (`import … from "x"`, `export … from "x"`,
`import "x"`, `require("x")`, `import("x")`) and in directives (`/// <reference path="x" />`,
`/// <reference types="x" />`).  `References.scan` finds both without parsing the language.

Statements are looked for from left to right; the first position and there the first of the three
forms wins, and the search goes on behind what it matched.  Directives stand at the start of a
line.  Lines are counted from zero.
-/

namespace Codebase

inductive Reference.Kind where
  | module
  | path
  | types
  deriving DecidableEq, Repr

structure Reference where
  specifier : String
  kind : Reference.Kind
  line : Nat
  deriving DecidableEq, Repr

/-- The references of one text, each list in the order of the text. -/
structure References where
  modules : List Reference
  directives : List Reference
  deriving DecidableEq, Repr

namespace Reference

/-! ## Pieces -/

/-- What follows `word` at the start of a text. -/
def after? (word : String) (text : List Char) : Option (List Char) :=
  if word.toList.isPrefixOf text then some (text.drop word.length) else none

def skipBlanks (text : List Char) : List Char := text.dropWhile isBlank

def isQuote (c : Char) : Bool := c = '\x22' || c = '\x27'

/-- What may stand inside the quotes. -/
def isSpecifierChar (c : Char) : Bool := !isQuote c && c ≠ '\n'

/-- A quoted specifier: the text from its first character on, and what follows it. -/
structure Quoted where
  specifier : List Char
  start : List Char
  rest : List Char

/-- A quoted specifier at the start of a text; the two quotes need not be the same. -/
def quoted? : List Char → Option Quoted
  | [] => none
  | q :: text =>
    let specifier := text.takeWhile isSpecifierChar
    match text.dropWhile isSpecifierChar with
    | [] => none
    | close :: rest =>
      if isQuote q && isQuote close && !specifier.isEmpty then some ⟨specifier, text, rest⟩
      else none

def startsWithWordChar : List Char → Bool
  | [] => false
  | c :: _ => isWordChar c

/-! ## Statements -/

/-- The nearest `from` with a quoted specifier; quotes and semicolons are not crossed. -/
def fromClause? (previous : Char) : List Char → Option Quoted
  | [] => none
  | c :: rest =>
    let here := if isWordChar previous then none else do
      quoted? (skipBlanks (← after? "from" (c :: rest)))
    here.or (if isQuote c || c = ';' then none else fromClause? c rest)

/-- The forms `import … from "x"` and `export … from "x"`. -/
def withClause? (text : List Char) : Option Quoted := do
  let rest ← (after? "import" text).or (after? "export" text)
  if startsWithWordChar rest then none else fromClause? 't' rest

/-- The form `import "x"`. -/
def bare? (text : List Char) : Option Quoted := do
  quoted? (skipBlanks (← after? "import" text))

/-- The forms `require("x")` and `import("x")`. -/
def call? (text : List Char) : Option Quoted := do
  let rest ← (after? "require" text).or (after? "import" text)
  let inside ← after? "(" (skipBlanks rest)
  let quoted ← quoted? (skipBlanks inside)
  let rest ← after? ")" (skipBlanks quoted.rest)
  return { quoted with rest }

/-- The statement that starts a text, unless a word goes on there. -/
def statement? (previous : Option Char) (text : List Char) : Option Quoted :=
  if previous.any isWordChar then none
  else ((withClause? text).or (bare? text)).or (call? text)

/-- The statements of a text behind `previous`, whose first line is `line` and whose first `skip`
characters belong to the statement before. -/
def modulesFrom (previous : Option Char) (line skip : Nat) : List Char → List Reference
  | [] => []
  | c :: rest =>
    let next := if c = '\n' then line + 1 else line
    match skip with
    | skip + 1 => modulesFrom (some c) next skip rest
    | 0 =>
      match statement? previous (c :: rest) with
      | none => modulesFrom (some c) next 0 rest
      | some found =>
        let before := (c :: rest).take ((c :: rest).length - found.start.length)
        ⟨String.ofList found.specifier, .module, line + before.count '\n'⟩ ::
          modulesFrom (some c) next (rest.length - found.rest.length) rest

/-! ## Directives -/

/-- The attribute of a directive. -/
def attribute? (text : List Char) : Option (Kind × List Char) :=
  ((after? "path" text).map fun rest => (.path, rest)).or
    ((after? "types" text).map fun rest => (.types, rest))

/-- The end of a directive. -/
def closes (text : List Char) : Bool :=
  ((after? "/>" text).or (after? ">" text)).isSome

/-- The directive that a line starts with. -/
def directive? (line : List Char) : Option (Kind × String) := do
  let rest ← after? "///" (skipBlanks line)
  let rest ← after? "<reference" (skipBlanks rest)
  if startsWithBlank rest then
    let (kind, rest) ← attribute? (skipBlanks rest)
    let rest ← after? "=" (skipBlanks rest)
    let quoted ← quoted? (skipBlanks rest)
    if closes (skipBlanks quoted.rest) then some (kind, String.ofList quoted.specifier) else none
  else none
where
  startsWithBlank : List Char → Bool
    | [] => false
    | c :: _ => isBlank c

/-- The directives of successive lines, the first of which is `line`. -/
def directivesFrom (line : Nat) : List (List Char) → List Reference
  | [] => []
  | text :: rest =>
    let below := directivesFrom (line + 1) rest
    match directive? text with
    | some (kind, specifier) => ⟨specifier, kind, line⟩ :: below
    | none => below

end Reference

namespace References

def scan (text : String) : References where
  modules := Reference.modulesFrom none 0 0 text.toList
  directives := Reference.directivesFrom 0 (text.toList.splitOn '\n')

/-- The order in which references are followed: statements first. -/
def all (references : References) : List Reference := references.modules ++ references.directives

def isEmpty (references : References) : Bool :=
  references.modules.isEmpty && references.directives.isEmpty

end References

end Codebase
