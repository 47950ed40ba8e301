import Codebase.Glob.Pattern
/-!
# Written expressions

A glob also has the form of a regular expression over bytes.  Texts are matched by the pattern, but
an expression has to be written down when it is refused, and it is refused when it nests too
deeply.  So `Expression` keeps a text with its measure, and each way to put expressions together
says what becomes of both.

A level of nesting is a group, a choice between branches, a row of several items, a repetition, a
class of bytes, and the members of a class when there are several.
-/

namespace Codebase.Glob

/-- A row of items as it is written. -/
structure Expression where
  text : String
  /-- How many items stand in the row. -/
  items : Nat
  /-- The levels inside the deepest item. -/
  depth : Nat
  deriving DecidableEq, Repr

namespace Expression

def empty : Expression := ⟨"", 0, 0⟩

/-- One item that holds `depth` levels. -/
def item (text : String) (depth : Nat) : Expression := ⟨text, 1, depth⟩

def append (a b : Expression) : Expression :=
  ⟨a.text ++ b.text, a.items + b.items, max a.depth b.depth⟩

/-- One expression after the other. -/
def row (es : List Expression) : Expression := es.foldr append empty

/-- The levels of a row: several items are a level of their own. -/
def levels (e : Expression) : Nat := if e.items ≤ 1 then e.depth else e.depth + 1

/-- A group of any of the branches; those that are empty are not written, and a group of none is
empty itself. -/
def choice (branches : List Expression) : Expression :=
  match branches.filter (0 < ·.items) with
  | [] => empty
  | [e] => item ("(?:" ++ e.text ++ ")") (e.levels + 1)
  | es =>
    item ("(?:" ++ "|".intercalate (es.map text) ++ ")")
      ((es.map levels).foldr max 0 + 2)

/-! ## Bytes -/

/-- The characters that mean something else when they stand for themselves. -/
def special : List Char := "\\.+*?()|[]\x7b\x7d^$#&-~".toList

/-- A byte that stands for itself. -/
def escaped (b : UInt8) : List Char :=
  if b < 0x80 then
    let c := Char.ofNat b.toNat
    if c ∈ special then ['\\', c] else [c]
  else ['\\', 'x'] ++ Nat.toDigits 16 b.toNat

def escapedAll (bs : List UInt8) : String := String.ofList (bs.flatMap escaped)

/-- The bytes of a text, an item each. -/
def bytes (bs : List UInt8) : Expression := ⟨escapedAll bs, bs.length, 0⟩

/-- A class with the given number of members, written with its brackets. -/
def ofClass (text : String) (members : Nat) : Expression :=
  item text (if members ≤ 1 then 1 else 2)

/-! ## Whole expressions -/

/-- The expression of a whole text: bytes, from the start to the end. -/
def anchored (e : Expression) : Expression := item ("(?-u)^" ++ e.text ++ "$") (e.depth + 1)

/-- The levels that an expression may have. -/
def depthLimit : Nat := 250

def isTooDeep (e : Expression) : Bool := depthLimit < e.depth

end Expression

end Codebase.Glob
