import Codebase.Json.Number
/-!
# JSON values

A value keeps the members of an object in the order in which they were written, repeated keys
included; `Json.canonical` gives the value that a map with sorted keys would hold.  A string
literal is `none` when an escape in it names half of a surrogate pair: such a literal is well
formed, but no text is what it denotes.
-/

namespace Codebase

/-- The text of a string literal, if it denotes one. -/
abbrev Json.Literal := Option String

inductive Json where
  | null
  | bool (value : Bool)
  | number (value : Json.Number)
  | string (value : Json.Literal)
  | array (items : List Json)
  | object (members : List (Json.Literal × Json))

namespace Json

instance : Inhabited Json := ⟨null⟩

def str (text : String) : Json := .string (some text)

def nat (n : Nat) : Json := .number (.natural n)

/-- An object from members with ordinary keys. -/
def obj (members : List (String × Json)) : Json :=
  .object (members.map fun m => (some m.1, m.2))

/-- The value, or `null` for none. -/
def orNull (f : α → Json) : Option α → Json
  | some a => f a
  | none => .null

mutual
/-- The number of arrays and objects around the innermost value. -/
def depth : Json → Nat
  | .array items => depthOfItems items + 1
  | .object members => depthOfMembers members + 1
  | _ => 0

def depthOfItems : List Json → Nat
  | [] => 0
  | item :: rest => max item.depth (depthOfItems rest)

def depthOfMembers : List (Literal × Json) → Nat
  | [] => 0
  | (_, value) :: rest => max value.depth (depthOfMembers rest)
end

mutual
/-- Every string literal denotes a text and every number has a double near it. -/
def isSound : Json → Bool
  | .number n => n.isFinite
  | .string s => s.isSome
  | .array items => areSound items
  | .object members => membersAreSound members
  | _ => true

def areSound : List Json → Bool
  | [] => true
  | item :: rest => item.isSound && areSound rest

def membersAreSound : List (Literal × Json) → Bool
  | [] => true
  | (key, value) :: rest => key.isSome && value.isSound && membersAreSound rest
end

/-- Puts a member into a list with increasing keys; the later value of a key wins. -/
def insertMember (key : Literal) (value : Json) :
    List (Literal × Json) → List (Literal × Json)
  | [] => [(key, value)]
  | (k, v) :: rest =>
    if key = k then (key, value) :: rest
    else if key.getD "" < k.getD "" then (key, value) :: (k, v) :: rest
    else (k, v) :: insertMember key value rest

mutual
/-- The value with the keys of each object in increasing order, where the last value of a
repeated key stands. -/
def canonical : Json → Json
  | .array items => .array (canonicalItems items)
  | .object members => .object (canonicalMembers [] members)
  | value => value

def canonicalItems : List Json → List Json
  | [] => []
  | item :: rest => item.canonical :: canonicalItems rest

def canonicalMembers (sorted : List (Literal × Json)) :
    List (Literal × Json) → List (Literal × Json)
  | [] => sorted
  | (key, value) :: rest => canonicalMembers (insertMember key value.canonical sorted) rest
end

/-! ## Writing -/

def hexDigit (n : Nat) : Char := "0123456789abcdef".toList.getD n '0'

/-- A character inside a string literal: quotes, backslashes and control characters are
escaped. -/
def escaped (c : Char) : List Char :=
  if c = '\x22' then ['\\', '\x22']
  else if c = '\\' then ['\\', '\\']
  else if c = '\x08' then ['\\', 'b']
  else if c = '\x0c' then ['\\', 'f']
  else if c = '\n' then ['\\', 'n']
  else if c = '\r' then ['\\', 'r']
  else if c = '\t' then ['\\', 't']
  else if c.toNat < 0x20 then
    ['\\', 'u', '0', '0', hexDigit (c.toNat / 16), hexDigit (c.toNat % 16)]
  else [c]

def quoted (text : String) : String :=
  String.ofList ('\x22' :: text.toList.flatMap escaped ++ ['\x22'])

def Number.render : Number → String
  | .natural n => toString n
  | .negative n => "-" ++ toString n
  | .real lexeme => lexeme

mutual
/-- The shortest text of a value: no blanks. -/
def render : Json → String
  | .null => "null"
  | .bool true => "true"
  | .bool false => "false"
  | .number n => n.render
  | .string s => quoted (s.getD "")
  | .array items => "[" ++ ",".intercalate (renderItems items) ++ "]"
  | .object members => "\x7b" ++ ",".intercalate (renderMembers members) ++ "\x7d"

def renderItems : List Json → List String
  | [] => []
  | item :: rest => item.render :: renderItems rest

def renderMembers : List (Literal × Json) → List String
  | [] => []
  | (key, value) :: rest =>
    (quoted (key.getD "") ++ ":" ++ value.render) :: renderMembers rest
end

end Json

end Codebase
