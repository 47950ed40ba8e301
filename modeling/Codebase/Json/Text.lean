import Codebase.Json.Value
/-!
# Reading JSON texts

A text is read in two steps.  `Json.Token.scan` walks it character by character with a small
state and yields the tokens; `Json.ofTokens?` walks the tokens with a stack of the arrays and
objects that are still open.  Both are recursions on what is read, so nesting costs no recursion
and a text of any depth is read.

The grammar is the strict one: no comments, no trailing commas, no raw control characters inside
a string, nothing but blanks around the value.
-/

namespace Codebase.Json

inductive Token where
  | openArray
  | closeArray
  | openObject
  | closeObject
  | comma
  | colon
  | atom (value : Json)
  | key (text : Literal)

namespace Token

/-! ## String literals -/

def hexValue? (c : Char) : Option Nat :=
  if c.isDigit then some (c.toNat - '0'.toNat)
  else if 'a' ≤ c ∧ c ≤ 'f' then some (c.toNat - 'a'.toNat + 10)
  else if 'A' ≤ c ∧ c ≤ 'F' then some (c.toNat - 'A'.toNat + 10)
  else none

/-- The unit that four hexadecimal digits name. -/
def unit? (a b c d : Char) : Option Nat := do
  let a ← hexValue? a
  let b ← hexValue? b
  let c ← hexValue? c
  let d ← hexValue? d
  return ((a * 16 + b) * 16 + c) * 16 + d

/-- The character of an escape of one letter. -/
def simpleEscape? (c : Char) : Option Char :=
  match c with
  | '\x22' => some '\x22'
  | '\\' => some '\\'
  | '/' => some '/'
  | 'b' => some '\x08'
  | 'f' => some '\x0c'
  | 'n' => some '\n'
  | 'r' => some '\r'
  | 't' => some '\t'
  | _ => none

/-- What stands between the quotes, as units of sixteen bits or whole characters. -/
inductive Piece where
  | char (c : Char)
  | unit (n : Nat)

/-- Splits the inside of a string literal; `none` when an escape is not one. -/
def pieces? : List Char → Option (List Piece)
  | [] => some []
  | '\\' :: 'u' :: a :: b :: c :: d :: rest => do
    let n ← unit? a b c d
    return .unit n :: (← pieces? rest)
  | '\\' :: c :: rest => do
    let c ← simpleEscape? c
    return .char c :: (← pieces? rest)
  | '\\' :: [] => none
  | c :: rest => do
    return .char c :: (← pieces? rest)

def isHigh (n : Nat) : Bool := 0xD800 ≤ n && n < 0xDC00

def isLow (n : Nat) : Bool := 0xDC00 ≤ n && n < 0xE000

/-- The characters that the pieces denote; `none` when a surrogate has no partner. -/
def characters? : List Piece → Option (List Char)
  | [] => some []
  | .char c :: rest => do return c :: (← characters? rest)
  | .unit high :: .unit low :: rest =>
    if isHigh high && isLow low then do
      return Char.ofNat (0x10000 + (high - 0xD800) * 0x400 + (low - 0xDC00)) :: (← characters? rest)
    else if isHigh high || isLow high then none
    else do return Char.ofNat high :: (← characters? (.unit low :: rest))
  | .unit n :: rest =>
    if isHigh n || isLow n then none else do return Char.ofNat n :: (← characters? rest)

/-- Reads the inside of a string literal. -/
def literal? (inside : List Char) : Option Literal := do
  let pieces ← pieces? inside
  return (characters? pieces).map String.ofList

/-! ## Tokens -/

/-- What the scanner is in the middle of; what it has read of it is kept latest first. -/
inductive State where
  | ready
  | number (read : List Char)
  | word (read : List Char)
  | string (read : List Char) (escaped : Bool)

def isBlank (c : Char) : Bool := c = ' ' || c = '\t' || c = '\n' || c = '\r'

def isNumberChar (c : Char) : Bool :=
  c.isDigit || c = '+' || c = '-' || c = '.' || c = 'e' || c = 'E'

def punctuation? (c : Char) : Option Token :=
  match c with
  | '[' => some openArray
  | ']' => some closeArray
  | '\x7b' => some openObject
  | '\x7d' => some closeObject
  | ',' => some comma
  | ':' => some colon
  | _ => none

def ofWord? (word : List Char) : Option Token :=
  if word = ['n', 'u', 'l', 'l'] then some (atom .null)
  else if word = ['t', 'r', 'u', 'e'] then some (atom (.bool true))
  else if word = ['f', 'a', 'l', 's', 'e'] then some (atom (.bool false))
  else none

/-- A character where no token is under way. -/
def start (c : Char) : Option (List Token × State) :=
  match punctuation? c with
  | some token => some ([token], .ready)
  | none =>
    if isBlank c then some ([], .ready)
    else if c = '\x22' then some ([], .string [] false)
    else if c.isDigit || c = '-' then some ([], .number [c])
    else if c.isAlpha then some ([], .word [c])
    else none

/-- Ends the token under way. -/
def finish : State → Option (List Token)
  | .ready => some []
  | .number read => do
    let n ← Number.ofLexeme? read.reverse
    return [atom (.number n)]
  | .word read => do return [← ofWord? read.reverse]
  | .string _ _ => none

/-- One character. -/
def step (state : State) (c : Char) : Option (List Token × State) :=
  match state with
  | .ready => start c
  | .number read =>
    if isNumberChar c then some ([], .number (c :: read))
    else do
      let done ← finish state
      let (more, next) ← start c
      return (done ++ more, next)
  | .word read =>
    if c.isAlpha then some ([], .word (c :: read))
    else do
      let done ← finish state
      let (more, next) ← start c
      return (done ++ more, next)
  | .string read escaped =>
    if c.toNat < 0x20 then none
    else if escaped then some ([], .string (c :: read) false)
    else if c = '\\' then some ([], .string (c :: read) true)
    else if c = '\x22' then do
      let text ← literal? read.reverse
      return ([key text], .ready)
    else some ([], .string (c :: read) false)

def scanFrom (state : State) : List Char → Option (List Token)
  | [] => finish state
  | c :: rest => do
    let (tokens, next) ← step state c
    return tokens ++ (← scanFrom next rest)

/-- The tokens of a text. -/
def scan (text : List Char) : Option (List Token) := scanFrom .ready text

end Token

/-! ## Values from tokens -/

/-- An array or object that waits for a value; what it holds so far is kept latest first. -/
inductive Frame where
  | array (items : List Json)
  | object (members : List (Literal × Json)) (key : Literal)

/-- What the reader stands before. -/
inductive Expected where
  | value
  /-- The start of an array: a value or its end. -/
  | firstItem
  /-- The start of an object: a key or its end. -/
  | firstKey
  | nextKey (members : List (Literal × Json))
  | colon (members : List (Literal × Json)) (key : Literal)
  /-- A value is complete. -/
  | done (value : Json)

/-- The reader of tokens: what comes next, and the open frames, innermost first. -/
structure Reader where
  expected : Expected
  stack : List Frame

namespace Reader

/-- A token where a value has to start. -/
def startValue (stack : List Frame) : Token → Option Reader
  | .atom value => some ⟨.done value, stack⟩
  | .key text => some ⟨.done (.string text), stack⟩
  | .openArray => some ⟨.firstItem, stack⟩
  | .openObject => some ⟨.firstKey, stack⟩
  | _ => none

/-- A token after a complete value. -/
def afterValue (value : Json) : List Frame → Token → Option Reader
  | .array items :: stack, .comma => some ⟨.value, .array (value :: items) :: stack⟩
  | .array items :: stack, .closeArray =>
    some ⟨.done (.array (value :: items).reverse), stack⟩
  | .object members key :: stack, .comma => some ⟨.nextKey ((key, value) :: members), stack⟩
  | .object members key :: stack, .closeObject =>
    some ⟨.done (.object ((key, value) :: members).reverse), stack⟩
  | _, _ => none

def step (reader : Reader) (token : Token) : Option Reader :=
  match reader.expected, token with
  | .value, token => startValue reader.stack token
  | .firstItem, .closeArray => some ⟨.done (.array []), reader.stack⟩
  | .firstItem, token => startValue (.array [] :: reader.stack) token
  | .firstKey, .closeObject => some ⟨.done (.object []), reader.stack⟩
  | .firstKey, .key text => some ⟨.colon [] text, reader.stack⟩
  | .nextKey members, .key text => some ⟨.colon members text, reader.stack⟩
  | .colon members key, .colon => some ⟨.value, .object members key :: reader.stack⟩
  | .done value, token => afterValue value reader.stack token
  | _, _ => none

/-- The value that has been read, if it is complete and nothing is open. -/
def value? (reader : Reader) : Option Json :=
  match reader.expected, reader.stack with
  | .done value, [] => some value
  | _, _ => none

end Reader

/-- The value that tokens spell. -/
def ofTokens? (tokens : List Token) : Option Json := do
  let reader ← tokens.foldlM Reader.step ⟨.value, []⟩
  reader.value?

/-- Reads a text. -/
def read? (text : String) : Option Json := do
  let tokens ← Token.scan text.toList
  ofTokens? tokens

end Codebase.Json
