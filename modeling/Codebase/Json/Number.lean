/-!
# Numbers of a JSON text

A number is kept as what a reader may want of it: a natural number of at most 64 bits, a negative
integer of at most 64 bits, or anything else with the text it was written in.  `-0` is not an
integer here, and neither is `1.0` or `1e2`.
-/

namespace Codebase

inductive Json.Number where
  | natural (n : Nat)
  /-- The integer `-n`, where `n` is not zero. -/
  | negative (n : Nat)
  | real (lexeme : String)
  deriving DecidableEq, Repr

namespace Json.Number

/-- The first natural number that is not kept as one. -/
def naturalLimit : Nat := 0x10000000000000000

/-- The largest magnitude of a negative integer. -/
def negativeLimit : Nat := 0x8000000000000000

/-- The value of decimal digits. -/
def decimal (digits : List Char) : Nat :=
  digits.foldl (fun n c => 10 * n + (c.toNat - '0'.toNat)) 0

/-- Digits after an exponent sign, or the sign and digits, or nothing at all. -/
def isExponent : List Char → Bool
  | [] => true
  | e :: rest =>
    let digits := match rest with
      | '+' :: more | '-' :: more => more
      | _ => rest
    (e = 'e' || e = 'E') && !digits.isEmpty && digits.all Char.isDigit

/-- What may follow the integer part of a number. -/
def isTail : List Char → Bool
  | '.' :: rest =>
    !(rest.takeWhile Char.isDigit).isEmpty && isExponent (rest.dropWhile Char.isDigit)
  | rest => isExponent rest

def ofInteger (isNegative : Bool) (n : Nat) (lexeme : String) : Number :=
  if isNegative then
    if 0 < n ∧ n ≤ negativeLimit then .negative n else .real lexeme
  else if n < naturalLimit then .natural n else .real lexeme

/-- Reads a whole number literal. -/
def ofLexeme? (lexeme : List Char) : Option Number :=
  let (isNegative, body) := match lexeme with
    | '-' :: rest => (true, rest)
    | _ => (false, lexeme)
  let digits := body.takeWhile Char.isDigit
  let rest := body.dropWhile Char.isDigit
  if digits.isEmpty || (digits.head? = some '0' && digits.length ≠ 1) || !isTail rest then none
  else if rest.isEmpty then some (ofInteger isNegative (decimal digits) (String.ofList lexeme))
  else some (.real (String.ofList lexeme))

/-- The exponent that a number's tail writes. -/
def exponentOf (tail : List Char) : Int :=
  match tail with
  | _ :: '-' :: digits => -Int.ofNat (decimal digits)
  | _ :: '+' :: digits => decimal digits
  | _ :: digits => decimal digits
  | [] => 0

/-- Half a step above the largest double, so the least magnitude that overflows. -/
def overflow : Nat := Nat.pow 2 1024 - Nat.pow 2 970

/-- A natural number rounded to the 53 bits that a double keeps; halfway between two of them it
is the even one. -/
def rounded (n : Nat) : Nat :=
  let step := Nat.pow 2 (n.log2 - 52)
  let kept := n / step
  let lost := 2 * (n % step)
  if step < lost ∨ (lost = step ∧ kept % 2 = 1) then (kept + 1) * step else kept * step

/-- Reads digits behind the number `n` for as long as 64 bits hold it; the digits from the first
one that does not fit are left. -/
def absorb (n : Nat) : List Char → Nat × List Char
  | [] => (n, [])
  | c :: rest =>
    let next := 10 * n + (c.toNat - '0'.toNat)
    if next < naturalLimit then absorb next rest else (n, c :: rest)

/-- The largest power of ten that is a double. -/
def exponentLimit : Nat := 308

/-- The number can be read as a double.  It is taken as the digits that 64 bits hold times a power
of ten.  Both are rounded to doubles before they are multiplied, so some numbers just below the
largest double overflow as well. -/
def isFinite : Number → Bool
  | .real lexeme =>
    let body := lexeme.toList.dropWhile (· = '-')
    let whole := body.takeWhile Char.isDigit
    let rest := body.dropWhile Char.isDigit
    let (fraction, tail) := match rest with
      | '.' :: more => (more.takeWhile Char.isDigit, more.dropWhile Char.isDigit)
      | _ => ([], rest)
    let (head, beyond) := absorb 0 whole
    let (significand, unread) := absorb head fraction
    let places : Nat := fraction.length - unread.length
    let exponent : Int := exponentOf tail + beyond.length - places
    if significand = 0 ∨ exponent < 0 then true
    else if exponentLimit < exponent then false
    else rounded significand * rounded (Nat.pow 10 exponent.toNat) < overflow
  | _ => true

end Json.Number

end Codebase
