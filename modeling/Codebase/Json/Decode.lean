import Codebase.Json.Text
/-!
# Decoding values

A decoder takes a value apart and says what is wrong with it.  Records are decoded from an object
or from an array of their fields in declaration order; `Record` lists the fields once and serves
both forms.  Decoding stops at the first bad field, and missing fields are looked for only when
every field that is present has been decoded.
-/

namespace Codebase.Json

/-- What is wrong with a value. -/
inductive Flaw where
  | wrongType
  | wrongValue
  | wrongLength
  | unknownVariant (name : String)
  | missingField (name : String)
  | duplicateField (name : String)
  /-- A rule of the decoded type refuses the value. -/
  | refused (reason : String)
  /-- The text itself cannot be read, or a literal in it denotes nothing. -/
  | malformed
  deriving DecidableEq, Repr

def Flaw.message : Flaw → String
  | wrongType => "invalid type"
  | wrongValue => "invalid value"
  | wrongLength => "invalid length"
  | unknownVariant name => "unknown variant `" ++ name ++ "`"
  | missingField name => "missing field `" ++ name ++ "`"
  | duplicateField name => "duplicate field `" ++ name ++ "`"
  | refused reason => reason
  | malformed => "malformed text"

abbrev Decoder (α : Type) := Json → Except Flaw α

namespace Decoder

/-- A decoder with a function applied to what it finds. -/
protected def map {α β : Type} (f : α → β) (decoder : Decoder α) : Decoder β :=
  fun v => (decoder v).map f

/-! ## Plain values -/

def bool : Decoder Bool
  | .bool b => .ok b
  | _ => .error .wrongType

def text : Decoder String
  | .string (some s) => .ok s
  | .string none => .error .malformed
  | _ => .error .wrongType

/-- A natural number below `limit`. -/
def natBelow (limit : Nat) : Decoder Nat
  | .number (.natural n) => if n < limit then .ok n else .error .wrongValue
  | .number (.negative _) => .error .wrongValue
  | _ => .error .wrongType

/-- A natural number of 32 bits. -/
def nat32 : Decoder Nat := natBelow 0x100000000

/-- A natural number of 64 bits. -/
def nat64 : Decoder Nat := natBelow 0x10000000000000000

def optional {α : Type} (item : Decoder α) : Decoder (Option α)
  | .null => .ok none
  | value => (item value).map some

def list {α : Type} (item : Decoder α) : Decoder (List α)
  | .array items => items.mapM item
  | _ => .error .wrongType

/-- Any value, with its keys in order. -/
def value : Decoder Json := fun v => .ok v.canonical

/-! ## Variants without fields -/

/-- A variant by its name, or as the only key of an object whose value `isUnit` accepts. -/
def variant {α : Type} (variants : List (String × α)) (isUnit : Json → Bool) : Decoder α
  | .string (some name) =>
    match variants.lookup name with
    | some a => .ok a
    | none => .error (.unknownVariant name)
  | .string none => .error .malformed
  | .object [(some name, payload)] =>
    match variants.lookup name with
    | some a => if isUnit payload then .ok a else .error .wrongType
    | none => .error (.unknownVariant name)
  | .object [(none, _)] => .error .malformed
  | .object _ => .error .wrongValue
  | _ => .error .wrongType

/-- Only `null` stands for no payload. -/
def onlyNull : Json → Bool
  | .null => true
  | _ => false

/-- An empty object is as good as `null`, as it is inside a tagged value. -/
def nullOrEmpty : Json → Bool
  | .null => true
  | .object [] => true
  | _ => false

/-! ## Records -/

/-- What the absence of a field means: an `optional` field may be missing from an object only, a
`defaulted` one also from the end of an array. -/
inductive Presence where
  | required
  | optional
  | defaulted
  deriving DecidableEq

/-- A field of a record that is built up in a draft. -/
structure Field (δ : Type) where
  name : String
  presence : Presence
  store : Json → δ → Except Flaw δ

/-- A field that is decoded and then put into the draft. -/
def field {δ α : Type} (name : String) (presence : Presence) (item : Decoder α)
    (set : α → δ → δ) : Field δ :=
  ⟨name, presence, fun v draft => (item v).map fun a => set a draft⟩

/-- The members of an object, in the order in which they stand. -/
def members {δ : Type} (fields : List (Field δ)) (seen : List String) (draft : δ) :
    List (Literal × Json) → Except Flaw δ
  | [] =>
    match fields.find? fun f => f.presence = .required ∧ f.name ∉ seen with
    | some f => .error (.missingField f.name)
    | none => .ok draft
  | (none, _) :: _ => .error .malformed
  | (some key, v) :: rest =>
    match fields.find? fun f => f.name = key with
    | none => members fields seen draft rest
    | some f =>
      if key ∈ seen then .error (.duplicateField key)
      else
        match f.store v draft with
        | .error e => .error e
        | .ok next => members fields (key :: seen) next rest

/-- The items of an array, one for each field. -/
def items {δ : Type} : List (Field δ) → δ → List Json → Except Flaw δ
  | [], draft, [] => .ok draft
  | [], _, _ :: _ => .error .wrongLength
  | f :: rest, draft, [] =>
    if (f :: rest).all fun f => f.presence = .defaulted then .ok draft else .error .wrongLength
  | f :: fields, draft, v :: rest =>
    match f.store v draft with
    | .error e => .error e
    | .ok next => items fields next rest

/-- A record from its fields; `draft` holds the defaults. -/
def record {δ : Type} (fields : List (Field δ)) (draft : δ) : Decoder δ
  | .object ms => members fields [] draft ms
  | .array vs => items fields draft vs
  | _ => .error .wrongType

/-! ## Tagged variants -/

/-- Takes the tag out of an object; a second one is an error. -/
def splitTag (tag : String) :
    List (Literal × Json) → Except Flaw (Option Json × List (Literal × Json))
  | [] => .ok (none, [])
  | (key, v) :: rest => do
    let (found, others) ← splitTag tag rest
    if key = some tag then
      if found.isSome then .error (.duplicateField tag) else .ok (some v, others)
    else .ok (found, (key, v) :: others)

/-- A variant whose name is the member `type`, or the first item of an array; the rest of the
value are its fields. -/
def tagged {α : Type} (variants : List (String × Decoder α)) : Decoder α := fun v => do
  let (found, rest) ← match v with
    | .object ms => do
      let (found, others) ← splitTag "type" ms
      pure (found, Json.object others)
    | .array (first :: others) => pure (some first, Json.array others)
    | .array [] => pure (none, Json.array [])
    | _ => .error .wrongType
  match found with
  | none => .error (.missingField "type")
  | some name =>
    let name ← text name
    match variants.lookup name with
    | some decoder => decoder rest
    | none => .error (.unknownVariant name)

end Decoder

/-- Reads a text and decodes it. -/
def decodeText {α : Type} (decoder : Decoder α) (text : String) : Except Flaw α :=
  match read? text with
  | some v => decoder v
  | none => .error .malformed

end Codebase.Json
