import Codebase.Glob.Token
/-!
# Reading globs

A glob is read character by character into tokens.  `?` is one byte and `*` any number of bytes
within one name; `[…]` is one byte of a class; `{a,b}` is any of its branches, which may be nested;
a backslash takes the next character as it is.

`**` is special where it fills a whole name.  At the start of the glob or of a branch it stands
for any number of leading directories; behind a slash it takes the place of that slash, as a
stretch of directories when a slash follows and as everything below when nothing does.  Anywhere
else it is just two stars.
-/

namespace Codebase.Glob

/-- Why a glob cannot be read. -/
inductive Problem where
  | unclosedClass
  | invalidRange (first last : Char)
  | unopenedAlternates
  | unclosedAlternates
  | danglingEscape
  deriving DecidableEq, Repr

def Problem.message : Problem → String
  | unclosedClass => "unclosed character class; missing ']'"
  | invalidRange first last =>
    "invalid range; '" ++ String.ofList [first] ++ "' > '" ++ String.ofList [last] ++ "'"
  | unopenedAlternates =>
    "unopened alternate group; missing '\x7b' (maybe escape '\x7d' with '[\x7d]'?)"
  | unclosedAlternates =>
    "unclosed alternate group; missing '\x7d' (maybe escape '\x7b' with '[\x7b]'?)"
  | danglingEscape => "dangling '\\'"

/-! ## The reader -/

/-- A character class that is being read; its ranges are kept latest first. -/
structure ClassDraft where
  negated : Bool
  isFirst : Bool
  /-- A `-` that may become part of a range. -/
  dash : Bool
  ranges : List (Char × Char)

namespace ClassDraft

/-- Extends the latest range to `c`. -/
def extend (draft : ClassDraft) (c : Char) : Except Problem ClassDraft :=
  match draft.ranges with
  | [] => .ok { draft with ranges := [(c, c)] }
  | (first, _) :: rest =>
    if c < first then .error (.invalidRange first c)
    else .ok { draft with ranges := (first, c) :: rest, dash := false }

/-- One character of the class that does not close it. -/
def accept (draft : ClassDraft) (c : Char) : Except Problem ClassDraft :=
  if draft.dash then draft.extend c
  else if c = '-' ∧ ¬draft.isFirst then .ok { draft with dash := true }
  else .ok { draft with isFirst := false, ranges := (c, c) :: draft.ranges }

def token (draft : ClassDraft) : Token :=
  .oneOf draft.negated
    (if draft.dash then ('-', '-') :: draft.ranges else draft.ranges).reverse

end ClassDraft

/-- What has been read: the tokens of the branch under way, latest first, and outside of it, from
the innermost group on, the tokens before the group and the branches that are complete. -/
structure Draft where
  tokens : List Token
  groups : List (List Token × List Row)

namespace Draft

def push (draft : Draft) (token : Token) : Draft := { draft with tokens := token :: draft.tokens }

/-- Puts a token of `**` in the place of the slash before it; one that reaches over directories
already stays. -/
def deepen (draft : Draft) (token : Token) : Draft :=
  match draft.tokens with
  | .leading :: _ | .everything :: _ => draft
  | _ :: rest => { draft with tokens := token :: rest }
  | [] => draft.push token

def twoStars (draft : Draft) : Draft := (draft.push .anyRun).push .anyRun

def isNested (draft : Draft) : Bool := !draft.groups.isEmpty

def branch (draft : Draft) : Row := .ofTokens draft.tokens.reverse

def openGroup (draft : Draft) : Draft := ⟨[], (draft.tokens, []) :: draft.groups⟩

/-- A comma ends a branch; outside of a group it is itself. -/
def comma (draft : Draft) : Draft :=
  match draft.groups with
  | [] => draft.push (.literal ',')
  | (before, done) :: outer => ⟨[], (before, draft.branch :: done) :: outer⟩

def closeGroup (draft : Draft) : Except Problem Draft :=
  match draft.groups with
  | [] => .error .unopenedAlternates
  | (before, done) :: outer =>
    .ok ⟨.branches (draft.branch :: done).reverse :: before, outer⟩

/-- The tokens of a glob that has been read to its end. -/
def close (draft : Draft) : Except Problem (List Token) :=
  if draft.isNested then .error .unclosedAlternates else .ok draft.tokens.reverse

/-- A second star may stand for directories when it follows a slash or starts a branch. -/
def startsName (draft : Draft) (previous : Option Char) : Bool :=
  previous = some '/' || (draft.isNested && (previous = some ',' || previous = some '\x7b'))

end Draft

/-- What the reader is in the middle of.  The two modes of stars keep the character before the
first star. -/
inductive Mode where
  | plain (previous : Option Char)
  | escape
  | star (previous : Option Char)
  | stars (previous : Option Char)
  | classStart
  | inClass (inside : ClassDraft)

structure State where
  mode : Mode
  draft : Draft

namespace State

def start : State := ⟨.plain none, ⟨[], []⟩⟩

/-- A character outside of any other construct, behind the character `previous`. -/
def plain (previous : Option Char) (draft : Draft) (c : Char) : Except Problem State :=
  match c with
  | '?' => .ok ⟨.plain (some c), draft.push .anyOne⟩
  | '*' => .ok ⟨.star previous, draft⟩
  | '[' => .ok ⟨.classStart, draft⟩
  | '\x7b' => .ok ⟨.plain (some c), draft.openGroup⟩
  | '\x7d' => draft.closeGroup.map fun closed => ⟨.plain (some c), closed⟩
  | ',' => .ok ⟨.plain (some c), draft.comma⟩
  | '\\' => .ok ⟨.escape, draft⟩
  | _ => .ok ⟨.plain (some c), draft.push (.literal c)⟩

/-- A character behind two stars, before which `previous` stands. -/
def behindStars (previous : Option Char) (draft : Draft) (c : Char) : Except Problem State :=
  if draft.tokens.isEmpty then
    if c = '/' then .ok ⟨.plain (some c), draft.push .leading⟩
    else plain (some '*') draft.twoStars c
  else if draft.startsName previous then
    if c = '/' then .ok ⟨.plain (some c), draft.deepen .between⟩
    else if draft.isNested && (c = ',' || c = '\x7d') then
      plain (some '*') (draft.deepen .everything) c
    else plain (some '*') draft.twoStars c
  else plain (some '*') draft.twoStars c

def insideClass (inside : ClassDraft) (draft : Draft) (c : Char) : Except Problem State :=
  if c = ']' ∧ ¬inside.isFirst then .ok ⟨.plain (some c), draft.push inside.token⟩
  else (inside.accept c).map fun inside => ⟨.inClass inside, draft⟩

/-- One character of a glob. -/
def step (state : State) (c : Char) : Except Problem State :=
  match state.mode with
  | .plain previous => plain previous state.draft c
  | .escape => .ok ⟨.plain (some c), state.draft.push (.literal c)⟩
  | .star previous =>
    if c = '*' then .ok ⟨.stars previous, state.draft⟩
    else plain (some '*') (state.draft.push .anyRun) c
  | .stars previous => behindStars previous state.draft c
  | .classStart =>
    if c = '!' ∨ c = '^' then .ok ⟨.inClass ⟨true, true, false, []⟩, state.draft⟩
    else insideClass ⟨false, true, false, []⟩ state.draft c
  | .inClass inside => insideClass inside state.draft c

/-- The tokens of a glob that ends here. -/
def close (state : State) : Except Problem (List Token) :=
  match state.mode with
  | .plain _ => state.draft.close
  | .escape => .error .danglingEscape
  | .star _ => (state.draft.push .anyRun).close
  | .stars previous =>
    if state.draft.tokens.isEmpty then (state.draft.push .leading).close
    else if state.draft.startsName previous then (state.draft.deepen .everything).close
    else state.draft.twoStars.close
  | .classStart | .inClass _ => .error .unclosedClass

end State

/-- The tokens of a glob. -/
def tokens (glob : List Char) : Except Problem (List Token) := do
  (← glob.foldlM State.step State.start).close

end Codebase.Glob
