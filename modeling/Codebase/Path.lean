import Codebase.Error
/-!
# Paths

A path is a root together with the names below it, so two spellings of one place are one value.
The names are kept innermost first: the parent of a path drops the head of that list, its
ancestors are the tails, and lying beneath a directory is having its names as a suffix.

`Path.parse` reads a text, `Path.text` writes the one spelling of a path, and `Path.join` reads a
text from where a directory stands.  Reading folds a text name by name with `descend`: an empty
name and `.` stay, `..` goes up and stays at the root when there is nothing above.
-/

namespace Codebase

/-- A text that can name one step of a path: it is no separator, no `.` and no `..`. -/
def Segment.Allowed (text : String) : Prop :=
  text ≠ "" ∧ text ≠ "." ∧ text ≠ ".." ∧ '/' ∉ text.toList ∧ '\\' ∉ text.toList

instance (text : String) : Decidable (Segment.Allowed text) :=
  inferInstanceAs (Decidable (_ ∧ _ ∧ _ ∧ _ ∧ _))

/-- One name of a path. -/
structure Segment where
  text : String
  allowed : Segment.Allowed text
  deriving DecidableEq

/-- Where a path starts: the slash, or a drive named by a lower-case letter. -/
inductive Root where
  | slash
  | drive (letter : Char) (lower : letter.isLower = true)
  deriving DecidableEq

def Root.text : Root → String
  | slash => "/"
  | drive letter _ => String.ofList [letter, ':', '/']

theorem isLower_toLower {c : Char} (h : c.isAlpha = true) : c.toLower.isLower = true := by
  have hc : c.isUpper = true ∨ c.isLower = true := Bool.or_eq_true_iff.1 h
  unfold Char.toLower
  split
  · next hu =>
    obtain ⟨h1, h2⟩ := hu
    have e : ('a'.val - 'A'.val).toNat = 32 := rfl
    have eA : 'A'.val.toNat = 65 := rfl
    have eZ : 'Z'.val.toNat = 90 := rfl
    have ea : 'a'.val.toNat = 97 := rfl
    have ez : 'z'.val.toNat = 122 := rfl
    simp only [UInt32.le_iff_toNat_le, ge_iff_le] at h1 h2
    refine Bool.and_eq_true_iff.2 ⟨decide_eq_true ?_, decide_eq_true ?_⟩ <;>
      simp only [UInt32.le_iff_toNat_le, ge_iff_le, UInt32.toNat_add, e] <;> omega
  · next hu =>
    have upper : c.isUpper = true → c.val ≥ 'A'.val ∧ c.val ≤ 'Z'.val := of_decide_eq_true
    exact hc.resolve_left fun hup => hu (upper hup)

/-- A root and the names below it, innermost first. -/
structure Path where
  root : Root
  names : List Segment
  deriving DecidableEq

namespace Path

/-! ## Reading and writing -/

/-- A backslash separates like a slash. -/
def unify (text : String) : List Char := text.toList.map fun c => if c = '\\' then '/' else c

/-- The root that an absolute text starts with, and what follows it. -/
def splitRoot? : List Char → Option (Root × List Char)
  | '/' :: rest => some (.slash, rest)
  | c :: ':' :: rest =>
    if h : c.isAlpha = true then some (.drive c.toLower (isLower_toLower h), rest) else none
  | _ => none

/-- One name of a text, read from the names above it. -/
def descend (above : List Segment) (name : List Char) : List Segment :=
  if name = ['.', '.'] then above.tail
  else if h : Segment.Allowed (String.ofList name) then ⟨String.ofList name, h⟩ :: above
  else above

/-- The place that a text names when it is read from `start`. -/
def follow (start : Path) (text : List Char) : Path :=
  { start with names := (text.splitOn '/').foldl descend start.names }

/-- Reads an absolute text. -/
def parse (text : String) : Except Error Path :=
  match splitRoot? (unify text) with
  | some (root, rest) => .ok (follow ⟨root, []⟩ rest)
  | none => .error (.invalidPath text)

/-- Reads a text as seen from the directory `dir`; an absolute text stands on its own. -/
def join (dir : Path) (text : String) : Path :=
  match splitRoot? (unify text) with
  | some (root, rest) => follow ⟨root, []⟩ rest
  | none => dir.follow (unify text)

/-- Names, outermost first, with a slash between them. -/
def joined (names : List Segment) : String := "/".intercalate (names.map Segment.text)

/-- The spelling of a path. -/
def text (p : Path) : String := p.root.text ++ joined p.names.reverse

instance : ToString Path := ⟨text⟩

instance : Repr Path := ⟨fun p _ => p.text⟩

instance : Inhabited Path := ⟨⟨.slash, []⟩⟩

/-- Paths are ordered by their spelling, character by character. -/
def le (p q : Path) : Bool := !decide (q.text < p.text)

/-- Paths in increasing order. -/
def sort (paths : List Path) : List Path := paths.mergeSort le

/-! ## Names -/

def isRoot (p : Path) : Bool := p.names.isEmpty

/-- The containing directory; a root has none. -/
def parent? (p : Path) : Option Path :=
  match p.names with
  | [] => none
  | _ :: above => some ⟨p.root, above⟩

/-- The innermost name; empty for a root. -/
def fileName (p : Path) : String :=
  match p.names with
  | [] => ""
  | name :: _ => name.text

/-- A name that carries an extension after something else. -/
def carries (name : String) (extension : String) : Bool :=
  ('.' :: extension.toList).isSuffixOf name.toList && extension.length + 1 < name.length

/-- What follows the last dot of a name, unless that dot comes first. -/
def afterLastDot? (name : String) : Option String :=
  let reversed := name.toList.reverse
  match reversed.dropWhile (· ≠ '.') with
  | [] | [_] => none
  | _ => some (String.ofList (reversed.takeWhile (· ≠ '.')).reverse)

/-- The extensions of declaration files, which have a dot of their own. -/
def declarationExtensions : List String := ["d.ts", "d.mts", "d.cts"]

/-- The extension of the file name; `x.d.ts` has `d.ts`. -/
def extension? (p : Path) : Option String :=
  (declarationExtensions.find? (carries p.fileName)).or (afterLastDot? p.fileName)

def isDeclarationFile (p : Path) : Bool :=
  match p.extension? with
  | some extension => extension ∈ declarationExtensions
  | none => false

/-- The file name ends in one of `extensions` and has something before it. -/
def hasExtension (p : Path) (extensions : List String) : Bool :=
  extensions.any (carries p.fileName)

/-- The path whose last name is replaced by a text, which is read like any other. -/
def renamed (p : Path) (name : String) : Path :=
  follow ⟨p.root, p.names.tail⟩ (unify name)

/-- The path with a text added to its last name. -/
def suffixed (p : Path) (suffix : String) : Path := p.renamed (p.fileName ++ suffix)

/-! ## Containment -/

/-- The directories that hold `⟨root, names⟩`, from itself to the root. -/
def chain (root : Root) : List Segment → List Path
  | [] => [⟨root, []⟩]
  | name :: above => ⟨root, name :: above⟩ :: chain root above

/-- The path followed by each directory above it. -/
def ancestors (p : Path) : List Path := chain p.root p.names

/-- The names that lead from `dir` down to `p`, outermost first; `none` when `p` is not beneath. -/
def below? (p dir : Path) : Option (List Segment) :=
  if p.root = dir.root ∧ dir.names.isSuffixOf p.names then
    some (p.names.take (p.names.length - dir.names.length)).reverse
  else none

/-- The text that leads from `dir` down to `p`; empty when they are equal. -/
def relativeTo? (p dir : Path) : Option String := (p.below? dir).map joined

/-- The path is `dir` or lies beneath it. -/
def isUnder (p dir : Path) : Bool := (p.below? dir).isSome

end Path

end Codebase
