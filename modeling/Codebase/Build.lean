import Codebase.Declaration
/-!
# Builds

A build turns the roots of a project into its files.  A project that serves syntax only has its
roots as files, and nothing is read.  A full build takes every seed — the roots, then the entries
of the declaration packages, then the default library — and follows references breadth first
from each before it takes the next.

A build changes nothing: what it read from the host is listed in its result, and so is every
reference that names no file.
-/

namespace Codebase

/-- How a build comes by its files. -/
inductive Build.Strategy where
  /-- The files are the roots. -/
  | identity
  /-- References are followed. -/
  | fullResolution
  deriving DecidableEq, Repr

def Build.Strategy.ofCapability : Capability → Build.Strategy
  | .fullSemantic => .fullResolution
  | .syntacticOnly => .identity

/-- What a manifest says about a build. -/
structure Build.Options where
  /-- Restricts the acquired declaration packages to these. -/
  types : Option (List String)
  /-- Leaves the default library out. -/
  noLib : Bool
  deriving DecidableEq, Repr

def Build.Options.default : Build.Options := ⟨none, false⟩

/-- A reference that names no file. -/
structure Unresolved where
  source : Path
  specifier : String
  kind : Reference.Kind
  deriving DecidableEq

def Unresolved.error (reference : Unresolved) : Error :=
  .resolutionFailure reference.source.text reference.specifier

/-- The result of a build. -/
structure Build where
  files : List Path
  /-- The files that were read from the host, with their texts. -/
  discovered : List (Path × String)
  unresolved : List Unresolved

namespace Build

/-- A search under way: the files found so far, and those of them whose references are still to be
followed, with the number of references that lead to each. -/
structure Search where
  build : Build
  pending : List (Path × Nat)

namespace Search

def empty : Search := ⟨⟨[], [], []⟩, []⟩

/-- Adds a file that is not among the files yet. -/
def visit (search : Search) (path : Path) (depth : Nat) : Search :=
  if path ∈ search.build.files then search
  else {
    build := { search.build with files := search.build.files ++ [path] }
    pending := search.pending ++ [(path, depth)] }

/-- Adds the target of a reference, or records that there is none. -/
def follow (ctx : Context) (source : Path) (depth : Nat) (search : Search)
    (reference : Reference) : Search :=
  match ctx.resolver.resolve reference.kind reference.specifier source with
  | some target => search.visit target (depth + 1)
  | none =>
    let unresolved := search.build.unresolved ++ [⟨source, reference.specifier, reference.kind⟩]
    { search with build := { search.build with unresolved } }

/-- The text of a file; one that no document holds is read from the host and listed. -/
def read (ctx : Context) (search : Search) (path : Path) : Option (String × Search) :=
  match ctx.documents.text? path with
  | some text => some (text, search)
  | none =>
    match ctx.host.read path with
    | .error _ => none
    | .ok text =>
      let discovered := search.build.discovered ++ [(path, text)]
      some (text, { search with build := { search.build with discovered } })

/-- References are not followed from here on. -/
def isBounded (ctx : Context) (depth : Nat) : Bool :=
  ctx.settings.resolution.maxDepth.any (· ≤ depth)

/-- Follows the references of one file. -/
def expand (ctx : Context) (search : Search) (path : Path) (depth : Nat) : Search :=
  match search.read ctx path with
  | none => search
  | some (text, search) =>
    if isBounded ctx depth then search
    else (References.scan text).all.foldl (follow ctx path depth) search

/-- Follows references until nothing is pending, for `fuel` files at most. -/
def finish (ctx : Context) : Nat → Search → Search
  | 0, search => search
  | fuel + 1, search =>
    match search.pending with
    | [] => search
    | (path, depth) :: rest =>
      finish ctx fuel ({ search with pending := rest }.expand ctx path depth)

/-- Takes one seed and follows it to the end. -/
def seed (ctx : Context) (fuel : Nat) (search : Search) (path : Path) : Search :=
  (search.visit path 0).finish ctx fuel

end Search

/-- No search finds more files: each is a seed, a document or a stored file. -/
def searchBound (ctx : Context) (seeds : List Path) : Nat :=
  seeds.length + ctx.documents.size + ctx.host.entries.length

/-- The default library, where it takes part. -/
def library? (ctx : Context) (options : Build.Options) : Option Path :=
  if options.noLib then none else ctx.settings.defaultLibrary.filter ctx.hasFile

/-- What a full build starts from, in order. -/
def seeds (ctx : Context) (roots : List Path) (options : Build.Options) : List Path :=
  roots ++ (Declaration.ofRoots ctx roots options.types).map Declaration.entry ++
    (library? ctx options).toList

/-- The closure of the seeds under references. -/
def closure (ctx : Context) (roots : List Path) (options : Build.Options) : Build :=
  let start := seeds ctx roots options
  (start.foldl (Search.seed ctx (searchBound ctx start)) .empty).build

/-- The files of a project with these roots. -/
def make (strategy : Build.Strategy) (ctx : Context) (roots : List Path)
    (options : Build.Options) : Build :=
  match strategy with
  | .identity => ⟨roots, [], []⟩
  | .fullResolution => closure ctx roots options

end Build

end Codebase
