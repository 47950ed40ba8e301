import Codebase.Context
/-!
# Declaration packages

A package under `node_modules/@types` in a directory above a root is acquired without being
referenced.  `Declaration.ofRoots` lists the packages of all roots, each under the root that sees it
first, adds the packages that the settings ask for, and resolves each from its root.

Directories are listed once: a type root that an earlier root has seen is passed over.
-/

namespace Codebase

/-- A declaration package and the file that it starts with. -/
structure Declaration where
  package : String
  entry : Path
  deriving DecidableEq

namespace Declaration

/-- What stands before and after the first two underscores in a row. -/
def splitUnderscores? : List Char → Option (List Char × List Char)
  | [] => none
  | '_' :: '_' :: rest => some ([], rest)
  | c :: rest => (splitUnderscores? rest).map fun parts => (c :: parts.1, parts.2)

/-- The package that a directory name declares: `scope__name` is `@scope/name`. -/
def declaredName (directoryName : String) : String :=
  match splitUnderscores? directoryName.toList with
  | some (scope, name) => "@" ++ String.ofList scope ++ "/" ++ String.ofList name
  | none => directoryName

/-- Where declaration packages lie in a directory. -/
def typeRoot (directory : Path) : Path := directory.join "node_modules/@types"

/-- The packages of one type root. -/
def listed (host : Host) (typeRoot : Path) : List String :=
  if host.hasDirectory typeRoot then
    match host.list typeRoot with
    | .ok entries =>
      (entries.filter Host.Entry.isDirectory).map fun e => declaredName e.path.fileName
    | .error _ => []
  else []

/-- What has been listed, and the packages with the root that each was first seen from. -/
structure Survey where
  listed : Roster Path
  candidates : Table String Path

/-- Lists one type root unless it has been listed. -/
def Survey.list (survey : Survey) (host : Host) (root typeRoot : Path) : Survey :=
  if typeRoot ∈ survey.listed then survey
  else {
    listed := survey.listed.insert typeRoot
    candidates := (Declaration.listed host typeRoot).foldl
      (fun table package => table.insertIfNew package root) survey.candidates }

/-- Lists the type roots above one root, nearest first. -/
def Survey.see (survey : Survey) (host : Host) (root : Path) : Survey :=
  match root.parent? with
  | none => survey
  | some directory =>
    (directory.ancestors.map typeRoot).foldl (fun s t => s.list host root t) survey

/-- The packages that the roots see. -/
def scanned (host : Host) (roots : List Path) : Table String Path :=
  (roots.foldl (fun (s : Survey) root => s.see host root) ⟨Roster.empty, Table.empty⟩).candidates

/-- The packages of `names`, under one root. -/
def addNames (names : List String) (root : Path) (candidates : Table String Path) :
    Table String Path :=
  names.foldl (fun table package => table.insertIfNew package root) candidates

/-- The packages to acquire, each with the root to resolve it from.  With a restriction the
directories are not listed. -/
def candidates (ctx : Context) (roots : List Path) (firstRoot : Path)
    (restriction : Option (List String)) : Table String Path :=
  let found := match restriction with
    | some names => addNames names firstRoot Table.empty
    | none => scanned ctx.host roots
  addNames ctx.settings.typeAcquisition.extra firstRoot found

/-- The declaration packages of a project with these roots. -/
def ofRoots (ctx : Context) (roots : List Path) (restriction : Option (List String)) :
    List Declaration :=
  let policy := ctx.settings.typeAcquisition
  match roots with
  | [] => []
  | firstRoot :: _ =>
    if policy.enabled then
      (candidates ctx roots firstRoot restriction).entries.filterMap fun (package, root) =>
        if policy.allows package then
          (ctx.resolver.resolve .types package root).map fun entry => ⟨package, entry⟩
        else none
    else []

end Declaration

end Codebase
