import Codebase.Json.Decode
import Codebase.Path
import Codebase.Reference
/-!
# Resolution

A specifier names at most one file.  A relative specifier is read from the directory of the file
that holds it; any other names a package, which is looked for in the `node_modules` directories
above that file, nearest first.  Extensions are tried in the order of the settings.

`Resolver.resolve` sees the host only through a `View`: which files exist and what they hold.
-/

namespace Codebase

/-- What resolution may ask. -/
structure View where
  hasFile : Path → Bool
  read : Path → Option String

/-- A view and the extensions to try. -/
structure Resolver where
  view : View
  extensions : List String

namespace Resolver

/-- Extensions of scripts; such a name stands for a typed source with the same stem. -/
def scriptExtensions : List String := ["js", "jsx", "mjs", "cjs"]

/-- The directory that packages lie in. -/
def packages : String := "node_modules"

def isRelative (specifier : String) : Bool :=
  specifier = "." || specifier = ".." || "./".isPrefixOf specifier || "../".isPrefixOf specifier ||
    "/".isPrefixOf specifier

/-- The name of a package as one name of a path: `@scope/name` is `scope__name`. -/
def mangled (package : String) : String :=
  match package.toList with
  | '@' :: rest =>
    let scope := rest.takeWhile (· ≠ '/')
    match rest.dropWhile (· ≠ '/') with
    | [] => String.ofList rest
    | _ :: name => String.ofList (scope ++ ['_', '_'] ++ name)
  | _ => package

/-- The first existing file among `base` with each extension. -/
def withExtension? (resolver : Resolver) (base : Path) : Option Path :=
  (resolver.extensions.map fun e => base.suffixed ("." ++ e)).find? resolver.view.hasFile

/-- The name ends in one of the extensions. -/
def hasKnownEnding (resolver : Resolver) (base : Path) : Bool :=
  resolver.extensions.any fun e => ('.' :: e.toList).isSuffixOf base.fileName.toList

/-- The path without the extension of a script. -/
def scriptStem? (base : Path) : Option Path :=
  match base.extension? with
  | none => none
  | some e =>
    if e ∈ scriptExtensions then
      let name := base.fileName.toList
      some (base.renamed (String.ofList (name.take (name.length - (e.length + 1)))))
    else none

/-- The file that `base` names: itself, a typed source in the place of a script, or itself with an
extension. -/
def file? (resolver : Resolver) (base : Path) : Option Path :=
  let itself :=
    if resolver.hasKnownEnding base && resolver.view.hasFile base then some base else none
  let typed := (scriptStem? base).bind resolver.withExtension?
  (itself.or typed).or (resolver.withExtension? base)

open Json Decoder in
/-- The two ways in which a package names its entry. -/
def entriesDecoder : Decoder (Option String × Option String) :=
  record [
    field "types" .optional (optional text) fun types d => (types, d.2),
    field "typings" .optional (optional text) fun typings d => (d.1, typings)]
    (none, none)

/-- The entry that the package in `directory` names. -/
def packageEntry? (resolver : Resolver) (directory : Path) : Option String :=
  match resolver.view.read (directory.join "package.json") with
  | none => none
  | some content =>
    match Json.decodeText entriesDecoder content with
    | .error _ => none
    | .ok (types, typings) => types.or typings

/-- The file that a directory stands for: the entry of its package, or its index. -/
def directory? (resolver : Resolver) (directory : Path) : Option Path :=
  let entry := (resolver.packageEntry? directory).bind fun e => resolver.file? (directory.join e)
  entry.or (resolver.withExtension? (directory.join "index"))

/-- The package as one directory above `ancestor` holds it. -/
def packageAt? (resolver : Resolver) (package : String) (ancestor : Path) : Option Path :=
  if ancestor.fileName = packages then none
  else
    let modules := ancestor.join packages
    let candidate := modules.join package
    ((resolver.file? candidate).or (resolver.directory? candidate)).or
      (resolver.directory? (modules.join ("@types/" ++ mangled package)))

/-- The package as the nearest directory holds it. -/
def package? (resolver : Resolver) (package : String) (directory : Path) : Option Path :=
  directory.ancestors.findSome? (resolver.packageAt? package)

/-- The target of a statement. -/
def module? (resolver : Resolver) (specifier : String) (directory : Path) : Option Path :=
  if isRelative specifier then
    let base := directory.join specifier
    (resolver.file? base).or (resolver.directory? base)
  else resolver.package? specifier directory

/-- The target of a directive that names a path. -/
def path? (resolver : Resolver) (specifier : String) (directory : Path) : Option Path :=
  let target := directory.join specifier
  if resolver.view.hasFile target then some target else resolver.withExtension? target

/-- The target of a directive that names a declaration package. -/
def types? (resolver : Resolver) (package : String) (directory : Path) : Option Path :=
  let declared := directory.ancestors.findSome? fun ancestor =>
    resolver.directory? (ancestor.join ("node_modules/@types/" ++ mangled package))
  declared.or (resolver.package? package directory)

/-- The one file that a specifier in `source` names. -/
def resolve (resolver : Resolver) (kind : Reference.Kind) (specifier : String) (source : Path) :
    Option Path :=
  match source.parent? with
  | none => none
  | some directory =>
    match kind with
    | .module => resolver.module? specifier directory
    | .path => resolver.path? specifier directory
    | .types => resolver.types? specifier directory

end Resolver

end Codebase
