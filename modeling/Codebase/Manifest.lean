import Codebase.Glob
import Codebase.Host
import Codebase.Json.Decode
/-!
# Manifests

A manifest is a JSON text that governs the directory it lies in: it names the files of a project,
one by one or by globs, and carries the options that a build follows.

A file is *covered* when it is named one by one, or when it lies beneath the directory, has one of
the known extensions, is included and is not excluded.
-/

namespace Codebase

/-- The options of a manifest that matter to a project. -/
structure CompilerOptions where
  /-- Restricts the acquired declaration packages to these. -/
  types : Option (List String)
  /-- Leaves the default library out. -/
  noLib : Bool
  /-- The project serves syntax only. -/
  syntaxOnly : Bool
  deriving DecidableEq, Repr

structure Manifest where
  path : Path
  directory : Path
  /-- The files that are named one by one. -/
  files : List Path
  options : CompilerOptions
  included : Globs
  excluded : Globs

namespace Manifest

/-- The names of directories that a manifest without exclusions excludes. -/
def defaultExcludes : List String := ["node_modules", "bower_components", "jspm_packages"]

/-- What a manifest without files and inclusions includes. -/
def everything : String := "**/*"

/-- What a manifest says, before paths and globs are read. -/
structure Source where
  files : Option (List String)
  included : Option (List String)
  excluded : Option (List String)
  options : CompilerOptions

open Json Decoder

def optionsDecoder : Decoder CompilerOptions :=
  record [
    field "types" .defaulted (optional (list text)) fun types d => { d with types },
    field "noLib" .defaulted bool fun noLib d => { d with noLib },
    field "syntaxOnly" .defaulted bool fun syntaxOnly d => { d with syntaxOnly }]
    ⟨none, false, false⟩

def sourceDecoder : Decoder Source :=
  record [
    field "files" .optional (optional (list text)) fun files d => { d with files },
    field "include" .optional (optional (list text)) fun included d => { d with included },
    field "exclude" .optional (optional (list text)) fun excluded d => { d with excluded },
    field "compilerOptions" .defaulted optionsDecoder fun options d => { d with options }]
    ⟨none, none, none, ⟨none, false, false⟩⟩

/-- The reason that stands for every flaw of a JSON text. -/
def malformed : String := "<json>"

/-- The inclusions of a manifest: its own, or none when it names files, or everything. -/
def Source.includes (source : Source) : List String :=
  match source.included, source.files with
  | some globs, _ => globs
  | none, some _ => []
  | none, none => [everything]

/-- Reads the text of the manifest at `path`. -/
def parse (path : Path) (text : String) : Except Error Manifest :=
  let failure (reason : String) : Error := .configurationLoadFailure path.text reason
  match decodeText sourceDecoder text with
  | .error _ => .error (failure malformed)
  | .ok source =>
    match path.parent? with
    | none => .error (failure "manifest has no parent directory")
    | some directory =>
      match Globs.ofList source.includes with
      | .error refusal => .error (failure refusal.message)
      | .ok included =>
        match Globs.ofList (source.excluded.getD defaultExcludes) with
        | .error refusal => .error (failure refusal.message)
        | .ok excluded => .ok {
            path, directory, included, excluded
            files := (source.files.getD []).map directory.join
            options := source.options }

/-- The manifest names `file` as a root. -/
def covers (manifest : Manifest) (file : Path) (extensions : List String) : Bool :=
  file ∈ manifest.files ||
    (file.hasExtension extensions &&
      match file.relativeTo? manifest.directory with
      | none => false
      | some relative =>
        relative ≠ "" && manifest.included.accepts relative && !manifest.excluded.accepts relative)

/-- The manifest excludes a directory beneath its own. -/
def excludesDirectory (manifest : Manifest) (directory : Path) : Bool :=
  match directory.relativeTo? manifest.directory with
  | none => false
  | some relative => relative ≠ "" && manifest.excluded.accepts relative

end Manifest

end Codebase
