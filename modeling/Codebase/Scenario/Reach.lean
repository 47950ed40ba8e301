import Codebase.Scenario
/-!
# Where a scenario looks

A scenario is played over an image of the host, so the image has to hold what the play can come
to.  These are the places that it starts from and the steps that lead on from a file: what lies
around it, and what its references may name.
-/

namespace Codebase.Scenario

/-- The text in a member of an object. -/
def textIn? (arguments : Json) (name : String) : Option String :=
  match arguments with
  | .object members => (members.lookup (some name)).bind fun v => (Json.Decoder.text v).toOption
  | _ => none

/-- The file that the arguments of a request name. -/
def argumentFile? (arguments : Json) : Option Path :=
  let spelled := match arguments with
    | .array (first :: _) => (Json.Decoder.text first).toOption
    | _ => textIn? arguments "file"
  spelled.bind fun s => (Path.parse s).toOption

/-- The file that a step names. -/
def Step.file? : Step → Option Path
  | request r => argumentFile? r.arguments
  | fileEvent e => some e.path

/-- The texts that a step brings along for its file. -/
def Step.texts : Step → List String
  | request r => ["fileContent", "insertString"].filterMap (textIn? r.arguments)
  | fileEvent _ => []

/-- The files that a scenario names. -/
def files (scenario : Scenario) : List Path :=
  scenario.settings.defaultLibrary.toList ++ scenario.steps.filterMap Step.file?

/-- The texts that a scenario brings along, each with its file. -/
def texts (scenario : Scenario) : List (Path × String) :=
  scenario.steps.flatMap fun step =>
    match step.file? with
    | some file => step.texts.map fun text => (file, text)
    | none => []

/-- The directories in which manifests and packages for a file may lie. -/
def around (file : Path) : List Path :=
  match file.parent? with
  | some directory => directory.ancestors
  | none => []

/-- The places that a specifier may name from a directory: as a path, and as a package of each
directory above. -/
def bases (directory : Path) (specifier : String) : List Path :=
  directory.join specifier :: directory.ancestors.flatMap fun ancestor =>
    let modules := ancestor.join Resolver.packages
    [modules.join specifier, modules.join ("@types/" ++ Resolver.mangled specifier)]

/-- The places that the references of a text may name. -/
def named (file : Path) (text : String) : List Path :=
  match file.parent? with
  | some directory => (References.scan text).all.flatMap fun r => bases directory r.specifier
  | none => []

/-- The files that the references of a text name, as far as the image shows them. -/
def targets (settings : Settings) (host : Host) (file : Path) (text : String) : List Path :=
  let ctx : Context := ⟨host, Documents.empty, settings⟩
  (References.scan text).all.filterMap fun r => ctx.resolver.resolve r.kind r.specifier file

/-- The files that come with a file unreferenced: the roots of the manifests above it and the
declaration packages. -/
def companions (settings : Settings) (host : Host) (file : Path) : List Path :=
  let names := settings.manifestFileNames
  let declared := Declaration.ofRoots ⟨host, Documents.empty, settings⟩ [file] none
  (around file).flatMap (fun directory =>
    match Manifest.lookup host names directory with
    | .found manifest => manifest.roots host names settings.resolution.extensions
    | _ => []) ++ declared.map Declaration.entry

/-- The files that the manifest in a directory names one by one. -/
def namedByManifest (settings : Settings) (host : Host) (directory : Path) : List Path :=
  match Manifest.lookup host settings.manifestFileNames directory with
  | .found manifest => manifest.files
  | _ => []

end Codebase.Scenario
