import Codebase.Host.Disk
import Codebase.Scenario.Reach
/-!
# Command line

Plays the scenario in a file and prints one line for each step.  The play itself sees the disk
through an image, which is taken before it starts: from the files that the scenario names on, the
image holds what lies around each file and what the references of each file lead to.
-/

namespace Codebase

/-- An image of a disk that is being taken. -/
structure Snapshot where
  disk : Disk
  /-- Directories whose entries are in the image. -/
  listed : Roster Path
  /-- Directories that are in the image with everything beneath them. -/
  whole : Roster Path
  /-- Files that have been followed. -/
  followed : Roster Path

namespace Snapshot

def empty : Snapshot := ⟨Disk.empty, Roster.empty, Roster.empty, Roster.empty⟩

/-- What stands for the bytes of a file that exists and cannot be read: they are no text. -/
def unreadable : ByteArray := ⟨#[0xff]⟩

/-- Takes the file at `place`, which the system finds at `found`. -/
def takeFile (snapshot : Snapshot) (place : Disk.Place) (found : String) : IO Snapshot := do
  let bytes ← try IO.FS.readBinFile found catch _ => pure unreadable
  return { snapshot with disk := snapshot.disk.addFile place bytes }

/-- Takes one entry of a directory; links are followed to files only. -/
def takeEntry (snapshot : Snapshot) (directory : Disk.Place) (entry : IO.FS.DirEntry) :
    IO Snapshot := do
  let place := entry.fileName :: directory
  if (← entry.path.symlinkMetadata).type == .dir then
    return { snapshot with disk := snapshot.disk.addDirectory place }
  else if (← entry.path.metadata).type == .file then
    snapshot.takeFile place entry.path.toString
  else return snapshot

/-- Takes the entries of a directory. -/
def list (snapshot : Snapshot) (directory : Path) : IO Snapshot := do
  match Disk.place? directory with
  | none => return snapshot
  | some place =>
    if directory ∈ snapshot.listed then return snapshot
    let snapshot := { snapshot with listed := snapshot.listed.insert directory }
    try
      let entries ← (← IO.FS.realPath directory.text).readDir
      let disk := if place.isEmpty then snapshot.disk else snapshot.disk.addDirectory place
      entries.foldlM (fun s e => try s.takeEntry place e catch _ => pure s) { snapshot with disk }
    catch _ => return snapshot

/-- Takes a directory with everything beneath it. -/
partial def takeWhole (snapshot : Snapshot) (directory : Path) : IO Snapshot := do
  if directory ∈ snapshot.whole then return snapshot
  let snapshot ← snapshot.list directory
  let snapshot := { snapshot with whole := snapshot.whole.insert directory }
  match Disk.place? directory with
  | none => return snapshot
  | some place =>
    let below := Disk.childrenOf place snapshot.disk.directories.toList
    (below.map Disk.path).foldlM takeWhole snapshot

/-- Takes one file, if it is there. -/
def takeNamed (snapshot : Snapshot) (file : Path) : IO Snapshot := do
  match Disk.place? file with
  | none => return snapshot
  | some place =>
    if snapshot.disk.hasFile file then return snapshot
    try
      let found ← IO.FS.realPath file.text
      if (← found.metadata).type == .file then snapshot.takeFile place found.toString
      else return snapshot
    catch _ => return snapshot

/-- Takes what lies around a file: its directory, the packages above it, and the directories above
it that a manifest governs. -/
def takeAround (settings : Settings) (snapshot : Snapshot) (file : Path) : IO Snapshot := do
  let mut snapshot := snapshot
  for directory in (file.parent?).toList do
    snapshot ← snapshot.list directory
  for directory in Scenario.around file do
    snapshot ← snapshot.takeWhole (directory.join Resolver.packages)
    for name in settings.manifestFileNames do
      snapshot ← snapshot.takeNamed (directory.join name)
      if snapshot.disk.hasFile (directory.join name) then
        snapshot ← snapshot.takeWhole directory
    for named in Scenario.namedByManifest settings snapshot.disk.host directory do
      snapshot ← snapshot.takeNamed named
  return snapshot

/-- Takes where the references of a text may lead, and says which files they name. -/
def takeReferences (settings : Settings) (snapshot : Snapshot) (file : Path) (text : String) :
    IO (List Path × Snapshot) := do
  let mut snapshot := snapshot
  for base in Scenario.named file text do
    for directory in base.parent?.toList ++ [base] do
      snapshot ← snapshot.list directory
    let ctx : Context := ⟨snapshot.disk.host, Documents.empty, settings⟩
    for entry in (ctx.resolver.packageEntry? base).toList do
      for directory in (base.join entry).parent?.toList do
        snapshot ← snapshot.list directory
  return (Scenario.targets settings snapshot.disk.host file text, snapshot)

/-- Follows files until nothing new is found. -/
partial def follow (settings : Settings) (snapshot : Snapshot) : List Path → IO Snapshot
  | [] => return snapshot
  | file :: rest => do
    if file ∈ snapshot.followed then snapshot.follow settings rest
    else
      let snapshot := { snapshot with followed := snapshot.followed.insert file }
      let snapshot ← snapshot.takeAround settings file
      let companions := Scenario.companions settings snapshot.disk.host file
      match snapshot.disk.read file with
      | .error _ => snapshot.follow settings (companions ++ rest)
      | .ok text =>
        let (targets, snapshot) ← snapshot.takeReferences settings file text
        snapshot.follow settings (targets ++ companions ++ rest)

/-- The part of the disk that a scenario concerns. -/
def ofScenario (scenario : Scenario) : IO Disk := do
  let settings := scenario.settings
  let mut snapshot ← empty.follow settings scenario.files
  for (file, text) in scenario.texts do
    let (targets, next) ← snapshot.takeReferences settings file text
    snapshot ← next.follow settings targets
  return snapshot.disk

end Snapshot

/-- Says why a scenario comes to nothing. -/
def complain (name reason : String) : IO Unit :=
  IO.eprintln ("cannot load scenario " ++ name ++ ": " ++ reason)

/-- Plays the scenario that a text spells. -/
def playText (name text : String) : IO UInt32 := do
  let disk ← match Scenario.read text with
    | .ok scenario => Snapshot.ofScenario scenario
    | .error flaw => do
      complain name flaw.message
      pure Disk.empty
  let report := Scenario.playText text .echo disk.host
  for line in report.lines do
    IO.println line.render
  return report.status

/-- Plays the scenario in the file that is named. -/
def playFile (name : String) : IO UInt32 := do
  try playText name (← IO.FS.readFile name)
  catch e =>
    complain name (toString e)
    return 1

end Codebase

def main (args : List String) : IO UInt32 :=
  match args with
  | [] => do
    IO.eprintln "usage: projgraph <scenario.json>"
    return 2
  | name :: _ => Codebase.playFile name
