import Codebase.Host.Memory
import Codebase.Proofs.Data.Table
import Codebase.Proofs.Host.Listing
import Codebase.Proofs.Host.Report
/-!
# The tree of a host in memory

A host in memory stores places and computes listings from them.  It is tidy when no file is also a
directory and no name of a place is read as a drive; then its listings are those of a tree.  For the
listing of one directory it is enough that no name directly in it is read as a drive.

* `mem_path_children_iff` — a listing shows what each name in the directory is read as from there.
* `shows_eq_some_iff` — what a place shows of a directory above it.
* `mem_children_iff` — a listing has exactly the files and directories that lie in the directory.
* `hasDirectory_of_isUnder` — what lies above a stored place is a directory.
* `Tidy.of_addFile`, `hasAnyOf_addFile_iff` — what one more file changes.
-/

namespace Codebase.Memory

variable {memory : Memory} {directory place p : Path} {entry : Host.Entry}

/-- Everything that is stored. -/
def places (memory : Memory) : List Path := memory.files.keys ++ memory.directories.toList

/-- No file is also a directory, and no name of a place is read as a drive. -/
structure Tidy (memory : Memory) : Prop where
  apart : ∀ p, memory.hasFile p = true → memory.hasDirectory p = false
  plain : ∀ place ∈ memory.places, ∀ name ∈ place.names,
    Segment.startsWithDrive name.text = false

/-! ## Directories -/

theorem hasFile_iff_mem : memory.hasFile p = true ↔ p ∈ memory.files.keys :=
  Table.contains_iff

/-- Whether a host is tidy can be read off what is stored. -/
theorem tidy_iff : memory.Tidy ↔ (∀ p ∈ memory.files.keys, memory.hasDirectory p = false) ∧
    ∀ place ∈ memory.places, ∀ name ∈ place.names, Segment.startsWithDrive name.text = false :=
  ⟨fun h => ⟨fun p hp => h.apart p (hasFile_iff_mem.2 hp), h.plain⟩,
    fun ⟨hapart, hplain⟩ => ⟨fun p hfile => hapart p (hasFile_iff_mem.1 hfile), hplain⟩⟩

instance (memory : Memory) : Decidable memory.Tidy := decidable_of_iff _ tidy_iff.symm

theorem hasDirectory_iff : memory.hasDirectory p = true ↔
    p.isRoot = true ∨ p ∈ memory.directories.toList ∨
      ∃ place ∈ memory.places, place ≠ p ∧ place.isUnder p = true := by
  unfold hasDirectory places
  simp only [Bool.or_eq_true, decide_eq_true_eq, List.any_eq_true, Bool.and_eq_true, or_assoc]

/-- What lies above a stored place is a directory. -/
theorem hasDirectory_of_isUnder (hplace : place ∈ memory.places)
    (hunder : place.isUnder p = true) (hne : place ≠ p) : memory.hasDirectory p = true :=
  hasDirectory_iff.2 (.inr (.inr ⟨place, hplace, hne, hunder⟩))

theorem isRoot_eq_false_of_parent? (hparent : p.parent? = some directory) : p.isRoot = false := by
  obtain ⟨name, rfl⟩ := Path.parent?_eq_some_iff.1 hparent
  rfl

/-- Something is stored in every place that is a file or a directory, or beneath it. -/
theorem exists_place_iff (hparent : p.parent? = some directory) :
    (∃ place ∈ memory.places, place.isUnder p = true) ↔
      memory.hasFile p = true ∨ memory.hasDirectory p = true := by
  rw [hasDirectory_iff, hasFile_iff_mem, isRoot_eq_false_of_parent? hparent]
  constructor
  · rintro ⟨place, hplace, hunder⟩
    by_cases heq : place = p
    · subst heq
      rcases List.mem_append.1 hplace with hfile | hdirectory
      · exact .inl hfile
      · exact .inr (.inr (.inl hdirectory))
    · exact .inr (.inr (.inr ⟨place, hplace, heq, hunder⟩))
  · rintro (hfile | hroot | hdirectory | ⟨place, hplace, -, hunder⟩)
    · exact ⟨p, List.mem_append_left _ hfile, Path.isUnder_refl p⟩
    · cases hroot
    · exact ⟨p, List.mem_append_right _ hdirectory, Path.isUnder_refl p⟩
    · exact ⟨place, hplace, hunder⟩

/-! ## Names in a directory -/

/-- The names that lead from the directory to what is stored beneath it, each to a place directly in
the directory. -/
def namesIn (memory : Memory) (directory : Path) : List Segment :=
  memory.places.filterMap fun place => (place.below? directory).bind List.head?

/-- No name directly in the directory is read as a drive. -/
def PlainIn (memory : Memory) (directory : Path) : Prop :=
  ∀ name ∈ memory.namesIn directory, Segment.startsWithDrive name.text = false

theorem mem_namesIn_iff {name : Segment} : name ∈ memory.namesIn directory ↔
    ∃ place ∈ memory.places, ∃ rest, place.below? directory = some (name :: rest) := by
  unfold namesIn
  simp only [List.mem_filterMap, Option.bind_eq_some_iff, List.head?_eq_some_iff]
  refine exists_congr fun place => and_congr_right fun _ => ?_
  constructor
  · rintro ⟨_, hbelow, rest, rfl⟩
    exact ⟨rest, hbelow⟩
  · rintro ⟨rest, hbelow⟩
    exact ⟨_, hbelow, rest, rfl⟩

/-- A name in the directory leads to a file or a directory. -/
theorem mem_namesIn_iff_stored {name : Segment} : name ∈ memory.namesIn directory ↔
    memory.hasFile ⟨directory.root, name :: directory.names⟩ = true ∨
      memory.hasDirectory ⟨directory.root, name :: directory.names⟩ = true := by
  have hparent : (⟨directory.root, name :: directory.names⟩ : Path).parent? = some directory := rfl
  rw [← exists_place_iff hparent, mem_namesIn_iff]
  refine exists_congr fun place => and_congr_right fun _ => ?_
  unfold Path.isUnder
  simp only [Option.isSome_iff_exists, Path.below?_eq_some_cons_iff]

theorem Tidy.plainIn (h : memory.Tidy) (directory : Path) : memory.PlainIn directory := by
  intro name hname
  obtain ⟨place, hplace, rest, hbelow⟩ := mem_namesIn_iff.1 hname
  refine h.plain place hplace name ?_
  rw [(Path.below?_eq_some_iff.1 hbelow).2]
  simp

/-! ## Listings -/

theorem shows_cons {isFile : Bool} {name : Segment} {rest : List Segment}
    (h : place.below? directory = some (name :: rest)) :
    shows directory isFile place =
      some (directory.join name.text, !rest.isEmpty || !isFile) := by
  unfold shows
  rw [h]

/-- A place shows a directory nothing, or what its first name from there is read as. -/
theorem exists_of_shows {isFile isDirectory : Bool}
    (h : shows directory isFile place = some (p, isDirectory)) :
    ∃ name rest, place.below? directory = some (name :: rest) ∧ p = directory.join name.text := by
  cases hbelow : place.below? directory with
  | none =>
    unfold shows at h
    rw [hbelow] at h
    cases h
  | some names =>
    cases names with
    | nil =>
      unfold shows at h
      rw [hbelow] at h
      cases h
    | cons name rest =>
      rw [shows_cons hbelow] at h
      cases h
      exact ⟨name, rest, rfl, rfl⟩

theorem exists_sighting_iff_name : (∃ seen ∈ memory.sightings directory, seen.1 = p) ↔
    ∃ name ∈ memory.namesIn directory, p = directory.join name.text := by
  unfold sightings
  simp only [List.mem_append, List.mem_filterMap, mem_namesIn_iff]
  constructor
  · rintro ⟨⟨_, isDirectory⟩, ⟨place, hplace, hshows⟩ | ⟨place, hplace, hshows⟩, rfl⟩
    · obtain ⟨name, rest, hbelow, hp⟩ := exists_of_shows hshows
      exact ⟨name, ⟨place, List.mem_append_left _ hplace, rest, hbelow⟩, hp⟩
    · obtain ⟨name, rest, hbelow, hp⟩ := exists_of_shows hshows
      exact ⟨name, ⟨place, List.mem_append_right _ hplace, rest, hbelow⟩, hp⟩
  · rintro ⟨name, ⟨place, hplace, rest, hbelow⟩, rfl⟩
    rcases List.mem_append.1 hplace with hfile | hdirectory
    · exact ⟨_, .inl ⟨place, hfile, shows_cons hbelow⟩, rfl⟩
    · exact ⟨_, .inr ⟨place, hdirectory, shows_cons hbelow⟩, rfl⟩

/-- A listing shows what each name in the directory is read as from there. -/
theorem mem_path_children_iff : p ∈ (memory.children directory).map Host.Entry.path ↔
    ∃ name ∈ memory.namesIn directory, p = directory.join name.text := by
  rw [← exists_sighting_iff_name]
  unfold children Path.sort
  simp only [List.map_map, List.mem_map, List.mem_mergeSort, List.mem_eraseDups,
    Function.comp_apply]
  constructor
  · rintro ⟨_, hseen, rfl⟩
    exact hseen
  · exact fun hseen => ⟨p, hseen, rfl⟩

/-- A place shows the child of the directory that it is or lies in, as a directory unless it is
that child and a file. -/
theorem shows_eq_some_iff {isFile isDirectory : Bool}
    (hplain : ∀ name rest, place.below? directory = some (name :: rest) →
      Segment.startsWithDrive name.text = false) :
    shows directory isFile place = some (p, isDirectory) ↔
      p.parent? = some directory ∧ place.isUnder p = true ∧
        isDirectory = (decide (place ≠ p) || !isFile) := by
  have hshown : ∀ {name rest}, place.below? directory = some (name :: rest) →
      shows directory isFile place =
        some (⟨directory.root, name :: directory.names⟩,
          decide (place ≠ ⟨directory.root, name :: directory.names⟩) || !isFile) := by
    intro name rest hbelow
    have hnested : (!rest.isEmpty) =
        decide (place ≠ ⟨directory.root, name :: directory.names⟩) := by
      rw [Bool.eq_iff_iff, decide_eq_true_eq, ne_eq, ← Path.below?_eq_some_nil_iff,
        Path.below?_eq_some_cons_iff.1 hbelow]
      simp
    rw [shows_cons hbelow, hnested, Path.join_plain ⟨name.allowed, hplain name rest hbelow⟩]
  constructor
  · intro h
    obtain ⟨name, rest, hbelow, -⟩ := exists_of_shows h
    rw [hshown hbelow] at h
    cases h
    exact ⟨rfl, Option.isSome_iff_exists.2 ⟨rest, Path.below?_eq_some_cons_iff.1 hbelow⟩, rfl⟩
  · rintro ⟨hparent, hunder, rfl⟩
    obtain ⟨name, rfl⟩ := Path.parent?_eq_some_iff.1 hparent
    obtain ⟨rest, hrest⟩ := Option.isSome_iff_exists.1 hunder
    exact hshown (Path.below?_eq_some_cons_iff.2 hrest)

/-- What the sightings of a directory are. -/
theorem mem_sightings_iff (h : memory.PlainIn directory) {isDirectory : Bool} :
    (p, isDirectory) ∈ memory.sightings directory ↔
      p.parent? = some directory ∧
        ((∃ place ∈ memory.files.keys, place.isUnder p = true ∧ isDirectory = decide (place ≠ p)) ∨
          ∃ place ∈ memory.directories.toList, place.isUnder p = true ∧ isDirectory = true) := by
  have hplain : ∀ place ∈ memory.places, ∀ name rest,
      place.below? directory = some (name :: rest) → Segment.startsWithDrive name.text = false :=
    fun place hplace name rest hbelow => h name (mem_namesIn_iff.2 ⟨place, hplace, rest, hbelow⟩)
  have hfile : ∀ place ∈ memory.files.keys, shows directory true place = some (p, isDirectory) ↔
      p.parent? = some directory ∧ place.isUnder p = true ∧ isDirectory = decide (place ≠ p) := by
    intro place hplace
    rw [shows_eq_some_iff (hplain place (List.mem_append_left _ hplace)), Bool.not_true,
      Bool.or_false]
  have hdirectory : ∀ place ∈ memory.directories.toList,
      shows directory false place = some (p, isDirectory) ↔
        p.parent? = some directory ∧ place.isUnder p = true ∧ isDirectory = true := by
    intro place hplace
    rw [shows_eq_some_iff (hplain place (List.mem_append_right _ hplace)), Bool.not_false,
      Bool.or_true]
  unfold sightings
  rw [List.mem_append, List.mem_filterMap, List.mem_filterMap]
  constructor
  · rintro (⟨place, hplace, hshows⟩ | ⟨place, hplace, hshows⟩)
    · obtain ⟨hparent, hsight⟩ := (hfile place hplace).1 hshows
      exact ⟨hparent, .inl ⟨place, hplace, hsight⟩⟩
    · obtain ⟨hparent, hsight⟩ := (hdirectory place hplace).1 hshows
      exact ⟨hparent, .inr ⟨place, hplace, hsight⟩⟩
  · rintro ⟨hparent, ⟨place, hplace, hsight⟩ | ⟨place, hplace, hsight⟩⟩
    · exact .inl ⟨place, hplace, (hfile place hplace).2 ⟨hparent, hsight⟩⟩
    · exact .inr ⟨place, hplace, (hdirectory place hplace).2 ⟨hparent, hsight⟩⟩

/-- A directory shows what is a file or a directory directly in it. -/
theorem exists_sighting_iff (h : memory.PlainIn directory) :
    (∃ seen ∈ memory.sightings directory, seen.1 = p) ↔
      p.parent? = some directory ∧ (memory.hasFile p = true ∨ memory.hasDirectory p = true) := by
  constructor
  · rintro ⟨⟨_, isDirectory⟩, hseen, rfl⟩
    obtain ⟨hparent, hplace⟩ := (mem_sightings_iff h).1 hseen
    refine ⟨hparent, (exists_place_iff hparent).1 ?_⟩
    rcases hplace with ⟨place, hplace, hunder, -⟩ | ⟨place, hplace, hunder, -⟩
    · exact ⟨place, List.mem_append_left _ hplace, hunder⟩
    · exact ⟨place, List.mem_append_right _ hplace, hunder⟩
  · rintro ⟨hparent, hstored⟩
    obtain ⟨place, hplace, hunder⟩ := (exists_place_iff hparent).2 hstored
    rcases List.mem_append.1 hplace with hfile | hdirectory
    · exact ⟨(p, decide (place ≠ p)),
        (mem_sightings_iff h).2 ⟨hparent, .inl ⟨place, hfile, hunder, rfl⟩⟩, rfl⟩
    · exact ⟨(p, true),
        (mem_sightings_iff h).2 ⟨hparent, .inr ⟨place, hdirectory, hunder, rfl⟩⟩, rfl⟩

/-- What is shown as a directory is one. -/
theorem sighted_as_directory_iff (h : memory.PlainIn directory)
    (hparent : p.parent? = some directory) :
    (p, true) ∈ memory.sightings directory ↔ memory.hasDirectory p = true := by
  rw [mem_sightings_iff h, hasDirectory_iff, isRoot_eq_false_of_parent? hparent]
  constructor
  · rintro ⟨-, ⟨place, hplace, hunder, hne⟩ | ⟨place, hplace, hunder, -⟩⟩
    · exact .inr (.inr ⟨place, List.mem_append_left _ hplace, of_decide_eq_true hne.symm, hunder⟩)
    · by_cases heq : place = p
      · exact .inr (.inl (heq ▸ hplace))
      · exact .inr (.inr ⟨place, List.mem_append_right _ hplace, heq, hunder⟩)
  · rintro (hroot | hdirectory | ⟨place, hplace, hne, hunder⟩)
    · cases hroot
    · exact ⟨hparent, .inr ⟨p, hdirectory, Path.isUnder_refl p, rfl⟩⟩
    · rcases List.mem_append.1 hplace with hfile | hdirectory
      · exact ⟨hparent, .inl ⟨place, hfile, hunder, (decide_eq_true hne).symm⟩⟩
      · exact ⟨hparent, .inr ⟨place, hdirectory, hunder, rfl⟩⟩

/-- **A listing has exactly the files and directories that lie in the directory.** -/
theorem mem_children_iff (h : memory.PlainIn directory) : entry ∈ memory.children directory ↔
    entry.path.parent? = some directory ∧
      (memory.hasFile entry.path = true ∨ memory.hasDirectory entry.path = true) ∧
      entry.isDirectory = memory.hasDirectory entry.path := by
  obtain ⟨path, isDirectory⟩ := entry
  unfold children Path.sort
  simp only [List.mem_map, List.mem_mergeSort, List.mem_eraseDups, Host.Entry.mk.injEq]
  have hmark : ∀ {p : Path}, p.parent? = some directory →
      ((memory.sightings directory).any fun s => s.1 = p && s.2) = memory.hasDirectory p := by
    intro p hparent
    rw [Bool.eq_iff_iff, ← sighted_as_directory_iff h hparent, List.any_eq_true]
    constructor
    · rintro ⟨⟨_, _⟩, hseen, hsame⟩
      simp only [Bool.and_eq_true, decide_eq_true_eq] at hsame
      obtain ⟨rfl, rfl⟩ := hsame
      exact hseen
    · exact fun hseen => ⟨(p, true), hseen, by simp⟩
  rw [← and_assoc, ← exists_sighting_iff h]
  constructor
  · rintro ⟨p, hseen, rfl, rfl⟩
    exact ⟨hseen, hmark ((exists_sighting_iff h).1 hseen).1⟩
  · rintro ⟨hseen, rfl⟩
    exact ⟨path, hseen, rfl, hmark ((exists_sighting_iff h).1 hseen).1⟩

/-- A listing shows nothing twice. -/
theorem nodup_children (memory : Memory) (directory : Path) :
    ((memory.children directory).map Host.Entry.path).Nodup := by
  unfold children Path.sort
  rw [List.map_map]
  show (List.map id _).Nodup
  rw [List.map_id, (List.mergeSort_perm _ _).nodup_iff]
  exact Roster.nodup_eraseDups _

theorem list_eq_ok_iff {entries : List Host.Entry} :
    memory.list directory = .ok entries ↔
      memory.hasDirectory directory = true ∧ entries = memory.children directory := by
  unfold list
  split
  · rename_i hdirectory
    simp [hdirectory, eq_comm]
  · rename_i hdirectory
    simp [hdirectory]

/-! ## Files by name -/

variable {names : List String}

/-- The directory contains a file with one of the names. -/
def HasAnyOf (memory : Memory) (names : List String) (directory : Path) : Prop :=
  ∃ name ∈ names, memory.hasFile (directory.join name) = true

/-- Plain names are looked for directly in the directory. -/
theorem hasAnyOf_iff (hplain : ∀ name ∈ names, Segment.Plain name) :
    memory.HasAnyOf names directory ↔
      ∃ file, memory.hasFile file = true ∧ file.parent? = some directory ∧
        file.fileName ∈ names := by
  constructor
  · rintro ⟨name, hname, hfile⟩
    have hplainName := hplain name hname
    refine ⟨_, hfile, Path.parent?_join hplainName directory, ?_⟩
    rw [Path.fileName_join hplainName]
    exact hname
  · rintro ⟨file, hfile, hparent, hname⟩
    refine ⟨file.fileName, hname, ?_⟩
    rw [Path.join_fileName hparent (hplain _ hname)]
    exact hfile

/-! ## One more file -/

variable {path : Path} {text : String}

theorem mem_places_addFile : place ∈ (memory.addFile path text).places ↔
    place = path ∨ place ∈ memory.places := by
  unfold places
  rw [List.mem_append, List.mem_append, ← hasFile_iff_mem, ← hasFile_iff_mem, hasFile_addFile,
    or_assoc]
  rfl

theorem hasDirectory_addFile (h : memory.hasDirectory p = true) :
    (memory.addFile path text).hasDirectory p = true := by
  rw [hasDirectory_iff] at h ⊢
  refine h.imp_right (Or.imp_right ?_)
  rintro ⟨place, hplace, hbeneath⟩
  exact ⟨place, mem_places_addFile.2 (.inr hplace), hbeneath⟩

/-- A host that is tidy with a file was so without it. -/
theorem Tidy.of_addFile (h : (memory.addFile path text).Tidy) : memory.Tidy where
  apart p hfile := by
    refine Bool.eq_false_iff.2 fun hdirectory => ?_
    have hapart := h.apart p (hasFile_addFile.2 (.inr hfile))
    rw [hasDirectory_addFile hdirectory] at hapart
    cases hapart
  plain place hplace := h.plain place (mem_places_addFile.2 (.inr hplace))

theorem HasAnyOf.addFile (h : memory.HasAnyOf names directory) :
    (memory.addFile path text).HasAnyOf names directory := by
  obtain ⟨name, hname, hfile⟩ := h
  exact ⟨name, hname, hasFile_addFile.2 (.inr hfile)⟩

/-- A file with another name gives no directory a file with one of these. -/
theorem hasAnyOf_addFile_iff (hplain : ∀ name ∈ names, Segment.Plain name)
    (hother : path.fileName ∉ names) :
    (memory.addFile path text).HasAnyOf names directory ↔ memory.HasAnyOf names directory := by
  refine ⟨fun h => ?_, HasAnyOf.addFile⟩
  obtain ⟨file, hfile, hparent, hname⟩ := (hasAnyOf_iff hplain).1 h
  refine (hasAnyOf_iff hplain).2 ⟨file, ?_, hparent, hname⟩
  refine (hasFile_addFile.1 hfile).resolve_left ?_
  rintro rfl
  exact hother hname

end Codebase.Memory
