import Codebase.Manifest.Lookup
import Codebase.Manifest.Roots
import Codebase.Proofs.Data.Table
import Codebase.Proofs.Host.Report
import Codebase.Proofs.Path
/-!
# Where a manifest lies, and what it names

* `parent?_of_found` — whatever the names, a manifest that is loaded lies in some directory.
* `path?_lookup_eq_some_iff` — with plain names, a lookup comes upon the foremost manifest of the
  directory, and upon nothing else.
* `foremost_of_found`, `foremost_of_failed`, `not_foremost_of_notFound` — what each outcome of a
  lookup says about that manifest.
* `hasFile_of_mem_roots` — what a manifest names exists, unless a listing shows it all the same.
-/

namespace Codebase.Manifest

variable {host : Host} {names extensions : List String} {directory path : Path}
  {manifest : Manifest} {text reason : String}

/-! ## Where it lies -/

theorem path_of_parse (h : parse path text = .ok manifest) : manifest.path = path := by
  unfold parse at h
  simp only at h
  split at h
  · cases h
  · split at h
    · cases h
    · split at h
      · cases h
      · split at h
        · cases h
        · cases h
          rfl

/-- The place of a manifest that a lookup comes upon. -/
def Lookup.path? : Lookup → Option Path
  | found manifest => some manifest.path
  | notFound => none
  | failed path _ => some path

theorem path?_lookup (host : Host) (names : List String) (directory : Path) :
    (lookup host names directory).path? = (names.map directory.join).find? host.hasFile := by
  unfold lookup
  split
  · rename_i hnone
    rw [hnone]
    rfl
  · rename_i path hfound
    rw [hfound]
    split
    · rfl
    · split
      · rfl
      · rename_i manifest hparse
        exact congrArg some (path_of_parse hparse)

theorem parent?_of_parse (h : parse path text = .ok manifest) : path.parent? ≠ none := by
  intro hnone
  unfold parse at h
  rw [hnone] at h
  simp only at h
  split at h <;> cases h

/-- A manifest that is found was read from a text. -/
theorem exists_parse_of_found (h : lookup host names directory = .found manifest) :
    ∃ path text, parse path text = .ok manifest := by
  unfold lookup at h
  split at h
  · cases h
  · split at h
    · cases h
    · split at h
      · cases h
      · rename_i hparse
        cases h
        exact ⟨_, _, hparse⟩

/-- A manifest that is found lies in a directory. -/
theorem parent?_of_found (h : lookup host names directory = .found manifest) :
    manifest.path.parent? ≠ none := by
  obtain ⟨path, text, hparse⟩ := exists_parse_of_found h
  rw [path_of_parse hparse]
  exact parent?_of_parse hparse

/-! ## Which one is found -/

/-- What the text of the file says as a manifest. -/
def load (host : Host) (path : Path) : Except Error Manifest := (host.read path).bind (parse path)

/-- The file has a manifest name, and its directory has no file with a name that comes before. -/
def Foremost (host : Host) (names : List String) (path : Path) : Prop :=
  host.hasFile path = true ∧ ∃ directory, path.parent? = some directory ∧
    ∃ earlier later, names = earlier ++ path.fileName :: later ∧
      ∀ name ∈ earlier, host.hasFile (directory.join name) = false

/-- A lookup loads the manifest that it comes upon. -/
theorem lookup_of_path? (h : (lookup host names directory).path? = some path) :
    (∃ manifest, load host path = .ok manifest ∧
      lookup host names directory = .found manifest) ∨
    ∃ e, load host path = .error e ∧ lookup host names directory = .failed path e.message := by
  rw [path?_lookup] at h
  unfold lookup load
  simp only [h]
  cases host.read path with
  | error e => exact .inr ⟨e, rfl, rfl⟩
  | ok text =>
    cases hparse : parse path text with
    | error e => exact .inr ⟨e, hparse, by simp only [hparse]⟩
    | ok manifest => exact .inl ⟨manifest, hparse, by simp only [hparse]⟩

/-- What a lookup comes upon is the foremost manifest of the directory. -/
theorem path?_lookup_eq_some_iff (hplain : ∀ name ∈ names, Segment.Plain name) :
    (lookup host names directory).path? = some path ↔
      path.parent? = some directory ∧ Foremost host names path := by
  rw [path?_lookup, List.find?_eq_some_iff_append]
  constructor
  · rintro ⟨hfile, before, after, hnames, hmissing⟩
    obtain ⟨earlier, rest, rfl, rfl, hrest⟩ := List.map_eq_append_iff.1 hnames
    obtain ⟨name, later, rfl, rfl, -⟩ := List.map_eq_cons_iff.1 hrest
    have hname : Segment.Plain name := hplain name (by simp)
    refine ⟨Path.parent?_join hname directory, hfile, directory, Path.parent?_join hname directory,
      earlier, later, ?_, ?_⟩
    · rw [Path.fileName_join hname]
    · intro other hother
      have hnot := hmissing (directory.join other) (List.mem_map_of_mem hother)
      simpa using hnot
  · rintro ⟨hparent, hfile, place, hplace, earlier, later, hnames, hmissing⟩
    rw [hparent] at hplace
    cases hplace
    have hname : Segment.Plain path.fileName := hplain path.fileName (by rw [hnames]; simp)
    refine ⟨hfile, earlier.map directory.join, later.map directory.join, ?_, ?_⟩
    · rw [hnames, List.map_append, List.map_cons, Path.join_fileName hparent hname]
    · intro other hother
      obtain ⟨name, hearlier, rfl⟩ := List.mem_map.1 hother
      rw [hmissing name hearlier]
      rfl

/-- With plain names, what is found for a directory lies in it. -/
theorem parent?_of_lookup (hplain : ∀ name ∈ names, Segment.Plain name)
    (h : (lookup host names directory).path? = some path) : path.parent? = some directory :=
  ((path?_lookup_eq_some_iff hplain).1 h).1

theorem foremost_of_found (hplain : ∀ name ∈ names, Segment.Plain name)
    (h : lookup host names directory = .found manifest) :
    manifest.path.parent? = some directory ∧ Foremost host names manifest.path ∧
      load host manifest.path = .ok manifest := by
  have hpath : (lookup host names directory).path? = some manifest.path := by rw [h]; rfl
  obtain ⟨hparent, hforemost⟩ := (path?_lookup_eq_some_iff hplain).1 hpath
  refine ⟨hparent, hforemost, ?_⟩
  rcases lookup_of_path? hpath with ⟨loaded, hload, hfound⟩ | ⟨e, -, hfailed⟩
  · rw [h] at hfound
    cases hfound
    exact hload
  · rw [h] at hfailed
    cases hfailed

theorem foremost_of_failed (hplain : ∀ name ∈ names, Segment.Plain name)
    (h : lookup host names directory = .failed path reason) :
    path.parent? = some directory ∧ Foremost host names path ∧
      ∃ e, load host path = .error e ∧ e.message = reason := by
  have hpath : (lookup host names directory).path? = some path := by rw [h]; rfl
  obtain ⟨hparent, hforemost⟩ := (path?_lookup_eq_some_iff hplain).1 hpath
  refine ⟨hparent, hforemost, ?_⟩
  rcases lookup_of_path? hpath with ⟨loaded, -, hfound⟩ | ⟨e, hload, hfailed⟩
  · rw [h] at hfound
    cases hfound
  · rw [h] at hfailed
    cases hfailed
    exact ⟨e, hload, rfl⟩

theorem not_foremost_of_notFound (hplain : ∀ name ∈ names, Segment.Plain name)
    (h : lookup host names directory = .notFound) (hparent : path.parent? = some directory) :
    ¬ Foremost host names path := by
  intro hforemost
  have hpath := (path?_lookup_eq_some_iff hplain).2 ⟨hparent, hforemost⟩
  rw [h] at hpath
  cases hpath

/-- A directory has one foremost manifest at most. -/
theorem Foremost.unique {other : Path} (hplain : ∀ name ∈ names, Segment.Plain name)
    (h : Foremost host names path) (hother : Foremost host names other)
    (hbeside : other.parent? = path.parent?) : other = path := by
  obtain ⟨directory, hparent, -⟩ := h.2
  have hfound := (path?_lookup_eq_some_iff hplain).2 ⟨hparent, h⟩
  have hfoundOther := (path?_lookup_eq_some_iff hplain).2 ⟨hbeside.trans hparent, hother⟩
  rw [hfound] at hfoundOther
  exact (Option.some.inj hfoundOther).symm

/-! ## What it names -/

/-- A walk picks up only what a listing shows. -/
theorem mem_found_of_step {rules : Rules} {walk : Walk} (hhides : host.Hides path)
    (h : path ∈ (walk.step rules host).found) : path ∈ walk.found := by
  unfold Walk.step at h
  split at h
  · exact h
  · rename_i listed rest hpending
    split at h
    · exact h
    · rename_i entries hlist
      rcases Roster.mem_foldl_insert.1 h with hfound | hpicked
      · exact hfound
      · obtain ⟨entry, hentry, hpath⟩ := List.mem_map.1 hpicked
        obtain ⟨hshown, hpicks⟩ := List.mem_filter.1 hentry
        unfold Rules.picks at hpicks
        rw [hhides _ entries hlist entry hshown hpath] at hpicks
        cases hpicks

theorem mem_found_of_run {rules : Rules} (hhides : host.Hides path) (fuel : Nat) {walk : Walk}
    (h : path ∈ (walk.run rules host fuel).found) : path ∈ walk.found := by
  induction fuel generalizing walk with
  | zero => exact h
  | succ fuel ih =>
    unfold Walk.run at h
    split at h
    · exact h
    · exact mem_found_of_step hhides (ih h)

/-- **A path that no listing shows is named by a manifest only if it is there.** -/
theorem hasFile_of_mem_roots (hhides : host.Hides path)
    (h : path ∈ manifest.roots host names extensions) : host.hasFile path = true := by
  have hfound : path ∈ (manifest.startWalk host).found := mem_found_of_run hhides _ h
  exact (List.mem_filter.1 (Roster.mem_ofList.1 hfound)).2

end Codebase.Manifest
