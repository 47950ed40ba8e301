import Codebase.Proofs.Glob
import Codebase.Proofs.Manifest.Ending
/-!
# What a manifest names

In a tidy host a walk ends and comes to the directories that it should, so a manifest names the
files that it covers, unless a project of its own lies on the way.

* `visits_iff` — the directories of a walk are those with nothing on the way that it skips.
* `not_excluded_of_covers` — nothing on the way to a covered file is excluded.
* `mem_roots_iff` — what a manifest names.
* `enumeration_is_exact` — the same of the enumeration as a whole, with its order.
-/

namespace Codebase.Manifest

variable {memory : Memory} {rules : Rules} {walk : Walk} {directory path : Path}

/-! ## The directories of a walk -/

/-- The bound of walks is large enough for a walk in a tidy host. -/
theorem ended_of_tidy (h : memory.Tidy) (rules : Rules) :
    ((Walk.step rules memory.host)^[walkBound memory.host]
      (rules.manifest.startWalk memory.host)).pending = [] :=
  ended_of_plainIn fun _ _ => h.plainIn _

/-- Whatever lies in a directory makes it one. -/
theorem hasDirectory_of_parent? (hparent : path.parent? = some directory)
    (hstored : memory.hasFile path = true ∨ memory.hasDirectory path = true) :
    memory.hasDirectory directory = true := by
  obtain ⟨place, hplace, hunder⟩ := (Memory.exists_place_iff hparent).2 hstored
  have hchild := Path.isUnder_of_parent? hparent
  refine Memory.hasDirectory_of_isUnder hplace (Path.isUnder_trans hunder hchild) ?_
  rintro rfl
  exact Path.ne_of_parent? hparent (Path.isUnder_antisymm hchild hunder)

/-- The walk passes the directory, or would if it came to it. -/
def Rules.Passes (rules : Rules) (memory : Memory) (directory : Path) : Prop :=
  memory.hasDirectory directory = true ∧ rules.manifest.excludesDirectory directory = false ∧
    rules.isNested memory.host directory = false

theorem enters_iff {entry : Host.Entry}
    (hdirectory : entry.isDirectory = memory.hasDirectory entry.path) :
    rules.enters memory.host entry = true ↔ rules.Passes memory entry.path := by
  unfold Rules.enters Rules.Passes
  rw [hdirectory, Bool.and_eq_true, Bool.and_eq_true, Bool.not_eq_true', Bool.not_eq_true',
    and_assoc]

/-- From a directory a walk goes on to each child that it passes. -/
theorem Rules.Visits.child (h : memory.Tidy) (hvisits : rules.Visits memory.host directory)
    (hparent : path.parent? = some directory) (hpasses : rules.Passes memory path) :
    rules.Visits memory.host path := by
  have hlist : memory.list directory = .ok (memory.children directory) :=
    Memory.list_eq_ok_iff.2 ⟨hasDirectory_of_parent? hparent (.inr hpasses.1), rfl⟩
  have hentry : (⟨path, true⟩ : Host.Entry) ∈ memory.children directory :=
    (Memory.mem_children_iff (h.plainIn _)).2 ⟨hparent, .inr hpasses.1, hpasses.1.symm⟩
  exact .enter hvisits hlist hentry ((enters_iff hpasses.1.symm).2 hpasses)

/-- **The directories of a walk are those that it reaches through directories that it passes.** -/
theorem visits_iff (h : memory.Tidy) : rules.Visits memory.host directory ↔
    directory.isUnder rules.manifest.directory = true ∧
      ∀ above : Path, directory.isUnder above = true →
        above.isUnder rules.manifest.directory = true → above ≠ rules.manifest.directory →
          rules.Passes memory above := by
  constructor
  · intro hvisits
    induction hvisits with
    | start =>
      refine ⟨Path.isUnder_refl _, fun above hunder habove hne => ?_⟩
      exact absurd (Path.isUnder_antisymm habove hunder) hne
    | enter _ hlist hentry henters ih =>
      obtain ⟨-, rfl⟩ := Memory.list_eq_ok_iff.1 hlist
      obtain ⟨hparent, -, hdirectory⟩ := (Memory.mem_children_iff (h.plainIn _)).1 hentry
      refine ⟨(Path.isUnder_iff_of_parent? hparent).2 (.inr ih.1),
        fun above hunder habove hne => ?_⟩
      rcases (Path.isUnder_iff_of_parent? hparent).1 hunder with rfl | hunder
      · exact (enters_iff hdirectory).1 henters
      · exact ih.2 above hunder habove hne
  · obtain ⟨root, names⟩ := directory
    rintro ⟨hunder, hpasses⟩
    induction names with
    | nil =>
      have hstart : (⟨root, []⟩ : Path) = rules.manifest.directory := by
        by_contra hne
        obtain ⟨_, hparent, -⟩ := Path.exists_parent_of_isUnder hunder hne
        cases hparent
      rw [hstart]
      exact .start
    | cons name above ih =>
      have hparent : (⟨root, name :: above⟩ : Path).parent? = some ⟨root, above⟩ := rfl
      by_cases hstart : (⟨root, name :: above⟩ : Path) = rules.manifest.directory
      · rw [hstart]
        exact .start
      · have hunder' := ((Path.isUnder_iff_of_parent? hparent).1 hunder).resolve_left hstart
        have hchild := Path.isUnder_of_parent? hparent
        refine .child h (ih hunder' fun other hother => ?_) hparent
          (hpasses _ (Path.isUnder_refl _) hunder hstart)
        exact hpasses other (Path.isUnder_trans hchild hother)

/-! ## Roots -/

variable {manifest : Manifest} {names extensions : List String} {f : Path}

theorem covers_eq_true_iff : manifest.covers path extensions = true ↔
    path ∈ manifest.files ∨ (path.hasExtension extensions = true ∧
      ∃ relative, path.relativeTo? manifest.directory = some relative ∧ relative ≠ "" ∧
        manifest.included.accepts relative = true ∧
        manifest.excluded.accepts relative = false) := by
  unfold covers
  rw [Bool.or_eq_true, decide_eq_true_eq, Bool.and_eq_true]
  cases path.relativeTo? manifest.directory with
  | none => simp
  | some relative => simp [and_assoc]

theorem excluded_of_parse {text : String} (h : parse path text = .ok manifest) :
    ∃ globs, Globs.ofList globs = .ok manifest.excluded := by
  unfold parse at h
  simp only at h
  split at h
  · cases h
  · split at h
    · cases h
    · split at h
      · cases h
      · split at h
        · cases h
        · rename_i hexcluded
          cases h
          exact ⟨_, hexcluded⟩

/-- What a manifest covers by its globs lies beneath its directory, in nothing that it excludes. -/
theorem not_excluded_of_covers (hexcluded : ∃ globs, Globs.ofList globs = .ok manifest.excluded)
    (hcovers : manifest.covers path extensions = true) (hglobs : path ∉ manifest.files)
    {above : Path} (hunder : path.isUnder above = true) (hne : path ≠ above)
    (habove : above.isUnder manifest.directory = true) (hne' : above ≠ manifest.directory) :
    manifest.excludesDirectory above = false := by
  obtain ⟨-, relative, hrelative, -, -, haccepts⟩ :=
    (covers_eq_true_iff.1 hcovers).resolve_left hglobs
  obtain ⟨way, rest, hway, hthrough⟩ := Path.relativeTo?_through hunder hne habove hne'
  obtain ⟨globs, hset⟩ := hexcluded
  have hrest : relative = way ++ "/" ++ rest := Option.some.inj (hrelative.symm.trans hthrough)
  unfold excludesDirectory
  rw [hway]
  refine Bool.eq_false_iff.2 fun h => ?_
  have hway' : manifest.excluded.accepts way = true := (Bool.and_eq_true_iff.1 h).2
  rw [hrest, Globs.accepts_beneath hset hway' rest] at haccepts
  cases haccepts

/-- No project of its own lies on the way from the manifest to the file. -/
def Reaches (manifest : Manifest) (memory : Memory) (names : List String) (f : Path) : Prop :=
  ∀ parent, f.parent? = some parent → ∀ directory : Path, parent.isUnder directory = true →
    directory.isUnder manifest.directory = true → directory ≠ manifest.directory →
      ¬ memory.HasAnyOf names directory

theorem isNested_eq_false_iff :
    rules.isNested memory.host directory = false ↔
      ¬ memory.HasAnyOf rules.manifestNames directory := by
  unfold Rules.isNested Memory.HasAnyOf
  rw [← Bool.not_eq_true, List.any_eq_true]
  rfl

theorem picksIn_iff (h : memory.Tidy) : rules.PicksIn memory.host directory f ↔
    f.parent? = some directory ∧ memory.hasFile f = true ∧
      rules.manifest.covers f rules.extensions = true := by
  have hlisted : ∀ {entries}, memory.host.list directory = .ok entries ↔
      memory.hasDirectory directory = true ∧ entries = memory.children directory :=
    Memory.list_eq_ok_iff
  constructor
  · rintro ⟨entries, hlist, entry, hentry, hpicks, rfl⟩
    obtain ⟨-, rfl⟩ := hlisted.1 hlist
    obtain ⟨hparent, hstored, hdirectory⟩ := (Memory.mem_children_iff (h.plainIn _)).1 hentry
    obtain ⟨hfile, hcovers⟩ := Bool.and_eq_true_iff.1 hpicks
    rw [hdirectory, Bool.not_eq_true'] at hfile
    rw [hfile] at hstored
    exact ⟨hparent, hstored.resolve_right Bool.false_ne_true, hcovers⟩
  · rintro ⟨hparent, hfile, hcovers⟩
    have hentry : (⟨f, false⟩ : Host.Entry) ∈ memory.children directory :=
      (Memory.mem_children_iff (h.plainIn _)).2 ⟨hparent, .inl hfile, (h.apart f hfile).symm⟩
    have hdirectory := hasDirectory_of_parent? hparent (.inl hfile)
    exact ⟨_, hlisted.2 ⟨hdirectory, rfl⟩, _, hentry, hcovers, rfl⟩

/-- What a manifest covers by its globs lies in a directory beneath its own. -/
theorem exists_parent_of_covers (hcovers : manifest.covers f extensions = true)
    (hglobs : f ∉ manifest.files) :
    ∃ parent, f.parent? = some parent ∧ parent.isUnder manifest.directory = true := by
  obtain ⟨-, relative, hrelative, hne, -⟩ := (covers_eq_true_iff.1 hcovers).resolve_left hglobs
  have hother : f ≠ manifest.directory := by
    intro heq
    rw [Path.relativeTo?_eq_some_empty_iff.2 heq] at hrelative
    exact hne (Option.some.inj hrelative).symm
  have hunder : f.isUnder manifest.directory = true := by
    unfold Path.relativeTo? at hrelative
    obtain ⟨names, hbelow, -⟩ := Option.map_eq_some_iff.1 hrelative
    exact Option.isSome_iff_exists.2 ⟨names, hbelow⟩
  exact Path.exists_parent_of_isUnder hunder hother

/-- **A manifest names the files that it covers, unless a project of its own lies on the way.** -/
theorem mem_roots_iff (h : memory.Tidy)
    (hexcluded : ∃ globs, Globs.ofList globs = .ok manifest.excluded) :
    f ∈ manifest.roots memory.host names extensions ↔
      memory.hasFile f = true ∧ manifest.covers f extensions = true ∧
        (f ∈ manifest.files ∨ manifest.Reaches memory names f) := by
  let rules : Rules := ⟨manifest, names, extensions⟩
  have hstart : rules.Explores memory.host (manifest.startWalk memory.host) []
      (manifest.startWalk memory.host) := explores_start rfl
  obtain ⟨done, hexplores⟩ := exists_explores hstart (walkBound memory.host)
  have hfound : f ∈ manifest.roots memory.host names extensions ↔
      (f ∈ manifest.files ∧ memory.hasFile f = true) ∨
        ∃ directory, rules.Visits memory.host directory ∧
          rules.PicksIn memory.host directory f := by
    unfold roots
    rw [Roster.mem_toList, run_eq_iterate,
      hexplores.mem_found_iff (ended_of_tidy h rules)]
    refine or_congr_left ?_
    exact Roster.mem_ofList.trans List.mem_filter
  rw [hfound]
  constructor
  · rintro (⟨hfiles, hfile⟩ | ⟨directory, hvisits, hpicks⟩)
    · exact ⟨hfile, covers_eq_true_iff.2 (.inl hfiles), .inl hfiles⟩
    · obtain ⟨hparent, hfile, hcovers⟩ := (picksIn_iff h).1 hpicks
      refine ⟨hfile, hcovers, .inr fun parent hsame above hunder habove hne => ?_⟩
      rw [hparent] at hsame
      cases hsame
      exact isNested_eq_false_iff.1 (((visits_iff h).1 hvisits).2 above hunder habove hne).2.2
  · rintro ⟨hfile, hcovers, hreaches⟩
    by_cases hfiles : f ∈ manifest.files
    · exact .inl ⟨hfiles, hfile⟩
    · obtain ⟨parent, hparent, hunder⟩ := exists_parent_of_covers hcovers hfiles
      have hchild := Path.isUnder_of_parent? hparent
      refine .inr ⟨parent, (visits_iff h).2 ⟨hunder, fun above hbelow habove hne => ?_⟩,
        (picksIn_iff h).2 ⟨hparent, hfile, hcovers⟩⟩
      have hbeneath := Path.isUnder_trans hchild hbelow
      have hapart : f ≠ above := by
        rintro rfl
        exact Path.ne_of_parent? hparent (Path.isUnder_antisymm hchild hbelow)
      have hplace : f ∈ memory.places := List.mem_append_left _ (Memory.hasFile_iff_mem.1 hfile)
      have hclear := hreaches.resolve_left hfiles parent hparent above hbelow habove hne
      exact ⟨Memory.hasDirectory_of_isUnder hplace hbeneath hapart,
        not_excluded_of_covers hexcluded hcovers hfiles hbeneath hapart habove hne,
        isNested_eq_false_iff.2 hclear⟩

/-! ## The order of roots -/

/-- A walk keeps what it has found, in its order. -/
theorem found_prefix_step : walk.found.toList <+: (walk.step rules memory.host).found.toList := by
  cases hpending : walk.pending with
  | nil => rw [step_of_ended hpending]
  | cons directory rest =>
    cases hlist : memory.host.list directory with
    | error e => rw [step_of_error hpending hlist]
    | ok entries =>
      rw [step_of_ok hpending hlist, Roster.toList_foldl_insert]
      exact List.prefix_append _ _

theorem found_prefix_iterate (walk : Walk) (steps : Nat) :
    walk.found.toList <+: ((Walk.step rules memory.host)^[steps] walk).found.toList := by
  induction steps with
  | zero => exact List.prefix_refl _
  | succ steps ih =>
    rw [Function.iterate_succ_apply']
    exact ih.trans found_prefix_step

/-- **Enumerating a manifest is exact.**  In a tidy host the walk ends.  The roots are what it has
found then: none twice, the existing files that the manifest names one by one first and in its
order, and besides these exactly the existing files that it covers without a manifest in a
directory on the way.  Where manifest names are plain, such a manifest is a file directly in that
directory. -/
theorem enumeration_is_exact {text : String} (htidy : memory.Tidy)
    (hparse : parse path text = .ok manifest) (names extensions : List String) :
    let roots := manifest.roots memory.host names extensions
    let after (steps : Nat) : Walk :=
      (Walk.step ⟨manifest, names, extensions⟩ memory.host)^[steps] (manifest.startWalk memory.host)
    (∃ steps, (after steps).pending = []) ∧
    (∀ steps, (after steps).pending = [] → roots = (after steps).found.toList) ∧
    roots.Nodup ∧
    (manifest.files.filter memory.hasFile).eraseDups <+: roots ∧
    (∀ f, f ∈ roots ↔ memory.hasFile f = true ∧ manifest.covers f extensions = true ∧
      (f ∈ manifest.files ∨
        ∀ parent, f.parent? = some parent → ∀ directory : Path,
          parent.isUnder directory = true → directory.isUnder manifest.directory = true →
            directory ≠ manifest.directory → ¬ memory.HasAnyOf names directory)) ∧
    ((∀ name ∈ names, Segment.Plain name) → ∀ directory, memory.HasAnyOf names directory ↔
      ∃ file, memory.hasFile file = true ∧ file.parent? = some directory ∧
        file.fileName ∈ names) := by
  let rules : Rules := ⟨manifest, names, extensions⟩
  have hended := ended_of_tidy htidy rules
  have hroots : manifest.roots memory.host names extensions =
      ((Walk.step rules memory.host)^[walkBound memory.host]
        (manifest.startWalk memory.host)).found.toList :=
    congrArg (fun walk : Walk => walk.found.toList) (run_eq_iterate _ _)
  refine ⟨⟨walkBound memory.host, hended⟩, fun steps hsteps => ?_, Roster.nodup _, ?_,
    fun f => mem_roots_iff htidy (excluded_of_parse hparse),
    fun hplain directory => Memory.hasAnyOf_iff hplain⟩
  · rw [hroots, iterate_eq_of_ended hended hsteps]
  · rw [hroots, ← Roster.toList_ofList]
    exact found_prefix_iterate (manifest.startWalk memory.host) _

/-! ### A project within a project -/

/-- One directory of the project holds a manifest of its own. -/
def nestedFiles : Memory :=
  ((((Memory.empty.addFile (Path.atTop "p/tsconfig.json") "\x7b\x7d").addFile
    (Path.atTop "p/a.ts") "").addFile (Path.atTop "p/sub/b.ts") "").addFile
    (Path.atTop "p/lib/tsconfig.json") "\x7b\x7d").addFile (Path.atTop "p/lib/c.ts") ""

theorem nestedFiles_tidy : nestedFiles.Tidy := by decide +kernel

/-- The directory with a manifest of its own is left out, and the other one is not. -/
theorem enumeration_is_exact_nested :
    ∃ manifest, parse (Path.atTop "p/tsconfig.json") "\x7b\x7d" = .ok manifest ∧
      nestedFiles.Tidy ∧
      Path.atTop "p/sub/b.ts" ∈ manifest.roots nestedFiles.host ["tsconfig.json"] ["ts"] ∧
      Path.atTop "p/lib/c.ts" ∉ manifest.roots nestedFiles.host ["tsconfig.json"] ["ts"] := by
  have hparse : (parse (Path.atTop "p/tsconfig.json") "\x7b\x7d").toOption.any (fun manifest =>
      manifest.files = [] ∧ manifest.directory = Path.atTop "p" ∧
        manifest.covers (Path.atTop "p/sub/b.ts") ["ts"] = true) = true := by
    decide +kernel
  cases hmanifest : parse (Path.atTop "p/tsconfig.json") "\x7b\x7d" with
  | error e =>
    rw [hmanifest] at hparse
    cases hparse
  | ok manifest =>
    rw [hmanifest] at hparse
    obtain ⟨hfiles, hdirectory, hcovers⟩ := of_decide_eq_true hparse
    obtain ⟨-, -, -, -, hroots, -⟩ :=
      enumeration_is_exact nestedFiles_tidy hmanifest ["tsconfig.json"] ["ts"]
    refine ⟨manifest, rfl, nestedFiles_tidy, (hroots _).2 ⟨by decide +kernel, hcovers, .inr ?_⟩,
      fun hnamed => ?_⟩
    · intro parent hparent directory hunder habove hne
      rw [hdirectory] at habove hne
      have hclear : ∀ directory ∈ (Path.atTop "p/sub").ancestors,
          directory.isUnder (Path.atTop "p") = true → directory ≠ Path.atTop "p" →
            ¬ ∃ name ∈ ["tsconfig.json"], nestedFiles.hasFile (directory.join name) = true := by
        decide +kernel
      cases hparent
      exact hclear directory (Path.mem_ancestors_iff.2 hunder) habove hne
    · rcases ((hroots _).1 hnamed).2.2 with hlisted | hclear
      · rw [hfiles] at hlisted
        cases hlisted
      · have hlib : (Path.atTop "p/lib/c.ts").parent? = some (Path.atTop "p/lib") := by
          decide +kernel
        have hbelow : (Path.atTop "p/lib").isUnder manifest.directory = true ∧
            Path.atTop "p/lib" ≠ manifest.directory := by
          rw [hdirectory]
          decide +kernel
        exact hclear _ hlib _ (Path.isUnder_refl _) hbelow.1 hbelow.2
          ⟨"tsconfig.json", by simp, by decide +kernel⟩

end Codebase.Manifest
