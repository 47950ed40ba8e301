import Codebase.Proofs.Data.Worklist
import Codebase.Proofs.Host.Tree
import Codebase.Proofs.Manifest.Walk
import Mathlib.Data.List.Infix
/-!
# Whether a walk ends

A walk does not remember the directories that it has listed.  It ends because what it enters lies
deeper than where it comes from; but a listing shows a name such as `c:` as the drive, which may be
a directory that the walk has come through.

* `pending_iterate` — what is pending in a walk is a worklist of directories.
* `mem_spelled_of_mem_children` — a host in memory lists finitely many paths.
* `acyclic_of_ended`, `ended_of_acyclic` — a walk ends if and only if no directory leads back to
  itself, and then within the bound of walks.
* `branching_of_plainIn`, `ended_of_plainIn` — where no name is read as a drive, what is entered
  lies deeper, and a walk ends.
* `walk_ends_iff` — when a walk ends, and when it lists nothing twice.
-/

namespace Codebase.Manifest

variable {host : Host} {rules : Rules} {walk : Walk} {directory child : Path}

/-! ## A walk as a worklist -/

/-- The directories that a walk enters from the directory, in the order of the listing. -/
def Rules.entered (rules : Rules) (host : Host) (directory : Path) : List Path :=
  match host.list directory with
  | .error _ => []
  | .ok entries => (entries.filter (rules.enters host)).map Host.Entry.path

theorem mem_entered_iff : child ∈ rules.entered host directory ↔
    ∃ entries, host.list directory = .ok entries ∧
      ∃ entry ∈ entries, rules.enters host entry = true ∧ entry.path = child := by
  unfold Rules.entered
  cases host.list directory with
  | error e => simp
  | ok entries => simp [and_assoc]

theorem pending_step :
    (walk.step rules host).pending = Worklist.step (rules.entered host) walk.pending := by
  cases hpending : walk.pending with
  | nil =>
    rw [step_of_ended hpending, hpending]
    rfl
  | cons directory rest =>
    show _ = rules.entered host directory ++ rest
    unfold Rules.entered
    cases hlist : host.list directory with
    | error e => rw [step_of_error hpending hlist]; rfl
    | ok entries => rw [step_of_ok hpending hlist]

/-- What is pending in a walk is a worklist of directories. -/
theorem pending_iterate (steps : Nat) : ((Walk.step rules host)^[steps] walk).pending =
    (Worklist.step (rules.entered host))^[steps] walk.pending :=
  Function.Semiconj.iterate_right (f := Walk.pending) (fun _ => pending_step) steps walk

theorem visits_iff_reaches : rules.Visits host directory ↔
    Worklist.Reaches (rules.entered host) rules.manifest.directory directory := by
  constructor
  · intro h
    induction h with
    | start => exact .refl
    | enter _ hlist hentry henters ih =>
      exact ih.tail (mem_entered_iff.2 ⟨_, hlist, _, hentry, henters, rfl⟩)
  · intro h
    induction h with
    | refl => exact .start
    | tail _ hleads ih =>
      obtain ⟨entries, hlist, entry, hentry, henters, rfl⟩ := mem_entered_iff.1 hleads
      exact .enter ih hlist hentry henters

theorem Rules.Visits.entered (h : rules.Visits host directory)
    (hchild : child ∈ rules.entered host directory) : rules.Visits host child :=
  visits_iff_reaches.2 ((visits_iff_reaches.1 h).tail hchild)

end Codebase.Manifest

/-! ## What a host in memory can list -/

namespace Codebase.Memory

variable {memory : Memory} {directory : Path} {entry : Host.Entry}

/-- What the names on the way to the stored places are read as, each where it stands. -/
def spelled (memory : Memory) : List Path :=
  memory.places.flatMap fun place => place.names.tails.filterMap fun
    | [] => none
    | name :: above => some ((⟨place.root, above⟩ : Path).join name.text)

theorem length_spelled_le (memory : Memory) : memory.spelled.length ≤ memory.host.extent := by
  show (memory.places.flatMap _).length ≤ memory.places.foldr _ 0
  induction memory.places with
  | nil => exact Nat.le_refl 0
  | cons place rest ih =>
    rw [List.flatMap_cons, List.length_append, List.foldr_cons]
    refine Nat.add_le_add ?_ ih
    rw [← List.length_tails]
    exact List.length_filterMap_le _ _

theorem mem_spelled_of_mem_children (h : entry ∈ memory.children directory) :
    entry.path ∈ memory.spelled := by
  obtain ⟨name, hname, hread⟩ := mem_path_children_iff.1 (List.mem_map_of_mem h)
  obtain ⟨place, hplace, rest, hbelow⟩ := mem_namesIn_iff.1 hname
  obtain ⟨hroot, hnames⟩ := Path.below?_eq_some_iff.1 hbelow
  refine List.mem_flatMap.2 ⟨place, hplace, List.mem_filterMap.2 ⟨name :: directory.names, ?_, ?_⟩⟩
  · rw [List.mem_tails, hnames, List.reverse_cons, List.append_assoc]
    exact List.suffix_append _ _
  · rw [hread, hroot]

end Codebase.Memory

namespace Codebase.Manifest

variable {memory : Memory} {rules : Rules} {directory child : Path}

theorem nodup_entered (memory : Memory) (rules : Rules) (directory : Path) :
    (rules.entered memory.host directory).Nodup := by
  unfold Rules.entered
  cases hlist : memory.host.list directory with
  | error e => exact List.nodup_nil
  | ok entries =>
    obtain ⟨-, rfl⟩ := Memory.list_eq_ok_iff.1 hlist
    exact (Memory.nodup_children memory directory).sublist (List.filter_sublist.map _)

theorem mem_spelled_of_mem_entered (h : child ∈ rules.entered memory.host directory) :
    child ∈ memory.spelled := by
  obtain ⟨entries, hlist, entry, hentry, -, rfl⟩ := mem_entered_iff.1 h
  obtain ⟨-, rfl⟩ := Memory.list_eq_ok_iff.1 hlist
  exact Memory.mem_spelled_of_mem_children hentry

theorem parent?_of_mem_entered (hplain : memory.PlainIn directory)
    (h : child ∈ rules.entered memory.host directory) : child.parent? = some directory := by
  obtain ⟨entries, hlist, entry, hentry, -, rfl⟩ := mem_entered_iff.1 h
  obtain ⟨-, rfl⟩ := Memory.list_eq_ok_iff.1 hlist
  exact ((Memory.mem_children_iff hplain).1 hentry).1

theorem length_entered_le (memory : Memory) (rules : Rules) (directory : Path) :
    (rules.entered memory.host directory).length ≤ memory.host.extent := by
  have hsubset : rules.entered memory.host directory ⊆ memory.spelled :=
    fun _ h => mem_spelled_of_mem_entered h
  exact (List.subperm_of_subset (nodup_entered memory rules directory) hsubset).length_le.trans
    memory.length_spelled_le

/-- The start of a walk, and what the host can list. -/
def Rules.within (rules : Rules) (memory : Memory) : Finset Path :=
  insert rules.manifest.directory memory.spelled.toFinset

theorem card_within_le (memory : Memory) (rules : Rules) :
    (rules.within memory).card ≤ memory.host.extent + 1 := by
  refine (Finset.card_insert_le _ _).trans (Nat.succ_le_succ ?_)
  exact (List.toFinset_card_le _).trans memory.length_spelled_le

theorem mem_within_of_reaches
    (h : Worklist.Reaches (rules.entered memory.host) rules.manifest.directory directory) :
    directory ∈ rules.within memory := by
  cases h with
  | refl => exact Finset.mem_insert_self _ _
  | tail _ hleads =>
    exact Finset.mem_insert_of_mem (List.mem_toFinset.2 (mem_spelled_of_mem_entered hleads))

/-! ## Walks that end -/

/-- **A walk in which no directory leads back to itself ends within the bound of walks.** -/
theorem ended_of_acyclic (h : ∀ directory, rules.Visits memory.host directory →
      ¬ Relation.TransGen (Worklist.Leads (rules.entered memory.host)) directory directory) :
    ((Walk.step rules memory.host)^[walkBound memory.host]
      (rules.manifest.startWalk memory.host)).pending = [] := by
  obtain ⟨steps, hsteps, hends⟩ := Worklist.exists_ends_of_acyclic
    (fun _ hreach => mem_within_of_reaches hreach)
    (fun directory _ => length_entered_le memory rules directory)
    (fun directory hreach => h directory (visits_iff_reaches.2 hreach))
  have hended : ((Walk.step rules memory.host)^[steps]
      (rules.manifest.startWalk memory.host)).pending = [] := by
    rw [pending_iterate]
    exact hends.iterate
  have hbound : steps ≤ walkBound memory.host :=
    calc steps
      _ ≤ (memory.host.extent + 1) ^ (rules.within memory).card := hsteps
      _ ≤ (memory.host.extent + 2) ^ (rules.within memory).card :=
        Nat.pow_le_pow_left (Nat.le_succ _) _
      _ ≤ walkBound memory.host := Nat.pow_le_pow_right (Nat.succ_pos _)
        ((card_within_le memory rules).trans (Nat.le_succ _))
  obtain ⟨more, hmore⟩ := Nat.exists_eq_add_of_le' hbound
  rw [hmore, Function.iterate_add_apply, Function.iterate_fixed (step_of_ended hended), hended]

theorem acyclic_of_ended {steps : Nat} (hended : ((Walk.step rules memory.host)^[steps]
      (rules.manifest.startWalk memory.host)).pending = [])
    (hvisits : rules.Visits memory.host directory) :
    ¬ Relation.TransGen (Worklist.Leads (rules.entered memory.host)) directory directory := by
  rw [pending_iterate] at hended
  obtain ⟨n, hends⟩ := Worklist.exists_ends_of_iterate hended
  exact hends.acyclic (visits_iff_reaches.1 hvisits)

/-- Where no name is read as a drive, what is entered lies in the directory that it comes from, so
that no two directories lead to it, and none to the start. -/
theorem branching_of_plainIn
    (h : ∀ directory, rules.Visits memory.host directory → memory.PlainIn directory) :
    Worklist.Branching (rules.entered memory.host) rules.manifest.directory := by
  have hparent : ∀ {directory child}, rules.Visits memory.host directory →
      child ∈ rules.entered memory.host directory → child.parent? = some directory :=
    fun hvisits hleads => parent?_of_mem_entered (h _ hvisits) hleads
  have hunder : ∀ {directory}, rules.Visits memory.host directory →
      directory.isUnder rules.manifest.directory = true := by
    intro directory hvisits
    induction hvisits with
    | start => exact Path.isUnder_refl _
    | enter hvisits hlist hentry henters ih =>
      have hleads := mem_entered_iff.2 ⟨_, hlist, _, hentry, henters, rfl⟩
      exact Path.isUnder_trans (Path.isUnder_of_parent? (hparent hvisits hleads)) ih
  intro directory hreach
  have hvisits := visits_iff_reaches.2 hreach
  refine ⟨fun hleads => ?_, fun other hother child hleads hleads' => ?_⟩
  · have habove := hparent hvisits hleads
    exact Path.ne_of_parent? habove
      (Path.isUnder_antisymm (Path.isUnder_of_parent? habove) (hunder hvisits))
  · have hsame := (hparent hvisits hleads).symm.trans
      (hparent (visits_iff_reaches.2 hother) hleads')
    exact Option.some.inj hsame

/-- So a walk ends where no name is read as a drive. -/
theorem ended_of_plainIn
    (h : ∀ directory, rules.Visits memory.host directory → memory.PlainIn directory) :
    ((Walk.step rules memory.host)^[walkBound memory.host]
      (rules.manifest.startWalk memory.host)).pending = [] := by
  obtain ⟨-, steps, hended⟩ := (Worklist.takes_once_iff (nodup_entered memory rules)
    fun _ hreach => mem_within_of_reaches hreach).2 (branching_of_plainIn h)
  have hsteps : ((Walk.step rules memory.host)^[steps]
      (rules.manifest.startWalk memory.host)).pending = [] := by
    rw [pending_iterate]
    exact hended
  exact ended_of_acyclic fun _ hvisits => acyclic_of_ended hsteps hvisits

/-- **When a walk ends, and when it lists nothing twice.**  It does both if and only if no directory
that it comes to leads to the start, and no two of them lead to one directory.  It ends if and only
if none of them leads back to itself; then it does so within the bound of walks, and the roots of
the manifest are what it has found.  It does both if no directory that it comes to has a name that
is read as a drive. -/
theorem walk_ends_iff (memory : Memory) (rules : Rules) :
    let host := memory.host
    let after (steps : Nat) : Walk :=
      (Walk.step rules host)^[steps] (rules.manifest.startWalk host)
    let listed (steps : Nat) : List Path :=
      (List.range steps).filterMap fun n => (after n).pending.head?
    let leads (directory child : Path) : Prop := child ∈ rules.entered host directory
    (((∀ steps, (listed steps).Nodup) ∧ ∃ steps, (after steps).pending = []) ↔
      ∀ directory, rules.Visits host directory → ¬ leads directory rules.manifest.directory ∧
        ∀ other, rules.Visits host other →
          ∀ child, leads directory child → leads other child → directory = other) ∧
    ((∃ steps, (after steps).pending = []) ↔
      ∀ directory, rules.Visits host directory → ¬ Relation.TransGen leads directory directory) ∧
    (∀ steps, (after steps).pending = [] → (after (walkBound host)).pending = [] ∧
      rules.manifest.roots host rules.manifestNames rules.extensions =
        (after steps).found.toList) ∧
    ((∀ directory, rules.Visits host directory → memory.PlainIn directory) →
      (∀ steps, (listed steps).Nodup) ∧ ∃ steps, (after steps).pending = []) := by
  intro host after listed leads
  have hlisted : ∀ steps, listed steps =
      Worklist.taken (rules.entered host) [rules.manifest.directory] steps := by
    intro steps
    exact List.filterMap_congr fun n _ => congrArg List.head? (pending_iterate n)
  have honce : ((∀ steps, (listed steps).Nodup) ∧ ∃ steps, (after steps).pending = []) ↔
      Worklist.Branching (rules.entered host) rules.manifest.directory := by
    rw [← Worklist.takes_once_iff (nodup_entered memory rules)
      (fun _ hreach => mem_within_of_reaches hreach)]
    simp only [hlisted]
    exact and_congr_right fun _ => exists_congr fun steps => by rw [pending_iterate]; rfl
  have hbound : ∀ {steps}, (after steps).pending = [] →
      (after (walkBound host)).pending = [] :=
    fun hended => ended_of_acyclic fun _ hvisits => acyclic_of_ended hended hvisits
  refine ⟨?_, ⟨fun ⟨_, hended⟩ _ hvisits => acyclic_of_ended hended hvisits,
    fun h => ⟨_, ended_of_acyclic h⟩⟩, fun steps hended => ⟨hbound hended, ?_⟩, ?_⟩
  · rw [honce]
    unfold Worklist.Branching
    simp only [← visits_iff_reaches]
    rfl
  · show ((rules.manifest.startWalk host).run rules host (walkBound host)).found.toList = _
    rw [run_eq_iterate, iterate_eq_of_ended (hbound hended) hended]
  · exact fun h => honce.2 (branching_of_plainIn h)

/-! ### A directory that shows itself -/

/-- The directory of the project shows a drive, and the drive shows itself. -/
def loopingFiles : Memory :=
  ((Memory.empty.addFile (Path.atTop "p/a.ts") "").addFile (Path.atTop "p/c:/x.ts") "").addFile
    (Path.atTop "c:/c:/y.ts") ""

theorem loopingFiles_unsorted : loopingFiles.host = loopingFiles.unsorted :=
  Memory.host_eq_unsorted (by decide +kernel)

/-- The walk of an empty manifest comes to the drive, lists it and enters it again, for ever. -/
theorem walk_never_ends : ∃ manifest,
    parse (Path.atTop "p/tsconfig.json") "\x7b\x7d" = .ok manifest ∧ ∀ steps,
      ((Walk.step ⟨manifest, ["tsconfig.json"], ["ts"]⟩ loopingFiles.host)^[steps]
        (manifest.startWalk loopingFiles.host)).pending ≠ [] := by
  have hparse : (parse (Path.atTop "p/tsconfig.json") "\x7b\x7d").toOption.any (fun manifest =>
      let rules : Rules := ⟨manifest, ["tsconfig.json"], ["ts"]⟩
      manifest.directory = Path.atTop "p" ∧
        Path.atTop "c:" ∈ rules.entered loopingFiles.unsorted (Path.atTop "p") ∧
        Path.atTop "c:" ∈ rules.entered loopingFiles.unsorted (Path.atTop "c:")) = true := by
    decide +kernel
  cases hmanifest : parse (Path.atTop "p/tsconfig.json") "\x7b\x7d" with
  | error e =>
    rw [hmanifest] at hparse
    cases hparse
  | ok manifest =>
    rw [hmanifest] at hparse
    obtain ⟨hdirectory, hdrive, hself⟩ := of_decide_eq_true hparse
    rw [← loopingFiles_unsorted] at hdrive hself
    let rules : Rules := ⟨manifest, ["tsconfig.json"], ["ts"]⟩
    have hvisits : rules.Visits loopingFiles.host (Path.atTop "c:") := by
      rw [visits_iff_reaches]
      refine .single ?_
      show _ ∈ rules.entered loopingFiles.host manifest.directory
      rw [hdirectory]
      exact hdrive
    refine ⟨manifest, rfl, fun steps hended => ?_⟩
    have hended' : ((Walk.step rules loopingFiles.host)^[steps]
        (rules.manifest.startWalk loopingFiles.host)).pending = [] := hended
    exact acyclic_of_ended hended' hvisits (.single hself)

end Codebase.Manifest
