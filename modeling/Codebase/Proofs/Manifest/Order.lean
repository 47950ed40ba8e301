import Codebase.Proofs.Data.Encounter
import Codebase.Proofs.Host.Directory
import Codebase.Proofs.Manifest.Ending
import Codebase.Proofs.Path.Order
/-!
# The order in which a walk finds files

A walk picks up what lies directly in a directory before it enters the directories there.  So what
it finds is in order directory by directory, which is not the order of spellings.

* `found_iterate` — a walk has found what the directories show that it has taken, one after the
  other.
* `precedes_of_ahead` — where no name is read as a drive, what is found first comes first directory
  by directory.
* `enumeration_is_in_path_order_iff` — when the roots of a manifest are in the order of spellings.
-/

namespace Codebase.Manifest

variable {host : Host} {rules : Rules} {walk : Walk} {directory child f g : Path}

/-! ## What is found, in order -/

/-- The files that a walk picks up in the directory, in the order of the listing. -/
def Rules.picked (rules : Rules) (host : Host) (directory : Path) : List Path :=
  match host.list directory with
  | .error _ => []
  | .ok entries => (entries.filter rules.picks).map Host.Entry.path

theorem mem_picked_iff : f ∈ rules.picked host directory ↔ rules.PicksIn host directory f := by
  unfold Rules.picked Rules.PicksIn
  cases host.list directory with
  | error e => simp
  | ok entries => simp [and_assoc]

theorem found_step : (walk.step rules host).found =
    (walk.pending.head?.toList.flatMap (rules.picked host)).foldl Roster.insert walk.found := by
  cases hpending : walk.pending with
  | nil => rw [step_of_ended hpending]; rfl
  | cons directory rest =>
    rw [List.head?_cons, Option.toList_some, List.flatMap_singleton]
    unfold Rules.picked
    cases hlist : host.list directory with
    | error e => rw [step_of_error hpending hlist]; rfl
    | ok entries => rw [step_of_ok hpending hlist]

/-- A walk has found what the directories show that it has taken, one after the other. -/
theorem found_iterate (steps : Nat) : ((Walk.step rules host)^[steps] walk).found =
    ((Worklist.taken (rules.entered host) walk.pending steps).flatMap
      (rules.picked host)).foldl Roster.insert walk.found := by
  induction steps with
  | zero => rfl
  | succ steps ih =>
    rw [Function.iterate_succ_apply', found_step, ih, pending_iterate, Worklist.taken_succ,
      List.flatMap_append, List.foldl_append]

/-- What the directories show that the walk has taken. -/
def Rules.shown (rules : Rules) (host : Host) (steps : Nat) : List Path :=
  (Worklist.taken (rules.entered host) [rules.manifest.directory] steps).flatMap (rules.picked host)

/-- The roots that are not named one by one. -/
def Rules.remaining (rules : Rules) (host : Host) : List Path :=
  (rules.manifest.roots host rules.manifestNames rules.extensions).filter fun f =>
    f ∉ rules.manifest.existingFiles host

variable {memory : Memory}

section Ended

variable {steps : Nat} (hended : ((Walk.step rules memory.host)^[steps]
  (rules.manifest.startWalk memory.host)).pending = [])

include hended

theorem roots_eq_of_ended :
    rules.manifest.roots memory.host rules.manifestNames rules.extensions =
      ((Walk.step rules memory.host)^[steps]
        (rules.manifest.startWalk memory.host)).found.toList := by
  have hbound := ended_of_acyclic fun _ hvisits => acyclic_of_ended hended hvisits
  show ((rules.manifest.startWalk memory.host).run rules memory.host _).found.toList = _
  rw [run_eq_iterate, iterate_eq_of_ended hbound hended]

theorem roots_eq_append :
    rules.manifest.roots memory.host rules.manifestNames rules.extensions =
      (rules.manifest.existingFiles memory.host).toList ++
        ((rules.shown memory.host steps).filter fun f =>
          f ∉ rules.manifest.existingFiles memory.host).eraseDups := by
  rw [roots_eq_of_ended hended, found_iterate, Roster.toList_foldl_insert]
  rfl

theorem remaining_eq : rules.remaining memory.host =
    ((rules.shown memory.host steps).filter fun f =>
      f ∉ rules.manifest.existingFiles memory.host).eraseDups := by
  unfold Rules.remaining
  rw [roots_eq_append hended, List.filter_append]
  have hnamed : (rules.manifest.existingFiles memory.host).toList.filter
      (fun f => f ∉ rules.manifest.existingFiles memory.host) = [] := by
    refine List.filter_eq_nil_iff.2 fun f hf => ?_
    simpa [← Roster.mem_toList] using hf
  rw [hnamed, List.nil_append]
  refine List.filter_eq_self.2 fun f hf => ?_
  exact (List.mem_filter.1 (List.mem_eraseDups.1 hf)).2

theorem mem_remaining_iff : f ∈ rules.remaining memory.host ↔
    f ∉ rules.manifest.existingFiles memory.host ∧
      ∃ directory, rules.Visits memory.host directory ∧
        rules.PicksIn memory.host directory f := by
  have hworklist := hended
  rw [pending_iterate] at hworklist
  rw [remaining_eq hended, List.mem_eraseDups, List.mem_filter, decide_eq_true_eq, and_comm]
  unfold Rules.shown
  rw [Worklist.mem_shown_iff hworklist]
  unfold Worklist.Shows
  simp only [visits_iff_reaches, mem_picked_iff]

/-- What is found first is what the directories show first, from the start of the walk on. -/
theorem before_remaining_iff (hf : f ∉ rules.manifest.existingFiles memory.host)
    (hg : g ∉ rules.manifest.existingFiles memory.host) :
    Worklist.Before (rules.remaining memory.host) f g ↔
      Worklist.Ahead (rules.entered memory.host) (rules.picked memory.host) f g
        rules.manifest.directory := by
  have hworklist := hended
  rw [pending_iterate] at hworklist
  obtain ⟨n, hends⟩ := Worklist.exists_ends_of_iterate hworklist
  have hended' : ((Walk.step rules memory.host)^[n]
      (rules.manifest.startWalk memory.host)).pending = [] := by
    rw [pending_iterate]
    exact hends.iterate
  rw [remaining_eq hended', Worklist.before_eraseDups_iff, Worklist.before_filter_iff]
  · exact Worklist.before_shown_singleton_iff hends
  · exact decide_eq_true hf
  · exact decide_eq_true hg

theorem nodup_remaining : (rules.remaining memory.host).Nodup := by
  rw [remaining_eq hended]
  exact Roster.nodup_eraseDups _

theorem pairwise_remaining_iff {R : Path → Path → Prop} :
    (rules.remaining memory.host).Pairwise R ↔
      ∀ f ∈ rules.remaining memory.host, ∀ g ∈ rules.remaining memory.host,
        Worklist.Ahead (rules.entered memory.host) (rules.picked memory.host) f g
          rules.manifest.directory → R f g := by
  rw [Worklist.pairwise_iff_before (nodup_remaining hended)]
  refine forall₂_congr fun f hf => forall₂_congr fun g hg => ?_
  rw [before_remaining_iff hended ((mem_remaining_iff hended).1 hf).1
    ((mem_remaining_iff hended).1 hg).1]

end Ended

/-! ## Where no name is read as a drive -/

/-- A listing is in the order of spellings, and so is what is chosen from it. -/
theorem pairwise_listed {entries : List Host.Entry} (hlist : memory.host.list directory = .ok entries)
    (chosen : Host.Entry → Bool) :
    ((entries.filter chosen).map Host.Entry.path).Pairwise fun p q => p.text < q.text := by
  obtain ⟨-, rfl⟩ := Memory.list_eq_ok_iff.1 hlist
  exact List.pairwise_map.2 ((Memory.pairwise_children memory directory).filter chosen)

theorem pairwise_picked (memory : Memory) (rules : Rules) (directory : Path) :
    (rules.picked memory.host directory).Pairwise fun p q => p.text < q.text := by
  unfold Rules.picked
  cases hlist : memory.host.list directory with
  | error e => exact List.Pairwise.nil
  | ok entries => exact pairwise_listed hlist rules.picks

theorem pairwise_entered (memory : Memory) (rules : Rules) (directory : Path) :
    (rules.entered memory.host directory).Pairwise fun p q => p.text < q.text := by
  unfold Rules.entered
  cases hlist : memory.host.list directory with
  | error e => exact List.Pairwise.nil
  | ok entries => exact pairwise_listed hlist (rules.enters memory.host)

theorem parent?_of_mem_picked (hplain : memory.PlainIn directory)
    (h : f ∈ rules.picked memory.host directory) : f.parent? = some directory := by
  obtain ⟨entries, hlist, entry, hentry, -, rfl⟩ := mem_picked_iff.1 h
  obtain ⟨-, rfl⟩ := Memory.list_eq_ok_iff.1 hlist
  exact ((Memory.mem_children_iff hplain).1 hentry).1

section Plain

variable (hplain : ∀ directory, rules.Visits memory.host directory → memory.PlainIn directory)

include hplain

/-- What a directory shows lies beneath it. -/
theorem trail_prefix_of_shows (hvisits : rules.Visits memory.host directory)
    (h : Worklist.Shows (rules.entered memory.host) (rules.picked memory.host) directory f) :
    directory.trail <+: f.way := by
  obtain ⟨last, hreach, hf⟩ := h
  induction hreach using Relation.ReflTransGen.head_induction_on with
  | refl =>
    rw [Path.way_of_parent? (parent?_of_mem_picked (hplain _ hvisits) hf)]
  | head hleads _ ih =>
    refine List.IsPrefix.trans ?_ (ih (hvisits.entered hleads))
    rw [Path.trail_of_parent? (parent?_of_mem_entered (hplain _ hvisits) hleads)]
    exact List.prefix_append _ _

/-- **What is found first comes first directory by directory.** -/
theorem precedes_of_ahead (hvisits : rules.Visits memory.host directory)
    (hg : Worklist.Shows (rules.entered memory.host) (rules.picked memory.host) directory g)
    (h : Worklist.Ahead (rules.entered memory.host) (rules.picked memory.host) f g directory) :
    f.Precedes g := by
  induction h with
  | @here directory hbefore =>
    have hparent := parent?_of_mem_picked (hplain _ hvisits) hbefore.mem
    rcases Worklist.shows_iff.1 hg with hpicked | ⟨child, hchild, hbeneath⟩
    · have hsorted := pairwise_picked memory rules directory
      have hnodup : (rules.picked memory.host directory).Nodup :=
        hsorted.imp fun hlt => ne_of_apply_ne Path.text (ne_of_lt hlt)
      refine Path.precedes_of_text_lt hparent (parent?_of_mem_picked (hplain _ hvisits) hpicked) ?_
      exact (Worklist.pairwise_iff_before hnodup).1 hsorted f hbefore.mem g hpicked hbefore
    · exact Path.precedes_of_beneath hparent
        (parent?_of_mem_entered (hplain _ hvisits) hchild)
        (trail_prefix_of_shows hplain (hvisits.entered hchild) hbeneath)
  | @beneath directory child front back hf hpicked hkids hfront hchild ih =>
    have hsorted := pairwise_entered memory rules directory
    have hentered : child ∈ rules.entered memory.host directory := by
      rw [hkids]
      exact List.mem_append_right _ List.mem_cons_self
    obtain ⟨other, hother, hbeneath⟩ := (Worklist.shows_iff.1 hg).resolve_left hpicked
    by_cases hsame : Worklist.Shows (rules.entered memory.host) (rules.picked memory.host) child g
    · exact ih (hvisits.entered hentered) hsame
    · -- the other child that shows the second file is listed later
      have hlater : child.text < other.text := by
        rw [hkids] at hsorted hother
        rcases List.mem_append.1 hother with hearlier | hother
        · exact absurd hbeneath (hfront other hearlier).2
        · rcases List.mem_cons.1 hother with rfl | hback
          · exact absurd hbeneath hsame
          · exact List.rel_of_pairwise_cons (List.pairwise_append.1 hsorted).2.1 hback
      exact Path.precedes_of_siblings (parent?_of_mem_entered (hplain _ hvisits) hentered)
        (parent?_of_mem_entered (hplain _ hvisits) hother) hlater
        (trail_prefix_of_shows hplain (hvisits.entered hentered) hchild.shows)
        (trail_prefix_of_shows hplain (hvisits.entered hother) hbeneath)

theorem pairwise_precedes_remaining : (rules.remaining memory.host).Pairwise Path.Precedes := by
  have hended := ended_of_plainIn hplain
  refine (pairwise_remaining_iff hended).2 fun f _ g hg hahead => ?_
  obtain ⟨-, directory, hvisits, hpicks⟩ := (mem_remaining_iff hended).1 hg
  exact precedes_of_ahead hplain .start
    ⟨directory, visits_iff_reaches.1 hvisits, mem_picked_iff.2 hpicks⟩ hahead

end Plain

/-- **When the roots of a manifest are in the order of spellings.**  The existing files that a
manifest names one by one come first, in its order and none twice.  Behind them come the other files
that the directories of the walk show, none twice, each where the directories come upon it first.
So these are in the order of spellings if and only if the directories come upon them in that order.
Where no directory of the walk has a name that is read as a drive, they are in order directory by
directory.  Then they depend on their set only, and they are in the order of spellings if and only
if this agrees with the order directory by directory on them. -/
theorem enumeration_is_in_path_order_iff (memory : Memory) (rules : Rules) {steps : Nat}
    (hended : ((Walk.step rules memory.host)^[steps]
      (rules.manifest.startWalk memory.host)).pending = []) :
    let host := memory.host
    let roots := rules.manifest.roots host rules.manifestNames rules.extensions
    let explicit := (rules.manifest.files.filter memory.hasFile).eraseDups
    let remaining := rules.remaining host
    roots = explicit ++ remaining ∧ remaining.Nodup ∧
    (∀ f, f ∈ remaining ↔ f ∉ explicit ∧
      ∃ directory, rules.Visits host directory ∧ rules.PicksIn host directory f) ∧
    (remaining.Pairwise (fun f g => f.text < g.text) ↔
      ∀ f ∈ remaining, ∀ g ∈ remaining,
        Worklist.Ahead (rules.entered host) (rules.picked host) f g rules.manifest.directory →
          f.text < g.text) ∧
    ((∀ directory, rules.Visits host directory → memory.PlainIn directory) →
      remaining.Pairwise Path.Precedes ∧
      (remaining.Pairwise (fun f g => f.text < g.text) ↔
        ∀ f ∈ remaining, ∀ g ∈ remaining, f.Precedes g → f.text < g.text) ∧
      ∀ (other : Memory) (rules' : Rules),
        (∀ directory, rules'.Visits other.host directory → other.PlainIn directory) →
          (∀ f, f ∈ rules'.remaining other.host ↔ f ∈ remaining) →
            rules'.remaining other.host = remaining) := by
  intro host roots explicit remaining
  have hexplicit : (rules.manifest.existingFiles host).toList = explicit := Roster.toList_ofList _
  refine ⟨?_, nodup_remaining hended, fun f => ?_, pairwise_remaining_iff hended, fun hplain => ?_⟩
  · show rules.manifest.roots memory.host _ _ = explicit ++ rules.remaining memory.host
    rw [roots_eq_append hended, ← remaining_eq hended]
    exact congrArg (· ++ remaining) hexplicit
  · rw [← hexplicit]
    exact mem_remaining_iff hended
  · have hordered := pairwise_precedes_remaining hplain
    refine ⟨hordered, Worklist.pairwise_iff_of_pairwise (fun h => h.asymm) hordered,
      fun other rules' hplain' hsame => ?_⟩
    have hperm := (List.perm_ext_iff_of_nodup
      (nodup_remaining (ended_of_plainIn hplain')) (nodup_remaining hended)).2 hsame
    exact hperm.eq_of_pairwise (fun f g _ _ hfg hgf => absurd hgf hfg.asymm)
      (pairwise_precedes_remaining hplain') hordered

/-! ### Files and directories side by side -/

/-- A file beside two directories, one of whose names starts with the other. -/
def mixedFiles : Memory :=
  ((Memory.empty.addFile (Path.atTop "p/a/x.ts") "").addFile (Path.atTop "p/a-b/y.ts") "").addFile
    (Path.atTop "p/b.ts") ""

theorem mixedFiles_unsorted : mixedFiles.host = mixedFiles.unsorted :=
  Memory.host_eq_unsorted (by decide +kernel)

theorem mixedFiles_tidy : mixedFiles.Tidy := by decide +kernel

/-- The walk of an empty manifest lists the three directories and then has found the three files. -/
theorem exists_mixed_walk : ∃ manifest,
    parse (Path.atTop "p/tsconfig.json") "\x7b\x7d" = .ok manifest ∧
      ((Walk.step ⟨manifest, ["tsconfig.json"], ["ts"]⟩ mixedFiles.host)^[3]
        (manifest.startWalk mixedFiles.host)).pending = [] ∧
      (manifest.existingFiles mixedFiles.host).toList = [] ∧
      ((Walk.step ⟨manifest, ["tsconfig.json"], ["ts"]⟩ mixedFiles.host)^[3]
        (manifest.startWalk mixedFiles.host)).found.toList =
          [Path.atTop "p/b.ts", Path.atTop "p/a/x.ts", Path.atTop "p/a-b/y.ts"] := by
  have hparse : (parse (Path.atTop "p/tsconfig.json") "\x7b\x7d").toOption.any (fun manifest =>
      let walk := (Walk.step ⟨manifest, ["tsconfig.json"], ["ts"]⟩ mixedFiles.unsorted)^[3]
        (manifest.startWalk mixedFiles.unsorted)
      walk.pending = [] ∧ (manifest.existingFiles mixedFiles.unsorted).toList = [] ∧
        walk.found.toList =
          [Path.atTop "p/b.ts", Path.atTop "p/a/x.ts", Path.atTop "p/a-b/y.ts"]) = true := by
    decide +kernel
  rw [← mixedFiles_unsorted] at hparse
  cases hmanifest : parse (Path.atTop "p/tsconfig.json") "\x7b\x7d" with
  | error e =>
    rw [hmanifest] at hparse
    cases hparse
  | ok manifest =>
    rw [hmanifest] at hparse
    exact ⟨manifest, rfl, of_decide_eq_true hparse⟩

/-- What lies deeper comes last, and the longer name of a directory after the shorter one, although
the spellings are in the opposite order. -/
theorem enumeration_is_out_of_path_order : ∃ manifest,
    parse (Path.atTop "p/tsconfig.json") "\x7b\x7d" = .ok manifest ∧
      (∃ steps, ((Walk.step ⟨manifest, ["tsconfig.json"], ["ts"]⟩ mixedFiles.host)^[steps]
        (manifest.startWalk mixedFiles.host)).pending = []) ∧
      manifest.files.filter mixedFiles.hasFile = [] ∧
      manifest.roots mixedFiles.host ["tsconfig.json"] ["ts"] =
        [Path.atTop "p/b.ts", Path.atTop "p/a/x.ts", Path.atTop "p/a-b/y.ts"] ∧
      (Path.atTop "p/a-b/y.ts").text < (Path.atTop "p/a/x.ts").text ∧
      (Path.atTop "p/a/x.ts").text < (Path.atTop "p/b.ts").text := by
  obtain ⟨manifest, hparse, hended, hnamed, hfound⟩ := exists_mixed_walk
  refine ⟨manifest, hparse, ⟨3, hended⟩, List.eq_nil_iff_forall_not_mem.2 fun f hf => ?_, ?_,
    by decide +kernel, by decide +kernel⟩
  · have hexisting : f ∈ (manifest.existingFiles mixedFiles.host).toList := Roster.mem_ofList.2 hf
    rw [hnamed] at hexisting
    cases hexisting
  · exact (roots_eq_of_ended hended).trans hfound

/-- So the roots are in order directory by directory, but not in the order of spellings. -/
theorem enumeration_is_in_path_order_iff_mixed : ∃ manifest,
    parse (Path.atTop "p/tsconfig.json") "\x7b\x7d" = .ok manifest ∧
      let rules : Rules := ⟨manifest, ["tsconfig.json"], ["ts"]⟩
      ((Walk.step rules mixedFiles.host)^[3] (manifest.startWalk mixedFiles.host)).pending = [] ∧
      (∀ directory, rules.Visits mixedFiles.host directory → mixedFiles.PlainIn directory) ∧
      (rules.remaining mixedFiles.host).Pairwise Path.Precedes ∧
      ¬ (rules.remaining mixedFiles.host).Pairwise fun f g => f.text < g.text := by
  obtain ⟨manifest, hparse, hended, hnamed, hfound⟩ := exists_mixed_walk
  let rules : Rules := ⟨manifest, ["tsconfig.json"], ["ts"]⟩
  have hplain : ∀ directory, rules.Visits mixedFiles.host directory →
      mixedFiles.PlainIn directory := fun directory _ => mixedFiles_tidy.plainIn directory
  have hremaining : ∀ f ∈ [Path.atTop "p/b.ts", Path.atTop "p/a/x.ts"],
      f ∈ rules.remaining mixedFiles.host := by
    intro f hf
    have hroot : f ∈ manifest.roots mixedFiles.host ["tsconfig.json"] ["ts"] := by
      have hroots := (roots_eq_of_ended hended).trans hfound
      rw [hroots]
      exact List.mem_append_left [Path.atTop "p/a-b/y.ts"] hf
    refine List.mem_filter.2 ⟨hroot, decide_eq_true fun hexisting => ?_⟩
    rw [← Roster.mem_toList, hnamed] at hexisting
    cases hexisting
  obtain ⟨-, -, -, -, hplainly⟩ := enumeration_is_in_path_order_iff mixedFiles rules hended
  obtain ⟨hordered, hspelled, -⟩ := hplainly hplain
  refine ⟨manifest, hparse, hended, hplain, hordered, fun hpath => ?_⟩
  have hlt := hspelled.1 hpath (Path.atTop "p/b.ts") (hremaining _ (by simp))
    (Path.atTop "p/a/x.ts") (hremaining _ (by simp)) (by decide +kernel)
  exact absurd hlt (by decide +kernel)

end Codebase.Manifest
