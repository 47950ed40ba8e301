import Codebase.Proofs.Manifest
import Mathlib.Logic.Function.Iterate
/-!
# What a walk finds

A walk takes the next directory, picks up what its listing shows and puts the directories that it
enters in its place.  `Rules.Explores` is what every step keeps: nothing that is to be visited is
lost, and everything found is shown by a directory that was listed.

* `step_explores`, `mem_found_iff` — a walk that has ended has found what its directories show.
* `run_eq_iterate`, `iterate_eq_of_ended` — a walk goes on step by step, and stays where it ends.
-/

namespace Codebase.Manifest

variable {host : Host} {rules : Rules} {walk start : Walk} {done : List Path}
  {directory path : Path}

/-! ## Directories of a walk -/

/-- The directories that a walk comes to. -/
inductive Rules.Visits (rules : Rules) (host : Host) : Path → Prop where
  | start : Visits rules host rules.manifest.directory
  | enter {directory : Path} {entries : List Host.Entry} {entry : Host.Entry} :
      Visits rules host directory → host.list directory = .ok entries → entry ∈ entries →
        rules.enters host entry = true → Visits rules host entry.path

/-- The directory shows a file that the walk picks up. -/
def Rules.PicksIn (rules : Rules) (host : Host) (directory path : Path) : Prop :=
  ∃ entries, host.list directory = .ok entries ∧
    ∃ entry ∈ entries, rules.picks entry = true ∧ entry.path = path

/-- The walk has listed the directories `done` since `start`. -/
structure Rules.Explores (rules : Rules) (host : Host) (start : Walk) (done : List Path)
    (walk : Walk) : Prop where
  visited : ∀ directory, directory ∈ done ∨ directory ∈ walk.pending → rules.Visits host directory
  begun : rules.manifest.directory ∈ done ∨ rules.manifest.directory ∈ walk.pending
  closed : ∀ directory ∈ done, ∀ entries, host.list directory = .ok entries →
    ∀ entry ∈ entries, rules.enters host entry = true →
      entry.path ∈ done ∨ entry.path ∈ walk.pending
  found : ∀ path, path ∈ walk.found ↔
    path ∈ start.found ∨ ∃ directory ∈ done, rules.PicksIn host directory path

/-- A walk that starts at the directory of the manifest has listed nothing. -/
theorem explores_start (hstart : start.pending = [rules.manifest.directory]) :
    rules.Explores host start [] start where
  visited directory h := by
    rw [hstart] at h
    simp only [List.not_mem_nil, List.mem_singleton, false_or] at h
    exact h ▸ .start
  begun := .inr (by rw [hstart]; exact List.mem_singleton_self _)
  closed _ h := nomatch h
  found path := by simp

theorem step_of_error {rest : List Path} {e : Error} (hpending : walk.pending = directory :: rest)
    (hlist : host.list directory = .error e) : walk.step rules host = ⟨rest, walk.found⟩ := by
  unfold Walk.step
  simp only [hpending, hlist]

theorem step_of_ok {rest : List Path} {entries : List Host.Entry}
    (hpending : walk.pending = directory :: rest) (hlist : host.list directory = .ok entries) :
    walk.step rules host =
      ⟨(entries.filter (rules.enters host)).map Host.Entry.path ++ rest,
        ((entries.filter rules.picks).map Host.Entry.path).foldl Roster.insert walk.found⟩ := by
  unfold Walk.step
  simp only [hpending, hlist]

/-- **A step lists the next directory.** -/
theorem step_explores {rest : List Path} (hpending : walk.pending = directory :: rest)
    (h : rules.Explores host start done walk) :
    rules.Explores host start (directory :: done) (walk.step rules host) := by
  have hvisited : ∀ d, d ∈ directory :: done ∨ d ∈ rest → rules.Visits host d := by
    intro d hd
    refine h.visited d ?_
    rw [hpending, List.mem_cons]
    rcases hd with hd | hd
    · rcases List.mem_cons.1 hd with hnext | hdone
      · exact .inr (.inl hnext)
      · exact .inl hdone
    · exact .inr (.inr hd)
  -- what was listed or pending is listed or pending still, whatever is put in front
  have hkept : ∀ entered {d}, d ∈ done ∨ d ∈ walk.pending →
      d ∈ directory :: done ∨ d ∈ entered ++ rest := by
    intro entered d hd
    rw [hpending, List.mem_cons] at hd
    rw [List.mem_cons, List.mem_append]
    rcases hd with hdone | hnext | hrest
    · exact .inl (.inr hdone)
    · exact .inl (.inl hnext)
    · exact .inr (.inr hrest)
  cases hlist : host.list directory with
  | error e =>
    rw [step_of_error hpending hlist]
    refine ⟨hvisited, hkept [] h.begun, ?_, fun path => ?_⟩
    · intro d hd entries hentries entry hentry henters
      rcases List.mem_cons.1 hd with rfl | hdone
      · rw [hlist] at hentries
        cases hentries
      · exact hkept [] (h.closed d hdone entries hentries entry hentry henters)
    · rw [h.found]
      have hnothing : ¬ rules.PicksIn host directory path := by
        rintro ⟨entries, hentries, -⟩
        rw [hlist] at hentries
        cases hentries
      simp [hnothing]
  | ok entries =>
    rw [step_of_ok hpending hlist]
    refine ⟨?_, hkept _ h.begun, ?_, fun path => ?_⟩
    · intro d hd
      rw [List.mem_append] at hd
      rcases hd with hdone | hentered | hrest
      · exact hvisited d (.inl hdone)
      · obtain ⟨entry, hentry, rfl⟩ := List.mem_map.1 hentered
        obtain ⟨hlisted, henters⟩ := List.mem_filter.1 hentry
        exact .enter (hvisited directory (.inl List.mem_cons_self)) hlist hlisted henters
      · exact hvisited d (.inr hrest)
    · intro d hd others hothers entry hentry henters
      rcases List.mem_cons.1 hd with rfl | hdone
      · rw [hlist] at hothers
        cases hothers
        exact .inr (List.mem_append_left _
          (List.mem_map_of_mem (List.mem_filter.2 ⟨hentry, henters⟩)))
      · exact hkept _ (h.closed d hdone others hothers entry hentry henters)
    · have hpicks : rules.PicksIn host directory path ↔
          path ∈ (entries.filter rules.picks).map Host.Entry.path := by
        unfold Rules.PicksIn
        simp [hlist, and_assoc]
      rw [Roster.mem_foldl_insert, h.found, ← hpicks]
      simp only [List.exists_mem_cons_iff]
      rw [or_assoc, or_comm (a := rules.PicksIn host directory path)]

/-- **A walk that has ended has come to every directory that it should, and has found what these
show.** -/
theorem Rules.Explores.mem_found_iff (h : rules.Explores host start done walk)
    (hended : walk.pending = []) : path ∈ walk.found ↔
      path ∈ start.found ∨ ∃ directory, rules.Visits host directory ∧
        rules.PicksIn host directory path := by
  have hlisted : ∀ directory, rules.Visits host directory → directory ∈ done := by
    intro directory hvisits
    induction hvisits with
    | start => simpa [hended] using h.begun
    | enter _ hlist hentry henters ih => simpa [hended] using h.closed _ ih _ hlist _ hentry henters
  rw [h.found]
  refine or_congr_right ⟨?_, ?_⟩
  · rintro ⟨directory, hdone, hpicks⟩
    exact ⟨directory, h.visited directory (.inl hdone), hpicks⟩
  · rintro ⟨directory, hvisits, hpicks⟩
    exact ⟨directory, hlisted directory hvisits, hpicks⟩

/-! ## Steps of a walk -/

theorem step_of_ended (hended : walk.pending = []) : walk.step rules host = walk := by
  unfold Walk.step
  simp only [hended]

/-- A walk goes on step by step. -/
theorem run_eq_iterate (fuel : Nat) (walk : Walk) :
    walk.run rules host fuel = (Walk.step rules host)^[fuel] walk := by
  induction fuel generalizing walk with
  | zero => rfl
  | succ fuel ih =>
    unfold Walk.run
    split
    · rename_i hended
      rw [Function.iterate_fixed (step_of_ended (List.isEmpty_iff.1 hended))]
    · rw [ih, Function.iterate_succ_apply]

/-- Wherever a walk has ended, it has ended in the same way. -/
theorem iterate_eq_of_ended {m n : Nat}
    (hm : ((Walk.step rules host)^[m] walk).pending = [])
    (hn : ((Walk.step rules host)^[n] walk).pending = []) :
    (Walk.step rules host)^[m] walk = (Walk.step rules host)^[n] walk := by
  have hlater : ∀ {m n : Nat}, ((Walk.step rules host)^[m] walk).pending = [] → m ≤ n →
      (Walk.step rules host)^[m] walk = (Walk.step rules host)^[n] walk := by
    intro m n hm hle
    obtain ⟨more, rfl⟩ := Nat.exists_eq_add_of_le' hle
    rw [Function.iterate_add_apply, Function.iterate_fixed (step_of_ended hm)]
  rcases Nat.le_total m n with hle | hle
  · exact hlater hm hle
  · exact (hlater hn hle).symm

theorem exists_explores (h : rules.Explores host start done walk) (steps : Nat) :
    ∃ done, rules.Explores host start done ((Walk.step rules host)^[steps] walk) := by
  induction steps with
  | zero => exact ⟨done, h⟩
  | succ steps ih =>
    obtain ⟨done, hdone⟩ := ih
    rw [Function.iterate_succ_apply']
    cases hpending : ((Walk.step rules host)^[steps] walk).pending with
    | nil => exact ⟨done, by rw [step_of_ended hpending]; exact hdone⟩
    | cons directory rest => exact ⟨directory :: done, step_explores hpending hdone⟩

end Codebase.Manifest
