import Codebase.Host.Memory
import Codebase.Proofs.Path
/-!
# Listings of a host in memory

A listing is in the order of the paths.  When the places of a host are stored in this order already,
nothing has to be sorted, and what is listed can be computed from the places alone.

* `mem_ancestors_of_shows` — only the directories above a place show it.
* `host_eq_unsorted` — so it is enough to look at these.
-/

namespace Codebase.Memory

variable {memory : Memory} {directory place : Path}

/-- What a directory shows, in the order in which the places are stored. -/
def shown (memory : Memory) (directory : Path) : List Path :=
  ((memory.sightings directory).map Prod.fst).eraseDups

/-- The host with listings in the order in which the places are stored. -/
def unsorted (memory : Memory) : Host :=
  { memory.host with
    list := fun directory =>
      if memory.hasDirectory directory then
        .ok ((memory.shown directory).map fun p =>
          ⟨p, (memory.sightings directory).any fun s => s.1 = p && s.2⟩)
      else .error (.io ("no such directory: " ++ directory.text)) }

theorem mem_ancestors_of_shows {isFile : Bool} {seen : Path × Bool}
    (h : shows directory isFile place = some seen) : directory ∈ place.ancestors := by
  have hunder : place.isUnder directory = true := by
    unfold Path.isUnder
    unfold shows at h
    cases hbelow : place.below? directory with
    | none =>
      rw [hbelow] at h
      cases h
    | some names => rfl
  obtain ⟨hroot, hnames⟩ := Path.isUnder_iff.1 hunder
  exact Path.mem_chain.2 ⟨hroot.symm, hnames⟩

/-- A directory that lies above no place shows nothing. -/
theorem shown_eq_nil (h : directory ∉ (memory.files.keys ++ memory.directories.toList).flatMap
    Path.ancestors) : memory.shown directory = [] := by
  have hnone : ∀ isFile, ∀ place ∈ memory.files.keys ++ memory.directories.toList,
      shows directory isFile place = none := by
    intro isFile place hplace
    cases hshows : shows directory isFile place with
    | none => rfl
    | some seen =>
      exact absurd (List.mem_flatMap.2 ⟨place, hplace, mem_ancestors_of_shows hshows⟩) h
  have hempty : memory.sightings directory = [] := by
    unfold sightings
    rw [List.append_eq_nil_iff, List.filterMap_eq_nil_iff, List.filterMap_eq_nil_iff]
    exact ⟨fun place hplace => hnone true place (List.mem_append_left _ hplace),
      fun place hplace => hnone false place (List.mem_append_right _ hplace)⟩
  unfold shown
  rw [hempty]
  rfl

/-- **Where the places are stored in order, listings show them in the order in which they are
stored.** -/
theorem host_eq_unsorted
    (h : ∀ directory ∈ (memory.files.keys ++ memory.directories.toList).flatMap Path.ancestors,
      (memory.shown directory).Pairwise fun p q => p.le q = true) :
    memory.host = memory.unsorted := by
  have hsorted : ∀ directory, Path.sort (memory.shown directory) = memory.shown directory := by
    intro directory
    refine List.mergeSort_of_pairwise ?_
    by_cases habove : directory ∈
        (memory.files.keys ++ memory.directories.toList).flatMap Path.ancestors
    · exact h directory habove
    · rw [shown_eq_nil habove]
      exact List.Pairwise.nil
  have hlist : memory.list = memory.unsorted.list := by
    funext directory
    unfold Memory.list children unsorted
    simp only
    rw [← hsorted directory]
    rfl
  unfold host
  rw [hlist]
  rfl

end Codebase.Memory
