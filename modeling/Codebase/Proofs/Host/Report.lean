import Codebase.Proofs.Host.Memory
/-!
# Reports that are true

An event describes what has happened between two moments of a host if the file at its path has come,
has changed or has gone, as the event says, and no other file has changed.

* `FileEvent.Describes.lawful` — what can be read after it is a file, if that was so before.
* `Memory.addFile_describes`, `Memory.removeFile_describes` — what happens to a host in memory.
-/

namespace Codebase

/-- What can be read is a file. -/
def Host.Lawful (host : Host) : Prop := ∀ q text, host.read q = .ok text → host.hasFile q = true

/-- There is no file at the path, and nothing can be read from it. -/
structure Host.Lacks (host : Host) (path : Path) : Prop where
  hasFile : host.hasFile path = false
  read : ∀ text, host.read path ≠ .ok text

/-- No listing shows the path as a file. -/
def Host.Hides (host : Host) (path : Path) : Prop :=
  ∀ directory entries, host.list directory = .ok entries →
    ∀ entry ∈ entries, entry.path = path → entry.isDirectory = true

/-- The event is what has happened between two moments of the host. -/
structure FileEvent.Describes (event : FileEvent) (before after : Host) : Prop where
  existed : before.hasFile event.path = true ↔ event.change ≠ .created
  remains : after.hasFile event.path = true ↔ event.change ≠ .deleted
  readable : (∃ text, after.read event.path = .ok text) ↔ event.change ≠ .deleted
  hasFile : ∀ q, q ≠ event.path → after.hasFile q = before.hasFile q
  read : ∀ q, q ≠ event.path → after.read q = before.read q

theorem FileEvent.Describes.lawful {event : FileEvent} {before after : Host}
    (h : event.Describes before after) (hbefore : before.Lawful) : after.Lawful := by
  intro q text hread
  by_cases hq : q = event.path
  · subst hq
    exact h.remains.2 (h.readable.1 ⟨text, hread⟩)
  · rw [h.read q hq] at hread
    rw [h.hasFile q hq]
    exact hbefore q text hread

/-- Where all that can be read is a file, it is enough to look for the file. -/
theorem Host.Lawful.lacks {host : Host} {path : Path} (h : host.Lawful)
    (hnone : host.hasFile path = false) : host.Lacks path where
  hasFile := hnone
  read text hread := by
    rw [h path text hread] at hnone
    cases hnone

namespace Memory

variable {memory : Memory} {path q : Path} {text : String}

theorem host_lawful (memory : Memory) : memory.host.Lawful := fun _ text hread =>
  hasFile_iff_read.2 ⟨text, hread⟩

theorem hasFile_addFile : (memory.addFile path text).hasFile q = true ↔
    q = path ∨ memory.hasFile q = true := by
  unfold hasFile addFile Table.contains
  rw [Table.get?_insert]
  by_cases hq : q = path <;> simp [hq]

theorem hasFile_removeFile : (memory.removeFile path).hasFile q = true ↔
    q ≠ path ∧ memory.hasFile q = true := by
  unfold hasFile removeFile Table.contains
  rw [Table.get?_erase]
  by_cases hq : q = path <;> simp [hq]

/-- Storing a text creates a file or modifies it. -/
theorem addFile_describes (memory : Memory) (path : Path) (text : String) :
    FileEvent.Describes ⟨path, if memory.hasFile path then .modified else .created⟩ memory.host
      (memory.addFile path text).host where
  existed := by
    show memory.hasFile path = true ↔ _
    cases memory.hasFile path <;> simp
  remains := by
    refine iff_of_true (hasFile_addFile.2 (.inl rfl)) ?_
    cases memory.hasFile path <;> simp
  readable := by
    refine iff_of_true (hasFile_iff_read.1 (hasFile_addFile.2 (.inl rfl))) ?_
    cases memory.hasFile path <;> simp
  hasFile q hq := Bool.eq_iff_iff.2 (hasFile_addFile.trans (or_iff_right hq))
  read q hq := read_addFile_ne hq

/-- Dropping a file deletes it. -/
theorem removeFile_describes (hfile : memory.hasFile path = true) :
    FileEvent.Describes ⟨path, .deleted⟩ memory.host (memory.removeFile path).host where
  existed := iff_of_true hfile nofun
  remains := iff_of_false (fun h => (hasFile_removeFile.1 h).1 rfl) fun h => h rfl
  readable := iff_of_false (fun h => (hasFile_removeFile.1 (hasFile_iff_read.2 h)).1 rfl)
    fun h => h rfl
  hasFile q hq := Bool.eq_iff_iff.2 (hasFile_removeFile.trans (and_iff_right hq))
  read q hq := by
    show (memory.removeFile path).read q = memory.read q
    unfold Memory.read removeFile
    rw [Table.get?_erase, if_neg hq]

end Memory

end Codebase
