import Codebase.Host.Memory
import Codebase.Proofs.Data.Table
import Codebase.Proofs.Resolution
/-!
# Overwriting a file of a host in memory

`Memory.Alike` says that two hosts have the same files and directories, and that the files which
describe packages have the same texts.

* `alike_addFile` — overwriting any other file keeps all of that.
-/

namespace Codebase.Memory

variable {m n : Memory} {path q : Path} {text : String}

/-- The same files and directories, with the same texts in the files that describe packages. -/
structure Alike (m n : Memory) : Prop where
  hasFile : m.hasFile = n.hasFile
  hasDirectory : m.hasDirectory = n.hasDirectory
  list : m.list = n.list
  package : ∀ p : Path, p.fileName = Resolver.packageFile → m.read p = n.read p

theorem alike_refl (m : Memory) : Alike m m := ⟨rfl, rfl, rfl, fun _ _ => rfl⟩

theorem Alike.trans {k : Memory} (h : Alike m n) (h' : Alike n k) : Alike m k :=
  ⟨h.hasFile.trans h'.hasFile, h.hasDirectory.trans h'.hasDirectory, h.list.trans h'.list,
    fun p hp => (h.package p hp).trans (h'.package p hp)⟩

theorem hasFile_iff_read : m.hasFile q = true ↔ ∃ text, m.read q = .ok text := by
  unfold hasFile read
  rw [Table.contains_eq_true]
  cases m.files.get? q with
  | none => simp
  | some text => simp

theorem read_addFile_ne (hq : q ≠ path) : (m.addFile path text).read q = m.read q := by
  unfold read addFile
  rw [Table.get?_insert, if_neg hq]

/-- A host with the same stored paths has the same files and directories. -/
theorem alike_of_keys (hkeys : n.files.keys = m.files.keys)
    (hdirectories : n.directories = m.directories)
    (hpackage : ∀ p : Path, p.fileName = Resolver.packageFile → m.read p = n.read p) :
    Alike m n := by
  have hdirectory : m.hasDirectory = n.hasDirectory := by
    funext p
    unfold hasDirectory
    rw [hkeys, hdirectories]
  refine ⟨funext fun p => ?_, hdirectory, funext fun p => ?_, hpackage⟩
  · refine Bool.eq_iff_iff.2 ?_
    unfold hasFile
    rw [Table.contains_iff, Table.contains_iff, hkeys]
  · unfold list children sightings
    rw [hdirectory, hkeys, hdirectories]

/-- Overwriting a file that describes no package. -/
theorem alike_addFile (hfile : m.hasFile path = true)
    (hname : path.fileName ≠ Resolver.packageFile) (text : String) :
    Alike m (m.addFile path text) := by
  refine alike_of_keys (Table.keys_insert_of_contains hfile text) rfl fun p hp => ?_
  refine (read_addFile_ne ?_).symm
  rintro rfl
  exact hname hp

end Codebase.Memory
