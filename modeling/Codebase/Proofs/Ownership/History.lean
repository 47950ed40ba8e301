import Codebase.Proofs.Host.Directory
import Codebase.Proofs.Ownership
/-!
# The ownership index through its history

The laws of one operation need an index whose two tables are inverse to each other and keep no empty
entry.  The empty index is one, and every operation keeps this, so the laws hold after any history.

* `WellKept.apply`, `wellKept_after` — what every change keeps, and so every history.
* `mem_orphans_iff` — the paths that are reported are those that had an owner and have none left.
* `orphans_are_exact` — what the operations report and change, after any history.
-/

namespace Codebase.Ownership

variable {index : Ownership} {id other : ProjectId} {p : Path} {paths : List Path}

/-- One change of the index. -/
inductive Change where
  | add (id : ProjectId) (path : Path)
  | remove (id : ProjectId) (path : Path)
  | replaceMembers (id : ProjectId) (paths : List Path)
  | removeProject (id : ProjectId)

def Change.apply (index : Ownership) : Change → Ownership
  | add id path => index.add id path
  | remove id path => (index.remove id path).2
  | replaceMembers id paths => (index.replaceMembers id paths).2
  | removeProject id => (index.removeProject id).2

/-- The index after these changes. -/
def after (changes : List Change) : Ownership := changes.foldl Change.apply empty

/-! ## What every history keeps -/

/-- The tables are inverse to each other, and each path that has an entry has owners, in order. -/
structure WellKept (index : Ownership) : Prop where
  mirrored : index.Mirrored
  listing : Listing index.owners

theorem wellKept_empty : empty.WellKept :=
  ⟨mirrored_empty, fun _ _ hids => nomatch hids⟩

theorem WellKept.apply (h : index.WellKept) (change : Change) :
    (change.apply index).WellKept := by
  cases change with
  | add id path => exact ⟨h.mirrored.add, h.listing.link⟩
  | remove id path => exact ⟨h.mirrored.remove, h.listing.unlink⟩
  | replaceMembers id paths => exact ⟨h.mirrored.replaceMembers, h.listing.replaceMembers⟩
  | removeProject id => exact ⟨h.mirrored.removeProject, h.listing.replaceMembers⟩

theorem wellKept_after (changes : List Change) : (after changes).WellKept :=
  List.foldlRecOn changes Change.apply wellKept_empty fun _ h change _ => h.apply change

/-- A path without an entry is a path without owners. -/
theorem WellKept.contains_eq_false_iff (h : index.WellKept) :
    index.owners.contains p = false ↔ index.ownersOf p = [] := by
  refine ⟨ownersOf_eq_nil_of_not_isOwned, fun hnone => Bool.eq_false_iff.2 fun howned => ?_⟩
  obtain ⟨x, hx⟩ := exists_owner h.listing howned
  rw [hnone] at hx
  exact List.not_mem_nil hx

theorem WellKept.remove_reports_iff (h : index.WellKept) :
    (index.remove id p).1 = true ↔ (index.remove id p).2.ownersOf p = [] := by
  have hafter : (index.remove id p).2.WellKept := h.apply (.remove id p)
  rw [← hafter.contains_eq_false_iff]
  exact iff_of_eq (Bool.not_eq_true' _)

/-! ## Orphans -/

/-- The paths that are reported as orphans are those that had an owner and have none left. -/
theorem mem_orphans_iff (h : index.WellKept) : p ∈ (index.replaceMembers id paths).1 ↔
    index.ownersOf p ≠ [] ∧ (index.replaceMembers id paths).2.ownersOf p = [] := by
  constructor
  · intro horphan
    have howned := (h.mirrored id p).2 (mem_membersOf_of_mem_orphans horphan)
    exact ⟨List.ne_nil_of_mem howned,
      List.eq_nil_iff_forall_not_mem.2 fun _ => not_owned_of_mem_orphans horphan⟩
  · rintro ⟨howned, hnone⟩
    obtain ⟨x, hx⟩ := List.exists_mem_of_ne_nil _ howned
    exact mem_orphans_of_not_owned h.listing h.mirrored hx
      (List.eq_nil_iff_forall_not_mem.1 hnone)

/-- They are reported in the order of paths, none twice. -/
theorem pairwise_orphans (index : Ownership) (id : ProjectId) (paths : List Path) :
    (index.replaceMembers id paths).1.Pairwise fun p q => p.text < q.text :=
  Path.pairwise_sort ((Roster.nodup _).sublist (List.filter_sublist.trans List.filter_sublist))

theorem membersOf_replaceMembers_other (hne : other ≠ id) :
    (index.replaceMembers id paths).2.membersOf other = index.membersOf other := by
  unfold membersOf replaceMembers
  simp only [Table.get?_insert, if_neg hne]

theorem membersOf_removeProject_other (hne : other ≠ id) :
    (index.removeProject id).2.membersOf other = index.membersOf other := by
  unfold membersOf removeProject replaceMembers
  simp only [Table.get?_erase, Table.get?_insert, if_neg hne]

/-- The outcome gives the project these members and nothing else, leaves the links of every other
project, and lists in order the paths that had an owner and have none left. -/
structure Replaces (index : Ownership) (id : ProjectId) (paths : List Path)
    (outcome : List Path × Ownership) : Prop where
  members : ∀ p, p ∈ outcome.2.membersOf id ↔ p ∈ paths
  others : ∀ other, other ≠ id → outcome.2.membersOf other = index.membersOf other ∧
    ∀ p, other ∈ outcome.2.ownersOf p ↔ other ∈ index.ownersOf p
  orphans : ∀ p, p ∈ outcome.1 ↔ index.ownersOf p ≠ [] ∧ outcome.2.ownersOf p = []
  sorted : outcome.1.Pairwise fun p q => p.text < q.text

theorem WellKept.replaces (h : index.WellKept) (id : ProjectId) (paths : List Path) :
    index.Replaces id paths (index.replaceMembers id paths) where
  members p := by rw [mem_membersOf_replaceMembers, if_pos rfl]
  others other hne := ⟨membersOf_replaceMembers_other hne, fun p => by
    rw [mem_ownersOf_replaceMembers h.mirrored, if_neg hne]⟩
  orphans _ := mem_orphans_iff h
  sorted := pairwise_orphans index id paths

/-- A project that is forgotten has no members. -/
theorem WellKept.replaces_removeProject (h : index.WellKept) (id : ProjectId) :
    index.Replaces id [] (index.removeProject id) where
  members p := by simp [mem_membersOf_removeProject]
  others other hne := ⟨membersOf_removeProject_other hne, fun p => by
    rw [mem_ownersOf_removeProject h.mirrored, and_iff_left hne]⟩
  orphans _ := mem_orphans_iff h
  sorted := pairwise_orphans index id []

/-- **The index reports exactly the orphans.**  After any history, a project is among the owners of
a path exactly if the path is among its members, and a path that has an entry has an owner; the
owners are listed in increasing order.  Adding and removing change one link, and removing answers
whether the path has no owner afterwards.  Replacing the members of a project gives it the new ones
and leaves the links of every other project; it lists, in order and none twice, the paths that had
an owner before and have none afterwards.  Forgetting a project does the same with no members. -/
theorem orphans_are_exact (changes : List Change) :
    let index := after changes
    (∀ id p, id ∈ index.ownersOf p ↔ p ∈ index.membersOf id) ∧
    (∀ p owners, index.owners.get? p = some owners →
      owners ≠ [] ∧ owners.Pairwise fun a b => a.number < b.number) ∧
    (∀ id p other q, other ∈ (index.add id p).ownersOf q ↔
      other ∈ index.ownersOf q ∨ (other = id ∧ q = p)) ∧
    (∀ id p, ((index.remove id p).1 = true ↔ (index.remove id p).2.ownersOf p = []) ∧
      ∀ other q, other ∈ (index.remove id p).2.ownersOf q ↔
        other ∈ index.ownersOf q ∧ ¬ (other = id ∧ q = p)) ∧
    (∀ id paths, index.Replaces id paths (index.replaceMembers id paths)) ∧
    (∀ id, index.Replaces id [] (index.removeProject id)) := by
  have h := wellKept_after changes
  refine ⟨h.mirrored, h.listing, fun id p other q => mem_ownersOf_add, fun id p => ?_,
    h.replaces, h.replaces_removeProject⟩
  exact ⟨h.remove_reports_iff, fun other q => mem_ownersOf_remove⟩

end Codebase.Ownership
