import Codebase.Ownership
import Codebase.Proofs.Data.Table
/-!
# Laws of the ownership index

The index keeps two tables.  `Ownership.Mirrored` says that each is the inverse of the other, and
every operation has one law for either side:

* `mem_ownersOf_add`, `mem_ownersOf_remove`, `mem_ownersOf_replaceMembers`,
  `mem_ownersOf_removeProject` — who owns a path afterwards.
* `mem_membersOf_add`, … — what a project has afterwards.
* `Mirrored.add`, … — the two sides stay inverse.
* `Listing` — every owned path lists its owners in increasing order.
* `not_owned_of_mem_orphans`, `mem_orphans_of_not_owned` — the paths that are reported as orphans
  are those that have lost their last owner.
-/

namespace Codebase.Ownership

variable {index : Ownership} {id x : ProjectId} {p q : Path} {paths : List Path}

/-- The owners of a path and the members of a project say the same. -/
def Mirrored (index : Ownership) : Prop :=
  ∀ id path, id ∈ index.ownersOf path ↔ path ∈ index.membersOf id

/-! ## Owners -/

theorem mem_insertOwner {l : List ProjectId} : x ∈ insertOwner id l ↔ x = id ∨ x ∈ l := by
  induction l with
  | nil => simp [insertOwner]
  | cons other rest ih =>
    unfold insertOwner
    split
    · rename_i h
      simp [h]
    · split
      · simp
      · rw [List.mem_cons, List.mem_cons, ih, or_left_comm]

/-- What a table of owners says of a path. -/
def listed (owners : Table Path (List ProjectId)) (path : Path) : List ProjectId :=
  (owners.get? path).getD []

theorem mem_listed_link {owners : Table Path (List ProjectId)} :
    x ∈ listed (link owners id p) q ↔ x ∈ listed owners q ∨ (x = id ∧ q = p) := by
  unfold listed link
  rw [Table.get?_insert]
  by_cases h : q = p
  · subst h
    rw [if_pos rfl, Option.getD_some, mem_insertOwner]
    simp [or_comm]
  · simp [h]

theorem mem_listed_unlink {owners : Table Path (List ProjectId)} :
    x ∈ listed (unlink owners id p) q ↔ x ∈ listed owners q ∧ ¬ (x = id ∧ q = p) := by
  unfold unlink
  split
  · rename_i hnone
    refine ⟨fun hx => ⟨hx, ?_⟩, And.left⟩
    rintro ⟨-, rfl⟩
    simp [listed, hnone] at hx
  · rename_i ids hids
    have hleft : ∀ y, y ∈ ids.filter (· ≠ id) ↔ y ∈ ids ∧ y ≠ id := fun y => by simp
    split
    · rename_i hempty
      unfold listed
      rw [Table.get?_erase]
      by_cases h : q = p
      · subst h
        rw [hempty] at hleft
        have : x ∈ ids → x = id := fun hx => by
          by_contra hne
          exact List.not_mem_nil ((hleft x).2 ⟨hx, hne⟩)
        simp [hids]
        exact this
      · simp [h]
    · rename_i hleft'
      unfold listed
      rw [Table.get?_insert]
      by_cases h : q = p
      · subst h
        rw [if_pos rfl, hids, Option.getD_some, Option.getD_some, hleft]
        simp
      · simp [h]

theorem mem_listed_foldl_link {owners : Table Path (List ProjectId)} :
    x ∈ listed (paths.foldl (fun owners path => link owners id path) owners) q ↔
      x ∈ listed owners q ∨ (x = id ∧ q ∈ paths) := by
  induction paths generalizing owners with
  | nil => simp
  | cons path rest ih =>
    rw [List.foldl_cons, ih, mem_listed_link, List.mem_cons, or_assoc, ← and_or_left]

theorem mem_listed_foldl_unlink {owners : Table Path (List ProjectId)} :
    x ∈ listed (paths.foldl (fun owners path => unlink owners id path) owners) q ↔
      x ∈ listed owners q ∧ ¬ (x = id ∧ q ∈ paths) := by
  induction paths generalizing owners with
  | nil => simp
  | cons path rest ih =>
    rw [List.foldl_cons, ih, mem_listed_unlink, List.mem_cons, and_assoc, ← not_or, ← and_or_left]

theorem mem_ownersOf_add :
    x ∈ (index.add id p).ownersOf q ↔ x ∈ index.ownersOf q ∨ (x = id ∧ q = p) :=
  mem_listed_link

theorem mem_ownersOf_remove :
    x ∈ (index.remove id p).2.ownersOf q ↔ x ∈ index.ownersOf q ∧ ¬ (x = id ∧ q = p) :=
  mem_listed_unlink

theorem ownersOf_eq_nil_of_not_isOwned (h : index.isOwned p = false) : index.ownersOf p = [] := by
  unfold ownersOf
  rw [Table.contains_eq_false.1 h]
  rfl

/-! ## Members -/

theorem mem_membersOf_add :
    q ∈ (index.add id p).membersOf x ↔ q ∈ index.membersOf x ∨ (x = id ∧ q = p) := by
  unfold membersOf add
  simp only [Table.get?_insert]
  by_cases h : x = id
  · subst h
    simp [Roster.mem_toList]
  · simp [h]

theorem mem_membersOf_remove :
    q ∈ (index.remove id p).2.membersOf x ↔ q ∈ index.membersOf x ∧ ¬ (x = id ∧ q = p) := by
  unfold membersOf remove
  simp only [Table.get?_modify]
  by_cases h : x = id
  · subst h
    cases index.members.get? x with
    | none => simp [Roster.empty]
    | some paths => simp [Roster.mem_toList]
  · simp [h]

theorem mem_membersOf_replaceMembers :
    q ∈ (index.replaceMembers id paths).2.membersOf x ↔
      if x = id then q ∈ paths else q ∈ index.membersOf x := by
  unfold membersOf replaceMembers
  simp only [Table.get?_insert]
  by_cases h : x = id
  · simp [h, Roster.mem_toList, Roster.mem_ofList]
  · simp [h]

theorem mem_membersOf_removeProject :
    q ∈ (index.removeProject id).2.membersOf x ↔ q ∈ index.membersOf x ∧ x ≠ id := by
  unfold removeProject replaceMembers membersOf
  simp only [Table.get?_erase, Table.get?_insert]
  by_cases h : x = id
  · simp [h, Roster.empty]
  · simp [h]

theorem membersOf_eq_nil (h : index.members.contains id = false) : index.membersOf id = [] := by
  unfold membersOf
  rw [Table.contains_eq_false.1 h]
  rfl

/-! ## Both sides -/

/-- Afterwards the project owns the given paths, and every other one what it owned. -/
theorem mem_ownersOf_replaceMembers (hm : index.Mirrored) :
    x ∈ (index.replaceMembers id paths).2.ownersOf q ↔
      if x = id then q ∈ paths else x ∈ index.ownersOf q := by
  have hspec : x ∈ (index.replaceMembers id paths).2.ownersOf q ↔
      (x ∈ index.ownersOf q ∧ ¬ (x = id ∧ q ∈ index.membersOf id ∧ q ∉ paths)) ∨
        (x = id ∧ q ∈ paths) := by
    refine mem_listed_foldl_link.trans ?_
    rw [mem_listed_foldl_unlink, Roster.mem_toList, Roster.mem_ofList, List.mem_filter,
      decide_eq_true_eq, Roster.mem_ofList]
    rfl
  rw [hspec]
  by_cases h : x = id
  · subst h
    have := hm x q
    by_cases hq : q ∈ paths <;> simp [hq, this]
  · simp [h]

theorem mem_ownersOf_removeProject (hm : index.Mirrored) :
    x ∈ (index.removeProject id).2.ownersOf q ↔ x ∈ index.ownersOf q ∧ x ≠ id := by
  have : x ∈ (index.removeProject id).2.ownersOf q ↔
      x ∈ (index.replaceMembers id []).2.ownersOf q := Iff.rfl
  rw [this, mem_ownersOf_replaceMembers hm]
  by_cases h : x = id <;> simp [h]

theorem mirrored_empty : empty.Mirrored := fun _ _ => by
  simp [ownersOf, membersOf, empty, Roster.empty]

theorem Mirrored.add (hm : index.Mirrored) : (index.add id p).Mirrored := fun x q => by
  rw [mem_ownersOf_add, mem_membersOf_add, hm x q]

theorem Mirrored.remove (hm : index.Mirrored) : (index.remove id p).2.Mirrored := fun x q => by
  rw [mem_ownersOf_remove, mem_membersOf_remove, hm x q]

theorem Mirrored.replaceMembers (hm : index.Mirrored) :
    (index.replaceMembers id paths).2.Mirrored := fun x q => by
  rw [mem_ownersOf_replaceMembers hm, mem_membersOf_replaceMembers, hm x q]

theorem Mirrored.removeProject (hm : index.Mirrored) :
    (index.removeProject id).2.Mirrored := fun x q => by
  rw [mem_ownersOf_removeProject hm, mem_membersOf_removeProject, hm x q]

/-! ## The order of owners -/

/-- Every path of a table of owners has at least one, and they stand in increasing order. -/
def Listing (owners : Table Path (List ProjectId)) : Prop :=
  ∀ p ids, owners.get? p = some ids →
    ids ≠ [] ∧ ids.Pairwise fun a b => a.number < b.number

theorem insertOwner_ne_nil (id : ProjectId) (l : List ProjectId) : insertOwner id l ≠ [] := by
  cases l with
  | nil => exact nofun
  | cons other rest =>
    unfold insertOwner
    split
    · exact nofun
    · split <;> exact nofun

theorem pairwise_insertOwner {l : List ProjectId}
    (h : l.Pairwise fun a b => a.number < b.number) :
    (insertOwner id l).Pairwise fun a b => a.number < b.number := by
  induction l with
  | nil => exact List.pairwise_singleton _ _
  | cons other rest ih =>
    obtain ⟨hfirst, hrest⟩ := List.pairwise_cons.1 h
    unfold insertOwner
    split
    · exact h
    · rename_i hne
      split
      · rename_i hlt
        refine List.pairwise_cons.2 ⟨fun y hy => ?_, h⟩
        rcases List.mem_cons.1 hy with rfl | hy
        · exact hlt
        · exact Nat.lt_trans hlt (hfirst y hy)
      · rename_i hle
        refine List.pairwise_cons.2 ⟨fun y hy => ?_, ih hrest⟩
        rcases mem_insertOwner.1 hy with rfl | hy
        · have hnumber : y.number ≠ other.number := fun heq => hne (by
            cases y
            cases other
            cases heq
            rfl)
          omega
        · exact hfirst y hy

theorem Listing.link {owners : Table Path (List ProjectId)} (h : Listing owners) :
    Listing (link owners id p) := by
  intro q ids hids
  unfold Ownership.link at hids
  rw [Table.get?_insert] at hids
  split at hids
  · cases hids
    refine ⟨insertOwner_ne_nil _ _, pairwise_insertOwner ?_⟩
    cases hold : owners.get? p with
    | none => exact List.Pairwise.nil
    | some old => exact (h p old hold).2
  · exact h q ids hids

theorem Listing.unlink {owners : Table Path (List ProjectId)} (h : Listing owners) :
    Listing (unlink owners id p) := by
  unfold Ownership.unlink
  split
  · exact h
  · rename_i old hold
    split
    · intro q ids hids
      rw [Table.get?_erase] at hids
      split at hids
      · cases hids
      · exact h q ids hids
    · rename_i hleft
      intro q ids hids
      rw [Table.get?_insert] at hids
      split at hids
      · cases hids
        exact ⟨hleft, (h p old hold).2.filter _⟩
      · exact h q ids hids

theorem Listing.foldl_link {owners : Table Path (List ProjectId)} (h : Listing owners) :
    Listing (paths.foldl (fun owners path => Ownership.link owners id path) owners) := by
  induction paths generalizing owners with
  | nil => exact h
  | cons path rest ih => exact ih h.link

theorem Listing.foldl_unlink {owners : Table Path (List ProjectId)} (h : Listing owners) :
    Listing (paths.foldl (fun owners path => Ownership.unlink owners id path) owners) := by
  induction paths generalizing owners with
  | nil => exact h
  | cons path rest ih => exact ih h.unlink

theorem Listing.replaceMembers (h : Listing index.owners) :
    Listing (index.replaceMembers id paths).2.owners :=
  h.foldl_unlink.foldl_link

/-- A path that is listed has an owner. -/
theorem exists_owner (h : Listing index.owners) (howned : index.isOwned p = true) :
    ∃ x, x ∈ index.ownersOf p := by
  obtain ⟨ids, hids⟩ := Table.contains_eq_true.1 howned
  unfold ownersOf
  rw [hids, Option.getD_some]
  exact List.exists_mem_of_ne_nil ids (h p ids hids).1

theorem isOwned_of_mem (h : x ∈ index.ownersOf p) : index.isOwned p = true := by
  by_contra hnot
  rw [ownersOf_eq_nil_of_not_isOwned (Bool.eq_false_iff.2 hnot)] at h
  exact List.not_mem_nil h

theorem nodup_ownersOf (h : Listing index.owners) (p : Path) : (index.ownersOf p).Nodup := by
  unfold ownersOf
  cases hids : index.owners.get? p with
  | none => exact List.nodup_nil
  | some ids =>
    refine (h p ids hids).2.imp fun hlt heq => ?_
    rw [heq] at hlt
    exact Nat.lt_irrefl _ hlt

/-! ## Orphans -/

theorem not_owned_of_mem_orphans (h : q ∈ (index.replaceMembers id paths).1) :
    x ∉ (index.replaceMembers id paths).2.ownersOf q := by
  unfold replaceMembers Path.sort at h
  rw [List.mem_mergeSort, List.mem_filter, Bool.and_eq_true, Bool.not_eq_true'] at h
  obtain ⟨hlost, -, hleft⟩ := h
  intro hx
  rcases mem_listed_foldl_link.1 hx with hx | ⟨-, hx⟩
  · unfold listed at hx
    rw [Table.contains_eq_false.1 hleft] at hx
    exact List.not_mem_nil hx
  · rw [List.mem_filter, decide_eq_true_eq] at hlost
    exact hlost.2 hx

theorem mem_membersOf_of_mem_orphans (h : q ∈ (index.replaceMembers id paths).1) :
    q ∈ index.membersOf id := by
  unfold replaceMembers Path.sort at h
  rw [List.mem_mergeSort, List.mem_filter] at h
  exact (List.mem_filter.1 h.1).1

theorem not_owned_of_mem_orphans_removeProject (h : q ∈ (index.removeProject id).1) :
    x ∉ (index.removeProject id).2.ownersOf q :=
  not_owned_of_mem_orphans h

/-- A path that loses its last owner is reported. -/
theorem mem_orphans_of_not_owned (hl : Listing index.owners) (hm : index.Mirrored)
    (howned : x ∈ index.ownersOf q)
    (hnone : ∀ y, y ∉ (index.replaceMembers id paths).2.ownersOf q) :
    q ∈ (index.replaceMembers id paths).1 := by
  -- only `id` can have owned it, and not any more
  have hx : x = id := by
    by_contra hne
    exact hnone x ((mem_ownersOf_replaceMembers hm).2 ((if_neg hne).symm ▸ howned))
  have hq : q ∉ paths := fun hq =>
    hnone id ((mem_ownersOf_replaceMembers hm).2 ((if_pos rfl).symm ▸ hq))
  rw [hx] at howned
  have hlost : q ∈ (index.membersOf id).filter (· ∉ Roster.ofList paths) :=
    List.mem_filter.2 ⟨(hm id q).1 howned, decide_eq_true (mt Roster.mem_ofList.1 hq)⟩
  unfold replaceMembers Path.sort at hnone ⊢
  rw [List.mem_mergeSort, List.mem_filter, Bool.and_eq_true, Bool.not_eq_true']
  refine ⟨hlost, isOwned_of_mem howned, Bool.eq_false_iff.2 fun hleft => ?_⟩
  obtain ⟨ids, hids⟩ := Table.contains_eq_true.1 hleft
  obtain ⟨y, hy⟩ := List.exists_mem_of_ne_nil ids (hl.foldl_unlink q ids hids).1
  refine hnone y (mem_listed_foldl_link.2 (.inl ?_))
  unfold listed
  rw [hids]
  exact hy

/-! ## Projects that the index mentions -/

theorem contains_members_add :
    (index.add id p).members.contains x = true ↔ index.members.contains x = true ∨ x = id := by
  simp only [add, Table.contains_eq_true, Table.get?_insert]
  by_cases h : x = id <;> simp [h]

theorem contains_members_remove :
    (index.remove id p).2.members.contains x = index.members.contains x := by
  simp only [remove, Table.contains, Table.get?_modify]
  split <;> simp

theorem contains_members_replaceMembers :
    (index.replaceMembers id paths).2.members.contains x = true ↔
      index.members.contains x = true ∨ x = id := by
  simp only [replaceMembers, Table.contains_eq_true, Table.get?_insert]
  by_cases h : x = id <;> simp [h]

theorem contains_members_removeProject :
    (index.removeProject id).2.members.contains x = true ↔
      index.members.contains x = true ∧ x ≠ id := by
  simp only [removeProject, replaceMembers, Table.contains_eq_true, Table.get?_erase,
    Table.get?_insert]
  by_cases h : x = id <;> simp [h]

theorem contains_members_of_mem (h : q ∈ index.membersOf id) :
    index.members.contains id = true := by
  by_contra hc
  rw [membersOf_eq_nil (by simpa using hc)] at h
  exact List.not_mem_nil h

end Codebase.Ownership
