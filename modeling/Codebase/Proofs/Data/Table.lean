import Codebase.Data.Table
import Mathlib.Data.List.Basic
/-!
# Laws of tables and rosters

What the values of a table and the members of a roster are, in terms of its view:

* `Table.mem_values` and `Table.mem_entries` — what is stored is what `get?` finds.
* `Table.modify_of_get?` — a change of one value depends on that value alone.
* `Table.get?_foldl_insertIfNew` — of several values for one key the first one stays.
* `Roster.mem_ofList` and `Roster.mem_foldl_insert` — inserting a list adds its members.
* `Roster.toList_foldl_insert` — it adds them at the end, in their order.
-/

namespace Codebase

namespace Table

variable {κ α : Type} [DecidableEq κ]

theorem lookup_eq_some_iff {l : List (κ × α)} (hn : (l.map Prod.fst).Nodup) {k : κ} {v : α} :
    l.lookup k = some v ↔ (k, v) ∈ l := by
  induction l with
  | nil => simp
  | cons e l ih =>
    obtain ⟨a, b⟩ := e
    rw [List.map_cons, List.nodup_cons] at hn
    rw [lookup_cons_eq]
    by_cases h : k = a
    · subst h
      have hk : (k, v) ∉ l := fun hm => hn.1 (List.mem_map.2 ⟨_, hm, rfl⟩)
      simp [hk, eq_comm]
    · simp [h, ih hn.2]

theorem mem_entries {t : Table κ α} {k : κ} {v : α} : (k, v) ∈ t.entries ↔ t.get? k = some v :=
  (lookup_eq_some_iff t.nodup).symm

theorem mem_values {t : Table κ α} {v : α} : v ∈ t.values ↔ ∃ k, t.get? k = some v := by
  unfold values
  rw [List.mem_map]
  constructor
  · rintro ⟨⟨k, w⟩, hm, rfl⟩
    exact ⟨k, mem_entries.1 hm⟩
  · rintro ⟨k, hk⟩
    exact ⟨(k, v), mem_entries.2 hk, rfl⟩

theorem contains_eq_true {t : Table κ α} {k : κ} : t.contains k = true ↔ ∃ v, t.get? k = some v :=
  Option.isSome_iff_exists

theorem contains_eq_false {t : Table κ α} {k : κ} : t.contains k = false ↔ t.get? k = none :=
  Option.isSome_eq_false_iff.trans Option.isNone_iff_eq_none

/-- Changing the value of `k` by a function is setting it to what the function makes of it. -/
theorem modify_of_get? {t : Table κ α} {k : κ} {v : α} (h : t.get? k = some v) (f : α → α) :
    t.modify k f = t.modify k (fun _ => f v) := by
  have hentries : (t.modify k f).entries = (t.modify k (fun _ => f v)).entries := by
    refine List.map_congr_left fun e he => ?_
    by_cases hk : e.1 = k
    · have hv : t.get? k = some e.2 := mem_entries.1 (by rw [← hk]; exact he)
      rw [h, Option.some.injEq] at hv
      rw [if_pos hk, if_pos hk, hv]
    · rw [if_neg hk, if_neg hk]
  cases hl : t.modify k f
  cases hr : t.modify k (fun _ => f v)
  rw [hl, hr] at hentries
  cases hentries
  rfl

theorem keys_modify (t : Table κ α) (k : κ) (f : α → α) : (t.modify k f).keys = t.keys := by
  unfold keys modify
  rw [List.map_map]
  exact List.map_congr_left fun e _ => by by_cases hk : e.1 = k <;> simp [hk]

/-- Setting the value of a key that is present keeps the keys. -/
theorem keys_insert_of_contains {t : Table κ α} {k : κ} (h : t.contains k = true) (v : α) :
    (t.insert k v).keys = t.keys := by
  unfold insert
  rw [dif_pos h]
  exact keys_modify t k _

/-- A key that is new comes last. -/
theorem keys_insert_of_new {t : Table κ α} {k : κ} (h : t.contains k = false) (v : α) :
    (t.insert k v).keys = t.keys ++ [k] := by
  unfold insert
  rw [dif_neg (by rw [h]; exact Bool.false_ne_true)]
  exact List.map_append

theorem get?_insertIfNew (t : Table κ α) (k j : κ) (v : α) :
    (t.insertIfNew k v).get? j = (t.get? j).or (if j = k then some v else none) := by
  unfold insertIfNew
  split
  · rename_i hold
    obtain ⟨old, hget⟩ := contains_eq_true.1 hold
    by_cases hj : j = k
    · rw [hj, hget, Option.some_or]
    · rw [if_neg hj, Option.or_none]
  · rename_i hnew
    rw [get?_insert]
    by_cases hj : j = k
    · rw [hj, contains_eq_false.1 (Bool.eq_false_iff.2 hnew), Option.none_or, if_pos rfl]
    · rw [if_neg hj, if_neg hj, Option.or_none]

/-- What is there stays, and of the new values of a key the first one is kept. -/
theorem get?_foldl_insertIfNew (l : List (κ × α)) (t : Table κ α) (j : κ) :
    (l.foldl (fun table e => table.insertIfNew e.1 e.2) t).get? j = (t.get? j).or (l.lookup j) := by
  induction l generalizing t with
  | nil => rw [List.foldl_nil, List.lookup_nil, Option.or_none]
  | cons e l ih =>
    obtain ⟨k, v⟩ := e
    rw [List.foldl_cons, ih, get?_insertIfNew, lookup_cons_eq, Option.or_assoc]
    by_cases hj : j = k
    · rw [if_pos hj, if_pos hj, Option.some_or]
    · rw [if_neg hj, if_neg hj, Option.none_or]

theorem keys_erase_sublist (t : Table κ α) (k : κ) : (t.erase k).keys.Sublist t.keys :=
  List.filter_sublist.map Prod.fst

end Table

namespace Roster

variable {α : Type} [DecidableEq α]

theorem mem_foldl_insert {l : List α} {r : Roster α} {a : α} :
    a ∈ l.foldl insert r ↔ a ∈ r ∨ a ∈ l := by
  induction l generalizing r with
  | nil => simp
  | cons b l ih =>
    rw [List.foldl_cons, ih, mem_insert, List.mem_cons, or_assoc]

theorem mem_ofList {l : List α} {a : α} : a ∈ ofList l ↔ a ∈ l := by
  unfold ofList
  rw [mem_foldl_insert]
  simp [empty, ← mem_toList]

/-- Inserting a list appends what is new in it, each member where it comes first. -/
theorem toList_foldl_insert (l : List α) (r : Roster α) :
    (l.foldl insert r).toList = r.toList ++ (l.filter fun a => a ∉ r).eraseDups := by
  induction l generalizing r with
  | nil => simp
  | cons b l ih =>
    rw [List.foldl_cons, ih]
    by_cases hb : b ∈ r
    · have hinsert : r.insert b = r := by
        unfold insert
        rw [dif_pos hb]
      rw [hinsert, List.filter_cons_of_neg (by simpa using hb)]
    · have hinsert : (r.insert b).toList = r.toList ++ [b] := by
        unfold insert
        rw [dif_neg hb]
      have hlater : (l.filter fun a => a ∉ r.insert b) =
          (l.filter fun a => a ∉ r).filter fun a => !a == b := by
        rw [List.filter_filter]
        refine List.filter_congr fun a _ => ?_
        by_cases ha : a = b <;> simp [ha]
      rw [hinsert, hlater, List.filter_cons_of_pos (by simpa using hb), List.eraseDups_cons,
        List.append_assoc, List.singleton_append]

/-- A roster of a list has each of its members where it comes first. -/
theorem toList_ofList (l : List α) : (ofList l).toList = l.eraseDups := by
  have hall : (l.filter fun a => a ∉ (empty : Roster α)) = l :=
    List.filter_eq_self.2 fun a _ => by simp [empty, ← mem_toList]
  unfold ofList
  rw [toList_foldl_insert, hall]
  rfl

theorem nodup_eraseDups (l : List α) : l.eraseDups.Nodup := by
  rw [← toList_ofList]
  exact (ofList l).nodup

end Roster

end Codebase
