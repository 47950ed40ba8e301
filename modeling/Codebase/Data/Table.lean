/-!
# Finite maps and ordered sets

`Table κ α` is a finite map that keeps its keys in the order of their first insertion; `Roster α`
is a set that keeps that order.  Both carry the proof that nothing occurs twice, so a table is
read and written by key alone.

The view of a table is `get?`, the view of a roster is membership in `toList`; each operation has
one lemma that says what it does to the view.
-/

namespace Codebase

/-- A finite map whose keys keep the order of their first insertion. -/
structure Table (κ α : Type) where
  entries : List (κ × α)
  nodup : (entries.map Prod.fst).Nodup

namespace Table

variable {κ α : Type}

def empty : Table κ α := ⟨[], List.nodup_nil⟩

instance : Inhabited (Table κ α) := ⟨empty⟩

def keys (t : Table κ α) : List κ := t.entries.map Prod.fst

def values (t : Table κ α) : List α := t.entries.map Prod.snd

def size (t : Table κ α) : Nat := t.entries.length

variable [DecidableEq κ]

def get? (t : Table κ α) (k : κ) : Option α := t.entries.lookup k

def contains (t : Table κ α) (k : κ) : Bool := (t.get? k).isSome

/-- Drops the entry of `k`, if there is one. -/
def erase (t : Table κ α) (k : κ) : Table κ α :=
  ⟨t.entries.filter (fun e => e.1 ≠ k), t.nodup.sublist (List.filter_sublist.map _)⟩

/-- Changes the value of `k` in its place; a table without `k` stays as it is. -/
def modify (t : Table κ α) (k : κ) (f : α → α) : Table κ α :=
  ⟨t.entries.map (fun e => if e.1 = k then (e.1, f e.2) else e), by
    have h : (t.entries.map (fun e => if e.1 = k then (e.1, f e.2) else e)).map Prod.fst
        = t.entries.map Prod.fst := by
      rw [List.map_map]
      exact List.map_congr_left fun e _ => by by_cases hk : e.1 = k <;> simp [hk]
    rw [h]; exact t.nodup⟩

theorem lookup_cons_eq (a j : κ) (b : α) (l : List (κ × α)) :
    ((a, b) :: l).lookup j = if j = a then some b else l.lookup j := by
  by_cases h : j = a
  · subst h; simp
  · have hb : (j == a) = false := by simpa using h
    rw [List.lookup_cons, hb, if_neg h]

theorem lookup_eq_none_iff {k : κ} {l : List (κ × α)} :
    l.lookup k = none ↔ k ∉ l.map Prod.fst := by
  induction l with
  | nil => simp
  | cons e l ih =>
    obtain ⟨a, b⟩ := e
    rw [lookup_cons_eq]
    by_cases h : k = a <;> simp [h, ih]

theorem get?_eq_none_iff {t : Table κ α} {k : κ} : t.get? k = none ↔ k ∉ t.keys :=
  lookup_eq_none_iff

theorem contains_iff {t : Table κ α} {k : κ} : t.contains k = true ↔ k ∈ t.keys := by
  rw [contains, Option.isSome_iff_ne_none, Ne, get?_eq_none_iff, Decidable.not_not]

/-- Sets the value of `k`: in its place when `k` is present, else at the end. -/
def insert (t : Table κ α) (k : κ) (v : α) : Table κ α :=
  if h : t.contains k = true then t.modify k (fun _ => v)
  else ⟨t.entries ++ [(k, v)], by
    rw [List.map_append, List.nodup_append]
    refine ⟨t.nodup, by simp, fun a ha b hb => ?_⟩
    simp only [List.map_cons, List.map_nil, List.mem_singleton] at hb
    rintro rfl
    exact h (contains_iff.2 (hb ▸ ha))⟩

@[simp] theorem get?_empty (k : κ) : (empty : Table κ α).get? k = none := rfl

theorem get?_erase (t : Table κ α) (k j : κ) :
    (t.erase k).get? j = if j = k then none else t.get? j := by
  unfold get? erase
  simp only
  induction t.entries with
  | nil => simp
  | cons e l ih =>
    obtain ⟨a, b⟩ := e
    by_cases ha : a = k
    · subst ha
      rw [List.filter_cons_of_neg (by simp), ih, lookup_cons_eq]
      by_cases hj : j = a <;> simp [hj]
    · rw [List.filter_cons_of_pos (by simpa using ha), lookup_cons_eq, lookup_cons_eq, ih]
      by_cases hj : j = a
      · subst hj; simp [ha]
      · simp [hj]

theorem get?_modify (t : Table κ α) (k j : κ) (f : α → α) :
    (t.modify k f).get? j = if j = k then (t.get? j).map f else t.get? j := by
  unfold get? modify
  simp only
  induction t.entries with
  | nil => simp
  | cons e l ih =>
    obtain ⟨a, b⟩ := e
    rw [List.map_cons, lookup_cons_eq]
    by_cases ha : a = k
    · subst ha
      rw [if_pos rfl, lookup_cons_eq, ih]
      by_cases hj : j = a <;> simp [hj]
    · rw [if_neg ha, lookup_cons_eq, ih]
      by_cases hj : j = a
      · subst hj; simp [ha]
      · simp [hj]

theorem get?_insert (t : Table κ α) (k j : κ) (v : α) :
    (t.insert k v).get? j = if j = k then some v else t.get? j := by
  unfold insert
  split
  · next h =>
    rw [get?_modify]
    by_cases hj : j = k
    · subst hj
      cases hg : t.get? j with
      | none => exact absurd (contains_iff.1 h) (get?_eq_none_iff.1 hg)
      | some _ => simp
    · simp [hj]
  · next h =>
    unfold get?
    rw [List.lookup_append, lookup_cons_eq]
    by_cases hj : j = k
    · subst hj
      rw [lookup_eq_none_iff.2 fun hk => h (contains_iff.2 hk)]; simp
    · simp [hj]

/-- Sets the value of `k` only where there is none. -/
def insertIfNew (t : Table κ α) (k : κ) (v : α) : Table κ α :=
  if t.contains k then t else t.insert k v

end Table

/-- A finite set that keeps the order of first insertion. -/
structure Roster (α : Type) where
  toList : List α
  nodup : toList.Nodup
  deriving DecidableEq

namespace Roster

variable {α : Type}

def empty : Roster α := ⟨[], List.nodup_nil⟩

instance : Inhabited (Roster α) := ⟨empty⟩

instance : Membership α (Roster α) := ⟨fun r a => a ∈ r.toList⟩

theorem mem_toList {r : Roster α} {a : α} : a ∈ r.toList ↔ a ∈ r := Iff.rfl

def size (r : Roster α) : Nat := r.toList.length

def isEmpty (r : Roster α) : Bool := r.toList.isEmpty

variable [DecidableEq α]

instance {a : α} {r : Roster α} : Decidable (a ∈ r) :=
  inferInstanceAs (Decidable (a ∈ r.toList))

/-- Adds `a` at the end unless it is there already. -/
def insert (r : Roster α) (a : α) : Roster α :=
  if h : a ∈ r then r
  else ⟨r.toList ++ [a], by
    rw [List.nodup_append]
    refine ⟨r.nodup, by simp, fun x hx b hb => ?_⟩
    rw [List.mem_singleton] at hb
    rintro rfl
    exact h (hb ▸ hx)⟩

/-- Drops `a`; the others keep their order. -/
def erase (r : Roster α) (a : α) : Roster α :=
  ⟨r.toList.filter (· ≠ a), r.nodup.sublist List.filter_sublist⟩

def ofList (l : List α) : Roster α := l.foldl insert empty

@[simp] theorem mem_insert {r : Roster α} {a b : α} : b ∈ r.insert a ↔ b ∈ r ∨ b = a := by
  unfold insert
  split
  · next h => exact ⟨Or.inl, fun hb => hb.elim id (fun e => e ▸ h)⟩
  · simp [← mem_toList]

@[simp] theorem mem_erase {r : Roster α} {a b : α} : b ∈ r.erase a ↔ b ∈ r ∧ b ≠ a := by
  simp [erase, ← mem_toList]

end Roster

end Codebase
