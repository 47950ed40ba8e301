import Codebase.Proofs.Path.Spelling
import Mathlib.Data.String.Basic
/-!
# Directory by directory

Spellings are compared character by character.  A walk that lists directory by directory puts what
lies directly in a directory before what lies deeper, and compares directories name by name.

* `text_lt_text_iff` — in one directory, spellings are ordered as the names are.
* `precedes_of_beneath`, `precedes_of_siblings` — what lies directly in a directory precedes what
  lies deeper, and beneath two of its children the order is that of the children.
-/

namespace Codebase.Path

variable {p q a b directory : Path}

/-- The names that lead to the path from its root, outermost first. -/
def trail (p : Path) : List String := p.names.reverse.map Segment.text

/-- The names that lead to the directory in which the path lies. -/
def way (p : Path) : List String := p.names.tail.reverse.map Segment.text

/-- The path comes first directory by directory: the way to it comes first, name by name, or both
lie in one directory and its name comes first. -/
def Precedes (p q : Path) : Prop :=
  p.way < q.way ∨ (p.way = q.way ∧ p.fileName < q.fileName)

instance (p q : Path) : Decidable (p.Precedes q) := inferInstanceAs (Decidable (_ ∨ _))

theorem Precedes.asymm (h : p.Precedes q) : ¬ q.Precedes p := by
  rintro (hlt' | ⟨heq', hname'⟩)
  · rcases h with hlt | ⟨heq, -⟩
    · exact List.lt_asymm hlt hlt'
    · rw [heq] at hlt'
      exact List.lt_irrefl _ hlt'
  · rcases h with hlt | ⟨-, hname⟩
    · rw [heq'] at hlt
      exact List.lt_irrefl _ hlt
    · exact lt_asymm hname hname'

theorem way_of_parent? (h : p.parent? = some directory) : p.way = directory.trail := by
  obtain ⟨name, rfl⟩ := parent?_eq_some_iff.1 h
  rfl

theorem trail_of_parent? (h : p.parent? = some directory) :
    p.trail = directory.trail ++ [p.fileName] := by
  obtain ⟨name, rfl⟩ := parent?_eq_some_iff.1 h
  unfold trail
  rw [List.reverse_cons, List.map_append]
  rfl

theorem append_lt_append_iff {front l m : List Char} : front ++ l < front ++ m ↔ l < m := by
  induction front with
  | nil => rfl
  | cons c front ih =>
    rw [List.cons_append, List.cons_append, List.cons_lt_cons_iff, ih]
    simp

/-- In one directory, spellings are ordered as the names are. -/
theorem text_lt_text_iff (hp : p.parent? = some directory) (hq : q.parent? = some directory) :
    p.text < q.text ↔ p.fileName < q.fileName := by
  rw [text_of_parent? hp, text_of_parent? hq, String.lt_iff_toList_lt, String.lt_iff_toList_lt,
    String.toList_append, String.toList_append, append_lt_append_iff]

theorem precedes_of_text_lt (hp : p.parent? = some directory) (hq : q.parent? = some directory)
    (h : p.text < q.text) : p.Precedes q := by
  refine .inr ⟨?_, (text_lt_text_iff hp hq).1 h⟩
  rw [way_of_parent? hp, way_of_parent? hq]

/-- What lies directly in a directory precedes what lies beneath one of its children. -/
theorem precedes_of_beneath (hp : p.parent? = some directory) (ha : a.parent? = some directory)
    (hq : a.trail <+: q.way) : p.Precedes q := by
  obtain ⟨rest, hrest⟩ := hq
  refine .inl ?_
  calc p.way
    _ = directory.trail ++ [] := by rw [way_of_parent? hp, List.append_nil]
    _ < directory.trail ++ a.fileName :: rest := List.append_left_lt (List.nil_lt_cons _ _)
    _ = q.way := by rw [← hrest, trail_of_parent? ha, List.append_assoc, List.singleton_append]

/-- What lies beneath two children of a directory is ordered as the children are. -/
theorem precedes_of_siblings (ha : a.parent? = some directory) (hb : b.parent? = some directory)
    (h : a.text < b.text) (hp : a.trail <+: p.way) (hq : b.trail <+: q.way) : p.Precedes q := by
  obtain ⟨rest, hrest⟩ := hp
  obtain ⟨others, hothers⟩ := hq
  refine .inl ?_
  calc p.way
    _ = directory.trail ++ a.fileName :: rest := by
      rw [← hrest, trail_of_parent? ha, List.append_assoc, List.singleton_append]
    _ < directory.trail ++ b.fileName :: others :=
      List.append_left_lt (List.cons_lt_cons_iff.2 (.inl ((text_lt_text_iff ha hb).1 h)))
    _ = q.way := by
      rw [← hothers, trail_of_parent? hb, List.append_assoc, List.singleton_append]

end Codebase.Path
