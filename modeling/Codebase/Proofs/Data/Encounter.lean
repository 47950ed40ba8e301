import Codebase.Proofs.Data.Table
import Codebase.Proofs.Data.Worklist
/-!
# In which order a worklist comes upon things

Every element that a worklist takes shows some things.  A thing may be shown by several elements;
what counts is which one is taken first.

* `before_append_iff`, `before_eraseDups_iff` — when a list comes to one thing before another one.
* `Ahead` — the same of what an element shows and leads to, element by element.
* `before_shown_iff` — a worklist that ends comes upon things in this order.
-/

namespace Codebase.Worklist

/-! ## What comes first in a list -/

section Lists

variable {β : Type} {l m : List β} {a f g : β} {P R : β → β → Prop}

/-- In a list that is in one order, another order holds if and only if the first one implies it. -/
theorem pairwise_iff_of_pairwise (hasymm : ∀ {f g}, P f g → ¬ P g f)
    (hordered : l.Pairwise P) : l.Pairwise R ↔ ∀ f ∈ l, ∀ g ∈ l, P f g → R f g := by
  constructor
  · intro h f hf g hg hfg
    let Agrees (f g : β) : Prop := (P f g → R f g) ∧ (P g f → R g f)
    have hsymm : Std.Symm Agrees := ⟨fun _ _ h => h.symm⟩
    have hself : ∀ f ∈ l, Agrees f f :=
      fun f _ => ⟨fun h => absurd h (hasymm h), fun h => absurd h (hasymm h)⟩
    have hboth : l.Pairwise Agrees :=
      (hordered.and h).imp fun h => ⟨fun _ => h.2, fun h' => absurd h' (hasymm h.1)⟩
    exact (hboth.forall_of_forall hself hf hg).1 hfg
  · exact fun h => hordered.imp_of_mem fun hf hg => h _ hf _ hg

variable [DecidableEq β]

/-- The list has the first thing, and does not come to the second one before. -/
def Before (l : List β) (f g : β) : Prop := l.idxOf f < l.idxOf g

theorem Before.mem (h : Before l f g) : f ∈ l :=
  List.idxOf_lt_length_iff.1 (Nat.lt_of_lt_of_le h List.idxOf_le_length)

theorem Before.asymm (h : Before l f g) : ¬ Before l g f :=
  Nat.lt_asymm h

theorem not_before_nil : ¬ Before [] f g :=
  fun h => List.not_mem_nil h.mem

theorem before_append_iff : Before (l ++ m) f g ↔
    Before l f g ∨ (f ∉ l ∧ g ∉ l ∧ Before m f g) := by
  unfold Before
  rw [List.idxOf_append, List.idxOf_append]
  by_cases hf : f ∈ l <;> by_cases hg : g ∈ l
  · simp [hf, hg]
  · have hlt := List.idxOf_lt_length_of_mem hf
    have hge : ¬ l.idxOf g < l.length := mt List.idxOf_lt_length_iff.1 hg
    simp only [hf, hg, if_true, if_false, not_true, false_and, or_false]
    omega
  · have hlt := List.idxOf_lt_length_of_mem hg
    have hge : ¬ l.idxOf f < l.length := mt List.idxOf_lt_length_iff.1 hf
    simp only [hf, hg, if_true, if_false, not_true, false_and, and_false, or_false]
    omega
  · have hle : l.idxOf f ≤ l.length := List.idxOf_le_length
    have hge : ¬ l.idxOf f < l.length := mt List.idxOf_lt_length_iff.1 hf
    have hge' : ¬ l.idxOf g < l.length := mt List.idxOf_lt_length_iff.1 hg
    have hle' : l.idxOf g ≤ l.length := List.idxOf_le_length
    simp only [hf, hg, if_false, not_false_iff, true_and]
    omega

theorem before_singleton_iff : Before [a] f g ↔ a = f ∧ a ≠ g := by
  unfold Before
  rw [List.idxOf_cons, List.idxOf_cons, List.idxOf_nil, List.idxOf_nil]
  by_cases hf : a = f
  · subst hf
    by_cases hg : a = g <;> simp [cond_eq_ite, hg]
  · by_cases hg : a = g <;> simp [cond_eq_ite, hf, hg]

theorem before_cons_iff : Before (a :: l) f g ↔
    (a = f ∧ a ≠ g) ∨ (a ≠ f ∧ a ≠ g ∧ Before l f g) := by
  rw [← List.singleton_append, before_append_iff, before_singleton_iff, List.mem_singleton,
    List.mem_singleton, eq_comm (a := f), eq_comm (a := g)]

/-- Leaving out other things changes nothing. -/
theorem before_filter_iff {p : β → Bool} (hf : p f = true) (hg : p g = true) :
    Before (l.filter p) f g ↔ Before l f g := by
  induction l with
  | nil => rfl
  | cons a l ih =>
    by_cases ha : p a = true
    · rw [List.filter_cons_of_pos ha, before_cons_iff, before_cons_iff, ih]
    · have hfa : a ≠ f := fun heq => ha (heq ▸ hf)
      have hga : a ≠ g := fun heq => ha (heq ▸ hg)
      rw [List.filter_cons_of_neg ha, before_cons_iff, ih]
      simp [hfa, hga]

/-- Leaving out what has come before changes nothing. -/
theorem before_eraseDups_iff : Before l.eraseDups f g ↔ Before l f g := by
  induction hlength : l.length using Nat.strong_induction_on generalizing l with
  | _ n ih =>
    cases l with
    | nil => rfl
    | cons a l =>
      have hshorter : (l.filter fun b => !b == a).length < n := by
        rw [← hlength, List.length_cons]
        exact Nat.lt_succ_of_le (List.length_filter_le _ _)
      rw [List.eraseDups_cons, before_cons_iff, before_cons_iff, ih _ hshorter rfl]
      refine or_congr_right (and_congr_right fun hf => and_congr_right fun hg => ?_)
      exact before_filter_iff (by simpa using Ne.symm hf) (by simpa using Ne.symm hg)

theorem pairwise_iff_before (hnodup : l.Nodup) :
    l.Pairwise R ↔ ∀ f ∈ l, ∀ g ∈ l, Before l f g → R f g := by
  rw [List.pairwise_iff_getElem]
  constructor
  · intro h f hf g hg hbefore
    have hlt := h _ _ (List.idxOf_lt_length_of_mem hf) (List.idxOf_lt_length_of_mem hg) hbefore
    rwa [List.getElem_idxOf, List.getElem_idxOf] at hlt
  · intro h i j hi hj hij
    refine h _ (List.getElem_mem hi) _ (List.getElem_mem hj) ?_
    unfold Before
    rwa [hnodup.idxOf_getElem, hnodup.idxOf_getElem]

end Lists

/-! ## What comes first in a worklist -/

variable {α β : Type} {kids : α → List α} {picks : α → List β} {a b : α} {s : List α} {n : Nat}
  {f g : β}

theorem taken_cons (a : α) (s : List α) (n : Nat) :
    taken kids (a :: s) (n + 1) = a :: taken kids (kids a ++ s) n := by
  unfold taken
  rw [List.range_succ_eq_map, List.filterMap_cons, List.filterMap_map]
  rfl

/-- The element, or one that it leads to, shows the thing. -/
def Shows (kids : α → List α) (picks : α → List β) (a : α) (f : β) : Prop :=
  ∃ b, Reaches kids a b ∧ f ∈ picks b

theorem shows_iff : Shows kids picks a f ↔ f ∈ picks a ∨ ∃ b ∈ kids a, Shows kids picks b f := by
  constructor
  · rintro ⟨b, hreach, hf⟩
    rcases hreach.cases_head with rfl | ⟨c, hleads, hrest⟩
    · exact .inl hf
    · exact .inr ⟨c, hleads, b, hrest, hf⟩
  · rintro (hf | ⟨c, hleads, b, hrest, hf⟩)
    · exact ⟨a, .refl, hf⟩
    · exact ⟨b, hrest.head hleads, hf⟩

theorem not_shows_iff : ¬ Shows kids picks a f ↔
    f ∉ picks a ∧ ∀ b ∈ kids a, ¬ Shows kids picks b f := by
  rw [shows_iff, not_or]
  simp only [not_exists, not_and]

/-- A worklist that has ended has come upon what its start shows. -/
theorem mem_shown_iff (hended : (step kids)^[n] [a] = []) :
    f ∈ (taken kids [a] n).flatMap picks ↔ Shows kids picks a f := by
  rw [List.mem_flatMap]
  constructor
  · rintro ⟨b, hb, hf⟩
    exact ⟨b, reaches_of_mem (List.mem_append_left _ hb), hf⟩
  · rintro ⟨b, hreach, hf⟩
    exact ⟨b, mem_taken_of_reaches hended hreach, hf⟩

variable [DecidableEq β]

/-- From the element on, the first thing is come upon, and the second one is not come upon before:
the element itself shows it before, or shows neither, and what it leads to comes upon it. -/
inductive Ahead (kids : α → List α) (picks : α → List β) (f g : β) : α → Prop
  | here {a : α} : Before (picks a) f g → Ahead kids picks f g a
  | beneath {a b : α} {front back : List α} : f ∉ picks a → g ∉ picks a →
      kids a = front ++ b :: back →
      (∀ other ∈ front, ¬ Shows kids picks other f ∧ ¬ Shows kids picks other g) →
      Ahead kids picks f g b → Ahead kids picks f g a

theorem Ahead.shows (h : Ahead kids picks f g a) : Shows kids picks a f := by
  induction h with
  | here hbefore => exact shows_iff.2 (.inl hbefore.mem)
  | beneath _ _ hkids _ _ ih =>
    exact shows_iff.2 (.inr ⟨_, by rw [hkids]; exact List.mem_append_right _ List.mem_cons_self, ih⟩)

/-- **A worklist that ends comes upon things in the order in which its elements do**, one element
after the other. -/
theorem before_shown_iff (h : Ends kids s n) :
    Before ((taken kids s n).flatMap picks) f g ↔ ∃ front b back, s = front ++ b :: back ∧
      (∀ other ∈ front, ¬ Shows kids picks other f ∧ ¬ Shows kids picks other g) ∧
        Ahead kids picks f g b := by
  induction h with
  | done =>
    refine iff_of_false not_before_nil ?_
    rintro ⟨front, b, back, hnil, -⟩
    exact absurd hnil.symm (List.append_ne_nil_of_right_ne_nil _ (List.cons_ne_nil _ _))
  | @step a rest n _ ih =>
    rw [taken_cons, List.flatMap_cons, before_append_iff, ih]
    constructor
    · rintro (hhere | ⟨hf, hg, front, b, back, hsplit, hfront, hb⟩)
      · exact ⟨[], a, rest, rfl, nofun, .here hhere⟩
      · rcases List.append_eq_append_iff.1 hsplit with ⟨more, rfl, hrest⟩ | ⟨more, hkids, hback⟩
        · -- it is come upon after all that the first element leads to
          refine ⟨a :: more, b, back, by rw [hrest]; rfl, fun other hother => ?_, hb⟩
          rcases List.mem_cons.1 hother with rfl | hother
          · have hkids := fun kid hkid => hfront kid (List.mem_append_left more hkid)
            exact ⟨not_shows_iff.2 ⟨hf, fun kid hkid => (hkids kid hkid).1⟩,
              not_shows_iff.2 ⟨hg, fun kid hkid => (hkids kid hkid).2⟩⟩
          · exact hfront other (List.mem_append_right _ hother)
        · cases more with
          | nil =>
            rw [List.append_nil] at hkids
            rw [List.nil_append] at hback
            rw [← hkids] at hfront
            refine ⟨[a], b, back, by rw [← hback]; rfl, fun other hother => ?_, hb⟩
            cases List.mem_singleton.1 hother
            exact ⟨not_shows_iff.2 ⟨hf, fun kid hkid => (hfront kid hkid).1⟩,
              not_shows_iff.2 ⟨hg, fun kid hkid => (hfront kid hkid).2⟩⟩
          | cons first more =>
            obtain ⟨rfl, -⟩ := List.cons.inj hback
            exact ⟨[], a, rest, rfl, nofun, .beneath hf hg hkids hfront hb⟩
    · rintro ⟨front, b, back, hsplit, hfront, hb⟩
      cases front with
      | nil =>
        obtain ⟨rfl, rfl⟩ := List.cons.inj hsplit
        cases hb with
        | here hbefore => exact .inl hbefore
        | @beneath _ c front' back' hf hg hkids hfront' hc =>
          exact .inr ⟨hf, hg, front', c, back' ++ rest, by rw [hkids]; simp, hfront', hc⟩
      | cons first front =>
        obtain ⟨rfl, rfl⟩ := List.cons.inj hsplit
        obtain ⟨hf, hg⟩ := hfront a List.mem_cons_self
        rw [not_shows_iff] at hf hg
        refine .inr ⟨hf.1, hg.1, kids a ++ front, b, back, by simp, fun other hother => ?_, hb⟩
        rcases List.mem_append.1 hother with hkid | hother
        · exact ⟨hf.2 other hkid, hg.2 other hkid⟩
        · exact hfront other (List.mem_cons_of_mem _ hother)

theorem before_shown_singleton_iff (h : Ends kids [a] n) :
    Before ((taken kids [a] n).flatMap picks) f g ↔ Ahead kids picks f g a := by
  rw [before_shown_iff h]
  constructor
  · rintro ⟨front, b, back, hsplit, -, hb⟩
    cases front with
    | nil =>
      obtain ⟨rfl, -⟩ := List.cons.inj hsplit
      exact hb
    | cons first front =>
      exact absurd (List.cons.inj hsplit).2.symm
        (List.append_ne_nil_of_right_ne_nil _ (List.cons_ne_nil _ _))
  · exact fun ha => ⟨[], a, [], rfl, nofun, ha⟩

end Codebase.Worklist
