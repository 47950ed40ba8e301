import Mathlib.Algebra.GroupWithZero.Nat
import Mathlib.Data.Finset.Card
import Mathlib.Data.List.Flatten
import Mathlib.Data.List.Nodup
import Mathlib.Data.List.Pairwise
import Mathlib.Logic.Function.Iterate
import Mathlib.Logic.Relation
/-!
# Worklists

A worklist takes its first element and puts what this leads to in its place.  It remembers nothing
of what it has taken, so whether it ends, and whether it takes an element twice, depends on where
the elements lead.

* `taken_append_perm` — what was taken and what is pending are the start and what was led to.
* `Ends.acyclic`, `exists_ends_of_acyclic` — where finitely many elements are reached, a worklist
  ends if and only if none of them leads back to itself, and then after a bounded number of steps.
* `takes_once_iff` — it ends without taking an element twice if and only if nothing leads to the
  start, and nothing is led to from two places.
-/

namespace Codebase.Worklist

variable {α : Type} {kids : α → List α} {a b : α} {s t : List α} {m n : Nat}

/-- Takes the first element and puts what it leads to in its place. -/
def step (kids : α → List α) : List α → List α
  | [] => []
  | a :: rest => kids a ++ rest

/-- What the first `n` steps take, in order. -/
def taken (kids : α → List α) (s : List α) (n : Nat) : List α :=
  (List.range n).filterMap fun i => ((step kids)^[i] s).head?

/-- The first element leads to the second. -/
def Leads (kids : α → List α) (a b : α) : Prop := b ∈ kids a

/-- The first element leads to the second, in any number of steps. -/
def Reaches (kids : α → List α) : α → α → Prop := Relation.ReflTransGen (Leads kids)

/-! ## What is taken -/

theorem taken_succ (s : List α) (n : Nat) :
    taken kids s (n + 1) = taken kids s n ++ ((step kids)^[n] s).head?.toList := by
  unfold taken
  rw [List.range_succ, List.filterMap_append, List.filterMap_cons, List.filterMap_nil]
  cases ((step kids)^[n] s).head? <;> rfl

/-- What was taken and what is pending are the start and what was led to. -/
theorem taken_append_perm (kids : α → List α) (s : List α) (n : Nat) :
    (taken kids s n ++ (step kids)^[n] s).Perm (s ++ (taken kids s n).flatMap kids) := by
  induction n with
  | zero =>
    show s.Perm (s ++ [])
    rw [List.append_nil]
  | succ n ih =>
    rw [taken_succ, Function.iterate_succ_apply']
    cases hpending : (step kids)^[n] s with
    | nil =>
      rw [hpending] at ih
      simpa [step] using ih
    | cons a rest =>
      rw [hpending] at ih
      have hmove : (taken kids s n ++ [a] ++ (kids a ++ rest)).Perm
          (taken kids s n ++ a :: rest ++ kids a) := by
        simp only [List.append_assoc, List.cons_append, List.nil_append]
        exact (List.perm_append_comm.cons a).append_left _
      refine hmove.trans ((ih.append_right (kids a)).trans ?_)
      rw [List.append_assoc, List.flatMap_append, List.head?_cons, Option.toList_some,
        List.flatMap_singleton]

theorem length_taken (h : (step kids)^[n] s ≠ []) : (taken kids s n).length = n := by
  induction n with
  | zero => rfl
  | succ n ih =>
    rw [Function.iterate_succ_apply'] at h
    cases hpending : (step kids)^[n] s with
    | nil =>
      rw [hpending] at h
      exact absurd rfl h
    | cons a rest =>
      rw [hpending] at ih
      rw [taken_succ, hpending, List.length_append, ih (List.cons_ne_nil a rest)]
      rfl

/-- Everything that is taken is reached. -/
theorem reaches_of_mem (h : b ∈ taken kids [a] n ++ (step kids)^[n] [a]) : Reaches kids a b := by
  induction n generalizing b with
  | zero =>
    cases List.mem_singleton.1 h
    exact .refl
  | succ n ih =>
    rw [taken_succ, Function.iterate_succ_apply'] at h
    cases hpending : (step kids)^[n] [a] with
    | nil =>
      rw [hpending] at h ih
      exact ih (by simpa [step] using h)
    | cons c rest =>
      rw [hpending] at h ih
      have hnext : Reaches kids a c := ih (List.mem_append_right _ List.mem_cons_self)
      rw [List.append_assoc] at h
      rcases List.mem_append.1 h with htaken | h
      · exact ih (List.mem_append_left _ htaken)
      · rcases List.mem_append.1 h with hhead | h
        · cases List.mem_singleton.1 hhead
          exact hnext
        · rcases List.mem_append.1 h with hkid | hrest
          · exact hnext.tail hkid
          · exact ih (List.mem_append_right _ (List.mem_cons_of_mem _ hrest))

/-- A worklist that has ended has taken everything that is reached. -/
theorem mem_taken_of_reaches (hended : (step kids)^[n] [a] = []) (h : Reaches kids a b) :
    b ∈ taken kids [a] n := by
  have hperm := taken_append_perm kids [a] n
  rw [hended, List.append_nil] at hperm
  induction h with
  | refl => exact hperm.mem_iff.2 (List.mem_append_left _ List.mem_cons_self)
  | tail _ hleads ih =>
    exact hperm.mem_iff.2 (List.mem_append_right _ (List.mem_flatMap.2 ⟨_, ih, hleads⟩))

/-! ## Ending -/

/-- The worklist has nothing left after `n` steps, and not before. -/
inductive Ends (kids : α → List α) : List α → Nat → Prop where
  | done : Ends kids [] 0
  | step {a : α} {rest : List α} {n : Nat} :
      Ends kids (kids a ++ rest) n → Ends kids (a :: rest) (n + 1)

theorem Ends.iterate (h : Ends kids s n) : (Worklist.step kids)^[n] s = [] := by
  induction h with
  | done => rfl
  | step _ ih => exact ih

theorem exists_ends_of_iterate (h : (Worklist.step kids)^[n] s = []) : ∃ m, Ends kids s m := by
  induction n generalizing s with
  | zero =>
    cases h
    exact ⟨0, .done⟩
  | succ n ih =>
    cases s with
    | nil => exact ⟨0, .done⟩
    | cons a rest =>
      obtain ⟨m, hm⟩ := ih h
      exact ⟨m + 1, hm.step⟩

theorem Ends.unique (h : Ends kids s m) (h' : Ends kids s n) : m = n := by
  induction h generalizing n with
  | done =>
    cases h'
    rfl
  | step _ ih =>
    cases h' with
    | step h' => rw [ih h']

/-- What stands first in a worklist is done with before the rest. -/
theorem Ends.append (hs : Ends kids s m) (ht : Ends kids t n) : Ends kids (s ++ t) (m + n) := by
  induction hs with
  | done => simpa using ht
  | step _ ih =>
    rw [Nat.add_right_comm]
    rw [List.append_assoc] at ih
    exact ih.step

theorem Ends.of_append (h : Ends kids (s ++ t) n) :
    ∃ i j, Ends kids s i ∧ Ends kids t j ∧ i + j = n := by
  generalize hall : s ++ t = all at h
  induction h generalizing s with
  | done =>
    obtain ⟨rfl, rfl⟩ := List.append_eq_nil_iff.1 hall
    exact ⟨0, 0, .done, .done, rfl⟩
  | @step a rest n hrest ih =>
    cases s with
    | nil =>
      rw [List.nil_append] at hall
      exact ⟨0, n + 1, .done, hall ▸ hrest.step, Nat.zero_add _⟩
    | cons first others =>
      obtain ⟨rfl, rfl⟩ := List.cons.inj hall
      obtain ⟨i, j, hi, hj, rfl⟩ := ih (List.append_assoc _ _ _)
      exact ⟨i + 1, j, hi.step, hj, Nat.add_right_comm i 1 j⟩

theorem Ends.of_mem (h : Ends kids s n) (hmem : a ∈ s) : ∃ m ≤ n, Ends kids [a] m := by
  obtain ⟨front, back, rfl⟩ := List.append_of_mem hmem
  obtain ⟨i, j, -, hback, rfl⟩ := h.of_append
  obtain ⟨k, l, hone, -, rfl⟩ := Ends.of_append (s := [a]) (t := back) hback
  exact ⟨k, by omega, hone⟩

/-- What an element leads to ends earlier. -/
theorem Ends.of_leads (h : Ends kids [a] n) (hleads : Leads kids a b) :
    ∃ m < n, Ends kids [b] m := by
  cases h with
  | step h =>
    rw [List.append_nil] at h
    obtain ⟨m, hle, hm⟩ := h.of_mem hleads
    exact ⟨m, Nat.lt_succ_of_le hle, hm⟩

theorem Ends.of_transGen (h : Ends kids [a] n) (hleads : Relation.TransGen (Leads kids) a b) :
    ∃ m < n, Ends kids [b] m := by
  induction hleads with
  | single hleads => exact h.of_leads hleads
  | tail _ hleads ih =>
    obtain ⟨m, hm, hends⟩ := ih
    obtain ⟨k, hk, hends'⟩ := hends.of_leads hleads
    exact ⟨k, hk.trans hm, hends'⟩

/-- If a worklist ends, nothing that it reaches leads back to itself. -/
theorem Ends.acyclic (h : Ends kids [a] n) (hreach : Reaches kids a b) :
    ¬ Relation.TransGen (Leads kids) b b := by
  intro hcycle
  obtain ⟨m, hm⟩ : ∃ m, Ends kids [b] m := by
    rcases Relation.reflTransGen_iff_eq_or_transGen.1 hreach with rfl | hleads
    · exact ⟨n, h⟩
    · obtain ⟨m, -, hm⟩ := h.of_transGen hleads
      exact ⟨m, hm⟩
  obtain ⟨k, hk, hends⟩ := hm.of_transGen hcycle
  exact absurd (hends.unique hm) hk.ne

/-- A worklist is done after what each of its elements takes. -/
theorem exists_ends_of_forall {bound : Nat} (h : ∀ a ∈ s, ∃ n ≤ bound, Ends kids [a] n) :
    ∃ n ≤ s.length * bound, Ends kids s n := by
  induction s with
  | nil => exact ⟨0, Nat.zero_le _, .done⟩
  | cons a rest ih =>
    obtain ⟨m, hm, hends⟩ := h a List.mem_cons_self
    obtain ⟨n, hn, hrest⟩ := ih fun b hb => h b (List.mem_cons_of_mem a hb)
    refine ⟨m + n, ?_, hends.append hrest⟩
    rw [List.length_cons, Nat.succ_mul]
    omega

/-- **A worklist without cycles ends.**  Each element leads to `width` others at most, and no chain
is longer than there are elements. -/
theorem exists_ends_of_acyclic [DecidableEq α] {reached : Finset α} {width : Nat}
    (hreached : ∀ b, Reaches kids a b → b ∈ reached)
    (hwidth : ∀ b ∈ reached, (kids b).length ≤ width)
    (hacyclic : ∀ b, Reaches kids a b → ¬ Relation.TransGen (Leads kids) b b) :
    ∃ n ≤ (width + 1) ^ reached.card, Ends kids [a] n := by
  -- what an element leads to does not reach the element again
  induction hcard : reached.card generalizing a reached with
  | zero =>
    have hself := hreached a .refl
    rw [Finset.card_eq_zero.1 hcard] at hself
    cases hself
  | succ k ih =>
    have hkids : ∀ b ∈ kids a, ∃ n ≤ (width + 1) ^ k, Ends kids [b] n := by
      intro b hleads
      have hfrom : ∀ c, Reaches kids b c → Reaches kids a c := fun c hc => .head hleads hc
      have herase : (reached.erase a).card = k := by
        rw [Finset.card_erase_of_mem (hreached a .refl), hcard, Nat.add_sub_cancel]
      refine ih (fun c hc => Finset.mem_erase.2 ⟨?_, hreached c (hfrom c hc)⟩)
        (fun c hc => hwidth c (Finset.mem_of_mem_erase hc)) (fun c hc => hacyclic c (hfrom c hc))
        herase
      rintro rfl
      exact hacyclic c .refl (Relation.TransGen.head' hleads hc)
    obtain ⟨n, hn, hends⟩ := exists_ends_of_forall hkids
    refine ⟨n + 1, ?_, .step (by rwa [List.append_nil])⟩
    have hle := Nat.mul_le_mul_right ((width + 1) ^ k) (hwidth a (hreached a .refl))
    have hpos : 0 < (width + 1) ^ k := Nat.pow_pos (Nat.succ_pos width)
    rw [pow_succ, Nat.mul_succ, Nat.mul_comm _ width]
    omega

/-! ## Taking nothing twice -/

/-- Nothing that is reached leads to the start, and nothing is led to from two elements that are
reached. -/
def Branching (kids : α → List α) (a : α) : Prop :=
  ∀ b, Reaches kids a b → ¬ Leads kids b a ∧
    ∀ c, Reaches kids a c → ∀ d, Leads kids b d → Leads kids c d → b = c

theorem nodup_of_branching (hkids : ∀ b, (kids b).Nodup) (h : Branching kids a) (n : Nat) :
    (taken kids [a] n ++ (step kids)^[n] [a]).Nodup := by
  have hsplit : ∀ m, (taken kids [a] m).Nodup →
      (taken kids [a] m ++ (step kids)^[m] [a]).Nodup := by
    intro m hnodup
    have hreaches : ∀ b ∈ taken kids [a] m, Reaches kids a b :=
      fun b hb => reaches_of_mem (List.mem_append_left _ hb)
    rw [(taken_append_perm kids [a] m).nodup_iff, List.singleton_append, List.nodup_cons,
      List.nodup_flatMap]
    refine ⟨fun hstart => ?_, fun b _ => hkids b, hnodup.imp_of_mem fun hb hc hne => ?_⟩
    · obtain ⟨b, hb, hleads⟩ := List.mem_flatMap.1 hstart
      exact (h b (hreaches b hb)).1 hleads
    · exact List.disjoint_left.2 fun d hd hd' =>
        hne ((h _ (hreaches _ hb)).2 _ (hreaches _ hc) d hd hd')
  refine hsplit n ?_
  induction n with
  | zero => exact List.nodup_nil
  | succ n ih =>
    rw [taken_succ]
    refine (hsplit n ih).sublist ((List.Sublist.refl _).append ?_)
    cases (step kids)^[n] [a] with
    | nil => exact List.Sublist.refl []
    | cons c rest => exact (List.nil_sublist rest).cons_cons c

/-- **A worklist ends without taking an element twice if and only if nothing leads to the start, and
nothing is led to from two places.** -/
theorem takes_once_iff [DecidableEq α] {reached : Finset α} (hkids : ∀ b, (kids b).Nodup)
    (hreached : ∀ b, Reaches kids a b → b ∈ reached) :
    ((∀ n, (taken kids [a] n).Nodup) ∧ ∃ n, (step kids)^[n] [a] = []) ↔ Branching kids a := by
  constructor
  · rintro ⟨hnodup, n, hended⟩
    have hperm := taken_append_perm kids [a] n
    rw [hended, List.append_nil] at hperm
    have hled := hperm.nodup_iff.1 (hnodup n)
    rw [List.singleton_append, List.nodup_cons, List.nodup_flatMap] at hled
    obtain ⟨hstart, -, hdisjoint⟩ := hled
    intro b hb
    have htaken := mem_taken_of_reaches hended hb
    refine ⟨fun hleads => hstart (List.mem_flatMap.2 ⟨b, htaken, hleads⟩), fun c hc d hd hd' => ?_⟩
    by_contra hne
    have hsymm : Std.Symm (Function.onFun List.Disjoint kids) := ⟨fun _ _ h => h.symm⟩
    exact hdisjoint.forall htaken (mem_taken_of_reaches hended hc) hne hd hd'
  · intro h
    have hnodup : ∀ n, (taken kids [a] n).Nodup := fun n =>
      (nodup_of_branching hkids h n).sublist (List.sublist_append_left _ _)
    refine ⟨hnodup, reached.card + 1, ?_⟩
    by_contra hpending
    have hsubset : (taken kids [a] (reached.card + 1)).toFinset ⊆ reached := fun b hb =>
      hreached b (reaches_of_mem (List.mem_append_left _ (List.mem_toFinset.1 hb)))
    have hcard := Finset.card_le_card hsubset
    rw [List.toFinset_card_of_nodup (hnodup _), length_taken hpending] at hcard
    omega

end Codebase.Worklist
