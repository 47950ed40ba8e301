import Mathlib.Data.List.Induction
import Mathlib.Data.List.Perm.Subperm
/-!
# Allotting documents in some order

Documents come one after the other.  Each of them goes to the oldest charter that names it of those
that have started, and else to its own governor.  A governor that has not started yet starts then,
and takes what it names of the documents that are already there.

* `home_allotAll` — after it has come, a document changes its home only when a charter starts.
* `not_started_allotAll` — a charter does not start while its own documents are named by others.
* `settled_iff` — for which documents the outcome is the same in all orders: none of them is named
  by two charters of other documents, and a charter that names a document of somebody else has a
  document that makes it start in any order.
-/

namespace Codebase

structure Allotment (α κ : Type) where
  governor : α → κ
  names : κ → α → Bool

namespace Allotment

structure State (α κ : Type) where
  /-- The charters that have started, oldest first. -/
  started : List κ
  home : α → Option κ

variable {α κ : Type} {A : Allotment α κ} {s : State α κ} {a b q : α} {c d : κ}
  {files order rest : List α}

def State.empty : State α κ := ⟨[], fun _ => none⟩

/-- The home of a document has started. -/
def Rooted (s : State α κ) : Prop := ∀ q c, s.home q = some c → c ∈ s.started

theorem rooted_empty : Rooted (State.empty : State α κ) := fun _ _ h => by cases h

/-- Some of the documents may come first. -/
theorem exists_order (first : List α) (hnodup : first.Nodup) (hmem : first ⊆ files) :
    ∃ rest, (first ++ rest).Perm files := by
  obtain ⟨l, hl, hsublist⟩ := hnodup.subperm hmem
  obtain ⟨rest, hrest⟩ := hsublist.exists_perm_append
  exact ⟨rest, ((hl.append_right rest).symm.trans hrest.symm)⟩

theorem not_mem_rest {first : List α} (hfiles : files.Nodup) (horder : (first ++ rest).Perm files)
    (ha : a ∈ first) : a ∉ rest :=
  fun hrest => (List.nodup_append.1 (horder.nodup_iff.2 hfiles)).2.2 a ha a hrest rfl

variable [DecidableEq α] [DecidableEq κ]

def State.give (s : State α κ) (a : α) (c : κ) : State α κ :=
  { s with home := fun q => if q = a then some c else s.home q }

/-- The governor of `a` starts, and takes what it names of what is there. -/
def start (A : Allotment α κ) (s : State α κ) (a : α) : State α κ where
  started := s.started ++ [A.governor a]
  home q :=
    if q = a ∨ A.names (A.governor a) q ∧ (s.home q).isSome then some (A.governor a)
    else s.home q

def allot (A : Allotment α κ) (s : State α κ) (a : α) : State α κ :=
  match s.started.find? (A.names · a) with
  | some c => s.give a c
  | none => if A.governor a ∈ s.started then s.give a (A.governor a) else A.start s a

def allotAll (A : Allotment α κ) (s : State α κ) (order : List α) : State α κ :=
  order.foldl A.allot s

theorem allotAll_cons : A.allotAll s (a :: rest) = A.allotAll (A.allot s a) rest := rfl

theorem allotAll_append (before after : List α) :
    A.allotAll s (before ++ after) = A.allotAll (A.allotAll s before) after :=
  List.foldl_append

/-! ## One document -/

/-- How a document comes to its home. -/
inductive Allots (A : Allotment α κ) (s : State α κ) (a : α) : State α κ → Prop
  | named (c : κ) (found : s.started.find? (A.names · a) = some c) : Allots A s a (s.give a c)
  | governed (unnamed : ∀ d ∈ s.started, ¬ A.names d a) (old : A.governor a ∈ s.started) :
      Allots A s a (s.give a (A.governor a))
  | started (unnamed : ∀ d ∈ s.started, ¬ A.names d a) (new : A.governor a ∉ s.started) :
      Allots A s a (A.start s a)

theorem allot_allots (A : Allotment α κ) (s : State α κ) (a : α) : Allots A s a (A.allot s a) := by
  unfold allot
  split
  · rename_i c hfound
    exact .named c hfound
  · rename_i hnone
    rw [List.find?_eq_none] at hnone
    split
    · rename_i hold
      exact .governed hnone hold
    · rename_i hnew
      exact .started hnone hnew

/-- A charter that names the document takes it, and nothing starts. -/
theorem started_allot_of_named (hc : c ∈ s.started) (hnames : A.names c a) :
    (A.allot s a).started = s.started := by
  have hallots := allot_allots A s a
  generalize A.allot s a = next at hallots
  cases hallots with
  | named => rfl
  | governed => rfl
  | started hunnamed _ => exact absurd hnames (hunnamed c hc)

/-- A document that nobody names makes its governor start. -/
theorem started_allot_of_unnamed (hunnamed : ∀ d ∈ s.started, ¬ A.names d a)
    (hnew : A.governor a ∉ s.started) : (A.allot s a).started = s.started ++ [A.governor a] := by
  have hallots := allot_allots A s a
  generalize A.allot s a = next at hallots
  cases hallots with
  | named c hfound =>
    have hnames := List.find?_some hfound
    exact absurd hnames (hunnamed c (List.mem_of_find?_eq_some hfound))
  | governed _ hold => exact absurd hold hnew
  | started => rfl

theorem mem_started_allot (hc : c ∈ s.started) : c ∈ (A.allot s a).started := by
  have hallots := allot_allots A s a
  generalize A.allot s a = next at hallots
  cases hallots with
  | named => exact hc
  | governed => exact hc
  | started => exact List.mem_append_left _ hc

/-- Only the governor of the document can start. -/
theorem started_allot (hc : c ∈ (A.allot s a).started) : c ∈ s.started ∨ c = A.governor a := by
  have hallots := allot_allots A s a
  generalize A.allot s a = next at hallots hc
  cases hallots with
  | named => exact .inl hc
  | governed => exact .inl hc
  | started => exact (List.mem_append.1 hc).imp_right List.mem_singleton.1

/-- A document that is named goes to one of the charters that name it, any other one to its
governor. -/
theorem home_allot_self (A : Allotment α κ) (s : State α κ) (a : α) :
    ∃ c ∈ (A.allot s a).started, (A.allot s a).home a = some c ∧
      (c ∈ s.started ∧ A.names c a ∨ c = A.governor a ∧ ∀ d ∈ s.started, ¬ A.names d a) := by
  have hallots := allot_allots A s a
  generalize A.allot s a = next at hallots
  cases hallots with
  | named c hfound =>
    have hnames := List.find?_some hfound
    have hc := List.mem_of_find?_eq_some hfound
    exact ⟨c, hc, if_pos rfl, .inl ⟨hc, hnames⟩⟩
  | governed hunnamed hold => exact ⟨_, hold, if_pos rfl, .inr ⟨rfl, hunnamed⟩⟩
  | started hunnamed _ =>
    exact ⟨_, List.mem_append_right _ (List.mem_singleton_self _), if_pos (.inl rfl),
      .inr ⟨rfl, hunnamed⟩⟩

/-- Another document stays where it is unless a charter starts that names it. -/
theorem home_allot_other (hq : q ≠ a) :
    (A.allot s a).home q = s.home q ∧ (∀ d ∈ (A.allot s a).started, A.names d q →
        (s.home q).isSome → d ∈ s.started) ∨
      (A.allot s a).home q = some (A.governor a) ∧ A.names (A.governor a) q ∧
        A.governor a ∉ s.started ∧ A.governor a ∈ (A.allot s a).started := by
  have hallots := allot_allots A s a
  generalize A.allot s a = next at hallots
  cases hallots with
  | named => exact .inl ⟨if_neg hq, fun _ hd _ _ => hd⟩
  | governed => exact .inl ⟨if_neg hq, fun _ hd _ _ => hd⟩
  | started _ hnew =>
    by_cases hnamed : A.names (A.governor a) q ∧ (s.home q).isSome
    · exact .inr ⟨if_pos (.inr hnamed), hnamed.1, hnew,
        List.mem_append_right _ (List.mem_singleton_self _)⟩
    · refine .inl ⟨if_neg (not_or.2 ⟨hq, hnamed⟩), fun d hd hnames hsome => ?_⟩
      refine (List.mem_append.1 hd).resolve_right fun hlast => hnamed ⟨?_, hsome⟩
      rwa [← List.mem_singleton.1 hlast]

/-! ## Many documents -/

theorem mem_started_allotAll (hc : c ∈ s.started) : c ∈ (A.allotAll s order).started := by
  induction order generalizing s with
  | nil => exact hc
  | cons a rest ih => exact ih (mem_started_allot hc)

theorem started_allotAll (hc : c ∈ (A.allotAll s order).started) :
    c ∈ s.started ∨ ∃ a ∈ order, c = A.governor a := by
  induction order generalizing s with
  | nil => exact .inl hc
  | cons a rest ih =>
    rcases ih hc with hbefore | ⟨b, hb, heq⟩
    · exact (started_allot hbefore).imp_right fun heq => ⟨a, List.mem_cons_self, heq⟩
    · exact .inr ⟨b, List.mem_cons_of_mem a hb, heq⟩

theorem Rooted.allot (h : Rooted s) (a : α) : Rooted (A.allot s a) := by
  intro q c hhome
  by_cases hq : q = a
  · obtain ⟨own, hown, hself, -⟩ := home_allot_self A s a
    rw [hq, hself] at hhome
    cases hhome
    exact hown
  · rcases home_allot_other (A := A) (s := s) hq with ⟨hsame, -⟩ | ⟨hnew, -, -, hstarted⟩
    · rw [hsame] at hhome
      exact mem_started_allot (h q c hhome)
    · rw [hnew] at hhome
      cases hhome
      exact hstarted

theorem Rooted.allotAll (h : Rooted s) (order : List α) : Rooted (A.allotAll s order) := by
  induction order generalizing s with
  | nil => exact h
  | cons a rest ih => exact ih (h.allot a)

/-- After it has come, a document changes its home only when a charter starts that names it. -/
theorem home_allotAll (hq : q ∉ order) :
    (A.allotAll s order).home q = s.home q ∨ ∃ d ∈ order,
      (A.allotAll s order).home q = some (A.governor d) ∧ A.names (A.governor d) q ∧
        A.governor d ∉ s.started := by
  induction order generalizing s with
  | nil => exact .inl rfl
  | cons a rest ih =>
    rw [List.mem_cons, not_or] at hq
    rcases ih (s := A.allot s a) hq.2 with hsame | ⟨d, hd, hhome, hnames, hfresh⟩
    · rcases home_allot_other (A := A) (s := s) hq.1 with ⟨hfirst, -⟩ | ⟨hfirst, hnames, hfresh, -⟩
      · exact .inl (hsame.trans hfirst)
      · exact .inr ⟨a, List.mem_cons_self, hsame.trans hfirst, hnames, hfresh⟩
    · exact .inr ⟨d, List.mem_cons_of_mem a hd, hhome, hnames,
        fun hold => hfresh (mem_started_allot hold)⟩

/-- **A charter does not start while its own documents are named by others.** -/
theorem not_started_allotAll (hc : c ∉ s.started)
    (hnamed : ∀ a ∈ order, A.governor a = c → ∃ d ∈ s.started, A.names d a) :
    c ∉ (A.allotAll s order).started := by
  induction order generalizing s with
  | nil => exact hc
  | cons a rest ih =>
    rw [List.forall_mem_cons] at hnamed
    refine ih (fun hstarted => ?_) fun b hb hgovernor =>
      (hnamed.2 b hb hgovernor).imp fun d hd => ⟨mem_started_allot hd.1, hd.2⟩
    rcases started_allot hstarted with hold | rfl
    · exact hc hold
    · obtain ⟨d, hd, hnames⟩ := hnamed.1 rfl
      rw [started_allot_of_named hd hnames] at hstarted
      exact hc hstarted

/-! ## Orders -/

variable {home : α → κ}

/-- Every order leads to these homes. -/
def Settled (A : Allotment α κ) (files : List α) (home : α → κ) : Prop :=
  ∀ order, order.Perm files → ∀ a ∈ files, (A.allotAll .empty order).home a = some (home a)

/-- No document is named by two charters of others, and a charter that names a document of somebody
else has a document of its own that nobody else names. -/
structure Unambiguous (A : Allotment α κ) (files : List α) : Prop where
  sole : ∀ a ∈ files, ∀ b ∈ files, ∀ b' ∈ files, b ≠ a → b' ≠ a →
    A.names (A.governor b) a → A.names (A.governor b') a → A.governor b = A.governor b'
  secure : ∀ a ∈ files, ∀ b ∈ files, A.names (A.governor b) a → A.governor b ≠ A.governor a →
    ∃ own ∈ files, A.governor own = A.governor b ∧
      ∀ d ∈ files, A.names (A.governor d) own → A.governor d = A.governor b

/-! ### When the order matters -/

theorem started_first (A : Allotment α κ) (b : α) :
    (A.allot .empty b).started = [A.governor b] :=
  started_allot_of_unnamed (fun _ hd => absurd hd List.not_mem_nil) List.not_mem_nil

/-- The oldest charter comes first. -/
theorem home_allot_of_oldest {younger : List κ} (hstarted : s.started = c :: younger)
    (hnames : A.names c a) : (A.allot s a).home a = some c := by
  have hfound : s.started.find? (A.names · a) = some c := by
    rw [hstarted]
    exact List.find?_cons_of_pos hnames
  unfold allot
  rw [hfound]
  exact if_pos rfl

/-- A document that is named by the only charter so far stays with it unless another one starts. -/
theorem home_allotAll_second (hrest : a ∉ rest) (hnames : A.names (A.governor b) a) :
    (A.allotAll .empty (b :: a :: rest)).home a = some (A.governor b) ∨ ∃ d ∈ rest,
      (A.allotAll .empty (b :: a :: rest)).home a = some (A.governor d) ∧
        A.names (A.governor d) a := by
  rw [allotAll_cons, allotAll_cons]
  rcases home_allotAll (A := A) (s := A.allot (A.allot .empty b) a) hrest with
    hsame | ⟨d, hd, hhome, hdnames, -⟩
  · exact .inl (hsame.trans (home_allot_of_oldest (started_first A b) hnames))
  · exact .inr ⟨d, hd, hhome, hdnames⟩

/-- If every order leads to the same homes, a document that another charter names is at home with
such a charter. -/
theorem Settled.home_of_named (h : A.Settled files home) (hfiles : files.Nodup) (ha : a ∈ files)
    (hb : b ∈ files) (hne : b ≠ a) (hnames : A.names (A.governor b) a) :
    ∃ d ∈ files, d ≠ a ∧ A.names (A.governor d) a ∧ home a = A.governor d := by
  obtain ⟨rest, horder⟩ := exists_order [b, a] (by simp [hne])
    (show [b, a] ⊆ files by simp [ha, hb])
  have hrest : a ∉ rest := not_mem_rest hfiles horder (by simp)
  have hhome := h _ horder a ha
  rcases home_allotAll_second hrest hnames with hsame | ⟨d, hd, hnew, hdnames⟩
  · exact ⟨b, hb, hne, hnames, Option.some.inj (hhome.symm.trans hsame)⟩
  · refine ⟨d, horder.subset (List.mem_append_right _ hd), fun heq => hrest (heq ▸ hd), hdnames,
      Option.some.inj (hhome.symm.trans hnew)⟩

/-- Where a document is at home with one charter and another one names it as well, the other one
names all further documents of the first: else it would have the document when it is older. -/
theorem Settled.names_of_rival (h : A.Settled files home) (hfiles : files.Nodup) (ha : a ∈ files)
    (hb : b ∈ files) (hba : b ≠ a) (hnames : A.names (A.governor b) a) (hd : q ∈ files)
    (hda : q ≠ a) (hhome : home a = A.governor q) (hother : A.governor b ≠ A.governor q) :
    A.names (A.governor b) q := by
  by_contra hunnamed
  have hbd : b ≠ q := fun heq => hother (congrArg A.governor heq)
  obtain ⟨rest, horder⟩ := exists_order [b, q, a] (by simp [hba, hda, hbd])
    (show [b, q, a] ⊆ files by simp [ha, hb, hd])
  have hrest : a ∉ rest := not_mem_rest hfiles horder (by simp)
  have hstarted : (A.allot (A.allot .empty b) q).started = [A.governor b, A.governor q] := by
    rw [started_allot_of_unnamed (by simp [started_first, hunnamed])
      (by simp [started_first, hother.symm]), started_first]
    rfl
  have hfinal := h _ horder a ha
  change (A.allotAll (A.allot (A.allot (A.allot .empty b) q) a) rest).home a = _ at hfinal
  rcases home_allotAll (A := A) (s := A.allot (A.allot (A.allot .empty b) q) a) hrest with
    hsame | ⟨d, -, hnew, -, hfresh⟩
  · rw [hsame, home_allot_of_oldest hstarted hnames, hhome, Option.some.injEq] at hfinal
    exact hother hfinal
  · rw [hnew, hhome, Option.some.injEq] at hfinal
    refine hfresh (mem_started_allot ?_)
    rw [hstarted, hfinal]
    simp

/-- **Two charters of others do not name the same document** if every order leads to the same
homes. -/
theorem Settled.sole (h : A.Settled files home) (hfiles : files.Nodup) (ha : a ∈ files)
    (hb : b ∈ files) (hq : q ∈ files) (hba : b ≠ a) (hqa : q ≠ a)
    (hbnames : A.names (A.governor b) a) (hqnames : A.names (A.governor q) a) :
    A.governor b = A.governor q := by
  by_contra hother
  obtain ⟨t, ht, hta, htnames, hhome⟩ := h.home_of_named hfiles ha hb hba hbnames
  -- one of the two is not the charter that has the document
  obtain ⟨rival, hrival, hra, hrnames, hdiffers⟩ : ∃ rival ∈ files, rival ≠ a ∧
      A.names (A.governor rival) a ∧ A.governor rival ≠ A.governor t := by
    by_cases hbt : A.governor b = A.governor t
    · exact ⟨q, hq, hqa, hqnames, fun heq => hother (hbt.trans heq.symm)⟩
    · exact ⟨b, hb, hba, hbnames, hbt⟩
  obtain ⟨rest, horder⟩ := exists_order [rival, a] (by simp [hra])
    (show [rival, a] ⊆ files by simp [ha, hrival])
  have hrest : a ∉ rest := not_mem_rest hfiles horder (by simp)
  have hstarted : (A.allot (A.allot .empty rival) a).started = [A.governor rival] := by
    rw [started_allot_of_named (c := A.governor rival) (by simp [started_first]) hrnames,
      started_first]
  -- it comes first and keeps the charter of the document from starting
  have hnever : A.governor t ∉ (A.allotAll .empty ([rival, a] ++ rest)).started := by
    refine not_started_allotAll (s := A.allot (A.allot .empty rival) a) ?_ fun d hd hgovernor => ?_
    · rw [hstarted]
      simp [hdiffers.symm]
    · refine ⟨A.governor rival, by simp [hstarted], ?_⟩
      have hda : d ≠ a := fun heq => hrest (heq ▸ hd)
      have hdmem : d ∈ files := horder.subset (List.mem_append_right _ hd)
      exact h.names_of_rival hfiles ha hrival hra hrnames hdmem hda (hhome.trans hgovernor.symm)
        (hgovernor ▸ hdiffers)
  have hfinal := h _ horder a ha
  rw [hhome] at hfinal
  exact hnever (rooted_empty.allotAll _ a _ hfinal)

/-- If every order leads to the same homes, a document that somebody else's charter names is at home
with that one. -/
theorem Settled.home_eq (h : A.Settled files home) (hfiles : files.Nodup) (ha : a ∈ files)
    (hb : b ∈ files) (hba : b ≠ a) (hnames : A.names (A.governor b) a) :
    home a = A.governor b := by
  obtain ⟨t, ht, hta, htnames, hhome⟩ := h.home_of_named hfiles ha hb hba hnames
  exact hhome.trans (h.sole hfiles ha ht hb hta hba htnames hnames)

/-- **A charter that names a document of somebody else is needed by a document of its own** if every
order leads to the same homes: else it does not start when its own documents come last. -/
theorem Settled.secure (h : A.Settled files home) (hfiles : files.Nodup) (ha : a ∈ files)
    (hb : b ∈ files) (hnames : A.names (A.governor b) a)
    (hother : A.governor b ≠ A.governor a) :
    ∃ own ∈ files, A.governor own = A.governor b ∧
      ∀ d ∈ files, A.names (A.governor d) own → A.governor d = A.governor b := by
  by_contra hnone
  push Not at hnone
  have hba : b ≠ a := fun heq => hother (congrArg A.governor heq)
  have horder : (files.filter (fun d => !decide (A.governor d = A.governor b)) ++
      files.filter (fun d => decide (A.governor d = A.governor b))).Perm files :=
    List.perm_append_comm.trans (List.filter_append_perm _ files)
  generalize hothers : files.filter (fun d => !decide (A.governor d = A.governor b)) = others
    at horder
  generalize hown : files.filter (fun d => decide (A.governor d = A.governor b)) = own at horder
  have hfinal := h _ horder
  rw [allotAll_append] at hfinal
  -- the charters that have the own documents start before those come
  have hnamed : ∀ d ∈ own, A.governor d = A.governor b →
      ∃ e ∈ (A.allotAll .empty others).started, A.names e d := by
    intro d hd hgovernor
    have hdmem : d ∈ files := horder.subset (List.mem_append_right _ hd)
    obtain ⟨e, he, henames, hediffers⟩ := hnone d hdmem hgovernor
    have hed : e ≠ d := fun heq => hediffers (heq ▸ hgovernor)
    have hhome := hfinal d hdmem
    rw [h.home_eq hfiles hdmem he hed henames] at hhome
    have hstarted := (rooted_empty.allotAll others).allotAll own d _ hhome
    refine ⟨A.governor e, (started_allotAll hstarted).resolve_right ?_, henames⟩
    rintro ⟨x, hx, heq⟩
    rw [← hown, List.mem_filter, decide_eq_true_eq] at hx
    exact hediffers (heq.trans hx.2)
  have hnever : A.governor b ∉ (A.allotAll (A.allotAll .empty others) own).started := by
    refine not_started_allotAll (fun hstarted => ?_) hnamed
    rcases started_allotAll hstarted with hempty | ⟨x, hx, heq⟩
    · cases hempty
    · rw [← hothers, List.mem_filter] at hx
      simp [heq] at hx
  have hhome := hfinal a ha
  rw [h.home_eq hfiles ha hb hba hnames] at hhome
  exact hnever ((rooted_empty.allotAll others).allotAll own a _ hhome)

/-! ### When the order does not matter -/

/-- The charter of another document names `a`, and is not its governor. -/
def Rival (A : Allotment α κ) (files : List α) (a : α) (c : κ) : Prop :=
  c ≠ A.governor a ∧ ∃ b ∈ files, c = A.governor b ∧ A.names c a

/-- The home that is due to `a` when these charters have started: the rival of its governor, else
the governor. -/
def Due (A : Allotment α κ) (files : List α) (started : List κ) (a : α) (c : κ) : Prop :=
  A.Rival files a c ∧ c ∈ started ∨ c = A.governor a ∧ ∀ d ∈ started, ¬ A.Rival files a d

omit [DecidableEq α] [DecidableEq κ] in
/-- A charter that names a document of somebody else is its only rival. -/
theorem Unambiguous.eq_of_rival (h : A.Unambiguous files) (ha : a ∈ files) (hb : b ∈ files)
    (hba : b ≠ a) (hnames : A.names (A.governor b) a) (hrival : A.Rival files a c) :
    c = A.governor b := by
  obtain ⟨hdiffers, t, ht, rfl, htnames⟩ := hrival
  exact h.sole a ha t ht b hb (fun heq => hdiffers (congrArg A.governor heq)) hba htnames hnames

/-- What is there has the home that is due to it. -/
structure Fair (A : Allotment α κ) (files before : List α) (s : State α κ) : Prop where
  started : ∀ c ∈ s.started, ∃ b ∈ before, c = A.governor b
  home : ∀ a ∈ before, ∃ c, s.home a = some c ∧ A.Due files s.started a c

omit [DecidableEq α] [DecidableEq κ] in
theorem fair_empty (A : Allotment α κ) (files : List α) : A.Fair files [] .empty :=
  ⟨fun _ hc => absurd hc List.not_mem_nil, fun _ ha => absurd ha List.not_mem_nil⟩

theorem Fair.due_self (h : A.Fair files order s) (hfiles : A.Unambiguous files)
    (horder : order ⊆ files) (ha : a ∈ files) (hnew : a ∉ order) :
    ∃ c, (A.allot s a).home a = some c ∧ A.Due files (A.allot s a).started a c := by
  obtain ⟨c, hc, hhome, hnamed⟩ := home_allot_self A s a
  refine ⟨c, hhome, ?_⟩
  -- a rival that has started did so before
  have hold : ∀ d ∈ (A.allot s a).started, A.Rival files a d → d ∈ s.started := fun d hd hrival =>
    (started_allot hd).resolve_right hrival.1
  rcases hnamed with ⟨hstarted, hnames⟩ | ⟨rfl, hunnamed⟩
  · obtain ⟨b, hb, rfl⟩ := h.started c hstarted
    have hba : b ≠ a := fun heq => hnew (heq ▸ hb)
    by_cases hgovernor : A.governor b = A.governor a
    · refine .inr ⟨hgovernor, fun d _ hrival => hrival.1 ?_⟩
      rw [← hgovernor]
      exact hfiles.eq_of_rival ha (horder hb) hba hnames hrival
    · exact .inl ⟨⟨hgovernor, b, horder hb, rfl, hnames⟩, hc⟩
  · refine .inr ⟨rfl, fun d hd hrival => hunnamed d (hold d hd hrival) ?_⟩
    obtain ⟨-, b, -, -, hnames⟩ := hrival
    exact hnames

theorem Fair.due_other (h : A.Fair files order s) (hfiles : A.Unambiguous files)
    (ha : a ∈ files) (hq : q ∈ files) (hqa : q ≠ a) (hmem : q ∈ order) :
    ∃ c, (A.allot s a).home q = some c ∧ A.Due files (A.allot s a).started q c := by
  obtain ⟨c, hhome, hdue⟩ := h.home q hmem
  rcases home_allot_other (A := A) (s := s) hqa with ⟨hsame, hold⟩ | ⟨hnext, hnames, -, hstarted⟩
  · refine ⟨c, hsame.trans hhome, hdue.imp (And.imp_right mem_started_allot) ?_⟩
    refine And.imp_right fun hnone d hd hrival => hnone d (hold d hd ?_ (by simp [hhome])) hrival
    obtain ⟨-, b, -, -, hnamed⟩ := hrival
    exact hnamed
  · refine ⟨A.governor a, hnext, ?_⟩
    by_cases hgovernor : A.governor a = A.governor q
    · refine .inr ⟨hgovernor, fun d _ hrival => hrival.1 ?_⟩
      rw [← hgovernor]
      exact hfiles.eq_of_rival hq ha hqa.symm hnames hrival
    · exact .inl ⟨⟨hgovernor, a, ha, rfl, hnames⟩, hstarted⟩

theorem Fair.allot (h : A.Fair files order s) (hfiles : A.Unambiguous files)
    (horder : order ⊆ files) (ha : a ∈ files) (hnew : a ∉ order) :
    A.Fair files (order ++ [a]) (A.allot s a) where
  started c hc := by
    rcases started_allot hc with hold | rfl
    · obtain ⟨b, hb, heq⟩ := h.started c hold
      exact ⟨b, List.mem_append_left _ hb, heq⟩
    · exact ⟨a, List.mem_append_right _ (List.mem_singleton_self a), rfl⟩
  home q hq := by
    rcases List.mem_append.1 hq with hq | hq
    · exact h.due_other hfiles ha (horder hq) (fun heq => hnew (heq ▸ hq)) hq
    · rw [List.mem_singleton.1 hq]
      exact h.due_self hfiles horder ha hnew

theorem fair_allotAll (hfiles : A.Unambiguous files) (hnodup : order.Nodup)
    (horder : order ⊆ files) : A.Fair files order (A.allotAll .empty order) := by
  induction order using List.reverseRecOn with
  | nil => exact fair_empty A files
  | append_singleton order a ih =>
    rw [List.nodup_append] at hnodup
    rw [List.append_subset] at horder
    rw [allotAll_append]
    exact (ih hnodup.1 horder.1).allot hfiles horder.1 (horder.2 (List.mem_singleton_self a))
      fun ha => hnodup.2.2 a ha a (List.mem_singleton_self a) rfl

/-- A charter starts in every order when one of its own documents is named by no other one. -/
theorem Unambiguous.started (h : A.Unambiguous files) (horder : order.Perm files) (ha : a ∈ files)
    (hrival : A.Rival files a c) : c ∈ (A.allotAll .empty order).started := by
  obtain ⟨hdiffers, b, hb, rfl, hnames⟩ := hrival
  obtain ⟨own, hown, hgovernor, hsole⟩ := h.secure a ha b hb hnames hdiffers
  obtain ⟨before, after, hsplit⟩ := List.append_of_mem (horder.mem_iff.2 hown)
  rw [hsplit, allotAll_append, allotAll_cons]
  refine mem_started_allotAll ?_
  obtain ⟨d, hd, -, hnamed⟩ := home_allot_self A (A.allotAll .empty before) own
  rcases hnamed with ⟨hstarted, hdnames⟩ | ⟨rfl, -⟩
  · rcases started_allotAll hstarted with hempty | ⟨t, ht, rfl⟩
    · cases hempty
    · have htmem : t ∈ files := horder.subset (hsplit ▸ List.mem_append_left _ ht)
      rwa [hsole t htmem hdnames] at hd
  · rwa [hgovernor] at hd

/-- **For which documents the order does not matter.** -/
theorem settled_iff (hnodup : files.Nodup) :
    (∃ home, A.Settled files home) ↔ A.Unambiguous files := by
  constructor
  · rintro ⟨home, h⟩
    exact ⟨fun a ha b hb q hq hba hqa => h.sole hnodup ha hb hq hba hqa,
      fun a ha b hb => h.secure hnodup ha hb⟩
  · intro h
    -- a rival has started in the end, so what is due does not depend on the order
    have hseat : ∀ a, ∃ c, A.Rival files a c ∨
        c = A.governor a ∧ ∀ d, ¬ A.Rival files a d := fun a => by
      by_cases hrival : ∃ c, A.Rival files a c
      · exact hrival.imp fun c hc => .inl hc
      · exact ⟨_, .inr ⟨rfl, not_exists.1 hrival⟩⟩
    choose home hhome using hseat
    refine ⟨home, fun order horder a ha => ?_⟩
    obtain ⟨c, hc, hdue⟩ := (fair_allotAll h (horder.nodup_iff.2 hnodup) horder.subset).home a
      (horder.mem_iff.2 ha)
    refine hc.trans (congrArg some ?_)
    rcases hhome a with hseat | ⟨hseat, hnone⟩ <;> rcases hdue with ⟨hrival, -⟩ | ⟨hgovernor, hfree⟩
    · obtain ⟨hdiffers, b, hb, heq, hnames⟩ := hseat
      rw [heq] at hdiffers hnames ⊢
      exact h.eq_of_rival ha hb (fun hba => hdiffers (congrArg A.governor hba)) hnames hrival
    · exact absurd hseat (hfree _ (h.started horder ha hseat))
    · exact absurd hrival (hnone c)
    · exact hgovernor.trans hseat.symm

end Allotment

end Codebase
