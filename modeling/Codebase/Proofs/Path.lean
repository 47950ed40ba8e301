import Codebase.Path
import Mathlib.Data.List.Basic
/-!
# Plain names, and what lies beneath a directory

A name is plain when it names one place directly in a directory, whatever the directory is.

* `join_plain` — joining a plain name puts it below the directory.
* `parent?_join`, `fileName_join` — so the place that a plain name names lies in the directory and
  has that name.
* `isUnder_of_mem_ancestors` — a path lies beneath the directories above it.
* `isUnder_iff_of_parent?` — what lies beneath a directory lies in a place beneath it.
* `relativeTo?_through` — the text that leads to a path passes the directories on the way.
-/

namespace Codebase

/-- A letter and a colon, with which a text stands on its own. -/
def Segment.startsWithDrive (text : String) : Bool :=
  match text.toList with
  | letter :: ':' :: _ => letter.isAlpha
  | _ => false

/-- A name of one step that is no drive. -/
def Segment.Plain (text : String) : Prop :=
  Segment.Allowed text ∧ Segment.startsWithDrive text = false

instance (text : String) : Decidable (Segment.Plain text) :=
  inferInstanceAs (Decidable (_ ∧ _))

namespace Path

variable {name : String}

theorem unify_allowed (h : Segment.Allowed name) : unify name = name.toList := by
  obtain ⟨-, -, -, -, hbackslash⟩ := h
  have hsame : ∀ c ∈ name.toList, (if c = '\\' then '/' else c) = id c := fun c hc => by
    rw [if_neg]
    · rfl
    · rintro rfl
      exact hbackslash hc
  exact (List.map_congr_left hsame).trans (List.map_id _)

theorem splitRoot?_plain (h : Segment.Plain name) : splitRoot? name.toList = none := by
  obtain ⟨⟨-, -, -, hslash, -⟩, hdrive⟩ := h
  unfold Segment.startsWithDrive at hdrive
  unfold splitRoot?
  split
  · rename_i rest heq
    rw [heq] at hslash
    exact absurd List.mem_cons_self hslash
  · rename_i c rest _ heq
    have hletter : c.isAlpha = false := by
      rw [heq] at hdrive
      exact hdrive
    rw [dif_neg (Bool.eq_false_iff.1 hletter)]
  · rfl

/-- Following a name leads to the place below. -/
theorem follow_allowed (h : Segment.Allowed name) (start : Path) :
    start.follow name.toList = ⟨start.root, ⟨name, h⟩ :: start.names⟩ := by
  have ⟨_, _, hup, hslash, _⟩ := h
  have hname : String.ofList name.toList = name := String.ofList_toList
  have hdescend : descend start.names name.toList = ⟨name, h⟩ :: start.names := by
    unfold descend
    rw [if_neg fun heq => hup (by rw [← hname, heq])]
    simp only [hname, dif_pos h]
  unfold follow
  rw [List.splitOn_eq_singleton hslash, List.foldl_cons, List.foldl_nil, hdescend]

theorem join_plain (h : Segment.Plain name) (directory : Path) :
    directory.join name = ⟨directory.root, ⟨name, h.1⟩ :: directory.names⟩ := by
  unfold join
  rw [unify_allowed h.1, splitRoot?_plain h]
  exact follow_allowed h.1 directory

/-! ## Directories above a path -/

theorem mem_chain {root : Root} {names : List Segment} {directory : Path} :
    directory ∈ chain root names ↔ directory.root = root ∧ directory.names <:+ names := by
  induction names with
  | nil =>
    cases directory
    simp [chain]
  | cons name above ih =>
    obtain ⟨other, below⟩ := directory
    rw [chain, List.mem_cons, ih, List.suffix_cons_iff, Path.mk.injEq, and_or_left]

theorem isUnder_iff {p directory : Path} :
    p.isUnder directory = true ↔ p.root = directory.root ∧ directory.names <:+ p.names := by
  unfold isUnder below?
  rw [Option.isSome_ite, List.isSuffixOf_iff_suffix]

/-- A path lies beneath the directories above it. -/
theorem isUnder_of_mem_ancestors {p parent directory : Path} (hparent : p.parent? = some parent)
    (h : directory ∈ parent.ancestors) : p.isUnder directory = true := by
  obtain ⟨hroot, hnames⟩ := mem_chain.1 h
  obtain ⟨root, names⟩ := p
  cases names with
  | nil => cases hparent
  | cons name above =>
    cases hparent
    exact isUnder_iff.2 ⟨hroot.symm, hnames.trans (List.suffix_cons name above)⟩

theorem parent?_join (h : Segment.Plain name) (directory : Path) :
    (directory.join name).parent? = some directory := by
  rw [join_plain h]
  rfl

theorem fileName_join (h : Segment.Plain name) (directory : Path) :
    (directory.join name).fileName = name := by
  rw [join_plain h]
  rfl

/-- A path is its own name in its directory, if that name is plain. -/
theorem join_fileName {p directory : Path} (hparent : p.parent? = some directory)
    (h : Segment.Plain p.fileName) : directory.join p.fileName = p := by
  obtain ⟨root, names⟩ := p
  cases names with
  | nil => cases hparent
  | cons last above =>
    cases hparent
    exact join_plain h _

/-! ## Paths beneath a directory -/

section Beneath

variable {p q r directory parent : Path} {names : List Segment}

theorem parent?_eq_some_iff :
    p.parent? = some directory ↔ ∃ name, p = ⟨directory.root, name :: directory.names⟩ := by
  obtain ⟨root, names⟩ := p
  cases names with
  | nil => simp [parent?]
  | cons name above =>
    obtain ⟨other, below⟩ := directory
    simp only [parent?, Option.some.injEq, Path.mk.injEq, List.cons.injEq]
    constructor
    · rintro ⟨rfl, rfl⟩
      exact ⟨name, rfl, rfl, rfl⟩
    · rintro ⟨-, rfl, -, rfl⟩
      exact ⟨rfl, rfl⟩

theorem below?_eq_some_iff :
    p.below? directory = some names ↔
      p.root = directory.root ∧ p.names = names.reverse ++ directory.names := by
  unfold below?
  rw [Option.ite_none_right_eq_some, List.isSuffixOf_iff_suffix]
  constructor
  · rintro ⟨⟨hroot, front, hfront⟩, hnames⟩
    refine ⟨hroot, ?_⟩
    rw [Option.some.injEq, ← hfront, List.length_append, Nat.add_sub_cancel,
      List.take_left] at hnames
    rw [← hnames, List.reverse_reverse, hfront]
  · rintro ⟨hroot, hnames⟩
    refine ⟨⟨hroot, names.reverse, hnames.symm⟩, ?_⟩
    rw [hnames, List.length_append, Nat.add_sub_cancel, List.take_left, List.reverse_reverse]

theorem below?_eq_some_nil_iff : p.below? directory = some [] ↔ p = directory := by
  obtain ⟨root, names⟩ := p
  obtain ⟨other, below⟩ := directory
  rw [below?_eq_some_iff, Path.mk.injEq, List.reverse_nil, List.nil_append]

/-- The first name leads to the child of the directory, and the others lead on from there. -/
theorem below?_eq_some_cons_iff {name : Segment} :
    p.below? directory = some (name :: names) ↔
      p.below? ⟨directory.root, name :: directory.names⟩ = some names := by
  rw [below?_eq_some_iff, below?_eq_some_iff, List.reverse_cons, List.append_assoc,
    List.singleton_append]

theorem isUnder_refl (p : Path) : p.isUnder p = true :=
  isUnder_iff.2 ⟨rfl, List.suffix_refl _⟩

theorem mem_ancestors_iff : directory ∈ p.ancestors ↔ p.isUnder directory = true := by
  unfold ancestors
  rw [mem_chain, isUnder_iff, eq_comm]

theorem length_ancestors (p : Path) : p.ancestors.length = p.names.length + 1 := by
  obtain ⟨root, names⟩ := p
  show (chain root names).length = names.length + 1
  induction names with
  | nil => rfl
  | cons name above ih => rw [chain, List.length_cons, ih, List.length_cons]

theorem isUnder_trans (h : p.isUnder q = true) (h' : q.isUnder r = true) : p.isUnder r = true := by
  obtain ⟨hroot, hnames⟩ := isUnder_iff.1 h
  obtain ⟨hroot', hnames'⟩ := isUnder_iff.1 h'
  exact isUnder_iff.2 ⟨hroot.trans hroot', hnames'.trans hnames⟩

theorem isUnder_antisymm (h : p.isUnder q = true) (h' : q.isUnder p = true) : p = q := by
  obtain ⟨hroot, hnames⟩ := isUnder_iff.1 h
  obtain ⟨-, hnames'⟩ := isUnder_iff.1 h'
  obtain ⟨root, names⟩ := p
  obtain ⟨other, below⟩ := q
  rw [Path.mk.injEq]
  exact ⟨hroot, hnames'.eq_of_length_le hnames.length_le⟩

/-- Of two directories above one path, one lies beneath the other. -/
theorem isUnder_or_isUnder (h : p.isUnder q = true) (h' : p.isUnder r = true) :
    q.isUnder r = true ∨ r.isUnder q = true := by
  obtain ⟨hroot, hnames⟩ := isUnder_iff.1 h
  obtain ⟨hroot', hnames'⟩ := isUnder_iff.1 h'
  rcases List.suffix_or_suffix_of_suffix hnames hnames' with hq | hr
  · exact .inr (isUnder_iff.2 ⟨hroot'.symm.trans hroot, hq⟩)
  · exact .inl (isUnder_iff.2 ⟨hroot.symm.trans hroot', hr⟩)

theorem isUnder_of_parent? (hparent : p.parent? = some parent) : p.isUnder parent = true := by
  obtain ⟨name, rfl⟩ := parent?_eq_some_iff.1 hparent
  exact isUnder_iff.2 ⟨rfl, List.suffix_cons name _⟩

theorem ne_of_parent? (hparent : p.parent? = some parent) : p ≠ parent := by
  obtain ⟨name, rfl⟩ := parent?_eq_some_iff.1 hparent
  intro heq
  have hlength := congrArg (fun path : Path => path.names.length) heq
  simp at hlength

/-- A path lies beneath one child of a directory at most. -/
theorem eq_of_parent? (hq : q.parent? = some directory) (hr : r.parent? = some directory)
    (h : p.isUnder q = true) (h' : p.isUnder r = true) : q = r := by
  have hsame : ∀ {q r : Path}, q.parent? = some directory → r.parent? = some directory →
      q.isUnder r = true → q = r := by
    intro q r hq hr hunder
    obtain ⟨name, rfl⟩ := parent?_eq_some_iff.1 hq
    obtain ⟨other, rfl⟩ := parent?_eq_some_iff.1 hr
    have heq : other :: directory.names = name :: directory.names :=
      (isUnder_iff.1 hunder).2.eq_of_length rfl
    rw [heq]
  rcases isUnder_or_isUnder h h' with hunder | hunder
  · exact hsame hq hr hunder
  · exact (hsame hr hq hunder).symm

/-- What lies beneath a directory and is not the directory lies in a place beneath it. -/
theorem isUnder_iff_of_parent? (hparent : p.parent? = some parent) :
    p.isUnder directory = true ↔ p = directory ∨ parent.isUnder directory = true := by
  obtain ⟨name, rfl⟩ := parent?_eq_some_iff.1 hparent
  obtain ⟨root, names⟩ := directory
  simp only [isUnder_iff, List.suffix_cons_iff, Path.mk.injEq]
  constructor
  · rintro ⟨rfl, rfl | hsuffix⟩
    · exact .inl ⟨rfl, rfl⟩
    · exact .inr ⟨rfl, hsuffix⟩
  · rintro (⟨rfl, rfl⟩ | ⟨rfl, hsuffix⟩)
    · exact ⟨rfl, .inl rfl⟩
    · exact ⟨rfl, .inr hsuffix⟩

theorem exists_parent_of_isUnder (h : p.isUnder directory = true) (hne : p ≠ directory) :
    ∃ parent, p.parent? = some parent ∧ parent.isUnder directory = true := by
  obtain ⟨names, hbelow⟩ := Option.isSome_iff_exists.1 h
  cases names with
  | nil => exact absurd (below?_eq_some_nil_iff.1 hbelow) hne
  | cons name rest =>
    cases hparent : p.parent? with
    | none =>
      obtain ⟨-, hnames⟩ := below?_eq_some_iff.1 hbelow
      obtain ⟨root, _ | _⟩ := p
      · simp at hnames
      · cases hparent
    | some parent => exact ⟨parent, rfl, ((isUnder_iff_of_parent? hparent).1 h).resolve_left hne⟩

/-! ### What leads there -/

theorem joined_cons (name : Segment) {rest : List Segment} (hrest : rest ≠ []) :
    joined (name :: rest) = name.text ++ "/" ++ joined rest := by
  obtain ⟨next, others, rfl⟩ := List.exists_cons_of_ne_nil hrest
  exact String.intercalate_cons_cons

theorem joined_append {front back : List Segment} (hfront : front ≠ []) (hback : back ≠ []) :
    joined (front ++ back) = joined front ++ "/" ++ joined back := by
  induction front with
  | nil => exact absurd rfl hfront
  | cons name rest ih =>
    by_cases hrest : rest = []
    · subst hrest
      rw [List.singleton_append, joined_cons name hback]
      rfl
    · have happend : rest ++ back ≠ [] := List.append_ne_nil_of_left_ne_nil hrest back
      rw [List.cons_append, joined_cons name happend, joined_cons name hrest, ih hrest]
      simp only [String.append_assoc]

theorem joined_eq_empty_iff : joined names = "" ↔ names = [] := by
  constructor
  · intro hempty
    cases names with
    | nil => rfl
    | cons name rest =>
      have hname : name.text ≠ "" := name.allowed.1
      by_cases hrest : rest = []
      · subst hrest
        exact absurd (String.intercalate_singleton.symm.trans hempty) hname
      · rw [joined_cons name hrest, String.append_eq_empty_iff,
          String.append_eq_empty_iff] at hempty
        exact absurd hempty.1.1 hname
  · rintro rfl
    rfl

/-- Only the directory itself is reached by the empty text. -/
theorem relativeTo?_eq_some_empty_iff : p.relativeTo? directory = some "" ↔ p = directory := by
  unfold relativeTo?
  simp only [Option.map_eq_some_iff, joined_eq_empty_iff, exists_eq_right, below?_eq_some_nil_iff]

/-- The text that leads to a path starts with the text that leads to any directory on the way. -/
theorem relativeTo?_through (hq : p.isUnder q = true) (hne : p ≠ q)
    (hdirectory : q.isUnder directory = true) (hne' : q ≠ directory) :
    ∃ above rest, q.relativeTo? directory = some above ∧
      p.relativeTo? directory = some (above ++ "/" ++ rest) := by
  obtain ⟨rest, hrest⟩ := Option.isSome_iff_exists.1 hq
  obtain ⟨above, habove⟩ := Option.isSome_iff_exists.1 hdirectory
  obtain ⟨hroot, hnames⟩ := below?_eq_some_iff.1 hrest
  obtain ⟨hroot', hnames'⟩ := below?_eq_some_iff.1 habove
  have hp : p.below? directory = some (above ++ rest) := by
    refine below?_eq_some_iff.2 ⟨hroot.trans hroot', ?_⟩
    rw [hnames, hnames', List.reverse_append, List.append_assoc]
  have hrestne : rest ≠ [] := by
    rintro rfl
    exact hne (below?_eq_some_nil_iff.1 hrest)
  have habovene : above ≠ [] := by
    rintro rfl
    exact hne' (below?_eq_some_nil_iff.1 habove)
  refine ⟨joined above, joined rest, ?_, ?_⟩
  · unfold relativeTo?
    rw [habove]
    rfl
  · unfold relativeTo?
    rw [hp, Option.map_some, joined_append habovene hrestne]

end Beneath

/-- A path below the directory at the top. -/
def atTop (text : String) : Path := (Path.mk .slash []).join text

end Path

end Codebase
