import Codebase.Proofs.Path.Spelling
/-!
# Containment and joining

What lies beneath a directory can be told in three ways: by going up from the path, by the text in
front of its spelling, and by what joining a text to the directory can name.

* `relativeTo?_iff_text` — the text that leads to a path is what stands behind the spelling of the
  directory.
* `join_relativeTo?` — joining this text leads to the path again.
* `follow_settled` — a text that does not go up leads through its names, less those that stay in
  place.
* `containment_undoes_joining` — the three ways agree.
-/

namespace Codebase.Path

variable {p dir : Path} {names : List Segment} {text r : String} {piece : List Char}

/-! ## Behind the spelling of a directory -/

theorem isUnder_eq_isSome : p.isUnder dir = (p.relativeTo? dir).isSome := by
  unfold isUnder relativeTo?
  rw [Option.isSome_map]

theorem text_of_below? (h : p.below? dir = some names) (hne : names ≠ []) :
    p.text = dir.opening ++ joined names := by
  obtain ⟨hroot, hnames⟩ := below?_eq_some_iff.1 h
  unfold Path.text
  rw [hroot, hnames, List.reverse_append, List.reverse_reverse]
  unfold opening
  split
  · rename_i htop
    obtain ⟨hdir, htext⟩ := text_of_isRoot htop
    rw [htext, List.isEmpty_iff.1 htop]
    rfl
  · rename_i hdir
    have habove : dir.names.reverse ≠ [] := fun hempty =>
      hdir (List.isEmpty_iff.2 (List.reverse_eq_nil_iff.1 hempty))
    rw [joined_append habove hne]
    unfold Path.text
    simp only [String.append_assoc]

theorem splitOn_joined (hne : names ≠ []) :
    (joined names).toList.splitOn '/' = names.map fun name => name.text.toList := by
  unfold joined
  rw [String.toList_intercalate, List.map_map]
  refine List.splitOn_intercalate '/' (fun piece hpiece => ?_) (by simpa using hne)
  obtain ⟨name, -, rfl⟩ := List.mem_map.1 hpiece
  exact name.allowed.2.2.2.1

theorem joined_of_splitOn (h : names.map (fun name => name.text.toList) = r.toList.splitOn '/') :
    joined names = r := by
  refine String.toList_inj.1 ?_
  unfold joined
  rw [String.toList_intercalate, List.map_map]
  exact (congrArg _ h).trans (List.intercalate_splitOn '/')

theorem toList_text_injective : Function.Injective fun name : Segment => name.text.toList := by
  intro a b h
  have htext := String.toList_inj.1 h
  cases a
  cases b
  cases htext
  rfl

/-- What stands behind the spelling of a directory in that of a path leads down to the path. -/
theorem relativeTo?_of_text (h : p.text = dir.opening ++ r) : p.relativeTo? dir = some r := by
  -- read as a whole, the spelling of the path starts with the root of the directory
  have hroot : p.root = dir.root := by
    have hread := parse_text p
    rw [h, parse_opening_append] at hread
    rw [← Except.ok.inj hread]
    rfl
  have hspelled : p.text = dir.root.text ++ joined p.names.reverse := by rw [← hroot]; rfl
  suffices ∃ names, p.names.reverse = dir.names.reverse ++ names ∧ joined names = r by
    obtain ⟨names, hnames, rfl⟩ := this
    unfold relativeTo?
    rw [below?_eq_some_iff.2 ⟨hroot, ?_⟩, Option.map_some]
    rw [← List.reverse_reverse p.names, hnames, List.reverse_append, List.reverse_reverse]
  rw [hspelled] at h
  unfold opening at h
  split at h
  · rename_i htop
    obtain ⟨hdir, htext⟩ := text_of_isRoot htop
    rw [htext] at h
    rw [List.isEmpty_iff.1 htop]
    exact ⟨p.names.reverse, rfl, String.append_right_inj _ |>.1 h⟩
  · rename_i hdir
    unfold Path.text at h
    rw [String.append_assoc, String.append_assoc, String.append_right_inj] at h
    have hlist : (joined p.names.reverse).toList =
        (joined dir.names.reverse).toList ++ '/' :: r.toList := by
      rw [h, String.toList_append, String.toList_append]
      rfl
    have hdirne : dir.names.reverse ≠ [] := fun hempty =>
      hdir (List.isEmpty_iff.2 (List.reverse_eq_nil_iff.1 hempty))
    have hpne : p.names.reverse ≠ [] := by
      intro hempty
      rw [hempty] at hlist
      exact absurd hlist.symm (by simp [joined])
    have hsplit := congrArg (List.splitOn '/') hlist
    rw [List.splitOn_append_cons_self, splitOn_joined hpne, splitOn_joined hdirne] at hsplit
    obtain ⟨front, names, hnames, hfront, hrest⟩ := List.map_eq_append_iff.1 hsplit
    rw [toList_text_injective.list_map hfront] at hnames
    exact ⟨names, hnames, joined_of_splitOn hrest⟩

/-- The text that leads from a directory to a path is empty for the directory itself, and else what
stands behind its spelling. -/
theorem relativeTo?_iff_text : p.relativeTo? dir = some r ↔
    (p = dir ∧ r = "") ∨ p.text = dir.opening ++ r := by
  constructor
  · intro h
    obtain ⟨names, hbelow, rfl⟩ := Option.map_eq_some_iff.1 h
    by_cases hne : names = []
    · subst hne
      exact .inl ⟨below?_eq_some_nil_iff.1 hbelow, rfl⟩
    · exact .inr (text_of_below? hbelow hne)
  · rintro (⟨hsame, rfl⟩ | htext)
    · exact relativeTo?_eq_some_empty_iff.2 hsame
    · exact relativeTo?_of_text htext

/-! ## Down and back -/

/-- A text that starts with no separator and no drive is read from where a directory stands. -/
theorem join_eq_follow (hslash : (unify text).head? ≠ some '/')
    (hdrive : Segment.startsWithDrive text = false) (dir : Path) :
    dir.join text = dir.follow (unify text) := by
  have hrelative : ¬ Absolute text := by
    rintro (⟨rest, hrest⟩ | ⟨letter, rest, halpha, hletter⟩)
    · rw [hrest] at hslash
      exact hslash rfl
    · unfold unify at hletter
      obtain ⟨first, _, htext, hfirst, hsecond⟩ := List.map_eq_cons_iff.1 hletter
      obtain ⟨second, _, rfl, hcolon, -⟩ := List.map_eq_cons_iff.1 hsecond
      -- neither character comes from a backslash
      have hletter' : first = letter := by
        by_cases hbackslash : first = '\\'
        · rw [if_pos hbackslash] at hfirst
          rw [← hfirst] at halpha
          cases halpha
        · rwa [if_neg hbackslash] at hfirst
      have hcolon' : second = ':' := by
        by_cases hbackslash : second = '\\'
        · rw [if_pos hbackslash] at hcolon
          cases hcolon
        · rwa [if_neg hbackslash] at hcolon
      unfold Segment.startsWithDrive at hdrive
      rw [htext, hletter', hcolon'] at hdrive
      simp only [halpha] at hdrive
      cases hdrive
  unfold join
  rw [splitRoot?_of_not_absolute hrelative]

theorem head?_joined_ne (names : List Segment) : (joined names).toList.head? ≠ some '/' := by
  cases names with
  | nil => simp [joined]
  | cons name rest =>
    obtain ⟨hne, -, -, hslash, -⟩ := name.allowed
    obtain ⟨c, others, hname⟩ := List.exists_cons_of_ne_nil fun hempty : name.text.toList = [] =>
      hne (String.toList_inj.1 hempty)
    have hfirst : (joined (name :: rest)).toList.head? = some c := by
      by_cases hrest : rest = []
      · subst hrest
        show name.text.toList.head? = some c
        rw [hname]
        rfl
      · rw [joined_cons name hrest, String.toList_append, String.toList_append, hname]
        rfl
    rw [hfirst]
    rintro heq
    cases heq
    rw [hname] at hslash
    exact hslash List.mem_cons_self

/-- The text that leads from a directory to a path is joined to it as that path, unless it is read
as a drive. -/
theorem join_relativeTo? (h : p.relativeTo? dir = some r)
    (hdrive : Segment.startsWithDrive r = false) : dir.join r = p := by
  obtain ⟨names, hbelow, rfl⟩ := Option.map_eq_some_iff.1 h
  obtain ⟨hroot, hnames⟩ := below?_eq_some_iff.1 hbelow
  have hslash : (unify (joined names)).head? ≠ some '/' := by
    rw [unify_joined]
    exact head?_joined_ne names
  rw [join_eq_follow hslash hdrive, unify_joined, follow_joined, ← hroot, ← hnames]

/-! ## Texts that do not go up -/

/-- The names of a text, from one separator to the next. -/
def steps (text : String) : List String := ((unify text).splitOn '/').map String.ofList

/-- The text without the names that stay in place. -/
def settled (text : String) : String :=
  "/".intercalate ((steps text).filter fun step => step ≠ "" ∧ step ≠ ".")

theorem not_mem_of_mem_splitOn {chars : List Char} (h : piece ∈ chars.splitOn '/') :
    '/' ∉ piece ∧ piece ⊆ chars := by
  induction chars generalizing piece with
  | nil =>
    cases List.mem_singleton.1 h
    exact ⟨List.not_mem_nil, List.Subset.refl _⟩
  | cons c rest ih =>
    obtain ⟨first, others, hsplit⟩ := List.exists_cons_of_ne_nil (List.splitOn_ne_nil '/' rest)
    rw [List.splitOn_cons_eq_if_modifyHead, hsplit] at h
    rw [hsplit] at ih
    by_cases hc : (c == '/') = true
    · rw [if_pos hc] at h
      rcases List.mem_cons.1 h with rfl | h
      · exact ⟨List.not_mem_nil, List.nil_subset _⟩
      · exact (ih h).imp_right fun hsubset => List.subset_cons_of_subset c hsubset
    · rw [if_neg hc] at h
      rcases List.mem_cons.1 h with rfl | h
      · obtain ⟨hslash, hsubset⟩ := ih List.mem_cons_self
        refine ⟨?_, List.cons_subset_cons c hsubset⟩
        rw [List.mem_cons, not_or]
        exact ⟨fun heq => hc (beq_iff_eq.2 heq.symm), hslash⟩
      · exact (ih (List.mem_cons_of_mem _ h)).imp_right fun hsubset =>
          List.subset_cons_of_subset c hsubset

theorem backslash_not_mem_unify (text : String) : '\\' ∉ unify text := by
  intro h
  obtain ⟨c, -, hc⟩ := List.mem_map.1 h
  split at hc
  · cases hc
  · rename_i hne
    exact hne hc

/-- A name that does not go up is entered, unless it stays in place. -/
theorem descend_of_not_up (hslash : '/' ∉ piece) (hbackslash : '\\' ∉ piece)
    (hup : piece ≠ ['.', '.']) (above : List Segment) :
    (∃ h, descend above piece = ⟨String.ofList piece, h⟩ :: above ∧
      String.ofList piece ≠ "" ∧ String.ofList piece ≠ ".") ∨
    (descend above piece = above ∧ ¬ (String.ofList piece ≠ "" ∧ String.ofList piece ≠ ".")) := by
  have hup' : String.ofList piece ≠ ".." := fun heq => hup (by
    rw [← String.toList_ofList (l := piece), heq]
    rfl)
  unfold descend
  rw [if_neg hup]
  by_cases hmoves : String.ofList piece ≠ "" ∧ String.ofList piece ≠ "."
  · have hallowed : Segment.Allowed (String.ofList piece) := by
      refine ⟨hmoves.1, hmoves.2, hup', ?_⟩
      rw [String.toList_ofList]
      exact ⟨hslash, hbackslash⟩
    exact .inl ⟨hallowed, dif_pos hallowed, hmoves⟩
  · exact .inr ⟨dif_neg fun hallowed => hmoves ⟨hallowed.1, hallowed.2.1⟩, hmoves⟩

/-- Names that do not go up are entered one by one, unless they stay in place. -/
theorem exists_foldl_descend {pieces : List (List Char)}
    (h : ∀ piece ∈ pieces, '/' ∉ piece ∧ '\\' ∉ piece ∧ piece ≠ ['.', '.'])
    (above : List Segment) : ∃ names : List Segment,
      names.map Segment.text =
        (pieces.map String.ofList).filter (fun step => step ≠ "" ∧ step ≠ ".") ∧
      pieces.foldl descend above = names.reverse ++ above := by
  induction pieces generalizing above with
  | nil => exact ⟨[], rfl, rfl⟩
  | cons piece rest ih =>
    obtain ⟨hslash, hbackslash, hup⟩ := h piece List.mem_cons_self
    have hrest := fun other hother => h other (List.mem_cons_of_mem piece hother)
    rw [List.map_cons, List.foldl_cons]
    rcases descend_of_not_up hslash hbackslash hup above with
      ⟨hname, hdescend, hmoves⟩ | ⟨hdescend, hstays⟩
    · rw [hdescend, List.filter_cons_of_pos (by simpa using hmoves)]
      obtain ⟨names, hnames, hfold⟩ := ih hrest (⟨String.ofList piece, hname⟩ :: above)
      refine ⟨⟨String.ofList piece, hname⟩ :: names, by rw [List.map_cons, hnames], ?_⟩
      rw [hfold, List.reverse_cons, List.append_assoc]
      rfl
    · rw [hdescend, List.filter_cons_of_neg (by simpa using hstays)]
      exact ih hrest above

/-- A text that does not go up leads down through its names, less those that stay in place. -/
theorem follow_settled (h : ".." ∉ steps text) (dir : Path) :
    (dir.follow (unify text)).relativeTo? dir = some (settled text) := by
  have hpieces : ∀ piece ∈ (unify text).splitOn '/',
      '/' ∉ piece ∧ '\\' ∉ piece ∧ piece ≠ ['.', '.'] := by
    intro piece hpiece
    obtain ⟨hslash, hsubset⟩ := not_mem_of_mem_splitOn hpiece
    refine ⟨hslash, fun hmem => backslash_not_mem_unify text (hsubset hmem), ?_⟩
    rintro rfl
    exact h (List.mem_map.2 ⟨_, hpiece, rfl⟩)
  obtain ⟨names, hnames, hfold⟩ := exists_foldl_descend hpieces dir.names
  have hbelow : (dir.follow (unify text)).below? dir = some names :=
    below?_eq_some_iff.2 ⟨rfl, hfold⟩
  unfold relativeTo?
  rw [hbelow, Option.map_some]
  unfold joined settled steps
  rw [hnames]

/-- **Containment is going up, and undoes joining.**  A path lies beneath a directory exactly if the
directory is among its ancestors; this is also the case exactly if some text leads from there to the
path, which is empty for the directory itself and else what stands behind the spelling of the
directory.  Lying beneath is a partial order.  Joining the text that leads to a path names the path
again, unless the text starts with a letter and a colon.  A text that starts with neither a
separator nor a drive and does not go up is joined as a path beneath the directory, and the text
that leads there is the joined one without the names that stay in place. -/
theorem containment_undoes_joining :
    (∀ p dir : Path, (p.isUnder dir = true ↔ dir ∈ p.ancestors) ∧
      p.isUnder dir = (p.relativeTo? dir).isSome) ∧
    (∀ (p dir : Path) (r : String), p.relativeTo? dir = some r ↔
      (p = dir ∧ r = "") ∨ p.text = dir.opening ++ r) ∧
    ((∀ p : Path, p.isUnder p = true) ∧
      (∀ p q : Path, p.isUnder q = true → q.isUnder p = true → p = q) ∧
      ∀ p q r : Path, p.isUnder q = true → q.isUnder r = true → p.isUnder r = true) ∧
    (∀ (p dir : Path) (r : String), p.relativeTo? dir = some r →
      Segment.startsWithDrive r = false → dir.join r = p) ∧
    (∀ (dir : Path) (text : String), (unify text).head? ≠ some '/' →
      Segment.startsWithDrive text = false → ".." ∉ steps text →
        (dir.join text).isUnder dir = true ∧
          (dir.join text).relativeTo? dir = some (settled text)) := by
  refine ⟨fun p dir => ⟨mem_ancestors_iff.symm, isUnder_eq_isSome⟩,
    fun p dir r => relativeTo?_iff_text,
    ⟨isUnder_refl, fun p q => isUnder_antisymm, fun p q r => isUnder_trans⟩,
    fun p dir r => join_relativeTo?, fun dir text hslash hdrive hup => ?_⟩
  have hrelative := follow_settled hup dir
  rw [← join_eq_follow hslash hdrive] at hrelative
  refine ⟨?_, hrelative⟩
  rw [isUnder_eq_isSome, hrelative]
  rfl

/-- A text with both separators, an empty name and a name that stays in place; and a directory whose
name only starts with that of the other. -/
theorem containment_undoes_joining_sibling :
    let dir := atTop "user/project"
    (atTop "user/projectx/b.ts").isUnder dir = false ∧
      (dir.join "src\\.//b.ts").relativeTo? dir = some "src/b.ts" ∧
      dir.join "src/b.ts" = dir.join "src\\.//b.ts" := by
  obtain ⟨hunder, -, -, hback, hdown⟩ := containment_undoes_joining
  have hsettled : settled "src\\.//b.ts" = "src/b.ts" := by decide +kernel
  have hrelative := (hdown (atTop "user/project") "src\\.//b.ts" (by decide +kernel)
    (by decide +kernel) (by decide +kernel)).2
  rw [hsettled] at hrelative
  have hsibling : atTop "user/project" ∉ (atTop "user/projectx/b.ts").ancestors := by
    decide +kernel
  refine ⟨?_, hrelative, hback _ _ _ hrelative (by decide +kernel)⟩
  exact Bool.eq_false_iff.2 fun h => hsibling ((hunder _ _).1.1 h)

end Codebase.Path
