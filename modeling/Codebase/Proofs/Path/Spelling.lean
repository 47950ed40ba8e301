import Codebase.Proofs.Path
import Mathlib.Data.String.Basic
/-!
# One spelling for each path

A text is canonical when it is a root and then names with slashes between them, as `Path.text`
writes it.  What is read from a canonical text is written as that text, so a path and its spelling
stand for each other.

* `follow_append` — a text is followed in parts, wherever a slash divides it.
* `parse_text` — a spelling is read as the path that it spells; so no two paths share one.
* `canonical_iff` — the canonical texts are the spellings of paths.
* `parse_opening_append`, `join_of_not_absolute` — joining reads what stands behind the spelling of
  a directory.
* `Idle.follow` — a piece that leads nowhere changes nothing.
* `spelling_is_canonical` — what this means for reading, going up and joining.
-/

namespace Codebase.Path

variable {p q start dir : Path} {root : Root} {text name : String} {front back rest : List Char}

/-! ## Following a text in parts -/

theorem follow_append (start : Path) (front back : List Char) :
    start.follow (front ++ '/' :: back) = (start.follow front).follow back := by
  unfold follow
  rw [List.splitOn_append_cons_self, List.foldl_append]

theorem follow_nil (start : Path) : start.follow [] = start := rfl

theorem follow_slash (start : Path) (rest : List Char) :
    start.follow ('/' :: rest) = start.follow rest :=
  follow_append start [] rest

theorem follow_dot (start : Path) : start.follow ['.'] = start := by
  unfold follow
  rw [List.splitOn_eq_singleton (by decide)]
  rfl

theorem follow_up (start : Path) : start.follow ['.', '.'] = ⟨start.root, start.names.tail⟩ := by
  unfold follow
  rw [List.splitOn_eq_singleton (by decide)]
  rfl

/-- Names are followed one by one. -/
theorem follow_joined (start : Path) (names : List Segment) :
    start.follow (joined names).toList = ⟨start.root, names.reverse ++ start.names⟩ := by
  induction names generalizing start with
  | nil => exact follow_nil start
  | cons name rest ih =>
    rw [List.reverse_cons, List.append_assoc, List.singleton_append]
    by_cases hrest : rest = []
    · subst hrest
      exact follow_allowed name.allowed start
    · rw [joined_cons name hrest, String.toList_append, String.toList_append, List.append_assoc]
      show start.follow (name.text.toList ++ '/' :: (joined rest).toList) = _
      rw [follow_append, follow_allowed name.allowed, ih]

/-! ## Reading a spelling -/

theorem unify_append (a b : String) : unify (a ++ b) = unify a ++ unify b := by
  unfold unify
  rw [String.toList_append, List.map_append]

theorem unify_joined (names : List Segment) : unify (joined names) = (joined names).toList := by
  induction names with
  | nil => rfl
  | cons name rest ih =>
    by_cases hrest : rest = []
    · subst hrest
      exact unify_allowed name.allowed
    · rw [joined_cons name hrest, unify_append, unify_append, unify_allowed name.allowed, ih,
        String.toList_append, String.toList_append]
      rfl

theorem toLower_of_isLower {letter : Char} (h : letter.isLower = true) :
    letter.toLower = letter := by
  unfold Char.toLower
  split
  · rename_i hupper
    have hlow : 'a' ≤ letter := of_decide_eq_true (Bool.and_eq_true_iff.1 h).1
    exact absurd (Char.le_trans hlow hupper.2) (by decide)
  · rfl

theorem splitRoot?_drive {letter : Char} (h : letter.isAlpha = true) (rest : List Char) :
    splitRoot? (letter :: ':' :: rest) =
      some (.drive letter.toLower (isLower_toLower h), rest) := by
  have hslash : letter ≠ '/' := by
    rintro rfl
    cases h
  unfold splitRoot?
  split
  · rename_i heq
    exact absurd (List.cons.inj heq).1 hslash
  · rename_i heq
    cases heq
    exact dif_pos h
  · rename_i hnot
    exact absurd rfl (hnot letter rest)

/-- The spelling of a root is read as this root, and what comes behind is followed from there. -/
theorem exists_splitRoot? (root : Root) (rest : List Char) :
    ∃ behind, splitRoot? (unify root.text ++ rest) = some (root, behind) ∧
      ∀ start : Path, start.follow behind = start.follow rest := by
  cases root with
  | slash => exact ⟨rest, rfl, fun _ => rfl⟩
  | drive letter lower =>
    have halpha : letter.isAlpha = true := Bool.or_eq_true_iff.2 (.inr lower)
    have hroot : Root.drive letter.toLower (isLower_toLower halpha) = .drive letter lower := by
      simp only [toLower_of_isLower lower]
    have hbackslash : letter ≠ '\\' := by
      rintro rfl
      cases lower
    have hunify : unify (Root.drive letter lower).text = [letter, ':', '/'] := by
      unfold unify Root.text
      rw [String.toList_ofList, List.map_cons, if_neg hbackslash]
      rfl
    refine ⟨'/' :: rest, ?_, fun start => follow_slash start rest⟩
    rw [hunify, ← hroot]
    exact splitRoot?_drive halpha ('/' :: rest)

theorem parse_of_splitRoot? {root : Root} {rest : List Char}
    (h : splitRoot? (unify text) = some (root, rest)) :
    parse text = .ok (follow ⟨root, []⟩ rest) := by
  unfold parse
  rw [h]

/-- What stands behind a root is followed from there. -/
theorem parse_root_append (root : Root) (text : String) :
    parse (root.text ++ text) = .ok (follow ⟨root, []⟩ (unify text)) := by
  obtain ⟨behind, hsplit, hfollow⟩ := exists_splitRoot? root (unify text)
  rw [parse_of_splitRoot? (by rw [unify_append]; exact hsplit), hfollow]

/-- **A spelling is read as the path that it spells.** -/
theorem parse_text (p : Path) : parse p.text = .ok p := by
  unfold Path.text
  rw [parse_root_append, unify_joined, follow_joined, List.reverse_reverse, List.append_nil]

theorem text_injective : Function.Injective Path.text := by
  intro p q h
  have hread := parse_text p
  rw [h, parse_text q] at hread
  exact (Except.ok.inj hread).symm

/-! ## Canonical texts -/

/-- The text is a slash, or a drive with a lower-case letter, and then names with slashes between
them, each of which can name one step. -/
def Canonical (text : String) : Prop :=
  ∃ start names,
    (start = "/" ∨ ∃ letter : Char, letter.isLower = true ∧
      start = String.ofList [letter, ':', '/']) ∧
    (∀ name ∈ names, Segment.Allowed name) ∧ text = start ++ "/".intercalate names

theorem canonical_text (p : Path) : Canonical p.text := by
  refine ⟨p.root.text, p.names.reverse.map Segment.text, ?_, ?_, rfl⟩
  · cases p.root with
    | slash => exact .inl rfl
    | drive letter lower => exact .inr ⟨letter, lower, rfl⟩
  · intro name hname
    obtain ⟨segment, -, rfl⟩ := List.mem_map.1 hname
    exact segment.allowed

/-- **The canonical texts are the spellings of paths.** -/
theorem canonical_iff : Canonical text ↔ ∃ p : Path, p.text = text := by
  constructor
  · rintro ⟨start, names, hstart, hnames, rfl⟩
    obtain ⟨root, rfl⟩ : ∃ root : Root, root.text = start := by
      rcases hstart with rfl | ⟨letter, lower, rfl⟩
      · exact ⟨.slash, rfl⟩
      · exact ⟨.drive letter lower, rfl⟩
    let segments : List Segment := names.attach.map fun name => ⟨name.1, hnames name.1 name.2⟩
    have hsegments : segments.map Segment.text = names := by
      rw [List.map_map]
      exact List.attach_map_subtype_val names
    refine ⟨⟨root, segments.reverse⟩, ?_⟩
    unfold Path.text joined
    rw [List.reverse_reverse, hsegments]
  · rintro ⟨p, rfl⟩
    exact canonical_text p

/-! ## Absolute texts -/

/-- The text starts with a separator, or with a letter and a colon. -/
def Absolute (text : String) : Prop :=
  (∃ rest, unify text = '/' :: rest) ∨
    ∃ letter rest, letter.isAlpha = true ∧ unify text = letter :: ':' :: rest

theorem absolute_iff :
    Absolute text ↔ ∃ root rest, splitRoot? (unify text) = some (root, rest) := by
  constructor
  · rintro (⟨rest, hslash⟩ | ⟨letter, rest, halpha, hdrive⟩)
    · exact ⟨.slash, rest, by rw [hslash]; rfl⟩
    · exact ⟨_, rest, by rw [hdrive]; exact splitRoot?_drive halpha rest⟩
  · rintro ⟨root, rest, hsplit⟩
    unfold splitRoot? at hsplit
    split at hsplit
    · rename_i rest' heq
      exact .inl ⟨rest', heq⟩
    · rename_i letter rest' _ heq
      split at hsplit
      · rename_i halpha
        exact .inr ⟨letter, rest', halpha, heq⟩
      · cases hsplit
    · cases hsplit

theorem splitRoot?_of_not_absolute (h : ¬ Absolute text) : splitRoot? (unify text) = none := by
  cases hsplit : splitRoot? (unify text) with
  | none => rfl
  | some found => exact absurd (absolute_iff.2 ⟨found.1, found.2, hsplit⟩) h

/-- **A text is read exactly if it is absolute.** -/
theorem parse_cases (text : String) :
    (¬ Absolute text ∧ parse text = .error (.invalidPath text)) ∨
      (Absolute text ∧ ∃ p, parse text = .ok p) := by
  by_cases h : Absolute text
  · obtain ⟨root, rest, hsplit⟩ := absolute_iff.1 h
    exact .inr ⟨h, _, parse_of_splitRoot? hsplit⟩
  · refine .inl ⟨h, ?_⟩
    unfold parse
    rw [splitRoot?_of_not_absolute h]

/-! ## Up and down -/

/-- The spelling of a directory with a slash behind it, before which names of its places stand. -/
def opening (dir : Path) : String := if dir.isRoot then dir.text else dir.text ++ "/"

theorem text_of_isRoot (h : dir.isRoot = true) :
    dir = ⟨dir.root, []⟩ ∧ dir.text = dir.root.text := by
  obtain ⟨root, names⟩ := dir
  cases List.isEmpty_iff.1 h
  exact ⟨rfl, String.append_empty⟩

/-- What is read behind the spelling of a directory is followed from there. -/
theorem parse_opening_append (dir : Path) (text : String) :
    parse (dir.opening ++ text) = .ok (dir.follow (unify text)) := by
  unfold opening
  split
  · rename_i hroot
    obtain ⟨hdir, htext⟩ := text_of_isRoot hroot
    rw [htext, parse_root_append, ← hdir]
  · have hjoined : unify (joined dir.names.reverse ++ "/" ++ text) =
        (joined dir.names.reverse).toList ++ '/' :: unify text := by
      rw [unify_append, unify_append, unify_joined, List.append_assoc]
      rfl
    unfold Path.text
    rw [String.append_assoc, String.append_assoc, parse_root_append, ← String.append_assoc, hjoined,
      follow_append, follow_joined, List.reverse_reverse, List.append_nil]

/-- An absolute text is joined as it is read. -/
theorem join_of_absolute (dir : Path) (h : Absolute text) : parse text = .ok (dir.join text) := by
  obtain ⟨root, rest, hsplit⟩ := absolute_iff.1 h
  unfold join
  rw [parse_of_splitRoot? hsplit, hsplit]

/-- Any other text is joined as it is read behind the directory. -/
theorem join_of_not_absolute (dir : Path) (h : ¬ Absolute text) :
    parse (dir.opening ++ text) = .ok (dir.join text) := by
  unfold join
  rw [parse_opening_append, splitRoot?_of_not_absolute h]

/-- A path is spelled as its directory and its name. -/
theorem text_of_parent? (h : p.parent? = some q) : p.text = q.opening ++ p.fileName := by
  obtain ⟨name, rfl⟩ := parent?_eq_some_iff.1 h
  obtain ⟨root, names⟩ := q
  unfold opening Path.text isRoot fileName
  simp only [List.reverse_cons]
  cases names with
  | nil =>
    show root.text ++ name.text = root.text ++ "" ++ name.text
    rw [String.append_empty]
  | cons last above =>
    have habove : (last :: above).reverse ≠ [] := by simp
    rw [joined_append habove (List.cons_ne_nil name [])]
    simp only [List.isEmpty_cons, Bool.false_eq_true, if_false, String.append_assoc]
    rfl

theorem parent?_eq_none_iff : p.parent? = none ↔ p.isRoot = true := by
  obtain ⟨root, names⟩ := p
  cases names <;> simp [parent?, isRoot]

/-- A root is the only path whose spelling ends with a slash. -/
theorem isRoot_iff_text : p.isRoot = true ↔ ∃ front, p.text = front ++ "/" := by
  constructor
  · intro h
    rw [(text_of_isRoot h).2]
    cases p.root with
    | slash => exact ⟨"", rfl⟩
    | drive letter lower =>
      exact ⟨String.ofList [letter, ':'], String.toList_inj.1 (by simp [Root.text])⟩
  · rintro ⟨front, hfront⟩
    cases hparent : p.parent? with
    | none => exact parent?_eq_none_iff.1 hparent
    | some q =>
      obtain ⟨name, rfl⟩ := parent?_eq_some_iff.1 hparent
      obtain ⟨hne, -, -, hslash, -⟩ := name.allowed
      -- the last character belongs to the last name, which has no slash
      have hlast := congrArg (fun text : String => text.toList.getLast?) hfront
      rw [text_of_parent? hparent] at hlast
      have hname : name.text.toList ≠ [] := fun h => hne (String.toList_inj.1 h)
      simp only [fileName, String.toList_append, List.getLast?_append_of_ne_nil _ hname] at hlast
      refine absurd (List.mem_of_getLast? (hlast.trans ?_)) hslash
      exact List.getLast?_append_of_ne_nil _ (List.cons_ne_nil '/' [])

/-- Going up from a path, parent by parent, comes to its root. -/
theorem ancestors_spec (p : Path) : p.ancestors.head? = some p ∧
    p.ancestors.IsChain (fun q above => q.parent? = some above) ∧
    p.ancestors.getLast? = some ⟨p.root, []⟩ := by
  obtain ⟨root, names⟩ := p
  unfold ancestors
  induction names with
  | nil => exact ⟨rfl, List.IsChain.singleton _, rfl⟩
  | cons name above ih =>
    obtain ⟨hhead, hchain, hlast⟩ := ih
    obtain ⟨first, rest, hcons⟩ : ∃ first rest, chain root above = first :: rest := by
      cases above <;> exact ⟨_, _, rfl⟩
    refine ⟨rfl, ?_, ?_⟩
    · unfold chain
      simp only at hhead hchain ⊢
      rw [hcons] at hhead hchain ⊢
      cases hhead
      exact List.isChain_cons_cons.2 ⟨rfl, hchain⟩
    · unfold chain
      simp only at hlast ⊢
      rw [hcons] at hlast ⊢
      rw [List.getLast?_cons_cons]
      exact hlast

/-! ## Pieces that lead nowhere -/

/-- A slash or a backslash. -/
def Separator (text : String) : Prop := text = "/" ∨ text = "\\"

/-- What an absolute text starts with: a separator, or a letter and a colon. -/
def Start (text : String) : Prop :=
  Separator text ∨ ∃ letter : Char, letter.isAlpha = true ∧ text = String.ofList [letter, ':']

/-- A piece of a text that leads nowhere: an empty name, a dot, or a name and the way back. -/
inductive Idle : String → Prop
  | empty : Idle ""
  | dot : Idle "."
  | detour {name separator : String} (hname : Segment.Allowed name)
      (hseparator : Separator separator) : Idle (name ++ separator ++ "..")

theorem Separator.unify {separator : String} (h : Separator separator) :
    Path.unify separator = ['/'] := by
  rcases h with rfl | rfl <;> rfl

/-- What stands behind the start of an absolute text is followed from a root. -/
theorem Start.parse {start : String} (h : Start start) :
    ∃ root, ∀ rest, Path.parse (start ++ rest) = .ok (follow ⟨root, []⟩ (Path.unify rest)) := by
  rcases h with hseparator | ⟨letter, halpha, rfl⟩
  · refine ⟨.slash, fun rest => parse_of_splitRoot? ?_⟩
    rw [unify_append, hseparator.unify]
    rfl
  · have hbackslash : letter ≠ '\\' := by
      rintro rfl
      cases halpha
    have hunify : Path.unify (String.ofList [letter, ':']) = [letter, ':'] := by
      unfold Path.unify
      rw [String.toList_ofList, List.map_cons, if_neg hbackslash]
      rfl
    refine ⟨.drive letter.toLower (isLower_toLower halpha), fun rest => parse_of_splitRoot? ?_⟩
    rw [unify_append, hunify]
    exact splitRoot?_drive halpha _

theorem Idle.follow {piece : String} (h : Idle piece) (start : Path) :
    start.follow (Path.unify piece) = start := by
  cases h with
  | empty => exact follow_nil start
  | dot => exact follow_dot start
  | detour hname hseparator =>
    rw [unify_append, unify_append, unify_allowed hname, hseparator.unify, List.append_assoc,
      List.singleton_append, follow_append, follow_allowed hname]
    exact follow_up _

theorem Idle.follow_before {piece separator : String} (h : Idle piece)
    (hseparator : Separator separator) (start : Path) (after : List Char) :
    start.follow (Path.unify (piece ++ separator) ++ after) = start.follow after := by
  rw [unify_append, hseparator.unify, List.append_assoc, List.singleton_append, follow_append,
    h.follow]

theorem Idle.follow_after {piece separator : String} (h : Idle piece)
    (hseparator : Separator separator) (start : Path) (before : List Char) :
    start.follow (before ++ Path.unify (separator ++ piece)) = start.follow before := by
  rw [unify_append, hseparator.unify, List.singleton_append, follow_append, h.follow]

/-- A piece that leads nowhere may be put where a name begins. -/
theorem parse_idle_before {start before piece separator after : String} (hstart : Start start)
    (hpiece : Idle piece) (hseparator : Separator separator)
    (hbefore : before = "" ∨ ∃ front last, Separator last ∧ before = front ++ last) :
    parse (start ++ (before ++ (piece ++ separator) ++ after)) =
      parse (start ++ (before ++ after)) := by
  obtain ⟨root, hread⟩ := hstart.parse
  rw [hread, hread, unify_append _ after, unify_append before, unify_append before after,
    List.append_assoc]
  rcases hbefore with rfl | ⟨front, last, hlast, rfl⟩
  · exact congrArg _ (hpiece.follow_before hseparator _ _)
  · rw [unify_append, hlast.unify, List.append_assoc, List.append_assoc, List.singleton_append,
      List.singleton_append, follow_append, follow_append, hpiece.follow_before hseparator]

/-- A piece that leads nowhere may be put where a name has ended. -/
theorem parse_idle_after {start before piece separator after : String} (hstart : Start start)
    (hpiece : Idle piece) (hseparator : Separator separator)
    (hafter : after = "" ∨ ∃ first back, Separator first ∧ after = first ++ back) :
    parse (start ++ (before ++ (separator ++ piece) ++ after)) =
      parse (start ++ (before ++ after)) := by
  obtain ⟨root, hread⟩ := hstart.parse
  rw [hread, hread, unify_append _ after, unify_append before, unify_append before after]
  rcases hafter with rfl | ⟨first, back, hfirst, rfl⟩
  · show Except.ok (follow _ (_ ++ [])) = Except.ok (follow _ (_ ++ []))
    rw [List.append_nil, List.append_nil, hpiece.follow_after hseparator]
  · rw [unify_append first, hfirst.unify, List.singleton_append, follow_append, follow_append,
      hpiece.follow_after hseparator]

/-- **Every path has one spelling.**  A text is read exactly if it is absolute, and what is read is
spelled canonically; a canonical text is read as itself.  The parent of a path is spelled as the
path without its last name, the roots are the paths without a parent, and going up from a path ends
with its root.  Joining always gives what an absolute text is read as, or what another text is read
as behind the directory.  Pieces that lead nowhere may be put between the names of an absolute text,
and before and behind them, and it is read as before. -/
theorem spelling_is_canonical :
    (∀ text, (¬ Absolute text ∧ parse text = .error (.invalidPath text)) ∨
      (Absolute text ∧ ∃ p, parse text = .ok p ∧ Canonical p.text)) ∧
    (∀ text, Canonical text → ∃ p, parse text = .ok p ∧ p.text = text) ∧
    (∀ p : Path, (p.parent? = none ↔ p.isRoot = true) ∧
      (p.isRoot = true ↔ ∃ front, p.text = front ++ "/") ∧
      ∀ q, p.parent? = some q → Canonical q.text ∧ p.text = q.opening ++ p.fileName) ∧
    (∀ p : Path, (∀ q ∈ p.ancestors, Canonical q.text) ∧ p.ancestors.head? = some p ∧
      p.ancestors.IsChain (fun q above => q.parent? = some above) ∧
      ∃ top, p.ancestors.getLast? = some top ∧ top.isRoot = true) ∧
    (∀ (dir : Path) text, Canonical (dir.join text).text ∧
      (Absolute text → parse text = .ok (dir.join text)) ∧
      (¬ Absolute text → parse (dir.opening ++ text) = .ok (dir.join text))) ∧
    (∀ start before piece separator after, Start start → Idle piece → Separator separator →
      ((before = "" ∨ ∃ front last, Separator last ∧ before = front ++ last) →
        parse (start ++ (before ++ (piece ++ separator) ++ after)) =
          parse (start ++ (before ++ after))) ∧
      ((after = "" ∨ ∃ first back, Separator first ∧ after = first ++ back) →
        parse (start ++ (before ++ (separator ++ piece) ++ after)) =
          parse (start ++ (before ++ after)))) := by
  refine ⟨fun text => ?_, fun text h => ?_, fun p => ⟨parent?_eq_none_iff, isRoot_iff_text, ?_⟩,
    fun p => ⟨fun q _ => canonical_text q, ?_⟩,
    fun dir text => ⟨canonical_text _, join_of_absolute dir, join_of_not_absolute dir⟩, ?_⟩
  · exact (parse_cases text).imp_right fun ⟨habsolute, p, hread⟩ =>
      ⟨habsolute, p, hread, canonical_text p⟩
  · obtain ⟨p, rfl⟩ := canonical_iff.1 h
    exact ⟨p, parse_text p, rfl⟩
  · exact fun q hparent => ⟨canonical_text q, text_of_parent? hparent⟩
  · obtain ⟨hhead, hchain, hlast⟩ := ancestors_spec p
    exact ⟨hhead, hchain, _, hlast, rfl⟩
  · exact fun start before piece separator after hstart hpiece hseparator =>
      ⟨parse_idle_before hstart hpiece hseparator, parse_idle_after hstart hpiece hseparator⟩

/-- On a drive, with a name and the way back before the last name. -/
theorem spelling_is_canonical_detour :
    Start "C:" ∧ Idle "b\\.." ∧ Separator "/" ∧ Canonical "c:/a/c.ts" ∧
      parse "C:/a/b\\../c.ts" = parse "C:/a/c.ts" ∧
      ∃ p, parse "c:/a/c.ts" = .ok p ∧ p.text = "c:/a/c.ts" := by
  have hstart : Start "C:" := .inr ⟨'C', by decide, by decide⟩
  have hpiece : Idle "b\\.." := @Idle.detour "b" "\\" (by decide) (.inr rfl)
  have hcanonical : Canonical "c:/a/c.ts" :=
    ⟨"c:/", ["a", "c.ts"], .inr ⟨'c', by decide, by decide⟩, by decide, by decide +kernel⟩
  obtain ⟨-, hread, -, -, -, hidle⟩ := spelling_is_canonical
  refine ⟨hstart, hpiece, .inl rfl, hcanonical, ?_, hread _ hcanonical⟩
  exact (hidle "C:" "/a/" "b\\.." "/" "c.ts" hstart hpiece (.inl rfl)).1
    (.inr ⟨"/a", "/", .inl rfl, by decide⟩)

end Codebase.Path
