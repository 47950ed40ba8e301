import Codebase.Reference
import Mathlib.Data.List.TakeWhile
/-!
# Scanning part by part

A semicolon at the end of a line is a stop.  No statement goes beyond it, since only a specifier can
contain the semicolon and no specifier contains the end of a line.  No directive goes beyond its
line.  What stands behind a stop sees no more of it than that no word ends there.  So what is
scanned up to a stop does not depend on what follows, nor the other way round.

* `after?_append`, `quoted?_append`, `fromClause?_append` — the pieces up to a stop.
* `statement?_append` — no statement crosses a stop.
* `modulesFrom_append` — the statements of a text with a stop in it.
* `directive?_append`, `directivesFrom_semicolon` — a semicolon behind a line changes no directive.
* `line_lt_of_mem_scan` — references stand on lines of the text.
* `scan_append_at_stop` — the references of a text with a stop in it.
-/

namespace Codebase.Reference

variable {stop : List Char}

/-! ## Stops -/

/-- A semicolon at the end of a line, or of the text. -/
inductive Stop : List Char → Prop
  | atEnd : Stop [';']
  | atLineEnd (rest : List Char) : Stop (';' :: '\n' :: rest)

theorem Stop.exists_cons (h : Stop stop) : ∃ rest, stop = ';' :: rest := by
  cases h with
  | atEnd => exact ⟨[], rfl⟩
  | atLineEnd rest => exact ⟨'\n' :: rest, rfl⟩

/-- A word without a semicolon does not reach into a stop. -/
theorem after?_append (h : Stop stop) {word : String} (hword : ';' ∉ word.toList)
    (s : List Char) : after? word (s ++ stop) = (after? word s).map (· ++ stop) := by
  obtain ⟨rest, rfl⟩ := h.exists_cons
  have hprefix : word.toList <+: s ++ ';' :: rest ↔ word.toList <+: s := by
    refine ⟨fun hlong => ?_, fun hshort => hshort.trans (List.prefix_append _ _)⟩
    rcases List.prefix_or_prefix_of_prefix hlong (List.prefix_append s _) with
      hshort | ⟨more, hmore⟩
    · exact hshort
    · rw [← hmore, List.prefix_append_right_inj] at hlong
      cases more with
      | nil => exact ⟨[], by rw [← hmore, List.append_nil, List.append_nil]⟩
      | cons c more =>
        -- what goes beyond the text starts with the semicolon
        obtain ⟨rfl, -⟩ := List.cons_prefix_cons.1 hlong
        exact absurd (hmore ▸ List.mem_append_right s List.mem_cons_self) hword
  unfold after?
  simp only [List.isPrefixOf_iff_prefix, hprefix]
  split
  · rename_i hshort
    have hlength : word.length ≤ s.length := String.length_toList ▸ hshort.length_le
    rw [List.drop_append_of_le_length hlength]
    rfl
  · rfl

theorem skipBlanks_append (h : Stop stop) (s : List Char) :
    skipBlanks (s ++ stop) = skipBlanks s ++ stop := by
  obtain ⟨rest, rfl⟩ := h.exists_cons
  unfold skipBlanks
  rw [List.dropWhile_append]
  split
  · rename_i hblank
    rw [List.isEmpty_iff.1 hblank]
    rfl
  · rfl

/-! ## Statements up to a stop -/

/-- The same specifier when more text follows. -/
def Quoted.followedBy (quoted : Quoted) (text : List Char) : Quoted :=
  { quoted with start := quoted.start ++ text, rest := quoted.rest ++ text }

/-- No specifier is open at a stop and closed behind it. -/
theorem quoted?_append (h : Stop stop) (s : List Char) :
    quoted? (s ++ stop) = (quoted? s).map (·.followedBy stop) := by
  cases s with
  | nil =>
    obtain ⟨rest, rfl⟩ := h.exists_cons
    unfold quoted?
    simp only [List.nil_append]
    split <;> rfl
  | cons q text =>
    have hsplit := List.takeWhile_append_dropWhile (p := isSpecifierChar) (l := text)
    have hinside : ∀ c ∈ text.takeWhile isSpecifierChar, isSpecifierChar c = true :=
      fun c hc => List.mem_takeWhile_imp hc
    unfold quoted?
    simp only [List.cons_append]
    cases hclose : text.dropWhile isSpecifierChar with
    | nil =>
      rw [hclose, List.append_nil] at hsplit
      rw [hsplit] at hinside
      rw [List.dropWhile_append_of_pos hinside, List.takeWhile_append_of_pos hinside]
      cases h with
      | atEnd => rfl
      | atLineEnd rest =>
        show (if isQuote q && isQuote '\n' && _ then _ else none) = none
        rw [show isQuote '\n' = false from rfl, Bool.and_false]
        rfl
    | cons close rest =>
      have hstops : isSpecifierChar close = false := by
        have hhead := List.head?_dropWhile_not isSpecifierChar text
        rw [hclose] at hhead
        exact hhead
      have htext : text ++ stop = text.takeWhile isSpecifierChar ++ close :: (rest ++ stop) := by
        rw [← List.cons_append, ← List.append_assoc, ← hclose, hsplit]
      rw [htext, List.dropWhile_append_of_pos hinside, List.takeWhile_append_of_pos hinside,
        List.dropWhile_cons_of_neg (by rw [hstops]; exact Bool.false_ne_true),
        List.takeWhile_cons_of_neg (by rw [hstops]; exact Bool.false_ne_true), List.append_nil,
        ← htext]
      simp only
      split <;> rfl

theorem startsWithWordChar_append (h : Stop stop) (s : List Char) :
    startsWithWordChar (s ++ stop) = startsWithWordChar s := by
  cases s with
  | nil =>
    obtain ⟨rest, rfl⟩ := h.exists_cons
    show isWordChar ';' = false
    decide
  | cons c rest => rfl

theorem quoted?_skipBlanks_append (h : Stop stop) (s : List Char) :
    quoted? (skipBlanks (s ++ stop)) = (quoted? (skipBlanks s)).map (·.followedBy stop) := by
  rw [skipBlanks_append h, quoted?_append h]

section

variable {α β : Type} {piece : Option α} {extend : α → α} {f g : α → Option β}

/-- Readers that go on behind a piece come to the same if they do so on what is left of the text,
extended for the one and as it is for the other. -/
theorem bind_map_congr (h : ∀ found, f (extend found) = g found) :
    (piece.map extend).bind f = piece.bind g := by
  rw [Option.bind_map]
  exact congrArg _ (funext h)

theorem bind_map_map {extendResult : β → β}
    (h : ∀ found, f (extend found) = (g found).map extendResult) :
    (piece.map extend).bind f = (piece.bind g).map extendResult := by
  rw [Option.map_bind]
  exact bind_map_congr h

end

theorem fromClause?_append (h : Stop stop) (s : List Char) :
    ∀ previous, fromClause? previous (s ++ stop) =
      (fromClause? previous s).map (·.followedBy stop) := by
  induction s with
  | nil =>
    intro previous
    obtain ⟨rest, rfl⟩ := h.exists_cons
    have hword : after? "from" (';' :: rest) = none := rfl
    simp only [List.nil_append, fromClause?, hword, Option.bind_eq_bind, Option.bind_none, ite_self,
      Bool.or_eq_true, decide_true, or_true, ↓reduceIte, Option.or_none, Option.map_none]
  | cons c s ih =>
    intro previous
    have hhere : ((after? "from" (c :: (s ++ stop))).bind fun rest => quoted? (skipBlanks rest)) =
        ((after? "from" (c :: s)).bind fun rest => quoted? (skipBlanks rest)).map
          (·.followedBy stop) := by
      rw [← List.cons_append, after?_append h (by decide)]
      exact bind_map_map (quoted?_skipBlanks_append h)
    simp only [List.cons_append, fromClause?, Option.bind_eq_bind, hhere, ih, Option.map_or]
    split <;> split <;> rfl

theorem withClause?_append (h : Stop stop) (s : List Char) :
    withClause? (s ++ stop) = (withClause? s).map (·.followedBy stop) := by
  unfold withClause?
  rw [after?_append h (by decide), after?_append h (by decide), ← Option.map_or]
  refine bind_map_map fun rest => ?_
  rw [startsWithWordChar_append h, fromClause?_append h]
  split <;> rfl

theorem bare?_append (h : Stop stop) (s : List Char) :
    bare? (s ++ stop) = (bare? s).map (·.followedBy stop) := by
  unfold bare?
  rw [after?_append h (by decide)]
  exact bind_map_map (quoted?_skipBlanks_append h)

theorem call?_append (h : Stop stop) (s : List Char) :
    call? (s ++ stop) = (call? s).map (·.followedBy stop) := by
  unfold call?
  rw [after?_append h (by decide), after?_append h (by decide), ← Option.map_or]
  refine bind_map_map fun rest => ?_
  rw [skipBlanks_append h, after?_append h (by decide)]
  refine bind_map_map fun inside => ?_
  rw [quoted?_skipBlanks_append h]
  refine bind_map_map fun quoted => ?_
  rw [show (quoted.followedBy stop).rest = quoted.rest ++ stop from rfl, skipBlanks_append h,
    after?_append h (by decide)]
  exact bind_map_map fun rest => rfl

/-- No statement crosses a stop, and none needs what is behind it. -/
theorem statement?_append (h : Stop stop) (previous : Option Char) (s : List Char) :
    statement? previous (s ++ stop) = (statement? previous s).map (·.followedBy stop) := by
  unfold statement?
  rw [withClause?_append h, bare?_append h, call?_append h, ← Option.map_or, ← Option.map_or]
  split <;> rfl

/-! ## The statements of a text -/

/-- The same reference when the text stands `lines` lines further down. -/
def below (lines : Nat) (reference : Reference) : Reference :=
  { reference with line := reference.line + lines }

theorem nextLine_add_count (c : Char) (rest : List Char) (line : Nat) :
    (if c = '\n' then line + 1 else line) + rest.count '\n' = line + (c :: rest).count '\n' := by
  rw [List.count_cons]
  by_cases hc : c = '\n'
  · rw [if_pos hc, if_pos (beq_iff_eq.2 hc), Nat.add_right_comm, Nat.add_assoc]
  · rw [if_neg hc, if_neg (mt beq_iff_eq.1 hc), Nat.add_zero]

theorem modulesFrom_append (text : List Char) :
    ∀ (s : List Char) (previous : Option Char) (line skip : Nat), skip ≤ s.length →
      modulesFrom previous line skip (s ++ ';' :: '\n' :: text) =
        modulesFrom previous line skip s ++
          modulesFrom (some '\n') (line + s.count '\n' + 1) 0 text := by
  intro s
  induction s with
  | nil =>
    intro previous line skip hskip
    obtain rfl : skip = 0 := Nat.le_zero.1 hskip
    have hsemicolon : statement? previous (';' :: '\n' :: text) = none := by
      unfold statement?
      split <;> rfl
    have hend : statement? (some ';') ('\n' :: text) = none := by
      unfold statement?
      split <;> rfl
    show modulesFrom previous line 0 (';' :: '\n' :: text) = _
    simp only [modulesFrom, hsemicolon, hend]
    rfl
  | cons c s ih =>
    intro previous line skip hskip
    have hlines := nextLine_add_count c s line
    cases skip with
    | succ skip =>
      simp only [List.cons_append, modulesFrom]
      rw [ih _ _ _ (Nat.le_of_succ_le_succ hskip), hlines]
    | zero =>
      have hfound := statement?_append (.atLineEnd text) previous (c :: s)
      simp only [List.cons_append] at hfound
      simp only [List.cons_append, modulesFrom, hfound]
      cases statement? previous (c :: s) with
      | none =>
        simp only [Option.map_none]
        rw [ih _ _ _ (Nat.zero_le _), hlines]
      | some found =>
        -- the stop is counted on both sides, so the same characters are skipped
        have hskip : (s ++ ';' :: '\n' :: text).length -
            (found.rest ++ ';' :: '\n' :: text).length = s.length - found.rest.length := by
          rw [List.length_append, List.length_append, Nat.add_sub_add_right]
        have hbefore : (c :: (s ++ ';' :: '\n' :: text)).take
            ((c :: (s ++ ';' :: '\n' :: text)).length -
              (found.start ++ ';' :: '\n' :: text).length) =
            (c :: s).take ((c :: s).length - found.start.length) := by
          rw [← List.cons_append, List.length_append, List.length_append, Nat.add_sub_add_right]
          exact List.take_append_of_le_length (Nat.sub_le _ _)
        simp only [Option.map_some, Quoted.followedBy, hskip, hbefore]
        rw [ih _ _ _ (Nat.sub_le _ _), hlines]
        rfl

/-- The end of a line is no part of a word. -/
theorem modulesFrom_lineEnd (line : Nat) (text : List Char) :
    modulesFrom (some '\n') line 0 text = modulesFrom none line 0 text := by
  cases text with
  | nil => rfl
  | cons c rest =>
    have hword : isWordChar '\n' = false := by decide
    have hstatement : statement? (some '\n') (c :: rest) = statement? none (c :: rest) := by
      simp only [statement?, Option.any_some, Option.any_none, hword]
    simp only [modulesFrom, hstatement]

theorem modulesFrom_below (lines : Nat) (text : List Char) :
    ∀ (previous : Option Char) (line skip : Nat), modulesFrom previous (line + lines) skip text =
      (modulesFrom previous line skip text).map (below lines) := by
  induction text with
  | nil => exact fun _ _ _ => rfl
  | cons c rest ih =>
    intro previous line skip
    have hnext : (if c = '\n' then line + lines + 1 else line + lines) =
        (if c = '\n' then line + 1 else line) + lines := by
      split <;> omega
    cases skip with
    | succ skip => simp only [modulesFrom, hnext, ih]
    | zero =>
      simp only [modulesFrom, hnext, ih]
      cases statement? previous (c :: rest) with
      | none => rfl
      | some found => simp only [List.map_cons, below, Nat.add_right_comm]

/-- Every statement stands on a line of the text. -/
theorem line_le_of_mem_modulesFrom (text : List Char) :
    ∀ {previous : Option Char} {line skip : Nat} {reference : Reference},
      reference ∈ modulesFrom previous line skip text →
      reference.line ≤ line + text.count '\n' := by
  induction text with
  | nil => exact fun hr => absurd hr List.not_mem_nil
  | cons c rest ih =>
    intro previous line skip reference hr
    have hlines := nextLine_add_count c rest line
    cases skip with
    | succ skip => exact hlines ▸ ih hr
    | zero =>
      simp only [modulesFrom] at hr
      cases hfound : statement? previous (c :: rest) with
      | none =>
        rw [hfound] at hr
        exact hlines ▸ ih hr
      | some found =>
        rw [hfound] at hr
        rcases List.mem_cons.1 hr with rfl | hr
        · exact Nat.add_le_add_left ((List.take_sublist _ _).count_le _) _
        · exact hlines ▸ ih hr

/-! ## The directives of a text -/

theorem attribute?_append (h : Stop stop) (s : List Char) :
    attribute? (s ++ stop) = (attribute? s).map fun (kind, rest) => (kind, rest ++ stop) := by
  unfold attribute?
  rw [after?_append h (by decide), after?_append h (by decide), Option.map_or]
  simp only [Option.map_map]
  rfl

theorem closes_append (h : Stop stop) (s : List Char) : closes (s ++ stop) = closes s := by
  unfold closes
  rw [after?_append h (by decide), after?_append h (by decide), ← Option.map_or,
    Option.isSome_map]

theorem startsWithBlank_append (h : Stop stop) (s : List Char) :
    directive?.startsWithBlank (s ++ stop) = directive?.startsWithBlank s := by
  cases s with
  | nil =>
    obtain ⟨rest, rfl⟩ := h.exists_cons
    rfl
  | cons c rest => rfl

/-- No directive has a semicolon in it but inside its quotes. -/
theorem directive?_append (h : Stop stop) (s : List Char) :
    directive? (s ++ stop) = directive? s := by
  unfold directive?
  rw [skipBlanks_append h, after?_append h (by decide)]
  refine bind_map_congr fun rest => ?_
  rw [skipBlanks_append h, after?_append h (by decide)]
  refine bind_map_congr fun rest => ?_
  rw [startsWithBlank_append h]
  split
  · rw [skipBlanks_append h, attribute?_append h]
    refine bind_map_congr fun (kind, rest) => ?_
    dsimp only
    rw [skipBlanks_append h, after?_append h (by decide)]
    refine bind_map_congr fun rest => ?_
    rw [quoted?_skipBlanks_append h]
    refine bind_map_congr fun quoted => ?_
    rw [show (quoted.followedBy stop).rest = quoted.rest ++ stop from rfl, skipBlanks_append h,
      closes_append h]
    rfl
  · rfl

theorem directivesFrom_append (below : List (List Char)) :
    ∀ (lines : List (List Char)) (line : Nat), directivesFrom line (lines ++ below) =
      directivesFrom line lines ++ directivesFrom (line + lines.length) below := by
  intro lines
  induction lines with
  | nil => exact fun _ => rfl
  | cons text rest ih =>
    intro line
    simp only [List.cons_append, directivesFrom, ih, List.length_cons, Nat.add_assoc,
      Nat.add_comm 1]
    split <;> rfl

theorem directivesFrom_below (k : Nat) (lines : List (List Char)) :
    ∀ line, directivesFrom (line + k) lines = (directivesFrom line lines).map (below k) := by
  induction lines with
  | nil => exact fun _ => rfl
  | cons text rest ih =>
    intro line
    simp only [directivesFrom, Nat.add_right_comm line k 1, ih]
    split <;> rfl

/-- Every directive stands on one of the lines. -/
theorem line_lt_of_mem_directivesFrom {reference : Reference} (lines : List (List Char)) :
    ∀ line, reference ∈ directivesFrom line lines → reference.line < line + lines.length := by
  induction lines with
  | nil => exact fun _ hr => absurd hr List.not_mem_nil
  | cons text rest ih =>
    intro line hr
    have hbelow (hr : reference ∈ directivesFrom (line + 1) rest) :
        reference.line < line + (text :: rest).length := by
      have hline := ih _ hr
      rw [List.length_cons]
      omega
    simp only [directivesFrom] at hr
    split at hr
    · rcases List.mem_cons.1 hr with rfl | hr
      · exact Nat.lt_add_of_pos_right (Nat.succ_pos _)
      · exact hbelow hr
    · exact hbelow hr

theorem length_splitOn (s : List Char) : (s.splitOn '\n').length = s.count '\n' + 1 := by
  induction s with
  | nil => rfl
  | cons c s ih =>
    rw [List.splitOn_cons_eq_if_modifyHead, List.count_cons]
    split
    · rw [List.length_cons, ih]
    · rw [List.length_modifyHead, ih, Nat.add_zero]

/-- What is put behind a text goes to its last line. -/
theorem exists_splitOn_append (s : List Char) : ∃ lines last, ∀ more, '\n' ∉ more →
    (s ++ more).splitOn '\n' = lines ++ [last ++ more] := by
  induction s with
  | nil => exact ⟨[], [], fun more hmore => List.splitOn_eq_singleton hmore⟩
  | cons c s ih =>
    obtain ⟨lines, last, hsplit⟩ := ih
    by_cases hc : c = '\n'
    · refine ⟨[] :: lines, last, fun more hmore => ?_⟩
      rw [List.cons_append, List.splitOn_cons_eq_if_modifyHead, if_pos (beq_iff_eq.2 hc),
        hsplit more hmore, List.cons_append]
    · cases lines with
      | nil =>
        refine ⟨[], c :: last, fun more hmore => ?_⟩
        rw [List.cons_append, List.splitOn_cons_eq_if_modifyHead, if_neg (by simpa using hc),
          hsplit more hmore]
        rfl
      | cons first lines =>
        refine ⟨(c :: first) :: lines, last, fun more hmore => ?_⟩
        rw [List.cons_append, List.splitOn_cons_eq_if_modifyHead, if_neg (by simpa using hc),
          hsplit more hmore]
        rfl

theorem directivesFrom_semicolon (line : Nat) (s : List Char) :
    directivesFrom line ((s ++ [';']).splitOn '\n') = directivesFrom line (s.splitOn '\n') := by
  obtain ⟨lines, last, hsplit⟩ := exists_splitOn_append s
  have hwhole := hsplit [] List.not_mem_nil
  rw [List.append_nil, List.append_nil] at hwhole
  rw [hsplit [';'] (by decide), hwhole, directivesFrom_append, directivesFrom_append]
  simp only [directivesFrom, directive?_append .atEnd]

end Codebase.Reference

namespace Codebase.References

open Reference

/-- The number of lines of a text. -/
def lineCount (text : String) : Nat := text.toList.count '\n' + 1

/-- Every reference stands on a line of its text. -/
theorem line_lt_of_mem_scan {text : String} {reference : Reference}
    (hr : reference ∈ (scan text).all) : reference.line < lineCount text := by
  rcases List.mem_append.1 hr with hr | hr
  · have hline := line_le_of_mem_modulesFrom _ hr
    rw [Nat.zero_add] at hline
    exact Nat.lt_succ_of_le hline
  · have hline := line_lt_of_mem_directivesFrom _ 0 hr
    rw [length_splitOn, Nat.zero_add] at hline
    exact hline

/-- **A text is scanned part by part when a statement ends between the parts**: the references of
the first part, then those of the second, as far down as the first has lines.  Their lines are lines
of the whole text, so they are as small as the text is short. -/
theorem scan_append_at_stop (first second : String) :
    (scan (first ++ ";\n" ++ second)).modules =
      (scan first).modules ++ (scan second).modules.map (below (lineCount first)) ∧
    (scan (first ++ ";\n" ++ second)).directives =
      (scan first).directives ++ (scan second).directives.map (below (lineCount first)) ∧
    ∀ reference ∈ (scan (first ++ ";\n" ++ second)).all,
      reference.line < lineCount first + lineCount second := by
  have htext : (first ++ ";\n" ++ second).toList =
      first.toList ++ ';' :: '\n' :: second.toList := by
    rw [String.toList_append, String.toList_append, List.append_assoc]
    rfl
  refine ⟨?modules, ?directives, fun reference hr => ?lines⟩
  case modules =>
    show modulesFrom none 0 0 (first ++ ";\n" ++ second).toList = _
    rw [htext, modulesFrom_append _ _ _ _ _ (Nat.zero_le _), modulesFrom_lineEnd, Nat.add_assoc,
      modulesFrom_below]
    rfl
  case directives =>
    show directivesFrom 0 ((first ++ ";\n" ++ second).toList.splitOn '\n') = _
    rw [htext, ← List.singleton_append, ← List.append_assoc, List.splitOn_append_cons_self,
      directivesFrom_append, directivesFrom_semicolon, length_splitOn, List.count_append,
      directivesFrom_below]
    rfl
  case lines =>
    have hline := line_lt_of_mem_scan hr
    rw [lineCount, htext, List.count_append, List.count_cons_of_ne (by decide),
      List.count_cons_self] at hline
    unfold lineCount
    omega

/-- The import that is not closed before the stop takes nothing from the one behind it. -/
example : (scan ("import a from 'a" ++ ";\n" ++ "import 'b';")).modules = [⟨"b", .module, 1⟩] := by
  decide

end Codebase.References
