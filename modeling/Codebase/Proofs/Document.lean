import Codebase.Document
import Mathlib.Data.List.Basic
/-!
# Places of a text and edits between them

A location names a place of a text if the text has its line and the line has its offset.  Taken in
their order, the locations of a text are its places from the first to the last, each once.  So they
are the boundaries between its characters, and an edit between two of them cuts out whole
characters.

* `isSome_offsetFrom?_iff` — the places are those that the lines have.
* `offsetFrom?_cons_eq_some_iff` — the places of a text by those of the text behind one character.
* `add_le_of_offsetFrom?`, `lt_of_offsetFrom?`, `exists_offsetFrom?` — how far and in which order
  the places stand, and that none is missing.
* `offsetFrom?_append` — what stands behind a place does not matter.
* `isSome_byteOffset?_iff`, `byteOffset?_lt_iff`, `isValid_iff_exists_byteOffset?` — the same of
  locations and bytes.
* `apply_range_eq_ok_iff` — the edits that succeed, and what they make of a text.
* `exists_apply_range_eq_original` — every edit can be taken back.
* `range_edits_are_exact` — what this comes to.
-/

namespace Codebase

namespace Location

/-- A location of a text: there is such a line, and the offset is one of a character of the line or
the one behind the last. -/
def Valid (content : String) (location : Location) : Prop :=
  1 ≤ location.line ∧ 1 ≤ location.offset ∧
    ∃ line, (content.toList.splitOn '\n')[location.line - 1]? = some line ∧
      location.offset ≤ line.length + 1

/-- The order of locations: by line, and on one line by offset. -/
def Before (first second : Location) : Prop :=
  first.line < second.line ∨ first.line = second.line ∧ first.offset < second.offset

/-- One of two locations comes first unless they are the same. -/
theorem before_trichotomy (first second : Location) :
    first.Before second ∨ first = second ∨ second.Before first := by
  rw [Location.mk.injEq]
  unfold Before
  omega

/-- Line and offset are numbers of 32 bits. -/
def Fits (location : Location) : Prop :=
  location.line ≤ 0xffffffff ∧ location.offset ≤ 0xffffffff

end Location

namespace TextChange

variable {text rest : List Char} {line column line' column' n m : Nat} {a b : Location}

/-! ## Places, counted from zero -/

/-- The places of a text are those that its lines have. -/
theorem isSome_offsetFrom?_iff (text : List Char) : ∀ line column,
    (offsetFrom? line column text).isSome ↔
      ∃ chars, (text.splitOn '\n')[line]? = some chars ∧ column ≤ chars.length := by
  induction text with
  | nil =>
    intro line column
    cases line with
    | zero => cases column <;> simp [offsetFrom?]
    | succ line => simp [offsetFrom?]
  | cons c rest ih =>
    intro line column
    obtain ⟨first, lines, hlines⟩ := List.exists_cons_of_ne_nil (List.splitOn_ne_nil '\n' rest)
    rw [List.splitOn_cons_eq_if_modifyHead]
    by_cases hc : c = '\n'
    · rw [if_pos (beq_iff_eq.2 hc)]
      cases line with
      | zero => cases column <;> simp [offsetFrom?, hc]
      | succ line =>
        simp only [offsetFrom?, if_pos hc, Option.isSome_map, List.getElem?_cons_succ]
        exact ih line column
    · rw [if_neg (mt beq_iff_eq.1 hc), hlines, List.modifyHead_cons]
      cases line with
      | zero =>
        cases column with
        | zero => simp [offsetFrom?]
        | succ column =>
          have hrest := ih 0 column
          simp only [hlines, List.getElem?_cons_zero, Option.some.injEq, exists_eq_left'] at hrest
          simp only [offsetFrom?, if_neg hc, Option.isSome_map, List.getElem?_cons_zero,
            Option.some.injEq, exists_eq_left', List.length_cons, Nat.add_le_add_iff_right]
          exact hrest
      | succ line =>
        have hrest := ih (line + 1) column
        simp only [hlines, List.getElem?_cons_succ] at hrest
        simp only [offsetFrom?, if_neg hc, Option.isSome_map, List.getElem?_cons_succ]
        exact hrest

/-- A place of a text is its start, or a place of the rest: one line further down behind the end of
a line, and on the first line one column further behind any other character. -/
theorem offsetFrom?_cons_eq_some_iff {c : Char} : offsetFrom? line column (c :: rest) = some n ↔
    line = 0 ∧ column = 0 ∧ n = 0 ∨
      ∃ line' column' m, offsetFrom? line' column' rest = some m ∧ n = m + 1 ∧
        if c = '\n' then line = line' + 1 ∧ column = column'
        else line = line' ∧
          (line' = 0 ∧ column = column' + 1 ∨ 0 < line' ∧ column = column') := by
  constructor
  · intro h
    match line, column with
    | 0, 0 => exact .inl ⟨rfl, rfl, (Option.some.inj h).symm⟩
    | 0, column + 1 =>
      simp only [offsetFrom?] at h
      split at h
      · cases h
      · rename_i hc
        obtain ⟨m, hm, rfl⟩ := Option.map_eq_some_iff.1 h
        exact .inr ⟨0, column, m, hm, rfl, (if_neg hc).mpr ⟨rfl, .inl ⟨rfl, rfl⟩⟩⟩
    | line + 1, column =>
      obtain ⟨m, hm, rfl⟩ := Option.map_eq_some_iff.1 h
      refine .inr ⟨_, column, m, hm, rfl, ?_⟩
      split
      · exact ⟨rfl, rfl⟩
      · exact ⟨rfl, .inr ⟨Nat.succ_pos line, rfl⟩⟩
  · rintro (⟨rfl, rfl, rfl⟩ | ⟨line', column', m, hm, rfl, hplace⟩)
    · rfl
    · split at hplace
      · rename_i hc
        obtain ⟨rfl, rfl⟩ := hplace
        simp only [offsetFrom?, if_pos hc, hm, Option.map_some]
      · rename_i hc
        obtain ⟨rfl, ⟨rfl, rfl⟩ | ⟨hlower, rfl⟩⟩ := hplace
        · simp only [offsetFrom?, if_neg hc, hm, Option.map_some]
        · obtain ⟨line, rfl⟩ := Nat.exists_eq_add_of_lt hlower
          simp only [offsetFrom?, if_neg hc, hm, Option.map_some]

theorem offsetFrom?_nil_eq_some_iff :
    offsetFrom? line column [] = some n ↔ line = 0 ∧ column = 0 ∧ n = 0 := by
  simp only [offsetFrom?, Option.ite_none_right_eq_some, Option.some.injEq, and_assoc,
    eq_comm (a := n)]

/-- A place stands behind as many characters as its line and column ask for, and in the text. -/
theorem add_le_of_offsetFrom? (h : offsetFrom? line column text = some n) :
    line + column ≤ n ∧ n ≤ text.length := by
  induction text generalizing line column n with
  | nil =>
    have hstart := offsetFrom?_nil_eq_some_iff.1 h
    omega
  | cons c rest ih =>
    rw [List.length_cons]
    rcases offsetFrom?_cons_eq_some_iff.1 h with hstart | ⟨line', column', m, hm, rfl, hplace⟩
    · omega
    · have hrest := ih hm
      split at hplace <;> omega

/-- What comes later, by lines and then by columns, stands further back. -/
theorem lt_of_offsetFrom? (h : offsetFrom? line column text = some n)
    (h' : offsetFrom? line' column' text = some m)
    (hbefore : line < line' ∨ line = line' ∧ column < column') : n < m := by
  induction text generalizing line column line' column' n m with
  | nil =>
    have hfirst := offsetFrom?_nil_eq_some_iff.1 h
    have hsecond := offsetFrom?_nil_eq_some_iff.1 h'
    omega
  | cons c rest ih =>
    rcases offsetFrom?_cons_eq_some_iff.1 h' with hstart | ⟨_, _, _, hm, rfl, hplace'⟩
    · omega
    rcases offsetFrom?_cons_eq_some_iff.1 h with hstart | ⟨_, _, _, hn, rfl, hplace⟩
    · omega
    refine Nat.succ_lt_succ (ih hn hm ?_)
    split at hplace
    · rw [if_pos ‹_›] at hplace'
      omega
    · rw [if_neg ‹_›] at hplace'
      omega

/-- Every number of characters up to that of the text stands before some place. -/
theorem exists_offsetFrom? (hn : n ≤ text.length) :
    ∃ line column, offsetFrom? line column text = some n := by
  induction text generalizing n with
  | nil => exact ⟨0, 0, offsetFrom?_nil_eq_some_iff.2 ⟨rfl, rfl, Nat.le_zero.1 hn⟩⟩
  | cons c rest ih =>
    cases n with
    | zero => exact ⟨0, 0, rfl⟩
    | succ n =>
      obtain ⟨line, column, hplace⟩ := ih (Nat.le_of_succ_le_succ hn)
      by_cases hc : c = '\n'
      · exact ⟨line + 1, column, offsetFrom?_cons_eq_some_iff.2
          (.inr ⟨line, column, n, hplace, rfl, (if_pos hc).mpr ⟨rfl, rfl⟩⟩)⟩
      · rcases Nat.eq_zero_or_pos line with rfl | hlower
        · exact ⟨0, column + 1, offsetFrom?_cons_eq_some_iff.2 (.inr
            ⟨0, column, n, hplace, rfl, (if_neg hc).mpr ⟨rfl, .inl ⟨rfl, rfl⟩⟩⟩)⟩
        · exact ⟨line, column, offsetFrom?_cons_eq_some_iff.2 (.inr
            ⟨line, column, n, hplace, rfl, (if_neg hc).mpr ⟨rfl, .inr ⟨hlower, rfl⟩⟩⟩)⟩

/-- Which place the end of a text is does not depend on what follows. -/
theorem offsetFrom?_append (h : offsetFrom? line column (text ++ rest) = some text.length)
    (rest' : List Char) : offsetFrom? line column (text ++ rest') = some text.length := by
  induction text generalizing line column with
  | nil =>
    have hplace := add_le_of_offsetFrom? h
    rw [List.length_nil] at hplace
    obtain ⟨rfl, rfl⟩ : line = 0 ∧ column = 0 := by omega
    cases rest' <;> rfl
  | cons c text ih =>
    refine offsetFrom?_cons_eq_some_iff.2 ?_
    refine (offsetFrom?_cons_eq_some_iff.1 h).imp_right ?_
    rintro ⟨line', column', m, hm, hlength, hplace⟩
    obtain rfl : m = text.length := (Nat.succ.inj hlength).symm
    exact ⟨line', column', _, ih hm, hlength, hplace⟩

/-! ## Locations -/

theorem offsetOf?_eq_some_iff : offsetOf? text a = some n ↔
    ∃ line column, a = ⟨line + 1, column + 1⟩ ∧ offsetFrom? line column text = some n := by
  obtain ⟨line, offset⟩ := a
  unfold offsetOf?
  constructor
  · intro h
    split at h
    · rename_i hline hoffset
      obtain rfl : line = _ := hline
      obtain rfl : offset = _ := hoffset
      exact ⟨_, _, rfl, h⟩
    · cases h
  · rintro ⟨line, column, ha, h⟩
    cases ha
    exact h

theorem isSome_offsetOf?_iff {content : String} :
    (offsetOf? content.toList a).isSome ↔ a.Valid content := by
  obtain ⟨line, offset⟩ := a
  unfold offsetOf? Location.Valid
  cases line with
  | zero => simp
  | succ line =>
    cases offset with
    | zero => simp
    | succ column =>
      simp only [isSome_offsetFrom?_iff, Nat.le_add_left, true_and, Nat.add_sub_cancel,
        Nat.add_le_add_iff_right]

theorem offsetOf?_le_length (h : offsetOf? text a = some n) : n ≤ text.length := by
  obtain ⟨line, column, -, h⟩ := offsetOf?_eq_some_iff.1 h
  exact (add_le_of_offsetFrom? h).2

theorem offsetOf?_lt_of_before (ha : offsetOf? text a = some n) (hb : offsetOf? text b = some m)
    (hbefore : a.Before b) : n < m := by
  obtain ⟨line, column, rfl, ha⟩ := offsetOf?_eq_some_iff.1 ha
  obtain ⟨line', column', rfl, hb⟩ := offsetOf?_eq_some_iff.1 hb
  refine lt_of_offsetFrom? ha hb ?_
  simpa only [Location.Before, Nat.add_lt_add_iff_right, Nat.add_right_cancel_iff] using hbefore

/-- The locations of a text stand in it as they are ordered. -/
theorem offsetOf?_lt_iff (ha : offsetOf? text a = some n) (hb : offsetOf? text b = some m) :
    n < m ↔ a.Before b := by
  refine ⟨fun hlt => ?_, offsetOf?_lt_of_before ha hb⟩
  rcases Location.before_trichotomy a b with hbefore | rfl | hafter
  · exact hbefore
  · rw [Option.some.inj (ha.symm.trans hb)] at hlt
    exact absurd hlt (Nat.lt_irrefl m)
  · exact absurd hlt (Nat.lt_asymm (offsetOf?_lt_of_before hb ha hafter))

/-- Every place of a text has a location. -/
theorem exists_offsetOf? (hn : n ≤ text.length) : ∃ a, offsetOf? text a = some n := by
  obtain ⟨line, column, hplace⟩ := exists_offsetFrom? hn
  exact ⟨⟨line + 1, column + 1⟩, hplace⟩

theorem offsetOf?_append (h : offsetOf? (text ++ rest) a = some text.length)
    (rest' : List Char) : offsetOf? (text ++ rest') a = some text.length := by
  obtain ⟨line, column, rfl, h⟩ := offsetOf?_eq_some_iff.1 h
  exact offsetFrom?_append h rest'

/-! ## Bytes -/

variable {content edited before cut after inserted : String} {path : Path} {start stop : Location}

/-- The number of bytes before a location, if the text has that location. -/
def byteOffset? (content : String) (a : Location) : Option Nat :=
  (offsetOf? content.toList a).map fun n =>
    (String.ofList (content.toList.take n)).utf8ByteSize

theorem utf8ByteSize_take_lt (hnm : n < m) (hm : m ≤ text.length) :
    (String.ofList (text.take n)).utf8ByteSize < (String.ofList (text.take m)).utf8ByteSize := by
  obtain ⟨k, rfl⟩ := Nat.exists_eq_add_of_le (Nat.le_of_lt hnm)
  have hmore : String.ofList ((text.drop n).take k) ≠ "" := by
    intro hempty
    have hlength := congrArg String.length hempty
    rw [String.length_ofList, List.length_take, List.length_drop, String.length_empty] at hlength
    omega
  rw [List.take_add, String.ofList_append, String.utf8ByteSize_append]
  exact Nat.lt_add_of_pos_right (Nat.pos_of_ne_zero (mt String.utf8ByteSize_eq_zero_iff.1 hmore))

theorem isSome_byteOffset?_iff : (byteOffset? content a).isSome ↔ a.Valid content := by
  unfold byteOffset?
  rw [Option.isSome_map, isSome_offsetOf?_iff]

theorem byteOffset?_lt_iff (ha : byteOffset? content a = some n)
    (hb : byteOffset? content b = some m) : n < m ↔ a.Before b := by
  obtain ⟨i, hi, rfl⟩ := Option.map_eq_some_iff.1 ha
  obtain ⟨j, hj, rfl⟩ := Option.map_eq_some_iff.1 hb
  rw [← offsetOf?_lt_iff hi hj]
  rcases Nat.lt_trichotomy i j with hlt | rfl | hgt
  · exact iff_of_true (utf8ByteSize_take_lt hlt (offsetOf?_le_length hj)) hlt
  · exact iff_of_false (Nat.lt_irrefl _) (Nat.lt_irrefl _)
  · exact iff_of_false (Nat.lt_asymm (utf8ByteSize_take_lt hgt (offsetOf?_le_length hi)))
      (Nat.lt_asymm hgt)

/-- The bytes before locations are the boundaries between characters. -/
theorem isValid_iff_exists_byteOffset? {p : String.Pos.Raw} :
    p.IsValid content ↔ ∃ a, byteOffset? content a = some p.byteIdx := by
  rw [String.Pos.Raw.isValid_iff_exists_take_toList]
  constructor
  · rintro ⟨n, hp⟩
    obtain ⟨a, ha⟩ := exists_offsetOf? (Nat.min_le_right n content.toList.length)
    refine ⟨a, ?_⟩
    rw [byteOffset?, ha, Option.map_some, hp, ← List.take_eq_take_min]
  · rintro ⟨a, ha⟩
    obtain ⟨n, -, hp⟩ := Option.map_eq_some_iff.1 ha
    exact ⟨n, hp.symm⟩

/-- The location behind a first part has the bytes of that part before it. -/
theorem byteOffset?_append (h : offsetOf? (before ++ after).toList a = some before.length) :
    byteOffset? (before ++ after) a = some before.utf8ByteSize := by
  rw [byteOffset?, h, Option.map_some, String.toList_append, ← String.length_toList,
    List.take_left, String.ofList_toList]

theorem length_le_utf8ByteSize (content : String) : content.length ≤ content.utf8ByteSize := by
  rw [← content.ofList_toList]
  induction content.toList with
  | nil => exact Nat.le_refl 0
  | cons c rest ih =>
    have hsize := c.utf8Size_pos
    rw [String.ofList_cons, String.utf8ByteSize_append, String.length_append,
      String.utf8ByteSize_singleton, String.length_singleton]
    omega

/-- A text of fewer bytes than 32 bits count has only locations of 32 bits. -/
theorem fits_of_offsetOf? (h : offsetOf? content.toList a = some n)
    (hsize : content.utf8ByteSize < 0xffffffff) : a.Fits := by
  obtain ⟨line, column, rfl, hplace⟩ := offsetOf?_eq_some_iff.1 h
  have hbound := add_le_of_offsetFrom? hplace
  have hlength := length_le_utf8ByteSize content
  rw [← String.length_toList] at hlength
  constructor <;> dsimp only <;> omega

/-! ## Edits -/

/-- A text in three parts, the second of which stands between two locations. -/
structure Splits (content : String) (start stop : Location) (before cut after : String) : Prop where
  whole : content = before ++ cut ++ after
  start_eq : offsetOf? content.toList start = some before.length
  stop_eq : offsetOf? content.toList stop = some (before ++ cut).length

/-- An edit of a range succeeds when its locations split the text, and puts its text in place of the
part between them. -/
theorem apply_range_eq_ok_iff : apply (.range start stop inserted) path content = .ok edited ↔
    ∃ before cut after, Splits content start stop before cut after ∧
      edited = before ++ inserted ++ after := by
  unfold apply
  constructor
  · intro h
    dsimp only at h
    split at h
    · cases h
    rename_i first hfirst
    split at h
    · cases h
    rename_i last hlast
    split at h
    · cases h
    rename_i hle
    obtain ⟨k, rfl⟩ := Nat.exists_eq_add_of_le (Nat.le_of_not_lt hle)
    have hlength := offsetOf?_le_length hlast
    refine ⟨String.ofList (content.toList.take first),
      String.ofList ((content.toList.drop first).take k),
      String.ofList (content.toList.drop (first + k)), ⟨?whole, ?start, ?stop⟩, ?edited⟩
    case whole =>
      rw [← String.ofList_append, ← List.take_add, ← String.ofList_append, List.take_append_drop,
        String.ofList_toList]
    case start =>
      rw [hfirst, String.length_ofList,
        List.length_take_of_le (Nat.le_trans (Nat.le_add_right _ _) hlength)]
    case stop =>
      rw [hlast, ← String.ofList_append, ← List.take_add, String.length_ofList,
        List.length_take_of_le hlength]
    case edited =>
      cases h
      rw [String.ofList_append, String.ofList_append, String.ofList_toList]
  · rintro ⟨before, cut, after, ⟨rfl, hstart, hstop⟩, rfl⟩
    have hle : ¬ (before ++ cut).length < before.length := by
      rw [String.length_append]
      omega
    simp only [hstart, hstop, if_neg hle]
    have hfirst : (before ++ cut ++ after).toList.take before.length = before.toList := by
      rw [String.toList_append, String.toList_append, List.append_assoc, ← String.length_toList,
        List.take_left]
    have hlast : (before ++ cut ++ after).toList.drop (before ++ cut).length = after.toList := by
      rw [String.toList_append, ← String.length_toList, List.drop_left]
    rw [hfirst, hlast, ← String.toList_append, ← String.toList_append, String.ofList_toList]

/-- An edit succeeds if both locations are valid and in order. -/
theorem exists_apply_range_iff :
    (∃ edited, apply (.range start stop inserted) path content = .ok edited) ↔
      start.Valid content ∧ stop.Valid content ∧ ¬ stop.Before start := by
  simp only [← isSome_offsetOf?_iff, Option.isSome_iff_exists]
  constructor
  · rintro ⟨edited, h⟩
    obtain ⟨before, cut, after, ⟨-, hstart, hstop⟩, -⟩ := apply_range_eq_ok_iff.1 h
    refine ⟨⟨_, hstart⟩, ⟨_, hstop⟩, ?_⟩
    rw [← offsetOf?_lt_iff hstop hstart, String.length_append]
    omega
  · rintro ⟨⟨first, hfirst⟩, ⟨last, hlast⟩, horder⟩
    rw [← offsetOf?_lt_iff hlast hfirst] at horder
    simp only [apply, hfirst, hlast, if_neg horder]
    exact ⟨_, rfl⟩

/-- Every edit can be taken back by one that starts at the same location. -/
theorem exists_apply_range_eq_original (h : Splits content start stop before cut after)
    (hsize : (before ++ inserted ++ after).utf8ByteSize < 0xffffffff) :
    ∃ stop' : Location, stop'.Fits ∧
      apply (.range start stop' cut) path (before ++ inserted ++ after) = .ok content := by
  have hstart : offsetOf? (before ++ inserted ++ after).toList start = some before.length := by
    have hplace := h.start_eq
    rw [h.whole, String.append_assoc, String.toList_append, ← String.length_toList] at hplace
    rw [String.append_assoc, String.toList_append, ← String.length_toList]
    exact offsetOf?_append hplace _
  have hlength : (before ++ inserted).length ≤ (before ++ inserted ++ after).toList.length := by
    rw [String.length_toList, String.length_append (before ++ inserted)]
    exact Nat.le_add_right _ _
  obtain ⟨stop', hstop⟩ := exists_offsetOf? hlength
  exact ⟨stop', fits_of_offsetOf? hstop hsize,
    apply_range_eq_ok_iff.2 ⟨before, inserted, after, ⟨rfl, hstart, hstop⟩, h.whole⟩⟩

/-- **Edits of ranges are exact.**  The locations of a text are those that its lines have, and
numbers of 32 bits.  They stand, in their order, at the boundaries between its characters, each
boundary being one of them.  An edit succeeds exactly when both of its locations are valid and its
end is not before its start.  It puts its text in place of what stands between them, and another
edit from the same start takes it back. -/
theorem range_edits_are_exact (content : String) (hsize : content.utf8ByteSize < 0xffffffff) :
    (∀ a, (byteOffset? content a).isSome ↔ a.Valid content) ∧
    (∀ a : Location, a.Valid content → a.Fits) ∧
    (∀ a b i j, byteOffset? content a = some i → byteOffset? content b = some j →
      (i < j ↔ a.Before b)) ∧
    (∀ p : String.Pos.Raw, p.IsValid content ↔ ∃ a, byteOffset? content a = some p.byteIdx) ∧
    ∀ (start stop : Location) (inserted : String) (path : Path),
      ((∃ edited, apply (.range start stop inserted) path content = .ok edited) ↔
        start.Valid content ∧ stop.Valid content ∧ ¬ stop.Before start) ∧
      ∀ edited, apply (.range start stop inserted) path content = .ok edited →
        ∃ before cut after i j,
          content = before ++ cut ++ after ∧ edited = before ++ inserted ++ after ∧
          byteOffset? content start = some i ∧ i = before.utf8ByteSize ∧
          byteOffset? content stop = some j ∧ j = (before ++ cut).utf8ByteSize ∧
          i ≤ j ∧ j - i ≤ content.utf8ByteSize ∧
          edited.utf8ByteSize = content.utf8ByteSize - (j - i) + inserted.utf8ByteSize ∧
          (edited.utf8ByteSize < 0xffffffff → ∃ stop' : Location, stop'.Fits ∧
            apply (.range start stop' cut) path edited = .ok content) := by
  refine ⟨fun a => isSome_byteOffset?_iff, fun a ha => ?fits,
    fun a b i j ha hb => byteOffset?_lt_iff ha hb, fun p => isValid_iff_exists_byteOffset?,
    fun start stop inserted path => ⟨exists_apply_range_iff, fun edited h => ?edit⟩⟩
  case fits =>
    obtain ⟨n, hn⟩ := Option.isSome_iff_exists.1 (isSome_offsetOf?_iff.2 ha)
    exact fits_of_offsetOf? hn hsize
  case edit =>
    obtain ⟨before, cut, after, hsplits, rfl⟩ := apply_range_eq_ok_iff.1 h
    obtain ⟨rfl, hstart, hstop⟩ := hsplits
    have hfirst : byteOffset? (before ++ cut ++ after) start = some before.utf8ByteSize := by
      rw [String.append_assoc] at hstart ⊢
      exact byteOffset?_append hstart
    refine ⟨before, cut, after, _, _, rfl, rfl, hfirst, rfl, byteOffset?_append hstop, rfl,
      ?order, ?inside, ?size, exists_apply_range_eq_original ⟨rfl, hstart, hstop⟩⟩
    all_goals simp only [String.utf8ByteSize_append]; omega

/-- An edit from behind the first character to the start of the second line takes out a character of
two bytes and the end of the line, and can be taken back. -/
theorem range_edits_are_exact_multibyte :
    "aé\nb".utf8ByteSize < 0xffffffff ∧
      Location.Valid "aé\nb" ⟨1, 2⟩ ∧ Location.Valid "aé\nb" ⟨2, 1⟩ ∧
      byteOffset? "aé\nb" ⟨2, 1⟩ = some 4 ∧
      apply (.range ⟨1, 2⟩ ⟨2, 1⟩ "x") (.mk .slash []) "aé\nb" = .ok "axb" ∧
      ∃ stop cut, apply (.range ⟨1, 2⟩ stop cut) (.mk .slash []) "axb" = .ok "aé\nb" := by
  have hsize : "aé\nb".utf8ByteSize < 0xffffffff := by decide
  have hstart : byteOffset? "aé\nb" ⟨1, 2⟩ = some 1 := by decide
  have hstop : byteOffset? "aé\nb" ⟨2, 1⟩ = some 4 := by decide
  have hedit : apply (.range ⟨1, 2⟩ ⟨2, 1⟩ "x") (.mk .slash []) "aé\nb" = .ok "axb" := by rfl
  obtain ⟨hvalid, -, -, -, hedits⟩ := range_edits_are_exact "aé\nb" hsize
  obtain ⟨-, cut, -, -, -, -, -, -, -, -, -, -, -, -, hback⟩ :=
    (hedits ⟨1, 2⟩ ⟨2, 1⟩ "x" (.mk .slash [])).2 "axb" hedit
  obtain ⟨stop, -, hstop'⟩ := hback (by decide)
  exact ⟨hsize, (hvalid _).1 (Option.isSome_of_eq_some hstart),
    (hvalid _).1 (Option.isSome_of_eq_some hstop), hstop, hedit, stop, cut, hstop'⟩

end TextChange

end Codebase
