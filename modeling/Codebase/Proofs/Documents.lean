import Codebase.Documents
import Codebase.Proofs.Data.Table
/-!
# Laws of the documents

What an operation does to the document of each path.  Only `open` and `close` change which documents
are open; a document that is open is neither dropped nor noted again.

* `get?_note`, `get?_forget`, `get?_forgetAll` — what a build notes and drops.
* `of_open`, `of_close`, `of_edit`, `of_refresh` — an operation that succeeds concerns one path.
* `Document.replace_refuses_iff` — when a text cannot be replaced.
-/

namespace Codebase

namespace Document

variable {document next : Document} {path : Path} {content : String} {changed : Bool}

/-- Replacing a text: it is the new one, and a change that is not reported is none. -/
theorem of_replace (h : document.replace path content = .ok (changed, next)) :
    next.content = content ∧ next.isOpen = document.isOpen ∧
      (changed = false → next = document) := by
  unfold replace at h
  split at h
  · rename_i hsame
    cases h
    exact ⟨hsame, rfl, fun _ => rfl⟩
  · split at h
    · cases h
      exact ⟨rfl, rfl, nofun⟩
    · cases h

/-- A text is refused only if it is another one and there is no further version. -/
theorem replace_refuses_iff : (∃ e, document.replace path content = .error e) ↔
    document.content ≠ content ∧ versionLimit ≤ document.version := by
  unfold replace
  by_cases hsame : document.content = content
  · simp [hsame]
  · by_cases hlower : document.version < versionLimit
    · simp [hsame, hlower]
    · simp [hsame, hlower, Nat.le_of_not_lt hlower]

end Document

namespace Documents

variable {docs next : Documents} {path q : Path} {content : String}

theorem get?_put (docs : Documents) (path q : Path) (document : Document) :
    (docs.put path document).get? q = if q = path then some document else docs.get? q :=
  Table.get?_insert _ _ _ _

theorem get?_put_ne {document : Document} (hq : q ≠ path) :
    (docs.put path document).get? q = docs.get? q := by
  rw [get?_put, if_neg hq]

theorem isOpen_of_get? {document : Document} (h : docs.get? path = some document) :
    docs.isOpen path = document.isOpen := by
  unfold isOpen
  rw [h]
  rfl

theorem isOpen_of_get?_eq_none (h : docs.get? path = none) : docs.isOpen path = false := by
  unfold isOpen
  rw [h]
  rfl

theorem isOpen_congr (h : next.get? q = docs.get? q) : next.isOpen q = docs.isOpen q := by
  unfold isOpen
  rw [h]

theorem text?_congr (h : next.get? q = docs.get? q) : next.text? q = docs.text? q := by
  unfold text?
  rw [h]

theorem contains_congr (h : next.get? q = docs.get? q) : next.contains q = docs.contains q :=
  congrArg Option.isSome h

theorem contains_of_isOpen (h : docs.isOpen path = true) : docs.contains path = true := by
  cases hdocument : docs.get? path with
  | none => rw [isOpen_of_get?_eq_none hdocument] at h; cases h
  | some document => exact Table.contains_eq_true.2 ⟨document, hdocument⟩

theorem contains_of_text? {text : String} (h : docs.text? path = some text) :
    docs.contains path = true := by
  obtain ⟨document, hdocument, -⟩ := Option.map_eq_some_iff.1 h
  exact Table.contains_eq_true.2 ⟨document, hdocument⟩

/-! ## Noting and dropping -/

theorem get?_note (docs : Documents) (path q : Path) (content : String) :
    (docs.note path content).get? q =
      if q = path ∧ docs.contains path = false then some (Document.new content)
      else docs.get? q := by
  unfold note
  cases hc : docs.contains path with
  | true => simp
  | false => simp [get?_put]

theorem get?_forget (docs : Documents) (path q : Path) :
    (docs.forget path).get? q =
      if q = path ∧ docs.isOpen path = false then none else docs.get? q := by
  unfold forget
  cases ho : docs.isOpen path with
  | true => simp
  | false =>
    simp only [Bool.false_eq_true, if_false, and_true]
    exact Table.get?_erase _ _ _

@[simp] theorem isOpen_forget (docs : Documents) (path q : Path) :
    (docs.forget path).isOpen q = docs.isOpen q := by
  by_cases h : q = path ∧ docs.isOpen path = false
  · obtain ⟨rfl, hclosed⟩ := h
    rw [hclosed, isOpen_of_get?_eq_none]
    rw [get?_forget, if_pos ⟨rfl, hclosed⟩]
  · exact isOpen_congr (by rw [get?_forget, if_neg h])

@[simp] theorem isOpen_forgetAll (docs : Documents) (paths : List Path) (q : Path) :
    (docs.forgetAll paths).isOpen q = docs.isOpen q := by
  unfold forgetAll
  induction paths generalizing docs with
  | nil => rfl
  | cons path rest ih => rw [List.foldl_cons, ih, isOpen_forget]

theorem get?_forgetAll (docs : Documents) (paths : List Path) (q : Path) :
    (docs.forgetAll paths).get? q =
      if q ∈ paths ∧ docs.isOpen q = false then none else docs.get? q := by
  unfold forgetAll
  induction paths generalizing docs with
  | nil => simp
  | cons path rest ih =>
    rw [List.foldl_cons, ih, isOpen_forget, get?_forget]
    by_cases hq : q = path
    · subst hq
      cases docs.isOpen q <;> simp
    · simp [hq]

/-- A closed document of the list is gone. -/
theorem contains_forgetAll {paths : List Path} (h : (docs.forgetAll paths).contains q = true) :
    docs.contains q = true ∧ (q ∈ paths → docs.isOpen q = true) := by
  obtain ⟨document, hget⟩ := Table.contains_eq_true.1 h
  have hleft : (docs.forgetAll paths).get? q = some document := hget
  rw [get?_forgetAll] at hleft
  split at hleft
  · cases hleft
  · rename_i hkept
    refine ⟨Table.contains_eq_true.2 ⟨document, hleft⟩, fun hq => ?_⟩
    by_contra hclosed
    exact hkept ⟨hq, Bool.eq_false_iff.2 hclosed⟩

theorem forgetAll_of_isOpen {paths : List Path} (h : ∀ q ∈ paths, docs.isOpen q = true) :
    docs.forgetAll paths = docs := by
  unfold forgetAll
  induction paths with
  | nil => rfl
  | cons path rest ih =>
    rw [List.forall_mem_cons] at h
    rw [List.foldl_cons, forget, if_pos h.1, ih h.2]

@[simp] theorem isOpen_note (docs : Documents) (path q : Path) (content : String) :
    (docs.note path content).isOpen q = docs.isOpen q := by
  by_cases h : q = path ∧ docs.contains path = false
  · obtain ⟨rfl, hnone⟩ := h
    rw [isOpen_of_get?_eq_none (Table.contains_eq_false.1 hnone)]
    have hnoted : (docs.note q content).get? q = some (.new content) := by
      rw [get?_note, if_pos ⟨rfl, hnone⟩]
    exact isOpen_of_get? hnoted
  · exact isOpen_congr (by rw [get?_note, if_neg h])

@[simp] theorem isOpen_foldl_note (docs : Documents) (found : List (Path × String)) (q : Path) :
    (found.foldl (fun docs found => docs.note found.1 found.2) docs).isOpen q = docs.isOpen q := by
  induction found generalizing docs with
  | nil => rfl
  | cons e rest ih => rw [List.foldl_cons, ih, isOpen_note]

/-- A list of texts is noted: a document that is there stays, and a new one has a text of the
list. -/
theorem get?_foldl_note (docs : Documents) (found : List (Path × String)) (q : Path) :
    (found.foldl (fun docs found => docs.note found.1 found.2) docs).get? q = docs.get? q ∨
      docs.get? q = none ∧ ∃ text, (q, text) ∈ found ∧
        (found.foldl (fun docs found => docs.note found.1 found.2) docs).get? q =
          some (Document.new text) := by
  induction found generalizing docs with
  | nil => exact .inl rfl
  | cons e rest ih =>
    rw [List.foldl_cons]
    by_cases hnew : q = e.1 ∧ docs.contains e.1 = false
    · obtain ⟨rfl, hnone⟩ := hnew
      have hnoted : (docs.note e.1 e.2).get? e.1 = some (Document.new e.2) := by
        rw [get?_note, if_pos ⟨rfl, hnone⟩]
      refine .inr ⟨Table.contains_eq_false.1 hnone, e.2, List.mem_cons_self, ?_⟩
      rcases ih (docs.note e.1 e.2) with hsame | ⟨hnone', -⟩
      · rw [hsame, hnoted]
      · rw [hnoted] at hnone'
        cases hnone'
    · have hsame : (docs.note e.1 e.2).get? q = docs.get? q := by
        rw [get?_note, if_neg hnew]
      rcases ih (docs.note e.1 e.2) with hrest | ⟨hnone, text, hmem, htext⟩
      · exact .inl (hrest.trans hsame)
      · exact .inr ⟨hsame.symm.trans hnone, text, List.mem_cons_of_mem e hmem, htext⟩

theorem contains_note (h : docs.contains q = true ∨ q = path) :
    (docs.note path content).contains q = true := by
  unfold note
  split
  · rename_i hdocument
    rcases h with h | rfl
    · exact h
    · exact hdocument
  · by_cases hq : q = path
    · exact Table.contains_eq_true.2 ⟨_, (get?_put _ _ _ _).trans (if_pos hq)⟩
    · obtain ⟨document, hget⟩ := Table.contains_eq_true.1 (h.resolve_right hq)
      exact Table.contains_eq_true.2 ⟨document, (get?_put_ne hq).trans hget⟩

/-- Everything on the list has a document afterwards. -/
theorem contains_foldl_note (docs : Documents) (found : List (Path × String))
    (h : docs.contains q = true ∨ q ∈ found.map Prod.fst) :
    (found.foldl (fun docs found => docs.note found.1 found.2) docs).contains q = true := by
  induction found generalizing docs with
  | nil => exact h.resolve_right List.not_mem_nil
  | cons e rest ih =>
    rw [List.foldl_cons]
    rw [List.map_cons, List.mem_cons, ← or_assoc] at h
    exact ih _ (h.imp_left contains_note)

/-- What is there after a list of texts was noted was there before, or is on the list. -/
theorem of_contains_foldl_note {docs : Documents} {found : List (Path × String)}
    (h : (found.foldl (fun docs found => docs.note found.1 found.2) docs).contains q = true) :
    docs.contains q = true ∨ ∃ text, (q, text) ∈ found := by
  rcases get?_foldl_note docs found q with hsame | ⟨-, text, hmem, -⟩
  · exact .inl ((contains_congr hsame).symm.trans h)
  · exact .inr ⟨text, hmem⟩

/-! ## Operations that can fail -/

/-- Opening a document: it has the text of the editor, which is the one it had if no change is
reported. -/
theorem of_open {opened : Opened} (h : docs.open path content = .ok (opened, next)) :
    (∀ q, q ≠ path → next.get? q = docs.get? q) ∧ next.isOpen path = true ∧
      next.text? path = some content ∧
      (opened.contentChanged = false → docs.contains path = true →
        docs.text? path = some content) := by
  unfold «open» at h
  split at h
  · rename_i hnone
    cases h
    refine ⟨fun q hq => get?_put_ne hq, ?_, ?_, fun _ hcontains => ?_⟩
    · exact isOpen_of_get? ((get?_put _ _ _ _).trans (if_pos rfl))
    · unfold text?
      rw [get?_put, if_pos rfl]
      rfl
    · rw [show docs.contains path = false from Table.contains_eq_false.2 hnone] at hcontains
      cases hcontains
  · rename_i document hdocument
    split at h
    · cases h
    · rename_i changed replaced hreplace
      cases h
      obtain ⟨hcontent, -, hunreported⟩ := Document.of_replace hreplace
      refine ⟨fun q hq => get?_put_ne hq, ?_, ?_, fun hunchanged _ => ?_⟩
      · exact isOpen_of_get? ((get?_put _ _ _ _).trans (if_pos rfl))
      · unfold text?
        rw [get?_put, if_pos rfl]
        exact congrArg some hcontent
      · unfold text?
        rw [hdocument]
        rw [← hunreported hunchanged]
        exact congrArg some hcontent

/-- Only a document that cannot take another text is refused. -/
theorem open_refuses_iff : (∃ e, docs.open path content = .error e) ↔
    ∃ document, docs.get? path = some document ∧ document.content ≠ content ∧
      Document.versionLimit ≤ document.version := by
  unfold «open»
  cases hget : docs.get? path with
  | none => simp
  | some document =>
    simp only [Option.some.injEq, exists_eq_left']
    have hrefuses : (∃ e, document.replace path content = .error e) ↔ _ :=
      Document.replace_refuses_iff
    rw [← hrefuses]
    cases document.replace path content <;> simp

theorem of_openAt {document : Document} (h : docs.openAt path = .ok document) :
    docs.get? path = some document ∧ document.isOpen = true := by
  unfold openAt at h
  split at h
  · cases h
  · rename_i found hfound
    split at h
    · rename_i hopen
      cases h
      exact ⟨hfound, hopen⟩
    · cases h

theorem close_of_get? {document : Document} (hget : docs.get? path = some document)
    (hopen : document.isOpen = true) :
    docs.close path = .ok (docs.put path { document with isOpen := false }) := by
  unfold close openAt
  rw [hget]
  simp only [hopen, if_true]
  rfl

/-- Closing a document: it was open, and keeps its text. -/
theorem of_close (h : docs.close path = .ok next) :
    (∀ q, q ≠ path → next.get? q = docs.get? q) ∧ docs.isOpen path = true ∧
      next.isOpen path = false ∧ next.text? path = docs.text? path := by
  unfold close at h
  cases hdocument : docs.openAt path with
  | error e => rw [hdocument] at h; cases h
  | ok document =>
    rw [hdocument] at h
    cases h
    obtain ⟨hget, hopen⟩ := of_openAt hdocument
    refine ⟨fun q hq => get?_put_ne hq, (isOpen_of_get? hget).trans hopen, ?_, ?_⟩
    · exact isOpen_of_get? ((get?_put _ _ _ _).trans (if_pos rfl))
    · unfold text?
      rw [get?_put, if_pos rfl, hget]
      rfl

theorem isOpen_of_edit {document edited : Document} {change : TextChange} {version : Nat}
    (h : document.edit path change version = .ok edited) : edited.isOpen = document.isOpen := by
  unfold Document.edit at h
  split at h
  · cases h
  · split at h
    · cases h
    · cases h
      rfl

/-- Editing a document: it was open and stays open. -/
theorem of_edit {change : TextChange} {version : Nat}
    (h : docs.edit path change version = .ok next) :
    (∀ q, q ≠ path → next.get? q = docs.get? q) ∧ docs.isOpen path = true ∧
      next.isOpen path = true := by
  unfold edit at h
  cases hdocument : docs.openAt path with
  | error e => rw [hdocument] at h; cases h
  | ok document =>
    obtain ⟨hget, hopen⟩ := of_openAt hdocument
    rw [hdocument] at h
    have hbind : (document.edit path change version >>= fun edited =>
        Except.ok (docs.put path edited)) = .ok next := h
    cases hedit : document.edit path change version with
    | error e => rw [hedit] at hbind; cases hbind
    | ok edited =>
      rw [hedit] at hbind
      cases hbind
      refine ⟨fun q hq => get?_put_ne hq, (isOpen_of_get? hget).trans hopen, ?_⟩
      refine (isOpen_of_get? ((get?_put _ _ _ _).trans (if_pos rfl))).trans ?_
      rw [isOpen_of_edit hedit, hopen]

/-- Refreshing a document: it is as open as before, and a text that is not reported as changed is
the same. -/
theorem of_refresh {changed : Bool} (h : docs.refresh path content = .ok (changed, next)) :
    (∀ q, q ≠ path → next.get? q = docs.get? q) ∧ next.isOpen path = docs.isOpen path ∧
      (docs.contains path = true → next.contains path = true) ∧
      (changed = false → next.text? path = docs.text? path) := by
  unfold refresh at h
  split at h
  · cases h
    exact ⟨fun _ _ => rfl, rfl, id, fun _ => rfl⟩
  · rename_i document hdocument
    split at h
    · cases h
      exact ⟨fun _ _ => rfl, rfl, id, fun _ => rfl⟩
    · split at h
      · cases h
      · rename_i replaced hreplace
        cases h
        obtain ⟨-, hopen, hunreported⟩ := Document.of_replace hreplace
        have hput : (docs.put path replaced).get? path = some replaced :=
          (get?_put _ _ _ _).trans (if_pos rfl)
        refine ⟨fun q hq => get?_put_ne hq, ?_, fun _ => Table.contains_eq_true.2 ⟨_, hput⟩,
          fun hunchanged => ?_⟩
        · rw [isOpen_of_get? hput, isOpen_of_get? hdocument, hopen]
        · rw [hunreported hunchanged] at hput ⊢
          exact text?_congr (hput.trans hdocument.symm)

theorem refresh_of_closed {document : Document} (hget : docs.get? path = some document)
    (hclosed : document.isOpen = false) (content : String) :
    docs.refresh path content = (document.replace path content).map fun replaced =>
      (replaced.1, docs.put path replaced.2) := by
  unfold refresh
  rw [hget]
  simp only [hclosed, Bool.false_eq_true, if_false]
  cases document.replace path content <;> rfl

/-- A document that is refreshed stays as it is, or has the new text. -/
theorem get?_of_refresh {changed : Bool} (h : docs.refresh path content = .ok (changed, next)) :
    next.get? path = docs.get? path ∨
      ∃ document, next.get? path = some document ∧ document.content = content := by
  unfold refresh at h
  split at h
  · cases h
    exact .inl rfl
  · split at h
    · cases h
      exact .inl rfl
    · split at h
      · cases h
      · rename_i replaced hreplace
        cases h
        obtain ⟨hcontent, -⟩ := Document.of_replace hreplace
        exact .inr ⟨replaced, (get?_put _ _ _ _).trans (if_pos rfl), hcontent⟩

/-- Refreshing tracks nothing that was not tracked. -/
theorem contains_of_refresh {changed : Bool} (h : docs.refresh path content = .ok (changed, next))
    (hq : next.contains q = true) : docs.contains q = true := by
  by_cases hpath : q = path
  · subst hpath
    by_contra hnot
    have hnone : docs.get? q = none := Table.contains_eq_false.1 (Bool.eq_false_iff.2 hnot)
    unfold refresh at h
    rw [hnone] at h
    cases h
    exact hnot hq
  · exact (contains_congr ((of_refresh h).1 q hpath)).symm.trans hq

end Documents

end Codebase
