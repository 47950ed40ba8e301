import Codebase.Proofs.Documents
import Codebase.Proofs.Path
import Mathlib.Data.List.Infix
/-!
# The lifetime of a document

A document lives from the operation that creates it to the one that drops it.  Meanwhile its text
changes in three ways: an editor opens it with another text, an editor edits it under a version of
its own, and the host is read again.  Each of them raises the version, and is refused when there is
none left.

* `Document.Follows` — what may become of a document while it lives; it is a preorder, so what one
  operation keeps a whole run keeps.
* `Alters` — what an operation can do to the documents.
* `get?_perform_follows`, `get?_run_follows` — one operation, then a run.
* `version_identifies_content` — between any two moments of one lifetime.
-/

namespace Codebase

namespace Document

variable {document next last : Document} {path : Path} {content : String} {changed : Bool}

/-- What may become of a document: the version does not fall and stays within the limit, and the
text is another one only under a larger version. -/
structure Follows (document next : Document) : Prop where
  version_le : document.version ≤ next.version
  bounded : document.version ≤ versionLimit → next.version ≤ versionLimit
  content : next.version = document.version → next.content = document.content

theorem follows_refl (document : Document) : document.Follows document :=
  ⟨Nat.le_refl _, id, fun _ => rfl⟩

theorem Follows.trans (h : document.Follows next) (h' : next.Follows last) :
    document.Follows last where
  version_le := Nat.le_trans h.version_le h'.version_le
  bounded hlimit := h'.bounded (h.bounded hlimit)
  content hsame := by
    -- nothing lies between equal versions, so neither part has changed the text
    have hfirst : next.version = document.version :=
      Nat.le_antisymm (hsame ▸ h'.version_le) h.version_le
    rw [h'.content (hsame.trans hfirst.symm), h.content hfirst]

/-- Opening and closing leave the text and its version. -/
theorem Follows.setOpen (h : document.Follows next) (isOpen : Bool) :
    document.Follows { next with isOpen } := ⟨h.version_le, h.bounded, h.content⟩

theorem replace_follows (h : document.replace path content = .ok (changed, next)) :
    document.Follows next := by
  unfold replace at h
  split at h
  · cases h
    exact follows_refl document
  · split at h
    · rename_i hlower
      cases h
      exact ⟨Nat.le_succ _, fun _ => hlower, fun hsame => absurd hsame (Nat.succ_ne_self _)⟩
    · cases h

/-- An edit is accepted under a larger version only, which the document has then. -/
theorem version_of_edit {change : TextChange} {version : Nat}
    (h : document.edit path change version = .ok next) :
    document.version < version ∧ next.version = version := by
  unfold edit at h
  split at h
  · cases h
  · rename_i hlarger
    split at h
    · cases h
    · cases h
      exact ⟨Nat.lt_of_not_le hlarger, rfl⟩

theorem edit_follows {change : TextChange} {version : Nat} (hlimit : version ≤ versionLimit)
    (h : document.edit path change version = .ok next) : document.Follows next := by
  obtain ⟨hlarger, hversion⟩ := version_of_edit h
  refine ⟨?_, fun _ => ?_, fun hsame => ?_⟩
  · rw [hversion]
    exact Nat.le_of_lt hlarger
  · rw [hversion]
    exact hlimit
  · rw [hversion] at hsame
    exact absurd hsame (Nat.ne_of_gt hlarger)

end Document

namespace Documents

/-- What can be asked of the documents.  The version of an edit is any number of 32 bits. -/
inductive Operation where
  | «open» (path : Path) (content : String)
  | close (path : Path)
  | edit (path : Path) (change : TextChange) (version : UInt32)
  | note (path : Path) (content : String)
  | refresh (path : Path) (content : String)
  | forget (path : Path)

/-- The document that the operation is about. -/
def Operation.path : Operation → Path
  | «open» path _ | close path | edit path _ _ | note path _ | refresh path _ | forget path => path

/-- The answer of an operation that gives documents back unless it fails. -/
def settled (docs : Documents) : Except Error Documents → Except Error Unit × Documents
  | .ok next => (.ok (), next)
  | .error e => (.error e, docs)

/-- The answer to an operation, and the documents after it. -/
def perform (docs : Documents) : Operation → Except Error Unit × Documents
  | .open path content => docs.settled ((docs.open path content).map Prod.snd)
  | .close path => docs.settled (docs.close path)
  | .edit path change version => docs.settled (docs.edit path change version.toNat)
  | .note path content => (.ok (), docs.note path content)
  | .refresh path content => docs.settled ((docs.refresh path content).map Prod.snd)
  | .forget path => (.ok (), docs.forget path)

/-- The documents after some operations, whatever they answer. -/
def run (docs : Documents) (operations : List Operation) : Documents :=
  operations.foldl (fun docs operation => (docs.perform operation).2) docs

variable {docs next : Documents} {path q : Path} {content : String} {operation : Operation}
  {document last : Document}

/-! ## One operation -/

/-- What an operation on `path` can do. -/
inductive Alters (docs : Documents) (path : Path) : Documents → Prop
  | nothing : Alters docs path docs
  | creates (document : Document) (absent : docs.get? path = none) (first : document.version = 1) :
      Alters docs path (docs.put path document)
  | replaces (document next : Document) (present : docs.get? path = some document)
      (follows : document.Follows next) : Alters docs path (docs.put path next)
  | drops : Alters docs path (docs.forget path)

theorem open_alters {opened : Opened} (h : docs.open path content = .ok (opened, next)) :
    Alters docs path next := by
  unfold «open» at h
  split at h
  · rename_i habsent
    cases h
    exact .creates _ habsent rfl
  · rename_i document hpresent
    split at h
    · cases h
    · rename_i hreplace
      cases h
      exact .replaces document _ hpresent ((Document.replace_follows hreplace).setOpen true)

theorem close_alters (h : docs.close path = .ok next) : Alters docs path next := by
  unfold close at h
  cases hdocument : docs.openAt path with
  | error e => rw [hdocument] at h; cases h
  | ok document =>
    rw [hdocument] at h
    cases h
    exact .replaces document _ (of_openAt hdocument).1 ((Document.follows_refl _).setOpen false)

/-- An edit that is accepted is one of the document. -/
theorem edited_of_edit {change : TextChange} {version : Nat}
    (h : docs.edit path change version = .ok next) :
    ∃ document edited, docs.get? path = some document ∧
      document.edit path change version = .ok edited ∧ next = docs.put path edited := by
  unfold edit at h
  cases hdocument : docs.openAt path with
  | error e => rw [hdocument] at h; cases h
  | ok document =>
    rw [hdocument] at h
    have hbind : (document.edit path change version >>= fun edited =>
        Except.ok (docs.put path edited)) = .ok next := h
    cases hedit : document.edit path change version with
    | error e => rw [hedit] at hbind; cases hbind
    | ok edited =>
      rw [hedit] at hbind
      cases hbind
      exact ⟨document, edited, (of_openAt hdocument).1, hedit, rfl⟩

theorem refresh_alters {changed : Bool} (h : docs.refresh path content = .ok (changed, next)) :
    Alters docs path next := by
  unfold refresh at h
  split at h
  · cases h
    exact .nothing
  · rename_i document hpresent
    split at h
    · cases h
      exact .nothing
    · split at h
      · cases h
      · rename_i hreplace
        cases h
        exact .replaces document _ hpresent (Document.replace_follows hreplace)

theorem note_alters (docs : Documents) (path : Path) (content : String) :
    Alters docs path (docs.note path content) := by
  unfold note
  cases hpresent : docs.contains path with
  | true => exact .nothing
  | false => exact .creates _ (Table.contains_eq_false.1 hpresent) rfl

theorem settled_alters {result : Except Error Documents}
    (h : ∀ next, result = .ok next → Alters docs path next) :
    Alters docs path (docs.settled result).2 := by
  cases result with
  | ok next => exact h next rfl
  | error e => exact .nothing

/-- Every operation does one of these things, at its own path. -/
theorem perform_alters (docs : Documents) (operation : Operation) :
    Alters docs operation.path (docs.perform operation).2 := by
  cases operation with
  | «open» path content =>
    refine settled_alters fun next hnext => ?_
    cases hopened : docs.open path content with
    | error e => rw [hopened] at hnext; cases hnext
    | ok result =>
      rw [hopened] at hnext
      cases hnext
      exact open_alters hopened
  | close path => exact settled_alters fun next hnext => close_alters hnext
  | edit path change version =>
    refine settled_alters fun next hnext => ?_
    obtain ⟨document, edited, hpresent, hedit, rfl⟩ := edited_of_edit hnext
    have hlimit : version.toNat ≤ Document.versionLimit := Nat.le_of_lt_succ version.toNat_lt
    exact .replaces document edited hpresent (Document.edit_follows hlimit hedit)
  | note path content => exact note_alters docs path content
  | refresh path content =>
    refine settled_alters fun next hnext => ?_
    cases hrefreshed : docs.refresh path content with
    | error e => rw [hrefreshed] at hnext; cases hnext
    | ok result =>
      rw [hrefreshed] at hnext
      cases hnext
      exact refresh_alters hrefreshed
  | forget path => exact .drops

/-- A document that is there afterwards is new, in its first version, or follows the one that was
there. -/
theorem Alters.get? (h : Alters docs path next) (hlast : next.get? q = some last) :
    docs.get? q = none ∧ last.version = 1 ∨
      ∃ document, docs.get? q = some document ∧ document.Follows last := by
  have hkept : docs.get? q = some last → docs.get? q = none ∧ last.version = 1 ∨
      ∃ document, docs.get? q = some document ∧ document.Follows last :=
    fun hsame => .inr ⟨last, hsame, Document.follows_refl last⟩
  cases h with
  | nothing => exact hkept hlast
  | creates created habsent hfirst =>
    by_cases hq : q = path
    · subst hq
      rw [get?_put, if_pos rfl] at hlast
      cases hlast
      exact .inl ⟨habsent, hfirst⟩
    · rw [get?_put_ne hq] at hlast
      exact hkept hlast
  | replaces document replaced hpresent hfollows =>
    by_cases hq : q = path
    · subst hq
      rw [get?_put, if_pos rfl] at hlast
      cases hlast
      exact .inr ⟨document, hpresent, hfollows⟩
    · rw [get?_put_ne hq] at hlast
      exact hkept hlast
  | drops =>
    rw [get?_forget] at hlast
    split at hlast
    · cases hlast
    · exact hkept hlast

theorem get?_perform_follows (hdocument : docs.get? q = some document)
    (hlast : (docs.perform operation).2.get? q = some last) : document.Follows last := by
  rcases (perform_alters docs operation).get? hlast with ⟨hnone, -⟩ | ⟨found, hfound, hfollows⟩
  · rw [hdocument] at hnone
    cases hnone
  · rw [hdocument] at hfound
    cases hfound
    exact hfollows

/-- An operation that is rejected leaves the documents as they are. -/
theorem perform_of_error {e : Error} (h : (docs.perform operation).1 = .error e) :
    (docs.perform operation).2 = docs := by
  have hsettled : ∀ result : Except Error Documents, (docs.settled result).1 = .error e →
      (docs.settled result).2 = docs := by
    intro result hrejected
    cases result with
    | ok next => cases hrejected
    | error e => rfl
  cases operation with
  | «open» path content => exact hsettled _ h
  | close path => exact hsettled _ h
  | edit path change version => exact hsettled _ h
  | note path content => cases h
  | refresh path content => exact hsettled _ h
  | forget path => cases h

/-- An edit is accepted under a larger version than that of the document, which has it then. -/
theorem version_of_accepted {change : TextChange} {version : UInt32}
    (hdocument : docs.get? path = some document)
    (h : (docs.perform (.edit path change version)).1 = .ok ()) :
    document.version < version.toNat ∧ ∃ edited,
      (docs.perform (.edit path change version)).2.get? path = some edited ∧
        edited.version = version.toNat := by
  have hperform : docs.perform (.edit path change version) =
      docs.settled (docs.edit path change version.toNat) := rfl
  rw [hperform] at h ⊢
  cases hresult : docs.edit path change version.toNat with
  | error e =>
    rw [hresult] at h
    cases h
  | ok next =>
    obtain ⟨found, edited, hfound, hedit, rfl⟩ := edited_of_edit hresult
    rw [hdocument] at hfound
    cases hfound
    obtain ⟨hlarger, hversion⟩ := Document.version_of_edit hedit
    exact ⟨hlarger, edited, (get?_put _ _ _ _).trans (if_pos rfl), hversion⟩

/-! ## Runs -/

theorem run_append (docs : Documents) (earlier later : List Operation) :
    docs.run (earlier ++ later) = (docs.run earlier).run later := List.foldl_append

/-- All versions lie between the first and the largest one. -/
def Versioned (docs : Documents) : Prop :=
  ∀ q document, docs.get? q = some document →
    1 ≤ document.version ∧ document.version ≤ Document.versionLimit

theorem versioned_empty : Versioned empty := fun _ _ h => by cases h

theorem Versioned.perform (h : Versioned docs) (operation : Operation) :
    Versioned (docs.perform operation).2 := by
  intro q last hlast
  rcases (perform_alters docs operation).get? hlast with ⟨-, hfirst⟩ | ⟨document, hfound, hfollows⟩
  · rw [hfirst]
    exact ⟨Nat.le_refl 1, by decide⟩
  · obtain ⟨hpositive, hlimit⟩ := h q document hfound
    exact ⟨Nat.le_trans hpositive hfollows.version_le, hfollows.bounded hlimit⟩

theorem Versioned.run (h : Versioned docs) (operations : List Operation) :
    Versioned (docs.run operations) := by
  induction operations generalizing docs with
  | nil => exact h
  | cons operation rest ih => exact ih (h.perform operation)

/-- The document at `q` lives on while the operations are performed. -/
def Lives (docs : Documents) (q : Path) (operations : List Operation) : Prop :=
  ∀ part, part <+: operations → (docs.run part).contains q = true

/-- **While it lives, a document follows what it was.** -/
theorem get?_run_follows {operations : List Operation} (hdocument : docs.get? q = some document)
    (hlives : Lives docs q operations) (hlast : (docs.run operations).get? q = some last) :
    document.Follows last := by
  induction operations generalizing docs document with
  | nil =>
    rw [show docs.run [] = docs from rfl, hdocument] at hlast
    cases hlast
    exact Document.follows_refl _
  | cons operation rest ih =>
    have hafter : ∀ part, part <+: rest →
        ((docs.perform operation).2.run part).contains q = true :=
      fun part hpart => hlives (operation :: part) (List.cons_prefix_cons.2 ⟨rfl, hpart⟩)
    obtain ⟨next, hnext⟩ := Table.contains_eq_true.1 (hafter [] List.nil_prefix)
    exact (get?_perform_follows hdocument hnext).trans (ih hnext hafter hlast)

/-- **Within one lifetime of a document, a version identifies its text.**  Between any two moments
the version does not fall and never passes the limit, and if it is the same then so is the text.
At any moment an edit is accepted only under a larger version than that of the document, which has
it then, and an operation that is rejected leaves the document as it is. -/
theorem version_identifies_content (earlier later : List Operation) (path : Path)
    {first last : Document} (hfirst : (empty.run earlier).get? path = some first)
    (hlives : Lives (empty.run earlier) path later)
    (hlast : (empty.run (earlier ++ later)).get? path = some last) :
    (1 ≤ first.version ∧ first.version ≤ last.version ∧ last.version ≤ Document.versionLimit ∧
      (last.version = first.version → last.content = first.content)) ∧
    (∀ change version, ((empty.run earlier).perform (.edit path change version)).1 = .ok () →
      first.version < version.toNat ∧ ∃ edited,
        ((empty.run earlier).perform (.edit path change version)).2.get? path = some edited ∧
          edited.version = version.toNat) ∧
    ∀ operation e, ((empty.run earlier).perform operation).1 = .error e →
      ((empty.run earlier).perform operation).2.get? path = some first := by
  rw [run_append] at hlast
  obtain ⟨hpositive, hlimit⟩ := versioned_empty.run earlier path first hfirst
  have hfollows : first.Follows last := get?_run_follows hfirst hlives hlast
  refine ⟨⟨hpositive, hfollows.version_le, hfollows.bounded hlimit, hfollows.content⟩, ?_, ?_⟩
  · intro change version haccepted
    exact version_of_accepted hfirst haccepted
  · intro operation e hrejected
    rw [perform_of_error hrejected]
    exact hfirst

/-! ### The largest version -/

/-- A document gets the largest version. -/
def exhausting : List Operation :=
  [.open (Path.atTop "a.ts") "x", .edit (Path.atTop "a.ts") (.full "y") 0xffffffff]

/-- Every way to change its text is tried then, also when it is closed. -/
def insisting : List Operation :=
  [.open (Path.atTop "a.ts") "z", .edit (Path.atTop "a.ts") (.full "z") 0xffffffff,
    .close (Path.atTop "a.ts"), .refresh (Path.atTop "a.ts") "z",
    .open (Path.atTop "a.ts") "y"]

theorem version_identifies_content_exhausted :
    ∃ first last, (empty.run exhausting).get? (Path.atTop "a.ts") = some first ∧
      Lives (empty.run exhausting) (Path.atTop "a.ts") insisting ∧
      (empty.run (exhausting ++ insisting)).get? (Path.atTop "a.ts") = some last ∧
      first.version = Document.versionLimit ∧ last.version = Document.versionLimit ∧
      last.content = first.content := by
  have hfirst : (empty.run exhausting).get? (Path.atTop "a.ts") =
      some ⟨"y", Document.versionLimit, true⟩ := by decide +kernel
  have hlast : (empty.run (exhausting ++ insisting)).get? (Path.atTop "a.ts") =
      some ⟨"y", Document.versionLimit, true⟩ := by decide +kernel
  have hlives : Lives (empty.run exhausting) (Path.atTop "a.ts") insisting := by
    have hparts : ∀ part ∈ insisting.inits,
        ((empty.run exhausting).run part).contains (Path.atTop "a.ts") = true := by
      decide +kernel
    exact fun part hpart => hparts part ((List.mem_inits _ _).2 hpart)
  obtain ⟨⟨-, -, -, hsame⟩, -, -⟩ :=
    version_identifies_content exhausting insisting (Path.atTop "a.ts") hfirst hlives hlast
  exact ⟨_, _, hfirst, hlives, hlast, rfl, rfl, hsame rfl⟩

end Documents

end Codebase
