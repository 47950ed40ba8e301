import Codebase.Proofs.Host.Report
import Codebase.Proofs.Workspace.Release
import Codebase.Proofs.Workspace.Spare
import Mathlib.Data.List.Infix
/-!
# Closed documents and the host

A document that is closed stands for the file of its path: builds read its text in place of the
file, and take it for a file that exists.  It got its text from the host when it was found, or from
an editor that has closed it since.

* `Move.mirrors` — an elementary move notes only what the host has.
* `closeFile_mirrors_iff`, `noticeFile_mirrors_iff` — the events after which a closed document can
  differ from the host.
* `act_mirrors_iff` — one step of a run in which every change of the host is reported.
* `closed_document_mirrors_iff` — a whole run.
* `closed_document_differs_from_the_host` — a document keeps what an editor has not stored.
-/

namespace Codebase.Workspace

variable {host host' : Host} {w w' : Workspace} {action : Action} {path q : Path}

/-- The document at `q`, if it is closed, has the text of a file that the host has there. -/
def Mirrors (host : Host) (w : Workspace) (q : Path) : Prop :=
  ∀ document ∈ w.documents.get? q, document.isOpen = false →
    host.hasFile q = true ∧ host.read q = .ok document.content

instance (host : Host) (w : Workspace) (q : Path) : Decidable (Mirrors host w q) :=
  inferInstanceAs (Decidable (∀ document ∈ w.documents.get? q, _))

/-- What makes the closed document at `q` differ from the host. -/
inductive LeavesBehind (host : Host) (w : Workspace) (q : Path) : Action → Prop
  /-- An editor closes it with a text of its own, and a project keeps the file. -/
  | closing {action : Action} (document : Document)
      (tracked : w.documents.get? q = some document) (opened : document.isOpen = true)
      (asked : action.closed? = some q) (differs : host.read q ≠ .ok document.content)
      (kept : (w.closeFile q).2.ownership.ownersOf q ≠ []) : LeavesBehind host w q action
  /-- The file is overwritten, and its document is not read again: it is named like a manifest, or
  there is no further version. -/
  | overwriting (document : Document) (tracked : w.documents.get? q = some document)
      (closed : document.isOpen = false) (differs : host.read q ≠ .ok document.content)
      (stuck : Manifest.isNamed w.settings.manifestFileNames q = true ∨
        Document.versionLimit ≤ document.version) : LeavesBehind host w q (.notice ⟨q, .modified⟩)
  /-- The file is removed, and its document is not dropped: it is named like a manifest, and a
  project keeps the file. -/
  | removing (document : Document) (tracked : w.documents.get? q = some document)
      (closed : document.isOpen = false) (gone : host.hasFile q = false)
      (named : Manifest.isNamed w.settings.manifestFileNames q = true)
      (kept : (w.noticeFile host ⟨q, .deleted⟩).2.documents.contains q = true) :
      LeavesBehind host w q (.notice ⟨q, .deleted⟩)

/-! ## Moves -/

theorem mirrors_of_get?_eq_none (h : w.documents.get? q = none) : Mirrors host w q := by
  intro document hdocument
  rw [h] at hdocument
  cases hdocument

theorem mirrors_of_isOpen (h : w.documents.isOpen q = true) : Mirrors host w q := by
  intro document hdocument hclosed
  rw [Documents.isOpen_of_get? hdocument, hclosed] at h
  cases h

theorem mirrors_of_read {document : Document} (hlawful : host.Lawful)
    (hget : w.documents.get? q = some document) (hread : host.read q = .ok document.content) :
    Mirrors host w q := by
  intro found hfound _
  cases hget.symm.trans hfound
  exact ⟨hlawful q _ hread, hread⟩

theorem Mirrors.of_get?_eq (h : Mirrors host w q)
    (hsame : w'.documents.get? q = w.documents.get? q) : Mirrors host w' q := by
  intro document hdocument
  rw [hsame] at hdocument
  exact h document hdocument

/-- A move notes only what the host has. -/
theorem Move.mirrors (h : Move host w w') (hlawful : host.Lawful) (hw : Mirrors host w q) :
    Mirrors host w' q := by
  rcases h.document q with hsame | ⟨hgone, -⟩ | ⟨-, text, hread, hnew⟩
  · exact hw.of_get?_eq hsame
  · exact mirrors_of_get?_eq_none hgone
  · exact mirrors_of_read hlawful hnew hread

theorem Moves.mirrors (h : Moves host w w') (hlawful : host.Lawful) (hw : Mirrors host w q) :
    Mirrors host w' q := by
  induction h with
  | refl => exact hw
  | tail _ hmove ih => exact hmove.mirrors hlawful ih

/-! ## Events of an editor -/

/-- A change of the document at `path`, which is open afterwards. -/
theorem Mirrors.of_change {documents : Documents} (h : Mirrors host w q)
    (hothers : ∀ q, q ≠ path → documents.get? q = w.documents.get? q)
    (hopen : documents.isOpen path = true) : Mirrors host { w with documents } q := by
  by_cases hq : q = path
  · rw [hq]
    exact mirrors_of_isOpen hopen
  · exact h.of_get?_eq (hothers q hq)

theorem openFile_mirrors (hlawful : host.Lawful) (hw : Mirrors host w q) (path : Path)
    (content : String) : Mirrors host (w.openFile host path content).2 q := by
  have hopening : ∀ opened documents, w.documents.open path content = .ok (opened, documents) →
      Mirrors host (w.opening path opened documents) q := by
    intro opened documents hopened
    obtain ⟨hothers, hopen, -⟩ := Documents.of_open hopened
    exact (opening_moves w path opened documents).mirrors hlawful (hw.of_change hothers hopen)
  have hopens := openFile_opens host w path content
  generalize w.openFile host path content = answer at hopens ⊢
  cases hopens with
  | refused e => exact hw
  | held hopened _ => exact (Move.touch _ _).mirrors hlawful (hopening _ _ hopened)
  | assigned hopened _ => exact (assign_moves _ path).mirrors hlawful (hopening _ _ hopened)

theorem editFile_mirrors (hlawful : host.Lawful) (hw : Mirrors host w q) (path : Path)
    (change : TextChange) (version : Nat) :
    Mirrors host (w.editFile path change version).2 q := by
  unfold editFile
  split
  · exact hw
  · rename_i documents hedit
    obtain ⟨hothers, -, hopen⟩ := Documents.of_edit hedit
    exact (touchOwners_moves _ path).mirrors hlawful (hw.of_change hothers hopen)

/-- What is still owned after projects have been dropped was owned before, and keeps its
document. -/
theorem document_of_removeProjects {x : ProjectId} (h : Consistent w) (ids : List ProjectId)
    (hx : x ∈ (w.removeProjects ids).ownership.ownersOf q) :
    x ∈ w.ownership.ownersOf q ∧
      (w.removeProjects ids).documents.get? q = w.documents.get? q := by
  induction ids generalizing w with
  | nil => exact ⟨hx, rfl⟩
  | cons id rest ih =>
    have hspares := removeProject_spares h id
    obtain ⟨hlater, hrest⟩ := ih hspares.consistent hx
    have hbefore : x ∈ w.ownership.ownersOf q := by
      unfold removeProject at hlater
      split at hlater
      · exact ((Ownership.mem_ownersOf_removeProject h.mirrored).1 hlater).1
      · exact hlater
    refine ⟨hbefore, hrest.trans ?_⟩
    have hretire : Move Memory.empty.host w (w.removeProject id) := .retire w id
    rcases hretire.document q with hsame | ⟨-, hunowned⟩ | ⟨hnone, text, hread, -⟩
    · exact hsame
    · rw [hunowned] at hlater
      cases hlater
    · -- There is nothing to note on a host without files.
      cases hread

theorem closeIn_documents (path : Path) (s : Workspace × List ProjectId) (id : ProjectId) :
    (closeIn path s id).1.documents = s.1.documents := by
  unfold closeIn
  simp only
  split
  · rfl
  · split
    · split <;> rfl
    · rfl

/-- What is still owned after a document has been closed keeps its document. -/
theorem document_of_closeFile {documents : Documents} {x : ProjectId} (h : Consistent w)
    (hclose : w.documents.close path = .ok documents)
    (hx : x ∈ (w.closeFile path).2.ownership.ownersOf path) :
    (w.closeFile path).2.documents.get? path = documents.get? path := by
  let owners := w.ownership.ownersOf path
  have hspares := foldl_closeIn_spares (s := ({ w with documents }, []))
    (h.documents documents) path owners
  have hdocuments : (owners.foldl (closeIn path) ({ w with documents }, [])).1.documents =
      documents :=
    List.foldlRecOn (motive := fun s => s.1.documents = documents) owners (closeIn path) rfl
      fun s hs id _ => (closeIn_documents path s id).trans hs
  unfold closeFile at hx ⊢
  rw [hclose] at hx ⊢
  simp only at hx ⊢
  generalize owners.foldl (closeIn path) ({ w with documents }, []) = state at *
  unfold forgetUnowned at hx ⊢
  split at hx
  · rename_i howned
    rw [if_pos howned, (document_of_removeProjects hspares.consistent state.2 hx).2, hdocuments]
  · rename_i hunowned
    have hnone := Ownership.ownersOf_eq_nil_of_not_isOwned (Bool.eq_false_iff.2 hunowned)
    exact absurd hx (hnone ▸ List.not_mem_nil)

/-- A document that is closed stays as long as its file has an owner. -/
theorem closeFile_document {document : Document} (h : Anchored none w)
    (htracked : w.documents.get? path = some document) (hopened : document.isOpen = true) :
    (w.closeFile path).2.documents.get? path =
      if (w.closeFile path).2.ownership.ownersOf path = [] then none
      else some { document with isOpen := false } := by
  have hclose := Documents.close_of_get? htracked hopened
  have hput := (Documents.get?_put w.documents path path { document with isOpen := false }).trans
    (if_pos rfl)
  rcases (closeFile_spares h.consistent hclose).documents path with hsame | hgone
  · have hstored := hsame.trans hput
    have hanchored := (h.closing hclose).kept path nofun (Table.contains_eq_true.2 ⟨_, hstored⟩)
    obtain ⟨x, hx⟩ := hanchored.resolve_left fun hopen =>
      nomatch (Documents.isOpen_of_get? hstored).symm.trans hopen
    rw [if_neg (List.ne_nil_of_mem hx)]
    exact hstored
  · refine hgone.trans (if_pos (List.eq_nil_iff_forall_not_mem.2 fun x hx => ?_)).symm
    have hstored := (document_of_closeFile h.consistent hclose hx).trans hput
    cases hgone.symm.trans hstored

/-- Closing a document makes it differ from the host only if it has a text of its own. -/
theorem closeFile_mirrors_iff (hanchored : Anchored none w) (hlawful : host.Lawful)
    (hw : Mirrors host w q) (hasked : action.closed? = some path) :
    Mirrors host (w.closeFile path).2 q ↔ ¬ LeavesBehind host w q action := by
  constructor
  · intro hafter hleft
    cases hleft with
    | closing document htracked hopened hasked' hdiffers hkept =>
      cases hasked.symm.trans hasked'
      have hstored := closeFile_document hanchored htracked hopened
      rw [if_neg hkept] at hstored
      exact hdiffers (hafter _ hstored rfl).2
    | overwriting => cases hasked
    | removing => cases hasked
  · intro hnot
    cases hclose : w.documents.close path with
    | error e =>
      unfold closeFile
      rw [hclose]
      exact hw
    | ok documents =>
      obtain ⟨hothers, hopen, -⟩ := Documents.of_close hclose
      by_cases hq : q = path
      · subst hq
        obtain ⟨document, htracked⟩ :=
          Table.contains_eq_true.1 (Documents.contains_of_isOpen hopen)
        have hopened : document.isOpen = true :=
          (Documents.isOpen_of_get? htracked).symm.trans hopen
        have hstored := closeFile_document hanchored htracked hopened
        split at hstored
        · exact mirrors_of_get?_eq_none hstored
        · rename_i hkept
          refine mirrors_of_read hlawful hstored ?_
          by_contra hdiffers
          exact hnot (.closing document htracked hopened hasked hdiffers hkept)
      · rcases (closeFile_spares hanchored.consistent hclose).documents q with hsame | hgone
        · exact hw.of_get?_eq (hsame.trans (hothers q hq))
        · exact mirrors_of_get?_eq_none hgone

/-! ## Reports of the host -/

/-- Nothing is left behind where the document has the text of the host. -/
theorem Mirrors.not_leavesBehind (h : Mirrors host w q) (hasked : action.closed? = none) :
    ¬ LeavesBehind host w q action := by
  intro hleft
  cases hleft with
  | closing document _ _ hasked' _ _ => cases hasked.symm.trans hasked'
  | overwriting document htracked hclosed hdiffers _ =>
    exact hdiffers (h document htracked hclosed).2
  | removing document htracked hclosed hgone _ _ =>
    rw [(h document htracked hclosed).1] at hgone
    cases hgone

theorem fileModified_mirrors (hlawful : host.Lawful) (hw : Mirrors host w q) (path : Path) :
    Mirrors host (w.fileModified host path).2 q := by
  rcases fileModified_eq host w path with
    hsame | ⟨text, changed, documents, hread, hrefresh, hnext⟩
  · rw [hsame]
    exact hw
  · have hstored : Mirrors host { w with documents } q := by
      by_cases hq : q = path
      · subst hq
        rcases Documents.get?_of_refresh hrefresh with hsame | ⟨document, hget, rfl⟩
        · exact hw.of_get?_eq hsame
        · exact mirrors_of_read hlawful hget hread
      · exact hw.of_get?_eq ((Documents.of_refresh hrefresh).1 q hq)
    rw [hnext]
    split
    · exact (touchOwners_moves _ path).mirrors hlawful hstored
    · exact hstored

/-- A report with which nothing has changed at `q`. -/
theorem noticeFile_mirrors (hlawful : host.Lawful) (hw : Mirrors host w q) (event : FileEvent) :
    Mirrors host (w.noticeFile host event).2 q := by
  unfold noticeFile
  split
  · exact (manifestEvent_moves w event.path event.change).mirrors hlawful hw
  · split
    · exact (fileCreated_moves w event.path).mirrors hlawful hw
    · exact fileModified_mirrors hlawful hw event.path
    · exact (fileDeleted_moves w event.path).mirrors hlawful hw

/-- A closed document is read again, unless the text is another one and there is no further
version. -/
theorem fileModified_mirrors_iff {document : Document} {text : String} (hlawful : host.Lawful)
    (htracked : w.documents.get? q = some document) (hclosed : document.isOpen = false)
    (hread : host.read q = .ok text) : Mirrors host (w.fileModified host q).2 q ↔
      ¬ (document.content ≠ text ∧ Document.versionLimit ≤ document.version) := by
  have hcontains : w.documents.contains q = true := Table.contains_eq_true.2 ⟨document, htracked⟩
  have hopen : w.documents.isOpen q = false := (Documents.isOpen_of_get? htracked).trans hclosed
  have hrefresh := Documents.refresh_of_closed htracked hclosed text
  have hrefuses : (∃ e, document.replace q text = .error e) ↔
      document.content ≠ text ∧ Document.versionLimit ≤ document.version :=
    Document.replace_refuses_iff
  rw [← hrefuses]
  unfold fileModified
  simp only [hcontains, hopen, hread, hrefresh, Bool.not_false, Bool.and_true, if_true]
  cases hreplace : document.replace q text with
  | error e =>
    refine iff_of_false (fun hafter => ?_) fun hnot => hnot ⟨e, rfl⟩
    cases hread.symm.trans (hafter document htracked hclosed).2
    exact (hrefuses.1 ⟨e, hreplace⟩).1 rfl
  | ok replaced =>
    refine iff_of_true ?_ fun ⟨_, h⟩ => nomatch h
    have hstored :
        Mirrors host { w with documents := w.documents.put q replaced.2 } q := by
      refine mirrors_of_read hlawful ((Documents.get?_put _ _ _ _).trans (if_pos rfl)) ?_
      rw [(Document.of_replace hreplace).1]
      exact hread
    simp only [Except.map]
    split
    · exact (touchOwners_moves _ q).mirrors hlawful hstored
    · exact hstored

/-- A closed document whose file has been overwritten. -/
theorem noticeModified_mirrors_iff {document : Document} {text : String} (hlawful : host.Lawful)
    (htracked : w.documents.get? q = some document) (hclosed : document.isOpen = false)
    (hread : host.read q = .ok text) (hdiffers : host.read q ≠ .ok document.content) :
    Mirrors host (w.noticeFile host ⟨q, .modified⟩).2 q ↔
      ¬ LeavesBehind host w q (.notice ⟨q, .modified⟩) := by
  cases hnamed : Manifest.isNamed w.settings.manifestFileNames q with
  | true =>
    have hkept : (w.noticeFile host ⟨q, .modified⟩).2.documents = w.documents := by
      unfold noticeFile
      rw [if_pos hnamed]
      unfold manifestEvent
      cases w.projectOfManifest? q <;> rfl
    refine iff_of_false (fun hafter => ?_) fun hnot =>
      hnot (.overwriting document htracked hclosed hdiffers (.inl hnamed))
    exact hdiffers (hafter document ((congrArg (·.get? q) hkept).trans htracked) hclosed).2
  | false =>
    have hmodified : w.noticeFile host ⟨q, .modified⟩ = w.fileModified host q := by
      unfold noticeFile
      rw [if_neg (Bool.eq_false_iff.1 hnamed)]
    rw [hmodified, fileModified_mirrors_iff hlawful htracked hclosed hread]
    refine not_congr ⟨fun ⟨_, hlast⟩ => ?_, fun hleft => ?_⟩
    · exact .overwriting document htracked hclosed hdiffers (.inr hlast)
    · cases hleft with
      | closing _ _ _ hasked _ _ => cases hasked
      | overwriting found hfound _ _ hstuck =>
        cases htracked.symm.trans hfound
        rw [hnamed, or_iff_right Bool.false_ne_true] at hstuck
        exact ⟨fun hsame => hdiffers (hread.trans (congrArg _ hsame.symm)), hstuck⟩

/-- A closed document is dropped when its file has been removed. -/
theorem get?_fileDeleted (hclosed : w.documents.isOpen path = false) :
    (w.fileDeleted path).documents.get? path = none := by
  unfold fileDeleted
  rw [if_neg (Bool.eq_false_iff.1 hclosed)]
  have hlost : ∀ standIns (owners : List ProjectId), Moves Memory.empty.host w
      (owners.foldl (disown path) (w.removeProjects standIns)) := fun standIns owners =>
    (removeProjects_moves w standIns).trans
      (Moves.foldl (fun w id => (Move.loseRoot w id path).moves) owners _)
  exact (Documents.get?_forget _ _ path).trans
    (if_pos ⟨rfl, ((hlost _ _).isOpen path).trans hclosed⟩)

/-- A closed document whose file has been removed. -/
theorem noticeDeleted_mirrors_iff {document : Document}
    (htracked : w.documents.get? q = some document) (hclosed : document.isOpen = false)
    (hgone : host.hasFile q = false) :
    Mirrors host (w.noticeFile host ⟨q, .deleted⟩).2 q ↔
      ¬ LeavesBehind host w q (.notice ⟨q, .deleted⟩) := by
  have hopen : w.documents.isOpen q = false := (Documents.isOpen_of_get? htracked).trans hclosed
  cases hnamed : Manifest.isNamed w.settings.manifestFileNames q with
  | true =>
    have hmoves : Moves host w (w.noticeFile host ⟨q, .deleted⟩).2 := by
      unfold noticeFile
      rw [if_pos hnamed]
      exact manifestEvent_moves w q .deleted
    have hstays : ∀ after, (w.noticeFile host ⟨q, .deleted⟩).2.documents.get? q = some after →
        after.isOpen = false := fun after hafter =>
      ((Documents.isOpen_of_get? hafter).symm.trans (hmoves.isOpen q)).trans hopen
    constructor
    · intro hmirrors hleft
      cases hleft with
      | closing _ _ _ hasked _ _ => cases hasked
      | removing _ _ _ _ _ hkept =>
        obtain ⟨after, hafter⟩ := Table.contains_eq_true.1 hkept
        rw [(hmirrors after hafter (hstays after hafter)).1] at hgone
        cases hgone
    · intro hnot after hafter _
      have hkept := Table.contains_eq_true.2 ⟨after, hafter⟩
      exact absurd (.removing document htracked hclosed hgone hnamed hkept) hnot
  | false =>
    refine iff_of_true (mirrors_of_get?_eq_none ?_) fun hleft => ?_
    · unfold noticeFile
      rw [if_neg (Bool.eq_false_iff.1 hnamed)]
      exact get?_fileDeleted hopen
    · cases hleft with
      | closing _ _ _ hasked _ _ => cases hasked
      | removing _ _ _ _ hnamed' _ =>
        rw [hnamed] at hnamed'
        cases hnamed'

/-- **What a report leaves behind**, if the document had the text of the host before the change. -/
theorem noticeFile_mirrors_iff {event : FileEvent} (hevent : event.Describes host host')
    (hlawful : host'.Lawful) (hw : Mirrors host w q) :
    Mirrors host' (w.noticeFile host' event).2 q ↔ ¬ LeavesBehind host' w q (.notice event) := by
  by_cases hnow : Mirrors host' w q
  · exact iff_of_true (noticeFile_mirrors hlawful hnow event) (hnow.not_leavesBehind rfl)
  · -- The document is closed, and what has changed is its file.
    unfold Mirrors at hnow
    push Not at hnow
    obtain ⟨document, htracked, hclosed, hstale⟩ := hnow
    obtain ⟨hfile, hread⟩ := hw document htracked hclosed
    have hq : q = event.path := by
      by_contra hother
      exact hstale ((hevent.hasFile q hother).trans hfile) ((hevent.read q hother).trans hread)
    subst hq
    obtain ⟨path, change⟩ := event
    cases change with
    | created => exact absurd rfl (hevent.existed.1 hfile)
    | modified =>
      obtain ⟨text, htext⟩ := hevent.readable.2 nofun
      exact noticeModified_mirrors_iff hlawful htracked hclosed htext
        (hstale (hevent.remains.2 nofun))
    | deleted =>
      exact noticeDeleted_mirrors_iff htracked hclosed
        (Bool.eq_false_iff.2 fun hremains => hevent.remains.1 hremains rfl)

/-! ## Actions -/

theorem serve_of_closedBy? {service : LanguageService} {request : Request}
    (h : closedBy? request = some path) :
    (w.serve service host request).2 = (w.closeFile path).2 := by
  unfold closedBy? at h
  split at h
  · rename_i file hcommand hdecoded
    cases h
    unfold serve
    rw [hcommand]
    simp only
    rw [if_pos (show Command.close.category = .lifecycle from rfl)]
    unfold serveLifecycle withArguments Request.decodeArguments
    simp only [hdecoded]
    exact serveClose_eq w path
  · cases h

/-- An action that closes a document does nothing else. -/
theorem act_of_closed? (h : action.closed? = some path) :
    w.act host action = (w.closeFile path).2 := by
  cases action with
  | closeFile closed =>
    cases h
    rfl
  | request service asked => exact serve_of_closedBy? h
  | _ => cases h

/-- An action that closes nothing, while the host stays as it is. -/
theorem act_mirrors (hlawful : host.Lawful) (hw : Mirrors host w q)
    (hasked : action.closed? = none) : Mirrors host (w.act host action) q := by
  cases action with
  | openFile path content => exact openFile_mirrors hlawful hw path content
  | closeFile path => cases hasked
  | editFile path change version => exact editFile_mirrors hlawful hw path change version
  | notice event => exact noticeFile_mirrors hlawful hw event
  | refresh id => exact (refresh_moves host w id).mirrors hlawful hw
  | refreshAll => exact (refreshEach_inquiries none host w _).moves.mirrors hlawful hw
  | filesOf id => exact (filesOf_inquiries none host w id).moves.mirrors hlawful hw
  | providerFor path => exact (providerFor_moves host w path).mirrors hlawful hw
  | request service request =>
    have hserves := serve_serves service host w request
    show Mirrors host (w.serve service host request).2 q
    generalize (w.serve service host request).2 = next at hserves ⊢
    cases hserves with
    | opening path content _ hopen =>
      have hopened := openFile_mirrors hlawful hw path content
      rw [hopen] at hopened
      exact (refresh_moves host _ _).mirrors hlawful hopened
    | closing file hcloses => cases hasked.symm.trans hcloses
    | editing file change version => exact editFile_mirrors hlawful hw file change version
    | asking h => exact h.moves.mirrors hlawful hw

/-! ## Runs -/

/-- The host is as it was, or it has changed and the action is the report of that. -/
def Reported (host : Host) (step : Host × Action) : Prop :=
  step.1 = host ∨ ∃ event, step.2 = .notice event ∧ event.Describes host step.1

theorem Reported.lawful {step : Host × Action} (h : Reported host step) (hlawful : host.Lawful) :
    step.1.Lawful := by
  rcases h with hsame | ⟨event, -, hevent⟩
  · rwa [hsame]
  · exact hevent.lawful hlawful

/-- **What a step leaves behind**, if every change of the host is reported. -/
theorem act_mirrors_iff (hanchored : Anchored none w) (hlawful : host.Lawful)
    (hreported : Reported host (host', action)) (hw : Mirrors host w q) :
    Mirrors host' (w.act host' action) q ↔ ¬ LeavesBehind host' w q action := by
  rcases hreported with rfl | ⟨event, rfl, hevent⟩
  · cases hasked : action.closed? with
    | none => exact iff_of_true (act_mirrors hlawful hw hasked) (hw.not_leavesBehind hasked)
    | some path =>
      rw [act_of_closed? hasked]
      exact closeFile_mirrors_iff hanchored hlawful hw hasked
  · exact noticeFile_mirrors_iff hevent (hevent.lawful hlawful) hw

/-- The host at the end of a run that begins with `host`. -/
def moment (host : Host) (steps : List (Host × Action)) : Host :=
  steps.foldl (fun _ step => step.1) host

/-- Every change of the host is reported as soon as it has happened. -/
def Faithful : Host → List (Host × Action) → Prop
  | _, [] => True
  | host, step :: rest => Reported host step ∧ Faithful step.1 rest

theorem moment_concat (host : Host) (steps : List (Host × Action)) (step : Host × Action) :
    moment host (steps ++ [step]) = step.1 := by
  unfold moment
  rw [List.foldl_append]
  rfl

variable {settings : Settings} {pre steps : List (Host × Action)} {step : Host × Action}

theorem Faithful.reported (h : Faithful host steps) (hpre : pre ++ [step] <+: steps) :
    Reported (moment host pre) step := by
  induction pre generalizing host steps with
  | nil =>
    obtain ⟨rest, rfl⟩ := hpre
    exact h.1
  | cons first pre ih =>
    obtain ⟨rest, rfl⟩ := hpre
    exact ih h.2 ⟨rest, rfl⟩

theorem Faithful.lawful (h : Faithful host steps) (hlawful : host.Lawful) (hpre : pre <+: steps) :
    (moment host pre).Lawful := by
  induction pre using List.reverseRecOn with
  | nil => exact hlawful
  | append_singleton pre step ih =>
    rw [moment_concat]
    exact (h.reported hpre).lawful (ih ((List.prefix_append pre [step]).trans hpre))

theorem Faithful.mirrors_concat_iff (h : Faithful host steps) (hlawful : host.Lawful)
    (hpre : pre ++ [step] <+: steps) (hw : Mirrors (moment host pre) (run settings pre) q) :
    Mirrors (moment host (pre ++ [step])) (run settings (pre ++ [step])) q ↔
      ¬ LeavesBehind step.1 (run settings pre) q step.2 := by
  have hbefore := h.lawful hlawful ((List.prefix_append pre [step]).trans hpre)
  rw [moment_concat, run_concat]
  exact act_mirrors_iff (run_anchored settings pre) hbefore (h.reported hpre) hw

/-- A script that imports another one. -/
def alone : Memory :=
  Memory.empty.addFile ((Path.mk .slash []).join "a.ts") "import './b'"

/-- The other one is created, found, and overwritten; an editor opens it and closes it again without
a change; then it is removed. -/
def storing : List (Host × Action) :=
  let path := (Path.mk .slash []).join "b.ts"
  let created := alone.addFile path ""
  let modified := created.addFile path "import './a'"
  [(alone.host, .openFile ((Path.mk .slash []).join "a.ts") "import './b'"),
    (created.host, .notice ⟨path, .created⟩), (created.host, .refresh ⟨1⟩),
    (modified.host, .notice ⟨path, .modified⟩), (modified.host, .openFile path "import './a'"),
    (modified.host, .closeFile path), ((modified.removeFile path).host, .notice ⟨path, .deleted⟩)]

/-- The second of two files is found; an editor opens it with a text of its own, and closes it
again. -/
def discarding : List (Host × Action) :=
  [(importing.host, .openFile ((Path.mk .slash []).join "a.ts") "import './b'"),
    (importing.host, .refresh ⟨1⟩),
    (importing.host, .openFile ((Path.mk .slash []).join "b.ts") "import './a'"),
    (importing.host, .closeFile ((Path.mk .slash []).join "b.ts"))]

/-- **A closed document has the text of the host until a step leaves it behind.**  In a run in which
every change of the host is reported as soon as it has happened, that is so in every state exactly
if no step closes the document with a text of its own while a project keeps the file, and none
reports a change of the file after which the document is neither read again nor dropped. -/
theorem closed_document_mirrors_iff (settings : Settings) (host : Host)
    (steps : List (Host × Action)) (q : Path) (hlawful : host.Lawful)
    (hfaithful : Faithful host steps) :
    (∀ pre, pre <+: steps → Mirrors (moment host pre) (run settings pre) q) ↔
      ∀ pre step, pre ++ [step] <+: steps → ¬ LeavesBehind step.1 (run settings pre) q step.2 := by
  constructor
  · intro hmirrors pre step hpre
    have hbefore := hmirrors pre ((List.prefix_append pre [step]).trans hpre)
    exact (hfaithful.mirrors_concat_iff hlawful hpre hbefore).1 (hmirrors _ hpre)
  · intro hkept pre hpre
    induction pre using List.reverseRecOn with
    | nil => exact mirrors_of_get?_eq_none rfl
    | append_singleton pre step ih =>
      have hbefore := ih ((List.prefix_append pre [step]).trans hpre)
      exact (hfaithful.mirrors_concat_iff hlawful hpre hbefore).2 (hkept pre step hpre)

theorem closed_document_mirrors_iff_storing :
    let path := (Path.mk .slash []).join "b.ts"
    alone.host.Lawful ∧ Faithful alone.host storing ∧
      (∀ pre step, pre ++ [step] <+: storing →
        ¬ LeavesBehind step.1 (run .default pre) path step.2) ∧
      (∃ document ∈ (run .default (storing.take 6)).documents.get? path,
        document.isOpen = false ∧ document.content = "import './a'") ∧
      (run .default storing).documents.contains path = false := by
  intro path
  let created := alone.addFile path ""
  let modified := created.addFile path "import './a'"
  have hstate : (alone.hasFile path = false ∧ created.hasFile path = true ∧
      modified.hasFile path = true) ∧
      (∀ pre ∈ storing.inits, Mirrors (moment alone.host pre) (run .default pre) path) ∧
      (∃ document ∈ (run .default (storing.take 6)).documents.get? path,
        document.isOpen = false ∧ document.content = "import './a'") ∧
      (run .default storing).documents.contains path = false := by
    decide +kernel
  obtain ⟨⟨halone, hcreated, hmodified⟩, hmirrors, hclosed, hdropped⟩ := hstate
  have hcreation := Memory.addFile_describes alone path ""
  have hmodification := Memory.addFile_describes created path "import './a'"
  rw [halone] at hcreation
  rw [hcreated] at hmodification
  have hfaithful : Faithful alone.host storing :=
    ⟨.inl rfl, .inr ⟨_, rfl, hcreation⟩, .inl rfl, .inr ⟨_, rfl, hmodification⟩, .inl rfl,
      .inl rfl, .inr ⟨_, rfl, Memory.removeFile_describes hmodified⟩, trivial⟩
  have hkept := (closed_document_mirrors_iff .default alone.host storing path
    (Memory.host_lawful alone) hfaithful).1 fun pre hpre =>
      hmirrors pre ((List.mem_inits pre storing).2 hpre)
  exact ⟨Memory.host_lawful alone, hfaithful, hkept, hclosed, hdropped⟩

/-- **A document keeps what an editor has not stored.**  The file is still one of those of the first
project when the editor closes it, so the document stays with a text that the host never had. -/
theorem closed_document_differs_from_the_host :
    let q := (Path.mk .slash []).join "b.ts"
    importing.host.Lawful ∧ Faithful importing.host discarding ∧
      ∃ document ∈ (run .default discarding).documents.get? q, document.isOpen = false ∧
        document.content = "import './a'" ∧ (moment importing.host discarding).read q = .ok "" :=
  ⟨Memory.host_lawful importing, ⟨.inl rfl, .inl rfl, .inl rfl, .inl rfl, trivial⟩,
    by decide +kernel⟩

end Codebase.Workspace
