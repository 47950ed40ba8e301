import Codebase.Proofs.Manifest
import Codebase.Proofs.Workspace.Charter
import Codebase.Proofs.Workspace.Holder
/-!
# Transactions

An elementary move may leave an inferred project without roots or an open document without a
project.  A `Transaction` is a group of moves after which that has been made good, together with all
that is known when it happens, and the action that it is part of.  It relates workspaces with the
documents that are *moving*: these are open and may be without a project until they are assigned.

* `assign_transactions`, `refresh_transactions`, … — an operation is a chain of transactions.
* `act_transactions` — so is every action, and nothing is moving before or after it.
* `Transaction.reopens` — a transaction is a change of documents followed by elementary moves.
* `Transactions.configured` — a configured project ends only when its manifest is reported
  deleted.
-/

namespace Codebase.Workspace

/-- A workspace and the open documents that are on their way to a project. -/
abbrev Stage := Workspace × (Path → Prop)

/-- Nothing is on its way. -/
def still : Path → Prop := fun _ => False

/-- A manifest lies in a directory that no configured project governs, if all manifest names are
plain. -/
def Ungoverned (w : Workspace) (manifestPath : Path) : Prop :=
  (∀ name ∈ w.settings.manifestFileNames, Segment.Plain name) →
    ∃ directory, manifestPath.parent? = some directory ∧
      ∀ x other, w.charter? x = some (.configured other) → other.parent? ≠ some directory

/-- A change of a workspace after which the books agree, made by an action, with the host as it is
at that moment. -/
inductive Transaction (host : Host) (action : Action) : Stage → Stage → Prop
  | touch (w : Workspace) (moving : Path → Prop) (id : ProjectId) :
      Transaction host action (w, moving) (w.modifyProject id Project.touch, moving)
  | outdate (w : Workspace) (moving : Path → Prop) (id : ProjectId) :
      Transaction host action (w, moving) (w.modifyProject id Project.outdate, moving)
  /-- Texts change; nothing is opened, closed or tracked anew. -/
  | rewrite (w : Workspace) (moving : Path → Prop) (documents : Documents)
      (sameOpen : ∀ q, documents.isOpen q = w.documents.isOpen q)
      (tracked : ∀ q, documents.contains q = true → w.documents.contains q = true) :
      Transaction host action (w, moving) ({ w with documents }, moving)
  /-- What has a project is not moving. -/
  | settle (w : Workspace) (moving moving' : Path → Prop)
      (placed : ∀ q, moving q → moving' q ∨ ∃ x, w.Holds q x) :
      Transaction host action (w, moving) (w, moving')
  /-- An open document is taken from every project, or from every other one. -/
  | vacate (w : Workspace) (moving moving' : Path → Prop) (path : Path) (keep : Option ProjectId)
      (opened : w.documents.isOpen path = true) (grows : ∀ q, moving q → moving' q)
      (placed : moving' path ∨ ∃ id, keep = some id ∧ w.Holds path id) :
      Transaction host action (w, moving) (w.unroot path keep, moving')
  /-- A configured project gets a root. -/
  | claim (w : Workspace) (moving moving' : Path → Prop) (id : ProjectId) (path manifestPath : Path)
      (configured : w.charter? id = some (.configured manifestPath))
      (others : ∀ q, moving q → q ≠ path → moving' q) :
      Transaction host action (w, moving) (w.addRoot id path, moving')
  /-- The inferred project gets an open document. -/
  | join (w : Workspace) (moving moving' : Path → Prop) (id : ProjectId) (path : Path)
      (shared : w.settings.useSingleInferredProject = true)
      (inferred : w.charter? id = some .inferred) (opened : w.documents.isOpen path = true)
      (others : ∀ q, moving q → q ≠ path → moving' q) :
      Transaction host action (w, moving) (w.addRoot id path, moving')
  /-- An inferred project starts with an open document. -/
  | found (w : Workspace) (moving moving' : Path → Prop) (path : Path)
      (first : w.settings.useSingleInferredProject = true → ∀ x, w.charter? x ≠ some .inferred)
      (opened : w.documents.isOpen path = true)
      (others : ∀ q, moving q → q ≠ path → moving' q) :
      Transaction host action (w, moving)
        (w.startInferred.2.addRoot w.startInferred.1 path, moving')
  /-- A configured project starts without roots. -/
  | start (w : Workspace) (moving : Path → Prop) (manifestPath : Path) (state : ManifestState)
      (capability : Capability) (free : w.Ungoverned manifestPath) :
      Transaction host action (w, moving)
        ((w.addProject fun id => .new id (.configured manifestPath state) capability).2, moving)
  | rebuild (w : Workspace) (moving : Path → Prop) (id : ProjectId) (project rebuilt : Project)
      (build : Build) (live : w.project? id = some project)
      (built : project.refresh? (w.context host) = some (rebuilt, build)) :
      Transaction host action (w, moving) (w.record id rebuilt build, moving)
  /-- An auxiliary project starts for a path that nobody owns. -/
  | provide (w : Workspace) (path : Path) (documents : Documents)
      (unowned : w.ownership.ownersOf path = [])
      (noted : w.documents.contains path = true ∧ documents = w.documents ∨
        ∃ text, host.read path = .ok text ∧ documents = w.documents.note path text) :
      Transaction host action (w, still) (({ w with documents }.addStandIn path).2, still)
  /-- A document is opened, and the auxiliary projects that served it end. -/
  | opening (w : Workspace) (moving moving' : Path → Prop) (path : Path) (content : String)
      (opened : Documents.Opened) (documents : Documents)
      (done : w.documents.open path content = .ok (opened, documents))
      (grows : ∀ q, moving q → moving' q) (placed : moving' path) :
      Transaction host action (w, moving) ({ w with documents }.dropStandIns path, moving')
  | closing (w : Workspace) (moving : Path → Prop) (path : Path) (documents : Documents)
      (asked : action.closed? = some path)
      (done : w.documents.close path = .ok documents) :
      Transaction host action (w, moving) ((w.closeFile path).2, moving)
  /-- A closed document is deleted. -/
  | delete (w : Workspace) (moving : Path → Prop) (path : Path)
      (closed : w.documents.isOpen path = false) :
      Transaction host action (w, moving) (w.fileDeleted path, moving)
  /-- A configured project ends with its manifest, and its open roots are moving. -/
  | dissolve (w : Workspace) (moving moving' : Path → Prop) (id : ProjectId) (project : Project)
      (live : w.project? id = some project)
      (lost : ∃ manifestPath, action = .notice ⟨manifestPath, .deleted⟩ ∧
        project.charter = .configured manifestPath)
      (grows : ∀ q, moving q → moving' q)
      (placed : ∀ q, project.hasRoot q = true → w.documents.isOpen q = true → moving' q) :
      Transaction host action (w, moving) (w.removeProject id, moving')

/-- A chain of transactions. -/
abbrev Transactions (host : Host) (action : Action) : Stage → Stage → Prop :=
  Relation.ReflTransGen (Transaction host action)

variable {host : Host} {action : Action} {w w' : Workspace} {id x : ProjectId} {path q : Path}
  {moving moving' : Path → Prop} {s s' : Stage} {content : String}

theorem Transaction.chain (h : Transaction host action s s') : Transactions host action s s' :=
  .single h

/-! ## What a transaction is made of -/

/-- A change of documents, then elementary moves; what is open stays open unless the action closes
it. -/
theorem Transaction.reopens (h : Transaction host action s s') :
    ∃ documents, Moves host { s.1 with documents } s'.1 ∧ ∀ q, action.closed? ≠ some q →
      s.1.documents.isOpen q = true → documents.isOpen q = true := by
  have hsame : Moves host s.1 s'.1 → ∃ documents, Moves host { s.1 with documents } s'.1 ∧ ∀ q,
      action.closed? ≠ some q → s.1.documents.isOpen q = true → documents.isOpen q = true :=
    fun hmoves => ⟨s.1.documents, hmoves, fun _ _ hq => hq⟩
  cases h with
  | touch w _ id => exact hsame (Move.touch w id).moves
  | outdate w _ id => exact hsame (Move.outdate w id).moves
  | rewrite w _ documents sameOpen _ => exact ⟨documents, .refl, fun q _ => (sameOpen q).trans⟩
  | settle w _ _ _ => exact hsame .refl
  | vacate w _ _ path keep _ _ _ => exact hsame (unroot_moves w path keep)
  | claim w _ _ id path _ _ _ => exact hsame (Move.addRoot w id path).moves
  | join w _ _ id path _ _ _ _ => exact hsame (Move.addRoot w id path).moves
  | found w _ _ path _ _ _ =>
    exact hsame ((startInferred_moves w).trans (Move.addRoot _ _ path).moves)
  | start w _ manifestPath state capability _ =>
    exact hsame (Move.start w (.configured manifestPath state) capability nofun).moves
  | rebuild w _ id project rebuilt build live built =>
    exact hsame (Move.rebuild w id project rebuilt build live built).moves
  | provide w path documents unowned noted =>
    exact hsame (Move.standIn w path documents unowned noted).moves
  | opening w _ _ path _ _ documents done _ _ =>
    obtain ⟨hothers, hpath, -, -⟩ := Documents.of_open done
    refine ⟨documents, dropStandIns_moves _ path, fun q _ hopen => ?_⟩
    by_cases hq : q = path
    · rw [hq]
      exact hpath
    · exact (Documents.isOpen_congr (hothers q hq)).trans hopen
  | closing w _ path documents asked done =>
    refine ⟨documents, closeFile_moves done, fun q hkept hopen => ?_⟩
    have hq : q ≠ path := by
      rintro rfl
      exact hkept asked
    exact (Documents.isOpen_congr ((Documents.of_close done).1 q hq)).trans hopen
  | delete w _ path _ => exact hsame (fileDeleted_moves w path)
  | dissolve w _ _ id _ _ _ _ _ => exact hsame (Move.retire w id).moves

theorem Transaction.isOpen (h : Transaction host action s s') (hkept : action.closed? ≠ some q)
    (hopen : s.1.documents.isOpen q = true) : s'.1.documents.isOpen q = true := by
  obtain ⟨documents, hmoves, hdocuments⟩ := h.reopens
  exact (hmoves.isOpen q).trans (hdocuments q hkept hopen)

theorem Transaction.consistent (h : Transaction host action s s') (hs : Consistent s.1) :
    Consistent s'.1 := by
  obtain ⟨documents, hmoves, -⟩ := h.reopens
  exact hmoves.consistent (hs.documents documents)

theorem Transaction.settings (h : Transaction host action s s') :
    s'.1.settings = s.1.settings := by
  obtain ⟨documents, hmoves, -⟩ := h.reopens
  exact hmoves.settings

/-- A configured project stays, unless its manifest is reported deleted. -/
theorem Transaction.configured (h : Transaction host action s s') (hs : Consistent s.1)
    {manifestPath : Path} (hx : s.1.charter? x = some (.configured manifestPath))
    (hother : action ≠ .notice ⟨manifestPath, .deleted⟩) :
    s'.1.charter? x = some (.configured manifestPath) := by
  have hold : x ≠ ⟨s.1.lastNumber + 1⟩ := by
    rintro rfl
    rw [charter?, hs.fresh] at hx
    cases hx
  cases h with
  | touch w _ id => exact (charter?_touch w id x).trans hx
  | outdate w _ id => exact (charter?_outdate w id x).trans hx
  | rewrite w _ documents _ _ => exact hx
  | settle w _ _ _ => exact hx
  | vacate w _ _ path keep _ _ _ => exact (unroot_thins w path keep).stays x _ nofun hx
  | claim w _ _ id path _ _ _ => exact (charter?_addRoot w id path x).trans hx
  | join w _ _ id path _ _ _ _ => exact (charter?_addRoot w id path x).trans hx
  | found w _ _ path _ _ _ =>
    refine (charter?_addRoot _ _ path x).trans ?_
    exact (charter?_addProject w _ x).trans ((if_neg hold).trans hx)
  | start w _ newPath state capability _ =>
    let make : ProjectId → Project := fun id => .new id (.configured newPath state) capability
    exact (charter?_addProject w make x).trans ((if_neg hold).trans hx)
  | rebuild w _ id project rebuilt build live built => exact (charter?_record live built x).trans hx
  | provide w path documents _ _ =>
    exact (charter?_addStandIn _ path x).trans ((if_neg hold).trans hx)
  | opening w _ _ path _ _ documents _ _ _ =>
    refine (charter?_dropStandIns { w with documents } path x).trans ((if_neg ?_).trans hx)
    rintro ⟨-, haux⟩
    exact absurd (hx.symm.trans haux) nofun
  | closing w _ path documents _ done => exact (closeFile_thins done).stays x _ nofun hx
  | delete w _ path closed =>
    refine (charter?_fileDeleted hs closed x).trans ((if_neg fun haux => ?_).trans hx)
    exact absurd (hx.symm.trans (charter?_of_rootKind .auxiliary nofun haux)) nofun
  | dissolve w _ _ id project live lost _ _ =>
    refine (charter?_removeProject w id x).trans ((if_neg ?_).trans hx)
    rintro rfl
    obtain ⟨p, hp, hcharter⟩ := charter?_eq_some.1 hx
    obtain ⟨other, hnotice, hlost⟩ := lost
    rw [live] at hp
    cases hp
    rw [hcharter] at hlost
    cases hlost
    exact hother hnotice

/-- A configured project is as it was, or new in a directory that nobody governed. -/
theorem Transaction.governing (h : Transaction host action s s') (hs : Consistent s.1)
    {manifestPath : Path} (hx : s'.1.charter? x = some (.configured manifestPath)) :
    s.1.charter? x = some (.configured manifestPath) ∨
      x = ⟨s.1.lastNumber + 1⟩ ∧ s.1.Ungoverned manifestPath := by
  cases h with
  | touch w _ id => exact .inl ((charter?_touch w id x).symm.trans hx)
  | outdate w _ id => exact .inl ((charter?_outdate w id x).symm.trans hx)
  | rewrite w _ documents _ _ => exact .inl hx
  | settle w _ _ _ => exact .inl hx
  | vacate w _ _ path keep _ _ _ => exact .inl ((unroot_thins w path keep).old x _ hx)
  | claim w _ _ id path _ _ _ => exact .inl ((charter?_addRoot w id path x).symm.trans hx)
  | join w _ _ id path _ _ _ _ => exact .inl ((charter?_addRoot w id path x).symm.trans hx)
  | found w _ _ path _ _ _ =>
    rw [charter?_addRoot] at hx
    have hstart := (charter?_addProject w _ x).symm.trans hx
    split at hstart
    · cases hstart
    · exact .inl hstart
  | start w _ newPath state capability free =>
    let make : ProjectId → Project := fun id => .new id (.configured newPath state) capability
    have hstart := (charter?_addProject w make x).symm.trans hx
    split at hstart
    · rename_i hnew
      cases hstart
      exact .inr ⟨hnew, free⟩
    · exact .inl hstart
  | rebuild w _ id project rebuilt build live built =>
    exact .inl ((charter?_record live built x).symm.trans hx)
  | provide w path documents _ _ =>
    rw [charter?_addStandIn] at hx
    split at hx
    · cases hx
    · exact .inl hx
  | opening w _ _ path _ _ documents _ _ _ =>
    rw [charter?_dropStandIns] at hx
    split at hx
    · cases hx
    · exact .inl hx
  | closing w _ path documents _ done => exact .inl ((closeFile_thins done).old x _ hx)
  | delete w _ path closed =>
    rw [charter?_fileDeleted hs closed] at hx
    split at hx
    · cases hx
    · exact .inl hx
  | dissolve w _ _ id _ _ _ _ _ =>
    rw [charter?_removeProject] at hx
    split at hx
    · cases hx
    · exact .inl hx

theorem Transactions.consistent (h : Transactions host action s s') (hs : Consistent s.1) :
    Consistent s'.1 := by
  induction h with
  | refl => exact hs
  | tail _ hlast ih => exact hlast.consistent ih

theorem Transactions.isOpen (h : Transactions host action s s') (hkept : action.closed? ≠ some q)
    (hopen : s.1.documents.isOpen q = true) : s'.1.documents.isOpen q = true := by
  induction h with
  | refl => exact hopen
  | tail _ hlast ih => exact hlast.isOpen hkept ih

theorem Transactions.settings (h : Transactions host action s s') :
    s'.1.settings = s.1.settings := by
  induction h with
  | refl => rfl
  | tail _ hlast ih => exact hlast.settings.trans ih

theorem Transactions.configured (h : Transactions host action s s') (hs : Consistent s.1)
    {manifestPath : Path} (hx : s.1.charter? x = some (.configured manifestPath))
    (hother : action ≠ .notice ⟨manifestPath, .deleted⟩) :
    s'.1.charter? x = some (.configured manifestPath) := by
  induction h with
  | refl => exact hx
  | tail hfirst hlast ih => exact hlast.configured (Transactions.consistent hfirst hs) ih hother

/-! ## Roots change hands -/

theorem foldl_touch_transactions (w : Workspace) (ids : List ProjectId) :
    Transactions host action (w, moving)
      (ids.foldl (fun w id => w.modifyProject id Project.touch) w, moving) := by
  induction ids generalizing w with
  | nil => exact .refl
  | cons id rest ih => exact (Transaction.touch w moving id).chain.trans (ih _)

theorem touchOwners_transactions (w : Workspace) (path : Path) :
    Transactions host action (w, moving) (w.touchOwners path, moving) :=
  foldl_touch_transactions w (w.ownership.ownersOf path)

theorem foldl_unroot_transactions (id : ProjectId) (roots : List Path) (w : Workspace)
    (hroots : ∀ root ∈ roots, w.documents.isOpen root = true ∧ w.Holds root id) :
    Transactions host action (w, moving)
      (roots.foldl (fun w root => w.unroot root (some id)) w, moving) := by
  induction roots generalizing w with
  | nil => exact .refl
  | cons root rest ih =>
    rw [List.forall_mem_cons] at hroots
    obtain ⟨⟨hopen, hholds⟩, hrest⟩ := hroots
    have hmoves : Moves host w (w.unroot root (some id)) := unroot_moves w root (some id)
    refine (Transaction.vacate w moving moving root (some id) hopen (fun _ h => h)
      (.inr ⟨id, rfl, hholds⟩)).chain.trans (ih _ fun r hr => ?_)
    obtain ⟨hopen, p, hp, hp'⟩ := hrest r hr
    exact ⟨(hmoves.isOpen r).trans hopen, p, (project?_unroot_self w root id).trans hp, hp'⟩

theorem takeOverOpenRoots_transactions {p : Project} (hlive : w.project? id = some p)
    (hkind : p.kind ≠ .auxiliary) :
    Transactions host action (w, moving) (w.takeOverOpenRoots id, moving) := by
  refine foldl_unroot_transactions id _ w fun root hroot => ?_
  obtain ⟨hholds, hopen, -⟩ := mem_contestedRoots.1 hroot
  obtain ⟨kind, hroot⟩ := Option.isSome_iff_exists.1 hholds
  obtain ⟨p', hp', hpath, -⟩ := rootKind_eq_some.1 hroot
  rw [hlive] at hp'
  cases hp'
  exact ⟨hopen, p, hlive, hkind, hpath⟩

/-! ## Assignment -/

theorem claims_transactions {manifestPath : Path} (id : ProjectId) (roots : List Path)
    (w : Workspace) (hid : w.charter? id = some (.configured manifestPath)) :
    Transactions host action (w, moving)
      (roots.foldl (fun w root => w.addRoot id root) w, moving) := by
  induction roots generalizing w with
  | nil => exact .refl
  | cons root rest ih =>
    refine (Transaction.claim w moving moving id root manifestPath hid fun _ h _ => h).chain.trans
      (ih _ ?_)
    rw [charter?_addRoot]
    exact hid

theorem startConfigured_transactions (manifest : Manifest) (hfree : w.Ungoverned manifest.path) :
    Transactions host action (w, moving) ((w.startConfigured host manifest).2, moving) := by
  unfold startConfigured
  simp only
  generalize manifest.roots host w.settings.manifestFileNames w.extensions = roots
  have hstart : Transaction host action (w, moving)
      ((w.addProject fun id => .configured id manifest w.settings.capability).2, moving) :=
    .start w moving manifest.path (.loaded manifest) _ hfree
  have hcharter : (w.addProject fun id => .configured id manifest w.settings.capability).2.charter?
      ⟨w.lastNumber + 1⟩ = some (.configured manifest.path) := by
    rw [charter?_addProject, if_pos rfl]
    rfl
  have hroots : Transactions host action
      ((w.addProject fun id => .configured id manifest w.settings.capability).2, moving) _ :=
    claims_transactions ⟨w.lastNumber + 1⟩ roots _ hcharter
  have hkind := kind_foldl_addRoot
    (w.addProject fun id => .configured id manifest w.settings.capability).2 roots
    ⟨w.lastNumber + 1⟩
  rw [project?_addProject, if_pos rfl] at hkind
  obtain ⟨p, hp, hkind⟩ := Option.map_eq_some_iff.1 hkind
  refine (hstart.chain.trans hroots).trans (takeOverOpenRoots_transactions hp ?_)
  rw [hkind]
  exact nofun

/-- A manifest that is come upon lies in a directory that no project governs. -/
theorem ungoverned_of_lookup {ancestor manifestPath : Path} (host : Host)
    (hnone : (w.projectList.find? fun p => p.manifestDirectory? = some ancestor) = none)
    (hlookup : (Manifest.lookup host w.settings.manifestFileNames ancestor).path? =
      some manifestPath) :
    w.Ungoverned manifestPath := by
  intro hplain
  refine ⟨ancestor, Manifest.parent?_of_lookup hplain hlookup, fun x other hx hparent => ?_⟩
  obtain ⟨p, hp, hcharter⟩ := charter?_eq_some.1 hx
  have hdirectory : p.manifestDirectory? = some ancestor := by
    unfold Project.manifestDirectory?
    rw [Project.manifestPath?_eq_some_iff.2 hcharter]
    exact hparent
  exact List.find?_eq_none.1 hnone p (mem_projectList.2 ⟨x, hp⟩) (decide_eq_true hdirectory)

theorem ungoverned_of_governor? {governor : Governor}
    (h : w.governor? host path = some governor) :
    (∀ manifest, governor = .manifest manifest → w.Ungoverned manifest.path) ∧
      ∀ manifestPath reason, governor = .unloadable manifestPath reason →
        w.Ungoverned manifestPath := by
  obtain ⟨directory, -, hfound⟩ := Option.bind_eq_some_iff.1 h
  obtain ⟨ancestor, -, hat⟩ := List.exists_of_findSome?_eq_some hfound
  unfold governorAt? at hat
  split at hat
  · split at hat
    · cases hat
      exact ⟨nofun, nofun⟩
    · cases hat
  · rename_i hnone
    split at hat
    · cases hat
    · rename_i manifest hlookup
      split at hat
      · cases hat
        refine ⟨fun m hm => ?_, nofun⟩
        cases hm
        refine ungoverned_of_lookup host hnone ?_
        rw [hlookup]
        rfl
      · cases hat
    · rename_i manifestPath reason hlookup
      cases hat
      refine ⟨nofun, fun m r hm => ?_⟩
      cases hm
      refine ungoverned_of_lookup host hnone ?_
      rw [hlookup]
      rfl

/-- A project that takes the document is found or started for it. -/
theorem configuredFor_transactions {taker : ProjectId × Workspace} (h : Consistent w)
    (htaker : w.configuredFor host path = some taker) :
    Transactions host action (w, moving) (taker.2, moving) ∧
      ∃ manifestPath, taker.2.charter? taker.1 = some (.configured manifestPath) := by
  obtain ⟨⟨p, hp, hkind⟩, -⟩ := configuredFor_spec h htaker
  refine ⟨?_, ?_⟩
  · unfold configuredFor at htaker
    split at htaker
    · cases htaker
    · split at htaker
      · cases htaker
      · cases htaker
        exact .refl
      · rename_i manifest hgovernor
        cases htaker
        exact startConfigured_transactions manifest ((ungoverned_of_governor? hgovernor).1 _ rfl)
      · rename_i manifestPath reason hgovernor
        cases htaker
        exact (Transaction.start w moving manifestPath (.failed reason) _
          ((ungoverned_of_governor? hgovernor).2 _ _ rfl)).chain
  · obtain ⟨manifestPath, hcharter⟩ := Project.charter_eq_configured.2 hkind
    exact ⟨manifestPath, charter?_eq_some.2 ⟨p, hp, hcharter⟩⟩

theorem charter?_ne_inferred_of_ofKind (h : Consistent w) (hnone : w.ofKind .inferred = []) :
    w.charter? x ≠ some .inferred := by
  intro hx
  obtain ⟨p, hp, -⟩ := charter?_eq_some.1 hx
  have hmem : x ∈ w.ofKind .inferred := (mem_ofKind h).2 ⟨p, hp, kind_of_charter? hp hx⟩
  rw [hnone] at hmem
  exact List.not_mem_nil hmem

/-- An open document is assigned, and is not moving any more. -/
theorem assign_transactions (h : Consistent w) (hopen : w.documents.isOpen path = true)
    (hothers : ∀ q, moving q → q ≠ path → moving' q) :
    Transactions host action (w, moving) ((w.assign host path).2, moving') := by
  unfold assign
  cases htaker : w.configuredFor host path with
  | some taker =>
    obtain ⟨hchain, manifestPath, hcharter⟩ := configuredFor_transactions h htaker
    exact hchain.trans
      (Transaction.claim taker.2 moving moving' taker.1 path manifestPath hcharter hothers).chain
  | none =>
    simp only [Option.getD_none]
    unfold inferredFor
    split
    · rename_i id rest hids
      split
      · rename_i hshared
        have hid : id ∈ w.ofKind .inferred := by
          rw [hids]
          exact List.mem_cons_self
        obtain ⟨p, hp, hkind⟩ := (mem_ofKind h).1 hid
        have hcharter : w.charter? id = some .inferred :=
          charter?_of_live .inferred nofun hp hkind
        exact (Transaction.join w moving moving' id path hshared hcharter hopen hothers).chain
      · rename_i hseparate
        exact (Transaction.found w moving moving' path (fun hshared => absurd hshared hseparate)
          hopen hothers).chain
    · rename_i hnone
      exact (Transaction.found w moving moving' path
        (fun _ x => charter?_ne_inferred_of_ofKind h hnone) hopen hothers).chain

/-! ## Building -/

theorem refresh_transactions (w : Workspace) (id : ProjectId) :
    Transactions host action (w, moving) ((w.refresh host id).2, moving) := by
  rw [refresh_eq]
  split
  · exact .refl
  · rename_i project hlive
    split
    · exact .refl
    · rename_i rebuilt build hbuilt
      have hrebuild : Transaction host action (w, moving) (w.record id rebuilt build, moving) :=
        .rebuild w moving id project rebuilt build hlive hbuilt
      simp only
      split
      · rename_i hkind
        have hother : rebuilt.kind ≠ .auxiliary := by
          rw [hkind]
          exact nofun
        exact hrebuild.chain.trans
          (takeOverOpenRoots_transactions (project?_record_self hlive) hother)
      · exact hrebuild.chain

theorem providerFor_transactions (w : Workspace) (path : Path) :
    Transactions host action (w, still) ((w.providerFor host path).2, still) := by
  rcases providerFor_eq host w path with hsame | ⟨documents, hunowned, hnoted, hadded⟩
  · rw [hsame]
  · rw [hadded]
    exact (Transaction.provide w path documents hunowned hnoted).chain

theorem Inquiries.transactions {asked : Option Path} (h : Inquiries asked host w w') :
    Transactions host action (w, still) (w', still) := by
  induction h with
  | refl => exact .refl
  | tail _ hlast ih =>
    refine ih.trans ?_
    cases hlast with
    | refresh id => exact refresh_transactions _ id
    | provide path => exact providerFor_transactions _ path

/-! ## Events of an editor -/

theorem opening_transactions {opened : Documents.Opened} {documents : Documents}
    (hopened : w.documents.open path content = .ok (opened, documents)) :
    Transactions host action (w, still) (w.opening path opened documents, (· = path)) := by
  have hopening : Transaction host action (w, still)
      ({ w with documents }.dropStandIns path, (· = path)) :=
    .opening w still (· = path) path content opened documents hopened nofun rfl
  unfold opening
  simp only
  split
  · exact hopening.chain.trans (touchOwners_transactions _ path)
  · exact hopening.chain

theorem openFile_transactions (h : Consistent w) (path : Path) (content : String) :
    Transactions host action (w, still) ((w.openFile host path content).2, still) := by
  have hopens := openFile_opens host w path content
  generalize w.openFile host path content = answer at hopens ⊢
  cases hopens with
  | refused e => exact .refl
  | @held opened documents id hopened hholder =>
    have hopening : Transactions host action (w, still) _ := opening_transactions hopened
    have hholds := holds_iff_rootKind.2 (holder?_eq_some hholder)
    have hsettle : Transaction host action (w.opening path opened documents, (· = path))
        (w.opening path opened documents, still) :=
      .settle _ _ _ fun q hq => .inr ⟨id, hq ▸ hholds⟩
    exact (hopening.trans hsettle.chain).trans (Transaction.touch _ still id).chain
  | @assigned opened documents hopened hnone =>
    have hopening : Transactions host action (w, still) _ := opening_transactions hopened
    refine hopening.trans (assign_transactions (hopening.consistent h) (isOpen_opening hopened) ?_)
    exact fun q hq hne => absurd hq hne

theorem closeFile_transactions (w : Workspace) (hasked : action.closed? = some path) :
    Transactions host action (w, still) ((w.closeFile path).2, still) := by
  cases hclosed : w.documents.close path with
  | error e =>
    unfold closeFile
    rw [hclosed]
  | ok documents => exact (Transaction.closing w still path documents hasked hclosed).chain

theorem editFile_transactions (w : Workspace) (path : Path) (change : TextChange)
    (version : Nat) :
    Transactions host action (w, still) ((w.editFile path change version).2, still) := by
  unfold editFile
  split
  · exact .refl
  · rename_i documents hedit
    obtain ⟨hothers, hbefore, hafter⟩ := Documents.of_edit hedit
    have hrewrite : Transaction host action (w, still) ({ w with documents }, still) := by
      refine .rewrite w still documents (fun q => ?_) fun q hq => ?_
      · by_cases hne : q = path
        · rw [hne, hbefore, hafter]
        · exact Documents.isOpen_congr (hothers q hne)
      · by_cases hne : q = path
        · rw [hne]
          exact Documents.contains_of_isOpen hbefore
        · exact (Documents.contains_congr (hothers q hne)).symm.trans hq
    exact hrewrite.chain.trans (touchOwners_transactions _ path)

/-! ## Reports of the host -/

theorem fileModified_transactions (w : Workspace) (path : Path) :
    Transactions host action (w, still) ((w.fileModified host path).2, still) := by
  rcases fileModified_eq host w path with hsame | ⟨text, changed, documents, -, hrefresh, hnext⟩
  · rw [hsame]
  · obtain ⟨hothers, hsame, -⟩ := Documents.of_refresh hrefresh
    have hrewrite : Transaction host action (w, still) ({ w with documents }, still) := by
      refine .rewrite w still documents (fun q => ?_) fun q =>
        Documents.contains_of_refresh hrefresh
      by_cases hne : q = path
      · rw [hne, hsame]
      · exact Documents.isOpen_congr (hothers q hne)
    rw [hnext]
    split
    · exact hrewrite.chain.trans (touchOwners_transactions _ path)
    · exact hrewrite.chain

/-- A path is given to configured projects, each of which takes over what is open. -/
theorem foldl_claim_transactions (h : Consistent w) (path : Path) (ids : List ProjectId)
    (hids : ∀ id ∈ ids, ∃ manifestPath, w.charter? id = some (.configured manifestPath)) :
    Transactions host (.notice ⟨path, .created⟩) (w, still)
      (ids.foldl (fun w id => (w.addRoot id path).takeOverOpenRoots id) w, still) := by
  induction ids generalizing w with
  | nil => exact .refl
  | cons id rest ih =>
    rw [List.forall_mem_cons] at hids
    obtain ⟨⟨manifestPath, hcharter⟩, hrest⟩ := hids
    have hclaim : Transaction host (.notice ⟨path, .created⟩) (w, still)
        (w.addRoot id path, still) :=
      .claim w still still id path manifestPath hcharter nofun
    have hadded := (charter?_addRoot w id path id).trans hcharter
    obtain ⟨p, hp, -⟩ := charter?_eq_some.1 hadded
    have hkind : p.kind ≠ .auxiliary := by
      rw [kind_of_charter? hp hadded]
      exact nofun
    have hchain : Transactions host (.notice ⟨path, .created⟩) (w, still)
        ((w.addRoot id path).takeOverOpenRoots id, still) :=
      hclaim.chain.trans (takeOverOpenRoots_transactions hp hkind)
    -- the others are still there when their turn comes
    refine hchain.trans (ih (hchain.consistent h) fun other hother => ?_)
    obtain ⟨otherPath, hcharter⟩ := hrest other hother
    exact ⟨otherPath, hchain.configured h hcharter nofun⟩

theorem charter?_of_claims (h : Consistent w)
    (hid : id ∈ (w.projectList.filter (w.claims path)).map Project.id) :
    ∃ manifestPath, w.charter? id = some (.configured manifestPath) := by
  obtain ⟨p, hp, rfl⟩ := List.mem_map.1 hid
  obtain ⟨hlisted, hclaims⟩ := List.mem_filter.1 hp
  obtain ⟨k, hk⟩ := mem_projectList.1 hlisted
  obtain ⟨manifestPath, hcharter⟩ := Project.charter_eq_configured.2 (kind_of_claims hclaims)
  rw [h.named k p hk]
  exact ⟨manifestPath, charter?_eq_some.2 ⟨p, hk, hcharter⟩⟩

theorem fileCreated_transactions (h : Consistent w) (path : Path) :
    Transactions host (.notice ⟨path, .created⟩) (w, still) (w.fileCreated path, still) := by
  unfold fileCreated
  simp only
  have htouch : Transactions host (.notice ⟨path, .created⟩) (w, still) _ :=
    foldl_touch_transactions w ((w.projectList.filter hopes).map Project.id)
  have hconsistent := htouch.consistent h
  exact htouch.trans
    (foldl_claim_transactions hconsistent path _ fun id => charter?_of_claims hconsistent)

theorem fileDeleted_transactions (w : Workspace) (path : Path) :
    Transactions host action (w, still) (w.fileDeleted path, still) := by
  cases hclosed : w.documents.isOpen path with
  | true =>
    unfold fileDeleted
    rw [if_pos hclosed]
  | false => exact (Transaction.delete w still path hclosed).chain

theorem reassign_transactions (h : Consistent w) (paths : List Path)
    (hpaths : ∀ p ∈ paths, w.documents.isOpen p = true) :
    Transactions host action (w, (· ∈ paths)) (w.reassign host paths, still) := by
  unfold reassign
  induction paths generalizing w with
  | nil => exact (Transaction.settle w _ _ nofun).chain
  | cons path rest ih =>
    rw [List.forall_mem_cons] at hpaths
    have hassign : Transactions host action (w, (· ∈ path :: rest))
        ((w.assign host path).2, (· ∈ rest)) :=
      assign_transactions h hpaths.1 fun q hq hne => (List.mem_cons.1 hq).resolve_left hne
    have hmoves : Moves host w (w.assign host path).2 := assign_moves w path
    exact hassign.trans (ih (hassign.consistent h) fun p hp =>
      (hmoves.isOpen p).trans (hpaths.2 p hp))

theorem manifestDeleted_transactions {p : Project} (h : Consistent w)
    (hlive : w.project? id = some p) (hcharter : p.charter = .configured path) :
    Transactions host (.notice ⟨path, .deleted⟩) (w, still) (w.manifestDeleted host id, still) := by
  unfold manifestDeleted
  simp only [hlive]
  have hdissolve : Transaction host (.notice ⟨path, .deleted⟩) (w, still)
      (w.removeProject id, (· ∈ p.roots.toList.filter w.documents.isOpen)) := by
    refine .dissolve w still _ id p hlive ⟨path, rfl, hcharter⟩ nofun fun q hroot hopen => ?_
    exact List.mem_filter.2 ⟨Project.hasRoot_iff.1 hroot, hopen⟩
  have hmoves : Moves host w (w.removeProject id) := (Move.retire w id).moves
  refine hdissolve.chain.trans (reassign_transactions (hmoves.consistent h) _ fun q hq => ?_)
  exact (hmoves.isOpen q).trans (List.mem_filter.1 hq).2

theorem manifestAppeared_transactions (h : Consistent w) (directory : Path) :
    Transactions host action (w, still) (w.manifestAppeared host directory, still) := by
  unfold manifestAppeared
  simp only
  have hopen : ∀ p ∈ w.documents.openPaths.filter (fun p =>
      p.isUnder directory && !w.hasNearerOwner directory p), w.documents.isOpen p = true :=
    fun p hp => isOpen_of_mem_openPaths (List.mem_filter.1 hp).1
  generalize w.documents.openPaths.filter (fun p =>
    p.isUnder directory && !w.hasNearerOwner directory p) = paths at hopen
  induction paths generalizing w with
  | nil => exact .refl
  | cons path rest ih =>
    rw [List.forall_mem_cons] at hopen
    have hvacate : Transactions host action (w, still) (w.unroot path none, (· = path)) :=
      (Transaction.vacate w still (· = path) path none hopen.1 nofun (.inl rfl)).chain
    have hunroot : Moves host w (w.unroot path none) := unroot_moves w path none
    have hassign : Transactions host action (w.unroot path none, (· = path))
        (((w.unroot path none).assign host path).2, still) :=
      assign_transactions (hvacate.consistent h) ((hunroot.isOpen path).trans hopen.1)
        fun q hq hne => absurd hq hne
    have hmoves : Moves host w ((w.unroot path none).assign host path).2 :=
      hunroot.trans (assign_moves _ path)
    have hchain : Transactions host action (w, still)
        (((w.unroot path none).assign host path).2, still) := hvacate.trans hassign
    exact hchain.trans (ih (hchain.consistent h) fun p hp =>
      (hmoves.isOpen p).trans (hopen.2 p hp))

theorem projectOfManifest?_eq_some (h : Consistent w) (hid : w.projectOfManifest? path = some id) :
    ∃ p, w.project? id = some p ∧ p.charter = .configured path := by
  obtain ⟨p, hp, rfl⟩ := Option.map_eq_some_iff.1 hid
  obtain ⟨k, hk⟩ := mem_projectList.1 (List.mem_of_find?_eq_some hp)
  rw [h.named k p hk]
  refine ⟨p, hk, Project.manifestPath?_eq_some_iff.1 ?_⟩
  simpa using List.find?_some hp

theorem manifestEvent_transactions (h : Consistent w) (path : Path) (change : FileChange) :
    Transactions host (.notice ⟨path, change⟩) (w, still)
      (w.manifestEvent host path change, still) := by
  unfold manifestEvent
  split
  · exact (Transaction.outdate w still _).chain
  · exact (Transaction.outdate w still _).chain
  · rename_i id hid
    obtain ⟨p, hp, hcharter⟩ := projectOfManifest?_eq_some h hid
    exact manifestDeleted_transactions h hp hcharter
  · split
    · split
      · exact .refl
      · exact manifestAppeared_transactions h _
    · exact .refl
  · exact .refl

theorem noticeFile_transactions (h : Consistent w) (event : FileEvent) :
    Transactions host (.notice event) (w, still) ((w.noticeFile host event).2, still) := by
  obtain ⟨path, change⟩ := event
  unfold noticeFile
  simp only
  split
  · exact manifestEvent_transactions h path change
  · cases change with
    | created => exact fileCreated_transactions h path
    | modified => exact fileModified_transactions w path
    | deleted => exact fileDeleted_transactions w path

/-! ## Actions -/

theorem serve_transactions (h : Consistent w) (service : LanguageService) (request : Request) :
    Transactions host (.request service request) (w, still)
      ((w.serve service host request).2, still) := by
  have hserves := serve_serves service host w request
  generalize (w.serve service host request).2 = next at hserves ⊢
  cases hserves with
  | opening path content _ hopen =>
    have hopened : Transactions host (.request service request) (w, still)
        ((w.openFile host path content).2, still) :=
      openFile_transactions h path content
    rw [hopen] at hopened
    exact hopened.trans (refresh_transactions _ _)
  | closing file hasks => exact closeFile_transactions w hasks
  | editing file change version => exact editFile_transactions w file change version
  | asking hasked => exact hasked.transactions

/-- **Every action is a chain of transactions**, and nothing is moving before or after it. -/
theorem act_transactions (h : Consistent w) (action : Action) :
    Transactions host action (w, still) (w.act host action, still) := by
  cases action with
  | openFile path content => exact openFile_transactions h path content
  | closeFile path => exact closeFile_transactions w rfl
  | editFile path change version => exact editFile_transactions w path change version
  | notice event => exact noticeFile_transactions h event
  | refresh id => exact refresh_transactions w id
  | refreshAll => exact (refreshEach_inquiries none host w _).transactions
  | filesOf id => exact (filesOf_inquiries none host w id).transactions
  | providerFor path => exact providerFor_transactions w path
  | request service request => exact serve_transactions h service request

end Codebase.Workspace
