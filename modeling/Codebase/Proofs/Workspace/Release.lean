import Codebase.Proofs.Workspace.Lifecycle
/-!
# When documents are dropped

A document is kept as long as it is open or linked to a project, and no longer.  `Anchored` says so;
while a path is taken away from its owners it may be the spare one, of which nothing is said.

* `Anchored.removeProject`, `Anchored.record`, … — the operations that write the index.
* `Transaction.anchored` — every transaction keeps it.
* `documents_are_anchored` — it holds after every run, and no action drops an open document.
-/

namespace Codebase.Workspace

variable {host : Host} {action : Action} {w w' : Workspace} {id x : ProjectId} {path q : Path}
  {spare : Option Path} {s s' : Stage}

/-! ## The order of owners -/

theorem Move.listing (h : Move host w w') (hlisting : Ownership.Listing w.ownership.owners) :
    Ownership.Listing w'.ownership.owners := by
  cases h with
  | touch id => exact hlisting
  | outdate id => exact hlisting
  | addRoot id path =>
    unfold Workspace.addRoot
    split
    · exact hlisting.link
    · exact hlisting
  | dropRoot id path project _ _ => exact hlisting
  | loseRoot id path => exact hlisting.unlink
  | start origin capability _ => exact hlisting
  | standIn path documents _ _ => exact hlisting.link
  | retire id =>
    unfold removeProject
    split
    · exact hlisting.replaceMembers
    · exact hlisting
  | release path _ => exact hlisting
  | rebuild id project rebuilt build _ _ => exact hlisting.replaceMembers

theorem Moves.listing (h : Moves host w w') (hlisting : Ownership.Listing w.ownership.owners) :
    Ownership.Listing w'.ownership.owners := by
  induction h with
  | refl => exact hlisting
  | tail _ hmove ih => exact hmove.listing ih

/-! ## Anchored documents -/

/-- Every document but the spare one is open or has an owner. -/
structure Anchored (spare : Option Path) (w : Workspace) : Prop where
  consistent : Consistent w
  listing : Ownership.Listing w.ownership.owners
  kept : ∀ q, some q ≠ spare → w.documents.contains q = true →
    w.documents.isOpen q = true ∨ ∃ x, x ∈ w.ownership.ownersOf q

theorem anchored_new (settings : Settings) : Anchored none (new settings) where
  consistent := consistent_new settings
  listing := nofun
  kept _ _ h := by cases h

/-- Moves that leave the documents alone and unlink the spare path at most. -/
theorem Anchored.links (h : Anchored spare w) (hmoves : Moves host w w')
    (hdocuments : w'.documents = w.documents)
    (howners : ∀ q, some q ≠ spare → ∀ x ∈ w.ownership.ownersOf q, x ∈ w'.ownership.ownersOf q) :
    Anchored spare w' where
  consistent := hmoves.consistent h.consistent
  listing := hmoves.listing h.listing
  kept q hq hcontains := by
    rw [hdocuments] at hcontains ⊢
    exact (h.kept q hq hcontains).imp_right fun ⟨x, hx⟩ => ⟨x, howners q hq x hx⟩

theorem Anchored.touch (h : Anchored spare w) (id : ProjectId) :
    Anchored spare (w.modifyProject id Project.touch) := by
  have hmoves : Moves Memory.empty.host w (w.modifyProject id Project.touch) :=
    (Move.touch w id).moves
  exact h.links hmoves rfl fun _ _ _ hx => hx

theorem Anchored.addRoot (h : Anchored spare w) (id : ProjectId) (path : Path) :
    Anchored spare (w.addRoot id path) := by
  have hmoves : Moves Memory.empty.host w (w.addRoot id path) := (Move.addRoot w id path).moves
  refine h.links hmoves ?_ fun q _ x hx => ?_
  · unfold Workspace.addRoot
    split <;> rfl
  · unfold Workspace.addRoot
    split
    · exact Ownership.mem_ownersOf_add.2 (.inl hx)
    · exact hx

/-- A project gets other members, documents of which may be new; those that nobody owns then are
dropped. -/
theorem Anchored.replaceMembers (h : Anchored spare w) (id : ProjectId) {members : List Path}
    {documents : Documents}
    (hopen : ∀ q, documents.isOpen q = w.documents.isOpen q)
    (hnew : ∀ q, documents.contains q = true → w.documents.contains q = true ∨ q ∈ members)
    (hq : some q ≠ spare)
    (hcontains :
      (documents.forgetAll (w.ownership.replaceMembers id members).1).contains q = true) :
    w.documents.isOpen q = true ∨
      ∃ x, x ∈ (w.ownership.replaceMembers id members).2.ownersOf q := by
  obtain ⟨hdocument, hleft⟩ := Documents.contains_forgetAll hcontains
  rw [hopen] at hleft
  rcases hnew q hdocument with hbefore | hmember
  · rcases h.kept q hq hbefore with hopened | ⟨x, hx⟩
    · exact .inl hopened
    · -- a path that has lost its last owner is an orphan, and only open ones are left
      by_cases howned : ∃ y, y ∈ (w.ownership.replaceMembers id members).2.ownersOf q
      · exact .inr howned
      · exact .inl (hleft (Ownership.mem_orphans_of_not_owned h.listing h.consistent.mirrored hx
          (not_exists.1 howned)))
  · refine .inr ⟨id, (Ownership.mem_ownersOf_replaceMembers h.consistent.mirrored).2 ?_⟩
    rw [if_pos rfl]
    exact hmember

theorem Anchored.removeProject (h : Anchored spare w) (id : ProjectId) :
    Anchored spare (w.removeProject id) := by
  have hmoves : Moves Memory.empty.host w (w.removeProject id) := (Move.retire w id).moves
  refine ⟨hmoves.consistent h.consistent, hmoves.listing h.listing, fun q hq hcontains => ?_⟩
  rw [hmoves.isOpen]
  unfold Workspace.removeProject at hcontains ⊢
  split
  · rename_i hlive
    rw [if_pos hlive] at hcontains
    exact h.replaceMembers id (fun _ => rfl) (fun _ h => .inl h) hq hcontains
  · rename_i hgone
    rw [if_neg hgone] at hcontains
    exact h.kept q hq hcontains

theorem Anchored.removeProjects (h : Anchored spare w) (ids : List ProjectId) :
    Anchored spare (w.removeProjects ids) := by
  unfold Workspace.removeProjects
  induction ids generalizing w with
  | nil => exact h
  | cons id rest ih => exact ih (h.removeProject id)

/-- What a build reads is among its files, so it is linked. -/
theorem Anchored.record {project rebuilt : Project} {build : Build} (h : Anchored spare w)
    (hlive : w.project? id = some project)
    (hbuilt : project.refresh? (w.context host) = some (rebuilt, build)) :
    Anchored spare (w.record id rebuilt build) := by
  have hmoves : Moves host w (w.record id rebuilt build) :=
    (Move.rebuild w id project rebuilt build hlive hbuilt).moves
  obtain ⟨-, hrebuilt⟩ := Project.rebuilt_of_refresh? hbuilt
  obtain ⟨hdiscovered, -⟩ := hrebuilt.discovered_spec
  refine ⟨hmoves.consistent h.consistent, hmoves.listing h.listing, fun q hq hcontains => ?_⟩
  rw [hmoves.isOpen]
  refine h.replaceMembers id (Documents.isOpen_foldl_note w.documents build.discovered)
    (fun q hnoted => ?_) hq hcontains
  refine (Documents.of_contains_foldl_note hnoted).imp_right fun ⟨text, hfound⟩ => ?_
  exact Project.mem_members.2 (Project.contains_iff.2
    (.inr ⟨build.files, hrebuilt.derived, (hdiscovered _ hfound).1⟩))

theorem Anchored.provide {documents : Documents} (h : Anchored none w)
    (hunowned : w.ownership.ownersOf path = [])
    (hnoted : w.documents.contains path = true ∧ documents = w.documents ∨
      ∃ text, host.read path = .ok text ∧ documents = w.documents.note path text) :
    Anchored none ({ w with documents }.addStandIn path).2 := by
  have hmoves : Moves host w ({ w with documents }.addStandIn path).2 :=
    (Move.standIn w path documents hunowned hnoted).moves
  refine ⟨hmoves.consistent h.consistent, hmoves.listing h.listing, fun q hq hcontains => ?_⟩
  by_cases hne : q = path
  · exact .inr ⟨⟨w.lastNumber + 1⟩, Ownership.mem_ownersOf_add.2 (.inr ⟨rfl, hne⟩)⟩
  · have hbefore : w.documents.contains q = true := by
      rcases hnoted with ⟨-, rfl⟩ | ⟨text, -, rfl⟩
      · exact hcontains
      · have hsame : (w.documents.note path text).get? q = w.documents.get? q := by
          rw [Documents.get?_note, if_neg fun heq => hne heq.1]
        exact (Documents.contains_congr hsame).symm.trans hcontains
    rw [hmoves.isOpen]
    exact (h.kept q hq hbefore).imp_right fun ⟨x, hx⟩ =>
      ⟨x, Ownership.mem_ownersOf_add.2 (.inl hx)⟩

/-! ## A path is taken from its owners -/

/-- Nothing is said of one path from here on. -/
theorem Anchored.weaken (h : Anchored none w) (path : Path) : Anchored (some path) w where
  consistent := h.consistent
  listing := h.listing
  kept q _ := h.kept q nofun

/-- Only one path changes. -/
theorem Anchored.documents {documents : Documents} (h : Anchored none w)
    (hothers : ∀ q, q ≠ path → documents.get? q = w.documents.get? q) :
    Anchored (some path) { w with documents } where
  consistent := h.consistent.documents documents
  listing := h.listing
  kept q hq hcontains := by
    have hne : q ≠ path := fun heq => hq (congrArg some heq)
    have hsame := hothers q hne
    have hkept := h.kept q nofun ((Documents.contains_congr hsame).symm.trans hcontains)
    exact hkept.imp_left (Documents.isOpen_congr hsame).trans

/-- The spare path is open, or an owner is left. -/
theorem Anchored.settle (h : Anchored (some path) w)
    (hpath : w.documents.contains path = true →
      w.documents.isOpen path = true ∨ ∃ x, x ∈ w.ownership.ownersOf path) : Anchored none w where
  consistent := h.consistent
  listing := h.listing
  kept q _ hcontains := by
    by_cases hne : q = path
    · subst hne
      exact hpath hcontains
    · exact h.kept q (fun heq => hne (Option.some.inj heq)) hcontains

theorem Anchored.takeRoot {project : Project} (h : Anchored (some path) w)
    (hlive : w.project? id = some project) :
    Anchored (some path)
      (if (project.removeRoot path).contains path then
        w.modifyProject id fun _ => project.removeRoot path
      else (w.modifyProject id fun _ => project.removeRoot path).removeLink id path) := by
  refine h.links (takeRoot_moves hlive : Moves Memory.empty.host w _) ?_ fun q hq x hx => ?_
  · split <;> rfl
  · split
    · exact hx
    · refine Ownership.mem_ownersOf_remove.2 ⟨hx, ?_⟩
      rintro ⟨-, rfl⟩
      exact hq rfl

theorem Anchored.unrootFrom {s : Workspace × List ProjectId} (h : Anchored (some path) s.1)
    (id : ProjectId) : Anchored (some path) (unrootFrom path s id).1 := by
  unfold Workspace.unrootFrom
  simp only
  split
  · exact h
  · rename_i project hlive
    split
    · exact h.takeRoot hlive
    · exact h

theorem Anchored.closeIn {s : Workspace × List ProjectId} (h : Anchored (some path) s.1)
    (id : ProjectId) : Anchored (some path) (closeIn path s id).1 := by
  unfold Workspace.closeIn
  simp only
  split
  · exact h
  · rename_i project hlive
    split
    · exact h.takeRoot hlive
    · exact h.touch id

theorem Anchored.unroot (h : Anchored none w) (keep : Option ProjectId)
    (hopen : w.documents.isOpen path = true) : Anchored none (w.unroot path keep) := by
  have hmoves : Moves Memory.empty.host w (w.unroot path keep) := unroot_moves w path keep
  let others := (w.ownership.ownersOf path).filter fun id => some id ≠ keep
  have hfold : Anchored (some path) (others.foldl (Workspace.unrootFrom path) (w, [])).1 :=
    List.foldlRecOn (motive := fun s => Anchored (some path) s.1) others
      (Workspace.unrootFrom path) (h.weaken path) fun _ hs id _ => hs.unrootFrom id
  exact (hfold.removeProjects _).settle fun _ => .inl ((hmoves.isOpen path).trans hopen)

/-- A closed document that is dropped is not spare any more. -/
theorem Anchored.forget (h : Anchored (some path) w) (hclosed : w.documents.isOpen path = false) :
    Anchored none { w with documents := w.documents.forget path } where
  consistent := h.consistent.documents _
  listing := h.listing
  kept q _ hcontains := by
    have hget := Documents.get?_forget w.documents path q
    by_cases hne : q = path
    · rw [if_pos ⟨hne, hclosed⟩] at hget
      exact absurd hcontains (Bool.eq_false_iff.1 (Table.contains_eq_false.2 hget))
    · rw [if_neg fun heq => hne heq.1] at hget
      have hkept := h.kept q (fun heq => hne (Option.some.inj heq))
        ((Documents.contains_congr hget).symm.trans hcontains)
      exact hkept.imp_left (Documents.isOpen_congr hget).trans

theorem Anchored.forgetUnowned (h : Anchored (some path) w)
    (hclosed : w.documents.isOpen path = false) : Anchored none (w.forgetUnowned path) := by
  unfold Workspace.forgetUnowned
  split
  · rename_i howned
    exact h.settle fun _ => .inr (Ownership.exists_owner h.listing howned)
  · exact h.forget hclosed

theorem Anchored.closing {documents : Documents} (h : Anchored none w)
    (hclosed : w.documents.close path = .ok documents) : Anchored none (w.closeFile path).2 := by
  obtain ⟨hothers, -, hpath, -⟩ := Documents.of_close hclosed
  have hfold : Anchored (some path)
      ((w.ownership.ownersOf path).foldl (Workspace.closeIn path) ({ w with documents }, [])).1 :=
    List.foldlRecOn (motive := fun s => Anchored (some path) s.1) (w.ownership.ownersOf path)
      (Workspace.closeIn path) (h.documents hothers) fun _ hs id _ => hs.closeIn id
  have hmoves : Moves Memory.empty.host { w with documents }
      ((w.ownership.ownersOf path).foldl (Workspace.closeIn path) ({ w with documents }, [])).1 :=
    Moves.foldl_fst (fun s id => closeIn_moves path s id) (w.ownership.ownersOf path)
      ({ w with documents }, [])
  unfold closeFile
  rw [hclosed]
  simp only
  generalize (w.ownership.ownersOf path).foldl (Workspace.closeIn path)
    ({ w with documents }, []) = state at hfold hmoves
  have hremoved : Moves Memory.empty.host { w with documents } (state.1.removeProjects state.2) :=
    hmoves.trans (removeProjects_moves state.1 state.2)
  exact (hfold.removeProjects state.2).forgetUnowned ((hremoved.isOpen path).trans hpath)

theorem Anchored.disown (h : Anchored (some path) w) (id : ProjectId) :
    Anchored (some path) (disown path w id) := by
  have hmove : Move Memory.empty.host w (Workspace.disown path w id) := .loseRoot w id path
  refine h.links hmove.moves rfl fun q hq x hx => ?_
  refine Ownership.mem_ownersOf_remove.2 ⟨hx, ?_⟩
  rintro ⟨-, rfl⟩
  exact hq rfl

theorem Anchored.delete (h : Anchored none w) (hclosed : w.documents.isOpen path = false) :
    Anchored none (w.fileDeleted path) := by
  unfold fileDeleted
  rw [if_neg (by rw [hclosed]; exact Bool.false_ne_true)]
  simp only
  generalize (w.projectList.filter fun p => p.kind = .auxiliary && p.hasRoot path).map Project.id =
    standIns
  have hremoved := (h.removeProjects standIns).weaken path
  have hmoves : Moves Memory.empty.host w (w.removeProjects standIns) :=
    removeProjects_moves w standIns
  have hpath := (hmoves.isOpen path).trans hclosed
  generalize w.removeProjects standIns = w₁ at hremoved hpath
  generalize w₁.ownership.ownersOf path = ids
  refine Anchored.forget ?_ ?_
  · exact List.foldlRecOn ids (Workspace.disown path) hremoved fun _ hs id _ => hs.disown id
  · have hdisown : Moves Memory.empty.host w₁ (ids.foldl (Workspace.disown path) w₁) :=
      Moves.foldl (fun w id => (Move.loseRoot w id path).moves) ids w₁
    exact (hdisown.isOpen path).trans hpath

/-! ## Every transaction keeps it -/

theorem Transaction.anchored (h : Transaction host action s s') (hs : Anchored none s.1) :
    Anchored none s'.1 := by
  cases h with
  | touch w _ id => exact hs.touch id
  | outdate w _ id =>
    exact hs.links (Move.outdate w id : Move host w _).moves rfl fun _ _ _ hx => hx
  | rewrite w _ documents sameOpen tracked =>
    refine ⟨hs.consistent.documents documents, hs.listing, fun q hq hcontains => ?_⟩
    exact (hs.kept q hq (tracked q hcontains)).imp_left (sameOpen q).trans
  | settle w _ _ _ => exact hs
  | vacate w _ _ path keep opened _ _ => exact hs.unroot keep opened
  | claim w _ _ id path _ _ _ => exact hs.addRoot id path
  | join w _ _ id path _ _ _ _ => exact hs.addRoot id path
  | found w _ _ path _ _ _ =>
    have hstart : Anchored none w.startInferred.2 :=
      hs.links (startInferred_moves w : Moves host w _) rfl fun _ _ _ hx => hx
    exact hstart.addRoot w.startInferred.1 path
  | start w _ manifestPath state capability _ =>
    have hmove : Move host w
        (w.addProject fun id => .new id (.configured manifestPath state) capability).2 :=
      .start w (.configured manifestPath state) capability nofun
    exact hs.links hmove.moves rfl fun _ _ _ hx => hx
  | rebuild w _ id project rebuilt build live built => exact hs.record live built
  | provide w path documents unowned noted => exact hs.provide unowned noted
  | opening w _ _ path _ _ documents done _ _ =>
    obtain ⟨hothers, hpath, -, -⟩ := Documents.of_open done
    exact ((hs.documents hothers).settle fun _ => .inl hpath).removeProjects _
  | closing w _ path documents _ done => exact hs.closing done
  | delete w _ path closed => exact hs.delete closed
  | dissolve w _ _ id _ _ _ _ _ => exact hs.removeProject id

theorem Transactions.anchored (h : Transactions host action s s') (hs : Anchored none s.1) :
    Anchored none s'.1 := by
  induction h with
  | refl => exact hs
  | tail _ hlast ih => exact hlast.anchored ih

/-! ## Every run -/

theorem run_anchored (settings : Settings) (steps : List (Host × Action)) :
    Anchored none (run settings steps) := by
  have hact : ∀ (w : Workspace) (host : Host) (action : Action), True → Anchored none w →
      Anchored none (w.act host action) :=
    fun w host action _ h => Transactions.anchored (act_transactions h.consistent action) h
  exact run_induction (anchored_new settings) hact steps fun _ _ => trivial

/-- **Documents are kept as long as they are needed, and no longer.**  After every run a document is
open or linked to a live project; the next action leaves open documents open, unless it closes them;
and when nothing is open and there is no configured or auxiliary project, there are no documents at
all. -/
theorem documents_are_anchored (settings : Settings) (steps : List (Host × Action)) :
    let w := run settings steps
    (∀ path, w.documents.contains path = true → w.documents.isOpen path = true ∨
      ∃ id p, w.project? id = some p ∧ id ∈ w.ownership.ownersOf path) ∧
    (∀ host (action : Action) path, w.documents.isOpen path = true →
      action.closed? ≠ some path → (w.act host action).documents.isOpen path = true) ∧
    ((∀ path, w.documents.isOpen path = false) →
      (∀ id p, w.project? id = some p → p.kind ≠ .configured ∧ p.kind ≠ .auxiliary) →
      w.documents.paths = []) := by
  intro w
  have hanchored : Anchored none w := run_anchored settings steps
  have hlawful : Lawful (w, still) := run_lawful settings steps
  have hkept : ∀ path, w.documents.contains path = true → w.documents.isOpen path = true ∨
      ∃ id p, w.project? id = some p ∧ id ∈ w.ownership.ownersOf path := by
    intro path hcontains
    refine (hanchored.kept path nofun hcontains).imp_right fun ⟨id, howner⟩ => ?_
    obtain ⟨p, hp⟩ := hanchored.consistent.live_of_owner howner
    exact ⟨id, p, hp, howner⟩
  refine ⟨hkept, fun host action path hopen hother => ?_, fun hclosed hothers => ?_⟩
  · have hchain : Transactions host action (w, still) (w.act host action, still) :=
      act_transactions hlawful.consistent action
    exact hchain.isOpen hother hopen
  · -- an inferred project would have an open root
    have hnone : ∀ path, w.documents.contains path = false := by
      intro path
      refine Bool.eq_false_iff.2 fun hcontains => ?_
      rcases hkept path hcontains with hopen | ⟨id, p, hp, -⟩
      · exact Bool.eq_false_iff.1 (hclosed path) hopen
      · have hkind : p.kind = .inferred := by
          obtain ⟨hconfigured, hauxiliary⟩ := hothers id p hp
          cases hcases : p.kind with
          | inferred => rfl
          | configured => exact absurd hcases hconfigured
          | auxiliary => exact absurd hcases hauxiliary
        obtain ⟨q, hroot⟩ := hlawful.inferred.rooted id
          (charter?_of_live .inferred nofun hp hkind)
        exact Bool.eq_false_iff.1 (hclosed q) (hlawful.inferred.opened q id hroot)
    exact List.eq_nil_iff_forall_not_mem.2 fun path hpath =>
      Bool.eq_false_iff.1 (hnone path) (Table.contains_iff.2 hpath)

end Codebase.Workspace
