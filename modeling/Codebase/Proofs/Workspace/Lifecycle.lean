import Codebase.Proofs.Workspace.Transaction
/-!
# The lives of projects

What holds of the projects of a workspace, whatever has happened to it:

* `Lawful` — every open document has a project, inferred projects have open roots and are as many as
  the settings say, and an auxiliary project has one root, which is closed.
* `Governed` — no directory is governed by two configured projects, if manifest names are plain.
* `Transaction.lawful`, `Transaction.governed` — a transaction keeps both.
* `projects_are_lawful` — so they hold after every run, and a configured project ends with its
  manifest only.
-/

namespace Codebase.Workspace

variable {host : Host} {action : Action} {w w' : Workspace} {id x : ProjectId} {path q : Path}
  {moving moving' : Path → Prop} {s s' : Stage}

/-- The law of inferred projects. -/
structure InferredLaw (w : Workspace) : Prop where
  opened : ∀ q x, w.rootKind q x = some .inferred → w.documents.isOpen q = true
  rooted : ∀ x, w.charter? x = some .inferred → ∃ q, w.rootKind q x = some .inferred
  shared : w.settings.useSingleInferredProject = true → ∀ x y,
    w.charter? x = some .inferred → w.charter? y = some .inferred → x = y
  separate : w.settings.useSingleInferredProject = false → ∀ x q r,
    w.rootKind q x = some .inferred → w.rootKind r x = some .inferred → q = r

/-- The law of auxiliary projects. -/
def AuxiliaryLaw (w : Workspace) : Prop :=
  ∀ x, w.charter? x = some .auxiliary → ∃ q, w.documents.isOpen q = false ∧
    ∀ r, w.rootKind r x = some .auxiliary ↔ r = q

/-- The law of all projects, while the documents that are moving may have none. -/
structure Lawful (s : Stage) : Prop where
  consistent : Consistent s.1
  held : ∀ q, s.1.documents.isOpen q = true → s.2 q ∨ ∃ x, s.1.Holds q x
  inferred : InferredLaw s.1
  auxiliary : AuxiliaryLaw s.1

theorem lawful_new (settings : Settings) : Lawful (new settings, still) where
  consistent := consistent_new settings
  held _ h := by cases h
  inferred := ⟨nofun, nofun, fun _ _ _ => nofun, fun _ _ _ _ => nofun⟩
  auxiliary := nofun

/-- What holds a path holds it still when it is still its root. -/
theorem Holds.congr (h : w.Holds q x) (hroot : w'.rootKind q x = w.rootKind q x) :
    w'.Holds q x := by
  obtain ⟨kind, hkind, hbefore⟩ := holds_iff_rootKind.1 h
  exact holds_iff_rootKind.2 ⟨kind, hkind, hroot.trans hbefore⟩

/-! ## What keeps the law of inferred projects -/

/-- They keep their roots, and documents are opened at most. -/
theorem InferredLaw.congr (h : InferredLaw w) (hsettings : w'.settings = w.settings)
    (hopen : ∀ q, w.documents.isOpen q = true → w'.documents.isOpen q = true)
    (hroots : ∀ q x, w'.rootKind q x = some .inferred ↔ w.rootKind q x = some .inferred)
    (hcharter : ∀ x, w'.charter? x = some .inferred ↔ w.charter? x = some .inferred) :
    InferredLaw w' where
  opened q x hx := hopen q (h.opened q x ((hroots q x).1 hx))
  rooted x hx := by
    obtain ⟨q, hq⟩ := h.rooted x ((hcharter x).1 hx)
    exact ⟨q, (hroots q x).2 hq⟩
  shared hshared x y hx hy := by
    rw [hsettings] at hshared
    exact h.shared hshared x y ((hcharter x).1 hx) ((hcharter y).1 hy)
  separate hseparate x q r hq hr := by
    rw [hsettings] at hseparate
    exact h.separate hseparate x q r ((hroots q x).1 hq) ((hroots r x).1 hr)

/-- Those that are left without roots go. -/
theorem InferredLaw.thins (h : InferredLaw w) (hthins : Thins w w')
    (hsettings : w'.settings = w.settings)
    (hroots : ∀ q x, w'.rootKind q x = some .inferred →
      w.rootKind q x = some .inferred ∧ w'.documents.isOpen q = true) : InferredLaw w' where
  opened q x hx := (hroots q x hx).2
  rooted x hx := by
    obtain ⟨q, hq⟩ := h.rooted x (hthins.old x _ hx)
    exact hthins.rooted x q hq hx
  shared hshared x y hx hy := by
    rw [hsettings] at hshared
    exact h.shared hshared x y (hthins.old x _ hx) (hthins.old y _ hy)
  separate hseparate x q r hq hr := by
    rw [hsettings] at hseparate
    exact h.separate hseparate x q r (hroots q x hq).1 (hroots r x hr).1

/-- The only one gets an open document, or a new one does. -/
theorem InferredLaw.gains (h : InferredLaw w) (id : ProjectId)
    (hsettings : w'.settings = w.settings)
    (hopen : ∀ q, w'.documents.isOpen q = w.documents.isOpen q)
    (hpath : w.documents.isOpen path = true)
    (hroots : ∀ q x, w'.rootKind q x =
      if x = id ∧ q = path then some .inferred else w.rootKind q x)
    (hcharter : ∀ x, w'.charter? x = if x = id then some .inferred else w.charter? x)
    (hshared : w.settings.useSingleInferredProject = true → ∀ x,
      w.charter? x = some .inferred → x = id)
    (hseparate : w.settings.useSingleInferredProject = false → ∀ q,
      w.rootKind q id ≠ some .inferred) : InferredLaw w' where
  opened q x hx := by
    rw [hroots] at hx
    rw [hopen]
    split at hx
    · rename_i hnew
      rw [hnew.2, hpath]
    · exact h.opened q x hx
  rooted x hx := by
    by_cases hnew : x = id
    · exact ⟨path, by rw [hroots, if_pos ⟨hnew, rfl⟩]⟩
    · rw [hcharter, if_neg hnew] at hx
      obtain ⟨q, hq⟩ := h.rooted x hx
      exact ⟨q, by rw [hroots, if_neg fun heq => hnew heq.1, hq]⟩
  shared hmode x y hx hy := by
    have hid : ∀ x, w'.charter? x = some .inferred → x = id := by
      intro x hx
      rw [hcharter] at hx
      split at hx
      · assumption
      · exact hshared (hsettings ▸ hmode) x hx
    rw [hid x hx, hid y hy]
  separate hmode x q r hq hr := by
    rw [hsettings] at hmode
    by_cases hx : x = id
    · have hnone : ∀ q, w'.rootKind q x = some .inferred → q = path := by
        intro q hq
        rw [hroots] at hq
        split at hq
        · rename_i hnew
          exact hnew.2
        · exact absurd (hx ▸ hq) (hseparate hmode q)
      rw [hnone q hq, hnone r hr]
    · rw [hroots, if_neg fun heq => hx heq.1] at hq hr
      exact h.separate hmode x q r hq hr

/-! ## What keeps the law of auxiliary projects -/

/-- Those that stay keep their roots, and these are not opened. -/
theorem AuxiliaryLaw.congr (h : AuxiliaryLaw w)
    (hold : ∀ x, w'.charter? x = some .auxiliary → w.charter? x = some .auxiliary)
    (hroots : ∀ x, w'.charter? x = some .auxiliary → ∀ q,
      w'.rootKind q x = some .auxiliary ↔ w.rootKind q x = some .auxiliary)
    (hopen : ∀ q x, w'.rootKind q x = some .auxiliary → w.documents.isOpen q = false →
      w'.documents.isOpen q = false) : AuxiliaryLaw w' := by
  intro x hx
  obtain ⟨q, hclosed, hroot⟩ := h x (hold x hx)
  have hroot' : ∀ r, w'.rootKind r x = some .auxiliary ↔ r = q :=
    fun r => (hroots x hx r).trans (hroot r)
  exact ⟨q, hopen q x ((hroot' q).2 rfl) hclosed, hroot'⟩

/-- A new one has one path, which is closed. -/
theorem AuxiliaryLaw.addStandIn (h : AuxiliaryLaw w) (hconsistent : Consistent w)
    (hclosed : w.documents.isOpen path = false) : AuxiliaryLaw (w.addStandIn path).2 := by
  have hroots := rootKind_addStandIn hconsistent path
  intro x hx
  rw [charter?_addStandIn] at hx
  split at hx
  · rename_i hnew
    refine ⟨path, hclosed, fun r => ?_⟩
    rw [hroots]
    by_cases hr : r = path
    · rw [if_pos ⟨hnew, hr⟩]
      exact ⟨fun _ => hr, fun _ => rfl⟩
    · rw [if_neg fun heq => hr heq.2, hnew, rootKind_of_none hconsistent.fresh]
      exact ⟨nofun, fun heq => absurd heq hr⟩
  · rename_i hold
    obtain ⟨q, hq, hroot⟩ := h x hx
    refine ⟨q, hq, fun r => ?_⟩
    rw [hroots, if_neg fun heq => hold heq.1]
    exact hroot r

/-! ## Small changes -/

/-- Configured projects may come, go and change, as long as open documents have a project. -/
theorem Lawful.bystander (h : Lawful (w, moving)) (hconsistent : Consistent w')
    (hsettings : w'.settings = w.settings)
    (hopen : ∀ q, w'.documents.isOpen q = w.documents.isOpen q)
    (hheld : ∀ q, w'.documents.isOpen q = true → moving' q ∨ ∃ x, w'.Holds q x)
    (hroots : ∀ q x kind, kind ≠ .configured →
      (w'.rootKind q x = some kind ↔ w.rootKind q x = some kind))
    (hcharter : ∀ x charter, charter.kind ≠ .configured →
      (w'.charter? x = some charter ↔ w.charter? x = some charter)) :
    Lawful (w', moving') where
  consistent := hconsistent
  held := hheld
  inferred := h.inferred.congr hsettings (fun q hq => (hopen q).trans hq)
    (fun q x => hroots q x .inferred nofun) fun x => hcharter x .inferred nofun
  auxiliary := h.auxiliary.congr (fun x => (hcharter x .auxiliary nofun).1)
    (fun x _ q => hroots q x .auxiliary nofun) fun q _ _ hq => (hopen q).trans hq

/-- Open documents that keep their projects have one. -/
theorem Lawful.held_of_holds (h : Lawful (w, moving))
    (hopen : ∀ q, w'.documents.isOpen q = w.documents.isOpen q)
    (hholds : ∀ q x, w.documents.isOpen q = true → w.Holds q x → w'.Holds q x) (q : Path)
    (hq : w'.documents.isOpen q = true) : moving q ∨ ∃ x, w'.Holds q x := by
  have hbefore := (hopen q).symm.trans hq
  exact (h.held q hbefore).imp_right fun ⟨x, hx⟩ => ⟨x, hholds q x hbefore hx⟩

/-- Nothing changes that the law speaks of. -/
theorem Lawful.same (h : Lawful (w, moving)) (hconsistent : Consistent w')
    (hsettings : w'.settings = w.settings)
    (hopen : ∀ q, w'.documents.isOpen q = w.documents.isOpen q)
    (hroots : ∀ q x, w'.rootKind q x = w.rootKind q x)
    (hcharter : ∀ x, w'.charter? x = w.charter? x) : Lawful (w', moving) :=
  h.bystander hconsistent hsettings hopen
    (h.held_of_holds hopen fun q x _ hholds => hholds.congr (hroots q x))
    (fun q x _ _ => by rw [hroots]) fun x _ _ => by rw [hcharter]

theorem Lawful.settle (h : Lawful (w, moving))
    (hplaced : ∀ q, moving q → moving' q ∨ ∃ x, w.Holds q x) : Lawful (w, moving') where
  consistent := h.consistent
  held q hq := by
    rcases h.held q hq with hmoving | hheld
    · exact hplaced q hmoving
    · exact .inr hheld
  inferred := h.inferred
  auxiliary := h.auxiliary

theorem Lawful.start (h : Lawful (w, moving)) (manifestPath : Path) (state : ManifestState)
    (capability : Capability) :
    Lawful ((w.addProject fun id => .new id (.configured manifestPath state) capability).2,
      moving) := by
  let make : ProjectId → Project := fun id => .new id (.configured manifestPath state) capability
  have hmoves : Moves Memory.empty.host w (w.addProject make).2 :=
    (Move.start w (.configured manifestPath state) capability nofun).moves
  have hroots : ∀ q x, (w.addProject make).2.rootKind q x = w.rootKind q x :=
    rootKind_addProject h.consistent fun _ => rfl
  refine h.bystander (hmoves.consistent h.consistent) hmoves.settings hmoves.isOpen
    (h.held_of_holds hmoves.isOpen fun q x _ hholds => hholds.congr (hroots q x))
    (fun q x _ _ => ?_) fun x charter hkind => ?_
  · rw [← hroots]
  · refine Iff.trans (Eq.congr_left (charter?_addProject w make x)) ?_
    split
    · rename_i hx
      rw [hx, charter?, h.consistent.fresh]
      refine ⟨fun heq => absurd ?_ hkind, fun heq => ?_⟩
      · cases heq
        rfl
      · cases heq
    · exact Iff.rfl

/-! ## Rebuilding -/

/-- A rebuild changes the roots of a configured project at most. -/
theorem rootKind_record {project rebuilt : Project} {build : Build} {kind : ProjectKind}
    (hlive : w.project? id = some project)
    (hbuilt : project.refresh? (w.context host) = some (rebuilt, build))
    (hkind : kind ≠ .configured) :
    (w.record id rebuilt build).rootKind q x = some kind ↔ w.rootKind q x = some kind := by
  obtain ⟨-, hrebuilt⟩ := Project.rebuilt_of_refresh? hbuilt
  by_cases hx : x = id
  · subst hx
    rw [rootKind_of_live (project?_record_self hlive), rootKind_of_live hlive, hrebuilt.kind]
    by_cases hconfigured : project.kind = .configured
    · rw [hconfigured]
      constructor
      all_goals
        intro hsome
        split at hsome
        · exact absurd (Option.some.inj hsome).symm hkind
        · cases hsome
    · unfold Project.hasRoot
      rw [hrebuilt.ownRoots hconfigured]
  · rw [rootKind_of_frame (frame_record w id rebuilt build) hx]

theorem holds_record {project rebuilt : Project} {build : Build}
    (hlive : w.project? id = some project)
    (hbuilt : project.refresh? (w.context host) = some (rebuilt, build))
    (hopen : w.documents.isOpen q = true) (h : w.Holds q x) :
    (w.record id rebuilt build).Holds q x := by
  obtain ⟨-, hrebuilt⟩ := Project.rebuilt_of_refresh? hbuilt
  obtain ⟨p, hp, hkind, hroot⟩ := h
  by_cases hx : x = id
  · subst hx
    rw [hlive] at hp
    cases hp
    refine ⟨rebuilt, project?_record_self hlive, ?_, hasRoot_of_rebuilt hrebuilt hopen hroot⟩
    rw [hrebuilt.kind]
    exact hkind
  · exact ⟨p, ((frame_record w id rebuilt build).project x hx).trans hp, hkind, hroot⟩

theorem Lawful.record {project rebuilt : Project} {build : Build} (h : Lawful (w, moving))
    (hlive : w.project? id = some project)
    (hbuilt : project.refresh? (w.context host) = some (rebuilt, build)) :
    Lawful (w.record id rebuilt build, moving) := by
  have hmoves : Moves host w (w.record id rebuilt build) :=
    (Move.rebuild w id project rebuilt build hlive hbuilt).moves
  refine h.bystander (hmoves.consistent h.consistent) hmoves.settings hmoves.isOpen
    (h.held_of_holds hmoves.isOpen fun q x hopen hholds => holds_record hlive hbuilt hopen hholds)
    (fun q x kind hkind => rootKind_record hlive hbuilt hkind) fun x charter _ => ?_
  rw [charter?_record hlive hbuilt]

/-! ## Roots change hands -/

theorem Lawful.unroot {keep : Option ProjectId} (h : Lawful (w, moving))
    (hopen : w.documents.isOpen path = true) (hgrows : ∀ q, moving q → moving' q)
    (hplaced : moving' path ∨ ∃ id, keep = some id ∧ w.Holds path id) :
    Lawful (w.unroot path keep, moving') := by
  have hroots := rootKind_unroot h.consistent path keep
  have hmoves : Moves Memory.empty.host w (w.unroot path keep) := unroot_moves w path keep
  have hthins := unroot_thins w path keep
  refine ⟨hmoves.consistent h.consistent, fun q hq => ?_,
    h.inferred.thins hthins hmoves.settings fun q x hx => ?_,
    h.auxiliary.congr (fun x => hthins.old x _) (fun x hx q => ?_)
      fun q _ _ hq => (hmoves.isOpen q).trans hq⟩
  · by_cases hne : q = path
    · subst hne
      refine hplaced.imp_right fun ⟨id, hkeep, hholds⟩ => ⟨id, hholds.congr ?_⟩
      rw [hroots, if_neg fun heq => heq.2 hkeep.symm]
    · refine (h.held q ((hmoves.isOpen q).symm.trans hq)).imp (hgrows q) ?_
      rintro ⟨x, hholds⟩
      refine ⟨x, hholds.congr ?_⟩
      rw [hroots, if_neg fun heq => hne heq.1]
  · rw [hroots] at hx
    split at hx
    · cases hx
    · exact ⟨hx, (hmoves.isOpen q).trans (h.inferred.opened q x hx)⟩
  · -- the root of an auxiliary project is closed
    rw [hroots]
    split
    · rename_i heq
      refine ⟨nofun, fun hroot => ?_⟩
      obtain ⟨r, hclosed, hr⟩ := h.auxiliary x (charter?_of_rootKind .auxiliary nofun hroot)
      rw [← (hr q).1 hroot, heq.1, hopen] at hclosed
      cases hclosed
    · exact Iff.rfl

/-- What holds paths other than one still holds them. -/
theorem Lawful.held_addRoot (h : Lawful (w, moving)) (kind : ProjectKind)
    (hkind : kind ≠ .auxiliary) (hopen : ∀ q, w'.documents.isOpen q = w.documents.isOpen q)
    (hroots : ∀ q x, w'.rootKind q x = if x = id ∧ q = path then some kind else w.rootKind q x)
    (hothers : ∀ q, moving q → q ≠ path → moving' q) (q : Path)
    (hq : w'.documents.isOpen q = true) : moving' q ∨ ∃ x, w'.Holds q x := by
  by_cases hne : q = path
  · exact .inr ⟨id, holds_iff_rootKind.2 ⟨kind, hkind, by rw [hroots, if_pos ⟨rfl, hne⟩]⟩⟩
  · refine (h.held q ((hopen q).symm.trans hq)).imp (fun hm => hothers q hm hne) ?_
    rintro ⟨x, hholds⟩
    refine ⟨x, hholds.congr ?_⟩
    rw [hroots, if_neg fun heq => hne heq.2]

theorem Lawful.claim (h : Lawful (w, moving)) {manifestPath : Path}
    (hcharter : w.charter? id = some (.configured manifestPath))
    (hothers : ∀ q, moving q → q ≠ path → moving' q) : Lawful (w.addRoot id path, moving') := by
  have hmoves : Moves Memory.empty.host w (w.addRoot id path) := (Move.addRoot w id path).moves
  obtain ⟨p, hp, hpcharter⟩ := charter?_eq_some.1 hcharter
  have hroots : ∀ q x, (w.addRoot id path).rootKind q x =
      if x = id ∧ q = path then some .configured else w.rootKind q x := by
    intro q x
    rw [rootKind_addRoot, hp, Option.map_some, Project.kind_eq, hpcharter]
    rfl
  refine h.bystander (hmoves.consistent h.consistent) hmoves.settings hmoves.isOpen
    (h.held_addRoot .configured nofun hmoves.isOpen hroots hothers)
    (fun q x kind hkind => ?_) fun x _ _ => by rw [charter?_addRoot]
  rw [hroots]
  split
  · rename_i hnew
    refine ⟨fun heq => absurd (Option.some.inj heq).symm hkind, fun heq => ?_⟩
    rw [hnew.1] at heq
    exact absurd (rootKind_of_charter? hcharter heq) hkind
  · exact Iff.rfl

/-- An inferred project, which may be new, gets an open document. -/
theorem Lawful.gains (h : Lawful (w, moving)) (id : ProjectId)
    (hmoves : Moves Memory.empty.host w w') (hpath : w.documents.isOpen path = true)
    (hroots : ∀ q x, w'.rootKind q x =
      if x = id ∧ q = path then some .inferred else w.rootKind q x)
    (hcharter : ∀ x, w'.charter? x = if x = id then some .inferred else w.charter? x)
    (hshared : w.settings.useSingleInferredProject = true → ∀ x,
      w.charter? x = some .inferred → x = id)
    (hseparate : w.settings.useSingleInferredProject = false → ∀ q,
      w.rootKind q id ≠ some .inferred)
    (hothers : ∀ q, moving q → q ≠ path → moving' q) : Lawful (w', moving') := by
  have hid : ∀ x, w'.charter? x = some .auxiliary → x ≠ id := by
    rintro x hx rfl
    rw [hcharter, if_pos rfl] at hx
    cases hx
  refine ⟨hmoves.consistent h.consistent,
    h.held_addRoot .inferred nofun hmoves.isOpen hroots hothers,
    h.inferred.gains id hmoves.settings hmoves.isOpen hpath hroots hcharter hshared hseparate,
    h.auxiliary.congr (fun x hx => ?_) (fun x hx q => ?_)
      fun q _ _ hq => (hmoves.isOpen q).trans hq⟩
  · have hne := hid x hx
    rw [hcharter, if_neg hne] at hx
    exact hx
  · rw [hroots, if_neg fun heq => hid x hx heq.1]

theorem Lawful.join (h : Lawful (w, moving))
    (hshared : w.settings.useSingleInferredProject = true)
    (hcharter : w.charter? id = some .inferred) (hopen : w.documents.isOpen path = true)
    (hothers : ∀ q, moving q → q ≠ path → moving' q) : Lawful (w.addRoot id path, moving') := by
  obtain ⟨p, hp, hpcharter⟩ := charter?_eq_some.1 hcharter
  refine h.gains id (Move.addRoot w id path).moves hopen (fun q x => ?_) (fun x => ?_)
    (fun _ x hx => h.inferred.shared hshared x id hx hcharter)
    (fun hseparate => absurd (hshared.symm.trans hseparate) nofun) hothers
  · rw [rootKind_addRoot, hp, Option.map_some, Project.kind_eq, hpcharter]
    rfl
  · rw [charter?_addRoot]
    split
    · rename_i heq
      rw [heq, hcharter]
    · rfl

theorem Lawful.found (h : Lawful (w, moving))
    (hfirst : w.settings.useSingleInferredProject = true → ∀ x, w.charter? x ≠ some .inferred)
    (hopen : w.documents.isOpen path = true) (hothers : ∀ q, moving q → q ≠ path → moving' q) :
    Lawful (w.startInferred.2.addRoot w.startInferred.1 path, moving') := by
  obtain ⟨⟨p, hp, hkind⟩, hroots⟩ := startInferred_spec h.consistent
  refine h.gains w.startInferred.1 ((startInferred_moves w).trans (Move.addRoot _ _ path).moves)
    hopen (fun q x => ?_) (fun x => ?_) (fun hshared x hx => absurd hx (hfirst hshared x))
    (fun _ q hq => ?_) hothers
  · rw [rootKind_addRoot, hp, Option.map_some, hkind, hroots]
  · rw [charter?_addRoot]
    exact charter?_addProject w _ x
  · exact absurd ((rootKind_of_none h.consistent.fresh).symm.trans hq) nofun

/-! ## Projects come and go -/

theorem Lawful.provide {documents : Documents} (h : Lawful (w, still))
    (hunowned : w.ownership.ownersOf path = [])
    (hnoted : w.documents.contains path = true ∧ documents = w.documents ∨
      ∃ text, host.read path = .ok text ∧ documents = w.documents.note path text) :
    Lawful (({ w with documents }.addStandIn path).2, still) := by
  have hmoves : Moves host w ({ w with documents }.addStandIn path).2 :=
    (Move.standIn w path documents hunowned hnoted).moves
  have hroots := rootKind_addStandIn (h.consistent.documents documents) path
  -- nobody owns the path, so it is not open
  have hclosed : w.documents.isOpen path = false := by
    refine Bool.eq_false_iff.2 fun hopen => ?_
    obtain ⟨x, hholds⟩ := (h.held path hopen).resolve_left not_false
    obtain ⟨kind, -, hroot⟩ := holds_iff_rootKind.1 hholds
    have howner := h.consistent.owner_of_rootKind hroot
    rw [hunowned] at howner
    exact List.not_mem_nil howner
  have hsame : ∀ q x kind, kind ≠ .auxiliary →
      ((({ w with documents }.addStandIn path).2).rootKind q x = some kind ↔
        w.rootKind q x = some kind) := by
    intro q x kind hkind
    rw [hroots]
    split
    · rename_i hnew
      refine ⟨fun heq => absurd (Option.some.inj heq).symm hkind, fun heq => ?_⟩
      rw [hnew.1, rootKind_of_none h.consistent.fresh] at heq
      cases heq
    · exact Iff.rfl
  have hauxiliary : AuxiliaryLaw { w with documents } :=
    h.auxiliary.congr (fun _ hx => hx) (fun _ _ _ => Iff.rfl)
      fun q _ _ hq => (hmoves.isOpen q).trans hq
  refine ⟨hmoves.consistent h.consistent, fun q hq => ?_,
    h.inferred.congr hmoves.settings (fun q hq => (hmoves.isOpen q).trans hq)
      (fun q x => hsame q x .inferred nofun) fun x => ?_,
    hauxiliary.addStandIn (h.consistent.documents documents) ((hmoves.isOpen path).trans hclosed)⟩
  · refine (h.held q ((hmoves.isOpen q).symm.trans hq)).imp_right fun ⟨x, hholds⟩ => ⟨x, ?_⟩
    obtain ⟨kind, hkind, hroot⟩ := holds_iff_rootKind.1 hholds
    exact holds_iff_rootKind.2 ⟨kind, hkind, (hsame q x kind hkind).2 hroot⟩
  · rw [charter?_addStandIn]
    split
    · rename_i hnew
      refine ⟨nofun, fun heq => ?_⟩
      rw [hnew, charter?, h.consistent.fresh] at heq
      cases heq
    · exact Iff.rfl

theorem Lawful.opening {content : String} {opened : Documents.Opened} {documents : Documents}
    (h : Lawful (w, moving)) (hopened : w.documents.open path content = .ok (opened, documents))
    (hgrows : ∀ q, moving q → moving' q) (hplaced : moving' path) :
    Lawful ({ w with documents }.dropStandIns path, moving') := by
  obtain ⟨hothers, hpath, -, -⟩ := Documents.of_open hopened
  have hmoves : Moves Memory.empty.host { w with documents }
      ({ w with documents }.dropStandIns path) := dropStandIns_moves _ path
  have hroots := rootKind_dropStandIns_eq_some { w with documents } path
  have hcharter := charter?_dropStandIns { w with documents } path
  have hopen : ∀ q, q ≠ path → ({ w with documents }.dropStandIns path).documents.isOpen q =
      w.documents.isOpen q :=
    fun q hq => (hmoves.isOpen q).trans (Documents.isOpen_congr (hothers q hq))
  refine ⟨hmoves.consistent (h.consistent.documents documents), fun q hq => ?_,
    h.inferred.congr hmoves.settings (fun q hq => ?_)
      (fun q x => (hroots q x .inferred).trans (and_iff_left fun _ => nofun)) fun x => ?_,
    h.auxiliary.congr (fun x hx => ?_) (fun x hx q => ?_) fun q x hx hq => ?_⟩
  · by_cases hne : q = path
    · exact .inl (hne ▸ hplaced)
    · refine (h.held q ((hopen q hne).symm.trans hq)).imp (hgrows q) ?_
      rintro ⟨x, hholds⟩
      obtain ⟨kind, hkind, hroot⟩ := holds_iff_rootKind.1 hholds
      exact ⟨x, holds_iff_rootKind.2 ⟨kind, hkind, (hroots q x kind).2 ⟨hroot, fun _ => hkind⟩⟩⟩
  · by_cases hne : q = path
    · rw [hne]
      exact (hmoves.isOpen path).trans hpath
    · exact (hopen q hne).trans hq
  · refine Iff.trans (Eq.congr_left (hcharter x)) ?_
    split
    · rename_i hgone
      exact ⟨nofun, fun heq => absurd (hgone.2.symm.trans heq) nofun⟩
    · exact Iff.rfl
  · rw [hcharter] at hx
    split at hx
    · cases hx
    · exact hx
  · refine (hroots q x .auxiliary).trans (and_iff_left fun howner => ?_)
    rw [hcharter] at hx
    split at hx
    · cases hx
    · rename_i hstays
      exact absurd ⟨howner, hx⟩ hstays
  · -- what has the path as a root owns it, and is gone
    obtain ⟨hbefore, hother⟩ := (hroots q x .auxiliary).1 hx
    by_cases hne : q = path
    · subst hne
      exact absurd rfl (hother (h.consistent.owner_of_rootKind hbefore))
    · exact (hopen q hne).trans hq

theorem Lawful.closing {documents : Documents} (h : Lawful (w, moving))
    (hclosed : w.documents.close path = .ok documents) : Lawful ((w.closeFile path).2, moving) := by
  obtain ⟨hothers, -, hpath, -⟩ := Documents.of_close hclosed
  have hmoves : Moves Memory.empty.host { w with documents } (w.closeFile path).2 :=
    closeFile_moves hclosed
  have hroots := rootKind_closeFile h.consistent hclosed
  have hthins := closeFile_thins hclosed
  have hopen : ∀ q, q ≠ path → (w.closeFile path).2.documents.isOpen q = w.documents.isOpen q :=
    fun q hq => (hmoves.isOpen q).trans (Documents.isOpen_congr (hothers q hq))
  refine ⟨hmoves.consistent (h.consistent.documents documents), fun q hq => ?_,
    h.inferred.thins hthins hmoves.settings fun q x hx => ?_,
    h.auxiliary.congr (fun x => hthins.old x _) (fun x hx q => ?_) fun q x _ hq => ?_⟩
  · by_cases hne : q = path
    · rw [hne, hmoves.isOpen, hpath] at hq
      cases hq
    · refine (h.held q ((hopen q hne).symm.trans hq)).imp_right fun ⟨x, hholds⟩ =>
        ⟨x, hholds.congr ?_⟩
      rw [hroots, if_neg fun heq => hne heq.1]
  · rw [hroots] at hx
    split at hx
    · cases hx
    · rename_i hstays
      have hne : q ≠ path := fun heq => hstays ⟨heq, hx⟩
      exact ⟨hx, (hopen q hne).trans (h.inferred.opened q x hx)⟩
  · rw [hroots]
    split
    · rename_i heq
      rw [heq.2]
      exact ⟨nofun, nofun⟩
    · exact Iff.rfl
  · by_cases hne : q = path
    · rw [hne]
      exact (hmoves.isOpen path).trans hpath
    · exact (hopen q hne).trans hq

theorem Lawful.delete (h : Lawful (w, moving)) (hclosed : w.documents.isOpen path = false) :
    Lawful (w.fileDeleted path, moving) := by
  have hmoves : Moves Memory.empty.host w (w.fileDeleted path) := fileDeleted_moves w path
  have hroots := rootKind_fileDeleted h.consistent hclosed
  have hcharter := charter?_fileDeleted h.consistent hclosed
  -- an auxiliary project that has another root stays
  have hsame : ∀ q x kind, q ≠ path → kind ≠ .auxiliary →
      w.rootKind q x = some kind → (w.fileDeleted path).rootKind q x = some kind := by
    intro q x kind hq hkind hx
    rw [hroots, if_neg, hx]
    rintro (heq | haux)
    · exact hq heq
    · exact hkind (rootKind_of_charter? (charter?_of_rootKind .auxiliary nofun haux) hx)
  refine ⟨hmoves.consistent h.consistent, fun q hq => ?_,
    h.inferred.congr hmoves.settings (fun q hq => (hmoves.isOpen q).trans hq) (fun q x => ?_)
      fun x => ?_,
    h.auxiliary.congr (fun x hx => ?_) (fun x hx q => ?_)
      fun q _ _ hq => (hmoves.isOpen q).trans hq⟩
  · have hbefore := (hmoves.isOpen q).symm.trans hq
    have hne : q ≠ path := by
      rintro rfl
      exact absurd (hbefore.symm.trans hclosed) nofun
    refine (h.held q hbefore).imp_right fun ⟨x, hholds⟩ => ⟨x, ?_⟩
    obtain ⟨kind, hkind, hroot⟩ := holds_iff_rootKind.1 hholds
    exact holds_iff_rootKind.2 ⟨kind, hkind, hsame q x kind hne hkind hroot⟩
  · refine ⟨fun hx => ?_, fun hx => hsame q x _ ?_ nofun hx⟩
    · rw [hroots] at hx
      split at hx
      · cases hx
      · exact hx
    · rintro rfl
      exact absurd ((h.inferred.opened q x hx).symm.trans hclosed) nofun
  · rw [hcharter]
    split
    · rename_i haux
      have hauxiliary := charter?_of_rootKind .auxiliary nofun haux
      exact ⟨nofun, fun heq => absurd (hauxiliary.symm.trans heq) nofun⟩
    · exact Iff.rfl
  · rw [hcharter] at hx
    split at hx
    · cases hx
    · exact hx
  · rw [hcharter] at hx
    split at hx
    · cases hx
    · rename_i hstays
      rw [hroots]
      by_cases hq : q = path
      · rw [if_pos (.inl hq), hq]
        exact ⟨nofun, fun heq => absurd heq hstays⟩
      · rw [if_neg (not_or.2 ⟨hq, hstays⟩)]

theorem Lawful.dissolve {project : Project} {manifestPath : Path} (h : Lawful (w, moving))
    (hlive : w.project? id = some project) (hcharter : project.charter = .configured manifestPath)
    (hgrows : ∀ q, moving q → moving' q)
    (hplaced : ∀ q, project.hasRoot q = true → w.documents.isOpen q = true → moving' q) :
    Lawful (w.removeProject id, moving') := by
  have hmoves : Moves Memory.empty.host w (w.removeProject id) := (Move.retire w id).moves
  have hid : w.charter? id = some (.configured manifestPath) :=
    charter?_eq_some.2 ⟨project, hlive, hcharter⟩
  refine h.bystander (hmoves.consistent h.consistent) hmoves.settings hmoves.isOpen
    (fun q hq => ?_) (fun q x kind hkind => ?_) fun x charter hkind => ?_
  · have hbefore := (hmoves.isOpen q).symm.trans hq
    rcases h.held q hbefore with hmoving | ⟨x, hholds⟩
    · exact .inl (hgrows q hmoving)
    · by_cases hx : x = id
      · subst hx
        obtain ⟨p, hp, -, hroot⟩ := hholds
        rw [hlive] at hp
        cases hp
        exact .inl (hplaced q hroot hbefore)
      · refine .inr ⟨x, hholds.congr ?_⟩
        rw [rootKind_removeProject, if_neg hx]
  · rw [rootKind_removeProject]
    split
    · rename_i hx
      refine ⟨nofun, fun heq => ?_⟩
      rw [hx] at heq
      exact absurd (rootKind_of_charter? hid heq) hkind
    · exact Iff.rfl
  · rw [charter?_removeProject]
    split
    · rename_i hx
      refine ⟨nofun, fun heq => ?_⟩
      rw [hx, hid] at heq
      cases heq
      exact absurd rfl hkind
    · exact Iff.rfl

/-! ## Every transaction keeps the laws -/

/-- The law of all projects. -/
theorem Transaction.lawful (h : Transaction host action s s') (hs : Lawful s) : Lawful s' := by
  have hconsistent := h.consistent hs.consistent
  have hsettings := h.settings
  cases h with
  | touch w _ id =>
    exact hs.same hconsistent hsettings (fun _ => rfl) (rootKind_touch w id) (charter?_touch w id)
  | outdate w _ id =>
    exact hs.same hconsistent hsettings (fun _ => rfl) (rootKind_outdate w id)
      (charter?_outdate w id)
  | rewrite w _ documents sameOpen _ =>
    exact hs.same hconsistent hsettings sameOpen (fun _ _ => rfl) fun _ => rfl
  | settle w _ _ placed => exact hs.settle placed
  | vacate w _ _ path keep opened grows placed => exact hs.unroot opened grows placed
  | claim w _ _ id path manifestPath configured others => exact hs.claim configured others
  | join w _ _ id path shared inferred opened others => exact hs.join shared inferred opened others
  | found w _ _ path first opened others => exact hs.found first opened others
  | start w _ manifestPath state capability _ => exact hs.start manifestPath state capability
  | rebuild w _ id project rebuilt build live built => exact hs.record live built
  | provide w path documents unowned noted => exact hs.provide unowned noted
  | opening w _ _ path content opened documents done grows placed =>
    exact hs.opening done grows placed
  | closing w _ path documents _ done => exact hs.closing done
  | delete w _ path closed => exact hs.delete closed
  | dissolve w _ _ id project live lost grows placed =>
    obtain ⟨manifestPath, -, hcharter⟩ := lost
    exact hs.dissolve live hcharter grows placed

theorem Transactions.lawful (h : Transactions host action s s') (hs : Lawful s) : Lawful s' := by
  induction h with
  | refl => exact hs
  | tail _ hlast ih => exact hlast.lawful ih

/-- No two configured projects have their manifests in one directory. -/
def Governed (w : Workspace) : Prop :=
  ∀ directory x y m n, w.charter? x = some (.configured m) → w.charter? y = some (.configured n) →
    m.parent? = some directory → n.parent? = some directory → x = y

/-- A project is started for a manifest only where nobody governs. -/
theorem Transaction.governed (h : Transaction host action s s') (hs : Consistent s.1)
    (hplain : ∀ name ∈ s.1.settings.manifestFileNames, Segment.Plain name)
    (hgoverned : Governed s.1) : Governed s'.1 := by
  have hfree : ∀ {directory x m n}, s.1.Ungoverned m → s.1.charter? x = some (.configured n) →
      m.parent? = some directory → n.parent? ≠ some directory := by
    intro directory x m n hungoverned hx hm
    obtain ⟨d, hd, hothers⟩ := hungoverned hplain
    rw [hm] at hd
    cases hd
    exact hothers x n hx
  intro directory x y m n hx hy hm hn
  rcases h.governing hs hx with hoverx | ⟨hnewx, hfreex⟩ <;>
    rcases h.governing hs hy with hovery | ⟨hnewy, hfreey⟩
  · exact hgoverned directory x y m n hoverx hovery hm hn
  · exact absurd hm (hfree hfreey hoverx hn)
  · exact absurd hn (hfree hfreex hovery hm)
  · exact hnewx.trans hnewy.symm

theorem Transactions.governed (h : Transactions host action s s') (hs : Consistent s.1)
    (hplain : ∀ name ∈ s.1.settings.manifestFileNames, Segment.Plain name)
    (hgoverned : Governed s.1) : Governed s'.1 := by
  induction h with
  | refl => exact hgoverned
  | tail hfirst hlast ih =>
    refine hlast.governed (Transactions.consistent hfirst hs) ?_ ih
    rw [Transactions.settings hfirst]
    exact hplain

/-! ## Runs -/

theorem run_lawful (settings : Settings) (steps : List (Host × Action)) :
    Lawful (run settings steps, still) := by
  have hact : ∀ w host (action : Action), True → Lawful (w, still) →
      Lawful (w.act host action, still) :=
    fun w host action _ h => Transactions.lawful (act_transactions h.consistent action) h
  exact run_induction (lawful_new settings) hact steps fun _ _ => trivial

theorem run_governed (settings : Settings) (steps : List (Host × Action))
    (hplain : ∀ name ∈ settings.manifestFileNames, Segment.Plain name) :
    Governed (run settings steps) := by
  have hact : ∀ w host (action : Action), True →
      (w.settings = settings ∧ Consistent w ∧ Governed w) →
      ((w.act host action).settings = settings ∧ Consistent (w.act host action) ∧
        Governed (w.act host action)) := by
    rintro w host action - ⟨hsettings, hconsistent, hgoverned⟩
    refine ⟨(act_settings w host action).trans hsettings,
      act_consistent hconsistent host action, ?_⟩
    refine Transactions.governed (act_transactions hconsistent action) hconsistent ?_ hgoverned
    rw [hsettings]
    exact hplain
  have hnew : Governed (new settings) := fun _ _ _ _ _ h => by cases h
  exact (run_induction ⟨rfl, consistent_new settings, hnew⟩ hact steps fun _ _ => trivial).2.2

/-- Nothing stands twice in a roster. -/
theorem toList_eq_singleton {roots : Roster Path} (h : ∀ r, r ∈ roots.toList ↔ r = path) :
    roots.toList = [path] := by
  refine List.perm_singleton.1 ?_
  refine (List.perm_ext_iff_of_nodup roots.nodup (List.pairwise_singleton _ path)).2 fun r => ?_
  exact (h r).trans List.mem_singleton.symm

theorem rootKind_eq_some_of_live {p : Project} {kind : ProjectKind} (hlive : w.project? x = some p)
    (hkind : p.kind = kind) : w.rootKind q x = some kind ↔ q ∈ p.roots.toList := by
  refine Iff.trans ?_ Project.hasRoot_iff
  rw [rootKind_of_live hlive, hkind]
  split
  · rename_i hroot
    exact ⟨fun _ => hroot, fun _ => rfl⟩
  · rename_i hroot
    exact ⟨nofun, fun hnow => absurd hnow hroot⟩

/-- A configured project ends only when its manifest is reported deleted. -/
theorem configured_act {p : Project} (h : Consistent w) (host : Host) (action : Action)
    (hlive : w.project? id = some p) (hkind : p.kind = .configured)
    (hended : (w.act host action).project? id = none) :
    ∃ manifestPath, p.manifestPath? = some manifestPath ∧
      action = .notice ⟨manifestPath, .deleted⟩ := by
  obtain ⟨manifestPath, hcharter⟩ := Project.charter_eq_configured.2 hkind
  refine ⟨manifestPath, Project.manifestPath?_eq_some_iff.2 hcharter, ?_⟩
  by_contra hother
  have hchain : Transactions host action (w, still) (w.act host action, still) :=
    act_transactions h action
  have hstays := hchain.configured h (charter?_eq_some.2 ⟨p, hlive, hcharter⟩) hother
  rw [charter?, hended] at hstays
  cases hstays

/-- **Projects live by their law after every run.**  Every open document is a root of an inferred or
configured project; an inferred project has roots, which are open, and it is the only one or has one
root only, as the settings say; an auxiliary project has one root, which is closed; no directory is
governed twice; and the next action ends a configured project only if it reports the deletion of its
manifest. -/
theorem projects_are_lawful (settings : Settings) (steps : List (Host × Action))
    (hplain : ∀ name ∈ settings.manifestFileNames, Segment.Plain name) :
    let w := run settings steps
    (∀ path, w.documents.isOpen path = true → ∃ id p, w.project? id = some p ∧
      (p.kind = .inferred ∨ p.kind = .configured) ∧ p.hasRoot path = true) ∧
    (∀ id p, w.project? id = some p → p.kind = .inferred →
      p.roots.toList ≠ [] ∧ ∀ path ∈ p.roots.toList, w.documents.isOpen path = true) ∧
    (settings.useSingleInferredProject = true → ∀ id id' p p', w.project? id = some p →
      w.project? id' = some p' → p.kind = .inferred → p'.kind = .inferred → id = id') ∧
    (settings.useSingleInferredProject = false → ∀ id p, w.project? id = some p →
      p.kind = .inferred → ∃ path, p.roots.toList = [path]) ∧
    (∀ id p, w.project? id = some p → p.kind = .auxiliary →
      ∃ path, p.roots.toList = [path] ∧ w.documents.isOpen path = false) ∧
    (∀ directory id id' p p', w.project? id = some p → w.project? id' = some p' →
      p.manifestDirectory? = some directory → p'.manifestDirectory? = some directory → id = id') ∧
    ∀ host action id p, w.project? id = some p → p.kind = .configured →
      (w.act host action).project? id = none →
        ∃ manifestPath, p.manifestPath? = some manifestPath ∧
          action = .notice ⟨manifestPath, .deleted⟩ := by
  intro w
  have hlawful : Lawful (w, still) := run_lawful settings steps
  have hgoverned : Governed w := run_governed settings steps hplain
  have hsettings : w.settings = settings := run_settings settings steps
  have hinferred : ∀ {id p}, w.project? id = some p → p.kind = .inferred →
      w.charter? id = some .inferred :=
    fun hp hkind => charter?_of_live .inferred nofun hp hkind
  refine ⟨fun path hopen => ?_, fun id p hp hkind => ⟨?_, fun path hpath => ?_⟩,
    fun hshared id id' p p' hp hp' hkind hkind' => ?_, fun hseparate id p hp hkind => ?_,
    fun id p hp hkind => ?_, fun directory id id' p p' hp hp' hdirectory hdirectory' => ?_,
    fun host action id p hp hkind hended => ?_⟩
  · obtain ⟨id, p, hp, hkind, hroot⟩ := (hlawful.held path hopen).resolve_left not_false
    refine ⟨id, p, hp, ?_, hroot⟩
    cases hcases : p.kind with
    | inferred => exact .inl rfl
    | configured => exact .inr rfl
    | auxiliary => exact absurd hcases hkind
  · obtain ⟨path, hpath⟩ := hlawful.inferred.rooted id (hinferred hp hkind)
    exact List.ne_nil_of_mem ((rootKind_eq_some_of_live hp hkind).1 hpath)
  · exact hlawful.inferred.opened path id ((rootKind_eq_some_of_live hp hkind).2 hpath)
  · exact hlawful.inferred.shared (hsettings ▸ hshared) id id' (hinferred hp hkind)
      (hinferred hp' hkind')
  · obtain ⟨path, hpath⟩ := hlawful.inferred.rooted id (hinferred hp hkind)
    refine ⟨path, toList_eq_singleton fun r => ⟨fun hr => ?_, ?_⟩⟩
    · exact hlawful.inferred.separate (hsettings ▸ hseparate) id r path
        ((rootKind_eq_some_of_live hp hkind).2 hr) hpath
    · rintro rfl
      exact (rootKind_eq_some_of_live hp hkind).1 hpath
  · obtain ⟨path, hclosed, hroots⟩ := hlawful.auxiliary id
      (charter?_of_live .auxiliary nofun hp hkind)
    refine ⟨path, toList_eq_singleton fun r => ?_, hclosed⟩
    rw [← rootKind_eq_some_of_live hp hkind, hroots]
  · obtain ⟨m, hm, hparent⟩ := Option.bind_eq_some_iff.1 hdirectory
    obtain ⟨n, hn, hparent'⟩ := Option.bind_eq_some_iff.1 hdirectory'
    exact hgoverned directory id id' m n
      (charter?_eq_some.2 ⟨p, hp, Project.manifestPath?_eq_some_iff.1 hm⟩)
      (charter?_eq_some.2 ⟨p', hp', Project.manifestPath?_eq_some_iff.1 hn⟩) hparent hparent'
  · exact configured_act hlawful.consistent host action hp hkind hended

/-- Two manifests that list one file, which is opened last. -/
theorem projects_are_lawful_shared :
    (∀ name ∈ Settings.default.manifestFileNames, Segment.Plain name) ∧
      (run .default sharedRequests).documents.isOpen sharedFile = true ∧
      ∃ id p, (run .default sharedRequests).project? id = some p ∧
        (p.kind = .inferred ∨ p.kind = .configured) ∧ p.hasRoot sharedFile = true := by
  have hplain : ∀ name ∈ Settings.default.manifestFileNames, Segment.Plain name := by decide
  have hopen : (run .default sharedRequests).documents.isOpen sharedFile = true := by
    decide +kernel
  exact ⟨hplain, hopen, (projects_are_lawful .default sharedRequests hplain).1 sharedFile hopen⟩

end Codebase.Workspace
