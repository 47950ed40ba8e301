import Codebase.Proofs.Workspace.Isolation
/-!
# Stand-ins

An auxiliary project stands in at a path that nobody owned when it was asked about.  It follows no
references, so it has no file but that one, and it keeps it to its end:

* `Ancillary` — what a stand-in has are its roots, and no two stand in at one path.
* `Transaction.auxiliary` — a transaction leaves a stand-in as it is, or starts it.
* `run_ancillary` — so the law holds after every run.
* `Lawful.standsIn_act`, `Lawful.closed_of_standsIn_act` — where a project stands in after an
  action it did so before, unless it is new, and the path was closed already.
-/

namespace Codebase.Workspace

open Project (lasting_follows)

variable {host : Host} {action : Action} {w w' : Workspace} {a id x y : ProjectId} {path q : Path}
  {s s' : Stage}

/-- The project is auxiliary and has `path` as a root. -/
def StandsIn (w : Workspace) (a : ProjectId) (path : Path) : Prop :=
  ∃ p, w.project? a = some p ∧ p.kind = .auxiliary ∧ p.hasRoot path = true

theorem standsIn_iff_rootKind : w.StandsIn a path ↔ w.rootKind path a = some .auxiliary :=
  ⟨fun ⟨p, hp, hkind, hroot⟩ => rootKind_eq_some.2 ⟨p, hp, hroot, hkind⟩,
    fun h => (rootKind_eq_some.1 h).imp fun _ ⟨hp, hroot, hkind⟩ => ⟨hp, hkind, hroot⟩⟩

theorem StandsIn.owner (h : w.StandsIn a path) (hw : Consistent w) :
    a ∈ w.ownership.ownersOf path :=
  hw.owner_of_rootKind (standsIn_iff_rootKind.1 h)

theorem Lawful.closed_of_standsIn {moving : Path → Prop} (h : Lawful (w, moving))
    (hstand : w.StandsIn a path) : w.documents.isOpen path = false := by
  rw [standsIn_iff_rootKind] at hstand
  obtain ⟨p, hp, -, hkind⟩ := rootKind_eq_some.1 hstand
  obtain ⟨q, hclosed, hroot⟩ := h.auxiliary a (charter?_of_live .auxiliary nofun hp hkind)
  rw [(hroot path).1 hstand]
  exact hclosed

/-! ## What a stand-in has -/

/-- What an auxiliary project has are its roots, and no two of them have one root. -/
structure Ancillary (w : Workspace) : Prop where
  capability : ∀ x p, w.project? x = some p → p.kind = .auxiliary → p.capability = .syntacticOnly
  confined : ∀ x p q, w.project? x = some p → p.kind = .auxiliary → p.contains q = true →
    p.hasRoot q = true
  single : ∀ x y q, w.StandsIn x q → w.StandsIn y q → x = y

theorem ancillary_new (settings : Settings) : Ancillary (new settings) where
  capability _ _ h := by cases h
  confined _ _ _ h := by cases h
  single _ _ _ := fun ⟨_, h, _⟩ => by cases h

/-- An auxiliary project that owns a path stands in there. -/
theorem Ancillary.standsIn {p : Project} (h : Ancillary w) (hw : Consistent w)
    (hp : w.project? x = some p) (hkind : p.kind = .auxiliary)
    (howner : x ∈ w.ownership.ownersOf path) : w.StandsIn x path :=
  ⟨p, hp, hkind, h.confined x p path hp hkind
    ((hw.linked x p hp).known path ((hw.mirrored x path).1 howner))⟩

/-! ## One transaction -/

theorem follows_of_addRoot {p' : Project} (hp' : (w.addRoot id path).project? x = some p')
    (hother : ∀ p, w.project? id = some p → p.kind ≠ .auxiliary) (hkind : p'.kind = .auxiliary) :
    ∃ p, w.project? x = some p ∧ p.Follows p' [] := by
  rw [project?_addRoot] at hp'
  split at hp'
  · rename_i hx
    obtain ⟨p, hp, rfl⟩ := Option.map_eq_some_iff.1 hp'
    exact absurd hkind (hother p (hx ▸ hp))
  · exact ⟨p', hp', p'.follows_refl []⟩

/-- A project that starts as another one is no auxiliary project. -/
theorem live_of_addProject {make : ProjectId → Project} {p : Project}
    (hmake : ∀ id, (make id).kind ≠ .auxiliary)
    (hp : (w.addProject make).2.project? x = some p) (hkind : p.kind = .auxiliary) :
    w.project? x = some p := by
  rw [project?_addProject] at hp
  split at hp
  · cases hp
    exact absurd hkind (hmake _)
  · exact hp

/-- **A transaction leaves an auxiliary project as it is**, apart from its state of building, or
starts it for a path that nobody owns. -/
theorem Transaction.auxiliary {p' : Project} (h : Transaction host action s s')
    (ha : Ancillary s.1) (hp' : s'.1.project? x = some p') (hkind : p'.kind = .auxiliary) :
    (∃ p, s.1.project? x = some p ∧ p.Follows p' []) ∨
      x = ⟨s.1.lastNumber + 1⟩ ∧ ∃ path, p' = .auxiliary x path ∧
        s.1.ownership.ownersOf path = [] := by
  have hsame : s'.1.project? x = s.1.project? x → ∃ p, s.1.project? x = some p ∧ p.Follows p' [] :=
    fun heq => ⟨p', heq.symm.trans hp', p'.follows_refl []⟩
  have hdescends : Descends (fun p p' => p.Follows p' []) s.1 s'.1 →
      ∃ p, s.1.project? x = some p ∧ p.Follows p' [] :=
    fun hdescends => hdescends.project x p' hp'
  cases h with
  | touch w _ id =>
    exact .inl (hdescends (modifyProject_descends lasting_follows w id lasting_follows.touch))
  | outdate w _ id =>
    refine .inl (hdescends (modifyProject_descends lasting_follows w id fun p => ?_))
    exact ⟨rfl, rfl, List.sublist_append_left _ _, fun _ => .inl⟩
  | rewrite w _ documents _ _ => exact .inl (hsame rfl)
  | settle w _ _ _ => exact .inl (hsame rfl)
  | vacate w _ _ path keep _ _ _ => exact .inl (hdescends (unroot_descends lasting_follows trivial w keep))
  | claim w _ _ id path _ configured _ =>
    refine .inl (follows_of_addRoot hp' (fun p hp => ?_) hkind)
    rw [kind_of_charter? hp configured]
    exact nofun
  | join w _ _ id path _ inferred _ _ =>
    refine .inl (follows_of_addRoot hp' (fun p hp => ?_) hkind)
    rw [kind_of_charter? hp inferred]
    exact nofun
  | found w _ _ path _ _ _ =>
    obtain ⟨p, hp, hfollows⟩ := follows_of_addRoot hp' (fun p hp => by
      have hnew : w.startInferred.2.project? w.startInferred.1 = _ :=
        (project?_addProject _ _ _).trans (if_pos rfl)
      rw [hnew] at hp
      cases hp
      exact nofun) hkind
    have hother : ∀ id, (Project.inferred id w.settings.capability).kind ≠ .auxiliary :=
      fun _ => nofun
    exact .inl ⟨p, live_of_addProject hother hp (hfollows.kind.symm.trans hkind), hfollows⟩
  | start w _ manifestPath state capability _ =>
    have hother : ∀ id, (Project.new id (.configured manifestPath state) capability).kind ≠
        .auxiliary := fun _ => nofun
    exact .inl ⟨p', live_of_addProject hother hp' hkind, p'.follows_refl []⟩
  | rebuild w _ id project rebuilt build live built =>
    have hrecorded : (w.record id rebuilt build).project? x = some p' := hp'
    rw [project?_record] at hrecorded
    split at hrecorded
    · rename_i hx
      obtain ⟨p, hp, rfl⟩ := Option.map_eq_some_iff.1 hrecorded
      rw [hx, live] at hp
      cases hp
      have haux : project.kind = .auxiliary :=
        (Project.rebuilt_of_refresh? built).2.kind.symm.trans hkind
      refine .inl ⟨project, hx ▸ live, Project.refresh?_follows ?_
        (ha.capability id project live haux) built⟩
      rw [haux]
      exact nofun
    · exact .inl ⟨p', hrecorded, p'.follows_refl []⟩
  | provide w path documents unowned _ =>
    have hadded := (project?_addStandIn { w with documents } path x).symm.trans hp'
    split at hadded
    · rename_i hx
      cases hadded
      exact .inr ⟨hx, path, congrArg (Project.auxiliary · path) hx.symm, unowned⟩
    · exact .inl ⟨p', hadded, p'.follows_refl []⟩
  | opening w _ _ path _ _ documents _ _ _ =>
    exact .inl (hdescends ((documents_descends lasting_follows w documents).trans lasting_follows
      (removeProjects_descends lasting_follows _ _)))
  | closing w _ path _ _ _ =>
    exact .inl (hdescends (closeFile_descends lasting_follows trivial w))
  | delete w _ path _ => exact .inl (hdescends (fileDeleted_descends lasting_follows trivial w))
  | dissolve w _ _ id _ _ _ _ _ =>
    exact .inl (hdescends (removeProject_descends lasting_follows w id))

/-- An auxiliary project keeps its root. -/
theorem hasRoot_of_follows {p p' : Project} (h : AuxiliaryLaw w) (h' : AuxiliaryLaw w')
    (hp : w.project? x = some p) (hp' : w'.project? x = some p') (hkind : p'.kind = .auxiliary)
    (hfollows : p.Follows p' []) : p'.hasRoot q = p.hasRoot q := by
  have hkind' : p.kind = .auxiliary := hfollows.kind.symm.trans hkind
  obtain ⟨r, -, hroots⟩ := h x (charter?_of_live .auxiliary nofun hp hkind')
  obtain ⟨r', -, hroots'⟩ := h' x (charter?_of_live .auxiliary nofun hp' hkind)
  simp only [rootKind_eq_some_of_live hp hkind'] at hroots
  simp only [rootKind_eq_some_of_live hp' hkind] at hroots'
  have hr' : r' ∈ p.roots.toList := by
    have hmem := hfollows.roots.subset ((hroots' r').2 rfl)
    rwa [List.append_nil] at hmem
  have hsame : r' = r := (hroots r').1 hr'
  unfold Project.hasRoot
  rw [decide_eq_decide, hroots q, hroots' q, hsame]

theorem Transaction.ancillary (h : Transaction host action s s') (hs : Lawful s)
    (ha : Ancillary s.1) : Ancillary s'.1 := by
  have hs' := h.lawful hs
  have hkeeps : ∀ {x p p' q}, s.1.project? x = some p → s'.1.project? x = some p' →
      p'.kind = .auxiliary → p.Follows p' [] → p'.hasRoot q = p.hasRoot q :=
    fun hp hp' hkind hfollows => hasRoot_of_follows hs.auxiliary hs'.auxiliary hp hp' hkind hfollows
  -- a stand-in is at its path already, or nobody owns the path
  have hstands : ∀ {x q}, s'.1.StandsIn x q → s.1.StandsIn x q ∨
      x = ⟨s.1.lastNumber + 1⟩ ∧ s.1.ownership.ownersOf q = [] := by
    rintro x q ⟨p', hp', hkind, hroot⟩
    rcases h.auxiliary ha hp' hkind with ⟨p, hp, hfollows⟩ | ⟨hx, path, rfl, hunowned⟩
    · exact .inl ⟨p, hp, hfollows.kind.symm.trans hkind,
        (hkeeps hp hp' hkind hfollows).symm.trans hroot⟩
    · rw [List.mem_singleton.1 (Project.hasRoot_iff.1 hroot)]
      exact .inr ⟨hx, hunowned⟩
  refine ⟨fun x p' hp' hkind => ?_, fun x p' q hp' hkind hcontains => ?_, fun x y q hx hy => ?_⟩
  · rcases h.auxiliary ha hp' hkind with ⟨p, hp, hfollows⟩ | ⟨-, path, rfl, -⟩
    · exact hfollows.capability.trans (ha.capability x p hp (hfollows.kind.symm.trans hkind))
    · rfl
  · rcases h.auxiliary ha hp' hkind with ⟨p, hp, hfollows⟩ | ⟨-, path, rfl, -⟩
    · have hbefore := (hfollows.contains q hcontains).resolve_right List.not_mem_nil
      rw [hkeeps hp hp' hkind hfollows]
      exact ha.confined x p q hp (hfollows.kind.symm.trans hkind) hbefore
    · exact (Project.contains_iff.1 hcontains).resolve_right fun ⟨_, hderived, _⟩ => by
        cases hderived
  · have hunowned : ∀ {z}, s.1.StandsIn z q → s.1.ownership.ownersOf q ≠ [] :=
      fun hz => List.ne_nil_of_mem (hz.owner hs.consistent)
    rcases hstands hx with hx | ⟨hx, hnone⟩ <;> rcases hstands hy with hy | ⟨hy, hnone'⟩
    · exact ha.single x y q hx hy
    · exact absurd hnone' (hunowned hx)
    · exact absurd hnone (hunowned hy)
    · exact hx.trans hy.symm

/-! ## Actions and runs -/

theorem Transactions.lastNumber (h : Transactions host action s s') :
    s.1.lastNumber ≤ s'.1.lastNumber := by
  induction h with
  | refl => exact Nat.le_refl _
  | tail _ hlast ih =>
    obtain ⟨documents, hmoves, -⟩ := hlast.reopens
    exact Nat.le_trans ih hmoves.lastNumber

theorem Transactions.ancillary (h : Transactions host action s s') (hs : Lawful s)
    (ha : Ancillary s.1) : Ancillary s'.1 := by
  induction h with
  | refl => exact ha
  | tail hfirst hlast ih => exact hlast.ancillary (Transactions.lawful hfirst hs) ih

/-- An auxiliary project that was there stands in where it did. -/
theorem Transactions.standsIn (h : Transactions host action s s') (hs : Lawful s)
    (ha : Ancillary s.1) (hold : a.number ≤ s.1.lastNumber) (hstand : s'.1.StandsIn a path) :
    s.1.StandsIn a path := by
  induction h with
  | refl => exact hstand
  | tail hfirst hlast ih =>
    obtain ⟨p', hp', hkind, hroot⟩ := hstand
    have hbefore := Transactions.lawful hfirst hs
    rcases hlast.auxiliary (Transactions.ancillary hfirst hs ha) hp' hkind with
      ⟨p, hp, hfollows⟩ | ⟨rfl, -⟩
    · refine ih ⟨p, hp, hfollows.kind.symm.trans hkind, ?_⟩
      rw [← hroot]
      exact (hasRoot_of_follows hbefore.auxiliary (hlast.lawful hbefore).auxiliary hp hp' hkind
        hfollows).symm
    · have hlater := Transactions.lastNumber hfirst
      simp only at hold
      omega

theorem Lawful.standsIn_act {p : Project} (h : Lawful (w, still)) (ha : Ancillary w)
    (hp : w.project? a = some p) (hstand : (w.act host action).StandsIn a path) :
    w.StandsIn a path :=
  Transactions.standsIn (act_transactions h.consistent action) h ha (h.consistent.numbered a p hp)
    hstand

theorem run_ancillary (settings : Settings) (steps : List (Host × Action)) :
    Ancillary (run settings steps) := by
  have hact : ∀ w host (action : Action), True → Lawful (w, still) ∧ Ancillary w →
      Lawful (w.act host action, still) ∧ Ancillary (w.act host action) := by
    rintro w host action - ⟨hlawful, hancillary⟩
    have hchain : Transactions host action (w, still) (w.act host action, still) :=
      act_transactions hlawful.consistent action
    exact ⟨Transactions.lawful hchain hlawful, Transactions.ancillary hchain hlawful hancillary⟩
  exact (run_induction ⟨lawful_new settings, ancillary_new settings⟩ hact steps
    fun _ _ => trivial).2

/-! ## The path of a stand-in is closed -/

/-- Only closing a document closes it. -/
theorem act_closes (h : Consistent w) (hopen : w.documents.isOpen q = true)
    (hclosed : (w.act host action).documents.isOpen q = false) :
    w.act host action = (w.closeFile q).2 := by
  have hstays : ∀ {next : Workspace} {other : Action}, other.closed? ≠ some q →
      Transactions host other (w, still) (next, still) → next.documents.isOpen q = true := by
    intro next other hkept hchain
    have hinduct : ∀ s : Stage, Transactions host other (w, still) s →
        s.1.documents.isOpen q = true := fun s hs => by
      induction hs with
      | refl => exact hopen
      | tail _ hlast ih => exact hlast.isOpen hkept ih
    exact hinduct _ hchain
  have hclosing : ∀ file, (w.closeFile file).2.documents.isOpen q = false →
      (w.closeFile file).2 = (w.closeFile q).2 := by
    intro file hfile
    by_cases hq : file = q
    · rw [hq]
    · have hchain : Transactions host (.closeFile file) (w, still) ((w.closeFile file).2, still) :=
        closeFile_transactions w rfl
      have hkept : (Action.closeFile file).closed? ≠ some q := fun heq => hq (Option.some.inj heq)
      rw [hstays hkept hchain] at hfile
      cases hfile
  have hother : action.closed? = none → w.act host action = (w.closeFile q).2 := by
    intro hnone
    have hchain : Transactions host action (w, still) (w.act host action, still) :=
      act_transactions h action
    rw [hstays (by rw [hnone]; exact nofun) hchain] at hclosed
    cases hclosed
  cases action with
  | closeFile file => exact hclosing file hclosed
  | request service request =>
    have hserves := serve_serves service host w request
    have hact : w.act host (.request service request) = (w.serve service host request).2 := rfl
    have hkept : Action.refreshAll.closed? ≠ some q := nofun
    rw [hact] at hclosed ⊢
    generalize (w.serve service host request).2 = next at hserves hclosed ⊢
    cases hserves with
    | opening path content _ hopened =>
      have hchain : Transactions host .refreshAll (w, still)
          ((w.openFile host path content).2, still) := openFile_transactions h path content
      rw [hopened] at hchain
      rw [hstays hkept (hchain.trans (refresh_transactions _ _))] at hclosed
      cases hclosed
    | closing file _ => exact hclosing file hclosed
    | editing file change version =>
      have hchain : Transactions host .refreshAll (w, still)
          ((w.editFile file change version).2, still) :=
        editFile_transactions w file change version
      rw [hstays hkept hchain] at hclosed
      cases hclosed
    | asking hasked =>
      have hchain : Transactions host .refreshAll (w, still) (next, still) := hasked.transactions
      rw [hstays hkept hchain] at hclosed
      cases hclosed
  | openFile path content => exact hother rfl
  | editFile path change version => exact hother rfl
  | notice event => exact hother rfl
  | refresh id => exact hother rfl
  | refreshAll => exact hother rfl
  | filesOf id => exact hother rfl
  | providerFor path => exact hother rfl

/-- Where a project stands in after an action the path was closed before it. -/
theorem Lawful.closed_of_standsIn_act (h : Lawful (w, still))
    (hstand : (w.act host action).StandsIn a path) : w.documents.isOpen path = false := by
  have hchain : Transactions host action (w, still) (w.act host action, still) :=
    act_transactions h.consistent action
  have hafter : Lawful (w.act host action, still) := Transactions.lawful hchain h
  refine Bool.eq_false_iff.2 fun hopen => ?_
  have hclosing := act_closes h.consistent hopen (hafter.closed_of_standsIn hstand)
  obtain ⟨p', hp', hkind, hroot⟩ := hstand
  have hdescends : Descends (fun p p' => p.Follows p' []) w (w.act host action) := by
    rw [hclosing]
    exact closeFile_descends lasting_follows trivial w
  -- closing starts nothing, so the project stood in at an open path
  obtain ⟨p, hp, hfollows⟩ := hdescends.project a p' hp'
  have hbefore : w.StandsIn a path := by
    refine ⟨p, hp, hfollows.kind.symm.trans hkind, ?_⟩
    rw [← hroot]
    exact (hasRoot_of_follows h.auxiliary hafter.auxiliary hp hp' hkind hfollows).symm
  rw [h.closed_of_standsIn hbefore] at hopen
  cases hopen

end Codebase.Workspace
