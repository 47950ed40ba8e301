import Mathlib.Data.List.Induction
import Codebase.Proofs.Workspace.Descent
import Codebase.Proofs.Workspace.Rebuild
import Codebase.Proofs.Workspace.Release
/-!
# Workspaces that serve syntax only

Under the setting that no project serves more than syntax, manifests are not consulted and nothing
is followed.  So a project has no files but those that were opened or asked about, and each action
does little to it: `Evolves` says that a project keeps its roots in their order, and that there is
one new root at most, at the end.

* `Project.Follows` — what a change makes of one project.
* `act_evolves` — every action evolves the workspace, and gains a root only by opening a document.
* `run_mentioned` — no project has a path that was neither opened nor asked about.
* `run_ordered` — the roots of an inferred project are in the order in which they were opened.
* `syntax_only_is_isolated` — what this means for the projects, the documents and the files.
-/

namespace Codebase

namespace Project

variable {project next last rebuilt : Project} {ctx : Context} {build : Build} {path : Path}
  {gained gained' : List Path}

/-- The project stays what it is and keeps its roots in their order; whatever is new among its roots
and its files was gained. -/
structure Follows (project next : Project) (gained : List Path) : Prop where
  origin : next.origin = project.origin
  capability : next.capability = project.capability
  roots : next.roots.toList.Sublist (project.roots.toList ++ gained)
  contains : ∀ q, next.contains q = true → project.contains q = true ∨ q ∈ gained

theorem follows_refl (project : Project) (gained : List Path) : project.Follows project gained :=
  ⟨rfl, rfl, List.sublist_append_left _ _, fun _ => .inl⟩

theorem Follows.trans (h : project.Follows next gained) (h' : next.Follows last gained') :
    project.Follows last (gained ++ gained') where
  origin := h'.origin.trans h.origin
  capability := h'.capability.trans h.capability
  roots := by
    rw [← List.append_assoc]
    exact h'.roots.trans (h.roots.append_right gained')
  contains q hq := by
    rw [List.mem_append, ← or_assoc]
    exact (h'.contains q hq).imp_left (h.contains q)

/-- It may have gained more. -/
theorem Follows.weaken (h : project.Follows next gained') (gained : List Path) :
    project.Follows next (gained ++ gained') :=
  (project.follows_refl gained).trans h

theorem Follows.kind (h : project.Follows next gained) : next.kind = project.kind := by
  unfold Project.kind
  rw [h.origin]

theorem touch_follows (project : Project) : project.Follows project.touch [] :=
  ⟨rfl, rfl, List.sublist_append_left _ _, fun _ => .inl⟩

theorem removeRoot_follows (project : Project) (path : Path) :
    project.Follows (project.removeRoot path) [] where
  origin := rfl
  capability := rfl
  roots := List.filter_sublist.trans (List.sublist_append_left _ _)
  contains q hq := by
    rw [contains_iff] at hq ⊢
    exact .inl (hq.imp_left fun hroot => (hasRoot_removeRoot.1 hroot).1)

theorem addRoot_follows (project : Project) (path : Path) :
    project.Follows (project.addRoot path) [path] where
  origin := rfl
  capability := rfl
  roots := by
    unfold addRoot Roster.insert
    simp only
    split
    · exact List.sublist_append_left _ _
    · exact List.Sublist.refl _
  contains q hq := by
    rw [contains_iff] at hq ⊢
    rcases hq with hroot | hfile
    · rw [hasRoot_addRoot] at hroot
      exact hroot.imp .inl List.mem_singleton.2
    · exact .inl (.inr hfile)

theorem lasting_follows : Lasting (fun _ => True) fun p p' => p.Follows p' [] where
  refl project := project.follows_refl []
  trans := Follows.trans
  touch := touch_follows
  removeRoot project path _ := project.removeRoot_follows path

/-- A rebuild that follows no references finds nothing but the roots. -/
theorem refresh?_follows (hkind : project.kind ≠ .configured)
    (hcapability : project.capability = .syntacticOnly)
    (h : project.refresh? ctx = some (rebuilt, build)) : project.Follows rebuilt [] := by
  obtain ⟨horigin, hsame, hroots⟩ := unconfigured_of_refresh? hkind h
  obtain ⟨-, hrebuilt⟩ := rebuilt_of_refresh? h
  refine ⟨horigin, hsame, ?_, fun q hq => .inl ?_⟩
  · rw [hroots]
    exact List.sublist_append_left _ _
  · obtain ⟨-, -, hfiles⟩ := hrebuilt.files_spec
    refine contains_iff.2 (.inl (hasRoot_iff.2 ?_))
    rw [← hroots]
    rcases contains_iff.1 hq with hroot | ⟨files, hderived, hmem⟩
    · exact hasRoot_iff.1 hroot
    · rw [hrebuilt.derived] at hderived
      cases hderived
      rw [hfiles (hsame.trans hcapability)] at hmem
      exact hmem

/-- A project as it starts: an inferred one without roots, or an auxiliary one for the path that was
asked about. -/
def Begins (asked : Option Path) (project : Project) : Prop :=
  ∃ id, project = .inferred id .syntacticOnly ∨
    ∃ path, asked = some path ∧ project = .auxiliary id path

theorem Begins.capability {asked : Option Path} (h : project.Begins asked) :
    project.capability = .syntacticOnly := by
  obtain ⟨id, rfl | ⟨path, -, rfl⟩⟩ := h <;> rfl

theorem Begins.kind {asked : Option Path} (h : project.Begins asked) :
    project.kind ≠ .configured := by
  obtain ⟨id, rfl | ⟨path, -, rfl⟩⟩ := h <;> exact nofun

theorem Begins.contains {asked : Option Path} (h : project.Begins asked)
    (hpath : project.contains path = true) : asked = some path := by
  obtain ⟨id, rfl | ⟨root, hasked, rfl⟩⟩ := h
  · cases hpath
  · rcases contains_iff.1 hpath with hroot | ⟨files, hderived, -⟩
    · rw [hasked, List.mem_singleton.1 (hasRoot_iff.1 hroot)]
    · cases hderived

theorem Begins.roots {asked : Option Path} (h : project.Begins asked)
    (hkind : project.kind = .inferred) : project.roots.toList = [] := by
  obtain ⟨id, rfl | ⟨path, -, rfl⟩⟩ := h
  · rfl
  · cases hkind

end Project

namespace Workspace

open Project (lasting_follows)

variable {host : Host} {w w' w'' : Workspace} {id x : ProjectId} {path q : Path}
  {asked : Option Path} {gained gained' : List Path} {settings : Settings}
  {steps : List (Host × Action)}

/-! ## What a change makes of all projects -/

/-- Every project follows one that was there, or one that begins. -/
structure Evolves (asked : Option Path) (gained : List Path) (w w' : Workspace) : Prop where
  settings : w'.settings = w.settings
  projects : ∀ x p', w'.project? x = some p' →
    ∃ p, (w.project? x = some p ∨ p.Begins asked) ∧ p.Follows p' gained

theorem evolves_of_eq (hsettings : w'.settings = w.settings)
    (hprojects : ∀ x, w'.project? x = w.project? x) : Evolves asked [] w w' :=
  ⟨hsettings, fun x p hp => ⟨p, .inl ((hprojects x).symm.trans hp), p.follows_refl []⟩⟩

theorem evolves_refl (w : Workspace) : Evolves asked [] w w := evolves_of_eq rfl fun _ => rfl

theorem Evolves.trans (h : Evolves asked gained w w') (h' : Evolves asked gained' w' w'') :
    Evolves asked (gained ++ gained') w w'' where
  settings := h'.settings.trans h.settings
  projects x p hp := by
    obtain ⟨p', hlive | hbegins, hfollows⟩ := h'.projects x p hp
    · obtain ⟨p₀, hfrom, hfirst⟩ := h.projects x p' hlive
      exact ⟨p₀, hfrom, hfirst.trans hfollows⟩
    · exact ⟨p', .inr hbegins, hfollows.weaken gained⟩

/-- Nothing begins where every project comes from one that was there. -/
theorem Descends.evolves (h : Descends (fun p p' => p.Follows p' []) w w') :
    Evolves asked [] w w' :=
  ⟨h.settings, fun x p' hp' => (h.project x p' hp').imp fun _ ⟨hp, hfollows⟩ =>
    ⟨.inl hp, hfollows⟩⟩

theorem modifyProject_evolves (w : Workspace) (id : ProjectId) {f : Project → Project}
    (hf : ∀ p, w.project? id = some p → p.Follows (f p) gained) :
    Evolves asked gained w (w.modifyProject id f) where
  settings := rfl
  projects x p hp := by
    rw [project?_modifyProject] at hp
    split at hp
    · rename_i hx
      obtain ⟨p', hp', rfl⟩ := Option.map_eq_some_iff.1 hp
      exact ⟨p', .inl hp', hf p' (hx ▸ hp')⟩
    · exact ⟨p, .inl hp, p.follows_refl gained⟩

/-! ## When only syntax is served -/

/-- No project serves more than syntax, and none has a manifest. -/
structure Isolated (w : Workspace) : Prop where
  settings : w.settings.syntaxOnly = true
  capability : ∀ x p, w.project? x = some p → p.capability = .syntacticOnly
  kind : ∀ x p, w.project? x = some p → p.kind ≠ .configured

theorem isolated_new (h : settings.syntaxOnly = true) : Isolated (new settings) where
  settings := h
  capability x p hp := by cases hp
  kind x p hp := by cases hp

theorem Evolves.isolated (h : Evolves asked gained w w') (hw : Isolated w) : Isolated w' where
  settings := by
    rw [h.settings]
    exact hw.settings
  capability x p hp := by
    obtain ⟨p₀, hlive | hbegins, hfollows⟩ := h.projects x p hp
    · exact hfollows.capability.trans (hw.capability x p₀ hlive)
    · exact hfollows.capability.trans hbegins.capability
  kind x p hp := by
    obtain ⟨p₀, hlive | hbegins, hfollows⟩ := h.projects x p hp
    · rw [hfollows.kind]
      exact hw.kind x p₀ hlive
    · rw [hfollows.kind]
      exact hbegins.kind

/-! ### Inquiries -/

theorem record_evolves {project rebuilt : Project} {build : Build} (hw : Isolated w)
    (hlive : w.project? id = some project)
    (hbuilt : project.refresh? (w.context host) = some (rebuilt, build)) :
    Evolves asked [] w (w.record id rebuilt build) := by
  have hmodified : Evolves asked [] w (w.modifyProject id fun _ => rebuilt) := by
    refine modifyProject_evolves w id fun p hp => ?_
    rw [hlive] at hp
    cases hp
    exact Project.refresh?_follows (hw.kind id _ hlive) (hw.capability id _ hlive) hbuilt
  exact hmodified.trans (evolves_of_eq rfl fun _ => rfl)

theorem refresh_evolves (hw : Isolated w) (host : Host) (id : ProjectId) :
    Evolves asked [] w (w.refresh host id).2 := by
  rw [refresh_eq]
  split
  · exact evolves_refl w
  · rename_i project hlive
    split
    · exact evolves_refl w
    · rename_i rebuilt build hbuilt
      obtain ⟨-, hrebuilt⟩ := Project.rebuilt_of_refresh? hbuilt
      simp only
      rw [if_neg]
      · exact record_evolves hw hlive hbuilt
      · rw [hrebuilt.kind]
        exact hw.kind id project hlive

theorem providerFor_evolves (host : Host) (w : Workspace) (path : Path) :
    Evolves (some path) [] w (w.providerFor host path).2 := by
  rcases providerFor_eq host w path with hsame | ⟨documents, -, -, hadded⟩
  · rw [hsame]
    exact evolves_refl w
  · rw [hadded]
    refine ⟨rfl, fun x p hp => ?_⟩
    rw [project?_addStandIn] at hp
    split at hp
    · cases hp
      exact ⟨_, .inr ⟨_, .inr ⟨path, rfl, rfl⟩⟩, Project.follows_refl _ []⟩
    · exact ⟨p, .inl hp, p.follows_refl []⟩

theorem Inquiries.evolves (h : Inquiries asked host w w') (hw : Isolated w) :
    Evolves asked [] w w' := by
  induction h with
  | refl => exact evolves_refl w
  | tail _ hlast ih =>
    cases hlast with
    | refresh id => exact ih.trans (refresh_evolves (ih.isolated hw) host id)
    | provide path hnamed =>
      rw [hnamed] at ih ⊢
      exact ih.trans (providerFor_evolves host _ path)

/-! ### Events of an editor -/

theorem startInferred_evolves (hw : Isolated w) : Evolves asked [] w w.startInferred.2 where
  settings := rfl
  projects x p hp := by
    have hstart := (project?_addProject w _ x).symm.trans hp
    split at hstart
    · cases hstart
      have hcapability : w.settings.capability = .syntacticOnly := if_pos hw.settings
      rw [hcapability]
      exact ⟨_, .inr ⟨_, .inl rfl⟩, Project.follows_refl _ []⟩
    · exact ⟨p, .inl hstart, p.follows_refl []⟩

/-- A path is assigned to an inferred project, as its last root. -/
theorem assign_evolves (hw : Isolated w) (host : Host) (path : Path) :
    Evolves asked [path] w (w.assign host path).2 := by
  have hassign : w.assign host path =
      (w.inferredFor.1, w.inferredFor.2.addRoot w.inferredFor.1 path) := by
    unfold assign configuredFor
    rw [if_pos hw.settings]
    rfl
  have hinferred : Evolves asked [] w w.inferredFor.2 := by
    unfold inferredFor
    split
    · split
      · exact evolves_refl w
      · exact startInferred_evolves hw
    · exact startInferred_evolves hw
  rw [hassign]
  refine hinferred.trans ⟨(frame_addRoot _ _ path).settings, fun x p hp => ?_⟩
  rw [project?_addRoot] at hp
  split at hp
  · obtain ⟨p', hp', rfl⟩ := Option.map_eq_some_iff.1 hp
    exact ⟨p', .inl hp', p'.addRoot_follows path⟩
  · exact ⟨p, .inl hp, p.follows_refl [path]⟩

/-- What an action gains: nothing, or a document that it opens. -/
def Gains (w w' : Workspace) (gained : List Path) : Prop :=
  gained = [] ∨ ∃ path, gained = [path] ∧ w.documents.isOpen path = false ∧
    w'.documents.isOpen path = true

theorem Evolves.nothing (h : Evolves asked [] w w') :
    ∃ gained, Evolves asked gained w w' ∧ Gains w w' gained :=
  ⟨[], h, .inl rfl⟩

/-- A document that is given to a project was closed: an open one is a root already. -/
theorem openFile_evolves (hw : Isolated w) (h : Lawful (w, still)) (host : Host) (path : Path)
    (content : String) : ∃ gained, Evolves asked gained w (w.openFile host path content).2 ∧
      Gains w (w.openFile host path content).2 gained := by
  have hopens := openFile_opens host w path content
  generalize w.openFile host path content = answer at hopens ⊢
  cases hopens with
  | refused e => exact (evolves_refl w).nothing
  | @held opened documents id hopened hholder =>
    have hopening := opening_descends lasting_follows w path opened documents
    exact (hopening.trans lasting_follows
      (modifyProject_descends lasting_follows _ id lasting_follows.touch)).evolves.nothing
  | @assigned opened documents hopened hnone =>
    have hopening : Evolves asked [] w (w.opening path opened documents) :=
      (opening_descends lasting_follows w path opened documents).evolves
    have hassigned : Moves host (w.opening path opened documents) _ := assign_moves _ path
    refine ⟨[path], hopening.trans (assign_evolves (hopening.isolated hw) host path),
      .inr ⟨path, rfl, Bool.eq_false_iff.2 fun hopen => ?_,
        (hassigned.isOpen path).trans (isOpen_opening hopened)⟩⟩
    obtain ⟨x, hholds⟩ := (h.held path hopen).resolve_left not_false
    have hroot := (hasRoot_opening h.consistent opened documents).2 hholds
    rw [hasRoot_eq_isSome, free_opening h.consistent hnone] at hroot
    cases hroot

/-! ### Reports of the host -/

/-- No project hopes for a file, and none claims one. -/
theorem Isolated.fileCreated (hw : Isolated w) (path : Path) : w.fileCreated path = w := by
  have hhopes : w.projectList.filter hopes = [] := by
    refine List.filter_eq_nil_iff.2 fun p hp => ?_
    obtain ⟨x, hlive⟩ := mem_projectList.1 hp
    unfold hopes
    rw [hw.capability x p hlive]
    exact Bool.false_ne_true
  have hclaims : w.projectList.filter (w.claims path) = [] := by
    refine List.filter_eq_nil_iff.2 fun p hp hclaims => ?_
    obtain ⟨x, hlive⟩ := mem_projectList.1 hp
    exact hw.kind x p hlive (kind_of_claims hclaims)
  unfold Workspace.fileCreated
  rw [hhopes]
  simp only [List.map_nil, List.foldl_nil]
  rw [hclaims]
  rfl

/-- No project has a manifest, and none is looked for. -/
theorem Isolated.manifestEvent (hw : Isolated w) (host : Host) (path : Path)
    (change : FileChange) : w.manifestEvent host path change = w := by
  have hnone : w.projectOfManifest? path = none := by
    refine Option.map_eq_none_iff.2 (List.find?_eq_none.2 fun p hp hmanifest => ?_)
    obtain ⟨x, hlive⟩ := mem_projectList.1 hp
    exact hw.kind x p hlive (Project.manifestPath?_eq_some (of_decide_eq_true hmanifest))
  unfold Workspace.manifestEvent
  rw [hnone]
  cases change with
  | modified => rfl
  | deleted => rfl
  | created =>
    simp only
    split
    · exact if_pos hw.settings
    · rfl

theorem noticeFile_evolves (hw : Isolated w) (host : Host) (event : FileEvent) :
    Evolves asked [] w (w.noticeFile host event).2 := by
  unfold noticeFile
  split
  · rw [hw.manifestEvent]
    exact evolves_refl w
  · split
    · rw [hw.fileCreated]
      exact evolves_refl w
    · exact (fileModified_descends lasting_follows host w event.path).evolves
    · exact (fileDeleted_descends lasting_follows trivial w).evolves

/-! ### Actions -/

theorem serve_evolves (hw : Isolated w) (h : Lawful (w, still)) (service : LanguageService)
    (host : Host) (request : Request) :
    ∃ gained, Evolves (askedAbout? request) gained w (w.serve service host request).2 ∧
      Gains w (w.serve service host request).2 gained := by
  have hserves := serve_serves service host w request
  generalize (w.serve service host request).2 = next at hserves ⊢
  cases hserves with
  | @opening id opened path content _ hopen =>
    obtain ⟨gained, hevolves, hgains⟩ := openFile_evolves hw h host path content
    rw [hopen] at hevolves hgains
    have hrefresh := refresh_moves host opened id
    refine ⟨gained ++ [], hevolves.trans (refresh_evolves (hevolves.isolated hw) host id), ?_⟩
    rw [List.append_nil]
    exact hgains.imp_right fun ⟨path, hgained, hclosed, hopened⟩ =>
      ⟨path, hgained, hclosed, (hrefresh.isOpen path).trans hopened⟩
  | closing file => exact (closeFile_descends lasting_follows trivial w).evolves.nothing
  | editing file change version =>
    exact (editFile_descends lasting_follows w file change version).evolves.nothing
  | asking hasked => exact (hasked.evolves hw).nothing

/-- **Every action evolves the workspace**, and gains a root only by opening a document that was
closed. -/
theorem act_evolves (hw : Isolated w) (h : Lawful (w, still)) (host : Host) (action : Action) :
    ∃ gained, Evolves action.asked? gained w (w.act host action) ∧
      Gains w (w.act host action) gained := by
  cases action with
  | openFile path content => exact openFile_evolves hw h host path content
  | closeFile path => exact (closeFile_descends lasting_follows trivial w).evolves.nothing
  | editFile path change version =>
    exact (editFile_descends lasting_follows w path change version).evolves.nothing
  | notice event => exact (noticeFile_evolves hw host event).nothing
  | refresh id => exact (refresh_evolves hw host id).nothing
  | refreshAll => exact ((refreshEach_inquiries none host w _).evolves hw).nothing
  | filesOf id => exact ((filesOf_inquiries none host w id).evolves hw).nothing
  | providerFor path => exact (providerFor_evolves host w path).nothing
  | request service request => exact serve_evolves hw h service host request

/-! ## Runs -/

theorem run_isolated (h : settings.syntaxOnly = true) (steps : List (Host × Action)) :
    Isolated (run settings steps) := by
  induction steps using List.reverseRecOn with
  | nil => exact isolated_new h
  | append_singleton steps step ih =>
    rw [run_concat]
    obtain ⟨gained, hevolves, -⟩ := act_evolves ih (run_lawful settings steps) step.1 step.2
    exact hevolves.isolated ih

/-! ### What a project can have -/

/-- The path was open after some of the actions, or one of them asked about it. -/
def Mentioned (settings : Settings) (steps : List (Host × Action)) (path : Path) : Prop :=
  (∃ n, (run settings (steps.take n)).documents.isOpen path = true) ∨
    ∃ step ∈ steps, step.2.asked? = some path

theorem mentioned_of_isOpen (h : (run settings steps).documents.isOpen path = true) :
    Mentioned settings steps path :=
  .inl ⟨steps.length, by rw [List.take_length]; exact h⟩

theorem Mentioned.concat (h : Mentioned settings steps path) (step : Host × Action) :
    Mentioned settings (steps ++ [step]) path := by
  rcases h with ⟨n, hopen⟩ | ⟨earlier, hmem, hasked⟩
  · refine .inl ⟨min n steps.length, ?_⟩
    rw [List.take_append_of_le_length (Nat.min_le_right _ _), ← List.take_eq_take_min]
    exact hopen
  · exact .inr ⟨earlier, List.mem_append_left _ hmem, hasked⟩

/-- No project has a root or a file that was neither opened nor asked about. -/
theorem run_mentioned (h : settings.syntaxOnly = true) (steps : List (Host × Action))
    {p : Project} (hlive : (run settings steps).project? x = some p)
    (hpath : p.contains path = true) : Mentioned settings steps path := by
  induction steps using List.reverseRecOn generalizing p with
  | nil => cases hlive
  | append_singleton steps step ih =>
    obtain ⟨gained, hevolves, hgains⟩ := act_evolves (run_isolated h steps)
      (run_lawful settings steps) step.1 step.2
    rw [← run_concat] at hevolves hgains
    obtain ⟨p₀, hfrom, hfollows⟩ := hevolves.projects x p hlive
    rcases hfollows.contains path hpath with hbefore | hgained
    · rcases hfrom with hlive | hbegins
      · exact (ih hlive hbefore).concat step
      · exact .inr ⟨step, List.mem_append_right _ (List.mem_singleton.2 rfl),
          hbegins.contains hbefore⟩
    · obtain rfl | ⟨opened, rfl, -, hopen⟩ := hgains
      · cases hgained
      · rw [List.mem_singleton.1 hgained]
        exact mentioned_of_isOpen hopen

/-! ### The order of roots -/

/-- The document is open, and the action with this number was the last one that found it closed. -/
def OpenSince (settings : Settings) (steps : List (Host × Action)) (path : Path) (i : Nat) : Prop :=
  i < steps.length ∧ (run settings (steps.take i)).documents.isOpen path = false ∧
    ∀ n, i < n → n ≤ steps.length → (run settings (steps.take n)).documents.isOpen path = true

/-- Both documents are open, and the first one has been for longer. -/
def OpenedBefore (settings : Settings) (steps : List (Host × Action)) (path q : Path) : Prop :=
  ∃ i j, OpenSince settings steps path i ∧ OpenSince settings steps q j ∧ i < j

/-- What stays open has been open since the same action. -/
theorem OpenSince.concat {i : Nat} {step : Host × Action} (h : OpenSince settings steps path i)
    (hopen : (run settings (steps ++ [step])).documents.isOpen path = true) :
    OpenSince settings (steps ++ [step]) path i := by
  obtain ⟨hi, hclosed, hsince⟩ := h
  refine ⟨?_, ?_, fun n hn hle => ?_⟩
  · rw [List.length_append]
    exact Nat.lt_add_right _ hi
  · rw [List.take_append_of_le_length (Nat.le_of_lt hi)]
    exact hclosed
  · rw [List.length_append, List.length_singleton] at hle
    rcases Nat.le_succ_iff.1 hle with hbefore | rfl
    · rw [List.take_append_of_le_length hbefore]
      exact hsince n hn hbefore
    · rw [List.take_of_length_le (by simp)]
      exact hopen

/-- What an action opens has been open since then. -/
theorem openSince_concat {step : Host × Action}
    (hclosed : (run settings steps).documents.isOpen path = false)
    (hopen : (run settings (steps ++ [step])).documents.isOpen path = true) :
    OpenSince settings (steps ++ [step]) path steps.length := by
  refine ⟨?_, ?_, fun n hn _ => ?_⟩
  · rw [List.length_append]
    exact Nat.lt_succ_self _
  · rw [List.take_append_of_le_length (Nat.le_refl _), List.take_length]
    exact hclosed
  · rw [List.take_of_length_le (by rw [List.length_append]; exact hn)]
    exact hopen

theorem exists_openSince (settings : Settings) (steps : List (Host × Action))
    (hopen : (run settings steps).documents.isOpen path = true) :
    ∃ i, OpenSince settings steps path i := by
  induction steps using List.reverseRecOn with
  | nil => cases hopen
  | append_singleton steps step ih =>
    cases hbefore : (run settings steps).documents.isOpen path with
    | true =>
      obtain ⟨i, hi⟩ := ih hbefore
      exact ⟨i, hi.concat hopen⟩
    | false => exact ⟨_, openSince_concat hbefore hopen⟩

/-- Every root of an inferred project is open. -/
theorem isOpen_of_mem_roots (h : Lawful (w, still)) {p : Project} (hp : w.project? id = some p)
    (hkind : p.kind = .inferred) (hpath : path ∈ p.roots.toList) :
    w.documents.isOpen path = true :=
  h.inferred.opened path id ((rootKind_eq_some_of_live hp hkind).2 hpath)

/-- The roots of an inferred project are in the order in which they were opened. -/
theorem run_ordered (h : settings.syntaxOnly = true) (steps : List (Host × Action)) {p : Project}
    (hlive : (run settings steps).project? x = some p) (hkind : p.kind = .inferred) :
    p.roots.toList.Pairwise (OpenedBefore settings steps) := by
  induction steps using List.reverseRecOn generalizing p with
  | nil => cases hlive
  | append_singleton steps step ih =>
    have hlawful : Lawful (run settings steps, still) := run_lawful settings steps
    obtain ⟨gained, hevolves, hgains⟩ := act_evolves (run_isolated h steps) hlawful step.1 step.2
    rw [← run_concat] at hevolves hgains
    obtain ⟨p₀, hfrom, hfollows⟩ := hevolves.projects x p hlive
    have hkind₀ : p₀.kind = .inferred := hfollows.kind.symm.trans hkind
    -- the roots that the project had before are open and in order
    have hbefore : p₀.roots.toList.Pairwise (OpenedBefore settings steps) ∧
        ∀ q ∈ p₀.roots.toList, (run settings steps).documents.isOpen q = true := by
      rcases hfrom with hlive₀ | hbegins
      · exact ⟨ih hlive₀ hkind₀, fun q => isOpen_of_mem_roots hlawful hlive₀ hkind₀⟩
      · rw [hbegins.roots hkind₀]
        exact ⟨.nil, nofun⟩
    have hnow : ∀ q ∈ p.roots.toList,
        (run settings (steps ++ [step])).documents.isOpen q = true := fun q =>
      isOpen_of_mem_roots (run_lawful settings (steps ++ [step])) hlive hkind
    have hordered : (p₀.roots.toList ++ gained).Pairwise fun a b =>
        (run settings (steps ++ [step])).documents.isOpen a = true →
          (run settings (steps ++ [step])).documents.isOpen b = true →
            OpenedBefore settings (steps ++ [step]) a b := by
      refine List.pairwise_append.2 ⟨hbefore.1.imp ?_, ?_, fun a ha b hb hopena hopenb => ?_⟩
      · rintro a b ⟨i, j, hi, hj, hlt⟩ hopena hopenb
        exact ⟨i, j, hi.concat hopena, hj.concat hopenb, hlt⟩
      · obtain rfl | ⟨opened, rfl, -⟩ := hgains
        · exact .nil
        · exact List.pairwise_singleton _ _
      · obtain rfl | ⟨opened, rfl, hclosed, -⟩ := hgains
        · cases hb
        · rw [List.mem_singleton.1 hb] at hopenb ⊢
          obtain ⟨i, hi⟩ := exists_openSince settings steps (hbefore.2 a ha)
          exact ⟨i, steps.length, hi.concat hopena, openSince_concat hclosed hopenb, hi.1⟩
    exact (hordered.sublist hfollows.roots).imp_of_mem fun ha hb hab =>
      hab (hnow _ ha) (hnow _ hb)

/-! ### Isolation -/

/-- A document is open or owned by a project, and an owner has it among its roots or files. -/
theorem mentioned_of_contains (h : settings.syntaxOnly = true)
    (hpath : (run settings steps).documents.contains path = true) :
    Mentioned settings steps path := by
  have hanchored : Anchored none (run settings steps) := run_anchored settings steps
  have hconsistent : Consistent (run settings steps) := hanchored.consistent
  rcases hanchored.kept path nofun hpath with hopen | ⟨x, howner⟩
  · exact mentioned_of_isOpen hopen
  · obtain ⟨p, hp⟩ := hconsistent.live_of_owner howner
    exact run_mentioned h steps hp
      ((hconsistent.linked x p hp).known path ((hconsistent.mirrored x path).1 howner))

/-- An open document is a root of an inferred project. -/
theorem Isolated.held (hw : Isolated w) (h : Lawful (w, still))
    (hopen : w.documents.isOpen path = true) :
    ∃ id p, w.project? id = some p ∧ p.kind = .inferred ∧ p.hasRoot path = true := by
  obtain ⟨id, p, hp, hkind, hroot⟩ := (h.held path hopen).resolve_left not_false
  refine ⟨id, p, hp, ?_, hroot⟩
  cases hcases : p.kind with
  | inferred => rfl
  | configured => exact absurd hcases (hw.kind id p hp)
  | auxiliary => exact absurd hcases hkind

/-- The one inferred project for all has every open document. -/
theorem Isolated.mem_roots_iff (hw : Isolated w) (h : Lawful (w, still))
    (hshared : w.settings.useSingleInferredProject = true) {p : Project}
    (hp : w.project? id = some p) (hkind : p.kind = .inferred) :
    path ∈ p.roots.toList ↔ w.documents.isOpen path = true := by
  refine ⟨isOpen_of_mem_roots h hp hkind, fun hopen => ?_⟩
  obtain ⟨x, p₀, hp₀, hkind₀, hroot⟩ := hw.held h hopen
  have hx : x = id := h.inferred.shared hshared x id
    (charter?_of_live .inferred nofun hp₀ hkind₀) (charter?_of_live .inferred nofun hp hkind)
  rw [hx, hp] at hp₀
  cases hp₀
  exact Project.hasRoot_iff.1 hroot

/-- An inferred project of its own has one document. -/
theorem roots_eq_singleton (h : Lawful (w, still))
    (hseparate : w.settings.useSingleInferredProject = false) {p : Project}
    (hp : w.project? id = some p) (hkind : p.kind = .inferred) :
    ∃ path, p.roots.toList = [path] := by
  obtain ⟨path, hpath⟩ := h.inferred.rooted id (charter?_of_live .inferred nofun hp hkind)
  refine ⟨path, toList_eq_singleton fun r => ⟨fun hr => ?_, fun hr => ?_⟩⟩
  · exact h.inferred.separate hseparate id r path ((rootKind_eq_some_of_live hp hkind).2 hr) hpath
  · rw [hr]
    exact (rootKind_eq_some_of_live hp hkind).1 hpath

/-- **Under the setting that only syntax is served, projects are isolated.**  Every project serves
syntax only and has no manifest; every document, and every root or file of a project, was opened or
asked about; every open document is a root of an inferred project.  A rebuild of an inferred project
succeeds, and then its files are the open documents, in the order in which they were last opened, if
there is one inferred project for all; otherwise its files are one open document. -/
theorem syntax_only_is_isolated (settings : Settings) (steps : List (Host × Action))
    (hsyntaxOnly : settings.syntaxOnly = true) :
    let w := run settings steps
    (∀ id p, w.project? id = some p →
      p.capability = .syntacticOnly ∧ (p.kind = .inferred ∨ p.kind = .auxiliary)) ∧
    (∀ path, w.documents.contains path = true → Mentioned settings steps path) ∧
    (∀ id p path, w.project? id = some p → p.contains path = true →
      Mentioned settings steps path) ∧
    (∀ path, w.documents.isOpen path = true →
      ∃ id p, w.project? id = some p ∧ p.kind = .inferred ∧ p.hasRoot path = true) ∧
    ∀ host id p, w.project? id = some p → p.kind = .inferred →
      (w.refresh host id).1 = .ok () ∧
      ∃ p' files, (w.refresh host id).2.project? id = some p' ∧ p'.files? = some files ∧
        (settings.useSingleInferredProject = true →
          (∀ path, path ∈ files ↔ w.documents.isOpen path = true) ∧
            files.Pairwise (OpenedBefore settings steps)) ∧
        (settings.useSingleInferredProject = false →
          ∃ path, files = [path] ∧ p.hasRoot path = true ∧ w.documents.isOpen path = true) := by
  intro w
  have hisolated : Isolated w := run_isolated hsyntaxOnly steps
  have hlawful : Lawful (w, still) := run_lawful settings steps
  have hsettings : w.settings = settings := run_settings settings steps
  refine ⟨fun id p hp => ⟨hisolated.capability id p hp, ?_⟩,
    fun path => mentioned_of_contains hsyntaxOnly,
    fun id p path hp => run_mentioned hsyntaxOnly steps hp,
    fun path hopen => hisolated.held hlawful hopen, fun host id p hp hkind => ?_⟩
  · cases hcases : p.kind with
    | inferred => exact .inl rfl
    | configured => exact absurd hcases (hisolated.kind id p hp)
    | auxiliary => exact .inr rfl
  · obtain ⟨p', hp', -, -, -, hfiles⟩ := refresh_syntacticOnly hlawful.consistent host hp
      (hisolated.kind id p hp) (hisolated.capability id p hp)
    refine ⟨refresh_of_live host hp, p', _, hp', hfiles, fun hshared => ⟨fun path => ?_, ?_⟩,
      fun hseparate => ?_⟩
    · exact hisolated.mem_roots_iff hlawful (hsettings ▸ hshared) hp hkind
    · exact run_ordered hsyntaxOnly steps hp hkind
    · obtain ⟨path, honly⟩ := roots_eq_singleton hlawful (hsettings ▸ hseparate) hp hkind
      have hpath : path ∈ p.roots.toList := by
        rw [honly]
        exact List.mem_singleton.2 rfl
      exact ⟨path, honly, Project.hasRoot_iff.2 hpath, isOpen_of_mem_roots hlawful hp hkind hpath⟩

/-- One inferred project for all, which serves syntax only. -/
def plainSettings : Settings :=
  { Settings.default with syntaxOnly := true, useSingleInferredProject := true }

/-- The first file imports the second one. -/
def plainFiles : Memory :=
  let place (text : String) : Path := (Path.mk .slash []).join text
  (Memory.empty.addFile (place "a.ts") "import './b'").addFile (place "b.ts") ""

/-- Two files are opened, and the first one is closed and opened again. -/
def reopening : List (Host × Action) :=
  [("open", "/a.ts"), ("open", "/b.ts"), ("close", "/a.ts"), ("open", "/a.ts")].map fun entry =>
    (unlistedHost plainFiles, .request .echo ⟨1, entry.1, .obj [("file", .str entry.2)]⟩)

theorem syntax_only_is_isolated_reopening :
    let w := run plainSettings reopening
    plainSettings.syntaxOnly = true ∧
      ∃ p files, (w.refresh (unlistedHost plainFiles) ⟨1⟩).2.project? ⟨1⟩ = some p ∧
        p.files? = some files ∧ (∀ path, path ∈ files ↔ w.documents.isOpen path = true) ∧
        files.Pairwise (OpenedBefore plainSettings reopening) := by
  intro w
  have hinferred : (w.project? ⟨1⟩).any (fun p => p.kind = .inferred) = true := by decide +kernel
  obtain ⟨p, hp, hkind⟩ := (Option.any_eq_true _ _).1 hinferred
  obtain ⟨-, -, -, -, hrefreshed⟩ := syntax_only_is_isolated plainSettings reopening rfl
  obtain ⟨-, p', files, hp', hfiles, hshared, -⟩ :=
    hrefreshed (unlistedHost plainFiles) ⟨1⟩ p hp (of_decide_eq_true hkind)
  obtain ⟨hopen, hordered⟩ := hshared rfl
  exact ⟨rfl, p', files, hp', hfiles, hopen, hordered⟩

end Workspace

end Codebase
