import Codebase.Proofs.Workspace.Failure
import Codebase.Proofs.Workspace.Links
import Codebase.Proofs.Workspace.Spare
/-!
# Dirty until rebuilt

A change of a document makes the projects of its path dirty, and a dirty project shows no files.
Whatever is asked of a workspace comes to single actions one after the other, and none of these
cleans a project but the rebuild of that very project.

* `Unclean.of_dulls` — what is dirty or gone stays so while nothing is rebuilt.
* `unclean_touchOwners`, `unclean_closeFile`, `unclean_openFile` — a change reaches every owner.
* `project?_of_act` — a single action cleans no project but the one that it rebuilds.
* `act_madeOfSingles` — every action is made of single ones.
* `dirty_until_rebuilt` — what this means in a run.
-/

namespace Codebase.Workspace

variable {host : Host} {w w' : Workspace} {id x : ProjectId} {path : Path}

/-! ## Dirty or gone -/

/-- The project is dirty, or not there any more. -/
def Unclean (w : Workspace) (id : ProjectId) : Prop :=
  ∀ p, w.project? id = some p → p.isDirty = true

theorem Unclean.of_dulls (h : w.Unclean x) (hdulls : Dulls w w') : w'.Unclean x := by
  intro p hp
  by_contra hclean
  exact hclean (h p (hdulls x p hp (Bool.eq_false_iff.2 hclean)))

theorem unclean_touchOwners (hx : x ∈ w.ownership.ownersOf path) :
    (w.touchOwners path).Unclean x := by
  intro p hp
  unfold touchOwners at hp
  rw [project?_foldl_touch, if_pos hx] at hp
  obtain ⟨before, -, rfl⟩ := Option.map_eq_some_iff.1 hp
  rfl

/-! ## What a change of a document reaches -/

theorem unclean_closeIn (path : Path) (s : Workspace × List ProjectId) (id : ProjectId) :
    (closeIn path s id).1.Unclean id := by
  intro p hp
  unfold closeIn at hp
  simp only at hp
  split at hp
  · rename_i hnone
    rw [hnone] at hp
    cases hp
  · rename_i project _
    split at hp
    · have htaken :
          (s.1.modifyProject id fun _ => project.removeRoot path).project? id = some p := by
        simp only at hp
        split at hp <;> exact hp
      exact isDirty_modifyProject (fun _ => rfl) htaken
    · exact isDirty_modifyProject (f := Project.touch) (fun _ => rfl) hp

theorem unclean_foldl_closeIn {ids : List ProjectId} {s : Workspace × List ProjectId}
    (h : Consistent s.1) (hx : x ∈ ids) : (ids.foldl (closeIn path) s).1.Unclean x := by
  induction ids generalizing s with
  | nil => cases hx
  | cons id rest ih =>
    have hconsistent := (closeIn_spares h path id).consistent
    rw [List.foldl_cons]
    rcases List.mem_cons.1 hx with rfl | hrest
    · exact (unclean_closeIn path s x).of_dulls (foldl_closeIn_spares hconsistent path rest).dulls
    · exact ih hconsistent hrest

/-- Closing a document makes each of its owners dirty or ends it. -/
theorem unclean_closeFile (h : Consistent w) (hclose : w.closeFile path = (.ok (), w'))
    (hx : x ∈ w.ownership.ownersOf path) : w'.Unclean x := by
  unfold closeFile at hclose
  split at hclose
  · cases hclose
  · rename_i documents _
    simp only at hclose
    let owners := w.ownership.ownersOf path
    have hclosed := foldl_closeIn_spares (s := ({ w with documents }, [])) (h.documents documents)
      path owners
    have hdirty : (owners.foldl (closeIn path) ({ w with documents }, [])).1.Unclean x :=
      unclean_foldl_closeIn (s := ({ w with documents }, [])) (h.documents documents) hx
    generalize owners.foldl (closeIn path) ({ w with documents }, []) = state
      at hclosed hdirty hclose
    have hemptied := removeProjects_spares hclosed.consistent state.2
    cases hclose
    exact hdirty.of_dulls (hemptied.trans (forgetUnowned_spares hemptied.consistent path)).dulls

/-- Editing a document makes each of its owners dirty. -/
theorem unclean_editFile {change : TextChange} {version : Nat}
    (hedit : w.editFile path change version = (.ok (), w'))
    (hx : x ∈ w.ownership.ownersOf path) : w'.Unclean x := by
  unfold editFile at hedit
  split at hedit
  · cases hedit
  · rename_i documents _
    cases hedit
    exact unclean_touchOwners (w := { w with documents }) hx

/-- The owners of a path that are still there when its stand-ins have been dropped own it still. -/
theorem owner_of_dropStandIns {p : Project} (h : Consistent w)
    (hx : x ∈ w.ownership.ownersOf path) (hlive : (w.dropStandIns path).project? x = some p) :
    x ∈ (w.dropStandIns path).ownership.ownersOf path := by
  have hignores : Ignores path w (w.dropStandIns path) := removeProjects_ignores w _
  have hconsistent := (dropStandIns_spares h path).consistent
  rw [hconsistent.mirrored, hignores.members x p hlive, ← h.mirrored]
  exact hx

/-- Opening a document with another text makes each of its owners dirty or ends it. -/
theorem unclean_openFile {content text : String} (h : Consistent w)
    (hopen : w.openFile host path content = (.ok id, w'))
    (htext : w.documents.text? path = some text) (hchanged : text ≠ content)
    (hx : x ∈ w.ownership.ownersOf path) : w'.Unclean x := by
  have hopening : ∀ {opened documents}, w.documents.open path content = .ok (opened, documents) →
      (w.opening path opened documents).Unclean x := by
    intro opened documents hopened
    have hreported : opened.contentChanged = true := by
      obtain ⟨-, -, -, hsame⟩ := Documents.of_open hopened
      by_contra hsilent
      rw [hsame (Bool.eq_false_iff.2 hsilent) (Documents.contains_of_text? htext)] at htext
      exact hchanged (Option.some.inj htext).symm
    have hconsistent := h.documents documents
    unfold opening
    simp only [hreported, if_true]
    cases hlive : ({ w with documents }.dropStandIns path).project? x with
    | none =>
      have hgone : ({ w with documents }.dropStandIns path).Unclean x := fun p hp => by
        rw [hlive] at hp
        cases hp
      exact hgone.of_dulls
        (foldl_touch_spares (dropStandIns_spares hconsistent path).consistent _).dulls
    | some p => exact unclean_touchOwners (owner_of_dropStandIns hconsistent hx hlive)
  have hopens := openFile_opens host w path content
  rw [hopen] at hopens
  cases hopens with
  | held hopened _ =>
    exact (hopening hopened).of_dulls (modifyProject_dulls _ id fun _ => rfl)
  | @assigned opened documents hopened _ =>
    have hspares := opening_spares h path opened documents
    exact (hopening hopened).of_dulls (assign_spares hspares.consistent host path).dulls

/-! ## Single actions -/

/-- The action is not made of others. -/
def Action.IsSingle : Action → Prop
  | .refreshAll | .filesOf _ | .request _ _ => False
  | _ => True

theorem openFile_dulls (h : Consistent w) (host : Host) (path : Path) (content : String) :
    Dulls w (w.openFile host path content).2 := by
  cases hopen : w.openFile host path content with
  | mk result next =>
    cases result with
    | error e =>
      have hsame := openFile_unspoilt w host path content e
      rw [hopen] at hsame
      rw [hsame rfl]
      exact dulls_refl w
    | ok id =>
      obtain ⟨opened, documents, -, hspares, -⟩ := openFile_spares h hopen
      exact hspares.dulls

theorem closeFile_dulls (h : Consistent w) (path : Path) : Dulls w (w.closeFile path).2 := by
  cases hclose : w.documents.close path with
  | error e =>
    unfold closeFile
    rw [hclose]
    exact dulls_refl w
  | ok documents => exact (closeFile_spares h hclose).dulls

theorem touchOwners_dulls (h : Consistent w) (path : Path) : Dulls w (w.touchOwners path) :=
  (foldl_touch_spares h _).dulls

theorem editFile_dulls (h : Consistent w) (path : Path) (change : TextChange) (version : Nat) :
    Dulls w (w.editFile path change version).2 := by
  unfold editFile
  split
  · exact dulls_refl w
  · exact touchOwners_dulls (h.documents _) path

theorem fileModified_dulls (h : Consistent w) (host : Host) (path : Path) :
    Dulls w (w.fileModified host path).2 := by
  rcases fileModified_eq host w path with hsame | ⟨text, changed, documents, -, -, hnext⟩
  · rw [hsame]
    exact dulls_refl w
  · rw [hnext]
    split
    · exact touchOwners_dulls (h.documents documents) path
    · exact dulls_refl w

theorem disown_dulls (w : Workspace) (path : Path) (id : ProjectId) : Dulls w (disown path w id) :=
  modifyProject_dulls w id (f := (·.removeRoot path)) fun _ => rfl

theorem fileDeleted_dulls (w : Workspace) (path : Path) : Dulls w (w.fileDeleted path) := by
  unfold fileDeleted
  split
  · exact dulls_refl w
  · exact (removeProjects_dulls w _).trans
      (List.foldlRecOn _ (disown path) (dulls_refl _) fun w' hw' id _ =>
        hw'.trans (disown_dulls w' path id))

theorem reassign_spares (h : Consistent w) (host : Host) (paths : List Path) :
    Spares w (w.reassign host paths) :=
  List.foldlRecOn paths _ (spares_refl h) fun _ hs path _ =>
    hs.trans (assign_spares hs.consistent host path)

theorem manifestAppeared_spares (h : Consistent w) (host : Host) (directory : Path) :
    Spares w (w.manifestAppeared host directory) := by
  refine List.foldlRecOn _ _ (spares_refl h) fun w' hw' path _ => ?_
  have hunrooted := unroot_spares hw'.consistent path none
  exact hw'.trans (hunrooted.trans (assign_spares hunrooted.consistent host path))

theorem manifestEvent_dulls (h : Consistent w) (host : Host) (path : Path) (change : FileChange) :
    Dulls w (w.manifestEvent host path change) := by
  unfold manifestEvent
  split
  · exact modifyProject_dulls w _ (f := Project.outdate) fun _ => rfl
  · exact modifyProject_dulls w _ (f := Project.outdate) fun _ => rfl
  · rename_i id _
    have hgone := removeProject_spares h id
    exact (hgone.trans (reassign_spares hgone.consistent host _)).dulls
  · split
    · split
      · exact dulls_refl w
      · exact (manifestAppeared_spares h host _).dulls
    · exact dulls_refl w
  · exact dulls_refl w

theorem noticeFile_dulls (h : Consistent w) (host : Host) (event : FileEvent) :
    Dulls w (w.noticeFile host event).2 := by
  unfold noticeFile
  split
  · exact manifestEvent_dulls h host event.path event.change
  · split
    · exact (fileCreated_spares h event.path).dulls
    · exact fileModified_dulls h host event.path
    · exact fileDeleted_dulls w event.path

theorem providerFor_dulls (host : Host) (w : Workspace) (path : Path) :
    Dulls w (w.providerFor host path).2 := by
  rcases providerFor_eq host w path with hsame | ⟨documents, -, -, hadded⟩
  · rw [hsame]
    exact dulls_refl w
  · rw [hadded]
    refine (frame_addStandIn w documents path).dulls fun p hp => ?_
    rw [project?_addStandIn, if_pos rfl] at hp
    cases hp
    rfl

/-- **A single action cleans no project but the one that it rebuilds.**  Any other one that is clean
afterwards was there before as it is. -/
theorem project?_of_act {p : Project} {action : Action} (h : Consistent w) (host : Host)
    (hsingle : action.IsSingle) (hother : action ≠ .refresh x)
    (hp : (w.act host action).project? x = some p) (hclean : p.isDirty = false) :
    w.project? x = some p := by
  cases action with
  | openFile path content => exact openFile_dulls h host path content x p hp hclean
  | closeFile path => exact closeFile_dulls h path x p hp hclean
  | editFile path change version => exact editFile_dulls h path change version x p hp hclean
  | notice event => exact noticeFile_dulls h host event x p hp hclean
  | refresh id => exact project?_of_refresh host (fun hx => hother (hx ▸ rfl)) hp hclean
  | providerFor path => exact providerFor_dulls host w path x p hp hclean
  | refreshAll => exact hsingle.elim
  | filesOf id => exact hsingle.elim
  | request service request => exact hsingle.elim

/-! ## What actions are made of -/

/-- Single actions one after the other, with the same host. -/
def actAll (w : Workspace) (host : Host) (parts : List Action) : Workspace :=
  parts.foldl (fun w part => w.act host part) w

theorem run_append_parts (settings : Settings) (steps : List (Host × Action)) (host : Host)
    (parts : List Action) :
    run settings (steps ++ parts.map fun part => (host, part)) =
      (run settings steps).actAll host parts := by
  unfold run actAll
  rw [List.foldl_append, List.foldl_map]

/-- The workspace is reached by single actions. -/
def MadeOfSingles (host : Host) (w w' : Workspace) : Prop :=
  ∃ parts, (∀ part ∈ parts, part.IsSingle) ∧ w' = w.actAll host parts

theorem madeOfSingles_refl (w : Workspace) : MadeOfSingles host w w := ⟨[], nofun, rfl⟩

theorem madeOfSingles_act (w : Workspace) (action : Action) (h : action.IsSingle) :
    MadeOfSingles host w (w.act host action) :=
  ⟨[action], fun _ hpart => List.mem_singleton.1 hpart ▸ h, rfl⟩

theorem MadeOfSingles.trans {w'' : Workspace} (h : MadeOfSingles host w w')
    (h' : MadeOfSingles host w' w'') : MadeOfSingles host w w'' := by
  obtain ⟨parts, hparts, rfl⟩ := h
  obtain ⟨later, hlater, rfl⟩ := h'
  refine ⟨parts ++ later, fun part hpart => ?_, ?_⟩
  · exact (List.mem_append.1 hpart).elim (hparts part) (hlater part)
  · unfold actAll
    rw [List.foldl_append]

theorem Inquiries.madeOfSingles {asked : Option Path} (h : Inquiries asked host w w') :
    MadeOfSingles host w w' := by
  induction h with
  | refl => exact madeOfSingles_refl w
  | tail _ hinquiry ih =>
    refine ih.trans ?_
    cases hinquiry with
    | refresh id => exact madeOfSingles_act _ (.refresh id) trivial
    | provide path _ => exact madeOfSingles_act _ (.providerFor path) trivial

theorem serve_madeOfSingles (service : LanguageService) (host : Host) (w : Workspace)
    (request : Request) : MadeOfSingles host w (w.serve service host request).2 := by
  have hserves := serve_serves service host w request
  generalize (w.serve service host request).2 = next at hserves ⊢
  cases hserves with
  | @opening id next path content _ hopen =>
    have hopened : MadeOfSingles host w next := by
      rw [show next = w.act host (.openFile path content) from (congrArg Prod.snd hopen).symm]
      exact madeOfSingles_act w _ trivial
    exact hopened.trans (madeOfSingles_act next (.refresh id) trivial)
  | closing file => exact madeOfSingles_act w (.closeFile file) trivial
  | editing file change version =>
    exact madeOfSingles_act w (.editFile file change version) trivial
  | asking h => exact h.madeOfSingles

/-- Every action is made of single ones. -/
theorem act_madeOfSingles (w : Workspace) (host : Host) (action : Action) :
    MadeOfSingles host w (w.act host action) := by
  cases action with
  | refreshAll => exact (refreshEach_inquiries none host w _).madeOfSingles
  | filesOf id => exact (filesOf_inquiries none host w id).madeOfSingles
  | request service request => exact serve_madeOfSingles service host w request
  | _ => exact madeOfSingles_act w _ trivial

/-! ## Runs -/

/-- Rebuilding a dirty project succeeds, cleans it, and counts as one build. -/
theorem refresh_of_dirty {p : Project} (host : Host) (hlive : w.project? id = some p)
    (hdirty : p.isDirty = true) :
    (w.refresh host id).1 = .ok () ∧ ∃ p', (w.refresh host id).2.project? id = some p' ∧
      p'.isDirty = false ∧ p'.buildCount = p.buildCount + 1 := by
  obtain ⟨p', hp', hclean, rfl | ⟨build, hbuilt⟩⟩ := refresh_self host hlive
  · rw [hdirty] at hclean
    cases hclean
  · exact ⟨refresh_of_live host hlive, p', hp', hclean, (Project.refresh?_spec hbuilt).1⟩

/-- Rebuilding a clean project changes nothing. -/
theorem refresh_of_clean {p : Project} (host : Host) (hlive : w.project? id = some p)
    (hclean : p.isDirty = false) : w.refresh host id = (.ok (), w) := by
  have hnone : p.refresh? (w.context host) = none := by
    unfold Project.refresh?
    rw [hclean]
    rfl
  rw [refresh_eq, hlive]
  simp only [hnone]

/-- A dirty project shows no files, neither itself nor in a program. -/
theorem program_of_dirty {p : Project} (hlive : w.project? id = some p)
    (hdirty : p.isDirty = true) :
    p.files? = none ∧
      w.program id = .error (.invalidRequest ("project " ++ p.name ++ " is not up to date")) := by
  have hnone : p.files? = none := if_pos hdirty
  refine ⟨hnone, ?_⟩
  unfold program
  simp only [hlive, hnone]

/-- **Dirty until rebuilt.**  In every state of a run, closing or editing a document leaves every
project that was linked to its path dirty or gone.  So does opening one with another text, and the
project that an opened document is given to is there and dirty in any case.

Every action comes to single ones, one after the other.  When a project is dirty before a single
action and clean after it, that action was the rebuild of this project.  The rebuild of a dirty
project succeeds, cleans it and counts as one build, and the rebuild of a clean one changes nothing.
As long as a project is dirty it shows no files, and there is no program of it. -/
theorem dirty_until_rebuilt (settings : Settings) (steps : List (Host × Action)) (host : Host) :
    let w := run settings steps
    (∀ path w', w.closeFile path = (.ok (), w') →
      ∀ x ∈ w.ownership.ownersOf path, w'.Unclean x) ∧
    (∀ path change version w', w.editFile path change version = (.ok (), w') →
      ∀ x ∈ w.ownership.ownersOf path, w'.Unclean x) ∧
    (∀ path content id w', w.openFile host path content = (.ok id, w') →
      w'.IsDirty id ∧
      ∀ text, w.documents.text? path = some text → text ≠ content →
        ∀ x ∈ w.ownership.ownersOf path, w'.Unclean x) ∧
    (∀ action, ∃ parts : List Action, (∀ part ∈ parts, part.IsSingle) ∧
      w.act host action = run settings (steps ++ parts.map fun part => (host, part))) ∧
    (∀ action, action.IsSingle → ∀ x p, w.IsDirty x →
      (w.act host action).project? x = some p → p.isDirty = false → action = .refresh x) ∧
    (∀ x p, w.project? x = some p →
      (p.isDirty = true → (w.refresh host x).1 = .ok () ∧
        ∃ p', (w.refresh host x).2.project? x = some p' ∧ p'.isDirty = false ∧
          p'.buildCount = p.buildCount + 1) ∧
      (p.isDirty = false → w.refresh host x = (.ok (), w)) ∧
      (p.isDirty = true → p.files? = none ∧
        w.program x =
          .error (.invalidRequest ("project " ++ p.name ++ " is not up to date")))) := by
  intro w
  have h : Consistent w := run_consistent settings steps
  refine ⟨fun path w' hclose x hx => unclean_closeFile h hclose hx,
    fun path change version w' hedit x hx => unclean_editFile hedit hx,
    fun path content id w' hopen => ⟨?_, fun text htext hchanged x hx =>
      unclean_openFile h hopen htext hchanged hx⟩,
    fun action => ?_, fun action hsingle x p hdirty hp hclean => ?_,
    fun x p hlive => ⟨refresh_of_dirty host hlive, refresh_of_clean host hlive,
      program_of_dirty hlive⟩⟩
  · obtain ⟨p, hp⟩ := live_of_openFile h hopen
    obtain ⟨-, -, -, -, hdirty⟩ := openFile_spares h hopen
    exact ⟨p, hp, hdirty p hp⟩
  · obtain ⟨parts, hparts, hact⟩ := act_madeOfSingles w host action
    exact ⟨parts, hparts, hact.trans (run_append_parts settings steps host parts).symm⟩
  · by_contra hother
    obtain ⟨before, hbefore, hdirty⟩ := hdirty
    rw [project?_of_act h host hsingle hother hp hclean] at hbefore
    cases hbefore
    rw [hclean] at hdirty
    cases hdirty

/-- A file is opened and its project is built. -/
def builtOnce : List (Host × Action) :=
  [(Memory.empty.host, .openFile ((Path.mk .slash []).join "p/a.ts") "let a;"),
    (Memory.empty.host, .refresh ⟨1⟩)]

/-- An edit that empties the file makes its project, which has been built once, dirty again. -/
theorem dirty_until_rebuilt_edited :
    let w := run .default builtOnce
    let path : Path := (Path.mk .slash []).join "p/a.ts"
    let edited := (w.editFile path (.full "") 2).2
    (w.editFile path (.full "") 2).1 = .ok () ∧
      ((w.project? ⟨1⟩).any fun p => !p.isDirty && p.buildCount = 1) = true ∧
      (⟨1⟩ : ProjectId) ∈ w.ownership.ownersOf path ∧ edited.Unclean ⟨1⟩ := by
  have hok :
      ((run .default builtOnce).editFile ((Path.mk .slash []).join "p/a.ts") (.full "") 2).1 =
        .ok () := by
    decide +kernel
  have howner : (⟨1⟩ : ProjectId) ∈
      (run .default builtOnce).ownership.ownersOf ((Path.mk .slash []).join "p/a.ts") := by
    decide +kernel
  refine ⟨hok, by decide +kernel, howner, ?_⟩
  obtain ⟨-, hedited, -⟩ := dirty_until_rebuilt .default builtOnce Memory.empty.host
  exact hedited _ _ _ _ (Prod.ext hok rfl) _ howner

end Codebase.Workspace
