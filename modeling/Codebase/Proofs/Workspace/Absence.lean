import Codebase.Proofs.Build.Closure
import Codebase.Proofs.Host.Listing
import Codebase.Proofs.Manifest
import Codebase.Proofs.Workspace.Bypass
import Codebase.Proofs.Workspace.Mandate
import Codebase.Proofs.Workspace.Mirror
/-!
# Files that are gone

A report that a file was deleted takes its path away from every project.  As long as the host does
not have the file, and nobody opens it or reports that it was created, it comes back in one way
only: a project reads a manifest that names the path.  What a manifest lists one by one is looked
up on the host, but what the listing of a directory shows is not, so this takes a listing that shows
a file that is not there:

* `Gone` — nothing is left of a path.
* `Returns` — a manifest that names the path has been read for a project.
* `Bypasses.estranged` — on the way through an operation, the projects that have the path as a root
  are those for which it returns, and nothing else is linked to it.
* `act_gone_iff` — what one action makes of a path that is gone.
* `deleted_file_stays_gone_iff` — what a run makes of it.
* `deleted_file_returns` — it may come back.
-/

namespace Codebase

namespace Project

variable {project other rebuilt : Project} {ctx ctx' : Context} {build : Build} {path : Path}

/-- Which manifest is read next depends on where it lies and on the host. -/
theorem successor?_congr (hcharter : other.charter = project.charter)
    (hstale : other.isStale = project.isStale) (hhost : ctx'.host = ctx.host)
    (hsettings : ctx'.settings = ctx.settings) :
    other.successor? ctx' = project.successor? ctx := by
  unfold charter at hcharter
  unfold successor? mandate? Mandate.successor?
  rw [hstale, hhost, hsettings]
  cases horigin : project.origin <;> cases horigin' : other.origin <;>
    simp only [horigin, horigin', reduceCtorEq, Charter.configured.injEq] at hcharter ⊢
  simp only [Option.bind_some, hcharter]

/-- A build that misses a path has it as a file only if it is a root. -/
theorem hasRoot_of_mem_members (h : project.refresh? ctx = some (rebuilt, build))
    (hmissing : ctx.hasFile path = false) (hmember : path ∈ rebuilt.members) :
    rebuilt.hasRoot path = true := by
  obtain ⟨-, hrebuilt⟩ := rebuilt_of_refresh? h
  have hlinked : rebuilt.Linked fun q => q ∈ rebuilt.members := hrebuilt.linked fun _ => Iff.rfl
  rcases contains_iff.1 (hlinked.known path hmember) with hroot | ⟨files, hderived, hfile⟩
  · exact hroot
  · rw [hrebuilt.derived] at hderived
    cases hderived
    rw [hrebuilt.built] at hfile
    rcases Build.mem_roots_or_hasFile hfile with hroot | hexists
    · exact hasRoot_iff.2 hroot
    · rw [hmissing] at hexists
      cases hexists

end Project

namespace Workspace

variable {asked : Option Path} {host : Host} {action : Action} {w w' w'' : Workspace}
  {x : ProjectId} {path : Path}

/-! ## What is gone, and what returns -/

/-- Nothing is left of the path: it is not tracked, it is a root of no project and linked to none,
and no project that is not dirty has it among its files. -/
structure Gone (w : Workspace) (path : Path) : Prop where
  untracked : w.documents.contains path = false
  rootless : ∀ x p, w.project? x = some p → p.hasRoot path = false
  unowned : w.ownership.ownersOf path = []
  unseen : ∀ x p files, w.project? x = some p → p.isDirty = false → p.files? = some files →
    path ∉ files

/-- What is not linked is no root and no file. -/
theorem gone_of_unowned (h : Consistent w) (huntracked : w.documents.get? path = none)
    (hunowned : w.ownership.ownersOf path = []) : Gone w path := by
  have hunlinked : ∀ x, path ∉ w.ownership.membersOf x := by
    intro x hlinked
    have howner := (h.mirrored x path).2 hlinked
    rw [hunowned] at howner
    cases howner
  refine ⟨Table.contains_eq_false.2 huntracked, fun x p hp => ?_, hunowned,
    fun x p files hp hclean hfiles hfile => ?_⟩
  · refine Bool.eq_false_iff.2 fun hroot => hunlinked x ?_
    exact (h.linked x p hp).roots path (Project.hasRoot_iff.1 hroot)
  · obtain ⟨derived, hsettled⟩ := (h.linked x p hp).settled hclean
    rw [Project.files?_of_clean hclean, hsettled.derived] at hfiles
    cases hfiles
    exact hunlinked x ((hsettled.links path).2 hfile)

theorem Gone.get? (h : Gone w path) : w.documents.get? path = none :=
  Table.contains_eq_false.1 h.untracked

theorem Gone.unlinked (h : Gone w path) (hw : Consistent w) (x : ProjectId) :
    path ∉ w.ownership.membersOf x := by
  intro hlinked
  have howner := (hw.mirrored x path).2 hlinked
  rw [h.unowned] at howner
  cases howner

/-- On the way from `w`, a manifest that names the path has been read for the project: the project
is new, or its manifest was to be read again and is not any more. -/
def Returns (host : Host) (w : Workspace) (path : Path) (x : ProjectId) (next : Project) : Prop :=
  next.isStale = false ∧ ∃ manifest, path ∈ manifest.named host w.settings ∧
    match w.project? x with
    | none => next.manifest? = some manifest
    | some p => p.successor? (w.context host) = some manifest

/-- An action brings the path back to some project. -/
def Revives (host : Host) (w w' : Workspace) (path : Path) : Prop :=
  ∃ x p, w'.project? x = some p ∧ Returns host w path x p

theorem returns_congr {next last : Project} (hstale : last.isStale = next.isStale)
    (hmanifest : last.manifest? = next.manifest?) :
    Returns host w path x last ↔ Returns host w path x next := by
  unfold Returns
  rw [hstale, hmanifest]

theorem returns_iff_of_none {next : Project} (hnew : w.project? x = none) :
    Returns host w path x next ↔ next.isStale = false ∧ ∃ manifest,
      next.manifest? = some manifest ∧ path ∈ manifest.named host w.settings := by
  unfold Returns
  rw [hnew]
  simp only [and_comm]

theorem returns_iff_of_live {p next : Project} (hp : w.project? x = some p) :
    Returns host w path x next ↔ next.isStale = false ∧ ∃ manifest,
      p.successor? (w.context host) = some manifest ∧ path ∈ manifest.named host w.settings := by
  unfold Returns
  rw [hp]
  simp only [and_comm]

/-- For a project that was there and has nothing to read, the path does not return. -/
theorem not_returns_of_fresh {p next : Project} (hp : w.project? x = some p)
    (hfresh : p.isStale = false) : ¬ Returns host w path x next := by
  rw [returns_iff_of_live hp, Project.successor?_of_fresh hfresh]
  rintro ⟨-, manifest, hnone, -⟩
  cases hnone

/-! ## On the way through an operation -/

/-- How things stand on the way from `w`, where the path was gone: the projects that have it as a
root are those for which it has returned, and no other one is linked to it. -/
structure Estranged (host : Host) (path : Path) (w w' : Workspace) : Prop where
  misses : w'.Misses host path
  settings : w'.settings = w.settings
  lastNumber : w.lastNumber ≤ w'.lastNumber
  charter : ∀ x p, w.project? x = some p → ∀ p', w'.project? x = some p' →
    p'.charter = p.charter
  fresh : ∀ x p', w'.project? x = some p' →
    (∀ p, w.project? x = some p → p.isStale = false) → p'.isStale = false
  linked : ∀ x p', w'.project? x = some p' → path ∈ w'.ownership.membersOf x →
    p'.hasRoot path = true
  root : ∀ x p', w'.project? x = some p' → (p'.hasRoot path = true ↔ Returns host w path x p')

theorem estranged_refl (hw : Consistent w) (hgone : Gone w path) (habsent : host.Lacks path) :
    Estranged host path w w where
  misses := ⟨hgone.get?, habsent⟩
  settings := rfl
  lastNumber := Nat.le_refl _
  charter x p hp p' hp' := by
    cases hp.symm.trans hp'
    rfl
  fresh x p hp hfresh := hfresh p hp
  linked x p hp hlinked := absurd hlinked (hgone.unlinked hw x)
  root x p hp := by
    refine iff_of_false (Bool.eq_false_iff.1 (hgone.rootless x p hp)) ?_
    rintro ⟨hfresh, hread⟩
    exact not_returns_of_fresh hp hfresh ⟨hfresh, hread⟩

/-- A project starts. -/
theorem Estranged.root_of_start {p : Project} {linked : Prop} (h : Estranged host path w w')
    (hw : Consistent w)
    (hstarts : p.Fledgling asked host w'.settings path linked (w'.Misses host path)) :
    p.hasRoot path = true ↔ Returns host w path ⟨w'.lastNumber + 1⟩ p := by
  have hnew : w.project? ⟨w'.lastNumber + 1⟩ = none := by
    cases hlive : w.project? ⟨w'.lastNumber + 1⟩ with
    | none => rfl
    | some p =>
      have hnumber : w'.lastNumber + 1 ≤ w.lastNumber := hw.numbered _ p hlive
      have hlast := h.lastNumber
      omega
  rw [returns_iff_of_none hnew, and_iff_right hstarts.isStale]
  by_cases hkind : p.kind = .auxiliary
  · refine iff_of_false (fun hroot => hstarts.known hkind hroot h.misses) ?_
    rintro ⟨manifest, hmanifest, -⟩
    exact kind_of_manifest? hmanifest hkind
  · rw [hstarts.named hkind, h.settings]
    rfl

/-- A project is built, and reads its manifest again if that is due. -/
theorem Estranged.root_of_build {p p' : Project} {build : Build} (h : Estranged host path w w')
    (hp : w'.project? x = some p)
    (hbuilt : p.refresh? (w'.context host) = some (p', build)) :
    p'.hasRoot path = true ↔ Returns host w path x p' := by
  have hread : p'.isStale = false := (Project.rebuilt_of_refresh? hbuilt).2.isStale
  cases hstale : p.isStale with
  | false =>
    obtain ⟨hmanifest, hroots⟩ := (Project.refresh?_spec hbuilt).2 hstale
    rw [returns_congr (hread.trans hstale.symm) hmanifest, ← h.root x p hp]
    unfold Project.hasRoot
    rw [hroots]
  | true =>
    have hbefore : ¬ p.hasRoot path = true := by
      rw [h.root x p hp]
      rintro ⟨hfresh, -⟩
      rw [hstale] at hfresh
      cases hfresh
    obtain ⟨first, hfirst, hdue⟩ : ∃ first, w.project? x = some first ∧ first.isStale = true := by
      by_contra hnone
      have hfresh := h.fresh x p hp fun first hfirst =>
        Bool.eq_false_iff.2 fun hdue => hnone ⟨first, hfirst, hdue⟩
      rw [hstale] at hfresh
      cases hfresh
    have hsuccessor : p.successor? (w'.context host) = first.successor? (w.context host) :=
      Project.successor?_congr (h.charter x first hfirst p hp) (hstale.trans hdue.symm) rfl
        h.settings
    rw [Project.hasRoot_of_refresh? hbuilt, returns_iff_of_live hfirst, and_iff_right hread]
    unfold Project.Retains
    rw [hsuccessor]
    cases hfound : first.successor? (w.context host) with
    | none => exact iff_of_false hbefore fun ⟨_, hnone, _⟩ => by cases hnone
    | some manifest =>
      have hnamed : manifest.named (w'.context host).host (w'.context host).settings =
          manifest.named host w.settings := congrArg (manifest.named host) h.settings
      simp only [hnamed, hbefore, Bool.false_eq_true, false_and, or_false, Option.some.injEq,
        exists_eq_left']

/-- **A step that starts or builds projects gives the path to those for which it returns.** -/
theorem Estranged.step (h : Estranged host path w w') (hw : Consistent w)
    (hstep : Bypass asked host path w' w'') : Estranged host path w w'' where
  misses := hstep.misses h.misses
  settings := hstep.turn.settings.trans h.settings
  lastNumber := Nat.le_trans h.lastNumber hstep.turn.lastNumber
  charter x p hp := by
    obtain ⟨documents, -, hmoves⟩ := hstep.reach
    exact (hmoves.keeps (Project.enduring_charter p.charter)
      (Nat.le_trans (hw.numbered x p hp) h.lastNumber) (h.charter x p hp)).2
  fresh x p'' hp'' hfresh := by
    rcases hstep.turn.comes hp'' with ⟨p', hp', hresembles, -⟩ | ⟨-, hstarts⟩ |
      ⟨p', build, -, hbuilt, -⟩
    · exact hresembles.isStale.trans (h.fresh x p' hp' hfresh)
    · exact hstarts.isStale
    · exact (Project.rebuilt_of_refresh? hbuilt).2.isStale
  linked x p'' hp'' hlinked := by
    rcases hstep.turn.comes hp'' with ⟨p', hp', hresembles, hsame⟩ | ⟨-, hstarts⟩ |
      ⟨p', build, -, hbuilt, hmember⟩
    · exact hresembles.hasRoot.trans (h.linked x p' hp' (hsame.1 hlinked))
    · rcases Project.contains_iff.1 (hstarts.linked.1 hlinked) with hroot | ⟨_, hderived, -⟩
      · exact hroot
      · rw [hstarts.derived] at hderived
        cases hderived
    · have hmissing : (w'.context host).hasFile path = false :=
        Bool.or_eq_false_iff.2
          ⟨Table.contains_eq_false.2 h.misses.untracked, h.misses.absent.hasFile⟩
      exact Project.hasRoot_of_mem_members hbuilt hmissing (hmember.1 hlinked)
  root x p'' hp'' := by
    rcases hstep.turn.comes hp'' with ⟨p', hp', hresembles, -⟩ | ⟨rfl, hstarts⟩ |
      ⟨p', build, hp', hbuilt, -⟩
    · rw [hresembles.hasRoot, returns_congr hresembles.isStale hresembles.manifest]
      exact h.root x p' hp'
    · exact h.root_of_start hw hstarts
    · exact h.root_of_build hp' hbuilt

theorem Bypasses.estranged (h : Bypasses asked host path w w') (hw : Consistent w)
    (hgone : Gone w path) (habsent : host.Lacks path) : Estranged host path w w' := by
  induction h with
  | refl => exact estranged_refl hw hgone habsent
  | tail _ hlast ih => exact ih.step hw hlast

/-- After an operation the path is gone still, unless it returns for some project. -/
theorem Estranged.gone_iff (h : Estranged host path w w') (hw' : Consistent w') :
    Gone w' path ↔ ¬ Revives host w w' path := by
  constructor
  · rintro hgone ⟨x, p', hp', hreturns⟩
    have hroot := (h.root x p' hp').2 hreturns
    rw [hgone.rootless x p' hp'] at hroot
    cases hroot
  · intro hnone
    refine gone_of_unowned hw' h.misses.untracked (List.eq_nil_iff_forall_not_mem.2 fun x hx => ?_)
    obtain ⟨p', hp'⟩ := hw'.live_of_owner hx
    have hroot := h.linked x p' hp' ((hw'.mirrored x path).1 hx)
    exact hnone ⟨x, p', hp', (h.root x p' hp').1 hroot⟩

/-! ## Actions -/

/-- A manifest is to be read again. -/
theorem gone_outdate_iff (hw : Consistent w) (hgone : Gone w path) (id : ProjectId) :
    Gone (w.modifyProject id Project.outdate) path ↔
      ¬ Revives host w (w.modifyProject id Project.outdate) path := by
  have hmoves : Moves Memory.empty.host w (w.modifyProject id Project.outdate) :=
    (Move.outdate w id).moves
  refine iff_of_true (gone_of_unowned (hmoves.consistent hw) hgone.get? hgone.unowned) ?_
  rintro ⟨x, p', hp', hreturns⟩
  rw [project?_modifyProject] at hp'
  split at hp'
  · obtain ⟨p, -, rfl⟩ := Option.map_eq_some_iff.1 hp'
    cases hreturns.1
  · exact not_returns_of_fresh hp' hreturns.1 hreturns

/-- A file that is gone is reported to be deleted once more. -/
theorem fileDeleted_ignores_of_gone (hgone : Gone w path) :
    Ignores path w (w.fileDeleted path) := by
  have hnone : (w.projectList.filter fun p => p.kind = .auxiliary && p.hasRoot path) = [] := by
    refine List.filter_eq_nil_iff.2 fun p hp => ?_
    obtain ⟨x, hx⟩ := mem_projectList.1 hp
    rw [hgone.rootless x p hx, Bool.and_false]
    exact Bool.false_ne_true
  have hsame : w.removeProjects (([] : List Project).map Project.id) = w := rfl
  unfold fileDeleted
  split
  · exact ignores_refl w
  · simp only
    rw [hnone, hsame, hgone.unowned]
    exact documents_ignores w _

theorem manifestEvent_bypasses (h : Consistent w) (hclosed : w.documents.isOpen path = false)
    (file : Path) (change : FileChange) :
    Bypasses asked host path w (w.manifestEvent host file change) ∨
      ∃ id, w.manifestEvent host file change = w.modifyProject id Project.outdate := by
  unfold manifestEvent
  split
  · exact .inr ⟨_, rfl⟩
  · exact .inr ⟨_, rfl⟩
  · exact .inl (manifestDeleted_bypasses h hclosed _)
  · split
    · split
      · exact .inl .refl
      · exact .inl (manifestAppeared_bypasses h hclosed _)
    · exact .inl .refl
  · exact .inl .refl

theorem noticeFile_bypasses {event : FileEvent} (h : Consistent w) (hgone : Gone w path)
    (hclosed : w.documents.isOpen path = false) (habsent : host.Lacks path)
    (hreport : event ≠ ⟨path, .created⟩) :
    Bypasses asked host path w (w.noticeFile host event).2 ∨
      ∃ id, (w.noticeFile host event).2 = w.modifyProject id Project.outdate := by
  obtain ⟨file, change⟩ := event
  unfold noticeFile
  simp only
  split
  · exact manifestEvent_bypasses h hclosed file change
  · left
    cases change with
    | created =>
      have hfile : path ≠ file := fun heq => hreport (by rw [heq])
      exact (fileCreated_ignores hclosed hfile).bypasses (fileCreated_moves w file)
    | modified => exact fileModified_bypasses habsent file
    | deleted =>
      by_cases hfile : path = file
      · subst hfile
        exact (fileDeleted_ignores_of_gone hgone).bypasses (fileDeleted_moves w path)
      · exact (fileDeleted_ignores w hfile).bypasses (fileDeleted_moves w file)

/-- An action deals with open documents and other paths, or only has a manifest read again later. -/
theorem act_bypasses (h : Consistent w) (hgone : Gone w path)
    (hclosed : w.documents.isOpen path = false)
    (hstill : (w.act host action).documents.isOpen path = false) (habsent : host.Lacks path)
    (hreport : action ≠ .notice ⟨path, .created⟩) :
    (∃ asked, Bypasses asked host path w (w.act host action)) ∨
      ∃ id, w.act host action = w.modifyProject id Project.outdate := by
  cases action with
  | openFile file content => exact .inl ⟨none, openFile_bypasses_of_closed h hclosed hstill⟩
  | closeFile file => exact .inl ⟨none, closeFile_bypasses hclosed file⟩
  | editFile file change version => exact .inl ⟨none, editFile_bypasses hclosed file change version⟩
  | notice event =>
    exact (noticeFile_bypasses h hgone hclosed habsent fun heq => hreport (by rw [heq])).imp_left
      fun hbypasses => ⟨none, hbypasses⟩
  | refresh id => exact .inl ⟨none, refresh_bypasses hclosed id⟩
  | refreshAll =>
    have hinquiries : Inquiries none host w (w.refreshAll host).2 :=
      refreshEach_inquiries none host w _
    exact .inl ⟨none, hinquiries.bypasses h hclosed⟩
  | filesOf id => exact .inl ⟨none, (filesOf_inquiries none host w id).bypasses h hclosed⟩
  | providerFor file => exact .inl ⟨some file, providerFor_bypasses h host file⟩
  | request service request =>
    exact .inl ((serve_serves service host w request).bypasses h hclosed hstill)

/-- **An action leaves a path that is gone as it is, unless it reads a manifest that names it.** -/
theorem act_gone_iff (h : Consistent w) (hgone : Gone w path)
    (hclosed : w.documents.isOpen path = false)
    (hstill : (w.act host action).documents.isOpen path = false) (habsent : host.Lacks path)
    (hreport : action ≠ .notice ⟨path, .created⟩) :
    Gone (w.act host action) path ↔ ¬ Revives host w (w.act host action) path := by
  rcases act_bypasses h hgone hclosed hstill habsent hreport with ⟨asked, hbypasses⟩ | ⟨id, hlater⟩
  · exact (hbypasses.estranged h hgone habsent).gone_iff (hbypasses.consistent h)
  · rw [hlater]
    exact gone_outdate_iff h hgone id

/-- Where no listing shows the path, no manifest brings it back. -/
theorem not_revives_of_hides (habsent : host.Lacks path) (hhides : host.Hides path) :
    ¬ Revives host w w' path := by
  rintro ⟨x, p, -, -, manifest, hnamed, -⟩
  have hfile : host.hasFile path = true := Manifest.hasFile_of_mem_roots hhides hnamed
  rw [habsent.hasFile] at hfile
  cases hfile

/-- The report that a closed file was deleted leaves nothing of it. -/
theorem act_deleted_gone (h : Consistent w) (hclosed : w.documents.isOpen path = false)
    (hplain : Manifest.isNamed w.settings.manifestFileNames path = false) (host : Host) :
    Gone (w.act host (.notice ⟨path, .deleted⟩)) path := by
  have hact : w.act host (.notice ⟨path, .deleted⟩) = w.fileDeleted path := by
    unfold act noticeFile
    simp only [hplain, Bool.false_eq_true, if_false]
  rw [hact]
  have hmoves : Moves host w (w.fileDeleted path) := fileDeleted_moves w path
  exact gone_of_unowned (hmoves.consistent h) (get?_fileDeleted hclosed)
    (ownersOf_fileDeleted hclosed)

/-! ## Runs -/

/-- **A deleted file comes back only with a manifest.**  In a run a closed path that is no manifest
is reported to be deleted, so nothing is left of it.  From then on it is not open, the host does not
have the file, and it is not reported to be created.  Then nothing is left of it at all times if and
only if no action reads a manifest that names it, for a project that starts or whose manifest was to
be read again; and so it is if no listing of the host ever shows the path as a file. -/
theorem deleted_file_stays_gone_iff (settings : Settings) (before after : List (Host × Action))
    (host : Host) (path : Path) (hplain : Manifest.isNamed settings.manifestFileNames path = false)
    (hclosed : (run settings before).documents.isOpen path = false)
    (hstill : ∀ pre, pre <+: after → (run settings
      (before ++ (host, .notice ⟨path, .deleted⟩) :: pre)).documents.isOpen path = false)
    (habsent : ∀ step ∈ after, step.1.Lacks path ∧ step.2 ≠ .notice ⟨path, .created⟩) :
    let state := fun pre => run settings (before ++ (host, .notice ⟨path, .deleted⟩) :: pre)
    Gone (state []) path ∧
    ((∀ pre, pre <+: after → Gone (state pre) path) ↔
      ∀ pre host action, pre ++ [(host, action)] <+: after →
        ¬ Revives host (state pre) (state (pre ++ [(host, action)])) path) ∧
    ((∀ step ∈ after, step.1.Hides path) → ∀ pre, pre <+: after → Gone (state pre) path) := by
  intro state
  have hstate : ∀ pre step, state (pre ++ [step]) = (state pre).act step.1 step.2 := by
    intro pre step
    have happend : before ++ (host, Action.notice ⟨path, .deleted⟩) :: (pre ++ [step]) =
        (before ++ (host, .notice ⟨path, .deleted⟩) :: pre) ++ [step] := by simp
    exact (congrArg (run settings) happend).trans (run_concat settings _ step)
  have hmem : ∀ {pre step}, pre ++ [step] <+: after → step ∈ after := fun hpre =>
    hpre.subset (List.mem_append_right _ (List.mem_singleton_self _))
  have hfirst : Gone (state []) path := by
    have hrun : state [] = (run settings before).act host (.notice ⟨path, .deleted⟩) :=
      run_concat settings before _
    rw [hrun]
    exact act_deleted_gone (run_consistent settings before) hclosed
      (by rw [run_settings]; exact hplain) host
  have hstep : ∀ pre host action, pre ++ [(host, action)] <+: after → Gone (state pre) path →
      (Gone (state (pre ++ [(host, action)])) path ↔
        ¬ Revives host (state pre) (state (pre ++ [(host, action)])) path) := by
    intro pre host action hpre hgone
    obtain ⟨hlacks, hreport⟩ := habsent _ (hmem hpre)
    have hnext := hstill _ hpre
    rw [show run settings _ = state (pre ++ [(host, action)]) from rfl, hstate] at hnext
    rw [hstate]
    exact act_gone_iff (run_consistent settings _) hgone
      (hstill pre ((List.prefix_append _ _).trans hpre)) hnext hlacks hreport
  have hall : (∀ pre host action, pre ++ [(host, action)] <+: after →
      ¬ Revives host (state pre) (state (pre ++ [(host, action)])) path) →
      ∀ pre, pre <+: after → Gone (state pre) path := by
    intro hnone pre
    induction pre using List.reverseRecOn with
    | nil => exact fun _ => hfirst
    | append_singleton pre step ih =>
      intro hpre
      exact (hstep pre step.1 step.2 hpre (ih ((List.prefix_append _ _).trans hpre))).2
        (hnone pre step.1 step.2 hpre)
  refine ⟨hfirst, ⟨fun hgone pre host action hpre => ?_, hall⟩, fun hhides => hall ?_⟩
  · exact (hstep pre host action hpre (hgone pre ((List.prefix_append _ _).trans hpre))).1
      (hgone _ hpre)
  · intro pre host action hpre
    exact not_revives_of_hides (habsent _ (hmem hpre)).1 (hhides _ (hmem hpre))

/-- The manifest names both files, the first of which refers to the second one. -/
def droppedFiles : Memory :=
  let place (text : String) : Path := (Path.mk .slash []).join text
  ((Memory.empty.addFile (place "p/tsconfig.json") "\x7b\"files\":[\"a.ts\",\"b.ts\"]\x7d").addFile
    (place "p/a.ts") "import './b'").addFile (place "p/b.ts") ""

def droppedFile : Path := (Path.mk .slash []).join "p/b.ts"

/-- The host after the second file was deleted. -/
def droppedHost : Host := unlistedHost (droppedFiles.removeFile droppedFile)

/-- The first file is opened. -/
def droppedBefore : List (Host × Action) :=
  [(unlistedHost droppedFiles, .request .echo ⟨1, "open", .obj [("file", .str "/p/a.ts")]⟩)]

/-- The manifest is read again, everything is built, and the second file is asked for. -/
def droppedAfter : List (Host × Action) :=
  [.notice ⟨(Path.mk .slash []).join "p/tsconfig.json", .modified⟩, .refreshAll,
    .providerFor droppedFile].map fun action => (droppedHost, action)

/-- A manifest that names the file and a file that refers to it do not bring it back. -/
theorem deleted_file_stays_gone_iff_dropped :
    let state := fun pre =>
      run .default (droppedBefore ++ (droppedHost, .notice ⟨droppedFile, .deleted⟩) :: pre)
    (run .default droppedBefore).rootKind droppedFile ⟨1⟩ = some .configured ∧
      (∀ pre, pre <+: droppedAfter → Gone (state pre) droppedFile) ∧
      ((state droppedAfter).project? ⟨1⟩).any (fun p =>
        p.isDirty = false ∧ p.manifest?.isSome = true ∧ p.roots.size = 1) = true := by
  intro state
  have hstate : (run .default droppedBefore).rootKind droppedFile ⟨1⟩ = some .configured ∧
      Manifest.isNamed Settings.default.manifestFileNames droppedFile = false ∧
      (run .default droppedBefore).documents.isOpen droppedFile = false ∧
      (∀ pre ∈ droppedAfter.inits, (state pre).documents.isOpen droppedFile = false) ∧
      droppedHost.hasFile droppedFile = false ∧
      ((state droppedAfter).project? ⟨1⟩).any (fun p =>
        p.isDirty = false ∧ p.manifest?.isSome = true ∧ p.roots.size = 1) = true := by
    decide +kernel
  obtain ⟨hroot, hplain, hclosed, hstill, hmissing, hbuilt⟩ := hstate
  have hlawful : droppedHost.Lawful := Memory.host_lawful (droppedFiles.removeFile droppedFile)
  have hlacks : droppedHost.Lacks droppedFile := hlawful.lacks hmissing
  have habsent : ∀ step ∈ droppedAfter,
      step.1.Lacks droppedFile ∧ step.2 ≠ .notice ⟨droppedFile, .created⟩ := by
    simp only [droppedAfter, List.map_cons, List.map_nil, List.forall_mem_cons]
    exact ⟨⟨hlacks, nofun⟩, ⟨hlacks, nofun⟩, ⟨hlacks, nofun⟩, nofun⟩
  obtain ⟨-, -, hgone⟩ := deleted_file_stays_gone_iff .default droppedBefore droppedAfter
    droppedHost droppedFile hplain hclosed
    (fun pre hpre => hstill pre ((List.mem_inits pre droppedAfter).2 hpre)) habsent
  refine ⟨hroot, hgone fun step hstep => ?_, hbuilt⟩
  obtain ⟨action, -, rfl⟩ := List.mem_map.1 hstep
  intro directory entries hlist
  cases hlist

/-! ### A listing that shows what is not there -/

/-- The name of the last file reads as a path of its own. -/
def shownFiles : Memory :=
  let place (text : String) : Path := (Path.mk .slash []).join text
  ((Memory.empty.addFile (place "a/m.ts") "").addFile (place "a/tsconfig.json")
    "\x7b\"files\":[\"m.ts\",\"c:x.ts\"]\x7d").addFile (place "a/c:x.ts") ""

/-- The path under which the last file is listed. -/
def shownPath : Path := (Path.mk .slash []).join "c:x.ts"

/-- The first file is opened, the last one is reported to be deleted, and the manifest is read
again. -/
def shownActions : List Action :=
  [.request .echo ⟨1, "open", .obj [("file", .str "/a/m.ts")]⟩, .notice ⟨shownPath, .deleted⟩,
    .notice ⟨(Path.mk .slash []).join "a/tsconfig.json", .modified⟩, .refreshAll]

/-- **A deleted file comes back.**  There is no file at the path, which has been reported to be
deleted and is neither open nor reported to be created, but the manifest names what is listed. -/
theorem deleted_file_returns :
    let host := shownFiles.host
    let steps := shownActions.map fun action => (host, action)
    host.Lacks shownPath ∧
      Manifest.isNamed Settings.default.manifestFileNames shownPath = false ∧
      (∀ pre ∈ steps.inits, (run .default pre).documents.isOpen shownPath = false) ∧
      (run .default (steps.take 2)).ownership.ownersOf shownPath = [] ∧
      (run .default steps).rootKind shownPath ⟨1⟩ = some .configured ∧
      (run .default steps).ownership.ownersOf shownPath = [⟨1⟩] ∧
      ((run .default steps).project? ⟨1⟩).any (fun p =>
        p.isDirty = false ∧ (p.files?.getD []).contains shownPath) = true ∧
      ¬ Gone (run .default steps) shownPath := by
  have hhost : shownFiles.host = shownFiles.unsorted :=
    Memory.host_eq_unsorted (by decide +kernel)
  have hmissing : shownFiles.host.hasFile shownPath = false := by decide +kernel
  have hstate :
      let steps := shownActions.map fun action => (shownFiles.unsorted, action)
      Manifest.isNamed Settings.default.manifestFileNames shownPath = false ∧
      (∀ pre ∈ steps.inits, (run .default pre).documents.isOpen shownPath = false) ∧
      (run .default (steps.take 2)).ownership.ownersOf shownPath = [] ∧
      (run .default steps).rootKind shownPath ⟨1⟩ = some .configured ∧
      (run .default steps).ownership.ownersOf shownPath = [⟨1⟩] ∧
      ((run .default steps).project? ⟨1⟩).any (fun p =>
        p.isDirty = false ∧ (p.files?.getD []).contains shownPath) = true := by
    decide +kernel
  intro host steps
  have hsteps : steps = shownActions.map fun action => (shownFiles.unsorted, action) := by
    rw [← hhost]
  rw [← hsteps] at hstate
  obtain ⟨hplain, hclosed, hgone, hroot, howners, hfile⟩ := hstate
  refine ⟨(Memory.host_lawful shownFiles).lacks hmissing, hplain, hclosed, hgone, hroot, howners,
    hfile, fun hnone => ?_⟩
  rw [hnone.unowned] at howners
  cases howners

end Workspace

end Codebase
