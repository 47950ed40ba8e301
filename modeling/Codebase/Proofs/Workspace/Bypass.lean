import Codebase.Proofs.Host.Report
import Codebase.Proofs.Workspace.Effect
import Codebase.Proofs.Workspace.Links
/-!
# Operations that deal with other paths

As long as a path is closed, every operation that deals with open documents and with other paths is
a chain of steps that each leave the links of the path alone, start one project, or build one:

* `Turn` — the three kinds of steps, and `Turn.comes`, where a project comes from that is there
  after one.
* `Bypasses` — a chain of them, each of which consists of elementary moves.
* `Bypasses.overlooks` — such a chain changes the links by starting and building only.
* `assign_bypasses`, `refresh_bypasses`, … — the operations one by one.
-/

namespace Codebase

/-- A project that has just started has not been built, and no auxiliary one starts for a path that
is missed. -/
structure Project.Fledgling (asked : Option Path) (host : Host) (settings : Settings) (path : Path)
    (next : Project) (linked missed : Prop) : Prop extends
    next.Arises asked host settings path linked where
  derived : next.derived = none
  known : next.kind = .auxiliary → next.hasRoot path = true → ¬ missed

namespace Workspace

variable {asked : Option Path} {host : Host} {w w' : Workspace} {id x : ProjectId} {path q : Path}

/-! ## Steps -/

/-- The path is neither tracked nor on the host. -/
structure Misses (w : Workspace) (host : Host) (path : Path) : Prop where
  untracked : w.documents.get? path = none
  absent : host.Lacks path

/-- No move makes a path known that is not on the host. -/
theorem Moves.misses (h : Moves host w w') (hw : w.Misses host path) : w'.Misses host path := by
  induction h with
  | refl => exact hw
  | tail _ hlast ih =>
    refine ⟨?_, hw.absent⟩
    rcases hlast.document path with hsame | ⟨hnone, -⟩ | ⟨-, text, hread, -⟩
    · exact hsame.trans ih.untracked
    · exact hnone
    · exact absurd hread (hw.absent.read text)

/-- The links of the path stay, or one project starts, or one is built. -/
inductive Turn (asked : Option Path) (host : Host) (path : Path) (w : Workspace) :
    Workspace → Prop
  | ignoring {w' : Workspace} (ignored : Ignores path w w') : Turn asked host path w w'
  | starting {w' : Workspace} (frame : Frame ⟨w.lastNumber + 1⟩ w w')
      (fledgling : ∀ p', w'.project? ⟨w.lastNumber + 1⟩ = some p' →
        p'.Fledgling asked host w.settings path
          (path ∈ w'.ownership.membersOf ⟨w.lastNumber + 1⟩) (w.Misses host path)) :
      Turn asked host path w w'
  | building {project rebuilt : Project} {build : Build} (id : ProjectId)
      (live : w.project? id = some project)
      (built : project.refresh? (w.context host) = some (rebuilt, build)) :
      Turn asked host path w (w.record id rebuilt build)

/-- A step of an operation that deals with open documents and other paths. -/
structure Bypass (asked : Option Path) (host : Host) (path : Path) (w w' : Workspace) : Prop where
  reach : ∃ documents, documents.get? path = w.documents.get? path ∧
    Moves host { w with documents } w'
  turn : Turn asked host path w w'

/-- A chain of such steps. -/
abbrev Bypasses (asked : Option Path) (host : Host) (path : Path) :
    Workspace → Workspace → Prop :=
  Relation.ReflTransGen (Bypass asked host path)

theorem Turn.bypasses (h : Turn asked host path w w') (hmoves : Moves host w w') :
    Bypasses asked host path w w' :=
  .single ⟨⟨w.documents, rfl, hmoves⟩, h⟩

theorem Ignores.bypasses (h : Ignores path w w') (hmoves : Moves host w w') :
    Bypasses asked host path w w' :=
  (Turn.ignoring h).bypasses hmoves

theorem Bypass.consistent (h : Bypass asked host path w w') (hw : Consistent w) :
    Consistent w' := by
  obtain ⟨documents, -, hmoves⟩ := h.reach
  exact hmoves.consistent (hw.documents documents)

theorem Bypass.misses (h : Bypass asked host path w w') (hw : w.Misses host path) :
    w'.Misses host path := by
  obtain ⟨documents, hsame, hmoves⟩ := h.reach
  exact hmoves.misses ⟨hsame.trans hw.untracked, hw.absent⟩

theorem mem_members_record {rebuilt : Project} {build : Build} :
    path ∈ (w.record id rebuilt build).ownership.membersOf id ↔ path ∈ rebuilt.members := by
  refine Ownership.mem_membersOf_replaceMembers.trans ?_
  rw [if_pos rfl]

/-- Where a project comes from that is there after a step. -/
theorem Turn.comes {p' : Project} (h : Turn asked host path w w') (hp' : w'.project? x = some p') :
    (∃ p, w.project? x = some p ∧ p.Resembles path p' ∧
      (path ∈ w'.ownership.membersOf x ↔ path ∈ w.ownership.membersOf x)) ∨
    (x = ⟨w.lastNumber + 1⟩ ∧ p'.Fledgling asked host w.settings path
      (path ∈ w'.ownership.membersOf x) (w.Misses host path)) ∨
    ∃ p build, w.project? x = some p ∧ p.refresh? (w.context host) = some (p', build) ∧
      (path ∈ w'.ownership.membersOf x ↔ path ∈ p'.members) := by
  have hkept : ∀ id, Frame id w w' → x ≠ id → ∃ p, w.project? x = some p ∧
      p.Resembles path p' ∧
      (path ∈ w'.ownership.membersOf x ↔ path ∈ w.ownership.membersOf x) := fun id hframe hx =>
    ⟨p', (hframe.project x hx).symm.trans hp', p'.resembles_refl path, hframe.members x path hx⟩
  cases h with
  | ignoring hignored =>
    obtain ⟨p, hp, hresembles⟩ := hignored.project x p' hp'
    exact .inl ⟨p, hp, hresembles, hignored.members x p' hp'⟩
  | starting hframe hfledgling =>
    by_cases hx : x = ⟨w.lastNumber + 1⟩
    · subst hx
      exact .inr (.inl ⟨rfl, hfledgling p' hp'⟩)
    · exact .inl (hkept _ hframe hx)
  | @building project rebuilt build id hlive hbuilt =>
    by_cases hx : x = id
    · subst hx
      rw [project?_record_self hlive] at hp'
      cases hp'
      exact .inr (.inr ⟨project, build, hlive, hbuilt, mem_members_record⟩)
    · exact .inl (hkept _ (frame_record w id rebuilt build) hx)

theorem Turn.settings (h : Turn asked host path w w') : w'.settings = w.settings := by
  cases h with
  | ignoring hignored => exact hignored.settings
  | starting hframe _ => exact hframe.settings
  | building id _ _ => exact (frame_record w id _ _).settings

theorem Turn.lastNumber (h : Turn asked host path w w') : w.lastNumber ≤ w'.lastNumber := by
  cases h with
  | ignoring hignored => exact hignored.lastNumber
  | starting hframe _ => exact hframe.lastNumber
  | building id _ _ => exact (frame_record w id _ _).lastNumber

theorem Turn.overlooks (h : Turn asked host path w w') (hw : Consistent w) :
    Overlooks asked host path w w' := by
  refine ⟨h.settings, h.lastNumber, fun x p p' hp hp' => ?_, fun x p' hnone hp' => ?_⟩
  · rcases h.comes hp' with ⟨_, hsame, hresembles, hlinked⟩ | ⟨rfl, -⟩ |
      ⟨_, build, hsame, hbuilt, hlinked⟩
    · cases hp.symm.trans hsame
      exact hresembles.succeeds hlinked
    · rw [hw.fresh] at hp
      cases hp
    · cases hp.symm.trans hsame
      exact Project.refresh?_succeeds hbuilt hlinked
  · rcases h.comes hp' with ⟨_, hsame, -⟩ | ⟨rfl, hfledgling⟩ | ⟨_, _, hsame, -⟩
    · cases hnone.symm.trans hsame
    · exact ⟨Nat.lt_succ_self _, hfledgling.toArises⟩
    · cases hnone.symm.trans hsame

theorem Bypasses.consistent (h : Bypasses asked host path w w') (hw : Consistent w) :
    Consistent w' := by
  induction h with
  | refl => exact hw
  | tail _ hlast ih => exact hlast.consistent ih

/-- **A chain of such steps changes the links of the path by starting and building only.** -/
theorem Bypasses.overlooks (h : Bypasses asked host path w w') (hw : Consistent w) :
    Overlooks asked host path w w' := by
  induction h with
  | refl => exact overlooks_refl w
  | tail hfirst hlast ih =>
    have hbetween := Bypasses.consistent hfirst hw
    exact ih.trans (hlast.turn.overlooks hbetween) hw (hlast.consistent hbetween)

/-! ## Starting -/

theorem not_mem_members_fresh (h : Consistent w) :
    path ∉ w.ownership.membersOf ⟨w.lastNumber + 1⟩ := by
  rw [Ownership.membersOf_eq_nil (h.members_of_none h.fresh)]
  exact List.not_mem_nil

/-- A project starts that has neither roots nor a manifest. -/
theorem addProject_bypasses (h : Consistent w) {origin : ProjectOrigin} {capability : Capability}
    (hkind : ∀ id, (Project.new id origin capability).kind ≠ .auxiliary)
    (hmanifest : ∀ id, (Project.new id origin capability).manifest? = none) :
    Bypasses asked host path w (w.addProject fun id => .new id origin capability).2 := by
  have howned : origin ≠ .auxiliary := fun heq => hkind ⟨0⟩ (by rw [heq]; rfl)
  refine (Turn.starting (frame_addProject w _) fun p' hp' => ?_).bypasses
    (Move.start w origin capability howned).moves
  rw [project?_addProject, if_pos rfl] at hp'
  cases hp'
  refine ⟨⟨rfl, iff_of_false (not_mem_members_fresh h) nofun, fun _ => ?_,
    fun haux => absurd haux (hkind _)⟩, rfl, fun haux => absurd haux (hkind _)⟩
  rw [hmanifest]
  exact iff_of_false nofun nofun

/-- A live project gets roots, and is linked to them. -/
theorem endow_spec {p : Project} (path : Path) (roots : List Path)
    (hp : w.project? id = some p) :
    ∃ p', (roots.foldl (fun w root => w.addRoot id root) w).project? id = some p' ∧
      p'.origin = p.origin ∧ p'.isStale = p.isStale ∧ p'.derived = p.derived ∧
      (p'.hasRoot path = true ↔ p.hasRoot path = true ∨ path ∈ roots) ∧
      (path ∈ (roots.foldl (fun w root => w.addRoot id root) w).ownership.membersOf id ↔
        path ∈ w.ownership.membersOf id ∨ path ∈ roots) := by
  induction roots generalizing w p with
  | nil =>
    have hnone : path ∉ ([] : List Path) := List.not_mem_nil
    exact ⟨p, hp, rfl, rfl, rfl, (or_iff_left hnone).symm, (or_iff_left hnone).symm⟩
  | cons root rest ih =>
    have hlive : w.projects.contains id = true := Table.contains_eq_true.2 ⟨p, hp⟩
    have hadded : (w.addRoot id root).project? id = some (p.addRoot root) := by
      rw [project?_addRoot, if_pos rfl, hp]
      rfl
    have hlinked : path ∈ (w.addRoot id root).ownership.membersOf id ↔
        path ∈ w.ownership.membersOf id ∨ path = root := by
      unfold Workspace.addRoot
      rw [if_pos hlive]
      exact Ownership.mem_membersOf_add.trans (or_congr_right (and_iff_right rfl))
    obtain ⟨p', hp', horigin, hstale, hderived, hroot, hmembers⟩ := ih hadded
    rw [List.foldl_cons]
    refine ⟨p', hp', horigin, hstale, hderived, ?_, ?_⟩
    · rw [hroot, Project.hasRoot_addRoot, or_assoc, List.mem_cons]
    · rw [hmembers, hlinked, or_assoc, List.mem_cons]

/-- A configured project has started with the roots that its manifest names. -/
theorem endowed_turn {p : Project} {manifest : Manifest} {roots : List Path}
    (hframe : Frame ⟨w.lastNumber + 1⟩ w w')
    (hlive : w'.project? ⟨w.lastNumber + 1⟩ = some p)
    (hnew : p = .configured ⟨w.lastNumber + 1⟩ manifest w.settings.capability)
    (hunlinked : path ∉ w'.ownership.membersOf ⟨w.lastNumber + 1⟩)
    (hnamed : manifest.roots host w.settings.manifestFileNames w.extensions = roots) :
    Turn asked host path w
      (roots.foldl (fun next root => next.addRoot ⟨w.lastNumber + 1⟩ root) w') := by
  refine .starting (hframe.trans (frame_addRoots w' _ roots)) fun p' hp' => ?_
  obtain ⟨next, hnext, horigin, hstale, hderived, hroot, hmembers⟩ := endow_spec path roots hlive
  obtain rfl : next = p' := Option.some.inj (hnext.symm.trans hp')
  rw [hnew] at horigin hstale hderived hroot
  have hmanifest : next.manifest? = some manifest := by
    unfold Project.manifest?
    rw [horigin]
    rfl
  have hkind : next.kind ≠ .auxiliary := by
    unfold Project.kind
    rw [horigin]
    exact nofun
  have hroot' : next.hasRoot path = true ↔ path ∈ roots := hroot.trans (or_iff_right nofun)
  refine ⟨⟨hstale, ?_, fun _ => ?_, fun haux => absurd haux hkind⟩, hderived,
    fun haux => absurd haux hkind⟩
  · rw [hmembers, Project.contains_iff, hroot', hderived]
    refine (or_iff_right hunlinked).trans (or_iff_left ?_).symm
    rintro ⟨_, hnone, -⟩
    cases hnone
  · rw [hroot', ← hnamed, hmanifest]
    exact ⟨fun hpath => ⟨manifest, rfl, hpath⟩, fun ⟨_, heq, hpath⟩ => by cases heq; exact hpath⟩

theorem startConfigured_bypasses (h : Consistent w) (manifest : Manifest)
    (hclosed : w.documents.isOpen path = false) :
    Bypasses asked host path w (w.startConfigured host manifest).2 := by
  have hstart : Move host w
      (w.addProject fun id => .configured id manifest w.settings.capability).2 :=
    .start w (.configured manifest.path (.loaded manifest)) _ nofun
  have hframe := frame_addProject w fun id => .configured id manifest w.settings.capability
  have hlive : (w.addProject fun id => .configured id manifest w.settings.capability).2.project?
      ⟨w.lastNumber + 1⟩ = some (.configured ⟨w.lastNumber + 1⟩ manifest w.settings.capability) :=
    (project?_addProject _ _ _).trans (if_pos rfl)
  have hunlinked : path ∉ (w.addProject fun id => .configured id manifest
      w.settings.capability).2.ownership.membersOf ⟨w.lastNumber + 1⟩ := not_mem_members_fresh h
  have hid : (w.addProject fun id => .configured id manifest w.settings.capability).1 =
      ⟨w.lastNumber + 1⟩ := rfl
  unfold startConfigured
  simp only [hid]
  generalize (w.addProject fun id => .configured id manifest w.settings.capability).2 = started at *
  generalize hnamed : manifest.roots host w.settings.manifestFileNames w.extensions = roots
  have hmoves : Moves host w _ :=
    hstart.moves.trans (addRoots_moves started ⟨w.lastNumber + 1⟩ roots)
  exact ((endowed_turn hframe hlive rfl hunlinked hnamed).bypasses hmoves).trans
    ((takeOverOpenRoots_ignores _ ((hmoves.isOpen path).trans hclosed)).bypasses
      (takeOverOpenRoots_moves _ _))

/-! ### Assignment -/

theorem inferredFor_bypasses (h : Consistent w) : Bypasses asked host path w w.inferredFor.2 := by
  have hstarted : Bypasses asked host path w w.startInferred.2 :=
    addProject_bypasses h (fun _ => nofun) fun _ => rfl
  unfold inferredFor
  split
  · split
    · exact .refl
    · exact hstarted
  · exact hstarted

theorem configuredFor_bypasses {found : ProjectId × Workspace} (h : Consistent w)
    (hclosed : w.documents.isOpen path = false) (hfound : w.configuredFor host q = some found) :
    Bypasses asked host path w found.2 := by
  unfold configuredFor at hfound
  split at hfound
  · cases hfound
  · split at hfound
    · cases hfound
    · cases hfound
      exact .refl
    · cases hfound
      exact startConfigured_bypasses h _ hclosed
    · cases hfound
      exact addProject_bypasses h (fun _ => nofun) fun _ => rfl

/-- Another path is assigned. -/
theorem assign_bypasses (h : Consistent w) (hclosed : w.documents.isOpen path = false)
    (hq : path ≠ q) : Bypasses asked host path w (w.assign host q).2 := by
  unfold assign
  refine .trans ?_ ((addRoot_ignores _ _ hq).bypasses (Move.addRoot _ _ q).moves)
  cases hfound : w.configuredFor host q with
  | none => exact inferredFor_bypasses h
  | some found => exact configuredFor_bypasses h hclosed hfound

/-- Open documents are assigned again, whatever becomes of each before that. -/
theorem foldl_assign_bypasses {before : Workspace → Path → Workspace} {paths : List Path}
    (hbefore : ∀ w q, path ≠ q → Ignores path w (before w q))
    (hmoves : ∀ w q, Moves host w (before w q)) (h : Consistent w)
    (hclosed : w.documents.isOpen path = false)
    (hpaths : ∀ q ∈ paths, w.documents.isOpen q = true) :
    Bypasses asked host path w
      (paths.foldl (fun w q => ((before w q).assign host q).2) w) := by
  induction paths generalizing w with
  | nil => exact .refl
  | cons q rest ih =>
    rw [List.forall_mem_cons] at hpaths
    obtain ⟨hopen, hrest⟩ := hpaths
    have hq := ne_of_isOpen hclosed hopen
    have hassigned : Moves host w ((before w q).assign host q).2 :=
      (hmoves w q).trans (assign_moves _ q)
    have hstep : Bypasses asked host path w ((before w q).assign host q).2 :=
      ((hbefore w q hq).bypasses (hmoves w q)).trans
        (assign_bypasses ((hmoves w q).consistent h) (((hmoves w q).isOpen path).trans hclosed) hq)
    exact hstep.trans (ih (hassigned.consistent h) ((hassigned.isOpen path).trans hclosed)
      fun r hr => (hassigned.isOpen r).trans (hrest r hr))

/-! ## Building and serving -/

theorem refresh_bypasses (hclosed : w.documents.isOpen path = false) (id : ProjectId) :
    Bypasses asked host path w (w.refresh host id).2 := by
  rw [refresh_eq]
  split
  · exact .refl
  · rename_i project hlive
    split
    · exact .refl
    · rename_i rebuilt build hbuilt
      have hmoves : Moves host w (w.record id rebuilt build) :=
        (Move.rebuild w id project rebuilt build hlive hbuilt).moves
      have hrecord : Bypasses asked host path w (w.record id rebuilt build) :=
        (Turn.building id hlive hbuilt).bypasses hmoves
      simp only
      split
      · exact hrecord.trans
          ((takeOverOpenRoots_ignores id ((hmoves.isOpen path).trans hclosed)).bypasses
            (takeOverOpenRoots_moves _ id))
      · exact hrecord

/-- A path is asked about, and may get a project that serves it. -/
theorem providerFor_bypasses (h : Consistent w) (host : Host) (q : Path) :
    Bypasses (some q) host path w (w.providerFor host q).2 := by
  have hmoves := providerFor_moves host w q
  rcases providerFor_eq host w q with hsame | ⟨documents, -, hknown, hadded⟩
  · rw [hsame]
  · rw [hadded] at hmoves ⊢
    refine (Turn.starting (frame_addStandIn w documents q) fun p' hp' => ?_).bypasses hmoves
    have hnew : ({ w with documents }.addStandIn q).2.project? ⟨w.lastNumber + 1⟩ = _ :=
      (project?_addStandIn _ q _).trans (if_pos rfl)
    rw [hnew] at hp'
    cases hp'
    have hlinked : path ∈ ({ w with documents }.addStandIn q).2.ownership.membersOf
        ⟨w.lastNumber + 1⟩ ↔ path = q :=
      (Ownership.mem_membersOf_add.trans (or_iff_right (not_mem_members_fresh h))).trans
        (and_iff_right rfl)
    have hroot : ∀ id, (Project.auxiliary id q).hasRoot path = true → path = q := fun id hroot =>
      List.mem_singleton.1 (Project.hasRoot_iff.1 hroot)
    refine ⟨⟨rfl, ?_, fun hkind => absurd rfl hkind, fun _ => nofun⟩, rfl,
      fun _ hself hmisses => ?_⟩
    · rw [hlinked, Project.contains_iff]
      refine (or_iff_left ?_).symm.trans (or_congr_left ?_)
      · rintro ⟨_, hderived, -⟩
        cases hderived
      · exact ⟨fun heq => Project.hasRoot_iff.2 (List.mem_singleton.2 heq), hroot _⟩
    · -- who serves a path has found its text
      obtain rfl := hroot _ hself
      rcases hknown with ⟨htracked, -⟩ | ⟨text, hread, -⟩
      · have hunknown : w.documents.contains path = false :=
          Table.contains_eq_false.2 hmisses.untracked
        rw [hunknown] at htracked
        cases htracked
      · exact hmisses.absent.read text hread

theorem Inquiry.bypasses {asked : Option Path} (hinquiry : Inquiry asked host w w')
    (h : Consistent w) (hclosed : w.documents.isOpen path = false) :
    Bypasses asked host path w w' := by
  cases hinquiry with
  | refresh id => exact refresh_bypasses hclosed id
  | provide q named =>
    rw [named]
    exact providerFor_bypasses h host q

theorem Inquiries.bypasses {asked : Option Path} (hinquiries : Inquiries asked host w w')
    (h : Consistent w) (hclosed : w.documents.isOpen path = false) :
    Bypasses asked host path w w' := by
  induction hinquiries with
  | refl => exact .refl
  | tail hfirst hlast ih =>
    have hmoves := Inquiries.moves hfirst
    exact ih.trans
      (hlast.bypasses (hmoves.consistent h) ((hmoves.isOpen path).trans hclosed))

/-! ## Events -/

/-- Another path is opened. -/
theorem openFile_bypasses (h : Consistent w) (hclosed : w.documents.isOpen path = false)
    (hq : path ≠ q) (content : String) :
    Bypasses asked host path w (w.openFile host q content).2 := by
  have hopens := openFile_opens host w q content
  generalize w.openFile host q content = answer at hopens ⊢
  have hopening : ∀ {opened documents}, w.documents.open q content = .ok (opened, documents) →
      Bypasses asked host path w (w.opening q opened documents) := fun {opened documents} hopened =>
    .single ⟨⟨documents, (Documents.of_open hopened).1 path hq, opening_moves w q opened documents⟩,
      .ignoring (opening_ignores w q opened documents)⟩
  cases hopens with
  | refused e => exact .refl
  | @held opened documents id hopened _ =>
    exact (hopening hopened).trans ((modifyProject_ignores _ id fun p =>
      p.touch_resembles path).bypasses (Move.touch _ id).moves)
  | @assigned opened documents hopened _ =>
    have hmoves : Moves host { w with documents } (w.opening q opened documents) :=
      opening_moves w q opened documents
    have hclosed' : (w.opening q opened documents).documents.isOpen path = false := by
      rw [hmoves.isOpen, ← hclosed]
      exact Documents.isOpen_congr ((Documents.of_open hopened).1 path hq)
    exact (hopening hopened).trans
      (assign_bypasses (hmoves.consistent (h.documents documents)) hclosed' hq)

/-- A file is opened, and the path is closed still. -/
theorem openFile_bypasses_of_closed (h : Consistent w) {file : Path} {content : String}
    (hclosed : w.documents.isOpen path = false)
    (hstill : (w.openFile host file content).2.documents.isOpen path = false) :
    Bypasses asked host path w (w.openFile host file content).2 := by
  by_cases hfile : path = file
  · subst hfile
    have hopens := openFile_opens host w path content
    have hopened : ∀ {opened documents next},
        w.documents.open path content = .ok (opened, documents) →
        Moves host (w.opening path opened documents) next →
        next.documents.isOpen path = true := by
      intro opened documents next hopen hmoves
      have hall : Moves host { w with documents } next :=
        (opening_moves w path opened documents).trans hmoves
      exact (hall.isOpen path).trans (Documents.of_open hopen).2.1
    generalize w.openFile host path content = answer at hopens hstill ⊢
    cases hopens with
    | refused e => exact .refl
    | held hopen _ =>
      rw [hopened hopen (Move.touch _ _).moves] at hstill
      cases hstill
    | assigned hopen _ =>
      rw [hopened hopen (assign_moves _ path)] at hstill
      cases hstill
  · exact openFile_bypasses h hclosed hfile content

/-- A file is opened, its project is built, and the path is closed still. -/
theorem openFile_refresh_bypasses {file : Path} {content : String} (h : Consistent w)
    (hclosed : w.documents.isOpen path = false)
    (hopen : w.openFile host file content = (.ok id, w'))
    (hstill : (w'.refresh host id).2.documents.isOpen path = false) :
    Bypasses asked host path w (w'.refresh host id).2 := by
  have hbefore : w'.documents.isOpen path = false :=
    ((refresh_moves host w' id).isOpen path).symm.trans hstill
  have hopened : Bypasses asked host path w (w.openFile host file content).2 :=
    openFile_bypasses_of_closed h hclosed (by rw [hopen]; exact hbefore)
  rw [hopen] at hopened
  exact hopened.trans (refresh_bypasses hbefore id)

/-- A file is closed that was open. -/
theorem closeFile_bypasses (hclosed : w.documents.isOpen path = false) (file : Path) :
    Bypasses asked host path w (w.closeFile file).2 := by
  cases hclose : w.documents.close file with
  | error e =>
    unfold closeFile
    rw [hclose]
  | ok documents =>
    obtain ⟨hothers, hopen, -⟩ := Documents.of_close hclose
    have hfile : path ≠ file := ne_of_isOpen hclosed hopen
    exact .single ⟨⟨documents, hothers path hfile, closeFile_moves hclose⟩,
      .ignoring (closeFile_ignores w hfile)⟩

/-- What is edited is open. -/
theorem editFile_bypasses (hclosed : w.documents.isOpen path = false) (file : Path)
    (change : TextChange) (version : Nat) :
    Bypasses asked host path w (w.editFile file change version).2 := by
  have hignored : Ignores path w (w.editFile file change version).2 :=
    editFile_ignores w file change version
  unfold editFile at hignored ⊢
  split at hignored
  · exact .refl
  · rename_i documents hedit
    obtain ⟨hothers, hopen, -⟩ := Documents.of_edit hedit
    exact .single ⟨⟨documents, hothers path (ne_of_isOpen hclosed hopen),
      touchOwners_moves _ file⟩, .ignoring hignored⟩

/-- What is read again is on the host. -/
theorem fileModified_bypasses (habsent : host.Lacks path) (file : Path) :
    Bypasses asked host path w (w.fileModified host file).2 := by
  have hignored : Ignores path w (w.fileModified host file).2 := fileModified_ignores host w file
  rcases fileModified_eq host w file with hsame | ⟨text, changed, documents, hread, hnew, hnext⟩
  · rw [hsame]
  · have hfile : path ≠ file := by
      rintro rfl
      exact habsent.read text hread
    have hmoves : Moves host { w with documents } (w.fileModified host file).2 := by
      rw [hnext]
      split
      · exact touchOwners_moves _ file
      · exact .refl
    exact .single ⟨⟨documents, (Documents.of_refresh hnew).1 path hfile, hmoves⟩,
      .ignoring hignored⟩

theorem manifestDeleted_bypasses (h : Consistent w) (hclosed : w.documents.isOpen path = false)
    (id : ProjectId) : Bypasses asked host path w (w.manifestDeleted host id) := by
  have hmoves : Moves host w (w.removeProject id) := (Move.retire w id).moves
  have hreassigned : ∀ paths : List Path, (∀ q ∈ paths, w.documents.isOpen q = true) →
      Bypasses asked host path w ((w.removeProject id).reassign host paths) := by
    intro paths hpaths
    have hassigned : Bypasses asked host path (w.removeProject id)
        ((w.removeProject id).reassign host paths) :=
      foldl_assign_bypasses (fun w _ _ => ignores_refl w) (fun _ _ => .refl)
        (hmoves.consistent h) ((hmoves.isOpen path).trans hclosed) fun q hq =>
        (hmoves.isOpen q).trans (hpaths q hq)
    exact ((removeProject_ignores w id).bypasses hmoves).trans hassigned
  unfold manifestDeleted
  refine hreassigned _ fun q hq => ?_
  split at hq
  · exact (List.mem_filter.1 hq).2
  · cases hq

theorem manifestAppeared_bypasses (h : Consistent w)
    (hclosed : w.documents.isOpen path = false) (directory : Path) :
    Bypasses asked host path w (w.manifestAppeared host directory) :=
  foldl_assign_bypasses (fun w _ hq => unroot_ignores w none hq)
    (fun w q => unroot_moves w q none) h hclosed fun _ hp =>
      isOpen_of_mem_openPaths (List.mem_filter.1 hp).1

/-- A request is served, and the path is closed still. -/
theorem Serves.bypasses {request : Request} (hserves : Serves host w request w')
    (h : Consistent w) (hclosed : w.documents.isOpen path = false)
    (hstill : w'.documents.isOpen path = false) :
    ∃ asked, Bypasses asked host path w w' := by
  cases hserves with
  | opening file content _ hopen =>
    exact ⟨none, openFile_refresh_bypasses h hclosed hopen hstill⟩
  | closing file _ => exact ⟨none, closeFile_bypasses hclosed file⟩
  | editing file change version => exact ⟨none, editFile_bypasses hclosed file change version⟩
  | asking hasked => exact ⟨_, hasked.bypasses h hclosed⟩

end Workspace

end Codebase
