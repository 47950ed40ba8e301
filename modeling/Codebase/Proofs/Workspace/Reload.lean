import Codebase.Proofs.Workspace.Capability
import Codebase.Proofs.Workspace.Lifecycle
/-!
# Reading a manifest again

A project whose manifest is reported to be modified reads it before its next build.  It does not
open the file that it knows, but looks up the manifest of the directory, and goes on without one if
the lookup comes upon another file.  So what it reads is its own manifest only as long as that is
the foremost one:

* `Project.Sited` — the manifest of a project lies in a directory, under a manifest name.
* `Manifest.Hindered` — why a manifest is not loaded, and the reason that is told for it.
* `Project.origin_reread` — what reading a manifest again makes of the origin of a project.
* `Project.reloaded_of_refresh?` — and what it makes of the project, when it is rebuilt.
* `reload_follows_foremost_manifest` — what becomes of a project that is told of its manifest.
-/

namespace Codebase

/-- Why the manifest at `path` is not loaded, and the reason that its project tells. -/
inductive Manifest.Hindered (host : Host) (names : List String) (path : Path) : String → Prop
  /-- The foremost manifest of the directory, this one or another, cannot be loaded. -/
  | broken {other : Path} {e : Error} (foremost : Foremost host names other)
      (beside : other.parent? = path.parent?) (failed : load host other = .error e) :
      Hindered host names path e.message
  /-- The directory has no manifest, or the foremost one is another that can be loaded. -/
  | unavailable (others : ∀ other, Foremost host names other → other.parent? = path.parent? →
      other ≠ path ∧ ∃ manifest, load host other = .ok manifest) :
      Hindered host names path (path.text ++ " is no longer available")

/-- What hinders a manifest excludes that it is the foremost one and can be loaded. -/
theorem Manifest.Hindered.not_loaded {host : Host} {names : List String} {path : Path}
    {reason : String} {manifest : Manifest} (hplain : ∀ name ∈ names, Segment.Plain name)
    (h : Hindered host names path reason) (hforemost : Foremost host names path)
    (hload : load host path = .ok manifest) : False := by
  cases h with
  | broken hother hbeside hfailed =>
    rw [hforemost.unique hplain hother hbeside, hload] at hfailed
    cases hfailed
  | unavailable hothers => exact (hothers path hforemost rfl).1 rfl

namespace Project

variable {settings : Settings} {project rebuilt : Project} {ctx : Context} {build : Build}
  {m directory : Path}

/-- The manifest lies in a directory, under one of the manifest names. -/
def Sited (settings : Settings) (project : Project) : Prop :=
  ∀ m, project.charter = .configured m →
    m.fileName ∈ settings.manifestFileNames ∧ ∃ directory, m.parent? = some directory

/-- With plain names, a project starts for a manifest of that kind. -/
theorem inborn_sited (hplain : ∀ name ∈ settings.manifestFileNames, Segment.Plain name) :
    Inborn settings (Sited settings) := by
  have hcomes : ∀ {host directory path},
      (Manifest.lookup host settings.manifestFileNames directory).path? = some path →
        path.fileName ∈ settings.manifestFileNames ∧
          ∃ directory, path.parent? = some directory := by
    intro host directory path hfound
    obtain ⟨hparent, -, -, -, earlier, later, hnames, -⟩ :=
      (Manifest.path?_lookup_eq_some_iff hplain).1 hfound
    exact ⟨by rw [hnames]; simp, directory, hparent⟩
  exact {
    inferred := fun _ _ hcharter => by cases hcharter
    auxiliary := fun _ _ _ hcharter => by cases hcharter
    configured := fun host directory manifest _ hfound m hcharter => by
      cases hcharter
      exact hcomes (by rw [hfound]; rfl)
    unloadable := fun host directory manifestPath reason _ hfailed m hcharter => by
      cases hcharter
      exact hcomes (by rw [hfailed]; rfl)
    touch := fun _ h => h
    outdate := fun _ h => h
    addRoot := fun _ _ h => h
    removeRoot := fun _ _ h => h
    refresh? := fun _ hbuilt h m hcharter =>
      h m ((charter_of_refresh? hbuilt).symm.trans hcharter) }

/-- Reading a manifest again loads it if it is the foremost one and can be loaded, and leaves the
project with a reason otherwise. -/
theorem origin_reread (hplain : ∀ name ∈ ctx.settings.manifestFileNames, Segment.Plain name)
    (hpath : project.manifestPath? = some m) (hparent : m.parent? = some directory) :
    (∃ manifest, (project.reread ctx).origin = .configured m (.loaded manifest) ∧
      Manifest.Foremost ctx.host ctx.settings.manifestFileNames m ∧
      Manifest.load ctx.host m = .ok manifest) ∨
    ∃ reason, (project.reread ctx).origin = .configured m (.failed reason) ∧
      Manifest.Hindered ctx.host ctx.settings.manifestFileNames m reason := by
  have hdirectory : project.manifestDirectory? = some directory := by
    unfold manifestDirectory?
    rw [hpath]
    exact hparent
  unfold reread
  simp only
  split
  · rename_i path place hpath' hdirectory'
    obtain rfl : m = path := Option.some.inj (hpath.symm.trans hpath')
    obtain rfl : directory = place := Option.some.inj (hdirectory.symm.trans hdirectory')
    split
    · rename_i manifest hfound
      obtain ⟨hplace, hforemost, hload⟩ := Manifest.foremost_of_found hplain hfound
      split
      · rename_i hsame
        rw [hsame] at hforemost hload
        refine .inl ⟨manifest, ?_, hforemost, hload⟩
        rw [← hsame]
        rfl
      · -- the foremost manifest is another one, which stands between the project and its own
        rename_i hother
        refine .inr ⟨_, rfl, .unavailable fun other hotherForemost hbeside => ?_⟩
        obtain rfl := hforemost.unique hplain hotherForemost
          (hbeside.trans (hparent.trans hplace.symm))
        exact ⟨hother, manifest, hload⟩
    · rename_i hnone
      refine .inr ⟨_, rfl, .unavailable fun other hotherForemost hbeside => ?_⟩
      exact absurd hotherForemost
        (Manifest.not_foremost_of_notFound hplain hnone (hbeside.trans hparent))
    · rename_i other reason hfailed
      obtain ⟨hplace, hforemost, e, hload, rfl⟩ := Manifest.foremost_of_failed hplain hfailed
      exact .inr ⟨_, rfl, .broken hforemost (hplace.trans hparent.symm) hload⟩
  · rename_i hnothing
    exact absurd hdirectory (hnothing m directory hpath)

theorem origin_of_refresh? (hstale : project.isStale = true)
    (hbuilt : project.refresh? ctx = some (rebuilt, build)) :
    rebuilt.origin = (project.reread ctx).origin := by
  obtain ⟨-, -, rfl⟩ := eq_of_refresh? hbuilt
  rw [prepared_of_stale hstale]
  rfl

/-- A project tells its manifest and the reason why it has none by its origin. -/
theorem views_of_loaded {manifest : Manifest}
    (h : project.origin = .configured m (.loaded manifest)) :
    project.manifestPath? = some m ∧ project.manifest? = some manifest ∧
      project.manifestError? = none := by
  unfold manifestPath? manifest? manifestError?
  rw [h]
  exact ⟨rfl, rfl, rfl⟩

theorem views_of_failed {reason : String} (h : project.origin = .configured m (.failed reason)) :
    project.manifestPath? = some m ∧ project.manifest? = none ∧
      project.manifestError? = some (.configurationLoadFailure m.text reason) := by
  unfold manifestPath? manifest? manifestError?
  rw [h]
  exact ⟨rfl, rfl, rfl⟩

/-- What becomes of a project that reads its manifest again. -/
theorem reloaded_of_refresh? (h : project.Calibrated ctx.settings)
    (hplain : ∀ name ∈ ctx.settings.manifestFileNames, Segment.Plain name)
    (hpath : project.manifestPath? = some m) (hparent : m.parent? = some directory)
    (hstale : project.isStale = true) (hbuilt : project.refresh? ctx = some (rebuilt, build)) :
    rebuilt.manifestPath? = some m ∧
      (∀ manifest, rebuilt.manifest? = some manifest ↔
        Manifest.Foremost ctx.host ctx.settings.manifestFileNames m ∧
          Manifest.load ctx.host m = .ok manifest) ∧
      (∀ manifest, rebuilt.manifest? = some manifest → rebuilt.manifestError? = none ∧
        (rebuilt.capability = .syntacticOnly ↔
          ctx.settings.syntaxOnly = true ∨ manifest.options.syntaxOnly = true)) ∧
      (rebuilt.manifest? = none → rebuilt.capability = .syntacticOnly ∧ ∃ reason,
        rebuilt.manifestError? = some (.configurationLoadFailure m.text reason) ∧
          Manifest.Hindered ctx.host ctx.settings.manifestFileNames m reason) := by
  have hserved : rebuilt.Calibrated ctx.settings := h.refresh? hbuilt
  have horigin : rebuilt.origin = (project.reread ctx).origin := origin_of_refresh? hstale hbuilt
  rcases origin_reread hplain hpath hparent with
    ⟨manifest, hloaded, hforemost, hload⟩ | ⟨reason, hfailed, hhindered⟩
  · obtain ⟨hplace, hmanifest, herror⟩ := views_of_loaded (horigin.trans hloaded)
    refine ⟨hplace, fun other => ?_, fun other hother => ?_, ?_⟩
    · rw [hmanifest]
      constructor
      · rintro ⟨⟩
        exact ⟨hforemost, hload⟩
      · rintro ⟨-, hother⟩
        exact congrArg some (Except.ok.inj (hload.symm.trans hother))
    · exact ⟨herror, hserved.of_manifest? hother⟩
    · rw [hmanifest]
      exact nofun
  · obtain ⟨hplace, hnone, herror⟩ := views_of_failed (horigin.trans hfailed)
    refine ⟨hplace, fun other => ?_, fun other hother => ?_, fun _ => ?_⟩
    · rw [hnone]
      constructor
      · exact nofun
      · rintro ⟨hforemost, hload⟩
        exact (hhindered.not_loaded hplain hforemost hload).elim
    · rw [hnone] at hother
      cases hother
    · exact ⟨hserved.of_manifestError? (by rw [herror]; rfl), reason, herror, hhindered⟩

end Project

namespace Workspace

variable {settings : Settings} {host : Host} {w : Workspace} {id : ProjectId} {m : Path}

/-- A live project is the one of its manifest. -/
theorem projectOfManifest?_of_live {p : Project} {directory : Path} (h : Consistent w)
    (hgoverned : Governed w) (hlive : w.project? id = some p) (hpath : p.manifestPath? = some m)
    (hparent : m.parent? = some directory) : w.projectOfManifest? m = some id := by
  have hcharter : w.charter? id = some (.configured m) :=
    charter?_eq_some.2 ⟨p, hlive, Project.manifestPath?_eq_some_iff.1 hpath⟩
  cases hfound : w.projectOfManifest? m with
  | none =>
    have hnone := List.find?_eq_none.1 (Option.map_eq_none_iff.1 hfound) p
      (mem_projectList.2 ⟨id, hlive⟩)
    simp [hpath] at hnone
  | some other =>
    obtain ⟨q, hq, hother⟩ := projectOfManifest?_eq_some h hfound
    rw [hgoverned directory id other m m hcharter (charter?_eq_some.2 ⟨q, hq, hother⟩) hparent
      hparent]

/-- The report that a manifest is modified makes its project read it again. -/
theorem noticeFile_modified (hnamed : m.fileName ∈ w.settings.manifestFileNames)
    (hid : w.projectOfManifest? m = some id) :
    w.noticeFile host ⟨m, .modified⟩ = (.ok (), w.modifyProject id Project.outdate) := by
  have hmanifest : Manifest.isNamed w.settings.manifestFileNames m = true := decide_eq_true hnamed
  unfold noticeFile manifestEvent
  rw [if_pos hmanifest]
  simp only [hid]

/-- **A reload follows the foremost manifest of the directory.**  When a live project is told that
its manifest is modified and is brought up to date, it is clean and keeps its place.  It has a
manifest exactly if its own is the foremost one of the directory and can be loaded, and has what is
written there then; it tells no reason and serves syntax only exactly if the settings or the
manifest ask for that.  Otherwise it serves syntax only and tells what hinders its manifest. -/
theorem reload_follows_foremost_manifest (settings : Settings) (steps : List (Host × Action))
    (hplain : ∀ name ∈ settings.manifestFileNames, Segment.Plain name) {id : ProjectId}
    {p : Project} {m : Path} (hlive : (run settings steps).project? id = some p)
    (hpath : p.manifestPath? = some m) (reported host : Host) :
    let noticed := (run settings steps).noticeFile reported ⟨m, .modified⟩
    let next := noticed.2.refresh host id
    noticed.1 = .ok () ∧ next.1 = .ok () ∧ ∃ p', next.2.project? id = some p' ∧
      p'.manifestPath? = some m ∧ p'.isDirty = false ∧ p'.isStale = false ∧
      (∀ manifest, p'.manifest? = some manifest ↔
        Manifest.Foremost host settings.manifestFileNames m ∧
          Manifest.load host m = .ok manifest) ∧
      (∀ manifest, p'.manifest? = some manifest → p'.manifestError? = none ∧
        (p'.capability = .syntacticOnly ↔
          settings.syntaxOnly = true ∨ manifest.options.syntaxOnly = true)) ∧
      (p'.manifest? = none → p'.capability = .syntacticOnly ∧ ∃ reason,
        p'.manifestError? = some (.configurationLoadFailure m.text reason) ∧
          Manifest.Hindered host settings.manifestFileNames m reason) := by
  intro noticed next
  have hsettings : (run settings steps).settings = settings := run_settings settings steps
  obtain ⟨hnamed, directory, hparent⟩ :=
    (run_upholds (Project.inborn_sited hplain) steps).project id p hlive m
      (Project.manifestPath?_eq_some_iff.1 hpath)
  have hid : (run settings steps).projectOfManifest? m = some id :=
    projectOfManifest?_of_live (run_consistent settings steps)
      (run_governed settings steps hplain) hlive hpath hparent
  have hnoticed : noticed = (.ok (), (run settings steps).modifyProject id Project.outdate) :=
    noticeFile_modified (by rw [hsettings]; exact hnamed) hid
  have houtdated : noticed.2.project? id = some p.outdate := by
    rw [hnoticed, project?_modifyProject, if_pos rfl, hlive]
    rfl
  have hcontext : (noticed.2.context host).settings = settings := by
    rw [hnoticed]
    exact hsettings
  have hserved : p.outdate.Calibrated (noticed.2.context host).settings := by
    rw [hcontext, ← hsettings]
    exact (run_calibrated settings steps id p hlive).alike ⟨rfl, rfl⟩
  refine ⟨by rw [hnoticed], refresh_of_live host houtdated, ?_⟩
  obtain ⟨p', hp', hclean, hsame | ⟨build, hbuilt⟩⟩ := refresh_self host houtdated
  · -- an outdated project is dirty, so it cannot stay as it was
    rw [hsame] at hclean
    cases hclean
  · rw [← hcontext] at hplain
    have hfresh : p'.isStale = false := (Project.rebuilt_of_refresh? hbuilt).2.isStale
    obtain ⟨hplace, hreloaded⟩ :=
      Project.reloaded_of_refresh? hserved hplain hpath hparent rfl hbuilt
    rw [hcontext] at hreloaded
    exact ⟨p', hp', hplace, hclean, hfresh, hreloaded⟩

/-! ### Two manifest names -/

open Codebase.Path (atTop)

/-- Two manifest names, the second of which is the usual one. -/
def twoNames : Settings :=
  { Settings.default with manifestFileNames := ["jsconfig.json", "tsconfig.json"] }

theorem twoNames_plain : ∀ name ∈ twoNames.manifestFileNames, Segment.Plain name := by decide

/-- A file is opened beside a manifest of the usual name. -/
def openedBeside (host : Host) : List (Host × Action) := [(host, .openFile (atTop "p/a.ts") "")]

/-- A manifest that could not be read is repaired, and read again when that is reported. -/
theorem reload_follows_foremost_manifest_repaired :
    let broken : Host := unlistedHost (repairedFiles "\x7b\"files\":[")
    let w := run twoNames (openedBeside broken)
    ∃ p p', w.project? ⟨1⟩ = some p ∧ p.manifest?.isSome = false ∧
      ((w.noticeFile repairedHost ⟨atTop "p/tsconfig.json", .modified⟩).2.refresh repairedHost
        ⟨1⟩).2.project? ⟨1⟩ = some p' ∧
      p'.manifest?.isSome = true ∧ p'.manifestError? = none := by
  intro broken w
  have hlive : (w.project? ⟨1⟩).any (fun p =>
      p.manifestPath? = some (atTop "p/tsconfig.json") ∧ p.manifest?.isSome = false) = true := by
    decide +kernel
  obtain ⟨p, hp, hfacts⟩ := (Option.any_eq_true _ _).1 hlive
  obtain ⟨hpath, hnone⟩ := of_decide_eq_true hfacts
  have hloads : (Manifest.load repairedHost (atTop "p/tsconfig.json")).toOption.isSome = true := by
    decide +kernel
  have hforemost : Manifest.Foremost repairedHost twoNames.manifestFileNames
      (atTop "p/tsconfig.json") := by
    refine ⟨by decide +kernel, atTop "p", by decide +kernel, ["jsconfig.json"], [], ?_, ?_⟩
    · decide +kernel
    · decide +kernel
  obtain ⟨-, -, p', hp', -, -, -, hmanifest, hloaded, -⟩ :=
    reload_follows_foremost_manifest twoNames (openedBeside broken) twoNames_plain hp hpath
      repairedHost repairedHost
  cases hload : Manifest.load repairedHost (atTop "p/tsconfig.json") with
  | error e =>
    rw [hload] at hloads
    cases hloads
  | ok manifest =>
    have hread : p'.manifest? = some manifest := (hmanifest manifest).2 ⟨hforemost, hload⟩
    exact ⟨p, p', hp, hnone, hp', by rw [hread]; rfl, (hloaded manifest hread).1⟩

/-- The host when a manifest with the first name has come beside the usual one. -/
def joinedHost : Host :=
  unlistedHost ((repairedFiles "\x7b\"files\":[\"a.ts\"]\x7d").addFile (atTop "p/jsconfig.json")
    "\x7b\x7d")

/-- **A manifest that is there and well-formed is not loaded if another one comes first.**  The
project that had it serves syntax only, and tells that its manifest is no longer available. -/
theorem reload_is_kept_from_its_own_manifest :
    let m : Path := atTop "p/tsconfig.json"
    let w := run twoNames (openedBeside repairedHost)
    let next := ((w.noticeFile joinedHost ⟨m, .modified⟩).2.refresh joinedHost ⟨1⟩).2
    let told :=
      "failed to load configuration /p/tsconfig.json: /p/tsconfig.json is no longer available"
    (∀ name ∈ twoNames.manifestFileNames, Segment.Plain name) ∧
      ∃ p p' manifest, w.project? ⟨1⟩ = some p ∧ p.manifestPath? = some m ∧
        joinedHost.hasFile m = true ∧ Manifest.load joinedHost m = .ok manifest ∧
        next.project? ⟨1⟩ = some p' ∧ p'.manifest?.isSome = false ∧
        p'.capability = .syntacticOnly ∧ p'.manifestError?.map Error.message = some told := by
  intro m w next told
  have hlive : (w.project? ⟨1⟩).any (fun p => p.manifestPath? = some m) = true := by
    decide +kernel
  have hnext : (next.project? ⟨1⟩).any (fun p => p.manifest?.isSome = false ∧
      p.capability = .syntacticOnly ∧ p.manifestError?.map Error.message = some told) = true := by
    decide +kernel
  have hloads : (Manifest.load joinedHost m).toOption.isSome = true := by decide +kernel
  have hfile : joinedHost.hasFile m = true := by decide +kernel
  obtain ⟨p, hp, hpath⟩ := (Option.any_eq_true _ _).1 hlive
  obtain ⟨p', hp', hfacts⟩ := (Option.any_eq_true _ _).1 hnext
  cases hload : Manifest.load joinedHost m with
  | error e =>
    rw [hload] at hloads
    cases hloads
  | ok manifest =>
    exact ⟨twoNames_plain, p, p', manifest, hp, of_decide_eq_true hpath, hfile, rfl, hp',
      of_decide_eq_true hfacts⟩

end Workspace

end Codebase
