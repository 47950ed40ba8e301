import Codebase.Proofs.Manifest
import Codebase.Proofs.Workspace.Patron
/-!
# Patrons on a fixed host

While the host stays as it is, a configured project knows of its manifest what anybody finds in its
directory.  So it does not matter to whom a path falls whether the projects above it have started:

* `Mandate.Current` — the mandate is what lies in the directory of its manifest.
* `charterFor` — to whom a path falls when no project has started.
* `patron_eq` — to whom it falls later.
* `commission?_spec` — a project starts if nobody has its charter.

There is one exception.  A manifest that cannot be loaded governs every path beneath it until its
project has started, and after that the paths with a known extension only.  A path is `Tractable`
when that does not concern it.
-/

namespace Codebase

variable {host : Host} {settings : Settings} {directory path : Path} {mandate : Mandate}

namespace Mandate

/-- What a project of the manifest in `directory` knows when it starts. -/
def ofDirectory? (host : Host) (settings : Settings) (directory : Path) : Option Mandate :=
  match Manifest.lookup host settings.manifestFileNames directory with
  | .found manifest => some ⟨manifest.path, .loaded manifest, false⟩
  | .notFound => none
  | .failed manifestPath reason => some ⟨manifestPath, .failed reason, false⟩

/-- The manifest governs `path`; one that cannot be loaded governs all beneath it. -/
def governs (mandate : Mandate) (path : Path) (extensions : List String) : Bool :=
  match mandate.state with
  | .loaded manifest => manifest.covers path extensions
  | .failed _ => true

end Mandate

namespace Charter

/-- What a project of the charter knows when it starts. -/
def mandate? (charter : Charter) (host : Host) (settings : Settings) : Option Mandate :=
  match charter with
  | .configured manifestPath => manifestPath.parent?.bind (Mandate.ofDirectory? host settings)
  | _ => none

/-- The files that a project of the charter starts with. -/
def named (charter : Charter) (host : Host) (settings : Settings) : List Path :=
  match charter.mandate? host settings with
  | some mandate => mandate.named host settings
  | none => []

end Charter

theorem Charter.kind_of_mandate? {charter : Charter}
    (h : charter.mandate? host settings = some mandate) : charter.kind = .configured := by
  cases charter with
  | configured manifestPath => rfl
  | inferred => cases h
  | auxiliary => cases h

/-- Without a manifest, nothing is named. -/
theorem Charter.kind_of_named {charter : Charter} (h : path ∈ charter.named host settings) :
    charter.kind = .configured := by
  unfold named at h
  split at h
  · rename_i mandate hmandate
    exact kind_of_mandate? hmandate
  · cases h

/-- The mandate is what lies in the directory of its manifest. -/
def Mandate.Current (mandate : Mandate) (host : Host) (settings : Settings) : Prop :=
  (Charter.configured mandate.manifestPath).mandate? host settings = some mandate

theorem Mandate.Current.named (h : mandate.Current host settings) :
    (Charter.configured mandate.manifestPath).named host settings =
      mandate.named host settings := by
  unfold Charter.named
  rw [h]

/-- With plain names, what lies in a directory is current. -/
theorem Mandate.current_ofDirectory? (hplain : ∀ name ∈ settings.manifestFileNames,
    Segment.Plain name) (h : ofDirectory? host settings directory = some mandate) :
    mandate.Current host settings ∧ mandate.manifestPath.parent? = some directory := by
  have hparent : mandate.manifestPath.parent? = some directory := by
    refine @Manifest.parent?_of_lookup host _ directory _ hplain ?_
    unfold ofDirectory? at h
    split at h
    · rename_i hlookup
      cases h
      rw [hlookup]
      rfl
    · cases h
    · rename_i hlookup
      cases h
      rw [hlookup]
      rfl
  refine ⟨?_, hparent⟩
  unfold Current Charter.mandate?
  simp only [hparent, Option.bind_some, h]

/-- The project of a manifest claims a path beneath it exactly if the manifest governs the path,
unless the manifest cannot be loaded and the extension is unknown. -/
theorem Project.covers_of_tractable {p : Project} (hp : p.mandate? = some mandate)
    (hdirectory : mandate.manifestPath.parent? = some directory)
    (hunder : path.isUnder directory = true)
    (hknown : ∀ reason, mandate.state = .failed reason →
      path.hasExtension settings.resolution.extensions = true) :
    p.covers path settings.resolution.extensions =
      mandate.governs path settings.resolution.extensions := by
  unfold Project.mandate? at hp
  split at hp
  · rename_i manifestPath state horigin
    cases hp
    unfold covers Mandate.governs
    rw [horigin]
    cases state with
    | loaded manifest => rfl
    | failed reason => simp only [hdirectory, hunder, hknown reason rfl, Bool.and_self]
  · cases hp

/-- The project of a manifest that cannot be loaded claims known extensions only. -/
theorem Project.covers_of_failed {p : Project} {reason : String} {extensions : List String}
    (hp : p.mandate? = some mandate) (hstate : mandate.state = .failed reason)
    (hunknown : path.hasExtension extensions = false) : p.covers path extensions = false := by
  unfold Project.mandate? at hp
  split at hp
  · rename_i manifestPath state horigin
    cases hp
    simp only at hstate
    unfold covers
    rw [horigin, hstate]
    simp only [hunknown, Bool.and_false]
    split <;> rfl
  · cases hp

namespace Workspace

variable {w : Workspace} {id x : ProjectId} {charter : Charter}

/-- All configured projects know of their manifests what lies on the host. -/
def UpToDate (w : Workspace) (host : Host) : Prop :=
  ∀ x mandate, w.mandate? x = some mandate → mandate.Current host w.settings

theorem upToDate_new (settings : Settings) (host : Host) : UpToDate (new settings) host :=
  fun _ _ h => by cases h

/-- The charter of a governor. -/
def charterOf (w : Workspace) : Governor → Charter
  | .project id => (w.charter? id).getD .inferred
  | .manifest manifest => .configured manifest.path
  | .unloadable manifestPath _ => .configured manifestPath

theorem patron_of_governor (w : Workspace) (host : Host) (path : Path) :
    w.patron host path = if w.settings.syntaxOnly then .inferred
      else ((w.governor? host path).map w.charterOf).getD .inferred := by
  unfold patron
  split
  · rfl
  · cases w.governor? host path with
    | none => rfl
    | some governor => cases governor <;> rfl

/-- The charter that `directory` has for `path`. -/
def charterAt? (host : Host) (settings : Settings) (path directory : Path) : Option Charter :=
  (Mandate.ofDirectory? host settings directory).bind fun mandate =>
    if mandate.governs path settings.resolution.extensions then
      some (.configured mandate.manifestPath)
    else none

/-- A project that governs a directory knows what lies there. -/
theorem UpToDate.ofDirectory? {p : Project} (h : UpToDate w host) (hlive : w.project? id = some p)
    (hdirectory : p.manifestDirectory? = some directory) :
    ∃ mandate, p.mandate? = some mandate ∧ mandate.manifestPath.parent? = some directory ∧
      Mandate.ofDirectory? host w.settings directory = some mandate := by
  obtain ⟨mandate, hmandate, hparent⟩ := Project.manifestDirectory?_eq_some.1 hdirectory
  refine ⟨mandate, hmandate, hparent, ?_⟩
  have hcurrent := h id mandate ((mandate?_of_live hlive).trans hmandate)
  unfold Mandate.Current Charter.mandate? at hcurrent
  simp only [hparent, Option.bind_some] at hcurrent
  exact hcurrent

/-- What a governor in `directory` comes to does not depend on the projects. -/
theorem charter_governorAt? (h : Consistent w) (hcurrent : UpToDate w host)
    (hunder : path.isUnder directory = true)
    (hknown : ∀ x mandate reason, w.mandate? x = some mandate → mandate.state = .failed reason →
      charterAt? host w.settings path directory = some (.configured mandate.manifestPath) →
      path.hasExtension w.settings.resolution.extensions = true) :
    (w.governorAt? host path directory).map w.charterOf =
      charterAt? host w.settings path directory := by
  unfold governorAt?
  split
  · rename_i p hfind
    obtain ⟨x, hlive⟩ := mem_projectList.1 (List.mem_of_find?_eq_some hfind)
    have hfits := List.find?_some hfind
    obtain ⟨mandate, hmandate, hparent, hlies⟩ :=
      hcurrent.ofDirectory? hlive (of_decide_eq_true hfits)
    have hx := (mandate?_of_live hlive).trans hmandate
    have hcharter : w.charter? p.id = some (.configured mandate.manifestPath) := by
      rw [h.named x p hlive]
      exact charter?_of_mandate? hx
    have hat : charterAt? host w.settings path directory =
        if mandate.governs path w.settings.resolution.extensions then
          some (.configured mandate.manifestPath) else none := by
      unfold charterAt?
      rw [hlies, Option.bind_some]
    have hcovers : p.covers path w.settings.resolution.extensions =
        mandate.governs path w.settings.resolution.extensions := by
      refine Project.covers_of_tractable hmandate hparent hunder fun reason hstate =>
        hknown x mandate reason hx hstate ?_
      rw [hat]
      unfold Mandate.governs
      simp only [hstate, if_true]
    unfold extensions
    rw [hat, hcovers]
    split
    · simp only [Option.map_some, charterOf, hcharter, Option.getD_some]
    · rfl
  · unfold charterAt? Mandate.ofDirectory?
    cases Manifest.lookup host w.settings.manifestFileNames directory with
    | notFound => rfl
    | found manifest =>
      simp only
      rw [apply_ite (Option.map w.charterOf)]
      rfl
    | failed manifestPath reason => rfl

/-- To whom `path` falls on the host when no project has started. -/
def charterFor (host : Host) (settings : Settings) (path : Path) : Charter :=
  if settings.syntaxOnly then .inferred
  else (path.parent?.bind fun parent =>
    parent.ancestors.findSome? (charterAt? host settings path)).getD .inferred

/-- If `path` falls to a manifest that cannot be loaded and whose project is there, then the
extension of the path is known. -/
def Tractable (w : Workspace) (host : Host) (path : Path) : Prop :=
  ∀ x mandate reason, w.mandate? x = some mandate → mandate.state = .failed reason →
    charterFor host w.settings path = .configured mandate.manifestPath →
    path.hasExtension w.settings.resolution.extensions = true

/-- Functions agree about the first element of a list with a value if they agree about this one and
those before it. -/
theorem findSome?_congr_first {α β : Type} {f g : α → Option β} {l : List α}
    (h : ∀ a ∈ l, (∀ b, g a = some b → l.findSome? g = some b) → f a = g a) :
    l.findSome? f = l.findSome? g := by
  induction l with
  | nil => rfl
  | cons a rest ih =>
    cases hg : g a with
    | none =>
      have hf : f a = none := (h a List.mem_cons_self fun b hb => by
        rw [hg] at hb
        cases hb).trans hg
      rw [List.findSome?_cons_of_isNone (by rw [hf]; rfl),
        List.findSome?_cons_of_isNone (by rw [hg]; rfl)]
      refine ih fun a' ha' hfirst => h a' (List.mem_cons_of_mem a ha') fun b hb => ?_
      rw [List.findSome?_cons_of_isNone (by rw [hg]; rfl)]
      exact hfirst b hb
    | some b =>
      have hsome : (a :: rest).findSome? g = some b := by
        rw [List.findSome?_cons, hg]
      have hf : f a = some b := (h a List.mem_cons_self fun b' hb' => by
        rw [hsome, ← hg, hb']).trans hg
      rw [hsome, List.findSome?_cons, hf]

/-- **The patron of a tractable path depends on the host alone.** -/
theorem patron_eq (h : Consistent w) (hcurrent : UpToDate w host)
    (htractable : Tractable w host path) :
    w.patron host path = charterFor host w.settings path := by
  rw [patron_of_governor]
  unfold charterFor governor?
  split
  · rfl
  · rename_i hsemantic
    cases hparent : path.parent? with
    | none => rfl
    | some parent =>
      rw [Option.bind_some, Option.bind_some, List.map_findSome?]
      refine congrArg (Option.getD · .inferred) (findSome?_congr_first fun directory hmem hfirst =>
        charter_governorAt? h hcurrent (Path.isUnder_of_mem_ancestors hparent hmem) ?_)
      intro x mandate reason hx hstate hat
      refine htractable x mandate reason hx hstate ?_
      unfold charterFor
      rw [if_neg hsemantic, hparent, Option.bind_some, hfirst _ hat, Option.getD_some]

/-! ## Who starts -/

/-- When no project governs the directory of a manifest, none has its charter. -/
theorem charter?_ne_of_find? {manifestPath : Path}
    (hnone : (w.projectList.find? fun p => p.manifestDirectory? = some directory) = none)
    (hparent : manifestPath.parent? = some directory) (x : ProjectId) :
    w.charter? x ≠ some (.configured manifestPath) := by
  intro hx
  obtain ⟨p, hp, hcharter⟩ := charter?_eq_some.1 hx
  have hdirectory : p.manifestDirectory? = some directory :=
    Option.bind_eq_some_iff.2 ⟨manifestPath, Project.manifestPath?_eq_some_iff.2 hcharter, hparent⟩
  exact absurd (decide_eq_true hdirectory)
    (List.find?_eq_none.1 hnone p (mem_projectList.2 ⟨x, hp⟩))

/-- What a project knows that starts for a governor. -/
def Governor.mandate? : Governor → Option Mandate
  | .project _ => none
  | .manifest found => some ⟨found.path, .loaded found, false⟩
  | .unloadable manifestPath reason => some ⟨manifestPath, .failed reason, false⟩

theorem governor?_of_commission? (h : w.commission? host path = some mandate) :
    w.settings.syntaxOnly = false ∧
      ∃ governor, w.governor? host path = some governor ∧ governor.mandate? = some mandate := by
  unfold commission? at h
  split at h
  · cases h
  · rename_i hsemantic
    refine ⟨Bool.eq_false_iff.2 hsemantic, ?_⟩
    split at h
    · rename_i manifest hgovernor
      exact ⟨_, hgovernor, h⟩
    · rename_i manifestPath reason hgovernor
      exact ⟨_, hgovernor, h⟩
    · cases h

/-- A project starts in a directory that no project governs, and knows what lies there; the path
falls to it. -/
theorem ofDirectory?_of_governorAt? {governor : Governor}
    (h : w.governorAt? host path directory = some governor)
    (hmandate : governor.mandate? = some mandate) :
    (w.projectList.find? fun p => p.manifestDirectory? = some directory) = none ∧
      Mandate.ofDirectory? host w.settings directory = some mandate ∧
      charterAt? host w.settings path directory = some (.configured mandate.manifestPath) := by
  unfold governorAt? at h
  split at h
  · split at h
    · cases h
      cases hmandate
    · cases h
  · rename_i hnone
    refine ⟨hnone, ?_⟩
    unfold charterAt? Mandate.ofDirectory?
    cases hlookup : Manifest.lookup host w.settings.manifestFileNames directory with
    | notFound =>
      rw [hlookup] at h
      cases h
    | found manifest =>
      rw [hlookup] at h
      simp only at h
      split at h
      · rename_i hcovers
        cases h
        cases hmandate
        exact ⟨rfl, if_pos hcovers⟩
      · cases h
    | failed manifestPath reason =>
      rw [hlookup] at h
      cases h
      cases hmandate
      exact ⟨rfl, rfl⟩

/-- A project that starts knows what lies in its directory, and no other one has its charter. -/
theorem commission?_spec (hplain : ∀ name ∈ w.settings.manifestFileNames, Segment.Plain name)
    (h : w.commission? host path = some mandate) :
    mandate.Current host w.settings ∧ w.patron host path = .configured mandate.manifestPath ∧
      ∀ x, w.charter? x ≠ some (.configured mandate.manifestPath) := by
  obtain ⟨hsemantic, governor, hgovernor, hmandate⟩ := governor?_of_commission? h
  obtain ⟨parent, -, hfound⟩ := Option.bind_eq_some_iff.1 hgovernor
  obtain ⟨directory, -, hat⟩ := List.exists_of_findSome?_eq_some hfound
  obtain ⟨hnone, hlies, -⟩ := ofDirectory?_of_governorAt? hat hmandate
  obtain ⟨hcurrent, hparent⟩ := Mandate.current_ofDirectory? hplain hlies
  refine ⟨hcurrent, ?_, charter?_ne_of_find? hnone hparent⟩
  unfold patron
  rw [hsemantic, hgovernor]
  cases governor with
  | project id => cases hmandate
  | manifest manifest =>
    cases hmandate
    rfl
  | unloadable manifestPath reason =>
    cases hmandate
    rfl

/-- What gets a project that starts for a path is named by a charter that a directory above the path
has for it. -/
theorem exists_charterAt?_of_granted
    (hplain : ∀ name ∈ w.settings.manifestFileNames, Segment.Plain name) {q : Path}
    (h : q ∈ w.granted host path) : ∃ directory charter, path.isUnder directory = true ∧
      charterAt? host w.settings path directory = some charter ∧
      q ∈ charter.named host w.settings := by
  unfold granted at h
  split at h
  · rename_i mandate hcommission
    obtain ⟨hcurrent, -, -⟩ := commission?_spec hplain hcommission
    obtain ⟨-, governor, hgovernor, hmandate⟩ := governor?_of_commission? hcommission
    obtain ⟨parent, hparent, hfound⟩ := Option.bind_eq_some_iff.1 hgovernor
    obtain ⟨directory, hmem, hat⟩ := List.exists_of_findSome?_eq_some hfound
    obtain ⟨-, -, hcharter⟩ := ofDirectory?_of_governorAt? hat hmandate
    exact ⟨directory, _, Path.isUnder_of_mem_ancestors hparent hmem, hcharter,
      hcurrent.named.symm ▸ h⟩
  · cases h

/-- A project with a charter that is configured has a mandate. -/
theorem mandate?_of_charter? (hkind : charter.kind = .configured)
    (hx : w.charter? x = some charter) : ∃ mandate, w.mandate? x = some mandate ∧
      charter = .configured mandate.manifestPath := by
  obtain ⟨p, hp, rfl⟩ := charter?_eq_some.1 hx
  obtain ⟨mandate, hmandate⟩ := Option.ne_none_iff_exists'.1
    (mt Project.mandate?_eq_none_iff.1 (not_not.2 ((Project.kind_eq p).trans hkind)))
  exact ⟨mandate, (mandate?_of_live hp).trans hmandate, (Project.charter_of_mandate? hmandate).1⟩

/-- A project that governs from a directory has its manifest there and covers the path. -/
theorem covers_of_governorAt? (h : Consistent w)
    (hat : w.governorAt? host path directory = some (.project id)) :
    ∃ p, w.project? id = some p ∧ p.manifestDirectory? = some directory ∧
      p.covers path w.settings.resolution.extensions = true := by
  unfold governorAt? at hat
  split at hat
  · rename_i p hfind
    split at hat
    · rename_i hcovers
      cases hat
      obtain ⟨k, hk⟩ := mem_projectList.1 (List.mem_of_find?_eq_some hfind)
      rw [h.named k p hk]
      have hdirectory : p.manifestDirectory? = some directory := by
        simpa using List.find?_some hfind
      exact ⟨p, hk, hdirectory, hcovers⟩
    · cases hat
  · split at hat
    · cases hat
    · split at hat <;> cases hat
    · cases hat

/-- A path for which no project starts falls to a project that covers it, or to an inferred one. -/
theorem covers_of_commission?_eq_none (h : Consistent w) (hnone : w.commission? host path = none)
    (hkind : (w.patron host path).kind = .configured) :
    ∃ y p, w.project? y = some p ∧ w.charter? y = some (w.patron host path) ∧
      p.covers path w.settings.resolution.extensions = true := by
  unfold patron at hkind ⊢
  unfold commission? at hnone
  split at hkind
  · cases hkind
  · rename_i hsemantic
    rw [if_neg hsemantic] at hnone ⊢
    cases hgovernor : w.governor? host path with
    | none =>
      rw [hgovernor] at hkind
      cases hkind
    | some governor =>
      rw [hgovernor] at hnone
      cases governor with
      | manifest manifest => cases hnone
      | unloadable manifestPath reason => cases hnone
      | project y =>
        obtain ⟨parent, -, hfound⟩ := Option.bind_eq_some_iff.1 hgovernor
        obtain ⟨directory, -, hat⟩ := List.exists_of_findSome?_eq_some hfound
        obtain ⟨p, hp, -, hcovers⟩ := covers_of_governorAt? h hat
        have hcharter : w.charter? y = some p.charter := charter?_eq_some.2 ⟨p, hp, rfl⟩
        simp only [hcharter, Option.getD_some]
        exact ⟨y, p, hp, hcharter, hcovers⟩

/-- A path with an unknown extension does not fall to a manifest that cannot be loaded when its
project is there. -/
theorem patron_ne_of_failed {reason : String}
    (hplain : ∀ name ∈ w.settings.manifestFileNames, Segment.Plain name) (h : Consistent w)
    (hcurrent : UpToDate w host) (hx : w.mandate? x = some mandate)
    (hstate : mandate.state = .failed reason)
    (hunknown : path.hasExtension w.settings.resolution.extensions = false) :
    w.patron host path ≠ .configured mandate.manifestPath := by
  intro hpatron
  cases hcommission : w.commission? host path with
  | some started =>
    obtain ⟨-, hstarted, hnobody⟩ := commission?_spec hplain hcommission
    rw [hpatron] at hstarted
    exact hnobody x (hstarted ▸ charter?_of_mandate? hx)
  | none =>
    obtain ⟨y, p, hp, hcharter, hcovers⟩ := covers_of_commission?_eq_none h hcommission
      (by rw [hpatron]; rfl)
    rw [hpatron] at hcharter
    -- two projects of one manifest know the same of it
    obtain ⟨own, hown, heq⟩ := mandate?_of_charter? rfl hcharter
    have hsame : own = mandate := by
      have hcurrent' := hcurrent y own hown
      unfold Mandate.Current at hcurrent'
      rw [← heq, hcurrent x mandate hx] at hcurrent'
      exact (Option.some.inj hcurrent').symm
    rw [hsame, mandate?_of_live hp] at hown
    rw [Project.covers_of_failed hown hstate hunknown] at hcovers
    cases hcovers

/-- A path for which no project starts falls to a configured project that is there, or to an
inferred one. -/
theorem patron_of_commission?_eq_none (h : Consistent w) (hnone : w.commission? host path = none) :
    w.patron host path = .inferred ∨ (w.patron host path).kind = .configured ∧
      ∃ x, w.charter? x = some (w.patron host path) := by
  have htakes := taker_takes h host path
  generalize w.taker host path = taker at htakes
  cases htakes with
  | governed id hgoverning hconfigured _ => exact .inr ⟨hconfigured, id, hgoverning⟩
  | started manifest _ hcommission =>
    rw [hcommission] at hnone
    cases hnone
  | unloadable manifestPath reason _ hcommission =>
    rw [hcommission] at hnone
    cases hnone
  | inferred hcharter _ => exact .inl hcharter

end Workspace

end Codebase
