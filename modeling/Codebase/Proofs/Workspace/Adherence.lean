import Codebase.Proofs.Workspace.Patron
import Mathlib.Data.List.Induction
/-!
# Closed roots follow the manifest

While the host stays as it is and reports nothing, no manifest is read a second time.  A configured
project starts with the roots that its manifest names, and only opening a document adds a root to it
or takes one away.  Closing a document undoes neither, so what the project had at that moment is
what it has for good:

* `Adheres` — what an operation does to the closed roots of configured projects.
* `act_adheres` — every action that reports nothing keeps them, and new projects adhere.
* `closed_roots_follow_manifest_iff` — the closed roots are those that the manifest names exactly if
  they were when their documents were closed.
* `closed_root_is_not_named` — they may not be.
-/

namespace Codebase.Workspace

variable {host : Host} {w w' w'' : Workspace} {id x : ProjectId} {path q : Path} {content : String}
  {mandate : Mandate} {action : Action}

/-- No manifest is to be read again. -/
def Abreast (w : Workspace) : Prop := ∀ x mandate, w.mandate? x = some mandate →
  mandate.isStale = false

/-- Configured projects stay, with the closed roots that they had, and a new one has the closed
roots that its manifest names. -/
structure Adheres (host : Host) (w w' : Workspace) : Prop where
  settings : w'.settings = w.settings
  kept : ∀ x mandate, w.mandate? x = some mandate → w'.mandate? x = some mandate
  old : ∀ x q, w.mandate? x ≠ none → w'.documents.isOpen q = false →
    w'.hasRoot q x = w.hasRoot q x
  fresh : ∀ x mandate, w.mandate? x = none → w'.mandate? x = some mandate →
    mandate.isStale = false
  new : ∀ x mandate q, w.mandate? x = none → w'.mandate? x = some mandate →
    w'.documents.isOpen q = false → (w'.hasRoot q x = true ↔ q ∈ mandate.named host w.settings)

theorem Adheres.abreast (h : Adheres host w w') (hw : Abreast w) : Abreast w' := by
  intro x mandate hmandate
  cases hbefore : w.mandate? x with
  | none => exact h.fresh x mandate hbefore hmandate
  | some mandate' =>
    rw [h.kept x mandate' hbefore] at hmandate
    cases hmandate
    exact hw x mandate hbefore

/-- No project starts or ends that has a manifest. -/
theorem adheres_of_mandates (hsettings : w'.settings = w.settings)
    (hmandate : ∀ x, w'.mandate? x = w.mandate? x)
    (hroots : ∀ x q, w.mandate? x ≠ none → w'.documents.isOpen q = false →
      w'.hasRoot q x = w.hasRoot q x) : Adheres host w w' where
  settings := hsettings
  kept x mandate h := (hmandate x).trans h
  old := hroots
  fresh x mandate hnone hsome := by
    rw [hmandate, hnone] at hsome
    cases hsome
  new x mandate q hnone hsome := by
    rw [hmandate, hnone] at hsome
    cases hsome

theorem adheres_refl (w : Workspace) : Adheres host w w :=
  adheres_of_mandates rfl (fun _ => rfl) fun _ _ _ _ => rfl

/-- The second operation closes nothing. -/
theorem Adheres.trans (h : Adheres host w w') (h' : Adheres host w' w'')
    (hopen : ∀ q, w''.documents.isOpen q = w'.documents.isOpen q) : Adheres host w w'' where
  settings := h'.settings.trans h.settings
  kept x mandate hx := h'.kept x mandate (h.kept x mandate hx)
  old x q hx hclosed := by
    obtain ⟨mandate, hmandate⟩ := Option.ne_none_iff_exists'.1 hx
    have hstill : w'.mandate? x ≠ none := by
      rw [h.kept x mandate hmandate]
      exact nofun
    rw [h'.old x q hstill hclosed]
    exact h.old x q hx ((hopen q).symm.trans hclosed)
  fresh x mandate hnone hsome := by
    cases hbetween : w'.mandate? x with
    | none => exact h'.fresh x mandate hbetween hsome
    | some mandate' =>
      rw [h'.kept x mandate' hbetween] at hsome
      cases hsome
      exact h.fresh x mandate hnone hbetween
  new x mandate q hnone hsome hclosed := by
    cases hbetween : w'.mandate? x with
    | none =>
      rw [← h.settings]
      exact h'.new x mandate q hbetween hsome hclosed
    | some mandate' =>
      have hstill : w'.mandate? x ≠ none := by
        rw [hbetween]
        exact nofun
      rw [h'.kept x mandate' hbetween] at hsome
      cases hsome
      rw [h'.old x q hstill hclosed]
      exact h.new x mandate q hnone hbetween ((hopen q).symm.trans hclosed)

/-- The roots of configured projects stay. -/
theorem adheres_of_rootKind (hsettings : w'.settings = w.settings)
    (hmandate : ∀ x, w'.mandate? x = w.mandate? x)
    (hroots : ∀ x q, w.mandate? x ≠ none → w'.documents.isOpen q = false →
      w'.rootKind q x = w.rootKind q x) : Adheres host w w' :=
  adheres_of_mandates hsettings hmandate fun x q hx hclosed => by
    rw [hasRoot_eq_isSome, hasRoot_eq_isSome, hroots x q hx hclosed]

/-! ## Operations -/

theorem kind_of_mandate? {p : Project} (hx : w.mandate? x ≠ none) (hp : w.project? x = some p) :
    p.kind = .configured := by
  rw [mandate?_of_live hp, Ne, Project.mandate?_eq_none_iff, not_not] at hx
  exact hx

/-- The kind of a root of a configured project. -/
theorem rootKind_of_mandate? {kind : ProjectKind} (hx : w.mandate? x ≠ none)
    (hroot : w.rootKind q x = some kind) : kind = .configured := by
  obtain ⟨p, hp, -, rfl⟩ := rootKind_eq_some.1 hroot
  exact kind_of_mandate? hx hp

theorem touchOwners_adheres (w : Workspace) (path : Path) :
    Adheres host w (w.touchOwners path) := by
  have hmoves : Moves host w (w.touchOwners path) := touchOwners_moves w path
  exact adheres_of_rootKind hmoves.settings (mandate?_touchOwners w path)
    fun x q _ _ => rootKind_touchOwners w path q x

theorem opening_adheres {opened : Documents.Opened} {documents : Documents} (w : Workspace)
    (path : Path) : Adheres host w (w.opening path opened documents) := by
  have hmoves : Moves host { w with documents } (w.opening path opened documents) :=
    opening_moves w path opened documents
  refine adheres_of_rootKind hmoves.settings (mandate?_opening w path opened documents)
    fun x q hx _ => Option.ext fun kind => ?_
  rw [rootKind_opening_eq_some]
  refine and_iff_left_of_imp fun hroot _ => ?_
  rw [rootKind_of_mandate? hx hroot]
  exact nofun

/-- An open document is assigned. -/
theorem assign_adheres (h : Consistent w) (host : Host) (hopen : w.documents.isOpen path = true) :
    Adheres host w (w.assign host path).2 := by
  have hmoves : Moves host w (w.assign host path).2 := assign_moves w path
  have hroots : ∀ x q, w.documents.isOpen q = false → (w.assign host path).2.rootKind q x =
      if q ∈ w.granted host path ∧ x = w.nextId then some .configured else w.rootKind q x := by
    intro x q hclosed
    have hq : q ≠ path := by
      rintro rfl
      rw [hopen] at hclosed
      cases hclosed
    rw [rootKind_assign h, if_neg fun heq => hq heq.2, hclosed]
    by_cases hgranted : q ∈ w.granted host path <;> by_cases hx : x = w.nextId <;>
      simp [hgranted, hx]
  have hold : ∀ x, w.mandate? x ≠ none → x ≠ w.nextId := by
    rintro x hx rfl
    exact hx (mandate?_next h)
  refine ⟨hmoves.settings, fun x mandate hx => ?_, fun x q hx hclosed => ?_,
    fun x mandate hnone hsome => ?_, fun x mandate q hnone hsome hclosed => ?_⟩
  · rw [mandate?_assign h, if_neg (hold x (by rw [hx]; exact nofun)), hx]
  · rw [hmoves.isOpen] at hclosed
    rw [hasRoot_eq_isSome, hasRoot_eq_isSome, hroots x q hclosed,
      if_neg fun heq => hold x hx heq.2]
  · rw [mandate?_assign h, hnone] at hsome
    split at hsome
    · unfold commission? at hsome
      split at hsome
      · cases hsome
      · split at hsome <;> cases hsome <;> rfl
    · cases hsome
  · rw [mandate?_assign h, hnone] at hsome
    split at hsome
    · rename_i hx
      rw [hmoves.isOpen] at hclosed
      rw [hasRoot_eq_isSome, hroots x q hclosed, hx, rootKind_of_none h.next]
      have hgranted : w.granted host path = mandate.named host w.settings := by
        unfold granted
        rw [hsome]
      rw [hgranted]
      by_cases hq : q ∈ mandate.named host w.settings <;> simp [hq]
    · cases hsome

/-- A project that reads no manifest keeps its roots. -/
theorem retains_of_abreast (habreast : Abreast w) :
    w.KeepsRoot host id q ↔ w.hasRoot q id = true := by
  unfold KeepsRoot hasRoot
  cases hlive : w.project? id with
  | none => simp
  | some p =>
    have hnone : p.successor? (w.context host) = none := by
      unfold Project.successor?
      cases hmandate : p.mandate? with
      | none => rfl
      | some mandate =>
        have hfresh := habreast id mandate ((mandate?_of_live hlive).trans hmandate)
        unfold Mandate.successor?
        simp [hfresh]
    unfold Project.Retains
    simp [hnone]

/-- A rebuild that reads no manifest. -/
theorem refresh_adheres (h : Consistent w) (habreast : Abreast w) (host : Host) (id : ProjectId) :
    Adheres host w (w.refresh host id).2 := by
  have hmoves := refresh_moves host w id
  refine adheres_of_mandates hmoves.settings
    (fun x => mandate?_refresh host fun _ => habreast id) fun x q hx hclosed => ?_
  rw [hmoves.isOpen] at hclosed
  by_cases hid : x = id
  · subst hid
    rw [Bool.eq_iff_iff, hasRoot_refresh_self h, retains_of_abreast habreast]
  · rw [hasRoot_eq_isSome, hasRoot_eq_isSome, (rootKind_refresh_other h host hid q).2]
    rintro ⟨hopen, -⟩
    rw [hclosed] at hopen
    cases hopen

theorem closeFile_adheres (h : Consistent w) (path : Path) :
    Adheres host w (w.closeFile path).2 := by
  cases hclosed : w.documents.close path with
  | error e =>
    unfold closeFile
    rw [hclosed]
    exact adheres_refl w
  | ok documents =>
    have hmoves : Moves host { w with documents } (w.closeFile path).2 := closeFile_moves hclosed
    refine adheres_of_rootKind hmoves.settings (mandate?_closeFile w path) fun x q hx _ => ?_
    rw [rootKind_closeFile h hclosed, if_neg]
    rintro ⟨-, hinferred⟩
    cases rootKind_of_mandate? hx hinferred

theorem editFile_adheres (w : Workspace) (path : Path) (change : TextChange) (version : Nat) :
    Adheres host w (w.editFile path change version).2 := by
  unfold editFile
  split
  · exact adheres_refl w
  · rename_i documents _
    have hrewritten : Adheres host w { w with documents } :=
      adheres_of_mandates rfl (fun _ => rfl) fun _ _ _ _ => rfl
    have hmoves : Moves host { w with documents } _ := touchOwners_moves _ path
    exact hrewritten.trans (touchOwners_adheres _ path) hmoves.isOpen

theorem openFile_adheres (h : Consistent w) (host : Host) (path : Path) (content : String) :
    Adheres host w (w.openFile host path content).2 := by
  have hopens := openFile_opens host w path content
  generalize w.openFile host path content = answer at hopens ⊢
  cases hopens with
  | refused e => exact adheres_refl w
  | held hopened hholder =>
    refine (opening_adheres w path).trans ?_ fun _ => rfl
    exact adheres_of_rootKind rfl (mandate?_touch _ _) fun x q _ _ => rootKind_touch _ _ q x
  | @assigned opened documents hopened hnone =>
    have hmoves : Moves host { w with documents } (w.opening path opened documents) :=
      opening_moves w path opened documents
    have hassigned : Moves host (w.opening path opened documents) _ := assign_moves _ path
    exact (opening_adheres w path).trans
      (assign_adheres (hmoves.consistent (h.documents documents)) host (isOpen_opening hopened))
      hassigned.isOpen

/-- A project that serves a path has no manifest. -/
theorem providerFor_adheres (h : Consistent w) (host : Host) (path : Path) :
    Adheres host w (w.providerFor host path).2 := by
  rcases providerFor_eq host w path with hsame | ⟨documents, -, -, hadded⟩
  · rw [hsame]
    exact adheres_refl w
  · rw [hadded]
    refine adheres_of_rootKind rfl (mandate?_addStandIn h documents path) fun x q hx _ => ?_
    rw [rootKind_addStandIn (h.documents documents), if_neg]
    · rfl
    · rintro ⟨hnew, -⟩
      rw [hnew] at hx
      exact hx (mandate?_next h)

theorem Inquiries.adheres {asked : Option Path} (hinquiries : Inquiries asked host w w')
    (h : Consistent w) (habreast : Abreast w) : Adheres host w w' := by
  induction hinquiries with
  | refl => exact adheres_refl w
  | tail hfirst hlast ih =>
    have hconsistent := (Inquiries.moves hfirst).consistent h
    refine ih.trans ?_ hlast.moves.isOpen
    cases hlast with
    | refresh id => exact refresh_adheres hconsistent (ih.abreast habreast) host id
    | provide path => exact providerFor_adheres hconsistent host path

/-! ## Actions -/

theorem serve_adheres (h : Consistent w) (habreast : Abreast w) (service : LanguageService)
    (host : Host) (request : Request) : Adheres host w (w.serve service host request).2 := by
  have hserves := serve_serves service host w request
  generalize (w.serve service host request).2 = next at hserves ⊢
  cases hserves with
  | opening path content _ hopen =>
    have hopened := openFile_adheres h host path content
    obtain ⟨documents, hmoves⟩ := openFile_reaches host w path content
    rw [hopen] at hopened hmoves
    exact hopened.trans
      (refresh_adheres (hmoves.consistent (h.documents documents)) (hopened.abreast habreast) host
        _)
      (refresh_moves host _ _).isOpen
  | closing file => exact closeFile_adheres h file
  | editing file change version => exact editFile_adheres w file change version
  | asking hasked => exact hasked.adheres h habreast

/-- The action is no report of the host. -/
def Action.Unreported : Action → Prop
  | .notice _ => False
  | _ => True

/-- **An action that reports nothing leaves the closed roots of configured projects as they are**,
and the closed roots of a configured project that starts are those that its manifest names. -/
theorem act_adheres (h : Consistent w) (habreast : Abreast w) (host : Host)
    (hunreported : action.Unreported) : Adheres host w (w.act host action) := by
  cases action with
  | openFile path content => exact openFile_adheres h host path content
  | closeFile path => exact closeFile_adheres h path
  | editFile path change version => exact editFile_adheres w path change version
  | notice event => exact hunreported.elim
  | refresh id => exact refresh_adheres h habreast host id
  | refreshAll => exact (refreshEach_inquiries none host w _).adheres h habreast
  | filesOf id => exact (filesOf_inquiries none host w id).adheres h habreast
  | providerFor path => exact providerFor_adheres h host path
  | request service request => exact serve_adheres h habreast service host request

/-! ## Runs -/

variable {settings : Settings} {steps pre : List (Host × Action)} {step : Host × Action}

/-- The host stays as it is and reports nothing. -/
def Unvarying (host : Host) (steps : List (Host × Action)) : Prop :=
  ∀ step ∈ steps, step.1 = host ∧ step.2.Unreported

theorem abreast_new (settings : Settings) : Abreast (new settings) := fun _ _ h => by cases h

theorem Unvarying.adheres_concat (hsteps : Unvarying host (steps ++ [step]))
    (habreast : Abreast (run settings steps)) :
    Adheres host (run settings steps) (run settings (steps ++ [step])) := by
  obtain ⟨hhost, hunreported⟩ := hsteps step (List.mem_append_right _ List.mem_cons_self)
  rw [run_concat, hhost]
  exact act_adheres (run_consistent settings steps) habreast host hunreported

theorem Unvarying.init (hsteps : Unvarying host (steps ++ [step])) : Unvarying host steps :=
  fun s hs => hsteps s (List.mem_append_left _ hs)

theorem Unvarying.abreast (hsteps : Unvarying host steps) : Abreast (run settings steps) := by
  induction steps using List.reverseRecOn with
  | nil => exact abreast_new settings
  | append_singleton steps step ih =>
    exact (hsteps.adheres_concat (ih hsteps.init)).abreast (ih hsteps.init)

/-- A configured project that was there at some moment is there at the end. -/
theorem Unvarying.mandate? (hsteps : Unvarying host steps) (hpre : pre <+: steps)
    (hx : (run settings pre).mandate? x = some mandate) :
    (run settings steps).mandate? x = some mandate := by
  induction steps using List.reverseRecOn with
  | nil =>
    rw [List.prefix_nil.1 hpre] at hx
    exact hx
  | append_singleton steps step ih =>
    rcases List.prefix_concat_iff.1 hpre with rfl | hpre
    · exact hx
    · have habreast : Abreast (run settings steps) := hsteps.init.abreast
      have hadheres := hsteps.adheres_concat habreast
      exact hadheres.kept x mandate (ih hsteps.init hpre)

/-- The document is open before the step, and never again after it. -/
def Parts (settings : Settings) (pre : List (Host × Action)) (step : Host × Action)
    (rest : List (Host × Action)) (path : Path) : Prop :=
  (run settings pre).documents.isOpen path = true ∧
    ∀ between, between <+: rest →
      (run settings (pre ++ step :: between)).documents.isOpen path = false

/-- When its document was closed for good, the project had `path` as a root exactly if its manifest
names it. -/
def PartsWell (settings : Settings) (host : Host) (steps : List (Host × Action)) (x : ProjectId)
    (mandate : Mandate) (path : Path) : Prop :=
  ∀ pre step rest, steps = pre ++ step :: rest → Parts settings pre step rest path →
    (run settings pre).mandate? x ≠ none →
    ((run settings pre).hasRoot path x = true ↔ path ∈ mandate.named host settings)

/-- A step after which the document is closed, and was closed before, parts nothing. -/
theorem partsWell_concat_of_closed (hclosed : (run settings steps).documents.isOpen path = false)
    (hstill : (run settings (steps ++ [step])).documents.isOpen path = false) :
    PartsWell settings host (steps ++ [step]) x mandate path ↔
      PartsWell settings host steps x mandate path := by
  constructor
  · rintro h pre first rest rfl hparts
    refine h pre first (rest ++ [step]) (by simp) ⟨hparts.1, fun between hbetween => ?_⟩
    rcases List.prefix_concat_iff.1 hbetween with rfl | hbetween
    · simpa using hstill
    · exact hparts.2 between hbetween
  · intro h pre first rest hsplit hparts
    cases rest using List.reverseRecOn with
    | nil =>
      -- the step itself would close the document
      obtain ⟨rfl, -⟩ := List.append_inj' hsplit rfl
      rw [hparts.1] at hclosed
      cases hclosed
    | append_singleton rest last =>
      have hsplit : steps ++ [step] = (pre ++ first :: rest) ++ [last] := by simpa using hsplit
      obtain ⟨rfl, -⟩ := List.append_inj' hsplit rfl
      exact h pre first rest rfl ⟨hparts.1, fun between hbetween =>
        hparts.2 between (hbetween.trans (List.prefix_append rest [last]))⟩

/-- The step that closes the document for good. -/
theorem partsWell_concat_of_open (hopen : (run settings steps).documents.isOpen path = true)
    (hclosed : (run settings (steps ++ [step])).documents.isOpen path = false)
    (hx : (run settings steps).mandate? x ≠ none) :
    PartsWell settings host (steps ++ [step]) x mandate path ↔
      ((run settings steps).hasRoot path x = true ↔ path ∈ mandate.named host settings) := by
  constructor
  · intro h
    refine h steps step [] rfl ⟨hopen, fun between hbetween => ?_⟩ hx
    rw [List.prefix_nil.1 hbetween]
    exact hclosed
  · intro hwell pre first rest hsplit hparts _
    cases rest using List.reverseRecOn with
    | nil =>
      obtain ⟨rfl, -⟩ := List.append_inj' hsplit rfl
      exact hwell
    | append_singleton rest last =>
      -- the document would be closed before the last step
      have hsplit : steps ++ [step] = (pre ++ first :: rest) ++ [last] := by simpa using hsplit
      obtain ⟨rfl, -⟩ := List.append_inj' hsplit rfl
      rw [hparts.2 rest (List.prefix_append rest [last])] at hopen
      cases hopen

/-- A closed root is as it was when its document was closed for good. -/
theorem hasRoot_iff_partsWell (hsteps : Unvarying host steps)
    (hx : (run settings steps).mandate? x = some mandate)
    (hclosed : (run settings steps).documents.isOpen path = false) :
    ((run settings steps).hasRoot path x = true ↔ path ∈ mandate.named host settings) ↔
      PartsWell settings host steps x mandate path := by
  induction steps using List.reverseRecOn with
  | nil => cases hx
  | append_singleton steps step ih =>
    have habreast : Abreast (run settings steps) := hsteps.init.abreast
    have hadheres := hsteps.adheres_concat habreast
    cases hbefore : (run settings steps).mandate? x with
    | none =>
      have hnamed := hadheres.new x mandate path hbefore hx hclosed
      rw [run_settings] at hnamed
      refine iff_of_true hnamed fun pre first rest hsplit _ hlive => ?_
      -- a project that starts with this step was not there before
      obtain ⟨old, hold⟩ := Option.ne_none_iff_exists'.1 hlive
      have hpre : pre <+: steps := by
        cases rest using List.reverseRecOn with
        | nil => exact (List.append_inj' hsplit rfl).1 ▸ List.prefix_rfl
        | append_singleton rest last =>
          have hsplit : steps ++ [step] = (pre ++ first :: rest) ++ [last] := by
            simpa using hsplit
          exact ⟨first :: rest, (List.append_inj' hsplit rfl).1.symm⟩
      rw [hsteps.init.mandate? hpre hold] at hbefore
      cases hbefore
    | some mandate' =>
      have hstays : (run settings steps).mandate? x ≠ none := by
        rw [hbefore]
        exact nofun
      rw [hadheres.kept x mandate' hbefore] at hx
      cases hx
      rw [hadheres.old x path hstays hclosed]
      cases hopen : (run settings steps).documents.isOpen path with
      | true => exact (partsWell_concat_of_open hopen hclosed hstays).symm
      | false =>
        exact (ih hsteps.init hbefore hopen).trans (partsWell_concat_of_closed hopen hclosed).symm

theorem Unvarying.refreshAll (hsteps : Unvarying host steps) :
    Unvarying host (steps ++ [(host, .refreshAll)]) := by
  intro step hstep
  rcases List.mem_append.1 hstep with hstep | hstep
  · exact hsteps step hstep
  · rw [List.mem_singleton.1 hstep]
    exact ⟨rfl, trivial⟩

theorem isOpen_refreshAll (w : Workspace) (host : Host) (path : Path) :
    (w.refreshAll host).2.documents.isOpen path = w.documents.isOpen path :=
  (refreshEach_inquiries none host w _).moves.isOpen path

/-- Bringing all projects up to date parts nothing. -/
theorem hasRoot_refreshAll_iff (hsteps : Unvarying host steps)
    (hx : ((run settings steps).refreshAll host).2.mandate? x = some mandate)
    (hclosed : (run settings steps).documents.isOpen path = false) :
    (((run settings steps).refreshAll host).2.hasRoot path x = true ↔
      path ∈ mandate.named host settings) ↔ PartsWell settings host steps x mandate path := by
  have hfinal : run settings (steps ++ [(host, .refreshAll)]) =
      ((run settings steps).refreshAll host).2 := run_concat settings steps _
  have hstill := (isOpen_refreshAll (run settings steps) host path).trans hclosed
  rw [← hfinal] at hx hstill ⊢
  exact (hasRoot_iff_partsWell hsteps.refreshAll hx hstill).trans
    (partsWell_concat_of_closed hclosed hstill)

/-- The manifest of `/p` names two files, and the host has the first one only. -/
def promising : Memory :=
  (Memory.empty.addFile ((Path.mk .slash []).join "p/tsconfig.json")
    "\x7b\"files\":[\"a.ts\",\"x.ts\"]\x7d").addFile ((Path.mk .slash []).join "p/a.ts") ""

/-- The first file is opened; then an editor opens the second one, which it has not stored, and
closes it again. -/
def promised : List (Host × Action) :=
  [⟨1, "open", .obj [("file", .str "/p/a.ts")]⟩,
    ⟨2, "open", .obj [("file", .str "/p/x.ts"), ("fileContent", .str "")]⟩,
    ⟨3, "close", .obj [("file", .str "/p/x.ts")]⟩].map fun request =>
      (unlistedHost promising, .request .echo request)

/-- **The closed roots of a configured project follow its manifest until a document is closed that
does not.**  In a run on a host that stays as it is and reports nothing, bring every project up to
date at the end.  Then a configured project whose manifest is loaded has, of the paths that are not
open, exactly those as roots that the manifest names, if and only if this was so of each document at
the moment when it was closed for good, with the project being there. -/
theorem closed_roots_follow_manifest_iff (settings : Settings) (host : Host)
    (steps : List (Host × Action)) (hsteps : Unvarying host steps) (x : ProjectId) (p : Project)
    (manifest : Manifest) (hlive : ((run settings steps).refreshAll host).2.project? x = some p)
    (hloaded : p.manifest? = some manifest) :
    (∀ path, ((run settings steps).refreshAll host).2.documents.isOpen path = false →
      (p.hasRoot path = true ↔
        path ∈ manifest.roots host settings.manifestFileNames settings.resolution.extensions)) ↔
    ∀ pre step rest path, steps = pre ++ step :: rest → Parts settings pre step rest path →
      ∀ before, (run settings pre).project? x = some before → before.manifest? = some manifest →
        (before.hasRoot path = true ↔
          path ∈ manifest.roots host settings.manifestFileNames
            settings.resolution.extensions) := by
  obtain ⟨mandate, hmandate, hstate⟩ := Project.manifest?_eq_some.1 hloaded
  have hx : ((run settings steps).refreshAll host).2.mandate? x = some mandate :=
    (mandate?_of_live hlive).trans hmandate
  have hnamed : mandate.named host settings =
      manifest.roots host settings.manifestFileNames settings.resolution.extensions := by
    unfold Mandate.named
    rw [hstate]
    rfl
  have hroot : ∀ path, (run settings steps).documents.isOpen path = false →
      ((p.hasRoot path = true ↔ path ∈ mandate.named host settings) ↔
        PartsWell settings host steps x mandate path) := fun path hclosed => by
    rw [← hasRoot_of_live hlive]
    exact hasRoot_refreshAll_iff hsteps hx hclosed
  rw [← hnamed]
  simp only [isOpen_refreshAll]
  constructor
  · rintro h pre step rest path rfl hparts before hbefore hmanifest
    have hclosed := hparts.2 rest List.prefix_rfl
    obtain ⟨own, hown, -⟩ := Project.manifest?_eq_some.1 hmanifest
    rw [← hasRoot_of_live hbefore]
    refine (hroot path hclosed).1 (h path hclosed) pre step rest rfl hparts ?_
    rw [mandate?_of_live hbefore, hown]
    exact nofun
  · intro h path hclosed
    refine (hroot path hclosed).2 fun pre step rest hsplit hparts hthere => ?_
    obtain ⟨own, hown⟩ := Option.ne_none_iff_exists'.1 hthere
    obtain ⟨before, hbefore, hproject⟩ := mandate?_eq_some.1 hown
    have hpre : pre <+: steps ++ [(host, .refreshAll)] :=
      ⟨step :: rest ++ [(host, .refreshAll)], by simp [hsplit]⟩
    -- a configured project keeps its manifest
    have hsame := hsteps.refreshAll.mandate? hpre hown
    rw [run_concat] at hsame
    cases hx.symm.trans hsame
    rw [hasRoot_of_live hbefore]
    exact h pre step rest path hsplit hparts before hbefore
      (Project.manifest?_eq_some.2 ⟨mandate, hproject, hstate⟩)

/-- The second file is stored after all, and the manifest names it. -/
def keeping : Memory := promising.addFile ((Path.mk .slash []).join "p/x.ts") ""

/-- The same requests as above. -/
def keptPromise : List (Host × Action) :=
  promised.map fun step => (unlistedHost keeping, step.2)

theorem closed_roots_follow_manifest_iff_keeping :
    let w := ((run .default keptPromise).refreshAll (unlistedHost keeping)).2
    Unvarying (unlistedHost keeping) keptPromise ∧
      w.documents.isOpen ((Path.mk .slash []).join "p/x.ts") = false ∧
      w.hasRoot ((Path.mk .slash []).join "p/x.ts") ⟨1⟩ = true ∧
      ∃ p manifest, w.project? ⟨1⟩ = some p ∧ p.manifest? = some manifest ∧
        ((∀ path, w.documents.isOpen path = false → (p.hasRoot path = true ↔
            path ∈ manifest.roots (unlistedHost keeping) Settings.default.manifestFileNames
              Settings.default.resolution.extensions)) ↔
          ∀ pre step rest path, keptPromise = pre ++ step :: rest →
            Parts .default pre step rest path →
            ∀ before, (run .default pre).project? ⟨1⟩ = some before →
              before.manifest? = some manifest →
              (before.hasRoot path = true ↔
                path ∈ manifest.roots (unlistedHost keeping) Settings.default.manifestFileNames
                  Settings.default.resolution.extensions)) := by
  intro w
  have hsteps : Unvarying (unlistedHost keeping) keptPromise := by
    simp [keptPromise, promised, Unvarying, Action.Unreported]
  have hstate : w.documents.isOpen ((Path.mk .slash []).join "p/x.ts") = false ∧
      w.hasRoot ((Path.mk .slash []).join "p/x.ts") ⟨1⟩ = true ∧
      ((w.project? ⟨1⟩).bind Project.manifest?).isSome = true := by
    decide +kernel
  obtain ⟨hclosed, hroot, hloaded⟩ := hstate
  obtain ⟨manifest, hmanifest⟩ := Option.isSome_iff_exists.1 hloaded
  obtain ⟨p, hp, hloaded⟩ := Option.bind_eq_some_iff.1 hmanifest
  exact ⟨hsteps, hclosed, hroot, p, manifest, hp, hloaded,
    closed_roots_follow_manifest_iff .default (unlistedHost keeping) keptPromise hsteps ⟨1⟩ p
      manifest hp hloaded⟩

/-- **A closed root need not be one that the manifest names.**  The manifest covers the document, so
the project takes it when it is opened; the host never had the file, and closing leaves the root. -/
theorem closed_root_is_not_named :
    let w := ((run .default promised).refreshAll (unlistedHost promising)).2
    let path := (Path.mk .slash []).join "p/x.ts"
    Unvarying (unlistedHost promising) promised ∧
      w.documents.isOpen path = false ∧
      ∃ p ∈ w.project? ⟨1⟩, ∃ manifest ∈ p.manifest?, p.hasRoot path = true ∧
        path ∉ manifest.roots (unlistedHost promising) Settings.default.manifestFileNames
          Settings.default.resolution.extensions := by
  refine ⟨?_, by decide +kernel⟩
  simp [promised, Unvarying, Action.Unreported]

end Codebase.Workspace
