import Codebase.Proofs.Workspace.Adherence
import Codebase.Proofs.Workspace.Appointment
import Codebase.Proofs.Workspace.Effect
import Codebase.Proofs.Workspace.Home
/-!
# Requests that open documents

A request opens a document and rebuilds its project.  Between such requests every open document has
one home, no manifest is to be read, and the closed roots of the configured projects are those that
their manifests name.  So a request either gives the document to the oldest project whose manifest
names it, and changes nothing else; or it assigns the document:

* `AtRest` — what holds between the requests.
* `rootKind_request_held`, `rootKind_request_free` — the roots after a request.
* `AtRest.request` — a request keeps what holds.
-/

namespace Codebase.Workspace

variable {host : Host} {w w' : Workspace} {id x : ProjectId} {path q : Path} {content : String}
  {spare : Option Path}

/-- No project is auxiliary. -/
def Unassisted (w : Workspace) : Prop := ∀ q x, w.rootKind q x ≠ some .auxiliary

/-- Opening a document changes no roots before the document is given to a project. -/
theorem rootKind_opening (h : Unassisted w) (path : Path) (opened : Documents.Opened)
    (documents : Documents) (q : Path) (x : ProjectId) :
    (w.opening path opened documents).rootKind q x = w.rootKind q x :=
  Option.ext fun kind => (rootKind_opening_eq_some w path opened documents q x kind).trans
    (and_iff_left_of_imp fun hroot _ heq => h q x (by rw [hroot, heq]))

theorem Unassisted.holds_iff (h : Unassisted w) : w.Holds path x ↔ w.hasRoot path x = true := by
  rw [holds_iff_rootKind, hasRoot_eq_isSome, Option.isSome_iff_exists]
  exact ⟨fun ⟨kind, _, hroot⟩ => ⟨kind, hroot⟩,
    fun ⟨kind, hroot⟩ => ⟨kind, fun heq => h path x (by rw [hroot, heq]), hroot⟩⟩

/-! ## Rebuilding -/

theorem rootKind_refresh_self (h : Consistent w) (habreast : Abreast w) (host : Host)
    (id : ProjectId) (q : Path) :
    (w.refresh host id).2.rootKind q id = w.rootKind q id := by
  cases hlive : w.project? id with
  | none => rw [refresh_of_none host hlive]
  | some p =>
    obtain ⟨p', hp', -, hbuilt⟩ := refresh_self host hlive
    have hkind : p'.kind = p.kind := by
      rcases hbuilt with rfl | ⟨build, hbuilt⟩
      · rfl
      · exact (Project.rebuilt_of_refresh? hbuilt).2.kind
    have hroot : p'.hasRoot q = p.hasRoot q := by
      rw [← hasRoot_of_live hp', ← hasRoot_of_live hlive, Bool.eq_iff_iff, hasRoot_refresh_self h,
        retains_of_abreast habreast]
    rw [rootKind_of_live hp', rootKind_of_live hlive, hkind, hroot]

/-- A rebuild that reads no manifest leaves the roots as they are, except of the spare document. -/
theorem rootKind_refresh (h : Owned spare w) (habreast : Abreast w) (host : Host) (id : ProjectId)
    (hspare : some q ≠ spare) (x : ProjectId) :
    (w.refresh host id).2.rootKind q x = w.rootKind q x := by
  by_cases hx : x = id
  · rw [hx]
    exact rootKind_refresh_self h.consistent habreast host id q
  by_cases htake : w.Takeover host id q
  · -- the project has the document already, and nobody else does
    obtain ⟨holder, kind, -, hheld⟩ := h.single q htake.1 hspare
    have hroot := (retains_of_abreast habreast).1 htake.2.1
    rw [(hheld.home) id] at hroot
    rw [(rootKind_refresh_other h.consistent host hx q).1 htake, hheld x, if_neg]
    exact fun heq => hx (heq.trans hroot.symm)
  · exact (rootKind_refresh_other h.consistent host hx q).2 htake

theorem Owned.weaken (h : Owned none w) : Owned spare w :=
  ⟨h.consistent, fun q hopen _ => h.single q hopen nofun, h.inferred⟩

/-- When a document is opened it may be spare, and nothing else is. -/
theorem openFile_spare (h : Owned none w) (hok : w.openFile host path content = (.ok id, w')) :
    Owned (some path) w' :=
  (openFile_owned h hok).elim Owned.weaken And.left

/-! ## Requests -/

/-- What holds between requests that open documents. -/
structure AtRest (host : Host) (w : Workspace) : Prop where
  owned : Owned none w
  ordered : Ordered w
  listing : Ownership.Listing w.ownership.owners
  abreast : Abreast w
  upToDate : UpToDate w host
  unassisted : Unassisted w
  named : ∀ x mandate q, w.mandate? x = some mandate → w.documents.isOpen q = false →
    (w.hasRoot q x = true ↔ q ∈ mandate.named host w.settings)
  /-- What is closed takes any text. -/
  early : ∀ q document, w.documents.get? q = some document → w.documents.isOpen q = false →
    document.version < Document.versionLimit

theorem atRest_new (settings : Settings) (host : Host) : AtRest host (new settings) where
  owned := owned_new settings
  ordered := run_ordered_projects settings []
  listing := (run_anchored settings []).listing
  abreast := abreast_new settings
  upToDate := upToDate_new settings host
  unassisted _ _ h := by cases h
  named _ _ _ h := by cases h
  early _ _ h := by cases h

/-- A closed root is a root of configured projects alone. -/
theorem AtRest.mandate?_ne_none (h : AtRest host w) (hclosed : w.documents.isOpen q = false)
    (hroot : w.hasRoot q x = true) : w.mandate? x ≠ none := by
  rw [hasRoot_eq_isSome] at hroot
  obtain ⟨kind, hkind⟩ := Option.isSome_iff_exists.1 hroot
  obtain ⟨p, hp, -, rfl⟩ := rootKind_eq_some.1 hkind
  rw [mandate?_of_live hp, Ne, Project.mandate?_eq_none_iff, not_not]
  cases hk : p.kind with
  | configured => rfl
  | inferred =>
    have hopen := h.owned.inferred q x (by rw [hkind, hk])
    rw [hclosed] at hopen
    cases hopen
  | auxiliary => exact absurd (by rw [hkind, hk]) (h.unassisted q x)

/-- **A document that some manifests name goes to the oldest of their projects**, and no other root
changes hands. -/
theorem rootKind_request_held (h : AtRest host w) (hclosed : w.documents.isOpen path = false)
    (hheld : w.hasRoot path x = true) (hok : w.openFile host path content = (.ok id, w')) :
    (w.hasRoot path id = true ∧ ∀ y, w.hasRoot path y = true → id.number ≤ y.number) ∧
      (∀ y, (w'.refresh host id).2.mandate? y = w.mandate? y) ∧
      ∀ q y, (w'.refresh host id).2.rootKind q y =
        if q = path then if y = id then some .configured else none else w.rootKind q y := by
  have hconsistent := h.owned.consistent
  have hadheres := openFile_adheres hconsistent host path content
  have howned' := openFile_spare h.owned hok
  rw [hok] at hadheres
  have habreast := hadheres.abreast h.abreast
  obtain ⟨⟨hholds, holdest⟩, hdirty, hroots, hmandate⟩ :=
    openFile_held hconsistent h.listing (h.unassisted.holds_iff.2 hheld) hok
  simp only [h.unassisted.holds_iff] at hholds holdest hroots
  refine ⟨⟨hholds, holdest⟩, fun y => ?_, fun q y => ?_⟩
  · rw [mandate?_refresh host fun _ => habreast id, hmandate]
  · obtain ⟨opened, documents, -, -, rfl⟩ :=
      openFile_of_held hconsistent (h.unassisted.holds_iff.2 hheld) hok
    have hsame : ∀ q y, ((w.opening path opened documents).modifyProject id
        Project.touch).rootKind q y = w.rootKind q y := fun q y => by
      rw [rootKind_touch, rootKind_opening h.unassisted]
    split
    · rename_i hq
      subst hq
      have hconfigured := h.mandate?_ne_none hclosed hholds
      split
      · rename_i hy
        rw [hasRoot_eq_isSome] at hholds
        obtain ⟨kind, hkind⟩ := Option.isSome_iff_exists.1 hholds
        rw [hy, rootKind_refresh_self howned'.consistent habreast, hsame, hkind,
          rootKind_of_mandate? hconfigured hkind]
      · rename_i hy
        -- the rebuild takes the document from the other projects
        obtain ⟨p, hp, hpdirty⟩ := hdirty
        rw [← hmandate] at hconfigured
        have htake : Takeover _ host id q := ⟨(isOpen_openFile hok).1,
          (retains_of_abreast habreast).2 ((hroots id).2 hholds), p, hp,
          kind_of_mandate? hconfigured hp, hpdirty⟩
        exact (rootKind_refresh_other howned'.consistent host hy q).1 htake
    · rename_i hq
      rw [rootKind_refresh howned' habreast host id fun heq => hq (Option.some.inj heq), hsame]

/-- Of a root, the kind and the mandate tell the charter. -/
theorem charter?_of_root {charter : Charter} {kind : ProjectKind}
    (hroot : w'.rootKind q x = w.rootKind q x) (hmandate : w'.mandate? x = w.mandate? x)
    (hhas : w.rootKind q x = some kind) (hx : w.charter? x = some charter) :
    w'.charter? x = some charter := by
  rw [rootKind_of_charter? hx hhas] at hhas
  by_cases hkind : charter.kind = .configured
  · obtain ⟨p, hp, rfl⟩ := charter?_eq_some.1 hx
    obtain ⟨mandate, hsome⟩ := Option.ne_none_iff_exists'.1
      (mt Project.mandate?_eq_none_iff.1 (not_not.2 ((Project.kind_eq p).trans hkind)))
    rw [(Project.charter_of_mandate? hsome).1]
    exact charter?_of_mandate? (hmandate.trans ((mandate?_of_live hp).trans hsome))
  · exact charter?_of_rootKind charter hkind (hroot.trans hhas)

/-- **A document that no manifest names is assigned**, and a project that starts for it takes what
its manifest names. -/
theorem rootKind_request_free (h : AtRest host w)
    (hfree : ∀ x, w.hasRoot path x = false) (hok : w.openFile host path content = (.ok id, w')) :
    (w'.refresh host id).2.charter? id = some (w.patron host path) ∧
      ∃ new, (∀ x p, w.project? x = some p → x.number < new.number) ∧
        (∀ y, (w'.refresh host id).2.mandate? y =
          if y = new then w.commission? host path else w.mandate? y) ∧
        ∀ q y, (w'.refresh host id).2.rootKind q y =
          if q = path then if y = id then some (w.patron host path).kind else none
          else if q ∈ w.granted host path then
            if y = new then some .configured
            else if w.documents.isOpen q = true then none else w.rootKind q y
          else w.rootKind q y := by
  have hconsistent := h.owned.consistent
  have hadheres := openFile_adheres hconsistent host path content
  rw [hok] at hadheres
  have habreast := hadheres.abreast h.abreast
  obtain ⟨opened, documents, hopened, hnone, hassigned⟩ := openFile_of_free hfree hok
  have hopening : Consistent (w.opening path opened documents) :=
    opening_consistent hconsistent opened documents
  have hmoves : Moves host { w with documents } (w.opening path opened documents) :=
    opening_moves w path opened documents
  have hroots := rootKind_assign hopening host path
  have hcharter := charter?_assign hopening host path
  have hmandate := mandate?_assign hopening host path
  have howned := assign_owned (opening_owned h.owned hopened) host (isOpen_opening hopened)
    (free_opening hconsistent hnone)
  obtain ⟨⟨kind, -, hheld⟩, -⟩ := assign_spec hopening host (isOpen_opening hopened)
    (free_opening hconsistent hnone)
  rw [hassigned] at hroots hcharter hmandate howned hheld
  rw [patron_opening hconsistent h.ordered] at hcharter
  have hself : ∀ q y, (w'.refresh host id).2.rootKind q y = w'.rootKind q y := fun q y =>
    rootKind_refresh howned habreast host id (by exact nofun) y
  have hsame : ∀ y, (w'.refresh host id).2.mandate? y = w'.mandate? y := fun y =>
    mandate?_refresh host fun _ => habreast id
  have hpath : w'.rootKind path id = some (w.patron host path).kind := by
    rw [hroots, if_pos ⟨rfl, rfl⟩, patron_opening hconsistent h.ordered]
  have hkind := hheld.rootKind_self.symm.trans hpath
  refine ⟨charter?_of_root (hself path id) (hsame id) hpath hcharter,
    (w.opening path opened documents).nextId, fun x p hp => ?_, fun y => ?_, fun q y => ?_⟩
  · exact Nat.lt_succ_of_le (Nat.le_trans (hconsistent.numbered x p hp) hmoves.lastNumber)
  · rw [hsame, hmandate, commission?_opening hconsistent h.ordered, mandate?_opening]
  · rw [hself]
    split
    · rename_i hq
      rw [hq, hheld, hkind]
    · rename_i hq
      have hgranted : (w.opening path opened documents).granted host path =
          w.granted host path := by
        unfold granted
        rw [commission?_opening hconsistent h.ordered, opening_settings]
      have hopen : (w.opening path opened documents).documents.isOpen q =
          w.documents.isOpen q :=
        (hmoves.isOpen q).trans (Documents.isOpen_congr ((Documents.of_open hopened).1 q hq))
      rw [hroots, if_neg fun heq => hq heq.2, hgranted, hopen, rootKind_opening h.unassisted]

/-! ## What a request keeps -/

theorem kind_patron_ne_auxiliary (h : Consistent w) (host : Host) (path : Path) :
    (w.patron host path).kind ≠ .auxiliary := by
  have htakes := taker_takes h host path
  generalize w.taker host path = taker at htakes
  cases htakes with
  | governed id _ hconfigured _ =>
    rw [hconfigured]
    exact nofun
  | started manifest hcharter _ =>
    rw [hcharter]
    exact nofun
  | unloadable manifestPath reason hcharter _ =>
    rw [hcharter]
    exact nofun
  | inferred hcharter _ =>
    rw [hcharter]
    exact nofun

/-- A document that is closed and not refused is opened. -/
theorem AtRest.opens (h : AtRest host w) (hclosed : w.documents.isOpen path = false)
    (content : String) : ∃ id, (w.openFile host path content).1 = .ok id := by
  cases hopened : w.documents.open path content with
  | ok result => exact openFile_of_open host hopened
  | error e =>
    obtain ⟨document, hget, -, hlimit⟩ := Documents.open_refuses_iff.1 ⟨e, hopened⟩
    exact absurd (h.early path document hget hclosed) (Nat.not_lt_of_le hlimit)

/-- What a request does to the documents: the one that it names is opened. -/
theorem request_moves (hok : w.openFile host path content = (.ok id, w')) :
    ∃ documents, Moves host { w with documents } (w'.refresh host id).2 ∧
      documents.isOpen path = true ∧ ∀ q, q ≠ path → documents.get? q = w.documents.get? q := by
  have hopens := openFile_opens host w path content
  rw [hok] at hopens
  cases hopens with
  | @held opened documents _ hopened hholder =>
    obtain ⟨hothers, hpath, -, -⟩ := Documents.of_open hopened
    exact ⟨documents, ((opening_moves w path opened documents).trans (Move.touch _ _).moves).trans
      (refresh_moves host _ id), hpath, hothers⟩
  | @assigned opened documents hopened hnone =>
    obtain ⟨hothers, hpath, -, -⟩ := Documents.of_open hopened
    exact ⟨documents, ((opening_moves w path opened documents).trans (assign_moves _ path)).trans
      (refresh_moves host _ _), hpath, hothers⟩

theorem isOpen_request (hok : w.openFile host path content = (.ok id, w')) (q : Path) :
    (w'.refresh host id).2.documents.isOpen q = true ↔
      q = path ∨ w.documents.isOpen q = true := by
  obtain ⟨documents, hmoves, hpath, hothers⟩ := request_moves hok
  have hsame : (w'.refresh host id).2.documents.isOpen q = documents.isOpen q := hmoves.isOpen q
  rw [hsame]
  by_cases hq : q = path
  · rw [hq]
    exact iff_of_true hpath (.inl rfl)
  · rw [Documents.isOpen_congr (hothers q hq), or_iff_right hq]

/-- The mandates after a request: those that were there, and that of a project which starts. -/
theorem AtRest.mandate?_request (h : AtRest host w) (hclosed : w.documents.isOpen path = false)
    (hok : w.openFile host path content = (.ok id, w')) {mandate : Mandate}
    (hx : (w'.refresh host id).2.mandate? x = some mandate) :
    w.mandate? x = some mandate ∨ w.commission? host path = some mandate := by
  by_cases hheld : ∃ y, w.hasRoot path y = true
  · obtain ⟨y, hy⟩ := hheld
    obtain ⟨-, hsame, -⟩ := rootKind_request_held h hclosed hy hok
    exact .inl ((hsame x).symm.trans hx)
  · have hfree : ∀ y, w.hasRoot path y = false := fun y =>
      Bool.eq_false_iff.2 fun hy => hheld ⟨y, hy⟩
    obtain ⟨-, new, -, hmandate, -⟩ := rootKind_request_free h hfree hok
    rw [hmandate] at hx
    split at hx
    · exact .inr hx
    · exact .inl hx

theorem AtRest.unassisted_request (h : AtRest host w) (hclosed : w.documents.isOpen path = false)
    (hok : w.openFile host path content = (.ok id, w')) :
    Unassisted (w'.refresh host id).2 := by
  intro q x
  by_cases hheld : ∃ y, w.hasRoot path y = true
  · obtain ⟨y, hy⟩ := hheld
    obtain ⟨-, -, hroots⟩ := rootKind_request_held h hclosed hy hok
    rw [hroots]
    split
    · split <;> exact nofun
    · exact h.unassisted q x
  · have hfree : ∀ y, w.hasRoot path y = false := fun y =>
      Bool.eq_false_iff.2 fun hy => hheld ⟨y, hy⟩
    obtain ⟨-, new, -, -, hroots⟩ := rootKind_request_free h hfree hok
    have hkind := kind_patron_ne_auxiliary h.owned.consistent host path
    rw [hroots]
    split
    · split
      · exact fun heq => hkind (Option.some.inj heq)
      · exact nofun
    · split
      · split
        · exact nofun
        · split
          · exact nofun
          · exact h.unassisted q x
      · exact h.unassisted q x

/-- **A request that opens a document keeps what holds between requests.** -/
theorem AtRest.request (h : AtRest host w)
    (hplain : ∀ name ∈ w.settings.manifestFileNames, Segment.Plain name)
    (hclosed : w.documents.isOpen path = false)
    (hok : w.openFile host path content = (.ok id, w')) : AtRest host (w'.refresh host id).2 := by
  have hconsistent := h.owned.consistent
  obtain ⟨documents, hmoves, -, hothers⟩ := request_moves hok
  have hsettings : (w'.refresh host id).2.settings = w.settings := hmoves.settings
  have hopen := isOpen_request hok
  have hstill : ∀ q, (w'.refresh host id).2.documents.isOpen q = false →
      q ≠ path ∧ w.documents.isOpen q = false := fun q hq => by
    rw [Bool.eq_false_iff, Ne, hopen, not_or] at hq
    exact ⟨hq.1, Bool.eq_false_iff.2 hq.2⟩
  have hadheres : Adheres host w (w'.refresh host id).2 := by
    have hopened := openFile_adheres hconsistent host path content
    rw [hok] at hopened
    exact hopened.trans (refresh_adheres (openFile_consistent hconsistent hok)
      (hopened.abreast h.abreast) host id) (refresh_moves host w' id).isOpen
  refine ⟨openFile_refresh_owned h.owned hok, hmoves.ordered (hconsistent.documents documents)
    h.ordered, hmoves.listing h.listing, hadheres.abreast h.abreast, fun x mandate hx => ?_,
    h.unassisted_request hclosed hok, fun x mandate q hx hq => ?_, fun q document hget hq => ?_⟩
  · rw [hsettings]
    rcases h.mandate?_request hclosed hok hx with hold | hnew
    · exact h.upToDate x mandate hold
    · exact (commission?_spec hplain hnew).1
  · rw [hsettings]
    cases hbefore : w.mandate? x with
    | none => exact hadheres.new x mandate q hbefore hx hq
    | some old =>
      rw [hadheres.kept x old hbefore] at hx
      cases hx
      rw [hadheres.old x q (by rw [hbefore]; exact nofun) hq]
      exact h.named x mandate q hbefore (hstill q hq).2
  · obtain ⟨hne, hbefore⟩ := hstill q hq
    rcases hmoves.document q with hsame | hnone | ⟨text, hnew⟩
    · exact h.early q document ((hothers q hne).symm.trans (hsame.symm.trans hget)) hbefore
    · rw [hnone] at hget
      cases hget
    · rw [hnew] at hget
      cases hget
      exact show 1 < Document.versionLimit by decide

end Codebase.Workspace
