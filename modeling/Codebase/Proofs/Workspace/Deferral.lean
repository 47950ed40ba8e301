import Codebase.Proofs.Workspace.Adherence
import Codebase.Proofs.Workspace.Effect
import Codebase.Proofs.Workspace.Home
import Mathlib.Data.List.Sort
/-!
# Rebuilding before and after opening

A report about a manifest is not acted on at once: the project is outdated, and reads its manifest
when it is rebuilt.  Opening a document asks the manifests as they were last read.  So a document
may find another home when the rebuilding that is pending is done first:

* `claimants` — the projects that come to name a path when all are brought up to date.
* `home_refreshEach` — an open document ends with the last of them.
* `hasRoot_refreshEach` — a closed path becomes a root of all of them, so opening it finds the
  first.
* `rebuilding_commutes_with_opening_iff` — when both orders give the document the same home.
* `rebuilding_first_finds_another_home` — they may not.
-/

namespace Codebase.Workspace

variable {host : Host} {w w' : Workspace} {id x : ProjectId} {path q : Path} {content : String}
  {charter : Charter} {ids : List ProjectId}

/-- The project reads its manifest before its next build, and names `path` then. -/
def reclaims (w : Workspace) (host : Host) (path : Path) (id : ProjectId) : Bool :=
  match (w.mandate? id).bind fun mandate => mandate.successor? host w.settings with
  | some manifest => path ∈ manifest.named host w.settings
  | none => false

/-- The dirty projects, in the order of their turns. -/
def dirtyIds (w : Workspace) : List ProjectId :=
  (w.projectList.filter Project.isDirty).map Project.id

/-- The projects that come to name `path` when all are brought up to date, in the order of their
turns. -/
def claimants (w : Workspace) (host : Host) (path : Path) : List ProjectId :=
  w.dirtyIds.filter (w.reclaims host path)

theorem refreshAll_eq (w : Workspace) (host : Host) :
    w.refreshAll host = w.refreshEach host w.dirtyIds := rfl

theorem reclaims_congr (hsettings : w'.settings = w.settings)
    (hmandate : w'.mandate? x = w.mandate? x) :
    w'.reclaims host path x = w.reclaims host path x := by
  unfold reclaims
  rw [hsettings, hmandate]

/-- Nothing is read again. -/
theorem not_reclaims_of_abreast (habreast : Abreast w) : w.reclaims host path x = false := by
  unfold reclaims
  cases hmandate : w.mandate? x with
  | none => rfl
  | some mandate =>
    unfold Mandate.successor?
    simp [habreast x mandate hmandate]

theorem retains_iff_of_live {p : Project} (hlive : w.project? id = some p) :
    w.KeepsRoot host id q ↔ p.Retains (w.context host) q := by
  unfold KeepsRoot
  rw [hlive]
  simp

theorem reclaims_of_live {p : Project} (hlive : w.project? id = some p) :
    w.reclaims host path id = true ↔ ∃ manifest, p.successor? (w.context host) = some manifest ∧
      path ∈ manifest.named host w.settings := by
  unfold reclaims
  rw [mandate?_of_live hlive]
  show (match p.successor? (w.context host) with
    | some manifest => decide (path ∈ manifest.named host w.settings)
    | none => false) = true ↔ _
  cases p.successor? (w.context host) <;> simp

/-- After its next build a project has those open roots that it has now, and what it reclaims. -/
theorem retains_of_open (hopen : w.documents.isOpen path = true) :
    w.KeepsRoot host id path ↔ w.reclaims host path id = true ∨ w.hasRoot path id = true := by
  cases hlive : w.project? id with
  | none =>
    unfold KeepsRoot reclaims Workspace.mandate? hasRoot
    rw [hlive]
    simp
  | some p =>
    rw [retains_iff_of_live hlive, reclaims_of_live hlive, hasRoot_of_live hlive]
    unfold Project.Retains
    cases p.successor? (w.context host) with
    | none => simp
    | some manifest =>
      simp only [Option.some.injEq, exists_eq_left']
      rw [show (w.context host).documents.isOpen path = true from hopen]
      simp
      rfl

/-- Of the roots that a project does not have it gets those that it reclaims. -/
theorem retains_of_free (hfree : w.hasRoot path id = false) :
    w.KeepsRoot host id path ↔ w.reclaims host path id = true := by
  cases hlive : w.project? id with
  | none =>
    unfold KeepsRoot reclaims Workspace.mandate?
    rw [hlive]
    simp
  | some p =>
    rw [hasRoot_of_live hlive] at hfree
    rw [retains_iff_of_live hlive, reclaims_of_live hlive]
    unfold Project.Retains
    cases p.successor? (w.context host) with
    | none => simp [hfree]
    | some manifest =>
      simp [hfree]
      rfl

/-- A project that is to read its manifest again is configured and dirty. -/
theorem live_of_reclaims (h : Consistent w) (hreclaims : w.reclaims host path id = true) :
    ∃ p, w.project? id = some p ∧ p.kind = .configured ∧ p.isDirty = true := by
  unfold reclaims at hreclaims
  split at hreclaims
  · rename_i manifest hsuccessor
    obtain ⟨mandate, hmandate, hsome⟩ := Option.bind_eq_some_iff.1 hsuccessor
    obtain ⟨p, hp, hpm⟩ := mandate?_eq_some.1 hmandate
    have hkind : p.kind = .configured := kind_of_mandate? (by rw [hmandate]; exact nofun) hp
    refine ⟨p, hp, hkind, by_contra fun hclean => ?_⟩
    -- a clean project has nothing to read
    obtain ⟨files, hsettled⟩ := (h.linked id p hp).settled (Bool.eq_false_iff.2 hclean)
    unfold Mandate.successor? at hsome
    rw [← (Project.charter_of_mandate? hpm).2, hsettled.isStale] at hsome
    cases hsome
  · cases hreclaims

theorem mem_dirtyIds (h : Consistent w) : x ∈ w.dirtyIds ↔ w.IsDirty x := mem_dirty_iff h

theorem mem_claimants (h : Consistent w) :
    x ∈ w.claimants host path ↔ w.reclaims host path x = true := by
  unfold claimants
  rw [List.mem_filter, and_iff_right_of_imp]
  intro hreclaims
  obtain ⟨p, hp, -, hdirty⟩ := live_of_reclaims h hreclaims
  exact (mem_dirtyIds h).2 ⟨p, hp, hdirty⟩

theorem dirtyIds_pairwise (h : Consistent w) (hordered : Ordered w) :
    w.dirtyIds.Pairwise fun a b => a.number < b.number := by
  unfold dirtyIds
  rw [List.pairwise_map]
  exact (hordered.pairwise h).sublist List.filter_sublist

theorem dirtyIds_nodup (h : Consistent w) (hordered : Ordered w) : w.dirtyIds.Nodup :=
  (dirtyIds_pairwise h hordered).imp fun hlt heq => absurd (heq ▸ hlt) (Nat.lt_irrefl _)

/-! ## Rebuilding one project after the other -/

theorem takeover_of_reclaims (h : Consistent w) (hopen : w.documents.isOpen path = true)
    (hreclaims : w.reclaims host path id = true) : w.Takeover host id path :=
  ⟨hopen, (retains_of_open hopen).2 (.inl hreclaims), live_of_reclaims h hreclaims⟩

theorem isOpen_refresh (w : Workspace) (host : Host) (id : ProjectId) (q : Path) :
    (w.refresh host id).2.documents.isOpen q = w.documents.isOpen q :=
  (refresh_moves host w id).isOpen q

/-- A rebuild leaves to the others what they reclaim. -/
theorem reclaims_refresh (hx : x ≠ id) :
    (w.refresh host id).2.reclaims host path x = w.reclaims host path x :=
  reclaims_congr (refresh_moves host w id).settings
    (mandate?_refresh host fun heq => absurd heq hx)

/-- The rebuild of a project that reclaims the document brings it home, any other one leaves it
where it is. -/
theorem home_refresh (h : Consistent w) (hopen : w.documents.isOpen path = true)
    (hhome : Home w path id) (x : ProjectId) :
    Home (w.refresh host x).2 path (if w.reclaims host path x = true then x else id) := by
  split
  · rename_i hreclaims
    exact home_of_takeover h (takeover_of_reclaims h hopen hreclaims)
  · rename_i hother
    refine hhome.refresh h ?_
    rw [retains_of_open hopen, or_iff_right hother]
    exact hhome x

/-- **An open document ends with the last project that reclaims it**, or stays where it is. -/
theorem home_refreshEach (h : Consistent w) (hopen : w.documents.isOpen path = true)
    (hhome : Home w path id) (hids : ids.Nodup) :
    Home (w.refreshEach host ids).2 path ((ids.filter (w.reclaims host path)).getLastD id) := by
  induction ids generalizing w id with
  | nil => exact hhome
  | cons first rest ih =>
    obtain ⟨hfirst, hrest⟩ := List.nodup_cons.1 hids
    have hsame : rest.filter ((w.refresh host first).2.reclaims host path) =
        rest.filter (w.reclaims host path) :=
      List.filter_congr fun x hx => reclaims_refresh fun heq => hfirst (heq ▸ hx)
    have hnext := ih (refresh_consistent h host first)
      ((isOpen_refresh w host first path).trans hopen) (home_refresh h hopen hhome first) hrest
    rw [refreshEach_cons]
    rw [hsame] at hnext
    by_cases hreclaims : w.reclaims host path first = true
    · rw [if_pos hreclaims] at hnext
      rw [List.filter_cons_of_pos hreclaims, List.getLastD_cons]
      exact hnext
    · rw [if_neg hreclaims] at hnext
      rw [List.filter_cons_of_neg hreclaims]
      exact hnext

/-- **A closed path becomes a root of all projects that reclaim it.** -/
theorem hasRoot_refreshEach (h : Consistent w) (hclosed : w.documents.isOpen path = false)
    (hids : ids.Nodup) (hfree : ∀ x ∈ ids, w.hasRoot path x = false) (x : ProjectId) :
    (w.refreshEach host ids).2.hasRoot path x = true ↔
      w.hasRoot path x = true ∨ x ∈ ids ∧ w.reclaims host path x = true := by
  induction ids generalizing w with
  | nil => simp [refreshEach]
  | cons first rest ih =>
    obtain ⟨hfirst, hrest⟩ := List.nodup_cons.1 hids
    rw [List.forall_mem_cons] at hfree
    -- a closed path is not taken from anybody
    have hother : ∀ x, x ≠ first →
        (w.refresh host first).2.hasRoot path x = w.hasRoot path x := fun x hx =>
      hasRoot_congr ((rootKind_refresh_other h host hx path).2 fun htake => by
        rw [htake.1] at hclosed
        cases hclosed)
    have hfree' : ∀ y ∈ rest, (w.refresh host first).2.hasRoot path y = false := fun y hy =>
      (hother y fun heq => hfirst (heq ▸ hy)).trans (hfree.2 y hy)
    rw [refreshEach_cons, ih (refresh_consistent h host first)
      ((isOpen_refresh w host first path).trans hclosed) hrest hfree', List.mem_cons]
    by_cases hx : x = first
    · subst hx
      rw [hasRoot_refresh_self h, retains_of_free hfree.1, hfree.1]
      simp [hfirst]
    · rw [hother x hx, reclaims_refresh hx, or_iff_right hx]

/-- A project has nothing to read when it has had its turn. -/
theorem mandate?_refreshEach (h : Consistent w) {mandate : Mandate}
    (hx : (w.refreshEach host ids).2.mandate? x = some mandate) :
    mandate.isStale = false ∨ x ∉ ids ∧ w.mandate? x = some mandate := by
  induction ids generalizing w with
  | nil => exact .inr ⟨List.not_mem_nil, hx⟩
  | cons first rest ih =>
    rw [refreshEach_cons] at hx
    rcases ih (refresh_consistent h host first) hx with hfresh | ⟨hrest, hbefore⟩
    · exact .inl hfresh
    · by_cases hfirst : x = first
      · subst hfirst
        left
        obtain ⟨p', hp', hpm⟩ := mandate?_eq_some.1 hbefore
        cases hlive : w.project? x with
        | none =>
          rw [project?_refresh_of_none h host hlive] at hp'
          cases hp'
        | some p =>
          obtain ⟨p'', hp'', hclean, -⟩ := refresh_self host hlive
          rw [hp'] at hp''
          cases hp''
          obtain ⟨files, hsettled⟩ :=
            ((refresh_consistent h host x).linked x p' hp').settled hclean
          rw [← (Project.charter_of_mandate? hpm).2]
          exact hsettled.isStale
      · rw [mandate?_refresh host fun heq => absurd heq hfirst] at hbefore
        exact .inr ⟨by simp [hfirst, hrest], hbefore⟩

/-- When all projects have been brought up to date, no manifest is to be read again. -/
theorem refreshAll_abreast (h : Consistent w) (host : Host) : Abreast (w.refreshAll host).2 := by
  intro x mandate hx
  rcases mandate?_refreshEach h hx with hfresh | ⟨hidle, hbefore⟩
  · exact hfresh
  · -- what had no turn was clean
    obtain ⟨p, hp, hpm⟩ := mandate?_eq_some.1 hbefore
    have hclean : p.isDirty = false := Bool.eq_false_iff.2 fun hdirty =>
      hidle ((mem_dirtyIds h).2 ⟨p, hp, hdirty⟩)
    obtain ⟨files, hsettled⟩ := (h.linked x p hp).settled hclean
    rw [← (Project.charter_of_mandate? hpm).2]
    exact hsettled.isStale

/-- A project keeps its charter while it is there. -/
theorem charter?_refreshEach (h : Consistent w) (host : Host) (ids : List ProjectId)
    (hx : w.charter? x = some charter)
    (hlive : (w.refreshEach host ids).2.project? x ≠ none) :
    (w.refreshEach host ids).2.charter? x = some charter := by
  have hinquiries := refreshEach_inquiries none host w ids
  obtain ⟨p', hp'⟩ := Option.ne_none_iff_exists'.1 hlive
  obtain ⟨p, hp, hcharter⟩ := charter?_eq_some.1 hx
  have hkind := (hinquiries.moves.kind (h.numbered x p hp) fun p₀ hp₀ => by
    rw [hp] at hp₀
    cases hp₀
    exact kind_of_charter? hp hx).2 p' hp'
  cases charter with
  | inferred => exact charter?_of_live .inferred nofun hp' hkind
  | auxiliary => exact charter?_of_live .auxiliary nofun hp' hkind
  | configured manifestPath =>
    have hchain : Transactions host .refreshAll (w, still) _ := hinquiries.transactions
    exact hchain.configured h hx nofun

theorem refreshEach_append (w : Workspace) (host : Host) (before after : List ProjectId) :
    (w.refreshEach host (before ++ after)).2 =
      ((w.refreshEach host before).2.refreshEach host after).2 := by
  induction before generalizing w with
  | nil => rfl
  | cons id before ih => rw [List.cons_append, refreshEach_cons, refreshEach_cons, ih]

theorem refreshEach_consistent (h : Consistent w) (host : Host) (ids : List ProjectId) :
    Consistent (w.refreshEach host ids).2 :=
  (refreshEach_inquiries none host w ids).moves.consistent h

theorem refreshEach_ordered (h : Consistent w) (hordered : Ordered w) (host : Host)
    (ids : List ProjectId) : Ordered (w.refreshEach host ids).2 :=
  (refreshEach_inquiries none host w ids).moves.ordered h hordered

/-- When nothing is to be read again, a document at home stays there. -/
theorem home_refreshEach_of_abreast (h : Consistent w) (habreast : Abreast w)
    (hopen : w.documents.isOpen path = true) (hhome : Home w path id) (hids : ids.Nodup) :
    Home (w.refreshEach host ids).2 path id := by
  have hnone : ids.filter (w.reclaims host path) = [] :=
    List.filter_eq_nil_iff.2 fun x _ => by simp [not_reclaims_of_abreast habreast]
  have hnext : Home (w.refreshEach host ids).2 path
      ((ids.filter (w.reclaims host path)).getLastD id) := home_refreshEach h hopen hhome hids
  rw [hnone] at hnext
  exact hnext

/-- Projects that do not have the document as a root, and read nothing, leave its roots alone. -/
theorem hasRoot_refreshEach_of_abreast (h : Consistent w) (habreast : Abreast w)
    (hfree : ∀ y ∈ ids, w.hasRoot path y = false) (x : ProjectId) :
    (w.refreshEach host ids).2.hasRoot path x = w.hasRoot path x := by
  induction ids generalizing w with
  | nil => rfl
  | cons first rest ih =>
    rw [List.forall_mem_cons] at hfree
    have hidle : ¬ w.KeepsRoot host first path := by
      rw [retains_of_free hfree.1, not_reclaims_of_abreast habreast]
      exact Bool.false_ne_true
    have hsame : ∀ x, (w.refresh host first).2.hasRoot path x = w.hasRoot path x := by
      intro x
      by_cases hx : x = first
      · rw [hx, hfree.1]
        exact Bool.eq_false_iff.2 fun hroot =>
          hidle ((hasRoot_refresh_self h host first path).1 hroot)
      · exact hasRoot_congr ((rootKind_refresh_other h host hx path).2 fun htake => hidle htake.2.1)
    rw [refreshEach_cons, ih (refresh_consistent h host first)
      ((refresh_adheres h habreast host first).abreast habreast)
      fun y hy => (hsame y).trans (hfree.2 y hy), hsame]

/-- A configured project that is dirty still is when others have had their turns. -/
theorem isDirty_refreshEach {manifestPath : Path} (h : Consistent w) (host : Host)
    (hid : id ∉ ids)
    (hcharter : w.charter? id = some (.configured manifestPath)) (hdirty : w.IsDirty id) :
    (w.refreshEach host ids).2.IsDirty id := by
  induction ids generalizing w with
  | nil => exact hdirty
  | cons first rest ih =>
    rw [List.mem_cons, not_or] at hid
    have hnext := charter?_refresh h host first id hcharter
    obtain ⟨p, hp, -⟩ := charter?_eq_some.1 hnext
    rw [refreshEach_cons]
    exact ih (refresh_consistent h host first) hid.2 hnext
      ((isDirty_refresh_iff h host hid.1 (Option.isSome_iff_exists.2 ⟨p, hp⟩)).2 (.inl hdirty))

/-- **Of the projects that have a document as a root, the oldest one keeps it**, if that one is
configured and dirty and no manifest is to be read again. -/
theorem home_of_oldest {manifestPath : Path} (h : Consistent w) (hordered : Ordered w)
    (habreast : Abreast w) (hopen : w.documents.isOpen path = true)
    (hcharter : w.charter? id = some (.configured manifestPath)) (hdirty : w.IsDirty id)
    (hroot : w.hasRoot path id = true)
    (holdest : ∀ x, w.hasRoot path x = true → id.number ≤ x.number) :
    Home (w.refreshAll host).2 path id := by
  obtain ⟨before, after, hsplit⟩ := List.append_of_mem ((mem_dirtyIds h).2 hdirty)
  have hpairwise := dirtyIds_pairwise h hordered
  rw [hsplit, List.pairwise_append, List.pairwise_cons] at hpairwise
  have hnodup := dirtyIds_nodup h hordered
  rw [hsplit, List.nodup_append, List.nodup_cons] at hnodup
  have hbefore : ∀ y ∈ before, y.number < id.number := fun y hy =>
    hpairwise.2.2 y hy id List.mem_cons_self
  have hfree : ∀ y ∈ before, w.hasRoot path y = false := fun y hy =>
    Bool.eq_false_iff.2 fun hy' => absurd (holdest y hy') (Nat.not_le_of_lt (hbefore y hy))
  have hid : id ∉ before := fun hmem => Nat.lt_irrefl _ (hbefore id hmem)
  rw [refreshAll_eq, hsplit, refreshEach_append, refreshEach_cons]
  have hinquiries := refreshEach_inquiries none host w before
  have hconsistent := refreshEach_consistent h host before
  have hstill := (hinquiries.moves.isOpen path).trans hopen
  have habreast' := (hinquiries.adheres h habreast).abreast habreast
  have htake : (w.refreshEach host before).2.Takeover host id path := by
    obtain ⟨p, hp, hpdirty⟩ := isDirty_refreshEach h host hid hcharter hdirty
    refine ⟨hstill, (retains_of_open hstill).2 (.inr ?_), p, hp, ?_, hpdirty⟩
    · exact (hasRoot_refreshEach_of_abreast h habreast hfree id).trans hroot
    · have hlive : (w.refreshEach host before).2.project? id ≠ none := by
        rw [hp]
        exact nofun
      exact kind_of_charter? hp (charter?_refreshEach h host before hcharter hlive)
  exact home_refreshEach_of_abreast (refresh_consistent hconsistent host id)
    ((refresh_adheres hconsistent habreast' host id).abreast habreast')
    ((isOpen_refresh _ host id path).trans hstill) (home_of_takeover hconsistent htake)
    hnodup.2.1.2

/-! ## Opening -/

/-- A document that can be opened still can be when all projects have been brought up to date. -/
theorem open_refreshAll {opened : Documents.Opened} {documents : Documents} (host : Host)
    (hopened : w.documents.open path content = .ok (opened, documents)) :
    ∃ opened documents,
      (w.refreshAll host).2.documents.open path content = .ok (opened, documents) := by
  have hmoves : Moves host w (w.refreshAll host).2 :=
    (refreshEach_inquiries none host w w.dirtyIds).moves
  cases hafter : (w.refreshAll host).2.documents.open path content with
  | ok result => exact ⟨_, _, rfl⟩
  | error e =>
    obtain ⟨document, hget, hdiffers, hlimit⟩ := Documents.open_refuses_iff.1 ⟨e, hafter⟩
    rcases hmoves.document path with hsame | hnone | ⟨text, hnew⟩
    · obtain ⟨e, hrefused⟩ := Documents.open_refuses_iff.2
        ⟨document, hsame.symm.trans hget, hdiffers, hlimit⟩
      rw [hopened] at hrefused
      cases hrefused
    · rw [hnone] at hget
      cases hget
    · rw [hnew] at hget
      cases hget
      exact absurd hlimit (show ¬ Document.versionLimit ≤ 1 by decide)

/-! ## Opening first -/

theorem reclaims_openFile (h : Consistent w) (hordered : Ordered w)
    (hfree : ∀ x, w.hasRoot path x = false)
    (hok : w.openFile host path content = (.ok id, w')) (q : Path) (x : ProjectId) :
    w'.reclaims host q x = w.reclaims host q x := by
  obtain ⟨-, -, new, hnew, hmandate⟩ := openFile_free h hordered hfree hok
  have hadheres := openFile_adheres h host path content
  rw [hok] at hadheres
  by_cases hx : x = new
  · have hnone : w.mandate? x = none := by
      cases hsome : w.mandate? x with
      | none => rfl
      | some mandate =>
        obtain ⟨p, hp, -⟩ := mandate?_eq_some.1 hsome
        exact absurd (hnew x p hp) (by rw [hx]; exact Nat.lt_irrefl _)
    unfold reclaims
    rw [hnone]
    cases hsome : w'.mandate? x with
    | none => rfl
    | some mandate =>
      unfold Mandate.successor?
      simp [hadheres.fresh x mandate hnone hsome]
  · exact reclaims_congr hadheres.settings ((hmandate x).trans (if_neg hx))

/-- Two increasing lists of projects with the same members are the same. -/
theorem eq_of_increasing {l l' : List ProjectId} (h : l.Pairwise fun a b => a.number < b.number)
    (h' : l'.Pairwise fun a b => a.number < b.number) (hmem : ∀ x, x ∈ l ↔ x ∈ l') : l = l' := by
  have hasymm : Std.Asymm fun a b : ProjectId => a.number < b.number :=
    ⟨fun _ _ => Nat.lt_asymm⟩
  exact h.eq_of_mem_iff h' hmem

theorem claimants_pairwise (h : Consistent w) (hordered : Ordered w) :
    (w.claimants host path).Pairwise fun a b => a.number < b.number :=
  (dirtyIds_pairwise h hordered).sublist List.filter_sublist

theorem claimants_openFile (h : Consistent w) (hordered : Ordered w)
    (hfree : ∀ x, w.hasRoot path x = false)
    (hok : w.openFile host path content = (.ok id, w')) :
    w'.claimants host path = w.claimants host path := by
  have h' := openFile_consistent h hok
  refine eq_of_increasing (claimants_pairwise h' (openFile_ordered h hordered hok))
    (claimants_pairwise h hordered) fun x => ?_
  rw [mem_claimants h', mem_claimants h, reclaims_openFile h hordered hfree hok]

theorem charter?_of_mem_claimants (h : Consistent w) (hx : x ∈ w.claimants host path) :
    ∃ manifestPath, w.charter? x = some (.configured manifestPath) := by
  obtain ⟨p, hp, hkind, -⟩ := live_of_reclaims h ((mem_claimants h).1 hx)
  obtain ⟨mandate, hmandate⟩ := Option.ne_none_iff_exists'.1
    (mt Project.mandate?_eq_none_iff.1 (not_not.2 hkind))
  exact ⟨_, charter?_of_mandate? ((mandate?_of_live hp).trans hmandate)⟩

/-- A configured project keeps its charter when a document is opened that nobody has as a root. -/
theorem charter?_openFile {manifestPath : Path} (h : Consistent w) (host : Host) (path : Path)
    (content : String) (hx : w.charter? x = some (.configured manifestPath)) :
    (w.openFile host path content).2.charter? x = some (.configured manifestPath) := by
  have hchain : Transactions host .refreshAll (w, still)
      ((w.openFile host path content).2, still) :=
    openFile_transactions h path content
  exact hchain.configured h hx nofun

/-- The charter that a document finds if it is opened first: the last project in turn that comes to
name it, or its patron. -/
def charterIfEarly? (w : Workspace) (host : Host) (path : Path) : Option Charter :=
  match w.claimants host path with
  | [] => some (w.patron host path)
  | first :: rest => w.charter? (rest.getLastD first)

/-- The charter that a document finds if all projects are brought up to date first: the first
project in turn that comes to name it, or its patron then. -/
def charterIfLate? (w : Workspace) (host : Host) (path : Path) : Option Charter :=
  match w.claimants host path with
  | [] => some ((w.refreshAll host).2.patron host path)
  | first :: _ => w.charter? first

/-- Opening a document before or after the pending rebuilds comes to the same: nobody comes to name
it in them, and its patron stays the same; or the first and the last project that come to name it
follow the same manifest. -/
def Commutes (w : Workspace) (host : Host) (path : Path) : Prop :=
  match w.claimants host path with
  | [] => (w.refreshAll host).2.patron host path = w.patron host path
  | first :: rest => w.charter? (rest.getLastD first) = w.charter? first

theorem commutes_iff :
    w.Commutes host path ↔ w.charterIfEarly? host path = w.charterIfLate? host path := by
  unfold Commutes charterIfEarly? charterIfLate?
  cases w.claimants host path with
  | nil => exact ⟨fun h => congrArg some h.symm, fun h => (Option.some.inj h).symm⟩
  | cons first rest => exact Iff.rfl

theorem Home.findsHome_refreshEach (hhome : Home (w.refreshEach host ids).2 path id)
    (h : Consistent w) (hcharter : w.charter? id = some charter) :
    FindsHome (w.refreshEach host ids).2 path charter :=
  ⟨id, hhome, charter?_refreshEach h host ids hcharter (live_of_hasRoot hhome.hasRoot)⟩

theorem early_findsHome (h : Consistent w) (hordered : Ordered w)
    (hfree : ∀ x, w.hasRoot path x = false)
    (hok : w.openFile host path content = (.ok id, w')) :
    ∃ charter, w.charterIfEarly? host path = some charter ∧
      FindsHome (w'.refreshAll host).2 path charter := by
  obtain ⟨hhome, hcharter, -⟩ := openFile_free h hordered hfree hok
  have h' := openFile_consistent h hok
  have hnodup := dirtyIds_nodup h' (openFile_ordered h hordered hok)
  have hlast : Home (w'.refreshAll host).2 path ((w'.claimants host path).getLastD id) :=
    home_refreshEach h' (isOpen_openFile hok).1 hhome hnodup
  rw [claimants_openFile h hordered hfree hok] at hlast
  unfold charterIfEarly?
  cases hclaimants : w.claimants host path with
  | nil =>
    rw [hclaimants] at hlast
    exact ⟨_, rfl, hlast.findsHome_refreshEach h' hcharter⟩
  | cons first rest =>
    rw [hclaimants, List.getLastD_cons] at hlast
    have hmem : rest.getLastD first ∈ w.claimants host path := by
      rw [hclaimants, List.getLastD_eq_getLast?]
      cases hlastOf : rest.getLast? with
      | none => exact List.mem_cons_self
      | some last => exact List.mem_cons_of_mem first (List.mem_of_getLast? hlastOf)
    obtain ⟨manifestPath, hbefore⟩ := charter?_of_mem_claimants h hmem
    have hafter := charter?_openFile h host path content hbefore
    rw [hok] at hafter
    exact ⟨_, hbefore, hlast.findsHome_refreshEach h' hafter⟩

/-- The oldest of the projects that come to name a path is the first in turn. -/
theorem eq_first_of_claimants {first : ProjectId} {rest : List ProjectId} (h : Consistent w)
    (hordered : Ordered w) (hclaimants : w.claimants host path = first :: rest)
    (hmem : id ∈ w.claimants host path) (holdest : id.number ≤ first.number) : id = first := by
  have hpairwise : (w.claimants host path).Pairwise fun a b => a.number < b.number :=
    claimants_pairwise h hordered
  rw [hclaimants, List.pairwise_cons] at hpairwise
  rw [hclaimants, List.mem_cons] at hmem
  exact hmem.resolve_right fun hrest => Nat.not_le_of_lt (hpairwise.1 id hrest) holdest

/-- When all projects have been brought up to date, those that come to name a closed path have it
as a root. -/
theorem hasRoot_refreshAll (h : Consistent w) (hordered : Ordered w) (host : Host)
    (hclosed : w.documents.isOpen path = false) (hfree : ∀ x, w.hasRoot path x = false)
    (x : ProjectId) :
    (w.refreshAll host).2.hasRoot path x = true ↔ x ∈ w.claimants host path := by
  rw [refreshAll_eq, hasRoot_refreshEach h hclosed (dirtyIds_nodup h hordered) fun x _ => hfree x,
    hfree]
  simp [claimants]

theorem late_findsHome (h : Consistent w) (hordered : Ordered w)
    (hlisting : Ownership.Listing w.ownership.owners)
    (hclosed : w.documents.isOpen path = false) (hfree : ∀ x, w.hasRoot path x = false)
    (hok : (w.refreshAll host).2.openFile host path content = (.ok id, w')) :
    ∃ charter, w.charterIfLate? host path = some charter ∧
      FindsHome (w'.refreshAll host).2 path charter := by
  have hlate : Consistent (w.refreshAll host).2 := refreshEach_consistent h host w.dirtyIds
  have hordered' : Ordered (w.refreshAll host).2 := refreshEach_ordered h hordered host w.dirtyIds
  have hmoves : Moves host w (w.refreshAll host).2 :=
    (refreshEach_inquiries none host w w.dirtyIds).moves
  have h' := openFile_consistent hlate hok
  have hopened := openFile_ordered hlate hordered' hok
  have hadheres := openFile_adheres hlate host path content
  rw [hok] at hadheres
  have habreast := hadheres.abreast (refreshAll_abreast h host)
  have hroots := hasRoot_refreshAll h hordered host hclosed hfree
  unfold charterIfLate?
  cases hclaimants : w.claimants host path with
  | nil =>
    have hstill : ∀ x, (w.refreshAll host).2.hasRoot path x = false := fun x =>
      Bool.eq_false_iff.2 fun hroot => by
        rw [hroots, hclaimants] at hroot
        cases hroot
    obtain ⟨hhome, hcharter, -⟩ := openFile_free hlate hordered' hstill hok
    have hkept : Home (w'.refreshAll host).2 path id :=
      home_refreshEach_of_abreast h' habreast (isOpen_openFile hok).1 hhome
        (dirtyIds_nodup h' hopened)
    exact ⟨_, rfl, hkept.findsHome_refreshEach h' hcharter⟩
  | cons first rest =>
    have hfirst : first ∈ w.claimants host path := by
      rw [hclaimants]
      exact List.mem_cons_self
    obtain ⟨manifestPath, hbefore⟩ := charter?_of_mem_claimants h hfirst
    have hcharter : (w.refreshAll host).2.charter? first = some (.configured manifestPath) :=
      charter?_refreshEach h host w.dirtyIds hbefore (live_of_hasRoot ((hroots first).2 hfirst))
    have hheld : (w.refreshAll host).2.Holds path first := by
      obtain ⟨p, hp, hpc⟩ := charter?_eq_some.1 hcharter
      refine ⟨p, hp, ?_, (hasRoot_of_live hp).symm.trans ((hroots first).2 hfirst)⟩
      rw [Project.kind_eq, hpc]
      exact nofun
    obtain ⟨⟨hid, holdest⟩, hdirty, hroots', -⟩ :=
      openFile_held hlate (hmoves.listing hlisting) hheld hok
    -- the holder that is found is the first in turn
    have hclaims : id ∈ w.claimants host path := by
      obtain ⟨p, hp, -, hroot⟩ := hid
      rw [← hroots, hasRoot_of_live hp]
      exact hroot
    have heq := eq_first_of_claimants h hordered hclaimants hclaims (holdest first hheld)
    subst heq
    have hafter := charter?_openFile hlate host path content hcharter
    rw [hok] at hafter
    have hhome : Home (w'.refreshAll host).2 path id :=
      home_of_oldest h' hopened habreast (isOpen_openFile hok).1 hafter hdirty
        ((hroots' id).2 hheld) fun x hx => holdest x ((hroots' x).1 hx)
    exact ⟨_, hbefore, hhome.findsHome_refreshEach h' hafter⟩

/-- Without a manifest to read, no mandate changes. -/
theorem mandate?_refreshEach_of_abreast (h : Consistent w) (habreast : Abreast w) (host : Host)
    (ids : List ProjectId) (x : ProjectId) :
    (w.refreshEach host ids).2.mandate? x = w.mandate? x := by
  induction ids generalizing w with
  | nil => rfl
  | cons first rest ih =>
    have hfresh : x = first → ∀ mandate, w.mandate? first = some mandate →
        mandate.isStale = false := fun _ => habreast first
    rw [refreshEach_cons, ih (refresh_consistent h host first)
      ((refresh_adheres h habreast host first).abreast habreast), mandate?_refresh host hfresh]

/-- Without a manifest to read, it does not matter when the projects are brought up to date. -/
theorem charterIfLate?_of_abreast (h : Consistent w) (hordered : Ordered w)
    (habreast : Abreast w) : w.charterIfLate? host path = w.charterIfEarly? host path := by
  have hnone : w.claimants host path = [] := List.filter_eq_nil_iff.2 fun x _ => by
    simp [not_reclaims_of_abreast habreast]
  have hmoves : Moves host w (w.refreshAll host).2 :=
    (refreshEach_inquiries none host w w.dirtyIds).moves
  unfold charterIfLate? charterIfEarly?
  rw [hnone]
  exact congrArg some (patron_congr h hordered (refreshEach_consistent h host w.dirtyIds)
    (refreshEach_ordered h hordered host w.dirtyIds) hmoves.settings
    (mandate?_refreshEach_of_abreast h habreast host w.dirtyIds) path)

theorem free_of_projectList (h : ∀ p ∈ w.projectList, p.hasRoot path = false) (id : ProjectId) :
    w.hasRoot path id = false := by
  cases hlive : w.project? id with
  | none =>
    unfold hasRoot
    rw [hlive]
    rfl
  | some p =>
    rw [hasRoot_of_live hlive]
    exact h p (mem_projectList.2 ⟨id, hlive⟩)

/-- **When opening a document commutes with the pending rebuilds.**  A document that is neither open
nor a root is opened and all projects are brought up to date; or they are brought up to date before
as well.  Either way the document has exactly one home, and both homes follow the same manifest
exactly if the rebuilds commute with opening.  They do when no project has a manifest to read. -/
theorem rebuilding_commutes_with_opening_iff (settings : Settings) (steps : List (Host × Action))
    (host : Host) (path : Path) (content : String)
    (hclosed : (run settings steps).documents.isOpen path = false)
    (hfree : ∀ id, (run settings steps).hasRoot path id = false)
    (hopens : ∃ id, ((run settings steps).openFile host path content).1 = .ok id) :
    let w := run settings steps
    let early := ((w.openFile host path content).2.refreshAll host).2
    let late := (((w.refreshAll host).2.openFile host path content).2.refreshAll host).2
    ∃ first second, FindsHome early path first ∧ FindsHome late path second ∧
      (first = second ↔ w.Commutes host path) ∧
      ((∀ x p, w.project? x = some p → p.isStale = false) → first = second) := by
  intro w
  have h : Consistent w := run_consistent settings steps
  have hordered : Ordered w := run_ordered_projects settings steps
  obtain ⟨id, hid⟩ := hopens
  have hok : w.openFile host path content = (.ok id, (w.openFile host path content).2) :=
    Prod.ext hid rfl
  obtain ⟨-, opened, documents, hopened⟩ := isOpen_openFile hok
  obtain ⟨opened', documents', hopened'⟩ := open_refreshAll host hopened
  obtain ⟨id', hid'⟩ := openFile_of_open host hopened'
  obtain ⟨first, hfirst, hearly⟩ := early_findsHome h hordered hfree hok
  obtain ⟨second, hsecond, hlate⟩ := late_findsHome h hordered
    (run_anchored settings steps).listing hclosed hfree (Prod.ext hid' rfl)
  have hsame : first = second ↔ w.charterIfEarly? host path = w.charterIfLate? host path := by
    rw [hfirst, hsecond, Option.some.injEq]
  refine ⟨first, second, hearly, hlate, hsame.trans commutes_iff.symm, fun hfresh => ?_⟩
  refine hsame.2 (charterIfLate?_of_abreast h hordered fun x mandate hmandate => ?_).symm
  obtain ⟨p, hp, hpm⟩ := mandate?_eq_some.1 hmandate
  exact (Project.charter_of_mandate? hpm).2.symm.trans (hfresh x p hp)

/-- The manifest of `/p` names the first file only. -/
def retracting : Memory :=
  promising.addFile ((Path.mk .slash []).join "p/tsconfig.json") "\x7b\"files\":[\"a.ts\"]\x7d"

/-- The first file is opened while the manifest names the second one as well; then the manifest is
changed. -/
def retracted : List (Host × Action) :=
  [(unlistedHost promising,
      .request .echo ⟨1, "open", .obj [("file", .str "/p/a.ts")]⟩),
    (unlistedHost retracting,
      .notice ⟨(Path.mk .slash []).join "p/tsconfig.json", .modified⟩)]

theorem rebuilding_commutes_with_opening_iff_retracted :
    let w := run .default retracted
    let host := unlistedHost retracting
    let path := (Path.mk .slash []).join "p/x.ts"
    w.documents.isOpen path = false ∧ (∀ id, w.hasRoot path id = false) ∧
      (∃ id, (w.openFile host path "").1 = .ok id) ∧
      ∃ first second, FindsHome ((w.openFile host path "").2.refreshAll host).2 path first ∧
        FindsHome (((w.refreshAll host).2.openFile host path "").2.refreshAll host).2 path second ∧
        (first = second ↔ w.Commutes host path) ∧
        ((∀ x p, w.project? x = some p → p.isStale = false) → first = second) := by
  intro w host path
  have hclosed : w.documents.isOpen path = false := by decide +kernel
  have hfree : ∀ id, w.hasRoot path id = false := free_of_projectList (by decide +kernel)
  have hopens : ∃ id, (w.openFile host path "").1 = .ok id := ⟨⟨1⟩, by decide +kernel⟩
  exact ⟨hclosed, hfree, hopens, rebuilding_commutes_with_opening_iff .default retracted host path
    "" hclosed hfree hopens⟩

/-- **Opening before and after a rebuild may find different homes.**  The manifest as it was read
covers the second file, the one that the rebuild reads does not: opened first, the document goes to
the configured project and stays there, opened afterwards, it goes to an inferred one. -/
theorem rebuilding_first_finds_another_home :
    let w := run .default retracted
    let host := unlistedHost retracting
    let path := (Path.mk .slash []).join "p/x.ts"
    w.documents.isOpen path = false ∧ (∀ id, w.hasRoot path id = false) ∧
      FindsHome ((w.openFile host path "").2.refreshAll host).2 path
        (.configured ((Path.mk .slash []).join "p/tsconfig.json")) ∧
      FindsHome (((w.refreshAll host).2.openFile host path "").2.refreshAll host).2 path
        .inferred := by
  intro w host path
  have h : Consistent w := run_consistent .default retracted
  have hordered : Ordered w := run_ordered_projects .default retracted
  have hclosed : w.documents.isOpen path = false := by decide +kernel
  have hfree : ∀ id, w.hasRoot path id = false := free_of_projectList (by decide +kernel)
  have hopens : (w.openFile host path "").1 = .ok ⟨1⟩ := by decide +kernel
  have hopens' : ((w.refreshAll host).2.openFile host path "").1 = .ok ⟨2⟩ := by decide +kernel
  obtain ⟨first, hfirst, hearly⟩ :=
    early_findsHome h hordered hfree (Prod.ext hopens rfl)
  obtain ⟨second, hsecond, hlate⟩ := late_findsHome h hordered
    (run_anchored .default retracted).listing hclosed hfree (Prod.ext hopens' rfl)
  have hconfigured : w.charterIfEarly? host path =
      some (.configured ((Path.mk .slash []).join "p/tsconfig.json")) := by decide +kernel
  have hinferred : w.charterIfLate? host path = some .inferred := by decide +kernel
  cases hfirst.symm.trans hconfigured
  cases hsecond.symm.trans hinferred
  exact ⟨hclosed, hfree, hearly, hlate⟩

end Codebase.Workspace
