import Codebase.Proofs.Workspace.Patron
import Codebase.Proofs.Workspace.Release
/-!
# The home of a path

A path is at home in a project when that project, and no other one, has it as a root.

* `openFile_free` — a document that nobody has as a root finds its home with its patron.
* `oldest_of_holder?` — a document that some projects have as a root goes to the oldest of them.
* `Home.refresh`, `home_of_takeover` — how a rebuild moves an open document.
-/

namespace Codebase.Workspace

variable {host : Host} {w w' : Workspace} {id x : ProjectId} {path q : Path} {content : String}
  {charter : Charter}

/-- Of all projects `id` alone has `path` as a root. -/
def Home (w : Workspace) (path : Path) (id : ProjectId) : Prop :=
  ∀ x, w.hasRoot path x = true ↔ x = id

/-- The document is at home with a project of this charter. -/
def FindsHome (w : Workspace) (path : Path) (charter : Charter) : Prop :=
  ∃ id, Home w path id ∧ w.charter? id = some charter

theorem Home.hasRoot (h : Home w path id) : w.hasRoot path id = true := (h id).2 rfl

theorem HeldBy.home {kind : ProjectKind} (h : HeldBy w path id kind) : Home w path id := by
  intro x
  rw [hasRoot_eq_isSome, h]
  split <;> simp [*]

theorem Home.congr (h : Home w path id) (hroots : ∀ x, w'.hasRoot path x = w.hasRoot path x) :
    Home w' path id :=
  fun x => by rw [hroots]; exact h x

theorem rootKind_eq_none (h : w.hasRoot path x = false) : w.rootKind path x = none := by
  rw [hasRoot_eq_isSome] at h
  exact Option.isSome_eq_false_iff.1 h |> Option.isNone_iff_eq_none.1

theorem live_of_hasRoot (h : w.hasRoot path x = true) : w.project? x ≠ none := by
  intro hnone
  unfold hasRoot at h
  rw [hnone] at h
  cases h

/-! ## Opening a document -/

/-- A workspace in which a document is open that is not yet given to a project. -/
theorem opening_consistent (h : Consistent w) (opened : Documents.Opened)
    (documents : Documents) : Consistent (w.opening path opened documents) := by
  have hmoves : Moves Memory.empty.host { w with documents } (w.opening path opened documents) :=
    opening_moves w path opened documents
  exact hmoves.consistent (h.documents documents)

theorem opening_ordered (h : Consistent w) (hordered : Ordered w) (opened : Documents.Opened)
    (documents : Documents) : Ordered (w.opening path opened documents) := by
  have hmoves : Moves Memory.empty.host { w with documents } (w.opening path opened documents) :=
    opening_moves w path opened documents
  have hdocuments : Ordered { w with documents } := hordered
  exact hmoves.ordered (h.documents documents) hdocuments

theorem opening_settings (opened : Documents.Opened) (documents : Documents) :
    (w.opening path opened documents).settings = w.settings := by
  have hmoves : Moves Memory.empty.host { w with documents } (w.opening path opened documents) :=
    opening_moves w path opened documents
  exact hmoves.settings

/-- Opening changes neither who governs nor what a new project would follow. -/
theorem commission?_opening (h : Consistent w) (hordered : Ordered w) (host : Host)
    (opened : Documents.Opened) (documents : Documents) (q : Path) :
    (w.opening path opened documents).commission? host q = w.commission? host q := by
  unfold commission?
  rw [opening_settings, governor?_congr h hordered (opening_consistent h opened documents)
    (opening_ordered h hordered opened documents) (opening_settings opened documents)
    (mandate?_opening w path opened documents)]

theorem patron_opening (h : Consistent w) (hordered : Ordered w) (host : Host)
    (opened : Documents.Opened) (documents : Documents) (q : Path) :
    (w.opening path opened documents).patron host q = w.patron host q :=
  patron_congr h hordered (opening_consistent h opened documents)
    (opening_ordered h hordered opened documents) (opening_settings opened documents)
    (mandate?_opening w path opened documents) q

theorem openFile_of_open {opened : Documents.Opened} {documents : Documents} (host : Host)
    (hopened : w.documents.open path content = .ok (opened, documents)) :
    ∃ id, (w.openFile host path content).1 = .ok id := by
  have hopens := openFile_opens host w path content
  generalize hanswer : w.openFile host path content = answer at hopens ⊢
  cases hopens with
  | refused e =>
    unfold openFile at hanswer
    rw [hopened] at hanswer
    simp only at hanswer
    split at hanswer <;> cases hanswer
  | held _ _ => exact ⟨_, rfl⟩
  | assigned _ _ => exact ⟨_, rfl⟩

theorem isOpen_openFile (hok : w.openFile host path content = (.ok id, w')) :
    w'.documents.isOpen path = true ∧
      ∃ opened documents, w.documents.open path content = .ok (opened, documents) := by
  have hopens := openFile_opens host w path content
  rw [hok] at hopens
  cases hopens with
  | held hopened _ => exact ⟨isOpen_opening hopened, _, _, hopened⟩
  | @assigned opened documents hopened _ =>
    have hmoves : Moves host (w.opening path opened documents) _ := assign_moves _ path
    exact ⟨(hmoves.isOpen path).trans (isOpen_opening hopened), _, _, hopened⟩

theorem openFile_consistent (h : Consistent w)
    (hok : w.openFile host path content = (.ok id, w')) : Consistent w' := by
  have hreaches := openFile_reaches host w path content
  rw [hok] at hreaches
  exact hreaches.consistent h

theorem openFile_ordered (h : Consistent w) (hordered : Ordered w)
    (hok : w.openFile host path content = (.ok id, w')) : Ordered w' := by
  obtain ⟨documents, hmoves⟩ := openFile_reaches host w path content
  rw [hok] at hmoves
  exact hmoves.ordered (h.documents documents) hordered

/-- A document that nobody has as a root is assigned. -/
theorem openFile_of_free (hfree : ∀ x, w.hasRoot path x = false)
    (hok : w.openFile host path content = (.ok id, w')) :
    ∃ opened documents, w.documents.open path content = .ok (opened, documents) ∧
      (w.opening path opened documents).holder? path = none ∧
      (w.opening path opened documents).assign host path = (id, w') := by
  have hopens := openFile_opens host w path content
  rw [hok] at hopens
  cases hopens with
  | @held opened documents _ hopened hholder =>
    -- nobody holds the document, so it is not found with a holder
    obtain ⟨kind, -, hroot⟩ := holder?_eq_some hholder
    have hbefore := ((rootKind_opening_eq_some w path opened documents path id kind).1 hroot).1
    rw [rootKind_eq_none (hfree id)] at hbefore
    cases hbefore
  | assigned hopened hnone => exact ⟨_, _, hopened, hnone, rfl⟩

/-- A document that some projects have as a root stays with one of them. -/
theorem openFile_of_held (h : Consistent w) (hheld : w.Holds path x)
    (hok : w.openFile host path content = (.ok id, w')) :
    ∃ opened documents, w.documents.open path content = .ok (opened, documents) ∧
      (w.opening path opened documents).holder? path = some id ∧
      w' = (w.opening path opened documents).modifyProject id Project.touch := by
  have hopens := openFile_opens host w path content
  rw [hok] at hopens
  cases hopens with
  | held hopened hholder => exact ⟨_, _, hopened, hholder, rfl⟩
  | @assigned opened documents hopened hnone =>
    have hroot := (hasRoot_opening h opened documents).2 hheld
    rw [hasRoot_eq_isSome, free_opening h hnone] at hroot
    cases hroot

/-- **A document that nobody has as a root finds its home with its patron.**  A project that starts
for it is younger than all others and follows the manifest of the patron. -/
theorem openFile_free (h : Consistent w) (hordered : Ordered w)
    (hfree : ∀ x, w.hasRoot path x = false)
    (hok : w.openFile host path content = (.ok id, w')) :
    Home w' path id ∧ w'.charter? id = some (w.patron host path) ∧
      ∃ new, (∀ x p, w.project? x = some p → x.number < new.number) ∧
        ∀ x, w'.mandate? x = if x = new then w.commission? host path else w.mandate? x := by
  obtain ⟨opened, documents, hopened, hnone, hassigned⟩ := openFile_of_free hfree hok
  have hconsistent : Consistent (w.opening path opened documents) :=
    opening_consistent h opened documents
  have hmoves : Moves host { w with documents } (w.opening path opened documents) :=
    opening_moves w path opened documents
  obtain ⟨⟨kind, -, hheld⟩, -⟩ := assign_spec hconsistent host (isOpen_opening hopened)
    (free_opening h hnone)
  have hcharter := charter?_assign hconsistent host path
  have hmandate := mandate?_assign hconsistent host path
  rw [hassigned] at hheld hcharter hmandate
  refine ⟨hheld.home, ?_, (w.opening path opened documents).nextId, fun x p hp => ?_, fun x => ?_⟩
  · rw [hcharter, patron_opening h hordered]
  · exact Nat.lt_succ_of_le (Nat.le_trans (h.numbered x p hp) hmoves.lastNumber)
  · rw [hmandate, commission?_opening h hordered, mandate?_opening]

/-- The holder that is found is the oldest one. -/
theorem oldest_of_holder? (h : Consistent w)
    (hlisting : Ownership.Listing w.ownership.owners) (hholder : w.holder? path = some id) :
    w.Holds path id ∧ ∀ x, w.Holds path x → id.number ≤ x.number := by
  have hholds : ∀ x, ((w.project? x).any fun p => p.kind ≠ .auxiliary && p.hasRoot path) = true ↔
      w.Holds path x := by
    intro x
    rw [Option.any_eq_true]
    simp only [Bool.and_eq_true, decide_eq_true_eq]
    rfl
  have hpairwise : (w.ownership.ownersOf path).Pairwise fun a b => a.number < b.number := by
    unfold Ownership.ownersOf
    cases howners : w.ownership.owners.get? path with
    | none => exact List.Pairwise.nil
    | some ids => exact (hlisting path ids howners).2
  obtain ⟨-, hfits, hleast⟩ := (find?_eq_some_iff_of_rising hpairwise).1 hholder
  refine ⟨(hholds id).1 hfits, fun x hx => hleast x ?_ ((hholds x).2 hx)⟩
  obtain ⟨p, hp, -, hroot⟩ := hx
  exact h.owner_of_root hp hroot

/-- **A document that some projects have as a root goes to the oldest of them**, which is dirty then;
the others keep it as a root. -/
theorem openFile_held (h : Consistent w) (hlisting : Ownership.Listing w.ownership.owners)
    (hheld : w.Holds path x) (hok : w.openFile host path content = (.ok id, w')) :
    (w.Holds path id ∧ ∀ y, w.Holds path y → id.number ≤ y.number) ∧ w'.IsDirty id ∧
      (∀ y, w'.hasRoot path y = true ↔ w.Holds path y) ∧ ∀ y, w'.mandate? y = w.mandate? y := by
  obtain ⟨opened, documents, hopened, hholder, rfl⟩ := openFile_of_held h hheld hok
  have hroots : ∀ y, (w.opening path opened documents).hasRoot path y = true ↔ w.Holds path y :=
    fun y => hasRoot_opening h opened documents
  have hholds : ∀ y, (w.opening path opened documents).Holds path y ↔ w.Holds path y := by
    intro y
    rw [← hroots]
    constructor
    · rintro ⟨p, hp, -, hroot⟩
      rw [hasRoot_of_live hp]
      exact hroot
    · intro hy
      obtain ⟨kind, hother, hroot⟩ := holds_iff_rootKind.1 ((hroots y).1 hy)
      have hkept := (rootKind_opening_eq_some w path opened documents path y kind).2
        ⟨hroot, fun _ => hother⟩
      exact holds_iff_rootKind.2 ⟨kind, hother, hkept⟩
  have hmoves : Moves host { w with documents } (w.opening path opened documents) :=
    opening_moves w path opened documents
  obtain ⟨⟨p, hp, hkind, hroot⟩, holdest⟩ := oldest_of_holder?
    (opening_consistent h opened documents) (hmoves.listing hlisting) hholder
  refine ⟨⟨(hholds id).1 ⟨p, hp, hkind, hroot⟩, fun y hy => holdest y ((hholds y).2 hy)⟩,
    ⟨p.touch, ?_, rfl⟩, fun y => ?_, fun y => ?_⟩
  · rw [project?_modifyProject, if_pos rfl, hp]
    rfl
  · rw [hasRoot_congr (rootKind_touch _ _ _ _)]
    exact hroots y
  · rw [mandate?_touch, mandate?_opening]

/-! ## Rebuilding -/

/-- An open document that a project takes over is at home there. -/
theorem home_of_takeover (h : Consistent w) (htake : w.Takeover host id path) :
    Home (w.refresh host id).2 path id := by
  intro x
  by_cases hx : x = id
  · rw [hx, hasRoot_refresh_self h]
    exact iff_of_true htake.2.1 rfl
  · rw [hasRoot_eq_isSome, (rootKind_refresh_other h host hx path).1 htake]
    exact iff_of_false Bool.false_ne_true hx

/-- A rebuild of another project that does not take the document over. -/
theorem Home.refresh (h : Home w path id) (hconsistent : Consistent w)
    (hself : w.KeepsRoot host x path ↔ x = id) : Home (w.refresh host x).2 path id := by
  intro y
  by_cases hy : y = x
  · rw [hy, hasRoot_refresh_self hconsistent]
    exact hself
  · by_cases htake : w.Takeover host x path
    · rw [hasRoot_eq_isSome, (rootKind_refresh_other hconsistent host hy path).1 htake]
      exact iff_of_false Bool.false_ne_true fun heq => hy (heq.trans (hself.1 htake.2.1).symm)
    · rw [hasRoot_congr ((rootKind_refresh_other hconsistent host hy path).2 htake)]
      exact h y

end Codebase.Workspace
