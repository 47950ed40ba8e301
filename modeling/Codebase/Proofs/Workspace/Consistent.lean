import Codebase.Proofs.Documents
import Codebase.Proofs.Workspace.Run
/-!
# The index and the projects agree

`Consistent` is the invariant of every reachable workspace.  Each elementary move changes one
project at most, with its links, and `Frame` says that everything else stays:

* `Consistent.of_frame` — a move has to be looked at only where it changes something.
* `Moves.consistent`, `Reaches.consistent` — the invariant is kept.
* `run_consistent` — it holds at the end of every run.
* `index_sound` — what it means for the owners and the files of the projects.
-/

namespace Codebase

/-- No build and no change of roots makes the property of a project fail. -/
structure Project.Enduring (P : Project → Prop) : Prop where
  touch : ∀ p, P p → P p.touch
  outdate : ∀ p, P p → P p.outdate
  addRoot : ∀ p path, P p → P (p.addRoot path)
  removeRoot : ∀ p path, P p → P (p.removeRoot path)
  refresh? : ∀ {p ctx rebuilt build}, p.refresh? ctx = some (rebuilt, build) → P p → P rebuilt

theorem Project.enduring_kind (kind : ProjectKind) : Enduring fun p => p.kind = kind where
  touch _ h := h
  outdate _ h := h
  addRoot _ _ h := h
  removeRoot _ _ h := h
  refresh? hbuilt h := (rebuilt_of_refresh? hbuilt).2.kind.trans h

namespace Workspace

variable {host : Host} {w w' : Workspace} {id x : ProjectId} {path q : Path}

/-! ## What a change leaves alone -/

/-- Only the project `id` and its links change. -/
structure Frame (id : ProjectId) (w w' : Workspace) : Prop where
  settings : w'.settings = w.settings
  lastNumber : w.lastNumber ≤ w'.lastNumber
  project : ∀ x, x ≠ id → w'.project? x = w.project? x
  members : ∀ x q, x ≠ id → (q ∈ w'.ownership.membersOf x ↔ q ∈ w.ownership.membersOf x)
  mentioned : ∀ x, x ≠ id → w'.ownership.members.contains x = true →
    w.ownership.members.contains x = true

@[simp] theorem project?_modifyProject (w : Workspace) (id x : ProjectId) (f : Project → Project) :
    (w.modifyProject id f).project? x = if x = id then (w.project? x).map f else w.project? x :=
  Table.get?_modify _ _ _ _

/-- A project is touched once or several times to the same effect. -/
theorem project?_foldl_touch (ids : List ProjectId) (w : Workspace) (x : ProjectId) :
    (ids.foldl (fun w id => w.modifyProject id Project.touch) w).project? x =
      if x ∈ ids then (w.project? x).map Project.touch else w.project? x := by
  induction ids generalizing w with
  | nil => simp
  | cons id rest ih =>
    have htwice : Project.touch ∘ Project.touch = Project.touch := rfl
    rw [List.foldl_cons, ih, project?_modifyProject]
    by_cases hx : x = id <;> by_cases hrest : x ∈ rest <;> simp [hx, hrest, htwice]

theorem ownership_foldl_touch (ids : List ProjectId) (w : Workspace) :
    (ids.foldl (fun w id => w.modifyProject id Project.touch) w).ownership = w.ownership := by
  induction ids generalizing w with
  | nil => rfl
  | cons id rest ih => exact ih (w.modifyProject id Project.touch)

theorem project?_addProject (w : Workspace) (make : ProjectId → Project) (x : ProjectId) :
    (w.addProject make).2.project? x =
      if x = ⟨w.lastNumber + 1⟩ then some (make ⟨w.lastNumber + 1⟩) else w.project? x :=
  Table.get?_insert _ _ _ _

theorem project?_addStandIn (w : Workspace) (path : Path) (x : ProjectId) :
    (w.addStandIn path).2.project? x =
      if x = ⟨w.lastNumber + 1⟩ then some (.auxiliary ⟨w.lastNumber + 1⟩ path) else w.project? x :=
  Table.get?_insert _ _ _ _

theorem project?_of_not_live (h : w.projects.contains id = false) : w.project? id = none :=
  Table.contains_eq_false.1 h

theorem project?_addRoot (w : Workspace) (id x : ProjectId) (path : Path) :
    (w.addRoot id path).project? x =
      if x = id then (w.project? x).map (·.addRoot path) else w.project? x := by
  unfold addRoot
  split
  · exact project?_modifyProject w id x _
  · rename_i hdead
    split
    · rename_i hx
      rw [hx, project?_of_not_live (Bool.eq_false_iff.2 hdead)]
      rfl
    · rfl

theorem project?_removeProject (w : Workspace) (id x : ProjectId) :
    (w.removeProject id).project? x = if x = id then none else w.project? x := by
  unfold removeProject
  split
  · exact Table.get?_erase _ _ _
  · rename_i hdead
    split
    · rename_i hx
      rw [hx, project?_of_not_live (Bool.eq_false_iff.2 hdead)]
    · rfl

theorem project?_disown (w : Workspace) (id x : ProjectId) (path : Path) :
    (disown path w id).project? x =
      if x = id then (w.project? x).map (·.removeRoot path) else w.project? x :=
  project?_modifyProject w id x _

theorem project?_record (w : Workspace) (id x : ProjectId) (rebuilt : Project) (build : Build) :
    (w.record id rebuilt build).project? x =
      if x = id then (w.project? x).map fun _ => rebuilt else w.project? x :=
  project?_modifyProject w id x _

theorem frame_modifyProject (w : Workspace) (id : ProjectId) (f : Project → Project) :
    Frame id w (w.modifyProject id f) where
  settings := rfl
  lastNumber := Nat.le_refl _
  project x hx := by rw [project?_modifyProject, if_neg hx]
  members _ _ _ := Iff.rfl
  mentioned _ _ h := h

theorem frame_addRoot (w : Workspace) (id : ProjectId) (path : Path) :
    Frame id w (w.addRoot id path) where
  settings := by unfold addRoot; split <;> rfl
  lastNumber := by unfold addRoot; split <;> exact Nat.le_refl _
  project x hx := by rw [project?_addRoot, if_neg hx]
  members x q hx := by
    unfold addRoot
    split
    · refine Ownership.mem_membersOf_add.trans ⟨?_, .inl⟩
      rintro (h | ⟨rfl, -⟩)
      · exact h
      · exact absurd rfl hx
    · exact Iff.rfl
  mentioned x hx h := by
    unfold addRoot at h
    split at h
    · exact (Ownership.contains_members_add.1 h).resolve_right hx
    · exact h

theorem frame_disown (w : Workspace) (id : ProjectId) (path : Path) :
    Frame id w (disown path w id) where
  settings := rfl
  lastNumber := Nat.le_refl _
  project x hx := by rw [project?_disown, if_neg hx]
  members x q hx := by
    refine Ownership.mem_membersOf_remove.trans ⟨And.left, fun h => ⟨h, ?_⟩⟩
    rintro ⟨rfl, -⟩
    exact hx rfl
  mentioned x _ h := by
    have hremove : (w.ownership.remove id path).2.members.contains x = true := h
    rw [Ownership.contains_members_remove] at hremove
    exact hremove

theorem frame_addProject (w : Workspace) (make : ProjectId → Project) :
    Frame ⟨w.lastNumber + 1⟩ w (w.addProject make).2 where
  settings := rfl
  lastNumber := Nat.le_succ _
  project x hx := by rw [project?_addProject, if_neg hx]
  members _ _ _ := Iff.rfl
  mentioned _ _ h := h

theorem frame_addStandIn (w : Workspace) (documents : Documents) (path : Path) :
    Frame ⟨w.lastNumber + 1⟩ w ({ w with documents }.addStandIn path).2 where
  settings := rfl
  lastNumber := Nat.le_succ _
  project x hx := (project?_addStandIn _ path x).trans (if_neg hx)
  members x q hx := by
    refine Ownership.mem_membersOf_add.trans ⟨?_, .inl⟩
    rintro (h | ⟨rfl, -⟩)
    · exact h
    · exact absurd rfl hx
  mentioned x hx h := (Ownership.contains_members_add.1 h).resolve_right hx

theorem frame_removeProject (w : Workspace) (id : ProjectId) :
    Frame id w (w.removeProject id) where
  settings := by unfold removeProject; split <;> rfl
  lastNumber := by unfold removeProject; split <;> exact Nat.le_refl _
  project x hx := by rw [project?_removeProject, if_neg hx]
  members x q hx := by
    unfold removeProject
    split
    · exact Ownership.mem_membersOf_removeProject.trans (and_iff_left hx)
    · exact Iff.rfl
  mentioned x _ h := by
    unfold removeProject at h
    split at h
    · exact (Ownership.contains_members_removeProject.1 h).1
    · exact h

theorem frame_record (w : Workspace) (id : ProjectId) (rebuilt : Project) (build : Build) :
    Frame id w (w.record id rebuilt build) where
  settings := rfl
  lastNumber := Nat.le_refl _
  project x hx := by rw [project?_record, if_neg hx]
  members x q hx := by
    refine Ownership.mem_membersOf_replaceMembers.trans ?_
    rw [if_neg hx]
  mentioned x hx h := (Ownership.contains_members_replaceMembers.1 h).resolve_right hx

theorem Frame.trans {w'' : Workspace} (h : Frame id w w') (h' : Frame id w' w'') :
    Frame id w w'' where
  settings := h'.settings.trans h.settings
  lastNumber := Nat.le_trans h.lastNumber h'.lastNumber
  project x hx := (h'.project x hx).trans (h.project x hx)
  members x q hx := (h'.members x q hx).trans (h.members x q hx)
  mentioned x hx hm := h.mentioned x hx (h'.mentioned x hx hm)

theorem frame_addRoots (w : Workspace) (id : ProjectId) (roots : List Path) :
    Frame id w (roots.foldl (fun w root => w.addRoot id root) w) := by
  induction roots generalizing w with
  | nil =>
    exact ⟨rfl, Nat.le_refl _, fun _ _ => rfl, fun _ _ _ => Iff.rfl, fun _ _ h => h⟩
  | cons root rest ih => exact (frame_addRoot w id root).trans (ih _)

/-- Every move changes one project at most. -/
theorem Move.frame (h : Move host w w') : ∃ id, Frame id w w' := by
  cases h with
  | touch id => exact ⟨id, frame_modifyProject w id _⟩
  | outdate id => exact ⟨id, frame_modifyProject w id _⟩
  | addRoot id path => exact ⟨id, frame_addRoot w id path⟩
  | dropRoot id path project _ _ => exact ⟨id, frame_modifyProject w id _⟩
  | loseRoot id path => exact ⟨id, frame_disown w id path⟩
  | start origin capability _ => exact ⟨_, frame_addProject w _⟩
  | standIn path documents _ _ => exact ⟨_, frame_addStandIn w documents path⟩
  | retire id => exact ⟨id, frame_removeProject w id⟩
  | release path _ =>
    exact ⟨⟨0⟩, rfl, Nat.le_refl _, fun _ _ => rfl, fun _ _ _ => Iff.rfl, fun _ _ h => h⟩
  | rebuild id project rebuilt build _ _ => exact ⟨id, frame_record w id rebuilt build⟩

theorem Moves.settings (h : Moves host w w') : w'.settings = w.settings := by
  induction h with
  | refl => rfl
  | tail _ hmove ih =>
    obtain ⟨id, hframe⟩ := hmove.frame
    rw [hframe.settings, ih]

theorem Moves.lastNumber (h : Moves host w w') : w.lastNumber ≤ w'.lastNumber := by
  induction h with
  | refl => exact Nat.le_refl _
  | tail _ hmove ih =>
    obtain ⟨id, hframe⟩ := hmove.frame
    exact Nat.le_trans ih hframe.lastNumber

/-- What holds of a project stays true whatever moves do to it, and an identity that has been used
is not used again. -/
theorem Move.keeps {P : Project → Prop} (hP : Project.Enduring P) (h : Move host w w')
    (hx : x.number ≤ w.lastNumber) (hbefore : ∀ p, w.project? x = some p → P p) :
    ∀ p, w'.project? x = some p → P p := by
  have hmodify : ∀ (id : ProjectId) (f : Project → Project), (∀ p, P p → P (f p)) →
      ∀ p, (w.modifyProject id f).project? x = some p → P p := by
    intro id f hf p hp
    rw [project?_modifyProject] at hp
    split at hp
    · obtain ⟨p', hp', rfl⟩ := Option.map_eq_some_iff.1 hp
      exact hf p' (hbefore p' hp')
    · exact hbefore p hp
  have hnew : x ≠ ⟨w.lastNumber + 1⟩ := by
    rintro rfl
    exact Nat.not_succ_le_self _ hx
  cases h with
  | touch id => exact hmodify id _ hP.touch
  | outdate id => exact hmodify id _ hP.outdate
  | addRoot id path =>
    intro p hp
    rw [project?_addRoot] at hp
    refine hmodify id (·.addRoot path) (fun p => hP.addRoot p path) p ?_
    rw [project?_modifyProject]
    exact hp
  | dropRoot id path project _ _ => exact hmodify id _ fun p => hP.removeRoot p path
  | loseRoot id path => exact hmodify id (·.removeRoot path) fun p => hP.removeRoot p path
  | start origin capability _ =>
    intro p hp
    rw [project?_addProject, if_neg hnew] at hp
    exact hbefore p hp
  | standIn path documents _ _ =>
    intro p hp
    rw [project?_addStandIn] at hp
    exact hbefore p ((if_neg hnew).symm.trans hp)
  | retire id =>
    intro p hp
    rw [project?_removeProject] at hp
    split at hp
    · cases hp
    · exact hbefore p hp
  | release path _ => exact hbefore
  | rebuild id project rebuilt build hlive hbuilt =>
    intro p hp
    rw [project?_record] at hp
    split at hp
    · rename_i hid
      rw [hid, hlive] at hp
      cases hp
      rw [hid] at hbefore
      exact hP.refresh? hbuilt (hbefore project hlive)
    · exact hbefore p hp

/-- No move opens or closes a document. -/
theorem Move.isOpen (h : Move host w w') (q : Path) :
    w'.documents.isOpen q = w.documents.isOpen q := by
  cases h with
  | touch id => rfl
  | outdate id => rfl
  | addRoot id path => unfold Workspace.addRoot; split <;> rfl
  | dropRoot id path project _ _ => rfl
  | loseRoot id path => rfl
  | start origin capability _ => rfl
  | standIn path documents _ hnoted =>
    rcases hnoted with ⟨-, rfl⟩ | ⟨text, -, rfl⟩
    · rfl
    · exact Documents.isOpen_note _ _ _ _
  | retire id =>
    unfold removeProject
    split
    · exact Documents.isOpen_forgetAll _ _ _
    · rfl
  | release path _ => exact Documents.isOpen_forget _ _ _
  | rebuild id project rebuilt build _ _ =>
    refine (Documents.isOpen_forgetAll _ _ _).trans ?_
    exact Documents.isOpen_foldl_note _ _ _

theorem Moves.isOpen (h : Moves host w w') (q : Path) :
    w'.documents.isOpen q = w.documents.isOpen q := by
  induction h with
  | refl => rfl
  | tail _ hmove ih => rw [hmove.isOpen, ih]

theorem Moves.keeps {P : Project → Prop} (hP : Project.Enduring P) (h : Moves host w w')
    (hx : x.number ≤ w.lastNumber) (hbefore : ∀ p, w.project? x = some p → P p) :
    x.number ≤ w'.lastNumber ∧ ∀ p, w'.project? x = some p → P p := by
  induction h with
  | refl => exact ⟨hx, hbefore⟩
  | tail _ hmove ih =>
    obtain ⟨id, hframe⟩ := hmove.frame
    exact ⟨Nat.le_trans ih.1 hframe.lastNumber, hmove.keeps hP ih.1 ih.2⟩

/-- The kind of a project never changes. -/
theorem Moves.kind {kind : ProjectKind} (h : Moves host w w') (hx : x.number ≤ w.lastNumber)
    (hkind : ∀ p, w.project? x = some p → p.kind = kind) :
    x.number ≤ w'.lastNumber ∧ ∀ p, w'.project? x = some p → p.kind = kind :=
  h.keeps (Project.enduring_kind kind) hx hkind

/-! ## The invariant -/

/-- The identities are those of the table, and the index mentions only live projects and links each
of them to its roots and, when it is not dirty, to exactly its files. -/
structure Consistent (w : Workspace) : Prop where
  named : ∀ id p, w.project? id = some p → p.id = id
  numbered : ∀ id p, w.project? id = some p → id.number ≤ w.lastNumber
  mirrored : w.ownership.Mirrored
  live : ∀ id, w.ownership.members.contains id = true → ∃ p, w.project? id = some p
  linked : ∀ id p, w.project? id = some p → p.Linked fun q => q ∈ w.ownership.membersOf id

theorem consistent_new (settings : Settings) : Consistent (new settings) where
  named _ _ h := by cases h
  numbered _ _ h := by cases h
  mirrored := Ownership.mirrored_empty
  live _ h := by cases h
  linked _ _ h := by cases h

/-- The documents do not matter. -/
theorem Consistent.documents (h : Consistent w) (documents : Documents) :
    Consistent { w with documents } :=
  ⟨h.named, h.numbered, h.mirrored, h.live, h.linked⟩

/-- A project that is gone has no links. -/
theorem Consistent.members_of_none (h : Consistent w) (hnone : w.project? id = none) :
    w.ownership.members.contains id = false := by
  refine Bool.eq_false_iff.2 fun hmentioned => ?_
  obtain ⟨p, hp⟩ := h.live id hmentioned
  rw [hnone] at hp
  cases hp

theorem Consistent.live_of_owner (h : Consistent w) (hid : id ∈ w.ownership.ownersOf path) :
    ∃ p, w.project? id = some p :=
  h.live id (Ownership.contains_members_of_mem ((h.mirrored id path).1 hid))

/-- The next identity is a new one. -/
theorem Consistent.fresh (h : Consistent w) : w.project? ⟨w.lastNumber + 1⟩ = none := by
  cases hp : w.project? ⟨w.lastNumber + 1⟩ with
  | none => rfl
  | some p => exact absurd (h.numbered _ p hp) (Nat.not_succ_le_self _)

/-- A holder of a root is among the owners of its path. -/
theorem Consistent.owner_of_root {p : Project} (h : Consistent w) (hp : w.project? id = some p)
    (hroot : p.hasRoot path = true) : id ∈ w.ownership.ownersOf path :=
  (h.mirrored id path).2 ((h.linked id p hp).roots path (Project.hasRoot_iff.1 hroot))

/-- A change of the project `id` keeps the invariant if that project is gone with its links, or is
there and fits them. -/
theorem Consistent.of_frame (h : Consistent w) (hframe : Frame id w w')
    (hmirrored : w'.ownership.Mirrored)
    (hchanged : (w'.project? id = none ∧ w'.ownership.members.contains id = false) ∨
      ∃ p, w'.project? id = some p ∧ p.id = id ∧ id.number ≤ w'.lastNumber ∧
        p.Linked fun q => q ∈ w'.ownership.membersOf id) :
    Consistent w' where
  named x p hp := by
    by_cases hx : x = id
    · subst hx
      rcases hchanged with ⟨hnone, -⟩ | ⟨p', hp', hid, -⟩
      · rw [hnone] at hp
        cases hp
      · rw [hp'] at hp
        cases hp
        exact hid
    · rw [hframe.project x hx] at hp
      exact h.named x p hp
  numbered x p hp := by
    by_cases hx : x = id
    · subst hx
      rcases hchanged with ⟨hnone, -⟩ | ⟨p', -, -, hnumber, -⟩
      · rw [hnone] at hp
        cases hp
      · exact hnumber
    · rw [hframe.project x hx] at hp
      exact Nat.le_trans (h.numbered x p hp) hframe.lastNumber
  mirrored := hmirrored
  live x hmentioned := by
    by_cases hx : x = id
    · subst hx
      rcases hchanged with ⟨-, hgone⟩ | ⟨p', hp', -⟩
      · rw [hgone] at hmentioned
        cases hmentioned
      · exact ⟨p', hp'⟩
    · rw [hframe.project x hx]
      exact h.live x (hframe.mentioned x hx hmentioned)
  linked x p hp := by
    by_cases hx : x = id
    · subst hx
      rcases hchanged with ⟨hnone, -⟩ | ⟨p', hp', -, -, hlinked⟩
      · rw [hnone] at hp
        cases hp
      · rw [hp'] at hp
        cases hp
        exact hlinked
    · rw [hframe.project x hx] at hp
      have hsame : (fun q => q ∈ w'.ownership.membersOf x) =
          fun q => q ∈ w.ownership.membersOf x :=
        funext fun q => propext (hframe.members x q hx)
      rw [hsame]
      exact h.linked x p hp

/-! ## Moves -/

/-- A change of one project that keeps its links. -/
theorem Consistent.modifyProject (h : Consistent w) (id : ProjectId) {f : Project → Project}
    (hid : ∀ p, (f p).id = p.id)
    (hlinked : ∀ p, w.project? id = some p → (p.Linked fun q => q ∈ w.ownership.membersOf id) →
      (f p).Linked fun q => q ∈ w.ownership.membersOf id) :
    Consistent (w.modifyProject id f) := by
  refine h.of_frame (frame_modifyProject w id f) h.mirrored ?_
  rw [project?_modifyProject, if_pos rfl]
  cases hp : w.project? id with
  | none => exact .inl ⟨rfl, h.members_of_none hp⟩
  | some p =>
    exact .inr ⟨f p, rfl, (hid p).trans (h.named id p hp), h.numbered id p hp,
      hlinked p hp (h.linked id p hp)⟩

theorem Consistent.addRoot (h : Consistent w) (id : ProjectId) (path : Path) :
    Consistent (w.addRoot id path) := by
  have hframe := frame_addRoot w id path
  have hproject := project?_addRoot w id id path
  unfold Workspace.addRoot at hframe hproject ⊢
  split
  · rename_i hlive
    obtain ⟨p, hp⟩ := Table.contains_eq_true.1 hlive
    rw [if_pos hlive] at hframe hproject
    refine h.of_frame hframe h.mirrored.add (.inr ⟨p.addRoot path, ?_, h.named id p hp,
      h.numbered id p hp, (h.linked id p hp).addRoot fun q => ?_⟩)
    · rw [hproject, if_pos rfl, show w.project? id = some p from hp]
      rfl
    · refine Ownership.mem_membersOf_add.trans ?_
      rw [and_iff_right rfl]
  · exact h

theorem Consistent.disown (h : Consistent w) (id : ProjectId) (path : Path) :
    Consistent (disown path w id) := by
  refine h.of_frame (frame_disown w id path) h.mirrored.remove ?_
  rw [project?_disown, if_pos rfl]
  cases hp : w.project? id with
  | none =>
    have hmentioned : (w.ownership.remove id path).2.members.contains id = false := by
      rw [Ownership.contains_members_remove]
      exact h.members_of_none hp
    exact .inl ⟨rfl, hmentioned⟩
  | some p =>
    refine .inr ⟨p.removeRoot path, rfl, h.named id p hp, h.numbered id p hp,
      (h.linked id p hp).loseRoot fun q => ?_⟩
    refine Ownership.mem_membersOf_remove.trans ?_
    rw [and_iff_right rfl]
    exact Iff.rfl

theorem Consistent.addProject (h : Consistent w) {make : ProjectId → Project}
    (hid : ∀ id, (make id).id = id) (hdirty : ∀ id, (make id).isDirty = true)
    (hroots : ∀ id, (make id).roots = Roster.empty) :
    Consistent (w.addProject make).2 := by
  refine h.of_frame (frame_addProject w make) h.mirrored
    (.inr ⟨make ⟨w.lastNumber + 1⟩, ?_, hid _, Nat.le_refl _, ?_⟩)
  · rw [project?_addProject, if_pos rfl]
  · have hnone : w.ownership.membersOf ⟨w.lastNumber + 1⟩ = [] :=
      Ownership.membersOf_eq_nil (h.members_of_none h.fresh)
    refine Project.linked_of_isDirty (hdirty _) (fun r hr => ?_) (fun q hq => ?_)
    · rw [hroots] at hr
      cases hr
    · have hq' : q ∈ w.ownership.membersOf ⟨w.lastNumber + 1⟩ := hq
      rw [hnone] at hq'
      cases hq'

theorem Consistent.addStandIn (h : Consistent w) (path : Path) :
    Consistent (w.addStandIn path).2 := by
  have hnone : w.ownership.membersOf ⟨w.lastNumber + 1⟩ = [] :=
    Ownership.membersOf_eq_nil (h.members_of_none h.fresh)
  have hmembers : ∀ q, q ∈ (w.addStandIn path).2.ownership.membersOf ⟨w.lastNumber + 1⟩ ↔
      q = path := by
    intro q
    refine Ownership.mem_membersOf_add.trans ?_
    show q ∈ w.ownership.membersOf ⟨w.lastNumber + 1⟩ ∨ _ ↔ _
    rw [hnone, and_iff_right rfl]
    simp
  refine h.of_frame (frame_addStandIn w w.documents path) h.mirrored.add
    (.inr ⟨.auxiliary ⟨w.lastNumber + 1⟩ path, ?_, rfl, Nat.le_refl _, ?_⟩)
  · rw [project?_addStandIn, if_pos rfl]
  · refine Project.linked_of_isDirty rfl (fun r hr => (hmembers r).2 ?_) (fun q hq => ?_)
    · exact (Roster.mem_insert.1 hr).resolve_left nofun
    · rw [(hmembers q).1 hq]
      exact Project.contains_iff.2 (.inl (Project.hasRoot_iff.2 (Roster.mem_insert.2 (.inr rfl))))

theorem Consistent.removeProject (h : Consistent w) (id : ProjectId) :
    Consistent (w.removeProject id) := by
  have hframe := frame_removeProject w id
  have hproject := project?_removeProject w id id
  unfold Workspace.removeProject at hframe hproject ⊢
  split
  · rename_i hlive
    rw [if_pos hlive] at hframe hproject
    refine h.of_frame hframe h.mirrored.removeProject (.inl ⟨hproject.trans (if_pos rfl), ?_⟩)
    refine Bool.eq_false_iff.2 fun hmentioned => ?_
    exact (Ownership.contains_members_removeProject.1 hmentioned).2 rfl
  · exact h

theorem Consistent.record {project rebuilt : Project} {build : Build} (h : Consistent w)
    (hlive : w.project? id = some project)
    (hbuilt : project.refresh? (w.context host) = some (rebuilt, build)) :
    Consistent (w.record id rebuilt build) := by
  obtain ⟨-, hrebuilt⟩ := Project.rebuilt_of_refresh? hbuilt
  refine h.of_frame (frame_record w id rebuilt build) h.mirrored.replaceMembers
    (.inr ⟨rebuilt, ?_, hrebuilt.id.trans (h.named id project hlive),
      h.numbered id project hlive, hrebuilt.linked fun q => ?_⟩)
  · rw [project?_record, if_pos rfl, hlive]
    rfl
  · refine Ownership.mem_membersOf_replaceMembers.trans ?_
    rw [if_pos rfl]

theorem Move.consistent (hmove : Move host w w') (h : Consistent w) : Consistent w' := by
  cases hmove with
  | touch id => exact h.modifyProject id (fun _ => rfl) fun p _ hlinked => hlinked.touch
  | outdate id => exact h.modifyProject id (fun _ => rfl) fun p _ hlinked => hlinked.outdate
  | addRoot id path => exact h.addRoot id path
  | dropRoot id path project hlive hkept =>
    refine h.modifyProject id (fun _ => rfl) fun p hp hlinked => hlinked.dropRoot ?_
    rw [hlive] at hp
    cases hp
    exact hkept
  | loseRoot id path => exact h.disown id path
  | start origin capability _ => exact h.addProject (fun _ => rfl) (fun _ => rfl) fun _ => rfl
  | standIn path documents _ _ => exact (h.documents documents).addStandIn path
  | retire id => exact h.removeProject id
  | release path _ => exact h.documents _
  | rebuild id project rebuilt build hlive hbuilt => exact h.record hlive hbuilt

theorem Moves.consistent (hmoves : Moves host w w') (h : Consistent w) : Consistent w' := by
  induction hmoves with
  | refl => exact h
  | tail _ hmove ih => exact hmove.consistent ih

theorem Reaches.consistent (hreaches : Reaches host w w') (h : Consistent w) : Consistent w' := by
  obtain ⟨documents, hmoves⟩ := hreaches
  exact hmoves.consistent (h.documents documents)

/-! ## Runs -/

theorem act_settings (w : Workspace) (host : Host) (action : Action) :
    (w.act host action).settings = w.settings := by
  obtain ⟨documents, hmoves⟩ := act_reaches host w action
  exact hmoves.settings

theorem run_settings (settings : Settings) (steps : List (Host × Action)) :
    (run settings steps).settings = settings := by
  have hact : ∀ (w : Workspace) (host : Host) (action : Action), True → w.settings = settings →
      (w.act host action).settings = settings :=
    fun w host action _ h => (act_settings w host action).trans h
  refine run_induction ?_ hact steps fun _ _ => ?_
  · rfl
  · trivial

theorem act_consistent (h : Consistent w) (host : Host) (action : Action) :
    Consistent (w.act host action) :=
  (act_reaches host w action).consistent h

theorem run_consistent (settings : Settings) (steps : List (Host × Action)) :
    Consistent (run settings steps) := by
  have hact : ∀ w host action, True → Consistent w → Consistent (w.act host action) :=
    fun w host action _ h => act_consistent h host action
  exact run_induction (consistent_new settings) hact steps fun _ _ => trivial

/-- **After every run the index and the projects agree.**  The two sides of the index are inverse to
each other and mention live projects only; what is linked to a project contains its roots, and is
among its roots and the files of its last build; a project that is not dirty has files, which are
exactly what is linked to it. -/
theorem index_sound (settings : Settings) (steps : List (Host × Action)) :
    let w := run settings steps
    (∀ id path, id ∈ w.ownership.ownersOf path ↔ path ∈ w.ownership.membersOf id) ∧
      (∀ path, ∀ id ∈ w.ownership.ownersOf path, ∃ p, w.project? id = some p) ∧
      (∀ id, w.ownership.members.contains id = true → ∃ p, w.project? id = some p) ∧
      ∀ id p, w.project? id = some p →
        (∀ r ∈ p.roots, r ∈ w.ownership.membersOf id) ∧
        (∀ q ∈ w.ownership.membersOf id,
          q ∈ p.roots ∨ ∃ files, p.derived = some files ∧ q ∈ files) ∧
        (p.isDirty = false → ∃ files, p.derived = some files ∧ p.isStale = false ∧
          files.Nodup ∧ (∀ r ∈ p.roots, r ∈ files) ∧
          (∀ q, q ∈ w.ownership.membersOf id ↔ q ∈ files) ∧
          (p.capability = .syntacticOnly → files = p.roots.toList)) := by
  intro w
  have h : Consistent w := run_consistent settings steps
  refine ⟨h.mirrored, fun path id hid => h.live_of_owner hid, h.live, fun id p hp => ?_⟩
  have hlinked := h.linked id p hp
  refine ⟨hlinked.roots, fun q hq => ?_, fun hclean => ?_⟩
  · exact (Project.contains_iff.1 (hlinked.known q hq)).imp_left Project.hasRoot_iff.1
  · obtain ⟨files, hsettled⟩ := hlinked.settled hclean
    exact ⟨files, hsettled.derived, hsettled.isStale, hsettled.nodup, hsettled.roots,
      hsettled.links, hsettled.syntacticOnly⟩

end Workspace

end Codebase
