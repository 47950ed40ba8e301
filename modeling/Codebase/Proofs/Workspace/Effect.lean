import Codebase.Proofs.Workspace.Consistent
/-!
# What a move can do to a clean project and to a document

* `Move.clean` — a project that is clean after a move was clean before and has the same links, or
  the move has rebuilt it.
* `Move.document` — a move keeps a document, drops one that nobody owns then, or notes a text of the
  host.
* `Move.read` — so a build reads the same from every path that is owned after the move.
-/

namespace Codebase.Workspace

variable {host : Host} {w w' : Workspace} {id x : ProjectId} {path q : Path}

/-! ## Clean projects -/

/-- A clean project is as it was, or has just been rebuilt. -/
theorem Move.clean {p : Project} (h : Move host w w') (hp : w'.project? x = some p)
    (hclean : p.isDirty = false) :
    (w.project? x = some p ∧
      ∀ q, q ∈ w'.ownership.membersOf x ↔ q ∈ w.ownership.membersOf x) ∨
    ∃ project build, w.project? x = some project ∧
      project.refresh? (w.context host) = some (p, build) ∧ w' = w.record x p build := by
  -- whatever a move changes it makes dirty, unless it rebuilds it
  have hchanged : ∀ id, Frame id w w' → (x = id → p.isDirty = true) →
      w.project? x = some p ∧
        ∀ q, q ∈ w'.ownership.membersOf x ↔ q ∈ w.ownership.membersOf x := by
    intro id hframe hdirty
    have hx : x ≠ id := fun heq => by
      have hdirty := hdirty heq
      rw [hclean] at hdirty
      cases hdirty
    exact ⟨(hframe.project x hx).symm.trans hp, fun q => hframe.members x q hx⟩
  have hmodified : ∀ (id : ProjectId) (f : Project → Project), (∀ p, (f p).isDirty = true) →
      (w.modifyProject id f).project? x = some p → x = id → p.isDirty = true := by
    intro id f hf hp hx
    rw [project?_modifyProject, if_pos hx] at hp
    obtain ⟨p', -, rfl⟩ := Option.map_eq_some_iff.1 hp
    exact hf p'
  cases h with
  | touch id =>
    exact .inl (hchanged id (frame_modifyProject w id _) (hmodified id _ (fun _ => rfl) hp))
  | outdate id =>
    exact .inl (hchanged id (frame_modifyProject w id _) (hmodified id _ (fun _ => rfl) hp))
  | addRoot id path =>
    refine .inl (hchanged id (frame_addRoot w id path) (hmodified id (·.addRoot path)
      (fun _ => rfl) ?_))
    rw [project?_modifyProject, ← project?_addRoot]
    exact hp
  | dropRoot id path project _ _ =>
    exact .inl (hchanged id (frame_modifyProject w id _) (hmodified id _ (fun _ => rfl) hp))
  | loseRoot id path =>
    exact .inl (hchanged id (frame_disown w id path)
      (hmodified id (·.removeRoot path) (fun _ => rfl) hp))
  | start origin capability _ =>
    refine .inl (hchanged _ (frame_addProject w _) fun hx => ?_)
    rw [project?_addProject, if_pos hx] at hp
    cases hp
    rfl
  | standIn path documents _ _ =>
    refine .inl (hchanged _ (frame_addStandIn w documents path) fun hx => ?_)
    have hp := ((project?_addStandIn _ path x).symm.trans hp)
    rw [if_pos hx] at hp
    cases hp
    rfl
  | retire id =>
    refine .inl (hchanged id (frame_removeProject w id) fun hx => ?_)
    rw [project?_removeProject, if_pos hx] at hp
    cases hp
  | release path _ => exact .inl ⟨hp, fun _ => Iff.rfl⟩
  | rebuild id project rebuilt build hlive hbuilt =>
    by_cases hx : x = id
    · subst hx
      rw [project?_record, if_pos rfl, hlive] at hp
      cases hp
      exact .inr ⟨project, build, hlive, hbuilt, rfl⟩
    · have hframe := frame_record w id rebuilt build
      exact .inl ⟨(hframe.project x hx).symm.trans hp, fun q => hframe.members x q hx⟩

/-! ## Documents -/

/-- A document stays, or it is closed and has no owner any more, or it is new and has its text from
the host. -/
theorem Move.document (h : Move host w w') (q : Path) :
    w'.documents.get? q = w.documents.get? q ∨
      (w'.documents.get? q = none ∧ w'.ownership.ownersOf q = []) ∨
      (w.documents.get? q = none ∧ ∃ text, host.read q = .ok text ∧
        w'.documents.get? q = some (Document.new text)) := by
  cases h with
  | touch id => exact .inl rfl
  | outdate id => exact .inl rfl
  | addRoot id path =>
    left
    unfold Workspace.addRoot
    split <;> rfl
  | dropRoot id path project _ _ => exact .inl rfl
  | loseRoot id path => exact .inl rfl
  | start origin capability _ => exact .inl rfl
  | standIn path documents _ hnoted =>
    rcases hnoted with ⟨-, rfl⟩ | ⟨text, hread, rfl⟩
    · exact .inl rfl
    · by_cases hq : q = path ∧ w.documents.contains path = false
      · obtain ⟨rfl, hnone⟩ := hq
        refine .inr (.inr ⟨Table.contains_eq_false.1 hnone, text, hread, ?_⟩)
        exact (Documents.get?_note _ _ _ _).trans (if_pos ⟨rfl, hnone⟩)
      · exact .inl ((Documents.get?_note _ _ _ _).trans (if_neg hq))
  | retire id =>
    unfold removeProject
    split
    · by_cases hq : q ∈ (w.ownership.removeProject id).1 ∧ w.documents.isOpen q = false
      · refine .inr (.inl ⟨(Documents.get?_forgetAll _ _ _).trans (if_pos hq), ?_⟩)
        exact List.eq_nil_iff_forall_not_mem.2 fun x =>
          Ownership.not_owned_of_mem_orphans_removeProject hq.1
      · exact .inl ((Documents.get?_forgetAll _ _ _).trans (if_neg hq))
    · exact .inl rfl
  | release path hunowned =>
    by_cases hq : q = path ∧ w.documents.isOpen path = false
    · refine .inr (.inl ⟨(Documents.get?_forget _ _ _).trans (if_pos hq), ?_⟩)
      rw [hq.1]
      exact hunowned
    · exact .inl ((Documents.get?_forget _ _ _).trans (if_neg hq))
  | rebuild id project rebuilt build hlive hbuilt =>
    obtain ⟨hdiscovered, -⟩ := (Project.rebuilt_of_refresh? hbuilt).2.discovered_spec
    have hget : (w.record id rebuilt build).documents.get? q = _ :=
      Documents.get?_forgetAll _ _ q
    rw [Documents.isOpen_foldl_note] at hget
    by_cases hq : q ∈ (w.ownership.replaceMembers id rebuilt.members).1 ∧
        w.documents.isOpen q = false
    · rw [if_pos hq] at hget
      refine .inr (.inl ⟨hget, ?_⟩)
      exact List.eq_nil_iff_forall_not_mem.2 fun x => Ownership.not_owned_of_mem_orphans hq.1
    · rw [if_neg hq] at hget
      rcases Documents.get?_foldl_note w.documents build.discovered q with
        hsame | ⟨hnone, text, hmem, htext⟩
      · exact .inl (hget.trans hsame)
      · exact .inr (.inr ⟨hnone, text, (hdiscovered _ hmem).2, hget.trans htext⟩)

/-- What a build reads from a path depends on its document and on the host. -/
theorem read_congr {host' : Host} (htext : w'.documents.text? q = w.documents.text? q)
    (hread : host'.read q = host.read q) :
    (w'.context host').read q = (w.context host).read q := by
  unfold context Context.read
  simp only [htext, hread]

/-- What is owned after a move reads as before. -/
theorem Move.read (h : Move host w w') (howned : w'.ownership.ownersOf q ≠ []) :
    (w'.context host).read q = (w.context host).read q := by
  rcases h.document q with hsame | ⟨-, hunowned⟩ | ⟨hnone, text, hread, htext⟩
  · exact read_congr (Documents.text?_congr hsame) rfl
  · exact absurd hunowned howned
  · have hbefore : (w.context host).read q = some text :=
      Context.read_of_host (Option.map_eq_none_iff.2 hnone) hread
    have hafter : (w'.context host).read q = some text :=
      Context.read_of_text? (Option.map_eq_some_iff.2 ⟨_, htext, rfl⟩)
    rw [hbefore, hafter]

/-- Moves drop a document, or note one in its first version, but never change one. -/
theorem Moves.document (h : Moves host w w') (q : Path) :
    w'.documents.get? q = w.documents.get? q ∨ w'.documents.get? q = none ∨
      ∃ text, w'.documents.get? q = some (Document.new text) := by
  induction h with
  | refl => exact .inl rfl
  | tail _ hlast ih =>
    rcases hlast.document q with hsame | ⟨hnone, -⟩ | ⟨-, text, -, hnew⟩
    · rw [hsame]
      exact ih
    · exact .inr (.inl hnone)
    · exact .inr (.inr ⟨text, hnew⟩)

end Codebase.Workspace
