import Codebase.Proofs.Workspace.Consistent
/-!
# What becomes of projects while nothing starts and nothing is built

Most operations do no more to a project than to mark it dirty and to take roots from it.  A relation
between a project and what becomes of it that bears both is `Lasting`, and it holds between the
projects before and after every such operation:

* `Descends` — every project after an operation comes from the same one before it.
* `unroot_descends`, `closeFile_descends`, `fileDeleted_descends`, … — the operations one by one.
-/

namespace Codebase

/-- The relation bears what happens to a project without a build, when it loses at most the roots
of some paths. -/
structure Project.Lasting (lost : Path → Prop) (R : Project → Project → Prop) : Prop where
  refl : ∀ p, R p p
  trans : ∀ {p p' p''}, R p p' → R p' p'' → R p p''
  touch : ∀ p, R p p.touch
  removeRoot : ∀ p path, lost path → R p (p.removeRoot path)

namespace Workspace

open Project (Lasting)

variable {lost : Path → Prop} {R : Project → Project → Prop} {host : Host}
  {w w' w'' : Workspace} {id : ProjectId} {path : Path}

/-- Every project comes from one that was there. -/
structure Descends (R : Project → Project → Prop) (w w' : Workspace) : Prop where
  settings : w'.settings = w.settings
  project : ∀ x p', w'.project? x = some p' → ∃ p, w.project? x = some p ∧ R p p'

theorem descends_of_same (hR : Lasting lost R) (hsettings : w'.settings = w.settings)
    (hprojects : ∀ x, w'.project? x = w.project? x) : Descends R w w' :=
  ⟨hsettings, fun x p hp => ⟨p, (hprojects x).symm.trans hp, hR.refl p⟩⟩

theorem descends_refl (hR : Lasting lost R) (w : Workspace) : Descends R w w :=
  descends_of_same hR rfl fun _ => rfl

theorem Descends.trans (hR : Lasting lost R) (h : Descends R w w') (h' : Descends R w' w'') :
    Descends R w w'' where
  settings := h'.settings.trans h.settings
  project x p'' hp'' := by
    obtain ⟨p', hp', hlater⟩ := h'.project x p'' hp''
    obtain ⟨p, hp, hearlier⟩ := h.project x p' hp'
    exact ⟨p, hp, hR.trans hearlier hlater⟩

theorem documents_descends (hR : Lasting lost R) (w : Workspace) (documents : Documents) :
    Descends R w { w with documents } :=
  descends_of_same hR rfl fun _ => rfl

theorem descends_foldl {α : Type} {f : Workspace → α → Workspace} (hR : Lasting lost R)
    (h : ∀ w a, Descends R w (f w a)) (l : List α) (w : Workspace) :
    Descends R w (l.foldl f w) :=
  List.foldlRecOn l f (descends_refl hR w) fun w' hw a _ => hw.trans hR (h w' a)

/-! ## Small operations -/

theorem modifyProject_descends (hR : Lasting lost R) (w : Workspace) (id : ProjectId)
    {f : Project → Project} (hf : ∀ p, R p (f p)) : Descends R w (w.modifyProject id f) where
  settings := rfl
  project x p hp := by
    rw [project?_modifyProject] at hp
    split at hp
    · obtain ⟨p', hp', rfl⟩ := Option.map_eq_some_iff.1 hp
      exact ⟨p', hp', hf p'⟩
    · exact ⟨p, hp, hR.refl p⟩

theorem touchOwners_descends (hR : Lasting lost R) (w : Workspace) (path : Path) :
    Descends R w (w.touchOwners path) :=
  descends_foldl hR (fun w id => modifyProject_descends hR w id hR.touch) _ w

theorem removeProject_descends (hR : Lasting lost R) (w : Workspace) (id : ProjectId) :
    Descends R w (w.removeProject id) where
  settings := (frame_removeProject w id).settings
  project x p hp := by
    rw [project?_removeProject] at hp
    split at hp
    · cases hp
    · exact ⟨p, hp, hR.refl p⟩

theorem removeProjects_descends (hR : Lasting lost R) (w : Workspace) (ids : List ProjectId) :
    Descends R w (w.removeProjects ids) :=
  descends_foldl hR (removeProject_descends hR) ids w

/-! ## Roots change hands -/

theorem disown_descends (hR : Lasting lost R) (hlost : lost path) (w : Workspace)
    (id : ProjectId) : Descends R w (disown path w id) := by
  have hmodified : Descends R w (w.modifyProject id (·.removeRoot path)) :=
    modifyProject_descends hR w id fun p => hR.removeRoot p path hlost
  exact hmodified.trans hR (descends_of_same hR rfl fun _ => rfl)

/-- A root goes, and its link may stay. -/
theorem takeRoot_descends {project : Project} (hR : Lasting lost R) (hlost : lost path)
    (hlive : w.project? id = some project) :
    Descends R w
      (if (project.removeRoot path).contains path then
        w.modifyProject id fun _ => project.removeRoot path
      else (w.modifyProject id fun _ => project.removeRoot path).removeLink id path) := by
  rw [modifyProject_of_live hlive (·.removeRoot path)]
  split
  · exact modifyProject_descends hR w id fun p => hR.removeRoot p path hlost
  · exact disown_descends hR hlost w id

theorem unrootFrom_descends (hR : Lasting lost R) (hlost : lost path)
    (s : Workspace × List ProjectId) (id : ProjectId) :
    Descends R s.1 (unrootFrom path s id).1 := by
  unfold unrootFrom
  simp only
  split
  · exact descends_refl hR s.1
  · rename_i project hlive
    split
    · exact takeRoot_descends hR hlost hlive
    · exact descends_refl hR s.1

theorem unroot_descends (hR : Lasting lost R) (hlost : lost path) (w : Workspace)
    (keep : Option ProjectId) : Descends R w (w.unroot path keep) := by
  unfold unroot
  simp only
  generalize (w.ownership.ownersOf path).filter _ = ids
  have hfold : Descends R w (ids.foldl (unrootFrom path) (w, [])).1 :=
    List.foldlRecOn (motive := fun s => Descends R w s.1) ids (unrootFrom path)
      (descends_refl hR w) fun s h id _ => h.trans hR (unrootFrom_descends hR hlost s id)
  exact hfold.trans hR (removeProjects_descends hR _ _)

theorem takeOverOpenRoots_descends (hR : Lasting lost R) (w : Workspace) (id : ProjectId)
    (hlost : ∀ q ∈ w.contestedRoots id, lost q) : Descends R w (w.takeOverOpenRoots id) :=
  List.foldlRecOn _ _ (descends_refl hR w) fun w' h root hroot =>
    h.trans hR (unroot_descends hR (hlost root hroot) w' (some id))

/-! ## Events -/

theorem opening_descends (hR : Lasting lost R) (w : Workspace) (path : Path)
    (opened : Documents.Opened) (documents : Documents) :
    Descends R w (w.opening path opened documents) := by
  have hdropped : Descends R w ({ w with documents }.dropStandIns path) :=
    (documents_descends hR w documents).trans hR (removeProjects_descends hR _ _)
  unfold opening
  simp only
  split
  · exact hdropped.trans hR (touchOwners_descends hR _ path)
  · exact hdropped

theorem closeIn_descends (hR : Lasting lost R) (hlost : lost path)
    (s : Workspace × List ProjectId) (id : ProjectId) :
    Descends R s.1 (closeIn path s id).1 := by
  unfold closeIn
  simp only
  split
  · exact descends_refl hR s.1
  · rename_i project hlive
    split
    · exact takeRoot_descends hR hlost hlive
    · exact modifyProject_descends hR s.1 id hR.touch

theorem closeFile_descends (hR : Lasting lost R) (hlost : lost path) (w : Workspace) :
    Descends R w (w.closeFile path).2 := by
  unfold closeFile
  split
  · exact descends_refl hR w
  · rename_i documents _
    have hfold : Descends R w
        ((w.ownership.ownersOf path).foldl (closeIn path) ({ w with documents }, [])).1 :=
      List.foldlRecOn (motive := fun s => Descends R w s.1) _ (closeIn path)
        (documents_descends hR w documents) fun s h id _ =>
          h.trans hR (closeIn_descends hR hlost s id)
    simp only
    generalize (w.ownership.ownersOf path).foldl (closeIn path) ({ w with documents }, []) =
      state at hfold ⊢
    have hremoved : Descends R w (state.1.removeProjects state.2) :=
      hfold.trans hR (removeProjects_descends hR _ _)
    unfold forgetUnowned
    split
    · exact hremoved
    · exact hremoved.trans hR (documents_descends hR _ _)

theorem editFile_descends (hR : Lasting lost R) (w : Workspace) (path : Path)
    (change : TextChange) (version : Nat) :
    Descends R w (w.editFile path change version).2 := by
  unfold editFile
  split
  · exact descends_refl hR w
  · exact (documents_descends hR w _).trans hR (touchOwners_descends hR _ path)

theorem fileModified_descends (hR : Lasting lost R) (host : Host) (w : Workspace) (path : Path) :
    Descends R w (w.fileModified host path).2 := by
  rcases fileModified_eq host w path with hsame | ⟨text, changed, documents, -, -, hnext⟩
  · rw [hsame]
    exact descends_refl hR w
  · rw [hnext]
    split
    · exact (documents_descends hR w documents).trans hR (touchOwners_descends hR _ path)
    · exact documents_descends hR w documents

theorem fileDeleted_descends (hR : Lasting lost R) (hlost : lost path) (w : Workspace) :
    Descends R w (w.fileDeleted path) := by
  unfold fileDeleted
  split
  · exact descends_refl hR w
  · exact ((removeProjects_descends hR w _).trans hR
      (descends_foldl hR (disown_descends hR hlost) _ _)).trans hR (documents_descends hR _ _)

end Workspace

end Codebase
