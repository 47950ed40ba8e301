import Codebase.Proofs.Host.Memory
import Codebase.Proofs.Workspace.Effect
/-!
# No project is stale

A project that is not dirty shows what a build of its roots would come to now.  `Fresh` is the
invariant for a host in memory: the documents lie over files of the host, what a clean project with
semantics has on the host is tracked, and every clean project is current.  After the text of the
path `altered` has changed, projects that have it among their files are exempt.

* `Move.fresh` — a move keeps the invariant, since a build depends on the texts of its own files
  only, and these are owned.
* `touchOwners_fresh` — once the owners of the altered path are dirty, nothing is exempt.
* `Fresh.alter` — a change of a document or of a file alters at most one path.
* `clean_project_is_current` — after every run that opens and overwrites files which describe no
  package.
-/

namespace Codebase.Workspace

variable {memory memory' : Memory} {host : Host} {w w' : Workspace} {id x : ProjectId}
  {path q : Path} {content text : String} {altered : Option Path} {documents : Documents}

/-! ## Documents over files -/

/-- Every document lies over a file of the host, and over one that describes a package only with the
text of the host. -/
structure Overlaid (memory : Memory) (w : Workspace) : Prop where
  stored : ∀ q, w.documents.contains q = true → memory.hasFile q = true
  packages : ∀ q : Path, q.fileName = Resolver.packageFile → w.documents.isOpen q = false ∧
    ∀ text, w.documents.text? q = some text → memory.read q = .ok text

namespace Overlaid

theorem hasFile (h : Overlaid memory w) : (w.context memory.host).hasFile = memory.hasFile := by
  funext q
  have hor : (w.context memory.host).hasFile q = (w.documents.contains q || memory.hasFile q) := rfl
  rw [hor]
  cases hdocument : w.documents.contains q with
  | true => rw [h.stored q hdocument, Bool.or_self]
  | false => exact Bool.false_or _

theorem read_package (h : Overlaid memory w) (hq : q.fileName = Resolver.packageFile) :
    (w.context memory.host).read q = (memory.read q).toOption := by
  cases htext : w.documents.text? q with
  | none =>
    unfold Context.read context
    simp only [htext]
    rfl
  | some text =>
    rw [Context.read_of_text? htext, (h.packages q hq).2 text htext]
    rfl

/-- Workspaces over hosts that are alike differ at most in the texts of ordinary files. -/
theorem agree (h : Overlaid memory w) (h' : Overlaid memory' w')
    (hsettings : w.settings = w'.settings) (halike : memory.Alike memory') :
    (w.context memory.host).Agree (w'.context memory'.host) where
  settings := hsettings
  hasFile := by rw [h.hasFile, h'.hasFile, halike.hasFile]
  hasDirectory := halike.hasDirectory
  list := halike.list
  package p hp := by rw [h.read_package hp, h'.read_package hp, halike.package p hp]

end Overlaid

theorem isSome_read (hfile : memory.hasFile q = true) :
    ((w.context memory.host).read q).isSome = true := by
  obtain ⟨text, hread⟩ := Memory.hasFile_iff_read.1 hfile
  unfold Context.read context
  split
  · rfl
  · rw [show memory.host.read q = .ok text from hread]
    rfl

theorem Move.overlaid (h : Move memory.host w w') (ho : Overlaid memory w) :
    Overlaid memory w' where
  stored q hq := by
    obtain ⟨document, hdocument⟩ := Table.contains_eq_true.1 hq
    rcases h.document q with hsame | ⟨hnone, -⟩ | ⟨-, text, hread, -⟩
    · exact ho.stored q (Table.contains_eq_true.2 ⟨document, hsame.symm.trans hdocument⟩)
    · exact absurd (hnone.symm.trans hdocument) nofun
    · exact Memory.hasFile_iff_read.2 ⟨text, hread⟩
  packages q hq := by
    refine ⟨(h.isOpen q).trans (ho.packages q hq).1, fun text htext => ?_⟩
    rcases h.document q with hsame | ⟨hnone, -⟩ | ⟨-, noted, hread, hnew⟩
    · exact (ho.packages q hq).2 text ((Documents.text?_congr hsame).symm.trans htext)
    · unfold Documents.text? at htext
      rw [hnone] at htext
      cases htext
    · unfold Documents.text? at htext
      rw [hnew] at htext
      cases htext
      exact hread

/-! ## The invariant -/

/-- Documents lie over files, the files of clean projects are tracked, and clean projects that do
not have the altered path are current. -/
structure Fresh (altered : Option Path) (memory : Memory) (w : Workspace) : Prop where
  consistent : Consistent w
  overlaid : Overlaid memory w
  tracked : ∀ id p files, w.project? id = some p → p.isDirty = false →
    p.capability = .fullSemantic → p.derived = some files →
    ∀ q ∈ files, memory.hasFile q = true → w.documents.contains q = true
  current : ∀ id p, w.project? id = some p → p.isDirty = false →
    (∀ q ∈ w.ownership.membersOf id, some q ≠ altered) → p.Current (w.context memory.host)

theorem fresh_new (settings : Settings) (memory : Memory) : Fresh none memory (new settings) where
  consistent := consistent_new settings
  overlaid := ⟨nofun, fun _ _ => ⟨rfl, nofun⟩⟩
  tracked _ _ _ h := by cases h
  current _ _ h := by cases h

/-- The files of a clean project are what the index links to it. -/
theorem Consistent.mem_members_iff {p : Project} {files : List Path} (h : Consistent w)
    (hp : w.project? id = some p) (hclean : p.isDirty = false) (hfiles : p.derived = some files) :
    q ∈ w.ownership.membersOf id ↔ q ∈ files := by
  obtain ⟨settled, hsettled⟩ := (h.linked id p hp).settled hclean
  rw [hsettled.derived] at hfiles
  cases hfiles
  exact hsettled.links q

theorem Consistent.owned_of_file {p : Project} {files : List Path} (h : Consistent w)
    (hp : w.project? id = some p) (hclean : p.isDirty = false) (hfiles : p.derived = some files)
    (hq : q ∈ files) : id ∈ w.ownership.ownersOf q :=
  (h.mirrored id q).2 ((h.mem_members_iff hp hclean hfiles).2 hq)

theorem Move.tracked (h : Move memory.host w w') (hf : Fresh altered memory w) {p : Project}
    {files : List Path} (hp : w'.project? id = some p) (hclean : p.isDirty = false)
    (hfull : p.capability = .fullSemantic) (hfiles : p.derived = some files) (hq : q ∈ files)
    (hfile : memory.hasFile q = true) : w'.documents.contains q = true := by
  have howner := (h.consistent hf.consistent).owned_of_file hp hclean hfiles hq
  rcases h.clean hp hclean with ⟨hbefore, -⟩ | ⟨project, build, hlive, hbuilt, rfl⟩
  · have hdocument := hf.tracked id p files hbefore hclean hfull hfiles q hq hfile
    obtain ⟨document, hget⟩ := Table.contains_eq_true.1 hdocument
    rcases h.document q with hsame | ⟨-, hunowned⟩ | ⟨hnone, -⟩
    · exact Table.contains_eq_true.2 ⟨document, hsame.trans hget⟩
    · rw [hunowned] at howner
      cases howner
    · exact absurd (hnone.symm.trans hget) nofun
  · obtain ⟨-, hrebuilt⟩ := Project.rebuilt_of_refresh? hbuilt
    rw [hrebuilt.derived] at hfiles
    cases hfiles
    have hread := hrebuilt.discovered_spec.2 hfull q hq (isSome_read hfile)
    have hnoted := Documents.contains_foldl_note w.documents build.discovered hread
    obtain ⟨document, hget⟩ := Table.contains_eq_true.1 hnoted
    refine Table.contains_eq_true.2 ⟨document, ?_⟩
    refine (Documents.get?_forgetAll _ _ q).trans ?_
    rw [if_neg]
    · exact hget
    · exact fun horphan => Ownership.not_owned_of_mem_orphans horphan.1 howner

theorem Move.current (h : Move memory.host w w') (hf : Fresh altered memory w) {p : Project}
    (hp : w'.project? id = some p) (hclean : p.isDirty = false)
    (hunaltered : ∀ q ∈ w'.ownership.membersOf id, some q ≠ altered) :
    p.Current (w'.context memory.host) := by
  have hconsistent := h.consistent hf.consistent
  have hbefore : p.Current (w.context memory.host) := by
    rcases h.clean hp hclean with ⟨hbefore, hmembers⟩ | ⟨project, build, hlive, hbuilt, -⟩
    · exact hf.current id p hbefore hclean fun q hq => hunaltered q ((hmembers q).2 hq)
    · exact (Project.rebuilt_of_refresh? hbuilt).2.current
  obtain ⟨other, hframe⟩ := h.frame
  refine hbefore.of_agree
    (hf.overlaid.agree (h.overlaid hf.overlaid) hframe.settings.symm (Memory.alike_refl memory)) ?_
  intro _ files hfiles q hq
  rw [Project.files?_of_clean hclean] at hfiles
  have howner := hconsistent.owned_of_file hp hclean hfiles hq
  exact (h.read (List.ne_nil_of_mem howner)).symm

theorem Move.fresh (h : Move memory.host w w') (hf : Fresh altered memory w) :
    Fresh altered memory w' where
  consistent := h.consistent hf.consistent
  overlaid := h.overlaid hf.overlaid
  tracked _ _ _ hp hclean hfull hfiles _ hq hfile := h.tracked hf hp hclean hfull hfiles hq hfile
  current _ _ hp hclean hunaltered := h.current hf hp hclean hunaltered

theorem Moves.fresh (h : Moves memory.host w w') (hf : Fresh altered memory w) :
    Fresh altered memory w' := by
  induction h with
  | refl => exact hf
  | tail _ hmove ih => exact hmove.fresh ih

/-! ## A path is altered -/

/-- When all owners of the altered path are dirty, nothing is exempt. -/
theorem touchOwners_fresh (h : Fresh (some path) memory w) :
    Fresh none memory (w.touchOwners path) := by
  have hmoves : Moves memory.host w (w.touchOwners path) := touchOwners_moves w path
  have hnext := hmoves.fresh h
  have hownership : (w.touchOwners path).ownership = w.ownership :=
    ownership_foldl_touch (w.ownership.ownersOf path) w
  refine ⟨hnext.consistent, hnext.overlaid, hnext.tracked, fun id p hp hpclean _ => ?_⟩
  refine hnext.current id p hp hpclean fun q hq hpath => ?_
  cases hpath
  have hmember : path ∈ w.ownership.membersOf id := by
    rw [← hownership]
    exact hq
  have howner : id ∈ w.ownership.ownersOf path := (h.consistent.mirrored id path).2 hmember
  have htouched := project?_foldl_touch (w.ownership.ownersOf path) w id
  rw [if_pos howner] at htouched
  obtain ⟨before, -, rfl⟩ := Option.map_eq_some_iff.1 (htouched.symm.trans hp)
  cases hpclean

/-- The documents or the texts of the host change.  Of the paths that clean projects can have read,
at most the altered one reads differently. -/
theorem Fresh.alter (h : Fresh none memory w) (documents : Documents)
    (halike : memory.Alike memory')
    (hoverlaid : Overlaid memory' { w with documents })
    (hcontains : ∀ q, w.documents.contains q = true → documents.contains q = true)
    (hread : ∀ q, some q ≠ altered → (memory.hasFile q = true → w.documents.contains q = true) →
      ({ w with documents }.context memory'.host).read q = (w.context memory.host).read q) :
    Fresh altered memory' { w with documents } where
  consistent := h.consistent.documents documents
  overlaid := hoverlaid
  tracked id p files hp hclean hfull hfiles q hq hfile := by
    rw [← halike.hasFile] at hfile
    exact hcontains q (h.tracked id p files hp hclean hfull hfiles q hq hfile)
  current id p hp hclean hunaltered := by
    refine (h.current id p hp hclean fun _ _ => nofun).of_agree
      (h.overlaid.agree hoverlaid rfl halike) fun hfull files hfiles q hq => ?_
    rw [Project.files?_of_clean hclean] at hfiles
    have hmember := (h.consistent.mem_members_iff hp hclean hfiles).2 hq
    exact (hread q (hunaltered q hmember)
      (h.tracked id p files hp hclean hfull hfiles q hq)).symm

/-- Documents that change at an ordinary path only. -/
theorem Overlaid.change (h : Overlaid memory w) (hfile : memory.hasFile path = true)
    (hname : path.fileName ≠ Resolver.packageFile)
    (hothers : ∀ q, q ≠ path → documents.get? q = w.documents.get? q) :
    Overlaid memory { w with documents } where
  stored q hq := by
    by_cases hpath : q = path
    · rw [hpath]
      exact hfile
    · obtain ⟨document, hdocument⟩ := Table.contains_eq_true.1 hq
      exact h.stored q (Table.contains_eq_true.2 ⟨document, (hothers q hpath).symm.trans hdocument⟩)
  packages q hq := by
    have hpath : q ≠ path := by
      rintro rfl
      exact hname hq
    have hsame := hothers q hpath
    refine ⟨(Documents.isOpen_congr hsame).trans (h.packages q hq).1, fun text htext => ?_⟩
    exact (h.packages q hq).2 text ((Documents.text?_congr hsame).symm.trans htext)

/-- The document of an ordinary path changes, and reads differently only where it is altered. -/
theorem Fresh.change (h : Fresh none memory w) (hfile : memory.hasFile path = true)
    (hname : path.fileName ≠ Resolver.packageFile)
    (hothers : ∀ q, q ≠ path → documents.get? q = w.documents.get? q)
    (hcontains : w.documents.contains path = true → documents.contains path = true)
    (hpath : some path ≠ altered → w.documents.contains path = true →
      documents.text? path = w.documents.text? path) :
    Fresh altered memory { w with documents } := by
  refine h.alter documents (Memory.alike_refl memory) (h.overlaid.change hfile hname hothers)
    (fun q hq => ?_) fun q hunaltered htracked => ?_
  · by_cases hne : q = path
    · rw [hne] at hq ⊢
      exact hcontains hq
    · obtain ⟨document, hdocument⟩ := Table.contains_eq_true.1 hq
      exact Table.contains_eq_true.2 ⟨document, (hothers q hne).trans hdocument⟩
  · refine read_congr ?_ rfl
    by_cases hne : q = path
    · rw [hne] at hunaltered htracked ⊢
      exact hpath hunaltered (htracked hfile)
    · exact Documents.text?_congr (hothers q hne)

/-! ## Events of an editor -/

/-- A file of the host that describes no package. -/
def Ordinary (memory : Memory) (path : Path) : Prop :=
  memory.hasFile path = true ∧ path.fileName ≠ Resolver.packageFile

instance (memory : Memory) (path : Path) : Decidable (Ordinary memory path) :=
  inferInstanceAs (Decidable (_ ∧ _))

theorem Overlaid.ordinary_of_isOpen (h : Overlaid memory w)
    (hopen : w.documents.isOpen path = true) : Ordinary memory path := by
  refine ⟨h.stored path (Documents.contains_of_isOpen hopen), fun hname => ?_⟩
  rw [(h.packages path hname).1] at hopen
  cases hopen

theorem opening_fresh {opened : Documents.Opened} (h : Fresh none memory w)
    (hordinary : Ordinary memory path)
    (hopened : w.documents.open path content = .ok (opened, documents)) :
    Fresh none memory (w.opening path opened documents) := by
  obtain ⟨hothers, hopen, hcontent, hsame⟩ := Documents.of_open hopened
  have hcontains := Documents.contains_of_isOpen hopen
  have hdrop : Moves memory.host { w with documents } _ := dropStandIns_moves _ path
  unfold opening
  simp only
  split
  · have haltered : Fresh (some path) memory { w with documents } :=
      h.change hordinary.1 hordinary.2 hothers (fun _ => hcontains) fun hne => absurd rfl hne
    exact touchOwners_fresh (hdrop.fresh haltered)
  · rename_i hunchanged
    have hkept : Fresh none memory { w with documents } :=
      h.change hordinary.1 hordinary.2 hothers (fun _ => hcontains) fun _ hdocument =>
        hcontent.trans (hsame (Bool.eq_false_iff.2 hunchanged) hdocument).symm
    exact hdrop.fresh hkept

theorem openFile_fresh (h : Fresh none memory w) (hordinary : Ordinary memory path)
    (content : String) : Fresh none memory (w.openFile memory.host path content).2 := by
  have hopens := openFile_opens memory.host w path content
  generalize w.openFile memory.host path content = answer at hopens ⊢
  cases hopens with
  | refused e => exact h
  | held hopened _ => exact (Move.touch _ _).fresh (opening_fresh h hordinary hopened)
  | @assigned opened documents hopened _ =>
    have hassign : Moves memory.host (w.opening path opened documents) _ := assign_moves _ path
    exact hassign.fresh (opening_fresh h hordinary hopened)

theorem closeFile_fresh (h : Fresh none memory w) (path : Path) :
    Fresh none memory (w.closeFile path).2 := by
  cases hclosed : w.documents.close path with
  | error e =>
    unfold closeFile
    rw [hclosed]
    exact h
  | ok documents =>
    obtain ⟨hothers, hopen, -, htext⟩ := Documents.of_close hclosed
    have hordinary := h.overlaid.ordinary_of_isOpen hopen
    have hmoves : Moves memory.host { w with documents } _ := closeFile_moves hclosed
    have hkept : Fresh none memory { w with documents } := by
      refine h.change hordinary.1 hordinary.2 hothers (fun hdocument => ?_) fun _ _ => htext
      obtain ⟨document, hget⟩ := Table.contains_eq_true.1 hdocument
      have hsome : documents.text? path = some document.content :=
        htext.trans (Option.map_eq_some_iff.2 ⟨document, hget, rfl⟩)
      obtain ⟨next, hnext, -⟩ := Option.map_eq_some_iff.1 hsome
      exact Table.contains_eq_true.2 ⟨next, hnext⟩
    exact hmoves.fresh hkept

theorem editFile_fresh (h : Fresh none memory w) (path : Path) (change : TextChange)
    (version : Nat) : Fresh none memory (w.editFile path change version).2 := by
  unfold editFile
  split
  · exact h
  · rename_i documents hedit
    obtain ⟨hothers, hopen, hafter⟩ := Documents.of_edit hedit
    have hordinary := h.overlaid.ordinary_of_isOpen hopen
    have haltered : Fresh (some path) memory { w with documents } :=
      h.change hordinary.1 hordinary.2 hothers
        (fun _ => Documents.contains_of_isOpen hafter) fun hne => absurd rfl hne
    exact touchOwners_fresh haltered

/-! ## Overwritten files -/

/-- The host overwrites an ordinary file.  What a clean project has read there is a document, so
nothing is stale before the change is reported. -/
theorem addFile_fresh (h : Fresh none memory w) (hordinary : Ordinary memory path)
    (text : String) : Fresh none (memory.addFile path text) w := by
  have halike := Memory.alike_addFile hordinary.1 hordinary.2 text
  refine h.alter w.documents halike ⟨fun q hq => ?_, fun q hq => ?_⟩ (fun _ hq => hq)
    fun q _ htracked => ?_
  · rw [← halike.hasFile]
    exact h.overlaid.stored q hq
  · rw [← halike.package q hq]
    exact h.overlaid.packages q hq
  · by_cases hpath : q = path
    · subst hpath
      obtain ⟨document, hdocument⟩ := Table.contains_eq_true.1 (htracked hordinary.1)
      have htext : w.documents.text? q = some document.content :=
        Option.map_eq_some_iff.2 ⟨document, hdocument, rfl⟩
      exact (Context.read_of_text? htext).trans (Context.read_of_text? htext).symm
    · exact read_congr rfl (Memory.read_addFile_ne hpath)

/-- A report that an ordinary file has been modified. -/
theorem fileModified_fresh (h : Fresh none memory w) (hordinary : Ordinary memory path) :
    Fresh none memory (w.fileModified memory.host path).2 := by
  rcases fileModified_eq memory.host w path with
    hsame | ⟨text, changed, documents, -, hrefresh, hnext⟩
  · rw [hsame]
    exact h
  · obtain ⟨hothers, -, hcontains, htext⟩ := Documents.of_refresh hrefresh
    rw [hnext]
    split
    · have haltered : Fresh (some path) memory { w with documents } :=
        h.change hordinary.1 hordinary.2 hothers hcontains fun hne => absurd rfl hne
      exact touchOwners_fresh haltered
    · rename_i hunchanged
      have hkept : Fresh none memory { w with documents } :=
        h.change hordinary.1 hordinary.2 hothers hcontains fun _ _ =>
          htext (Bool.eq_false_iff.2 hunchanged)
      exact hkept

/-! ## Runs -/

theorem serve_fresh (h : Fresh none memory w) (service : LanguageService) (request : Request)
    (hopens : ∀ path, openedBy? request = some path → Ordinary memory path) :
    Fresh none memory (w.serve service memory.host request).2 := by
  have hserves := serve_serves service memory.host w request
  generalize (w.serve service memory.host request).2 = next at hserves ⊢
  cases hserves with
  | opening path content hasks hopen =>
    have hopened := openFile_fresh h (hopens path hasks) content
    rw [hopen] at hopened
    exact (refresh_moves memory.host _ _).fresh hopened
  | closing file => exact closeFile_fresh h file
  | editing file change version => exact editFile_fresh h file change version
  | asking hasked => exact hasked.moves.fresh h

/-- One step over a host in memory: an action, or a file is overwritten and that is reported. -/
inductive Change where
  | act (action : Action)
  | overwrite (path : Path) (text : String)

/-- The host and the workspace after a step. -/
def apply (state : Memory × Workspace) : Change → Memory × Workspace
  | .act action => (state.1, state.2.act state.1.host action)
  | .overwrite path text =>
    let memory := state.1.addFile path text
    (memory, (state.2.noticeFile memory.host ⟨path, .modified⟩).2)

/-- Only ordinary files are opened and overwritten, no manifest is overwritten, and nothing else
happens on the host. -/
def Change.Tame (manifestNames : List String) (memory : Memory) : Change → Prop
  | .act (.openFile path _) => Ordinary memory path
  | .act (.request _ request) => ∀ path, openedBy? request = some path → Ordinary memory path
  | .act (.notice _) => False
  | .act _ => True
  | .overwrite path _ => Ordinary memory path ∧ Manifest.isNamed manifestNames path = false

theorem Ordinary.of_alike (h : Ordinary memory path) (halike : memory.Alike memory') :
    Ordinary memory' path := by
  refine ⟨?_, h.2⟩
  rw [← halike.hasFile]
  exact h.1

theorem Change.Tame.of_alike {change : Change} {manifestNames : List String}
    (h : change.Tame manifestNames memory) (halike : memory.Alike memory') :
    change.Tame manifestNames memory' := by
  cases change with
  | act action =>
    cases action with
    | openFile path content => exact Ordinary.of_alike h halike
    | request service request => exact fun path hpath => (h path hpath).of_alike halike
    | _ => exact h
  | overwrite path text => exact ⟨h.1.of_alike halike, h.2⟩

theorem act_fresh {action : Action} {manifestNames : List String} (h : Fresh none memory w)
    (htame : (Change.act action).Tame manifestNames memory) :
    Fresh none memory (w.act memory.host action) := by
  cases action with
  | openFile path content => exact openFile_fresh h htame content
  | closeFile path => exact closeFile_fresh h path
  | editFile path change version => exact editFile_fresh h path change version
  | notice event => exact htame.elim
  | refresh id => exact (refresh_moves memory.host w id).fresh h
  | refreshAll => exact (refreshEach_inquiries none memory.host w _).moves.fresh h
  | filesOf id => exact (filesOf_inquiries none memory.host w id).moves.fresh h
  | providerFor path => exact (providerFor_moves memory.host w path).fresh h
  | request service request => exact serve_fresh h service request htame

/-- A host in memory and a new workspace after some steps. -/
def runOver (settings : Settings) (memory : Memory) (changes : List Change) : Memory × Workspace :=
  changes.foldl apply (memory, new settings)

theorem apply_fresh {settings : Settings} {state : Memory × Workspace} {change : Change}
    (htame : change.Tame settings.manifestFileNames memory)
    (h : memory.Alike state.1 ∧ state.2.settings = settings ∧ Fresh none state.1 state.2) :
    memory.Alike (apply state change).1 ∧ (apply state change).2.settings = settings ∧
      Fresh none (apply state change).1 (apply state change).2 := by
  obtain ⟨halike, hsettings, hfresh⟩ := h
  have htame := htame.of_alike halike
  cases change with
  | act action =>
    exact ⟨halike, (act_settings _ _ action).trans hsettings, act_fresh hfresh htame⟩
  | overwrite path text =>
    obtain ⟨hpath, hnamed⟩ := htame
    have hwritten := Memory.alike_addFile hpath.1 hpath.2 text
    have hnotice : (apply state (.overwrite path text)).2 =
        (state.2.fileModified (state.1.addFile path text).host path).2 := by
      unfold apply noticeFile
      simp only
      rw [hsettings, hnamed]
      rfl
    refine ⟨halike.trans hwritten, ?_, ?_⟩
    · obtain ⟨documents, hmoves⟩ :=
        fileModified_reaches (state.1.addFile path text).host state.2 path
      rw [hnotice]
      exact hmoves.settings.trans hsettings
    · rw [hnotice]
      exact fileModified_fresh (addFile_fresh hfresh hpath text) (hpath.of_alike hwritten)

theorem runOver_fresh (settings : Settings) (memory : Memory) (changes : List Change)
    (htame : ∀ change ∈ changes, change.Tame settings.manifestFileNames memory) :
    Fresh none (runOver settings memory changes).1 (runOver settings memory changes).2 := by
  have hfold : ∀ state : Memory × Workspace,
      memory.Alike state.1 ∧ state.2.settings = settings ∧ Fresh none state.1 state.2 →
      memory.Alike (changes.foldl apply state).1 ∧
        (changes.foldl apply state).2.settings = settings ∧
        Fresh none (changes.foldl apply state).1 (changes.foldl apply state).2 := by
    induction changes with
    | nil => exact fun _ h => h
    | cons change rest ih =>
      rw [List.forall_mem_cons] at htame
      exact fun state h => ih htame.2 (apply state change) (apply_fresh htame.1 h)
  exact (hfold (memory, new settings)
    ⟨Memory.alike_refl memory, rfl, fresh_new settings memory⟩).2.2

/-- Two files of which the first imports the second. -/
def importing : Memory :=
  (Memory.empty.addFile ((Path.mk .slash []).join "a.ts") "import './b'").addFile
    ((Path.mk .slash []).join "b.ts") ""

/-- The first file is opened, and the second one is overwritten between two rebuilds. -/
def rewriting : List Change :=
  [.act (.openFile ((Path.mk .slash []).join "a.ts") "import './b'"), .act (.refresh ⟨1⟩),
    .overwrite ((Path.mk .slash []).join "b.ts") "import './a'", .act (.refresh ⟨1⟩)]

/-- **A project that is not dirty shows what a build would come to now.**  This holds after every
run over a host in memory in which only ordinary files are opened and overwritten, and each
overwriting is reported. -/
theorem clean_project_is_current (settings : Settings) (memory : Memory) (changes : List Change)
    (htame : ∀ change ∈ changes, change.Tame settings.manifestFileNames memory)
    (id : ProjectId) (p : Project)
    (hp : (runOver settings memory changes).2.project? id = some p) (hclean : p.isDirty = false) :
    p.Current ((runOver settings memory changes).2.context
      (runOver settings memory changes).1.host) :=
  (runOver_fresh settings memory changes htame).current id p hp hclean fun _ _ => nofun

theorem clean_project_is_current_rewriting :
    (∀ change ∈ rewriting, change.Tame Settings.default.manifestFileNames importing) ∧
      ∃ p, (runOver .default importing rewriting).2.project? ⟨1⟩ = some p ∧ p.isDirty = false ∧
        p.Current ((runOver .default importing rewriting).2.context
          (runOver .default importing rewriting).1.host) := by
  have htame : ∀ change ∈ rewriting,
      change.Tame Settings.default.manifestFileNames importing := by
    have hopened : Ordinary importing ((Path.mk .slash []).join "a.ts") := by decide +kernel
    have hoverwritten : Ordinary importing ((Path.mk .slash []).join "b.ts") := by decide +kernel
    simp only [rewriting, List.forall_mem_cons]
    exact ⟨hopened, trivial, ⟨hoverwritten, by decide +kernel⟩, trivial, nofun⟩
  have hrebuilt : ((runOver .default importing rewriting).2.project? ⟨1⟩).map Project.isDirty =
      some false := by
    decide +kernel
  obtain ⟨p, hp, hclean⟩ := Option.map_eq_some_iff.1 hrebuilt
  exact ⟨htame, p, hp, hclean,
    clean_project_is_current .default importing rewriting htame ⟨1⟩ p hp hclean⟩

end Codebase.Workspace
