import Codebase.Proofs.Workspace.Rebuild
import Codebase.Proofs.Workspace.Release
import Codebase.Session.Report
/-!
# Requests about open documents

A request that one syntax tree answers goes to the first owner of its file, after every owner has
been brought up to date.  The first owner of an open document has it as a root; but bringing another
owner up to date can take that root away, and then the request fails.

* `refreshTargets_isOk_iff` — when all owners can be brought up to date.
* `project?_of_refreshTargets` — what is clean after that has not been changed by it.
* `open_document_is_served_iff` — when a request is answered, and who answers it.
* `open_document_is_not_served` — not every one is.
-/

namespace Codebase.Workspace

variable {host : Host} {w w' : Workspace} {id x : ProjectId} {path q : Path}

/-! ## Bringing projects up to date, one after the other -/

theorem refreshTargets_cons {p : Project} (host : Host) (hlive : w.project? id = some p)
    (rest : List ProjectId) :
    w.refreshTargets host (id :: rest) = (w.refresh host id).2.refreshTargets host rest := by
  have hok := refresh_of_live host hlive
  rw [refreshTargets]
  generalize w.refresh host id = answer at hok
  obtain ⟨result, next⟩ := answer
  cases hok
  rfl

/-- Every project is there when its turn comes. -/
theorem refreshTargets_isOk_iff (host : Host) (ids : List ProjectId) (w : Workspace) :
    (w.refreshTargets host ids).1.isOk = true ↔
      ∀ before id after, ids = before ++ id :: after →
        ((w.refreshTargets host before).2.project? id).isSome = true := by
  induction ids generalizing w with
  | nil => exact ⟨fun _ before id after hsplit => by simp at hsplit, fun _ => rfl⟩
  | cons id rest ih =>
    cases hlive : w.project? id with
    | none =>
      have hfails : w.refreshTargets host (id :: rest) = (.error (.unknownProject id.name), w) := by
        rw [refreshTargets, refresh_of_none host hlive]
      rw [hfails]
      refine ⟨nofun, fun h => ?_⟩
      have hfirst : ((w.refreshTargets host []).2.project? id).isSome = true := h [] id rest rfl
      rw [refreshTargets, hlive] at hfirst
      cases hfirst
    | some p =>
      rw [refreshTargets_cons host hlive, ih]
      constructor
      · intro h before x after hsplit
        cases before with
        | nil =>
          cases hsplit
          rw [refreshTargets, hlive]
          rfl
        | cons first before =>
          cases hsplit
          rw [refreshTargets_cons host hlive]
          exact h before x after rfl
      · intro h before x after hsplit
        have hnext := h (id :: before) x after (congrArg (List.cons id) hsplit)
        rw [refreshTargets_cons host hlive] at hnext
        exact hnext

/-- What is clean afterwards and not on the list is as it was. -/
theorem project?_of_refreshTargets {p : Project} (host : Host) (ids : List ProjectId)
    (w : Workspace) (hx : x ∉ ids) (hp : (w.refreshTargets host ids).2.project? x = some p)
    (hclean : p.isDirty = false) : w.project? x = some p := by
  induction ids generalizing w with
  | nil => exact hp
  | cons id rest ih =>
    rw [List.mem_cons, not_or] at hx
    cases hlive : w.project? id with
    | none =>
      rw [refreshTargets, refresh_of_none host hlive] at hp
      exact hp
    | some p' =>
      rw [refreshTargets_cons host hlive] at hp
      exact project?_of_refresh host hx.1 (ih _ hx.2 hp) hclean

theorem refreshTargets_quiet (host : Host) (ids : List ProjectId) (w : Workspace)
    (hnodup : ids.Nodup) (hquiet : ∀ id ∈ ids, w.Quiet id) :
    (w.refreshTargets host ids).1.isOk = true ∧
      ∀ x, x ∉ ids → (w.refreshTargets host ids).2.project? x = w.project? x := by
  induction ids generalizing w with
  | nil => exact ⟨rfl, fun _ _ => rfl⟩
  | cons id rest ih =>
    obtain ⟨hnew, hnodup⟩ := List.nodup_cons.1 hnodup
    rw [List.forall_mem_cons] at hquiet
    obtain ⟨hid, hrest⟩ := hquiet
    have hframe : ∀ x, x ≠ id → (w.refresh host id).2.project? x = w.project? x :=
      fun x hx => hid.refresh host hx
    obtain ⟨p, hlive, -⟩ := hid
    rw [refreshTargets_cons host hlive]
    obtain ⟨hok, hsame⟩ := ih (w.refresh host id).2 hnodup fun x hx =>
      (hrest x hx).congr (hframe x fun heq => hnew (heq ▸ hx))
    refine ⟨hok, fun x hx => ?_⟩
    rw [List.mem_cons, not_or] at hx
    rw [hsame x hx.2, hframe x hx.1]

/-! ## The first owner -/

theorem mem_projectsOf : id ∈ w.projectsOf path ↔ id ∈ w.ownership.ownersOf path := by
  unfold projectsOf
  simp only [List.mem_append, List.mem_filter]
  cases w.hasRoot path id <;> simp

theorem nodup_projectsOf (h : Anchored none w) (path : Path) : (w.projectsOf path).Nodup := by
  have howners := Ownership.nodup_ownersOf h.listing path
  unfold projectsOf
  rw [List.nodup_append]
  refine ⟨howners.filter _, howners.filter _, fun a ha b hb heq => ?_⟩
  have hyes := (List.mem_filter.1 ha).2
  have hno := (List.mem_filter.1 hb).2
  rw [← heq, hyes] at hno
  cases hno

/-- The first owner of an open document has it as a root, and is no other owner. -/
theorem projectsOf_of_isOpen (h : Lawful (w, still)) (hanchored : Anchored none w)
    (hopen : w.documents.isOpen path = true) :
    ∃ target rest p, w.projectsOf path = target :: rest ∧ (target :: rest).Nodup ∧
      w.project? target = some p ∧ p.hasRoot path = true := by
  obtain ⟨x, hholds⟩ := (h.held path hopen).resolve_left not_false
  obtain ⟨kind, -, hroot⟩ := holds_iff_rootKind.1 hholds
  have hnodup := nodup_projectsOf hanchored path
  have hx : x ∈ (w.ownership.ownersOf path).filter (w.hasRoot path) := by
    refine List.mem_filter.2 ⟨h.consistent.owner_of_rootKind hroot, ?_⟩
    rw [hasRoot_eq_isSome, hroot]
    rfl
  unfold projectsOf at hnodup ⊢
  simp only at hnodup ⊢
  cases hholders : (w.ownership.ownersOf path).filter (w.hasRoot path) with
  | nil =>
    rw [hholders] at hx
    cases hx
  | cons target others =>
    have htarget : target ∈ (w.ownership.ownersOf path).filter (w.hasRoot path) := by
      rw [hholders]
      exact List.mem_cons_self
    obtain ⟨p, hp, hpath⟩ := (Option.any_eq_true _ _).1 (List.mem_filter.1 htarget).2
    rw [hholders] at hnodup
    exact ⟨target, _, p, rfl, hnodup, hp, hpath⟩

/-! ## Questions -/

/-- A question of one syntax tree is put to any live project that has files. -/
theorem ask_eq {p : Project} {files : List Path} {question : Question}
    (hsyntactic : question.command.isSemantic = false) (hlive : w.project? id = some p)
    (hfiles : p.files? = some files) (service : LanguageService) :
    w.ask service id question =
      (service ⟨p.name, p.capability, files, w.documents.text?⟩ question).map fun body =>
        ⟨some body, some p.name⟩ := by
  have hpermit : Command.permit question.command p.capability p.name = .ok () := by
    unfold Command.permit
    rw [hsyntactic]
    rfl
  unfold ask Gate.ofProject program Gate.ask
  simp only [hlive, hfiles]
  simp only [bind, Except.bind, hpermit]
  cases service ⟨p.name, p.capability, files, w.documents.text?⟩ question <;> rfl

/-- Only a project that has files is asked. -/
theorem files_of_ask {service : LanguageService} {question : Question} {served : Served}
    (hok : w.ask service id question = .ok served) :
    ∃ p files, w.project? id = some p ∧ p.files? = some files := by
  unfold ask Gate.ofProject program at hok
  cases hlive : w.project? id with
  | none =>
    rw [hlive] at hok
    cases hok
  | some p =>
    cases hfiles : p.files? with
    | some files => exact ⟨p, files, rfl, hfiles⟩
    | none =>
      simp only [hlive, hfiles] at hok
      simp only [bind, Except.bind] at hok
      cases hpermit : Command.permit question.command p.capability p.name with
      | error e =>
        rw [hpermit] at hok
        cases hok
      | ok _ =>
        rw [hpermit] at hok
        cases hok

/-- A question of one syntax tree is answered by a project that has the file, and the answer shows
the name and the files of the project. -/
theorem ask_echo_of_mem {p : Project} {files : List Path} {question : Question}
    (hsyntactic : question.command.isSemantic = false) (hlive : w.project? id = some p)
    (hfiles : p.files? = some files) (hmem : question.file ∈ files) :
    ∃ fields, w.ask .echo id question = .ok ⟨some (.obj fields), some p.name⟩ ∧
      ("project", .str p.name) ∈ fields ∧
      ("files", .array (files.map Path.toJson)) ∈ fields := by
  rw [ask_eq hsyntactic hlive hfiles, LanguageService.echo, if_pos hmem]
  exact ⟨_, rfl, by simp, by simp⟩

/-- No other project answers. -/
theorem ask_echo_isOk_iff {question : Question}
    (hsyntactic : question.command.isSemantic = false) :
    (w.ask .echo id question).isOk = true ↔
      ∃ p files, w.project? id = some p ∧ p.files? = some files ∧ question.file ∈ files := by
  constructor
  · intro hok
    cases hasked : w.ask .echo id question with
    | error e =>
      rw [hasked] at hok
      cases hok
    | ok served =>
      obtain ⟨p, files, hlive, hfiles⟩ := files_of_ask hasked
      refine ⟨p, files, hlive, hfiles, by_contra fun hnot => ?_⟩
      rw [ask_eq hsyntactic hlive hfiles, LanguageService.echo, if_neg hnot] at hasked
      cases hasked
  · rintro ⟨p, files, hlive, hfiles, hmem⟩
    obtain ⟨fields, hok, -⟩ := ask_echo_of_mem hsyntactic hlive hfiles hmem
    rw [hok]
    rfl

/-- A question of one syntax tree is answered by a clean project that has the file as a root. -/
theorem ask_echo {p : Project} (h : Consistent w) (question : Question)
    (hsyntactic : question.command.isSemantic = false) (hlive : w.project? id = some p)
    (hclean : p.isDirty = false) (hroot : p.hasRoot question.file = true) :
    ∃ fields, w.ask .echo id question = .ok ⟨some (.obj fields), some p.name⟩ ∧
      ("project", .str p.name) ∈ fields := by
  obtain ⟨files, hsettled⟩ := (h.linked id p hlive).settled hclean
  have hfiles : p.files? = some files := (Project.files?_of_clean hclean).trans hsettled.derived
  have hmem : question.file ∈ files := hsettled.roots _ (Project.hasRoot_iff.1 hroot)
  obtain ⟨fields, hok, hproject, -⟩ := ask_echo_of_mem hsyntactic hlive hfiles hmem
  exact ⟨fields, hok, hproject⟩

/-- A request that is no matter of documents and projects is a question to the service. -/
theorem serve_question {service : LanguageService} {request : Request} {command : Command}
    {arguments : Request.LocationArguments} (host : Host)
    (hcommand : Command.ofName? request.command = some command)
    (hquestion : command.category ≠ .lifecycle)
    (hdecoded : Request.locationArguments request.arguments = .ok arguments) :
    w.serve service host request = w.serveLanguage service host command arguments := by
  unfold serve
  rw [hcommand]
  simp only
  rw [if_neg hquestion, withArguments, Request.decodeArguments, hdecoded]

/-- A question about a file that has owners is put to the first one, when all are up to date. -/
theorem serveLanguage_owned {service : LanguageService} {command : Command}
    {arguments : Request.LocationArguments} {target : ProjectId} {rest : List ProjectId}
    (host : Host) (howners : w.projectsOf arguments.file = target :: rest) :
    w.serveLanguage service host command arguments =
      match w.refreshTargets host (target :: rest) with
      | (.error e, next) => (.error e, next)
      | (.ok (), next) =>
        (next.ask service target ⟨command, arguments.file, arguments.location?⟩, next) := by
  cases hnext : w.refreshTargets host (target :: rest) with
  | mk result next => cases result <;> simp only [serveLanguage, targetsFor, howners, hnext]

theorem not_lifecycle_of_syntactic {command : Command} (h : command.category = .syntactic) :
    command.category ≠ .lifecycle := by
  rw [h]
  exact nofun

theorem isSemantic_of_syntactic {command : Command} (h : command.category = .syntactic) :
    command.isSemantic = false := by
  unfold Command.isSemantic
  rw [h]
  rfl

/-- Every owner is there when its turn to be brought up to date comes, and the first one is there
and clean in the end. -/
def Ready (w : Workspace) (host : Host) (target : ProjectId) (rest : List ProjectId) : Prop :=
  (∀ before id after, target :: rest = before ++ id :: after →
    ((w.refreshTargets host before).2.project? id).isSome = true) ∧
  ∃ p, (w.refreshTargets host (target :: rest)).2.project? target = some p ∧ p.isDirty = false

theorem ready_iff {target : ProjectId} {rest : List ProjectId} : Ready w host target rest ↔
    (w.refreshTargets host (target :: rest)).1.isOk = true ∧
      ∃ p, (w.refreshTargets host (target :: rest)).2.project? target = some p ∧
        p.isDirty = false := by
  rw [refreshTargets_isOk_iff]
  rfl

/-- What is clean when all owners are up to date is what the first rebuild has left. -/
theorem hasRoot_of_refreshTargets {target : ProjectId} {rest : List ProjectId} {p p' : Project}
    (host : Host) (hnew : target ∉ rest) (hlive : w.project? target = some p)
    (hopen : w.documents.isOpen path = true) (hroot : p.hasRoot path = true)
    (hp' : (w.refreshTargets host (target :: rest)).2.project? target = some p')
    (hclean : p'.isDirty = false) : p'.hasRoot path = true := by
  rw [refreshTargets_cons host hlive] at hp'
  have hfirst := project?_of_refreshTargets host rest _ hnew hp' hclean
  obtain ⟨rebuilt, hrebuilt, -, hkept⟩ := refresh_hasRoot host hlive hopen hroot
  rw [hfirst] at hrebuilt
  cases hrebuilt
  exact hkept

/-- A sole owner takes its root from nobody that is still to come. -/
theorem ready_of_alone {target : ProjectId} {p : Project} (host : Host)
    (hlive : w.project? target = some p) (hopen : w.documents.isOpen path = true)
    (hroot : p.hasRoot path = true) : Ready w host target [] := by
  refine ready_iff.2 ⟨?_, ?_⟩
  · rw [refreshTargets_cons host hlive]
    rfl
  · obtain ⟨rebuilt, hrebuilt, hclean, -⟩ := refresh_hasRoot host hlive hopen hroot
    refine ⟨rebuilt, ?_, hclean⟩
    rw [refreshTargets_cons host hlive]
    exact hrebuilt

/-- When no configured project is dirty, the first one is in the end what its rebuild has made of
it. -/
theorem project?_refreshTargets_quiet {target : ProjectId} {rest : List ProjectId} (host : Host)
    (hnodup : (target :: rest).Nodup) (hquiet : ∀ id ∈ target :: rest, w.Quiet id) :
    (w.refreshTargets host (target :: rest)).2.project? target =
      (w.refresh host target).2.project? target := by
  obtain ⟨hnew, hrest⟩ := List.nodup_cons.1 hnodup
  rw [List.forall_mem_cons] at hquiet
  obtain ⟨⟨p, hlive, hclean⟩, hothers⟩ := hquiet
  have htarget : w.Quiet target := ⟨p, hlive, hclean⟩
  rw [refreshTargets_cons host hlive]
  obtain ⟨-, hsame⟩ := refreshTargets_quiet host rest (w.refresh host target).2 hrest fun x hx =>
    (hothers x hx).congr (htarget.refresh host fun heq => hnew (heq ▸ hx))
  exact hsame target hnew

/-- When no configured owner is dirty, no root changes hands. -/
theorem ready_of_quiet {target : ProjectId} {rest : List ProjectId} (host : Host)
    (hnodup : (target :: rest).Nodup) (hquiet : ∀ id ∈ target :: rest, w.Quiet id) :
    Ready w host target rest := by
  obtain ⟨hok, -⟩ := refreshTargets_quiet host (target :: rest) w hnodup hquiet
  obtain ⟨p, hlive, -⟩ := hquiet target List.mem_cons_self
  obtain ⟨rebuilt, hrebuilt, hclean, -⟩ := refresh_self host hlive
  exact ready_iff.2 ⟨hok, rebuilt,
    (project?_refreshTargets_quiet host hnodup hquiet).trans hrebuilt, hclean⟩

/-- Each owner of a path is there, so it is quiet unless it is a configured one that is dirty. -/
theorem quiet_of_owners {ids : List ProjectId} (h : Consistent w)
    (howners : w.projectsOf path = ids)
    (hclean : ∀ id p, id ∈ w.ownership.ownersOf path → w.project? id = some p →
      p.kind = .configured → p.isDirty = false) : ∀ id ∈ ids, w.Quiet id := by
  intro id hid
  rw [← howners, mem_projectsOf] at hid
  obtain ⟨p, hp⟩ := h.live_of_owner hid
  exact ⟨p, hp, hclean id p hid hp⟩

/-- What a request about an open document comes to: the first owner answers, or nobody does. -/
theorem serve_isOpen {request : Request} {command : Command}
    {arguments : Request.LocationArguments} {target : ProjectId} {rest : List ProjectId}
    {p : Project} (host : Host) (h : Consistent w)
    (hcommand : Command.ofName? request.command = some command)
    (hsyntactic : command.category = .syntactic)
    (hdecoded : Request.locationArguments request.arguments = .ok arguments)
    (howners : w.projectsOf arguments.file = target :: rest) (hnew : target ∉ rest)
    (hlive : w.project? target = some p) (hroot : p.hasRoot arguments.file = true)
    (hopen : w.documents.isOpen arguments.file = true) :
    (Ready w host target rest ∧ ∃ fields p',
        (w.serve .echo host request).1 = .ok ⟨some (.obj fields), some p'.name⟩ ∧
        ("project", .str p'.name) ∈ fields ∧
        (w.serve .echo host request).2.project? target = some p' ∧
        p'.hasRoot arguments.file = true) ∨
      ¬ Ready w host target rest ∧ ∃ e, (w.serve .echo host request).1 = .error e := by
  have hmoves : Moves host w (w.refreshTargets host (target :: rest)).2 :=
    (refreshTargets_inquiries none host w (target :: rest)).moves
  have hkept : ∀ p', (w.refreshTargets host (target :: rest)).2.project? target = some p' →
      p'.isDirty = false → p'.hasRoot arguments.file = true :=
    fun _ hp' hclean => hasRoot_of_refreshTargets host hnew hlive hopen hroot hp' hclean
  rw [serve_question host hcommand (not_lifecycle_of_syntactic hsyntactic) hdecoded,
    serveLanguage_owned host howners, ready_iff]
  generalize w.refreshTargets host (target :: rest) = answer at hmoves hkept
  obtain ⟨result, next⟩ := answer
  cases result with
  | error e =>
    refine .inr ⟨fun ⟨hok, _⟩ => ?_, e, rfl⟩
    cases hok
  | ok _ =>
    have hanswers : ∀ p', next.project? target = some p' → p'.isDirty = false →
        ∃ fields, next.ask .echo target ⟨command, arguments.file, arguments.location?⟩ =
          .ok ⟨some (.obj fields), some p'.name⟩ ∧ ("project", .str p'.name) ∈ fields :=
      fun p' hp' hclean => ask_echo (hmoves.consistent h) _ (isSemantic_of_syntactic hsyntactic)
        hp' hclean (hkept p' hp' hclean)
    simp only
    cases hasked : next.ask .echo target ⟨command, arguments.file, arguments.location?⟩ with
    | error e =>
      refine .inr ⟨fun ⟨_, p', hp', hclean⟩ => ?_, e, rfl⟩
      obtain ⟨fields, hanswer, -⟩ := hanswers p' hp' hclean
      rw [hasked] at hanswer
      cases hanswer
    | ok served =>
      obtain ⟨p', files, hp', hfiles⟩ := files_of_ask hasked
      have hclean := Project.clean_of_files? hfiles
      obtain ⟨fields, hanswer, hproject⟩ := hanswers p' hp' hclean
      rw [hasked] at hanswer
      cases hanswer
      exact .inl ⟨⟨rfl, p', hp', hclean⟩, fields, p', rfl, hproject, hp', hkept p' hp' hclean⟩

/-- **When a request about an open document is answered**, if one syntax tree answers it.  It goes
to the first owner, which has the document as a root.  It is answered if and only if every owner is
still there when its turn to be brought up to date comes, and the first one is there and clean in
the end; then the body names the first owner, and that still has the document as a root.  This is so
whenever there is no other owner, or no configured owner is dirty. -/
theorem open_document_is_served_iff (settings : Settings) (steps : List (Host × Action))
    (session : Session) (host : Host) (request : Request) (command : Command)
    (arguments : Request.LocationArguments) (hsession : session.workspace = run settings steps)
    (hcommand : Command.ofName? request.command = some command)
    (hsyntactic : command.category = .syntactic)
    (hdecoded : Request.locationArguments request.arguments = .ok arguments)
    (hopen : (run settings steps).documents.isOpen arguments.file = true) :
    let w := run settings steps
    let answer := session.answer .echo host request
    ∃ target rest, w.projectsOf arguments.file = target :: rest ∧
      w.hasRoot arguments.file target = true ∧
      (answer.1.succeeded = true ↔ Ready w host target rest) ∧
      (answer.1.succeeded = true → ∃ fields p, answer.1.result = .ok (some (.obj fields)) ∧
        ("project", .str p.name) ∈ fields ∧ answer.2.workspace.project? target = some p ∧
        p.hasRoot arguments.file = true) ∧
      ((rest = [] ∨ ∀ id p, id ∈ w.ownership.ownersOf arguments.file → w.project? id = some p →
        p.kind = .configured → p.isDirty = false) → answer.1.succeeded = true) := by
  intro w answer
  have hlawful : Lawful (w, still) := run_lawful settings steps
  obtain ⟨target, rest, p, howners, hnodup, hlive, hroot⟩ :=
    projectsOf_of_isOpen hlawful (run_anchored settings steps) hopen
  have hserved := serve_isOpen host hlawful.consistent hcommand hsyntactic hdecoded howners
    (List.nodup_cons.1 hnodup).1 hlive hroot hopen
  have hresult : answer.1.result = (w.serve .echo host request).1.map Served.body := by
    unfold answer Session.answer
    rw [hsession]
  have hnext : answer.2.workspace = (w.serve .echo host request).2 := by
    unfold answer
    rw [workspace_answer, hsession]
    rfl
  have hready : (rest = [] ∨ ∀ id p, id ∈ w.ownership.ownersOf arguments.file →
      w.project? id = some p → p.kind = .configured → p.isDirty = false) →
      Ready w host target rest := by
    rintro (rfl | hclean)
    · exact ready_of_alone host hlive hopen hroot
    · exact ready_of_quiet host hnodup (quiet_of_owners hlawful.consistent howners hclean)
  refine ⟨target, rest, howners, ?_, ?_⟩
  · unfold hasRoot
    rw [hlive]
    exact hroot
  · unfold Response.succeeded
    rw [hresult, hnext]
    rcases hserved with ⟨hthere, fields, p', hok, hproject, hp', hkept⟩ | ⟨hnot, e, herror⟩
    · rw [hok]
      exact ⟨⟨fun _ => hthere, fun _ => rfl⟩, fun _ => ⟨fields, p', rfl, hproject, hp', hkept⟩,
        fun _ => rfl⟩
    · rw [herror]
      exact ⟨⟨nofun, fun h => absurd h hnot⟩, nofun, fun h => absurd (hready h) hnot⟩

/-! ## A manifest that comes to name an imported file -/

/-- The manifest names the first file, which imports the second one. -/
def claimingFiles : Memory :=
  let place (text : String) : Path := (Path.mk .slash []).join text
  ((Memory.empty.addFile (place "p/tsconfig.json") "\x7b\"files\":[\"a.ts\"]\x7d").addFile
    (place "p/a.ts") "import './f'").addFile (place "p/f.ts") ""

def claimingManifest : Path := (Path.mk .slash []).join "p/tsconfig.json"

def claimedFile : Path := (Path.mk .slash []).join "p/f.ts"

/-- Both files are opened; the second one is a root of a project of its own, and a member of the
first one's. -/
def claimingRequests : List (Host × Action) :=
  ["/p/a.ts", "/p/f.ts"].map fun file =>
    (unlistedHost claimingFiles, .request .echo ⟨1, "open", .obj [("file", .str file)]⟩)

def claimingRequest : Request := ⟨3, "navtree", .obj [("file", .str "/p/f.ts")]⟩

theorem open_document_is_served_iff_claiming :
    let w := run .default claimingRequests
    let session : Session := ⟨w, 0, []⟩
    let answer := session.answer .echo (unlistedHost claimingFiles) claimingRequest
    Command.ofName? claimingRequest.command = some .navTree ∧
      Command.navTree.category = .syntactic ∧
      Request.locationArguments claimingRequest.arguments = .ok ⟨claimedFile, none, none⟩ ∧
      w.documents.isOpen claimedFile = true ∧ answer.1.succeeded = true ∧
      ∃ target fields p, w.hasRoot claimedFile target = true ∧
        answer.1.result = .ok (some (.obj fields)) ∧ ("project", .str p.name) ∈ fields ∧
        answer.2.workspace.project? target = some p ∧ p.hasRoot claimedFile = true := by
  intro w session answer
  have hfacts : w.documents.isOpen claimedFile = true ∧
      ∀ id ∈ w.ownership.ownersOf claimedFile, (w.project? id).all (!·.isDirty) = true := by
    decide +kernel
  obtain ⟨hopen, hclean⟩ := hfacts
  obtain ⟨target, rest, -, hroot, -, hbody, hserved⟩ :=
    open_document_is_served_iff .default claimingRequests session (unlistedHost claimingFiles)
      claimingRequest .navTree ⟨claimedFile, none, none⟩ rfl rfl rfl rfl hopen
  have hsucceeded : answer.1.succeeded = true := hserved <| .inr fun id p hid hp _ => by
    have hall := hclean id hid
    rw [hp] at hall
    simpa using hall
  obtain ⟨fields, p, hresult, hproject, hp, hkept⟩ := hbody hsucceeded
  exact ⟨rfl, rfl, rfl, hopen, hsucceeded, target, fields, p, hroot, hresult, hproject, hp, hkept⟩

/-- The host when the manifest names the second file as well. -/
def claimingNext : Host :=
  unlistedHost (claimingFiles.addFile claimingManifest
    "\x7b\"files\":[\"a.ts\",\"f.ts\"]\x7d")

/-- The rebuild of the second owner ends the first one, which is asked all the same. -/
theorem open_document_is_not_served :
    let w := run .default
      (claimingRequests ++ [(claimingNext, .notice ⟨claimingManifest, .modified⟩)])
    let session : Session := ⟨w, 0, []⟩
    Command.ofName? claimingRequest.command = some .navTree ∧
      Command.navTree.category = .syntactic ∧
      Request.locationArguments claimingRequest.arguments = .ok ⟨claimedFile, none, none⟩ ∧
      w.documents.isOpen claimedFile = true ∧ w.projectsOf claimedFile = [⟨2⟩, ⟨1⟩] ∧
      (session.answer .echo claimingNext claimingRequest).1.succeeded = false :=
  ⟨rfl, rfl, rfl, by decide +kernel⟩

end Codebase.Workspace
