import Codebase.Proofs.Workspace.Serving
/-!
# Requests about files that can be read

A file need not be open for a request to be about it.  If some project has it, the request goes to
the first one, which is brought up to date with all the others; if none has it, an auxiliary project
is made for it.  An owner may have the file only because an earlier build found it, and its rebuild
can lose it; then the request fails, although another one would find the file without owners.

* `providerFor_unowned` — what a file without owners gets.
* `refresh_standIn` — an auxiliary project shows its file.
* `readable_file_is_served_iff` — when a request about a file that the host can read is answered, and
  by whom.
* `readable_file_is_not_served` — not every one is.
-/

namespace Codebase.Workspace

variable {host : Host} {w : Workspace} {id : ProjectId} {path : Path}

/-! ## Files without owners -/

/-- A file without owners gets an auxiliary project, unless it is no document and the host cannot
read it. -/
theorem providerFor_unowned (host : Host) (hunowned : w.projectsOf path = []) :
    (w.documents.contains path = false ∧ (∀ text, host.read path ≠ .ok text) ∧
        w.providerFor host path = (.error (.noProject path.text), w)) ∨
      ((w.documents.contains path = true ∨ ∃ text, host.read path = .ok text) ∧
        ∃ documents, w.providerFor host path =
          (.ok ⟨w.lastNumber + 1⟩, ({ w with documents }.addStandIn path).2)) := by
  have hfirst : w.firstOwner? path = none := by
    unfold firstOwner?
    rw [hunowned]
    rfl
  unfold providerFor
  rw [hfirst]
  simp only
  cases hdocument : w.documents.contains path with
  | true => exact .inr ⟨.inl rfl, w.documents, rfl⟩
  | false =>
    cases hread : host.read path with
    | error e => exact .inl ⟨rfl, nofun, rfl⟩
    | ok text => exact .inr ⟨.inr ⟨text, rfl⟩, w.documents.note path text, rfl⟩

/-- After its rebuild an auxiliary project shows its file, and nothing else. -/
theorem refresh_standIn (h : Consistent w) (host : Host) (documents : Documents) (path : Path) :
    ∃ p, ((({ w with documents }.addStandIn path).2.refresh host ⟨w.lastNumber + 1⟩).2).project?
        ⟨w.lastNumber + 1⟩ = some p ∧ p.kind = .auxiliary ∧ p.capability = .syntacticOnly ∧
      p.roots.toList = [path] ∧ p.files? = some [path] := by
  have hlive : ({ w with documents }.addStandIn path).2.project? ⟨w.lastNumber + 1⟩ =
      some (.auxiliary ⟨w.lastNumber + 1⟩ path) :=
    (project?_addStandIn _ path _).trans (if_pos rfl)
  obtain ⟨p, hp, horigin, hcapability, hroots, hfiles⟩ :=
    refresh_syntacticOnly ((h.documents documents).addStandIn path) host hlive nofun rfl
  have hkind : p.kind = .auxiliary := by
    unfold Project.kind
    rw [horigin]
    rfl
  exact ⟨p, hp, hkind, hcapability, congrArg Roster.toList hroots, hfiles⟩

/-- A question about a file without owners is put to its new project. -/
theorem serveLanguage_provided {service : LanguageService} {command : Command}
    {arguments : Request.LocationArguments} {documents : Documents} (host : Host)
    (hunowned : w.projectsOf arguments.file = [])
    (hprovided : w.providerFor host arguments.file =
      (.ok ⟨w.lastNumber + 1⟩, ({ w with documents }.addStandIn arguments.file).2)) :
    w.serveLanguage service host command arguments =
      let next := (({ w with documents }.addStandIn arguments.file).2.refresh host
        ⟨w.lastNumber + 1⟩).2
      (next.ask service ⟨w.lastNumber + 1⟩ ⟨command, arguments.file, arguments.location?⟩,
        next) := by
  have hlive : ({ w with documents }.addStandIn arguments.file).2.project? ⟨w.lastNumber + 1⟩ =
      some (.auxiliary ⟨w.lastNumber + 1⟩ arguments.file) :=
    (project?_addStandIn _ arguments.file _).trans (if_pos rfl)
  have htargets : w.targetsFor host arguments.file =
      (.ok [⟨w.lastNumber + 1⟩], ({ w with documents }.addStandIn arguments.file).2) := by
    unfold targetsFor
    rw [hunowned]
    simp only [hprovided]
  unfold serveLanguage
  rw [htargets]
  simp only
  rw [refreshTargets_cons host hlive]
  rfl

/-! ## Answers -/

/-- The request is answered from the project, which has the file: the body names the project and
lists its files. -/
structure ServedBy (answer : Response × Session) (file : Path) (id : ProjectId) (p : Project) :
    Prop where
  live : answer.2.workspace.project? id = some p
  body : ∃ fields files, answer.1.result = .ok (some (.obj fields)) ∧
    ("project", .str p.name) ∈ fields ∧ ("files", .array (files.map Path.toJson)) ∈ fields ∧
    p.files? = some files ∧ file ∈ files

/-- Every owner is there in its turn, and the first one still has the path in the end. -/
def Retains (w : Workspace) (host : Host) (path : Path) (target : ProjectId)
    (rest : List ProjectId) : Prop :=
  Ready w host target rest ∧ ∃ p files,
    (w.refreshTargets host (target :: rest)).2.project? target = some p ∧
      p.files? = some files ∧ path ∈ files

/-- An answer is what the workspace serves, and succeeds when that does. -/
theorem answer_eq {session : Session} (hsession : session.workspace = w)
    (service : LanguageService) (host : Host) (request : Request) :
    (session.answer service host request).1.result =
        (w.serve service host request).1.map Served.body ∧
      (session.answer service host request).1.succeeded =
        (w.serve service host request).1.isOk ∧
      (session.answer service host request).2.workspace = (w.serve service host request).2 := by
  have hisOk : ∀ result : Except Error Served,
      (result.map Served.body).isOk = result.isOk := by
    intro result
    cases result <;> rfl
  rw [← hsession]
  exact ⟨rfl, hisOk _, rfl⟩

/-- An answer of the echo service names a project that has the file. -/
theorem servedBy_of_ask {session : Session} {request : Request} {question : Question}
    {next : Workspace} {p : Project} {files : List Path} (hsession : session.workspace = w)
    (hserve : w.serve .echo host request = (next.ask .echo id question, next))
    (hsyntactic : question.command.isSemantic = false) (hlive : next.project? id = some p)
    (hfiles : p.files? = some files) (hmem : question.file ∈ files) :
    (session.answer .echo host request).1.succeeded = true ∧
      ServedBy (session.answer .echo host request) question.file id p := by
  obtain ⟨fields, hask, hproject, hlisted⟩ := ask_echo_of_mem hsyntactic hlive hfiles hmem
  obtain ⟨hresult, hsucceeded, hnext⟩ := answer_eq hsession .echo host request
  rw [hserve] at hresult hsucceeded hnext
  rw [hask] at hresult hsucceeded
  exact ⟨hsucceeded, hnext ▸ hlive, fields, files, hresult, hproject, hlisted, hfiles, hmem⟩

/-- What a question of one syntax tree about a file with owners comes to: the first one answers if
it retains the file, and otherwise nobody does. -/
theorem answer_owned {session : Session} {request : Request} {command : Command}
    {arguments : Request.LocationArguments} {target : ProjectId} {rest : List ProjectId}
    (host : Host) (hsession : session.workspace = w)
    (hcommand : Command.ofName? request.command = some command)
    (hsyntactic : command.category = .syntactic)
    (hdecoded : Request.locationArguments request.arguments = .ok arguments)
    (howners : w.projectsOf arguments.file = target :: rest) :
    let answer := session.answer .echo host request
    (answer.1.succeeded = true ↔ Retains w host arguments.file target rest) ∧
      (answer.1.succeeded = true → ∃ p, ServedBy answer arguments.file target p) := by
  intro answer
  have hasked : w.serve .echo host request = w.serveLanguage .echo host command arguments :=
    serve_question host hcommand (not_lifecycle_of_syntactic hsyntactic) hdecoded
  have hserve := hasked.trans (serveLanguage_owned host howners)
  have hquestion := isSemantic_of_syntactic hsyntactic
  obtain ⟨-, hsucceeded, -⟩ := answer_eq hsession .echo host request
  unfold Retains
  rw [ready_iff]
  cases hrefreshed : w.refreshTargets host (target :: rest) with
  | mk result next =>
    rw [hrefreshed] at hserve
    cases result with
    | error e =>
      rw [hserve] at hsucceeded
      exact ⟨⟨fun h => absurd (hsucceeded.symm.trans h) nofun, fun h => absurd h.1.1 nofun⟩,
        fun h => absurd (hsucceeded.symm.trans h) nofun⟩
    | ok _ =>
      simp only at hserve
      have hshows : answer.1.succeeded = true ↔ ∃ p files, next.project? target = some p ∧
          p.files? = some files ∧ arguments.file ∈ files := by
        rw [hsucceeded, hserve]
        exact ask_echo_isOk_iff hquestion
      rw [hshows]
      constructor
      · constructor
        · rintro ⟨p, files, hp, hfiles, hmem⟩
          exact ⟨⟨rfl, p, hp, Project.clean_of_files? hfiles⟩, p, files, hp, hfiles, hmem⟩
        · exact And.right
      · rintro ⟨p, files, hp, hfiles, hmem⟩
        exact ⟨p, (servedBy_of_ask hsession hserve hquestion hp hfiles hmem).2⟩

/-- While no configured owner is dirty, the first one has the path in the end if it is clean, or if a
build of its roots finds the path. -/
theorem retains_iff_of_quiet {target : ProjectId} {rest : List ProjectId} {p : Project}
    (h : Consistent w) (host : Host) (hnodup : (target :: rest).Nodup)
    (howner : target ∈ w.ownership.ownersOf path) (hlive : w.project? target = some p)
    (hquiet : ∀ id ∈ target :: rest, w.Quiet id) :
    Retains w host path target rest ↔ p.isDirty = false ∨
      path ∈ (Build.make (.ofCapability p.capability) (w.context host) p.roots.toList
        p.options).files := by
  have hready := ready_of_quiet host hnodup hquiet
  obtain ⟨p', hp', hclean, hcases⟩ := refresh_self host hlive
  unfold Retains
  rw [and_iff_right hready, project?_refreshTargets_quiet host hnodup hquiet, hp']
  rcases hcases with rfl | ⟨build, hbuilt⟩
  · -- a clean project shows every path that is linked to it
    obtain ⟨files, hsettled⟩ := (h.linked target p' hlive).settled hclean
    refine iff_of_true ⟨p', files, rfl, ?_, ?_⟩ (.inl hclean)
    · exact (Project.files?_of_clean hclean).trans hsettled.derived
    · exact (hsettled.links path).1 ((h.mirrored target path).1 howner)
  · obtain ⟨hdirty, hrebuilt⟩ := Project.rebuilt_of_refresh? hbuilt
    have hkind : p.kind ≠ .configured := fun hconfigured => by
      obtain ⟨q, hq, hquiet⟩ := hquiet target List.mem_cons_self
      rw [hlive] at hq
      cases hq
      rw [hquiet hconfigured] at hdirty
      cases hdirty
    obtain ⟨horigin, hcapability, hroots⟩ := Project.unconfigured_of_refresh? hkind hbuilt
    have hoptions : p'.options = p.options := by
      unfold Project.options Project.manifest?
      rw [horigin]
    rw [← hcapability, ← hroots, ← hoptions, ← hrebuilt.built, hdirty]
    constructor
    · rintro ⟨q, files, hq, hfiles, hmem⟩
      cases hq
      rw [hrebuilt.files?] at hfiles
      cases hfiles
      exact .inr hmem
    · rintro (hfalse | hmem)
      · cases hfalse
      · exact ⟨p', build.files, rfl, hrebuilt.files?, hmem⟩

/-- **When a request about a file that the host can read is answered**, if one syntax tree answers
it.  A file without owners gets an auxiliary project, which answers.  Otherwise the request goes to
the first owner; it is answered if and only if every owner is still there when its turn to be brought
up to date comes, and the first one still has the file in the end, and then by that one.  While no
configured owner is dirty, this is so if and only if the first owner was clean, or a build of its
roots finds the file. -/
theorem readable_file_is_served_iff (settings : Settings) (steps : List (Host × Action))
    (session : Session) (host : Host) (request : Request) (command : Command)
    (arguments : Request.LocationArguments) (text : String)
    (hsession : session.workspace = run settings steps)
    (hcommand : Command.ofName? request.command = some command)
    (hsyntactic : command.category = .syntactic)
    (hdecoded : Request.locationArguments request.arguments = .ok arguments)
    (hread : host.read arguments.file = .ok text) :
    let w := run settings steps
    let answer := session.answer .echo host request
    (w.projectsOf arguments.file = [] → answer.1.succeeded = true ∧
      ∃ id p, ServedBy answer arguments.file id p ∧ p.kind = .auxiliary ∧
        p.roots.toList = [arguments.file]) ∧
    ∀ target rest, w.projectsOf arguments.file = target :: rest →
      (answer.1.succeeded = true ↔ Retains w host arguments.file target rest) ∧
      (answer.1.succeeded = true → ∃ p, ServedBy answer arguments.file target p) ∧
      ((∀ id p, id ∈ w.ownership.ownersOf arguments.file → w.project? id = some p →
          p.kind = .configured → p.isDirty = false) →
        ∃ p, w.project? target = some p ∧ (answer.1.succeeded = true ↔ p.isDirty = false ∨
          arguments.file ∈ (Build.make (.ofCapability p.capability) (w.context host)
            p.roots.toList p.options).files)) := by
  intro w answer
  have h : Consistent w := run_consistent settings steps
  refine ⟨fun hunowned => ?_, fun target rest howners => ?_⟩
  · rcases providerFor_unowned host hunowned with ⟨-, hunread, -⟩ | ⟨-, documents, hprovided⟩
    · exact absurd hread (hunread text)
    · obtain ⟨p, hp, hkind, -, hroots, hfiles⟩ := refresh_standIn h host documents arguments.file
      have hserve : w.serve .echo host request = w.serveLanguage .echo host command arguments :=
        serve_question host hcommand (not_lifecycle_of_syntactic hsyntactic) hdecoded
      rw [serveLanguage_provided host hunowned hprovided] at hserve
      obtain ⟨hsucceeded, hserved⟩ := servedBy_of_ask hsession hserve
        (isSemantic_of_syntactic hsyntactic) hp hfiles (List.mem_singleton.2 rfl)
      exact ⟨hsucceeded, _, p, hserved, hkind, hroots⟩
  · obtain ⟨hiff, hserved⟩ := answer_owned host hsession hcommand hsyntactic hdecoded howners
    refine ⟨hiff, hserved, fun hclean => ?_⟩
    have hquiet := quiet_of_owners h howners hclean
    have howner : target ∈ w.ownership.ownersOf arguments.file := by
      rw [← mem_projectsOf, howners]
      exact List.mem_cons_self
    obtain ⟨p, hp⟩ := h.live_of_owner howner
    have hnodup : (target :: rest).Nodup := by
      rw [← howners]
      exact nodup_projectsOf (run_anchored settings steps) arguments.file
    exact ⟨p, hp, hiff.trans (retains_iff_of_quiet h host hnodup howner hp hquiet)⟩

/-! ### An import that goes -/

/-- The first file imports the second one. -/
def importingHost : Host :=
  let place (text : String) : Path := (Path.mk .slash []).join text
  unlistedHost ((Memory.empty.addFile (place "a.ts") "import './b'").addFile (place "b.ts") "")

def importedFile : Path := (Path.mk .slash []).join "b.ts"

/-- The first file is opened, so its project has the second one too. -/
def importingSteps : List (Host × Action) :=
  [(importingHost, .request .echo ⟨1, "open", .obj [("file", .str "/a.ts")]⟩)]

def importedRequest : Request := ⟨3, "navtree", .obj [("file", .str "/b.ts")]⟩

theorem readable_file_is_served_iff_importing :
    let w := run .default importingSteps
    let session : Session := ⟨w, 0, []⟩
    let answer := session.answer .echo importingHost importedRequest
    Command.ofName? importedRequest.command = some .navTree ∧
      Command.navTree.category = .syntactic ∧
      Request.locationArguments importedRequest.arguments = .ok ⟨importedFile, none, none⟩ ∧
      importingHost.read importedFile = .ok "" ∧ w.documents.isOpen importedFile = false ∧
      answer.1.succeeded = true ∧ ∃ p, ServedBy answer importedFile ⟨1⟩ p := by
  intro w session answer
  have hfacts : importingHost.read importedFile = .ok "" ∧
      w.documents.isOpen importedFile = false ∧ w.projectsOf importedFile = [⟨1⟩] ∧
      (∀ id ∈ w.ownership.ownersOf importedFile, (w.project? id).all (!·.isDirty) = true) ∧
      (w.project? ⟨1⟩).all (!·.isDirty) = true := by
    decide +kernel
  obtain ⟨hread, hclosed, howners, hclean, hfirst⟩ := hfacts
  obtain ⟨-, howned⟩ :=
    readable_file_is_served_iff .default importingSteps session importingHost importedRequest
      .navTree ⟨importedFile, none, none⟩ "" rfl rfl rfl rfl hread
  obtain ⟨-, hserved, hquiet⟩ := howned ⟨1⟩ [] howners
  obtain ⟨p, hp, hiff⟩ := hquiet fun id p hid hp _ => by
    have hall := hclean id hid
    rw [hp] at hall
    simpa using hall
  have hsucceeded : answer.1.succeeded = true := hiff.2 <| .inl <| by
    rw [hp] at hfirst
    simpa using hfirst
  exact ⟨rfl, rfl, rfl, hread, hclosed, hsucceeded, hserved hsucceeded⟩

/-- The first file is emptied, so its project has to be built again. -/
def emptyingStep : Host × Action :=
  (importingHost, .request .echo ⟨2, "change", .obj [
    ("file", .str "/a.ts"), ("line", .nat 1), ("offset", .nat 1), ("endLine", .nat 1),
    ("endOffset", .nat 13), ("insertString", .str "")]⟩)

/-- The rebuild of its only owner loses the file, and nobody else is asked. -/
theorem readable_file_is_not_served :
    let w := run .default (importingSteps ++ [emptyingStep])
    let session : Session := ⟨w, 0, []⟩
    Command.ofName? importedRequest.command = some .navTree ∧
      Command.navTree.category = .syntactic ∧
      Request.locationArguments importedRequest.arguments = .ok ⟨importedFile, none, none⟩ ∧
      importingHost.read importedFile = .ok "" ∧ w.documents.isOpen importedFile = false ∧
      w.projectsOf importedFile = [⟨1⟩] ∧
      (session.answer .echo importingHost importedRequest).1.succeeded = false :=
  ⟨rfl, rfl, rfl, by decide +kernel⟩

end Codebase.Workspace
