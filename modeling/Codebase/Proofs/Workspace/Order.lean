import Codebase.Proofs.Allotment
import Codebase.Proofs.Workspace.Admission
/-!
# Opening files in some order

Requests open the files of a list, each with the text that the host has, from a new workspace.  What
comes of that is an allotment: the governor of a file is the charter that it falls to on the host,
and a charter names what its manifest names.  Only a file that contends for a manifest which cannot
be loaded may fall to another one, and the order matters to it.

* `Reflects` — the workspace and the state of the allotment say the same.
* `Reflects.request` — one request is one step of the allotment.
* `Contends.unsettled` — the home of a file that contends depends on the order.
* `opening_order_is_immaterial_iff` — for which files the order does not matter.
* `opening_order_matters` — it may.
-/

namespace Codebase.Workspace

variable {host : Host} {settings : Settings} {service : LanguageService} {w w' : Workspace}
  {id x : ProjectId} {path q : Path} {content : String} {charter : Charter}
  {s s' : Allotment.State Path Charter}

/-- The files that the host has for each charter, and the charter that it has for each file. -/
def allotment (host : Host) (settings : Settings) : Allotment Path Charter where
  governor := charterFor host settings
  names charter q := q ∈ charter.named host settings

theorem names_allotment :
    (allotment host settings).names charter q = true ↔ q ∈ charter.named host settings :=
  decide_eq_true_iff

/-- The workspace is what an allotment has led to: its configured projects are the charters that
have started, and the homes of the open documents agree. -/
structure Reflects (w : Workspace) (s : Allotment.State Path Charter) : Prop where
  roll : ∃ ids : List ProjectId, ids.Pairwise (fun a b => a.number < b.number) ∧
    (∀ x, x ∈ ids ↔ w.mandate? x ≠ none) ∧
    ids.map w.charter? = (s.started.filter fun c => c.kind = .configured).map some
  isOpen : ∀ q, w.documents.isOpen q = (s.home q).isSome
  home : ∀ q c, s.home q = some c → FindsHome w q c

theorem reflects_new (settings : Settings) : Reflects (new settings) .empty where
  roll := ⟨[], .nil, fun _ => iff_of_false List.not_mem_nil fun h => h rfl, rfl⟩
  isOpen _ := rfl
  home _ _ h := by cases h

/-- A document has one home only. -/
theorem FindsHome.unique {charter' : Charter} (h : FindsHome w q charter)
    (h' : FindsHome w q charter') : charter = charter' := by
  obtain ⟨id, hhome, hcharter⟩ := h
  obtain ⟨id', hhome', hcharter'⟩ := h'
  rw [(hhome id').1 hhome'.hasRoot, hcharter] at hcharter'
  exact Option.some.inj hcharter'

/-! ## What has started -/

/-- The configured charters that have started are those of the projects that are there. -/
theorem Reflects.mem_started (h : Reflects w s) (hkind : charter.kind = .configured) :
    charter ∈ s.started ↔ ∃ x, w.charter? x = some charter := by
  obtain ⟨ids, -, hmem, hroll⟩ := h.roll
  have hlist : charter ∈ s.started ↔ some charter ∈ ids.map w.charter? := by
    rw [hroll]
    simp [hkind]
  rw [hlist, List.mem_map]
  constructor
  · rintro ⟨x, -, hx⟩
    exact ⟨x, hx⟩
  · rintro ⟨x, hx⟩
    obtain ⟨mandate, hmandate, -⟩ := mandate?_of_charter? hkind hx
    exact ⟨x, (hmem x).2 (by rw [hmandate]; exact nofun), hx⟩

/-- A configured project has a closed path as a root if its charter names it. -/
theorem AtRest.hasRoot_iff_named (h : AtRest host w) (hclosed : w.documents.isOpen q = false)
    (hkind : charter.kind = .configured) (hx : w.charter? x = some charter) :
    w.hasRoot q x = true ↔ q ∈ charter.named host w.settings := by
  obtain ⟨mandate, hmandate, rfl⟩ := mandate?_of_charter? hkind hx
  rw [h.named x mandate q hmandate hclosed, (h.upToDate x mandate hmandate).named]

/-- A closed path is free if no charter names it that has started. -/
theorem Reflects.free (h : Reflects w s) (hrest : AtRest host w)
    (hclosed : w.documents.isOpen q = false)
    (hunnamed : ∀ c ∈ s.started, ¬ (allotment host w.settings).names c q) (x : ProjectId) :
    w.hasRoot q x = false := by
  refine Bool.eq_false_iff.2 fun hroot => ?_
  obtain ⟨mandate, hmandate⟩ := Option.ne_none_iff_exists'.1 (hrest.mandate?_ne_none hclosed hroot)
  have hcharter := charter?_of_mandate? hmandate
  refine hunnamed _ ((h.mem_started rfl).2 ⟨x, hcharter⟩) (names_allotment.2 ?_)
  exact (hrest.hasRoot_iff_named hclosed rfl hcharter).1 hroot

/-- The first of an increasing list that fits is the least one. -/
theorem eq_of_find?_increasing {ids : List ProjectId} {first : ProjectId} {f : ProjectId → Bool}
    (hids : ids.Pairwise fun a b => a.number < b.number) (hfirst : ids.find? f = some first)
    (hmem : id ∈ ids) (hfits : f id = true) (hle : id.number ≤ first.number) : id = first := by
  obtain ⟨-, -, hleast⟩ := (find?_eq_some_iff_of_rising hids).1 hfirst
  have hsame : ids.find? f = some id := (find?_eq_some_iff_of_rising hids).2
    ⟨hmem, hfits, fun other hother hf => Nat.le_trans hle (hleast other hother hf)⟩
  exact Option.some.inj (hsame.symm.trans hfirst)

/-- The oldest charter that names a path is that of the oldest project that does. -/
theorem Reflects.charter?_of_oldest (h : Reflects w s) (hrest : AtRest host w)
    (hclosed : w.documents.isOpen path = false) (hroot : w.hasRoot path id = true)
    (holdest : ∀ y, w.hasRoot path y = true → id.number ≤ y.number)
    (hfound : s.started.find? ((allotment host w.settings).names · path) = some charter) :
    w.charter? id = some charter := by
  obtain ⟨ids, hids, hmem, hroll⟩ := h.roll
  have hfind : (ids.map w.charter?).find?
      (fun c => c.any ((allotment host w.settings).names · path)) = some (some charter) := by
    -- only configured charters name anything
    have hfits : ∀ c : Charter, decide (decide (c.kind = .configured) = true ∧
        (allotment host w.settings).names c path = true) =
          (allotment host w.settings).names c path := fun c => by
      rw [Bool.eq_iff_iff, decide_eq_true_iff, decide_eq_true_iff]
      exact and_iff_right_of_imp fun hnames => Charter.kind_of_named (names_allotment.1 hnames)
    rw [hroll, List.find?_map, List.find?_filter]
    simp only [Function.comp_def, Option.any_some, hfits]
    exact congrArg (Option.map some) hfound
  rw [List.find?_map, Option.map_eq_some_iff] at hfind
  obtain ⟨first, hfirst, hcharter⟩ := hfind
  have hnamed := List.find?_some hfound
  have hkind := Charter.kind_of_named (names_allotment.1 hnamed)
  have hfirstRoot : w.hasRoot path first = true :=
    (hrest.hasRoot_iff_named hclosed hkind hcharter).2 (names_allotment.1 hnamed)
  obtain ⟨mandate, hmandate⟩ :=
    Option.ne_none_iff_exists'.1 (hrest.mandate?_ne_none hclosed hroot)
  have hown := charter?_of_mandate? hmandate
  have hnames := names_allotment.2 ((hrest.hasRoot_iff_named hclosed rfl hown).1 hroot)
  have heq : id = first := by
    refine eq_of_find?_increasing hids hfirst ((hmem id).2 ?_) ?_ (holdest first hfirstRoot)
    · rw [hmandate]
      exact nofun
    · simp only [Function.comp_apply, hown, Option.any_some]
      exact hnames
  rw [heq]
  exact hcharter

/-! ## One request -/

/-- A home is kept while the root and the mandate are. -/
theorem FindsHome.keep (h : FindsHome w q charter)
    (hroots : ∀ y, w'.rootKind q y = w.rootKind q y)
    (hmandate : ∀ y, w.project? y ≠ none → w'.mandate? y = w.mandate? y) :
    FindsHome w' q charter := by
  obtain ⟨y, hhome, hcharter⟩ := h
  have hroot := hhome.hasRoot
  have hlive := live_of_hasRoot hroot
  rw [hasRoot_eq_isSome] at hroot
  obtain ⟨kind, hkind⟩ := Option.isSome_iff_exists.1 hroot
  exact ⟨y, hhome.congr fun x => hasRoot_congr (hroots x),
    charter?_of_root (hroots y) (hmandate y hlive) hkind hcharter⟩

/-- A document is given to a charter that has started. -/
theorem Reflects.give (h : Reflects w s) (hopen : ∀ q, w'.documents.isOpen q = true ↔
      q = path ∨ w.documents.isOpen q = true)
    (hmandate : ∀ y, w'.mandate? y = w.mandate? y) (hnew : FindsHome w' path charter)
    (hroots : ∀ q, q ≠ path → ∀ y, w'.rootKind q y = w.rootKind q y) :
    Reflects w' (s.give path charter) where
  roll := by
    obtain ⟨ids, hids, hmem, hroll⟩ := h.roll
    refine ⟨ids, hids, fun x => by rw [hmandate, hmem], Eq.trans ?_ hroll⟩
    refine List.map_congr_left fun x hx => ?_
    obtain ⟨mandate, hx⟩ := Option.ne_none_iff_exists'.1 ((hmem x).1 hx)
    rw [charter?_of_mandate? hx, charter?_of_mandate? ((hmandate x).trans hx)]
  isOpen q := by
    rw [Bool.eq_iff_iff, hopen, h.isOpen]
    unfold Allotment.State.give
    by_cases hq : q = path <;> simp [hq]
  home q c hhome := by
    unfold Allotment.State.give at hhome
    by_cases hq : q = path
    · simp only [hq, if_true, Option.some.injEq] at hhome
      rw [hq, ← hhome]
      exact hnew
    · simp only [if_neg hq] at hhome
      exact (h.home q c hhome).keep (hroots q hq) fun y _ => hmandate y

/-- An inferred project names nothing, so it does not matter that its charter starts. -/
theorem Reflects.start_inferred (h : Reflects w (s.give path .inferred))
    (hgovernor : (allotment host settings).governor path = .inferred) :
    Reflects w ((allotment host settings).start s path) := by
  have hnothing : ∀ q, (allotment host settings).names .inferred q = false := fun q => by
    rw [Bool.eq_false_iff, Ne, names_allotment]
    exact List.not_mem_nil
  have hhome : ((allotment host settings).start s path).home = (s.give path .inferred).home := by
    funext q
    unfold Allotment.start Allotment.State.give
    simp [hgovernor, hnothing]
  refine ⟨?_, fun q => by rw [hhome]; exact h.isOpen q, fun q c hq => ?_⟩
  · have hlist : ((allotment host settings).start s path).started.filter
        (fun c => c.kind = .configured) = s.started.filter fun c => c.kind = .configured := by
      unfold Allotment.start
      rw [List.filter_append, hgovernor]
      simp [Charter.kind]
    rw [hlist]
    exact h.roll
  · rw [hhome] at hq
    exact h.home q c hq

/-- Who is younger than all others was not there. -/
theorem project?_of_youngest {new : ProjectId}
    (hyoungest : ∀ x p, w.project? x = some p → x.number < new.number) :
    w.project? new = none := by
  cases hlive : w.project? new with
  | none => rfl
  | some p => exact absurd (hyoungest new p hlive) (Nat.lt_irrefl _)

/-- A configured project starts, and takes what it names of the open documents. -/
theorem Reflects.start {new : ProjectId} {mandate : Mandate} (h : Reflects w s)
    (hcurrent : mandate.Current host settings)
    (hgovernor : (allotment host settings).governor path = .configured mandate.manifestPath)
    (hopen : ∀ q, w'.documents.isOpen q = true ↔ q = path ∨ w.documents.isOpen q = true)
    (hyoungest : ∀ x p, w.project? x = some p → x.number < new.number)
    (hmandate : ∀ y, w'.mandate? y = if y = new then some mandate else w.mandate? y)
    (hnew : FindsHome w' path (.configured mandate.manifestPath))
    (hroots : ∀ q, q ≠ path → ∀ y, w'.rootKind q y =
      if q ∈ mandate.named host settings then
        if y = new then some .configured
        else if w.documents.isOpen q = true then none else w.rootKind q y
      else w.rootKind q y) :
    Reflects w' ((allotment host settings).start s path) where
  roll := by
    obtain ⟨ids, hids, hmem, hroll⟩ := h.roll
    have hnone := project?_of_youngest hyoungest
    have hold : ∀ x ∈ ids, x ≠ new := fun x hx heq => (hmem x).1 hx (by
      unfold Workspace.mandate?
      rw [heq, hnone]
      rfl)
    refine ⟨ids ++ [new], ?_, fun x => ?_, ?_⟩
    · refine List.pairwise_append.2 ⟨hids, List.pairwise_singleton _ _, fun x hx y hy => ?_⟩
      obtain ⟨own, hown⟩ := Option.ne_none_iff_exists'.1 ((hmem x).1 hx)
      obtain ⟨p, hp, -⟩ := mandate?_eq_some.1 hown
      rw [List.mem_singleton.1 hy]
      exact hyoungest x p hp
    · rw [List.mem_append, List.mem_singleton, hmandate, hmem]
      by_cases hx : x = new <;> simp [hx]
    · unfold Allotment.start
      rw [List.map_append, List.filter_append, List.map_append, ← hroll, hgovernor]
      congr 1
      · refine List.map_congr_left fun x hx => ?_
        obtain ⟨own, hown⟩ := Option.ne_none_iff_exists'.1 ((hmem x).1 hx)
        rw [charter?_of_mandate? hown,
          charter?_of_mandate? ((hmandate x).trans ((if_neg (hold x hx)).trans hown))]
      · have hcharter := charter?_of_mandate? ((hmandate new).trans (if_pos rfl))
        simp [hcharter, Charter.kind]
  isOpen q := by
    rw [Bool.eq_iff_iff, hopen, h.isOpen]
    unfold Allotment.start
    by_cases hq : q = path
    · simp [hq]
    · by_cases hsome : (s.home q).isSome = true <;> simp [hq, hsome]
      split <;> simp [hsome]
  home q c hhome := by
    unfold Allotment.start at hhome
    rw [hgovernor] at hhome
    by_cases hq : q = path
    · simp only [hq, true_or, if_true, Option.some.injEq] at hhome
      rw [hq, ← hhome]
      exact hnew
    · simp only [hq, false_or, names_allotment, hcurrent.named, ← h.isOpen] at hhome
      split at hhome
      · rename_i htaken
        cases hhome
        have hheld : HeldBy w' q new .configured := fun y => by
          rw [hroots q hq, if_pos htaken.1, if_pos htaken.2]
        exact ⟨new, hheld.home, charter?_of_mandate? ((hmandate new).trans (if_pos rfl))⟩
      · rename_i hleft
        have hopenq : w.documents.isOpen q = true := by
          rw [h.isOpen, hhome]
          rfl
        refine (h.home q c hhome).keep (fun y => ?_) fun y hy => ?_
        · rw [hroots q hq, if_neg fun hnamed => hleft ⟨hnamed, hopenq⟩]
        · rw [hmandate, if_neg]
          rintro rfl
          exact hy (project?_of_youngest hyoungest)

/-- A path is given to a project for which no other one starts. -/
theorem Reflects.request_assigned (h : Reflects w s) (hrest : AtRest host w)
    (hfree : ∀ x, w.hasRoot path x = false) (hnone : w.commission? host path = none)
    (hok : w.openFile host path content = (.ok id, w')) :
    Reflects (w'.refresh host id).2 (s.give path (w.patron host path)) := by
  obtain ⟨hcharter, new, hyoungest, hmandate, hroots⟩ := rootKind_request_free hrest hfree hok
  have hgranted : w.granted host path = [] := by
    unfold granted
    rw [hnone]
  have hsame : ∀ y, (w'.refresh host id).2.mandate? y = w.mandate? y := fun y => by
    rw [hmandate]
    split
    · rename_i hy
      unfold Workspace.mandate?
      rw [hnone, hy, project?_of_youngest hyoungest]
      rfl
    · rfl
  have hheld : HeldBy (w'.refresh host id).2 path id (w.patron host path).kind := fun y => by
    rw [hroots, if_pos rfl]
  refine h.give (isOpen_request hok) hsame ⟨id, hheld.home, hcharter⟩ fun q hq y => ?_
  rw [hroots, if_neg hq, hgranted, if_neg List.not_mem_nil]

/-- **A request to open a file is one step of the allotment.** -/
theorem Reflects.request (h : Reflects w s) (hrest : AtRest host w)
    (hplain : ∀ name ∈ w.settings.manifestFileNames, Segment.Plain name)
    (htractable : Tractable w host path) (hclosed : w.documents.isOpen path = false)
    (hok : w.openFile host path content = (.ok id, w')) :
    Reflects (w'.refresh host id).2 ((allotment host w.settings).allot s path) := by
  have hpatron : w.patron host path = (allotment host w.settings).governor path :=
    patron_eq hrest.owned.consistent hrest.upToDate htractable
  have hallots := Allotment.allot_allots (allotment host w.settings) s path
  generalize (allotment host w.settings).allot s path = next at hallots
  cases hallots with
  | named c hfound =>
    have hnamed := List.find?_some hfound
    have hnames := names_allotment.1 hnamed
    have hkind := Charter.kind_of_named hnames
    obtain ⟨y, hy⟩ := (h.mem_started hkind).1 (List.mem_of_find?_eq_some hfound)
    have hheld := (hrest.hasRoot_iff_named hclosed hkind hy).2 hnames
    obtain ⟨⟨hroot, holdest⟩, hmandate, hroots⟩ := rootKind_request_held hrest hclosed hheld hok
    have hcharter := h.charter?_of_oldest hrest hclosed hroot holdest hfound
    have hnow : HeldBy (w'.refresh host id).2 path id .configured := fun y => by
      rw [hroots, if_pos rfl]
    refine h.give (isOpen_request hok) hmandate ⟨id, hnow.home, ?_⟩ fun q hq y => ?_
    · obtain ⟨mandate, hid, rfl⟩ := mandate?_of_charter? hkind hcharter
      exact charter?_of_mandate? ((hmandate id).trans hid)
    · rw [hroots, if_neg hq]
  | governed hunnamed hold =>
    have hfree := h.free hrest hclosed hunnamed
    rw [← hpatron] at hold ⊢
    refine h.request_assigned hrest hfree ?_ hok
    -- a project that starts has a charter that nobody had
    cases hcommission : w.commission? host path with
    | none => rfl
    | some mandate =>
      obtain ⟨-, hcharter, hnobody⟩ := commission?_spec hplain hcommission
      rw [hcharter] at hold
      obtain ⟨x, hx⟩ := (h.mem_started rfl).1 hold
      exact absurd hx (hnobody x)
  | started hunnamed hnew =>
    have hfree := h.free hrest hclosed hunnamed
    cases hcommission : w.commission? host path with
    | none =>
      have hinferred : w.patron host path = .inferred := by
        refine (patron_of_commission?_eq_none hrest.owned.consistent hcommission).resolve_right ?_
        rintro ⟨hkind, hlive⟩
        rw [← hpatron] at hnew
        exact hnew ((h.mem_started hkind).2 hlive)
      have hgiven := h.request_assigned hrest hfree hcommission hok
      rw [hinferred] at hgiven
      exact hgiven.start_inferred (hpatron.symm.trans hinferred)
    | some mandate =>
      obtain ⟨hcurrent, hcharter, -⟩ := commission?_spec hplain hcommission
      obtain ⟨hid, new, hyoungest, hmandate, hroots⟩ := rootKind_request_free hrest hfree hok
      have hgranted : w.granted host path = mandate.named host w.settings := by
        unfold granted
        rw [hcommission]
      rw [hcommission] at hmandate
      rw [hcharter] at hid hroots
      have hnow : HeldBy (w'.refresh host id).2 path id .configured := fun y => by
        rw [hroots, if_pos rfl]
        rfl
      refine h.start hcurrent (hpatron.symm.trans hcharter) (isOpen_request hok) hyoungest hmandate
        ⟨id, hnow.home, hid⟩ fun q hq y => ?_
      rw [hroots, if_neg hq, hgranted]

/-! ## Many requests -/

/-- The request asks to open `path` with the text that the host has. -/
def AsksToOpen (request : Request) (path : Path) : Prop :=
  Command.ofName? request.command = some .open ∧
    Request.openArguments request.arguments = .ok ⟨path, none⟩

theorem serve_of_asksToOpen {request : Request} {text : String} (hasks : AsksToOpen request path)
    (hread : host.read path = .ok text) (hok : w.openFile host path text = (.ok id, w')) :
    (w.serve service host request).2 = (w'.refresh host id).2 := by
  have hserved : w.serve service host request = w.serveOpen host ⟨path, none⟩ := by
    have hcategory : Command.open.category = .lifecycle := by decide
    have hdecoded : Request.decodeArguments Request.openArguments .open request.arguments =
        .ok ⟨path, none⟩ := by
      unfold Request.decodeArguments
      rw [hasks.2]
    unfold serve
    rw [hasks.1]
    simp only [hcategory, if_true]
    unfold serveLifecycle withArguments
    rw [hdecoded]
  rw [hserved]
  unfold serveOpen
  simp only [Option.map_none, Option.getD_none, hread, hok]
  split
  · rename_i e next hrefresh
    rw [hrefresh]
  · rename_i next hrefresh
    rw [hrefresh]

/-- The requests that open the files of a list. -/
def openings (service : LanguageService) (host : Host) (ask : Path → Request)
    (order : List Path) : List (Host × Action) :=
  order.map fun file => (host, .request service (ask file))

variable {ask : Path → Request} {files order rest : List Path} {a b file : Path}

/-- The files of a list can be opened: each is asked for, and the host has its text. -/
structure Openable (host : Host) (ask : Path → Request) (order : List Path) : Prop where
  nodup : order.Nodup
  asks : ∀ file ∈ order, AsksToOpen (ask file) file
  reads : ∀ file ∈ order, ∃ text, host.read file = .ok text

theorem Openable.perm (h : Openable host ask files) (horder : order.Perm files) :
    Openable host ask order where
  nodup := horder.nodup_iff.2 h.nodup
  asks file hfile := h.asks file (horder.mem_iff.1 hfile)
  reads file hfile := h.reads file (horder.mem_iff.1 hfile)

theorem Openable.init (h : Openable host ask (order ++ rest)) : Openable host ask order where
  nodup := (List.nodup_append.1 h.nodup).1
  asks file hfile := h.asks file (List.mem_append_left _ hfile)
  reads file hfile := h.reads file (List.mem_append_left _ hfile)

/-- The last request of a run opens its file and rebuilds the project that gets it. -/
theorem run_openings_concat (service : LanguageService) (h : Openable host ask (order ++ [file]))
    (hrest : AtRest host (run settings (openings service host ask order)))
    (hopen : ∀ q, (run settings (openings service host ask order)).documents.isOpen q = true ↔
      q ∈ order) :
    (run settings (openings service host ask order)).documents.isOpen file = false ∧
      ∃ text id opened, (run settings (openings service host ask order)).openFile host file text =
          (.ok id, opened) ∧
        run settings (openings service host ask (order ++ [file])) =
          (opened.refresh host id).2 := by
  have hlast : file ∈ order ++ [file] := List.mem_append_right _ (List.mem_singleton_self file)
  have hclosed : (run settings (openings service host ask order)).documents.isOpen file = false :=
    Bool.eq_false_iff.2 fun hfile => (List.nodup_append.1 h.nodup).2.2 file ((hopen file).1 hfile)
      file (List.mem_singleton_self file) rfl
  obtain ⟨text, htext⟩ := h.reads file hlast
  obtain ⟨id, hid⟩ := hrest.opens hclosed text
  refine ⟨hclosed, text, id, _, Prod.ext hid rfl, ?_⟩
  unfold openings
  rw [List.map_append, List.map_singleton, run_concat]
  exact serve_of_asksToOpen (h.asks file hlast) htext (Prod.ext hid rfl)

theorem run_openings_atRest (service : LanguageService)
    (hplain : ∀ name ∈ settings.manifestFileNames, Segment.Plain name)
    (h : Openable host ask order) : AtRest host (run settings (openings service host ask order)) ∧
      ∀ q, (run settings (openings service host ask order)).documents.isOpen q = true ↔
        q ∈ order := by
  induction order using List.reverseRecOn with
  | nil => exact ⟨atRest_new settings host, fun q => iff_of_false nofun List.not_mem_nil⟩
  | append_singleton order file ih =>
    obtain ⟨hrest, hopen⟩ := ih h.init
    obtain ⟨hclosed, text, id, opened, hok, hnext⟩ := run_openings_concat service h hrest hopen
    rw [← run_settings settings (openings service host ask order)] at hplain
    rw [hnext]
    refine ⟨hrest.request hplain hclosed hok, fun q => ?_⟩
    rw [isOpen_request hok, hopen, or_comm, List.mem_append, List.mem_singleton]

/-! ### Contention -/

/-- Both files fall to a manifest that cannot be loaded.  When its project has started for `b` it
does not claim `a`, since the extension of `a` is unknown. -/
structure Contends (host : Host) (settings : Settings) (a b : Path) : Prop where
  ne : b ≠ a
  same : charterFor host settings b = charterFor host settings a
  unloadable : ∃ mandate reason, (charterFor host settings a).mandate? host settings =
    some mandate ∧ mandate.state = .failed reason
  unknown : a.hasExtension settings.resolution.extensions = false

/-- **A run of requests to open files is a run of the allotment**, unless two files contend. -/
theorem run_openings_reflects (service : LanguageService)
    (hplain : ∀ name ∈ settings.manifestFileNames, Segment.Plain name)
    (h : Openable host ask order)
    (hseparate : ∀ a ∈ order, ∀ b ∈ order, ¬ Contends host settings a b) :
    Reflects (run settings (openings service host ask order))
      ((allotment host settings).allotAll .empty order) := by
  induction order using List.reverseRecOn with
  | nil => exact reflects_new settings
  | append_singleton order file ih =>
    have hreflects := ih h.init fun a ha b hb =>
      hseparate a (List.mem_append_left _ ha) b (List.mem_append_left _ hb)
    obtain ⟨hrest, hopen⟩ := run_openings_atRest service hplain h.init
    obtain ⟨hclosed, text, id, opened, hok, hnext⟩ := run_openings_concat service h hrest hopen
    have hsettings := run_settings settings (openings service host ask order)
    rw [hnext, Allotment.allotAll_append]
    generalize run settings (openings service host ask order) = w at *
    subst hsettings
    refine hreflects.request hrest hplain (fun x mandate reason hx hstate hfalls => ?_) hclosed hok
    -- the project has started for another file
    have hcharter := charter?_of_mandate? hx
    have hstarted := (hreflects.mem_started rfl).2 ⟨x, hcharter⟩
    rcases Allotment.started_allotAll hstarted with hempty | ⟨b, hb, hgovernor⟩
    · cases hempty
    · by_contra hunknown
      rw [Bool.not_eq_true] at hunknown
      have hcurrent := hrest.upToDate x mandate hx
      refine hseparate file (List.mem_append_right _ (List.mem_singleton_self file)) b
        (List.mem_append_left _ hb) ⟨?_, hgovernor.symm.trans hfalls.symm,
          ⟨mandate, reason, hfalls ▸ hcurrent, hstate⟩, hunknown⟩
      rintro rfl
      exact (List.nodup_append.1 h.nodup).2.2 b hb b (List.mem_singleton_self b) rfl

/-- The only holder of an open document is its home. -/
theorem Owned.findsHome (h : Owned none w) (hopen : w.documents.isOpen path = true)
    (hroot : w.hasRoot path id = true) (hcharter : w.charter? id = some charter) :
    FindsHome w path charter := by
  obtain ⟨holder, kind, -, hheld⟩ := h.single path hopen nofun
  have heq := (hheld.home id).1 hroot
  exact ⟨id, heq ▸ hheld.home, hcharter⟩

/-- What an open document has as its home stays unless a project starts that takes it. -/
theorem FindsHome.request (hhome : FindsHome w q charter) (hrest : AtRest host w)
    (hclosed : w.documents.isOpen file = false) (hq : q ≠ file)
    (hungranted : q ∉ w.granted host file)
    (hok : w.openFile host file content = (.ok id, w')) :
    FindsHome (w'.refresh host id).2 q charter := by
  by_cases hheld : ∃ y, w.hasRoot file y = true
  · obtain ⟨y, hy⟩ := hheld
    obtain ⟨-, hmandate, hroots⟩ := rootKind_request_held hrest hclosed hy hok
    exact hhome.keep (fun y => by rw [hroots, if_neg hq]) fun y _ => hmandate y
  · have hfree : ∀ y, w.hasRoot file y = false := fun y =>
      Bool.eq_false_iff.2 fun hy => hheld ⟨y, hy⟩
    obtain ⟨-, new, hyoungest, hmandate, hroots⟩ := rootKind_request_free hrest hfree hok
    refine hhome.keep (fun y => by rw [hroots, if_neg hq, if_neg hungranted]) fun y hy => ?_
    rw [hmandate, if_neg]
    rintro rfl
    exact hy (project?_of_youngest hyoungest)

/-- No charter that a directory above another file has for that file names `a`. -/
def Unclaimed (host : Host) (settings : Settings) (files : List Path) (a : Path) : Prop :=
  ∀ b ∈ files, b ≠ a → ∀ directory charter, b.isUnder directory = true →
    charterAt? host settings b directory = some charter → a ∉ charter.named host settings

/-- A file that no other one claims keeps its home. -/
theorem Unclaimed.keeps (hunclaimed : Unclaimed host settings files a)
    (hplain : ∀ name ∈ settings.manifestFileNames, Segment.Plain name)
    (h : Openable host ask (order ++ rest)) (hfiles : order ++ rest ⊆ files) (ha : a ∉ rest)
    (hhome : FindsHome (run settings (openings service host ask order)) a charter) :
    FindsHome (run settings (openings service host ask (order ++ rest))) a charter := by
  induction rest using List.reverseRecOn with
  | nil => rwa [List.append_nil]
  | append_singleton rest file ih =>
    rw [List.mem_append, List.mem_singleton, not_or] at ha
    rw [← List.append_assoc] at h hfiles ⊢
    rw [List.append_subset] at hfiles
    have hbefore := ih h.init hfiles.1 ha.1
    obtain ⟨hrest, hopen⟩ := run_openings_atRest service hplain h.init
    obtain ⟨hclosed, text, id, opened, hok, hnext⟩ := run_openings_concat service h hrest hopen
    have hsettings := run_settings settings (openings service host ask (order ++ rest))
    rw [hnext]
    generalize run settings (openings service host ask (order ++ rest)) = w at *
    subst hsettings
    refine hbefore.request hrest hclosed ha.2 (fun hgranted => ?_) hok
    obtain ⟨directory, taken, hunder, hat, hnamed⟩ := exists_charterAt?_of_granted hplain hgranted
    exact hunclaimed file (hfiles.2 (List.mem_singleton_self file)) (Ne.symm ha.2) directory taken
      hunder hat hnamed

/-- The file that comes first falls to its charter. -/
theorem findsHome_first (service : LanguageService)
    (hplain : ∀ name ∈ settings.manifestFileNames, Segment.Plain name)
    (h : Openable host ask [a]) :
    FindsHome (run settings (openings service host ask [a])) a (charterFor host settings a) := by
  have hreflects := run_openings_reflects service hplain h fun b hb c hc hcontends =>
    hcontends.ne (by rw [List.mem_singleton.1 hb, List.mem_singleton.1 hc])
  refine hreflects.home a _ ?_
  unfold Allotment.allotAll Allotment.allot Allotment.start allotment
  simp [Allotment.State.empty]

/-- A file that comes after one with which it contends does not fall to the charter of the two. -/
theorem Contends.findsHome_second (hcontends : Contends host settings a b)
    (service : LanguageService)
    (hplain : ∀ name ∈ settings.manifestFileNames, Segment.Plain name)
    (h : Openable host ask [b, a]) :
    ∃ other, other ≠ charterFor host settings a ∧
      FindsHome (run settings (openings service host ask [b, a])) a other := by
  have hfirst : Openable host ask [b] := Openable.init (show Openable host ask ([b] ++ [a]) from h)
  have hreflects := run_openings_reflects service hplain hfirst fun c hc d hd hcontends =>
    hcontends.ne (by rw [List.mem_singleton.1 hc, List.mem_singleton.1 hd])
  obtain ⟨hrest, hopen⟩ := run_openings_atRest service hplain hfirst
  obtain ⟨hclosed, text, id, opened, hok, hnext⟩ := run_openings_concat service h hrest hopen
  have hsettings := run_settings settings (openings service host ask [b])
  change run settings (openings service host ask [b, a]) = _ at hnext
  rw [hnext]
  generalize run settings (openings service host ask [b]) = w at *
  subst hsettings
  have hstarted : ((allotment host w.settings).allotAll .empty [b]).started =
      [charterFor host w.settings b] := Allotment.started_first _ b
  -- the project has started, and its manifest could not be loaded
  obtain ⟨mandate, reason, hmandate, hstate⟩ := hcontends.unloadable
  have hkind := Charter.kind_of_mandate? hmandate
  rw [← hcontends.same] at hmandate hkind
  obtain ⟨x, hx⟩ := (hreflects.mem_started hkind).1 (hstarted ▸ List.mem_singleton_self _)
  obtain ⟨own, hown, heq⟩ := mandate?_of_charter? hkind hx
  have hcurrent := hrest.upToDate x own hown
  have hsame : own = mandate := by
    unfold Mandate.Current at hcurrent
    rw [← heq, hmandate] at hcurrent
    exact (Option.some.inj hcurrent).symm
  have hother : w.patron host a ≠ charterFor host w.settings a := by
    rw [← hcontends.same, heq]
    exact patron_ne_of_failed hplain hrest.owned.consistent hrest.upToDate hown (hsame ▸ hstate)
      hcontends.unknown
  have hfree : ∀ y, w.hasRoot a y = false := by
    refine hreflects.free hrest hclosed fun c hc hnames => ?_
    rw [hstarted, List.mem_singleton] at hc
    rw [names_allotment, hc, heq, hcurrent.named, hsame] at hnames
    unfold Mandate.named at hnames
    rw [hstate] at hnames
    cases hnames
  obtain ⟨hcharter, new, -, -, hroots⟩ := rootKind_request_free hrest hfree hok
  have hheld : HeldBy (opened.refresh host id).2 a id (w.patron host a).kind := fun y => by
    rw [hroots, if_pos rfl]
  exact ⟨_, hother, id, hheld.home, hcharter⟩

/-- **The home of a file that contends depends on the order**, unless it is claimed. -/
theorem Contends.unsettled (hcontends : Contends host settings a b) (service : LanguageService)
    (hplain : ∀ name ∈ settings.manifestFileNames, Segment.Plain name)
    (h : Openable host ask files) (ha : a ∈ files) (hb : b ∈ files)
    (hunclaimed : Unclaimed host settings files a) :
    ∃ order, order.Perm files ∧ ∃ order', order'.Perm files ∧ ∃ home home', home ≠ home' ∧
      FindsHome (run settings (openings service host ask order)) a home ∧
      FindsHome (run settings (openings service host ask order')) a home' := by
  obtain ⟨rest, horder⟩ := Allotment.exists_order [a, b] (by simp [hcontends.ne.symm])
    (show [a, b] ⊆ files by simp [ha, hb])
  have hswapped : ([b, a] ++ rest).Perm files :=
    ((List.Perm.swap a b []).append_right rest).trans horder
  have hrest : a ∉ rest := Allotment.not_mem_rest h.nodup horder (by simp)
  have hopens' := h.perm hswapped
  obtain ⟨other, hother, hsecond⟩ := hcontends.findsHome_second service hplain hopens'.init
  refine ⟨_, horder, _, hswapped, _, other, hother.symm, ?_, ?_⟩
  · have hlater : a ∉ b :: rest := by simp [hcontends.ne.symm, hrest]
    have hopens : Openable host ask ([a] ++ b :: rest) := h.perm horder
    have hsubset : [a] ++ b :: rest ⊆ files := horder.subset
    have hfirst := findsHome_first service hplain hopens.init
    have hkept := hunclaimed.keeps hplain hopens hsubset hlater hfirst
    exact hkept
  · exact hunclaimed.keeps hplain hopens' hswapped.subset hrest hsecond

/-! ### The order -/

/-- A request to open a file with the text that the host has. -/
def askToOpen (file : Path) : Request := ⟨1, "open", .obj [("file", .str file.text)]⟩

/-- **For which files the order does not matter.**  The files of a list are opened by requests, in
some order, each with the text that the host has.  Every file has the same home in all orders,
namely exactly one project of the same kind and manifest, if and only if no file is named by two of
the manifests of the other files; a manifest that names a file of another manifest has a file of its
own that no other one of them names; and no two files contend for a manifest that cannot be loaded.
Of files that do it is assumed that no manifest above another file names them. -/
theorem opening_order_is_immaterial_iff (settings : Settings) (host : Host)
    (service : LanguageService) (ask : Path → Request) (files : List Path)
    (hplain : ∀ name ∈ settings.manifestFileNames, Segment.Plain name)
    (hopens : Openable host ask files)
    (hunclaimed : ∀ a ∈ files, ∀ b ∈ files, Contends host settings a b →
      Unclaimed host settings files a) :
    (∃ home : Path → Charter, ∀ order, order.Perm files → ∀ file ∈ files,
      FindsHome (run settings (openings service host ask order)) file (home file)) ↔
      (allotment host settings).Unambiguous files ∧
        ∀ a ∈ files, ∀ b ∈ files, ¬ Contends host settings a b := by
  by_cases hseparate : ∀ a ∈ files, ∀ b ∈ files, ¬ Contends host settings a b
  · rw [and_iff_left hseparate, ← Allotment.settled_iff hopens.nodup]
    refine exists_congr fun home => forall_congr' fun order => forall_congr' fun horder =>
      forall_congr' fun file => forall_congr' fun hfile => ?_
    have hreflects := run_openings_reflects service hplain (hopens.perm horder)
      fun a ha b hb => hseparate a (horder.subset ha) b (horder.subset hb)
    constructor
    · intro hhome
      have hsome := ((run_openings_atRest service hplain (hopens.perm horder)).2 file).2
        (horder.mem_iff.2 hfile)
      rw [hreflects.isOpen] at hsome
      obtain ⟨charter, hcharter⟩ := Option.isSome_iff_exists.1 hsome
      rw [hcharter, (hreflects.home file charter hcharter).unique hhome]
    · exact hreflects.home file (home file)
  · refine iff_of_false ?_ fun h => hseparate h.2
    rintro ⟨home, hhome⟩
    refine hseparate fun a ha b hb hcontends => ?_
    obtain ⟨order, horder, order', horder', first, second, hne, hfirst, hsecond⟩ :=
      hcontends.unsettled service hplain hopens ha hb (hunclaimed a ha b hb hcontends)
    exact hne ((hfirst.unique (hhome order horder a ha)).trans
      ((hhome order' horder' a ha).unique hsecond))

/-- One file of `/a`, and the file that both manifests name. -/
theorem opening_order_is_immaterial_iff_shared :
    let files := [(Path.mk .slash []).join "a/m.ts", sharedFile]
    (∀ name ∈ Settings.default.manifestFileNames, Segment.Plain name) ∧
      Openable sharedHost askToOpen files ∧
      (∀ a ∈ files, ∀ b ∈ files, Contends sharedHost .default a b →
        Unclaimed sharedHost .default files a) ∧
      (allotment sharedHost .default).Unambiguous files ∧
      ((∃ home : Path → Charter, ∀ order, order.Perm files → ∀ file ∈ files,
        FindsHome (run .default (openings .echo sharedHost askToOpen order)) file (home file)) ↔
        (allotment sharedHost .default).Unambiguous files ∧
          ∀ a ∈ files, ∀ b ∈ files, ¬ Contends sharedHost .default a b) := by
  intro files
  have hplain : ∀ name ∈ Settings.default.manifestFileNames, Segment.Plain name := by decide
  have hopens : Openable sharedHost askToOpen files :=
    ⟨by decide, List.forall_mem_cons.2 ⟨⟨rfl, rfl⟩, List.forall_mem_singleton.2 ⟨rfl, rfl⟩⟩,
      List.forall_mem_cons.2 ⟨⟨_, rfl⟩, List.forall_mem_singleton.2 ⟨_, rfl⟩⟩⟩
  have hknown : ∀ file ∈ files,
      file.hasExtension Settings.default.resolution.extensions = true := by decide +kernel
  have hunclaimed : ∀ a ∈ files, ∀ b ∈ files, Contends sharedHost .default a b →
      Unclaimed sharedHost .default files a := fun a ha _ _ hcontends => by
    have hunknown := hcontends.unknown
    rw [hknown a ha] at hunknown
    cases hunknown
  exact ⟨hplain, hopens, hunclaimed, ⟨by decide +kernel, by decide +kernel⟩,
    opening_order_is_immaterial_iff .default sharedHost .echo askToOpen files hplain hopens
      hunclaimed⟩

/-- **The order may matter.**  Two manifests name one file; of their projects the older one gets
it. -/
theorem opening_order_matters :
    let first := (Path.mk .slash []).join "a/m.ts"
    let second := (Path.mk .slash []).join "b/n.ts"
    FindsHome (run .default (openings .echo sharedHost askToOpen [first, second, sharedFile]))
        sharedFile (.configured ((Path.mk .slash []).join "a/tsconfig.json")) ∧
      FindsHome (run .default (openings .echo sharedHost askToOpen [second, first, sharedFile]))
        sharedFile (.configured ((Path.mk .slash []).join "b/tsconfig.json")) := by
  intro first second
  have howned : ∀ order, Owned none (run .default (openings .echo sharedHost askToOpen order)) :=
    fun order => run_owned .default _ fun step hstep => by
      obtain ⟨file, -, rfl⟩ := List.mem_map.1 hstep
      trivial
  have hfirst : (run .default (openings .echo sharedHost askToOpen
      [first, second, sharedFile])).hasRoot sharedFile ⟨1⟩ = true := by decide +kernel
  have hsecond : (run .default (openings .echo sharedHost askToOpen
      [second, first, sharedFile])).hasRoot sharedFile ⟨1⟩ = true := by decide +kernel
  exact ⟨(howned _).findsHome (by decide +kernel) hfirst (by decide +kernel),
    (howned _).findsHome (by decide +kernel) hsecond (by decide +kernel)⟩

end Codebase.Workspace
