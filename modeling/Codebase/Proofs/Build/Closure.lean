import Codebase.Host.Memory
import Codebase.Proofs.Build.Search
import Mathlib.Order.Bounds.Defs
/-!
# What a full build finds

When the depth is not bounded, a full build finds exactly the files that references lead to from its
seeds, and accounts for each of them in the order in which it was found.

* `Search.Exact` — the invariant: the files are those whose references have been followed and then
  those that are pending, and the rest of the result is what the followed ones contribute.
* `foldl_follow_grows` — what following the references of one file adds.
* `expand_exact`, `finish_exact`, `foldl_seed_exact` — every step of a search keeps the invariant.
* `Search.Completes` — the search as the unbounded loop that it is; fuel only makes it a function.
* `mem_roots_or_hasFile` — whatever the depth, only roots need not exist.
* `full_build_is_exact` — the result of a full build.
-/

namespace Codebase.Build

variable {ctx : Context} {allowed : Set Path} {followed : List Path} {file path target : Path}
  {depth fuel : Nat}

/-! ## References between files -/

/-- The references of a file, in the order in which they are followed; a file that cannot be read
has none. -/
def references (ctx : Context) (file : Path) : List Reference :=
  match ctx.read file with
  | none => []
  | some text => (References.scan text).all

/-- The file that a reference in `source` names. -/
def target? (ctx : Context) (source : Path) (reference : Reference) : Option Path :=
  ctx.resolver.resolve reference.kind reference.specifier source

/-- A reference in `source` names `target`. -/
def LeadsTo (ctx : Context) (source target : Path) : Prop :=
  ∃ reference ∈ references ctx source, target? ctx source reference = some target

/-- Where references lead to from files of the set is in the set. -/
def Closed (ctx : Context) (found : Set Path) : Prop :=
  ∀ source ∈ found, ∀ target, LeadsTo ctx source target → target ∈ found

/-- Those of some references in `source` that name nothing. -/
def dangling (ctx : Context) (source : Path) (references : List Reference) : List Unresolved :=
  (references.filter fun r => (target? ctx source r).isNone).map
    fun r => ⟨source, r.specifier, r.kind⟩

/-- A file that no document holds, with the text that the host has for it. -/
def fetched? (ctx : Context) (file : Path) : Option (Path × String) :=
  if ctx.documents.contains file then none
  else (ctx.host.read file).toOption.map fun text => (file, text)

/-- What a full build starts from: the roots, the entries of the declaration packages, and the
default library unless it is left out or missing. -/
def IsSeed (ctx : Context) (roots : List Path) (options : Options) (file : Path) : Prop :=
  file ∈ roots ∨
    (∃ declaration ∈ Declaration.ofRoots ctx roots options.types, declaration.entry = file) ∨
    (options.noLib = false ∧ ctx.settings.defaultLibrary = some file ∧ ctx.hasFile file = true)

theorem references_of_read {text : String} (h : ctx.read file = some text) :
    references ctx file = (References.scan text).all := by
  unfold references
  rw [h]

theorem references_of_read_eq_none (h : ctx.read file = none) : references ctx file = [] := by
  unfold references
  rw [h]

theorem mem_seeds {roots : List Path} {options : Options} :
    file ∈ seeds ctx roots options ↔ IsSeed ctx roots options file := by
  have hlibrary : file ∈ (library? ctx options).toList ↔ options.noLib = false ∧
      ctx.settings.defaultLibrary = some file ∧ ctx.hasFile file = true := by
    rw [Option.mem_toList]
    unfold library?
    cases options.noLib with
    | true => simp
    | false => simp [Option.filter_eq_some_iff]
  unfold seeds IsSeed
  rw [List.mem_append, List.mem_append, List.mem_map, hlibrary, or_assoc]

namespace Search

variable {search next : Search}

/-! ## What one file adds -/

/-- How following some references in `source` changes a search: it finds the files of `found`. -/
structure Grows (ctx : Context) (source : Path) (references : List Reference)
    (found : List (Path × Nat)) (search next : Search) : Prop where
  files : next.build.files = search.build.files ++ found.map Prod.fst
  pending : next.pending = search.pending ++ found
  unresolved : next.build.unresolved = search.build.unresolved ++ dangling ctx source references
  discovered : next.build.discovered = search.build.discovered
  covers : ∀ r ∈ references, ∀ t, target? ctx source r = some t → t ∈ next.build.files
  named : ∀ t ∈ found.map Prod.fst, ∃ r ∈ references, target? ctx source r = some t

theorem follow_grows (ctx : Context) (source : Path) (depth : Nat) (search : Search)
    (reference : Reference) :
    ∃ found, Grows ctx source [reference] found search
      (follow ctx source depth search reference) := by
  cases htarget : target? ctx source reference with
  | none =>
    refine ⟨[], ?_⟩
    have hfollow : follow ctx source depth search reference = { search with
        build := { search.build with unresolved :=
          search.build.unresolved ++ [⟨source, reference.specifier, reference.kind⟩] } } := by
      unfold target? at htarget
      unfold follow
      rw [htarget]
    rw [hfollow]
    constructor <;> simp [dangling, htarget]
  | some t =>
    have hfollow : follow ctx source depth search reference = search.visit t (depth + 1) := by
      unfold target? at htarget
      unfold follow
      rw [htarget]
    have hcovers : t ∈ (search.visit t (depth + 1)).build.files := mem_files_visit.2 (.inr rfl)
    rw [hfollow]
    by_cases hold : t ∈ search.build.files
    · refine ⟨[], ?_⟩
      rw [show search.visit t (depth + 1) = search from if_pos hold]
      constructor <;> simp [dangling, htarget, hold]
    · refine ⟨[(t, depth + 1)], ?_⟩
      unfold visit
      rw [if_neg hold]
      constructor <;> simp [dangling, htarget]

theorem Grows.append {source : Path} {first rest : List Reference} {some more : List (Path × Nat)}
    {middle : Search} (h : Grows ctx source first some search middle)
    (h' : Grows ctx source rest more middle next) :
    Grows ctx source (first ++ rest) (some ++ more) search next where
  files := by rw [h'.files, h.files, List.map_append, List.append_assoc]
  pending := by rw [h'.pending, h.pending, List.append_assoc]
  unresolved := by
    rw [h'.unresolved, h.unresolved, List.append_assoc]
    unfold dangling
    rw [List.filter_append, List.map_append]
  discovered := h'.discovered.trans h.discovered
  covers r hr t ht := by
    rcases List.mem_append.1 hr with hr | hr
    · rw [h'.files]
      exact List.mem_append_left _ (h.covers r hr t ht)
    · exact h'.covers r hr t ht
  named t ht := by
    rw [List.map_append] at ht
    rcases List.mem_append.1 ht with ht | ht
    · obtain ⟨r, hr, hrt⟩ := h.named t ht
      exact ⟨r, List.mem_append_left _ hr, hrt⟩
    · obtain ⟨r, hr, hrt⟩ := h'.named t ht
      exact ⟨r, List.mem_append_right _ hr, hrt⟩

theorem foldl_follow_grows (ctx : Context) (source : Path) (depth : Nat) (search : Search)
    (references : List Reference) :
    ∃ found, Grows ctx source references found search
      (references.foldl (follow ctx source depth) search) := by
  induction references generalizing search with
  | nil => exact ⟨[], by constructor <;> simp [dangling]⟩
  | cons reference rest ih =>
    obtain ⟨some, hfirst⟩ := follow_grows ctx source depth search reference
    obtain ⟨more, hrest⟩ := ih (follow ctx source depth search reference)
    exact ⟨some ++ more, hfirst.append hrest⟩

/-! ## The invariant -/

/-- The references of the files in `followed` have been followed, in this order; the other files are
pending.  All files are among the allowed ones. -/
structure Exact (ctx : Context) (allowed : Set Path) (followed : List Path) (search : Search) :
    Prop where
  files : search.build.files = followed ++ search.pending.map Prod.fst
  unresolved : search.build.unresolved = followed.flatMap fun f => dangling ctx f (references ctx f)
  discovered : search.build.discovered = followed.filterMap (fetched? ctx)
  closed : ∀ f ∈ followed, ∀ t, LeadsTo ctx f t → t ∈ search.build.files
  within : ∀ f ∈ search.build.files, f ∈ allowed

theorem empty_exact : Exact ctx allowed [] empty := by
  constructor <;> simp [empty]

theorem visit_exact (h : Exact ctx allowed followed search) (hpath : path ∈ allowed) :
    Exact ctx allowed followed (search.visit path depth) := by
  unfold visit
  split
  · exact h
  · refine ⟨?_, h.unresolved, h.discovered,
      fun f hf t ht => List.mem_append_left _ (h.closed f hf t ht), fun f hf => ?_⟩
    · simp only [h.files, List.map_append, List.map_cons, List.map_nil, List.append_assoc]
    · rcases List.mem_append.1 hf with hf | hf
      · exact h.within f hf
      · rw [List.mem_singleton.1 hf]
        exact hpath

/-- Reading a file lists it, if the host has its text, and changes nothing else. -/
theorem discovered_of_read {text : String} (h : search.read ctx path = some (text, next)) :
    next.build.files = search.build.files ∧ next.pending = search.pending ∧
      next.build.unresolved = search.build.unresolved ∧
      next.build.discovered = search.build.discovered ++ (fetched? ctx path).toList := by
  unfold fetched?
  obtain ⟨-, ⟨hdocument, rfl⟩ | ⟨hnone, hhost, rfl⟩⟩ := read_eq_some h
  · simp [hdocument]
  · simp [hnone, hhost, Except.toOption]

/-- A file that cannot be read contributes nothing. -/
theorem fetched?_of_read_eq_none (h : search.read ctx path = none) : fetched? ctx path = none := by
  have hnone := read_eq_none h
  unfold fetched?
  split
  · rfl
  · rename_i hdocument
    have htext : ctx.documents.text? path = none :=
      Option.map_eq_none_iff.2 (Table.contains_eq_false.1 (Bool.eq_false_iff.2 hdocument))
    unfold Context.read at hnone
    rw [htext] at hnone
    rw [show (ctx.host.read path).toOption = none from hnone]
    rfl

/-- Following the references of the first pending file. -/
theorem expand_exact {rest : List (Path × Nat)}
    (hunbounded : ctx.settings.resolution.maxDepth = none) (hallowed : Closed ctx allowed)
    (h : Exact ctx allowed followed search) (hpending : search.pending = (path, depth) :: rest) :
    Exact ctx allowed (followed ++ [path])
      ({ search with pending := rest }.expand ctx path depth) := by
  have hfiles : search.build.files = (followed ++ [path]) ++ rest.map Prod.fst := by
    rw [h.files, hpending]
    simp
  have hpath : path ∈ allowed := h.within path (by simp [hfiles])
  unfold expand
  split
  · rename_i hread
    have hnone := references_of_read_eq_none (read_eq_none hread)
    refine ⟨hfiles, ?_, ?_, fun f hf t ht => ?_, h.within⟩
    · simp [h.unresolved, hnone, dangling]
    · simp [h.discovered, fetched?_of_read_eq_none hread]
    · rcases List.mem_append.1 hf with hf | hf
      · exact h.closed f hf t ht
      · obtain ⟨r, hr, -⟩ := ht
        rw [List.mem_singleton.1 hf, hnone] at hr
        cases hr
  · rename_i text next hread
    obtain ⟨hnextFiles, hnextPending, hnextUnresolved, hnextDiscovered⟩ := discovered_of_read hread
    have hreferences := references_of_read (read_eq_some hread).1
    have hbounded : isBounded ctx depth = false := by
      unfold isBounded
      rw [hunbounded]
      rfl
    rw [hbounded, if_neg Bool.false_ne_true]
    obtain ⟨found, hgrows⟩ := foldl_follow_grows ctx path depth next (References.scan text).all
    rw [← hreferences] at hgrows ⊢
    refine ⟨?_, ?_, ?_, fun f hf t ht => ?_, fun f hf => ?_⟩
    · rw [hgrows.files, hgrows.pending, hnextFiles, hnextPending, List.map_append]
      simp only [hfiles, List.append_assoc]
    · rw [hgrows.unresolved, hnextUnresolved]
      simp [h.unresolved]
    · rw [hgrows.discovered, hnextDiscovered]
      cases hfetched : fetched? ctx path <;> simp [h.discovered, hfetched]
    · rcases List.mem_append.1 hf with hf | hf
      · rw [hgrows.files, hnextFiles]
        exact List.mem_append_left _ (h.closed f hf t ht)
      · obtain ⟨r, hr, hrt⟩ := ht
        rw [List.mem_singleton.1 hf] at hr hrt
        exact hgrows.covers r hr t hrt
    · rw [hgrows.files, hnextFiles] at hf
      rcases List.mem_append.1 hf with hf | hf
      · exact h.within f hf
      · obtain ⟨r, hr, hrt⟩ := hgrows.named f hf
        exact hallowed path hpath f ⟨r, hr, hrt⟩

theorem finish_exact (fuel : Nat) (hunbounded : ctx.settings.resolution.maxDepth = none)
    (hallowed : Closed ctx allowed) (h : Exact ctx allowed followed search) :
    ∃ followed, Exact ctx allowed followed (search.finish ctx fuel) := by
  induction fuel generalizing search followed with
  | zero => exact ⟨followed, h⟩
  | succ fuel ih =>
    unfold finish
    split
    · exact ⟨followed, h⟩
    · rename_i hpending
      exact ih (expand_exact hunbounded hallowed h hpending)

theorem foldl_seed_exact (fuel : Nat) (hunbounded : ctx.settings.resolution.maxDepth = none)
    (hallowed : Closed ctx allowed) {seeds : List Path} (hseeds : ∀ f ∈ seeds, f ∈ allowed)
    (h : Exact ctx allowed followed search) :
    ∃ followed, Exact ctx allowed followed (seeds.foldl (seed ctx fuel) search) := by
  induction seeds generalizing search followed with
  | nil => exact ⟨followed, h⟩
  | cons first rest ih =>
    rw [List.forall_mem_cons] at hseeds
    have hvisited : Exact ctx allowed followed (search.visit first 0) := visit_exact h hseeds.1
    obtain ⟨_, hfirst⟩ := finish_exact fuel hunbounded hallowed hvisited
    exact ih hseeds.2 hfirst

/-! ## The search as a loop -/

/-- The loop that follows references ends with the search `last`: files are taken up as long as any
is pending. -/
inductive Drains (ctx : Context) : Search → Search → Prop
  | done {search : Search} (empty : search.pending = []) : Drains ctx search search
  | step {search last : Search} {path : Path} {depth : Nat} {rest : List (Path × Nat)}
      (first : search.pending = (path, depth) :: rest)
      (more : Drains ctx ({ search with pending := rest }.expand ctx path depth) last) :
      Drains ctx search last

/-- The search ends with `last` when the seeds are taken one after the other, each followed to the
end before the next one. -/
inductive Completes (ctx : Context) : List Path → Search → Search → Prop
  | nil {search : Search} : Completes ctx [] search search
  | cons {search middle last : Search} {seed : Path} {rest : List Path}
      (drains : Drains ctx (search.visit seed 0) middle) (more : Completes ctx rest middle last) :
      Completes ctx (seed :: rest) search last

theorem drains_finish (h : (search.finish ctx fuel).pending = []) :
    Drains ctx search (search.finish ctx fuel) := by
  induction fuel generalizing search with
  | zero => exact .done h
  | succ fuel ih =>
    unfold finish at h ⊢
    split at h
    · rename_i hnil
      exact .done hnil
    · rename_i hpending
      exact .step hpending (ih h)

theorem Drains.unique {last other : Search} (h : Drains ctx search last)
    (h' : Drains ctx search other) : last = other := by
  induction h with
  | done hempty =>
    cases h' with
    | done _ => rfl
    | step hfirst _ =>
      rw [hempty] at hfirst
      cases hfirst
  | step hfirst _ ih =>
    cases h' with
    | done hempty =>
      rw [hfirst] at hempty
      cases hempty
    | step hfirst' hmore =>
      rw [hfirst] at hfirst'
      cases hfirst'
      exact ih hmore

theorem Completes.unique {seeds : List Path} {last other : Search}
    (h : Completes ctx seeds search last) (h' : Completes ctx seeds search other) :
    last = other := by
  induction h with
  | nil =>
    cases h'
    rfl
  | cons hdrains _ ih =>
    cases h' with
    | cons hdrains' hmore =>
      rw [← hdrains.unique hdrains'] at hmore
      exact ih hmore

/-- With enough fuel for all candidates the search is the loop. -/
theorem completes_foldl_seed {candidates : List Path}
    (hplaces : ∀ f, ctx.hasFile f = true → f ∈ candidates) {seeds : List Path}
    (hseeds : ∀ f ∈ seeds, f ∈ candidates) (h : Sound ctx candidates [] search)
    (hend : search.pending = []) (hfuel : candidates.length ≤ fuel) :
    Completes ctx seeds search (seeds.foldl (seed ctx fuel) search) := by
  induction seeds generalizing search with
  | nil => exact .nil
  | cons first rest ih =>
    rw [List.forall_mem_cons] at hseeds
    have hfirst := (seed_end hplaces h hend hseeds.1 hfuel).1
    have hsound : Sound ctx candidates [] (search.seed ctx fuel first) :=
      finish_sound hplaces (visit_sound h hseeds.1)
    exact .cons (drains_finish hfirst) (ih hseeds.2 hsound hfirst)

end Search

/-! ## Full builds -/

variable {roots : List Path} {options : Options}

/-- The search of a full build ends, with the result that the build has. -/
theorem closure_completes (ctx : Context) (roots : List Path) (options : Options) :
    Search.Completes ctx (seeds ctx roots options) .empty
      (search ctx (searchBound ctx (seeds ctx roots options)) (seeds ctx roots options)) :=
  Search.completes_foldl_seed (fun _ hf => List.mem_append_right _ (Context.mem_places hf))
    (fun _ => List.mem_append_left _) Search.empty_sound rfl
    (Nat.le_of_eq (length_candidates _))

/-- The file that a declaration package starts with exists. -/
theorem hasFile_of_declaration {restriction : Option (List String)} {declaration : Declaration}
    (h : declaration ∈ Declaration.ofRoots ctx roots restriction) :
    ctx.hasFile declaration.entry = true := by
  unfold Declaration.ofRoots at h
  split at h
  · cases h
  · simp only at h
    split at h
    · obtain ⟨⟨package, root⟩, -, hacquired⟩ := List.mem_filterMap.1 h
      simp only at hacquired
      split at hacquired
      · obtain ⟨entry, hresolved, rfl⟩ := Option.map_eq_some_iff.1 hacquired
        exact Resolver.hasFile_of_resolve hresolved
      · cases hacquired
    · cases h

/-- **Apart from its roots, a build finds only what exists.** -/
theorem mem_roots_or_hasFile {strategy : Strategy} {file : Path}
    (h : file ∈ (make strategy ctx roots options).files) :
    file ∈ roots ∨ ctx.hasFile file = true := by
  cases strategy with
  | identity => exact .inl h
  | fullResolution =>
    have hsound : Search.Sound ctx (seeds ctx roots options ++ ctx.places.filter ctx.hasFile) []
        (search ctx (searchBound ctx (seeds ctx roots options)) (seeds ctx roots options)) :=
      Search.foldl_seed_sound
        (fun f hf => List.mem_append_right _ (List.mem_filter.2 ⟨Context.mem_places hf, hf⟩))
        (fun f => List.mem_append_left _) Search.empty_sound
    rcases List.mem_append.1 (hsound.among file h) with hseed | hfile
    · rcases mem_seeds.1 hseed with hroot | ⟨declaration, hdeclaration, rfl⟩ | ⟨-, -, hlibrary⟩
      · exact .inl hroot
      · exact .inr (hasFile_of_declaration hdeclaration)
      · exact .inr hlibrary
    · exact .inr (List.mem_filter.1 hfile).2

/-- When a full build ends, the references of all its files have been followed. -/
theorem closure_exact (roots : List Path) (options : Options)
    (hunbounded : ctx.settings.resolution.maxDepth = none) (hallowed : Closed ctx allowed)
    (hseeds : ∀ f, IsSeed ctx roots options f → f ∈ allowed) :
    Search.Exact ctx allowed (closure ctx roots options).files
      (search ctx (searchBound ctx (seeds ctx roots options)) (seeds ctx roots options)) := by
  obtain ⟨followed, hexact⟩ := Search.foldl_seed_exact
    (searchBound ctx (seeds ctx roots options)) hunbounded hallowed
    (fun f hf => hseeds f (mem_seeds.1 hf)) Search.empty_exact
  have hend : (search ctx (searchBound ctx (seeds ctx roots options))
      (seeds ctx roots options)).pending = [] := (search_end _ (Nat.le_refl _)).2.1
  have hfollowed : (closure ctx roots options).files = followed := by
    have hfiles := hexact.files
    unfold search at hend
    rw [hend, List.map_nil, List.append_nil] at hfiles
    exact hfiles
  rw [hfollowed]
  exact hexact

/-- Nothing that is found leads out of what is found. -/
theorem closure_closed (roots : List Path) (options : Options)
    (hunbounded : ctx.settings.resolution.maxDepth = none) :
    Closed ctx {f | f ∈ (closure ctx roots options).files} := by
  intro f hf t ht
  have hexact : Search.Exact ctx Set.univ (closure ctx roots options).files _ :=
    closure_exact roots options hunbounded (fun _ _ _ _ => trivial) fun _ _ => trivial
  exact hexact.closed f hf t ht

/-- **A full build ends, and finds exactly what references lead to.**  When the depth is not
bounded, its files are the least set that contains the seeds and is closed under references, each
listed once.  What is unresolved and what has been read from the host are listed file by file, in
the order of the files. -/
theorem full_build_is_exact (ctx : Context) (roots : List Path) (options : Options)
    (hunbounded : ctx.settings.resolution.maxDepth = none) :
    let build := make .fullResolution ctx roots options
    (∃ last, (∀ other, Search.Completes ctx (seeds ctx roots options) .empty other ↔
      other = last) ∧ last.build = build) ∧
    build.files.Nodup ∧
    IsLeast {found | (∀ f, IsSeed ctx roots options f → f ∈ found) ∧ Closed ctx found}
      {f | f ∈ build.files} ∧
    build.unresolved = build.files.flatMap (fun f => dangling ctx f (references ctx f)) ∧
    build.discovered = build.files.filterMap (fetched? ctx) := by
  intro build
  have hcompletes := closure_completes ctx roots options
  obtain ⟨hnodup, hseeds, -, -⟩ := closure_sound ctx roots options
  have hexact : Search.Exact ctx Set.univ build.files _ :=
    closure_exact roots options hunbounded (fun _ _ _ _ => trivial) fun _ _ => trivial
  refine ⟨⟨_, fun other => ⟨fun h => h.unique hcompletes, ?_⟩, rfl⟩, hnodup, ⟨⟨?_, ?_⟩, ?_⟩,
    hexact.unresolved, hexact.discovered⟩
  · rintro rfl
    exact hcompletes
  · exact fun f hf => hseeds f (mem_seeds.2 hf)
  · exact closure_closed roots options hunbounded
  · rintro found ⟨hstart, hclosed⟩ f hf
    exact (closure_exact roots options hunbounded hclosed hstart).within f hf

/-- Two files that import each other. -/
def cyclic : Context where
  host := ((Memory.empty.addFile ((Path.mk .slash []).join "a.ts") "import './b'").addFile
    ((Path.mk .slash []).join "b.ts") "import './a'").host
  documents := .empty
  settings := .default

theorem full_build_is_exact_cyclic :
    cyclic.settings.resolution.maxDepth = none ∧
      IsLeast {found |
          (∀ f, IsSeed cyclic [(Path.mk .slash []).join "a.ts"] .default f → f ∈ found) ∧
            Closed cyclic found}
        {f | f ∈ [(Path.mk .slash []).join "a.ts", (Path.mk .slash []).join "b.ts"]} := by
  have hfiles : (make .fullResolution cyclic [(Path.mk .slash []).join "a.ts"] .default).files =
      [(Path.mk .slash []).join "a.ts", (Path.mk .slash []).join "b.ts"] := by
    decide +kernel
  obtain ⟨-, -, hleast, -⟩ :=
    full_build_is_exact cyclic [(Path.mk .slash []).join "a.ts"] .default rfl
  rw [hfiles] at hleast
  exact ⟨rfl, hleast⟩

end Codebase.Build
