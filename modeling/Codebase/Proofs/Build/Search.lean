import Codebase.Build
import Codebase.Proofs.Data.Table
import Codebase.Proofs.Resolution
import Mathlib.Data.List.Perm.Subperm
/-!
# The search of a build

A search takes the files that are pending one by one.  Its invariant `Search.Sound` says that no
file is listed twice, that every file is one of finitely many candidates, and that every file is
either still pending or has been read.

* `finish_sound` — following references keeps the invariant.
* `pending_finish` — with enough fuel nothing is left pending: a step takes one file away and every
  file that it adds has one candidate less to go.
* `closure_sound` — a full build starts with its seeds, and has read all of its files.
* `closure_eq_search` — more fuel than the bound changes nothing.
-/

namespace Codebase

namespace Context

variable {ctx : Context} {p : Path} {text : String}

theorem read_of_text? (h : ctx.documents.text? p = some text) : ctx.read p = some text := by
  unfold read
  rw [h]

theorem read_of_host (hnone : ctx.documents.text? p = none) (h : ctx.host.read p = .ok text) :
    ctx.read p = some text := by
  unfold read
  rw [hnone, h]
  rfl

/-- All paths at which there can be a file. -/
def places (ctx : Context) : List Path := ctx.documents.paths ++ ctx.host.entries

theorem mem_places (h : ctx.hasFile p = true) : p ∈ ctx.places := by
  unfold hasFile at h
  rcases Bool.or_eq_true_iff.1 h with h | h
  · exact List.mem_append_left _ (Table.contains_iff.1 h)
  · exact List.mem_append_right _ (ctx.host.mem_entries p h)

end Context

namespace Build.Search

variable {ctx : Context} {candidates : List Path} {extra : List Path} {search next : Search}
  {path p : Path} {depth fuel : Nat} {text : String}

/-! ## Reading one file -/

/-- The search needs no more of a file: it is unreadable, a document, or listed as read. -/
def Knows (ctx : Context) (search : Search) (path : Path) : Prop :=
  (ctx.read path).isSome = true →
    ctx.documents.contains path = true ∨ path ∈ search.build.discovered.map Prod.fst

theorem read_eq_none (h : search.read ctx path = none) : ctx.read path = none := by
  unfold read at h
  unfold Context.read
  cases htext : ctx.documents.text? path with
  | some text =>
    rw [htext] at h
    cases h
  | none =>
    rw [htext] at h
    cases hread : ctx.host.read path with
    | error e => rfl
    | ok text =>
      rw [hread] at h
      cases h

/-- Reading a file gives its text, and lists it when it comes from the host. -/
theorem read_eq_some (h : search.read ctx path = some (text, next)) :
    ctx.read path = some text ∧
      ((ctx.documents.contains path = true ∧ next = search) ∨
        (ctx.documents.contains path = false ∧ ctx.host.read path = .ok text ∧
          next = { search with build := { search.build with
            discovered := search.build.discovered ++ [(path, text)] } })) := by
  unfold read at h
  split at h
  · rename_i t ht
    cases h
    refine ⟨Context.read_of_text? ht, .inl ⟨?_, rfl⟩⟩
    obtain ⟨document, hdocument, -⟩ := Option.map_eq_some_iff.1 ht
    exact Table.contains_eq_true.2 ⟨document, hdocument⟩
  · rename_i hnone
    split at h
    · cases h
    · rename_i t ht
      cases h
      exact ⟨Context.read_of_host hnone ht,
        .inr ⟨Table.contains_eq_false.2 (Option.map_eq_none_iff.1 hnone), ht, rfl⟩⟩

/-! ## The invariant -/

/-- The invariant of a search among `candidates`.  The files of `extra` count as pending. -/
structure Sound (ctx : Context) (candidates extra : List Path) (search : Search) : Prop where
  nodup : search.build.files.Nodup
  among : ∀ f ∈ search.build.files, f ∈ candidates
  pending : ∀ f ∈ extra ++ search.pending.map Prod.fst, f ∈ search.build.files
  discovered : ∀ e ∈ search.build.discovered, e.1 ∈ search.build.files ∧
    ctx.documents.contains e.1 = false ∧ ctx.host.read e.1 = .ok e.2
  settled : ∀ f ∈ search.build.files,
    f ∈ extra ∨ f ∈ search.pending.map Prod.fst ∨ search.Knows ctx f

theorem empty_sound : Sound ctx candidates [] empty := by
  constructor <;> simp [empty]

theorem mem_files_visit : p ∈ (search.visit path depth).build.files ↔
    p ∈ search.build.files ∨ p = path := by
  unfold visit
  split
  · rename_i h
    exact ⟨.inl, fun hp => hp.elim id fun e => e ▸ h⟩
  · simp

theorem visit_sound (h : Sound ctx candidates extra search) (hpath : path ∈ candidates) :
    Sound ctx candidates extra (search.visit path depth) := by
  unfold visit
  split
  · exact h
  · rename_i hnew
    refine ⟨?_, ?_, ?_, fun e he => (h.discovered e he).imp_left (List.mem_append_left _), ?_⟩
    · rw [List.nodup_append]
      refine ⟨h.nodup, by simp, fun a ha b hb => ?_⟩
      rw [List.mem_singleton] at hb
      rintro rfl
      exact hnew (hb ▸ ha)
    · intro f hf
      rcases List.mem_append.1 hf with hf | hf
      · exact h.among f hf
      · rw [List.mem_singleton.1 hf]
        exact hpath
    · intro f hf
      rw [List.map_append, ← List.append_assoc] at hf
      rcases List.mem_append.1 hf with hf | hf
      · exact List.mem_append_left _ (h.pending f hf)
      · exact List.mem_append_right _ hf
    · intro f hf
      rw [List.map_append]
      rcases List.mem_append.1 hf with hf | hf
      · rcases h.settled f hf with he | hp | hk
        · exact .inl he
        · exact .inr (.inl (List.mem_append_left _ hp))
        · exact .inr (.inr hk)
      · exact .inr (.inl (List.mem_append_right _ hf))

theorem follow_sound (hplaces : ∀ f, ctx.hasFile f = true → f ∈ candidates)
    (h : Sound ctx candidates extra search) (reference : Reference) :
    Sound ctx candidates extra (follow ctx path depth search reference) := by
  unfold follow
  split
  · rename_i target htarget
    exact visit_sound h (hplaces _ (Resolver.hasFile_of_resolve htarget))
  · exact ⟨h.nodup, h.among, h.pending, h.discovered, h.settled⟩

theorem foldl_follow_sound (hplaces : ∀ f, ctx.hasFile f = true → f ∈ candidates)
    (references : List Reference) (h : Sound ctx candidates extra search) :
    Sound ctx candidates extra (references.foldl (follow ctx path depth) search) := by
  induction references generalizing search with
  | nil => exact h
  | cons reference rest ih => exact ih (follow_sound hplaces h reference)

/-- A file that has been taken up is pending no more once it is read. -/
theorem read_sound (h : Sound ctx candidates [path] search)
    (hread : search.read ctx path = some (text, next)) : Sound ctx candidates [] next := by
  obtain ⟨-, ⟨hdocument, rfl⟩ | ⟨hnone, hhost, rfl⟩⟩ := read_eq_some hread
  · refine ⟨h.nodup, h.among, fun f hf => h.pending f (List.mem_cons_of_mem _ hf), h.discovered,
      fun f hf => ?_⟩
    rcases h.settled f hf with he | hs
    · rw [List.mem_singleton.1 he]
      exact .inr (.inr fun _ => .inl hdocument)
    · exact .inr hs
  · refine ⟨h.nodup, h.among, fun f hf => h.pending f (List.mem_cons_of_mem _ hf), ?_,
      fun f hf => ?_⟩
    · intro e he
      rcases List.mem_append.1 he with he | he
      · exact h.discovered e he
      · rw [List.mem_singleton.1 he]
        exact ⟨h.pending path List.mem_cons_self, hnone, hhost⟩
    · rcases h.settled f hf with he | hp | hk
      · rw [List.mem_singleton.1 he]
        exact .inr (.inr fun _ => .inr (by simp))
      · exact .inr (.inl hp)
      · refine .inr (.inr fun hsome => (hk hsome).imp_right fun hd => ?_)
        rw [List.map_append]
        exact List.mem_append_left _ hd

theorem expand_sound (hplaces : ∀ f, ctx.hasFile f = true → f ∈ candidates)
    (h : Sound ctx candidates [path] search) :
    Sound ctx candidates [] (search.expand ctx path depth) := by
  unfold expand
  split
  · rename_i hread
    refine ⟨h.nodup, h.among, fun f hf => h.pending f (List.mem_cons_of_mem _ hf), h.discovered,
      fun f hf => ?_⟩
    rcases h.settled f hf with he | hs
    · rw [List.mem_singleton.1 he]
      refine .inr (.inr fun hsome => ?_)
      rw [read_eq_none hread] at hsome
      cases hsome
    · exact .inr hs
  · rename_i hread
    have hnext := read_sound h hread
    split
    · exact hnext
    · exact foldl_follow_sound hplaces _ hnext

/-- Taking up the first pending file. -/
theorem take_sound {rest : List (Path × Nat)} (h : Sound ctx candidates [] search)
    (hpending : search.pending = (path, depth) :: rest) :
    Sound ctx candidates [path] { search with pending := rest } := by
  have hold := h.pending
  have hsettled := h.settled
  rw [hpending] at hold hsettled
  refine ⟨h.nodup, h.among, hold, h.discovered, ?_⟩
  intro f hf
  rcases hsettled f hf with he | hp | hk
  · cases he
  · rw [List.map_cons, List.mem_cons] at hp
    rcases hp with rfl | hp
    · exact .inl (List.mem_singleton_self _)
    · exact .inr (.inl hp)
  · exact .inr (.inr hk)

/-- **Following references keeps the invariant.** -/
theorem finish_sound (hplaces : ∀ f, ctx.hasFile f = true → f ∈ candidates)
    (h : Sound ctx candidates [] search) : Sound ctx candidates [] (search.finish ctx fuel) := by
  induction fuel generalizing search with
  | zero => exact h
  | succ fuel ih =>
    unfold finish
    split
    · exact h
    · rename_i hpending
      exact ih (expand_sound hplaces (take_sound h hpending))

/-! ## Enough fuel -/

/-- How many files are still to be taken up at most: those that are pending, and the candidates
that are not among the files. -/
def due (candidates : List Path) (search : Search) : Nat :=
  search.pending.length + (candidates.length - search.build.files.length)

theorem Sound.length_le (h : Sound ctx candidates extra search) :
    search.build.files.length ≤ candidates.length :=
  (h.nodup.subperm h.among).length_le

theorem due_visit (h : Sound ctx candidates extra search) (hpath : path ∈ candidates) :
    (search.visit path depth).due candidates = search.due candidates := by
  have hvisited : Sound ctx candidates extra (search.visit path depth) := visit_sound h hpath
  have hlength := hvisited.length_le
  unfold visit due at *
  split at hlength
  · rename_i hold
    rw [if_pos hold]
  · rename_i hnew
    rw [if_neg hnew]
    simp only [List.length_append, List.length_singleton] at hlength ⊢
    omega

theorem due_foldl_follow (hplaces : ∀ f, ctx.hasFile f = true → f ∈ candidates)
    (references : List Reference) (h : Sound ctx candidates extra search) :
    (references.foldl (follow ctx path depth) search).due candidates = search.due candidates := by
  induction references generalizing search with
  | nil => rfl
  | cons reference rest ih =>
    rw [List.foldl_cons, ih (follow_sound hplaces h reference)]
    unfold follow
    split
    · rename_i target htarget
      exact due_visit h (hplaces _ (Resolver.hasFile_of_resolve htarget))
    · rfl

theorem due_expand (hplaces : ∀ f, ctx.hasFile f = true → f ∈ candidates)
    (h : Sound ctx candidates [path] search) :
    (search.expand ctx path depth).due candidates = search.due candidates := by
  unfold expand
  split
  · rfl
  · rename_i text next hread
    have hdue : next.due candidates = search.due candidates := by
      obtain ⟨-, ⟨-, rfl⟩ | ⟨-, -, rfl⟩⟩ := read_eq_some hread <;> rfl
    split
    · exact hdue
    · rw [due_foldl_follow hplaces _ (read_sound h hread), hdue]

/-- **With enough fuel nothing is left pending.** -/
theorem pending_finish (hplaces : ∀ f, ctx.hasFile f = true → f ∈ candidates)
    (h : Sound ctx candidates [] search) (hfuel : search.due candidates ≤ fuel) :
    (search.finish ctx fuel).pending = [] := by
  induction fuel generalizing search with
  | zero =>
    have hlength : search.pending.length = 0 := by
      unfold due at hfuel
      omega
    exact List.length_eq_zero_iff.1 hlength
  | succ fuel ih =>
    unfold finish
    split
    · rename_i hnil
      exact hnil
    · rename_i path depth rest hpending
      have htaken := take_sound h hpending
      refine ih (expand_sound hplaces htaken) ?_
      rw [due_expand hplaces htaken]
      unfold due at hfuel ⊢
      rw [hpending, List.length_cons] at hfuel
      simp only
      omega

theorem finish_of_pending_eq_nil (h : search.pending = []) : search.finish ctx fuel = search := by
  cases fuel with
  | zero => rfl
  | succ fuel =>
    unfold finish
    rw [h]

/-- A search that has come to its end does not go on with more fuel. -/
theorem finish_of_le {less more : Nat} (hend : (search.finish ctx less).pending = [])
    (hle : less ≤ more) : search.finish ctx more = search.finish ctx less := by
  induction less generalizing search more with
  | zero => exact finish_of_pending_eq_nil hend
  | succ less ih =>
    obtain ⟨more, rfl⟩ : ∃ m, more = m + 1 := ⟨more - 1, by omega⟩
    unfold finish at hend ⊢
    split at hend
    · rfl
    · exact ih hend (by omega)

/-! ## Files are never dropped -/

theorem mem_files_follow {reference : Reference} (h : p ∈ search.build.files) :
    p ∈ (follow ctx path depth search reference).build.files := by
  unfold follow
  split
  · exact mem_files_visit.2 (.inl h)
  · exact h

theorem mem_files_foldl_follow (references : List Reference) (h : p ∈ search.build.files) :
    p ∈ (references.foldl (follow ctx path depth) search).build.files := by
  induction references generalizing search with
  | nil => exact h
  | cons reference rest ih => exact ih (mem_files_follow h)

theorem mem_files_expand (h : p ∈ search.build.files) :
    p ∈ (search.expand ctx path depth).build.files := by
  unfold expand
  split
  · exact h
  · rename_i text next hread
    have hnext : p ∈ next.build.files := by
      obtain ⟨-, ⟨-, rfl⟩ | ⟨-, -, rfl⟩⟩ := read_eq_some hread <;> exact h
    split
    · exact hnext
    · exact mem_files_foldl_follow _ hnext

theorem mem_files_finish (h : p ∈ search.build.files) :
    p ∈ (search.finish ctx fuel).build.files := by
  induction fuel generalizing search with
  | zero => exact h
  | succ fuel ih =>
    unfold finish
    split
    · exact h
    · exact ih (mem_files_expand h)

theorem mem_files_seed (h : p ∈ search.build.files ∨ p = path) :
    p ∈ (search.seed ctx fuel path).build.files :=
  mem_files_finish (mem_files_visit.2 h)

theorem mem_files_foldl_seed {seeds : List Path} (h : p ∈ search.build.files ∨ p ∈ seeds) :
    p ∈ (seeds.foldl (seed ctx fuel) search).build.files := by
  induction seeds generalizing search with
  | nil => simpa using h
  | cons first rest ih =>
    rw [List.mem_cons, ← or_assoc] at h
    exact ih (h.imp_left mem_files_seed)

/-! ## All seeds -/

theorem foldl_seed_sound (hplaces : ∀ f, ctx.hasFile f = true → f ∈ candidates)
    {seeds : List Path} (hseeds : ∀ f ∈ seeds, f ∈ candidates)
    (h : Sound ctx candidates [] search) :
    Sound ctx candidates [] (seeds.foldl (seed ctx fuel) search) := by
  induction seeds generalizing search with
  | nil => exact h
  | cons first rest ih =>
    rw [List.forall_mem_cons] at hseeds
    exact ih hseeds.2 (finish_sound hplaces (visit_sound h hseeds.1))

/-- One seed is followed to the end, and more fuel changes nothing about it. -/
theorem seed_end (hplaces : ∀ f, ctx.hasFile f = true → f ∈ candidates)
    (h : Sound ctx candidates [] search) (hend : search.pending = []) (hpath : path ∈ candidates)
    (hfuel : candidates.length ≤ fuel) :
    (search.seed ctx fuel path).pending = [] ∧
      ∀ more, fuel ≤ more → search.seed ctx more path = search.seed ctx fuel path := by
  have hvisited : Sound ctx candidates [] (search.visit path 0) := visit_sound h hpath
  have hdue : (search.visit path 0).due candidates ≤ fuel := by
    rw [due_visit h hpath]
    unfold due
    rw [hend, List.length_nil]
    omega
  have hpending := pending_finish hplaces hvisited hdue
  exact ⟨hpending, fun more hle => finish_of_le hpending hle⟩

theorem foldl_seed_end (hplaces : ∀ f, ctx.hasFile f = true → f ∈ candidates)
    {seeds : List Path} (hseeds : ∀ f ∈ seeds, f ∈ candidates) (h : Sound ctx candidates [] search)
    (hend : search.pending = []) (hfuel : candidates.length ≤ fuel) :
    (seeds.foldl (seed ctx fuel) search).pending = [] ∧
      ∀ more, fuel ≤ more →
        seeds.foldl (seed ctx more) search = seeds.foldl (seed ctx fuel) search := by
  induction seeds generalizing search with
  | nil => exact ⟨hend, fun _ _ => rfl⟩
  | cons first rest ih =>
    rw [List.forall_mem_cons] at hseeds
    obtain ⟨hnext, hmore⟩ := seed_end hplaces h hend hseeds.1 hfuel
    have hsound : Sound ctx candidates [] (search.seed ctx fuel first) :=
      finish_sound hplaces (visit_sound h hseeds.1)
    obtain ⟨hlast, hrest⟩ := ih hseeds.2 hsound hnext
    refine ⟨hlast, fun more hle => ?_⟩
    rw [List.foldl_cons, List.foldl_cons, hmore more hle, hrest more hle]

end Build.Search

namespace Build

variable {ctx : Context} {roots : List Path} {options : Options}

/-- The paths among which a full build can find its files. -/
def candidates (ctx : Context) (start : List Path) : List Path := start ++ ctx.places

theorem length_candidates (start : List Path) :
    (candidates ctx start).length = searchBound ctx start := by
  unfold candidates Context.places searchBound Documents.size Documents.paths Table.size Table.keys
  rw [List.length_append, List.length_append, List.length_map, Nat.add_assoc]

/-- The search of a full build with some fuel for each seed. -/
def search (ctx : Context) (fuel : Nat) (start : List Path) : Search :=
  start.foldl (Search.seed ctx fuel) .empty

theorem search_end (start : List Path) {fuel : Nat} (hfuel : searchBound ctx start ≤ fuel) :
    Search.Sound ctx (candidates ctx start) [] (search ctx fuel start) ∧
      (search ctx fuel start).pending = [] ∧
      search ctx fuel start = search ctx (searchBound ctx start) start := by
  have hplaces : ∀ f, ctx.hasFile f = true → f ∈ candidates ctx start := fun f hf =>
    List.mem_append_right _ (Context.mem_places hf)
  have hseeds : ∀ f ∈ start, f ∈ candidates ctx start := fun f => List.mem_append_left _
  have hbound : (candidates ctx start).length ≤ searchBound ctx start :=
    Nat.le_of_eq (length_candidates start)
  obtain ⟨hend, hmore⟩ :=
    Search.foldl_seed_end hplaces hseeds Search.empty_sound rfl hbound
  refine ⟨Search.foldl_seed_sound hplaces hseeds Search.empty_sound, ?_, hmore fuel hfuel⟩
  unfold search
  rw [hmore fuel hfuel]
  exact hend

/-- **More fuel than the bound changes nothing.** -/
theorem closure_eq_search {fuel : Nat}
    (hfuel : searchBound ctx (seeds ctx roots options) ≤ fuel) :
    closure ctx roots options = (search ctx fuel (seeds ctx roots options)).build := by
  rw [(search_end _ hfuel).2.2]
  rfl

/-- **A full build lists its seeds among its files, lists no file twice, and has read all files
that can be read: each is a document or was read from the host.** -/
theorem closure_sound (ctx : Context) (roots : List Path) (options : Options) :
    (closure ctx roots options).files.Nodup ∧
      (∀ f ∈ seeds ctx roots options, f ∈ (closure ctx roots options).files) ∧
      (∀ f ∈ (closure ctx roots options).files, (ctx.read f).isSome = true →
        ctx.documents.contains f = true ∨
          f ∈ (closure ctx roots options).discovered.map Prod.fst) ∧
      ∀ e ∈ (closure ctx roots options).discovered, e.1 ∈ (closure ctx roots options).files ∧
        ctx.documents.contains e.1 = false ∧ ctx.host.read e.1 = .ok e.2 := by
  obtain ⟨hsound, hend, -⟩ := search_end (seeds ctx roots options) (Nat.le_refl _)
  refine ⟨hsound.nodup, fun f hf => Search.mem_files_foldl_seed (.inr hf), fun f hf => ?_,
    hsound.discovered⟩
  rcases hsound.settled f hf with he | hp | hk
  · cases he
  · rw [hend] at hp
    cases hp
  · exact hk

theorem mem_seeds_of_mem_roots {root : Path} (h : root ∈ roots) :
    root ∈ seeds ctx roots options :=
  List.mem_append_left _ (List.mem_append_left _ h)

end Build

end Codebase
