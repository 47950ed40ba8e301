import Codebase.Proofs.Build.Closure
import Codebase.Proofs.Path
import Mathlib.Data.Set.Basic
/-!
# What a bounded build finds

With a bound on the depth, references are followed from each seed so many steps and no further.  All
seeds share one set of files, though: a file that an earlier seed has found is not taken up again,
however near it lies to a later one.

* `Chain`, `reach` — the files that lie within the bound of a start, over files that are new.
* `Search.Follows` — the invariant of one seed: files are taken up in the order of their distance,
  so a file is first met at its least distance from the seed.
* `found_eq_sweep` — a build finds what its seeds reach in turn, each over files that none before
  it has found.
* `depth_bound_is_exact_iff` — when that is everything within the bound of some seed.
* `depth_bound_cuts_a_root_short` — it need not be, and then the order of the roots matters.

Nothing is said about the order of the files here, nor about what is read or left unresolved.
-/

namespace Codebase.Build

variable {ctx : Context} {known : Set Path} {bound depth n : Nat} {start file target path : Path}

/-! ## Distances -/

instance (ctx : Context) (source target : Path) : Decidable (LeadsTo ctx source target) :=
  inferInstanceAs (Decidable (∃ reference ∈ references ctx source, _))

/-- So many references lead from `start` to a file, over files outside of `known`: neither end is
known, nor is any file between them. -/
inductive Chain (ctx : Context) (known : Set Path) (start : Path) : Nat → Path → Prop
  | here (new : start ∉ known) : Chain ctx known start 0 start
  | step {n : Nat} {file target : Path} (before : Chain ctx known start n file)
      (leads : LeadsTo ctx file target) (new : target ∉ known) :
      Chain ctx known start (n + 1) target

/-- The files to which at most `bound` references lead from `start`, over files outside of
`known`. -/
def reach (ctx : Context) (known : Set Path) (bound : Nat) (start : Path) : Set Path :=
  {f | ∃ n ≤ bound, Chain ctx known start n f}

/-- The files to which at most `bound` references lead from one of the starts. -/
def within (ctx : Context) (bound : Nat) (starts : Set Path) : Set Path :=
  {f | ∃ start ∈ starts, f ∈ reach ctx ∅ bound start}

/-- What seeds find in turn, when each of them finds what it reaches over files that are new. -/
def sweep (ctx : Context) (bound : Nat) (known : Set Path) (seeds : List Path) : Set Path :=
  seeds.foldl (fun known start => known ∪ reach ctx known bound start) known

theorem Chain.new_start (h : Chain ctx known start n file) : start ∉ known := by
  induction h with
  | here new => exact new
  | step _ _ _ ih => exact ih

/-- With less to avoid there are more chains. -/
theorem Chain.anti {fewer : Set Path} (hle : fewer ⊆ known) (h : Chain ctx known start n file) :
    Chain ctx fewer start n file := by
  induction h with
  | here new => exact .here fun hmem => new (hle hmem)
  | step _ leads new ih => exact .step ih leads fun hmem => new (hle hmem)

theorem reach_anti {fewer : Set Path} (hle : fewer ⊆ known) :
    reach ctx known bound start ⊆ reach ctx fewer bound start := by
  rintro f ⟨n, hn, hchain⟩
  exact ⟨n, hn, hchain.anti hle⟩

/-- What is known already is not followed. -/
theorem reach_of_mem (h : start ∈ known) : reach ctx known bound start = ∅ := by
  refine Set.eq_empty_of_forall_notMem ?_
  rintro f ⟨n, -, hchain⟩
  exact hchain.new_start h

theorem mem_reach_self (h : start ∉ known) : start ∈ reach ctx known bound start :=
  ⟨0, Nat.zero_le _, .here h⟩

/-! ## Seeds in turn -/

theorem subset_sweep (seeds : List Path) : known ⊆ sweep ctx bound known seeds := by
  induction seeds generalizing known with
  | nil => exact subset_rfl
  | cons first rest ih => exact Set.subset_union_left.trans ih

theorem mem_sweep_of_mem {seeds : List Path} (h : start ∈ seeds) :
    start ∈ sweep ctx bound known seeds := by
  induction seeds generalizing known with
  | nil => cases h
  | cons first rest ih =>
    rcases List.mem_cons.1 h with rfl | hrest
    · apply subset_sweep rest
      by_cases hknown : start ∈ known
      · exact .inl hknown
      · exact .inr (mem_reach_self hknown)
    · exact ih hrest

/-- The first seed finds everything within the bound. -/
theorem reach_subset_sweep (first : Path) (rest : List Path) :
    reach ctx known bound first ⊆ sweep ctx bound known (first :: rest) :=
  Set.subset_union_right.trans (subset_sweep rest)

/-- **No seed finds what lies further away than the bound.** -/
theorem sweep_subset (seeds : List Path) :
    sweep ctx bound known seeds ⊆ known ∪ within ctx bound {s | s ∈ seeds} := by
  induction seeds generalizing known with
  | nil => exact Set.subset_union_left
  | cons first rest ih =>
    intro f hf
    rcases ih hf with (hknown | hfirst) | ⟨s, hs, hreach⟩
    · exact .inl hknown
    · exact .inr ⟨first, List.mem_cons_self, reach_anti (Set.empty_subset _) hfirst⟩
    · exact .inr ⟨s, List.mem_cons_of_mem _ hs, hreach⟩

/-- What is found is everything within the bound exactly if no file nearer than the bound leads to
something that is not found. -/
theorem sweep_eq_within_iff (seeds : List Path) :
    sweep ctx bound ∅ seeds = within ctx bound {s | s ∈ seeds} ↔
      ∀ f ∈ sweep ctx bound ∅ seeds, ∀ t,
        (∃ s ∈ seeds, ∃ n < bound, Chain ctx ∅ s n f) → LeadsTo ctx f t →
          t ∈ sweep ctx bound ∅ seeds := by
  constructor
  · rintro heq f - t ⟨s, hs, n, hn, hchain⟩ hleads
    rw [heq]
    exact ⟨s, hs, n + 1, hn, .step hchain hleads (Set.notMem_empty t)⟩
  · intro hnear
    refine Set.Subset.antisymm ?_ ?_
    · intro f hf
      exact (sweep_subset seeds hf).resolve_left (Set.notMem_empty f)
    · rintro f ⟨s, hs, n, hn, hchain⟩
      induction hchain with
      | here _ => exact mem_sweep_of_mem hs
      | step before leads _ ih =>
        exact hnear _ (ih (by omega)) _ ⟨s, hs, _, hn, before⟩ leads

namespace Search

variable {search next last : Search} {taken : List (Path × Nat)}

/-! ## One file -/

/-- What taking up a file adds to a search: the files of `found`, which are new, one reference
further away, and nothing at the bound. -/
structure Spreads (ctx : Context) (bound : Nat) (path : Path) (depth : Nat)
    (found : List (Path × Nat)) (search next : Search) : Prop where
  files : next.build.files = search.build.files ++ found.map Prod.fst
  pending : next.pending = search.pending ++ found
  found : ∀ e ∈ found, e.2 = depth + 1 ∧ depth < bound ∧ LeadsTo ctx path e.1 ∧
    e.1 ∉ search.build.files
  covers : depth < bound → ∀ t, LeadsTo ctx path t → t ∈ next.build.files

/-- References add files that are new, one reference further away. -/
theorem pending_foldl_follow (source : Path) (depth : Nat) (references : List Reference)
    (search : Search) :
    ∃ found, (references.foldl (follow ctx source depth) search).pending = search.pending ++ found ∧
      ∀ e ∈ found, e.2 = depth + 1 ∧ e.1 ∉ search.build.files := by
  induction references generalizing search with
  | nil => exact ⟨[], (List.append_nil _).symm, by simp⟩
  | cons reference rest ih =>
    obtain ⟨more, hmore, hnew⟩ := ih (follow ctx source depth search reference)
    have hrest : ∀ e ∈ more, e.2 = depth + 1 ∧ e.1 ∉ search.build.files := by
      intro e he
      exact ⟨(hnew e he).1, fun hold => (hnew e he).2 (mem_files_follow hold)⟩
    have hfirst : (follow ctx source depth search reference).pending = search.pending ∨
        ∃ t, t ∉ search.build.files ∧
          (follow ctx source depth search reference).pending =
            search.pending ++ [(t, depth + 1)] := by
      unfold follow
      split
      · rename_i t _
        unfold visit
        split
        · exact .inl rfl
        · rename_i hold
          exact .inr ⟨t, hold, rfl⟩
      · exact .inl rfl
    rw [List.foldl_cons, hmore]
    rcases hfirst with hsame | ⟨t, ht, hadded⟩
    · exact ⟨more, by rw [hsame], hrest⟩
    · refine ⟨(t, depth + 1) :: more, by rw [hadded]; simp, ?_⟩
      intro e he
      rcases List.mem_cons.1 he with rfl | he
      · exact ⟨rfl, ht⟩
      · exact hrest e he

theorem expand_spreads (hbound : ctx.settings.resolution.maxDepth = some bound) (search : Search)
    (path : Path) (depth : Nat) :
    ∃ found, Spreads ctx bound path depth found search (search.expand ctx path depth) := by
  have hisBounded : isBounded ctx depth = decide (bound ≤ depth) := by
    unfold isBounded
    rw [hbound]
    rfl
  unfold expand
  split
  · rename_i hread
    refine ⟨[], by simp, by simp, by simp, ?_⟩
    rintro - t ⟨r, hr, -⟩
    rw [references_of_read_eq_none (read_eq_none hread)] at hr
    cases hr
  · rename_i text next hread
    obtain ⟨hfiles, hpending, -⟩ := discovered_of_read hread
    have hreferences := references_of_read (read_eq_some hread).1
    rw [hisBounded]
    split
    · rename_i hfar
      refine ⟨[], by simp [hfiles], by simp [hpending], by simp, ?_⟩
      intro hnear
      exact absurd hnear (Nat.not_lt.2 (of_decide_eq_true hfar))
    · rename_i hnear
      rw [decide_eq_true_eq, Nat.not_le] at hnear
      obtain ⟨found, hgrows⟩ := foldl_follow_grows ctx path depth next (References.scan text).all
      obtain ⟨added, hadded, hnew⟩ :=
        pending_foldl_follow path depth (References.scan text).all next
      have hsame : added = found := List.append_cancel_left (hadded.symm.trans hgrows.pending)
      subst hsame
      refine ⟨added, ?_, ?_, ?_, ?_⟩
      · rw [hgrows.files, hfiles]
      · rw [hgrows.pending, hpending]
      · intro e he
        obtain ⟨r, hr, hrt⟩ := hgrows.named e.1 (List.mem_map_of_mem he)
        rw [← hreferences] at hr
        refine ⟨(hnew e he).1, hnear, ⟨r, hr, hrt⟩, ?_⟩
        rw [← hfiles]
        exact (hnew e he).2
      · rintro - t ⟨r, hr, hrt⟩
        rw [hreferences] at hr
        exact hgrows.covers r hr t hrt

/-! ## One seed -/

/-- The invariant while the seed `start` is followed.  `known` lists the files that were found
before it, `taken` those that have been taken up since, with their distances from it.  What is
pending is ordered by distance and at most one reference further away than its first file. -/
structure Follows (ctx : Context) (known : List Path) (bound : Nat) (start : Path)
    (taken : List (Path × Nat)) (search : Search) : Prop where
  files : search.build.files = known ++ (taken ++ search.pending).map Prod.fst
  begun : (start, 0) ∈ taken ++ search.pending
  chain : ∀ e ∈ taken ++ search.pending, e.2 ≤ bound ∧ Chain ctx {f | f ∈ known} start e.2 e.1
  rising : search.pending.Pairwise fun a b => a.2 ≤ b.2
  level : ∀ a ∈ search.pending, ∀ b ∈ taken ++ search.pending, b.2 ≤ a.2 + 1
  closed : ∀ e ∈ taken, e.2 < bound → ∀ t, LeadsTo ctx e.1 t →
    t ∈ known ∨ ∃ n ≤ e.2 + 1, (t, n) ∈ taken ++ search.pending

theorem follows_visit (hend : search.pending = []) (hnew : start ∉ search.build.files) :
    Follows ctx search.build.files bound start [] (search.visit start 0) := by
  unfold visit
  rw [if_neg hnew, hend]
  refine ⟨rfl, by simp, ?_, by simp, by simp, by simp⟩
  intro e he
  rw [List.nil_append, List.nil_append, List.mem_singleton] at he
  subst he
  exact ⟨Nat.zero_le _, .here hnew⟩

/-- **Taking up the first pending file keeps the invariant.** -/
theorem Follows.expand {known : List Path} {rest : List (Path × Nat)}
    (hbound : ctx.settings.resolution.maxDepth = some bound)
    (h : Follows ctx known bound start taken search)
    (hpending : search.pending = (path, depth) :: rest) :
    Follows ctx known bound start (taken ++ [(path, depth)])
      ({ search with pending := rest }.expand ctx path depth) := by
  obtain ⟨found, hspreads⟩ := expand_spreads hbound { search with pending := rest } path depth
  generalize ({ search with pending := rest } : Search).expand ctx path depth = next at hspreads ⊢
  have hnext : next.pending = rest ++ found := hspreads.pending
  have hfiles : next.build.files =
      known ++ (taken ++ search.pending).map Prod.fst ++ found.map Prod.fst :=
    hspreads.files.trans (congrArg (· ++ found.map Prod.fst) h.files)
  -- the entries are those from before, and the new ones behind them
  have hall : (taken ++ [(path, depth)]) ++ next.pending = (taken ++ search.pending) ++ found := by
    rw [hnext, hpending]
    simp
  have hfirst : (path, depth) ∈ search.pending := by
    rw [hpending]
    exact List.mem_cons_self
  have hrest : ∀ e ∈ rest, e ∈ search.pending := by
    intro e he
    rw [hpending]
    exact List.mem_cons_of_mem _ he
  have hrising := h.rising
  rw [hpending, List.pairwise_cons] at hrising
  have hfound : ∀ e ∈ found, e.2 = depth + 1 := fun e he => (hspreads.found e he).1
  have hpath := h.chain (path, depth) (List.mem_append_right _ hfirst)
  refine ⟨?_, ?_, ?_, ?_, ?_, ?_⟩
  · rw [hall, hfiles, List.append_assoc, ← List.map_append]
  · rw [hall]
    exact List.mem_append_left _ h.begun
  · rw [hall]
    intro e he
    rcases List.mem_append.1 he with hold | hnew
    · exact h.chain e hold
    · obtain ⟨hdepth, hnear, hleads, hfresh⟩ := hspreads.found e hnew
      rw [hdepth]
      refine ⟨hnear, .step hpath.2 hleads ?_⟩
      intro hknown
      apply hfresh
      show e.1 ∈ search.build.files
      rw [h.files]
      exact List.mem_append_left _ hknown
  · rw [hnext, List.pairwise_append]
    refine ⟨hrising.2, List.pairwise_of_forall_mem_list ?_, ?_⟩
    · intro a ha b hb
      exact Nat.le_of_eq ((hfound a ha).trans (hfound b hb).symm)
    · intro a ha b hb
      rw [hfound b hb]
      exact h.level (path, depth) hfirst a (List.mem_append_right _ (hrest a ha))
  · rw [hall, hnext]
    intro a ha b hb
    have hlow : depth ≤ a.2 := by
      rcases List.mem_append.1 ha with ha | ha
      · exact hrising.1 a ha
      · rw [hfound a ha]
        omega
    have hhigh : b.2 ≤ depth + 1 := by
      rcases List.mem_append.1 hb with hb | hb
      · exact h.level (path, depth) hfirst b hb
      · exact Nat.le_of_eq (hfound b hb)
    omega
  · rw [hall]
    intro e he hnear t hleads
    rcases List.mem_append.1 he with hold | htaken
    · rcases h.closed e hold hnear t hleads with hknown | ⟨n, hn, hmem⟩
      · exact .inl hknown
      · exact .inr ⟨n, hn, List.mem_append_left _ hmem⟩
    · rw [List.mem_singleton] at htaken
      subst htaken
      have hmem := hspreads.covers hnear t hleads
      rw [hfiles, List.append_assoc, ← List.map_append] at hmem
      rcases List.mem_append.1 hmem with hknown | hmem
      · exact .inl hknown
      · obtain ⟨e, he, rfl⟩ := List.mem_map.1 hmem
        refine .inr ⟨e.2, ?_, he⟩
        rcases List.mem_append.1 he with hold | hnew
        · exact h.level (path, depth) hfirst e hold
        · exact Nat.le_of_eq (hfound e hnew)

theorem Drains.follows {known : List Path} (hbound : ctx.settings.resolution.maxDepth = some bound)
    (hdrains : Drains ctx search last) (h : Follows ctx known bound start taken search) :
    last.pending = [] ∧ ∃ taken, Follows ctx known bound start taken last := by
  induction hdrains generalizing taken with
  | done hempty => exact ⟨hempty, taken, h⟩
  | step hfirst _ ih => exact ih (h.expand hbound hfirst)

/-- Every file is met at its least distance. -/
theorem Follows.exists_le {known : List Path} (h : Follows ctx known bound start taken search)
    (hend : search.pending = []) (hchain : Chain ctx {f | f ∈ known} start n file)
    (hn : n ≤ bound) : ∃ m ≤ n, (file, m) ∈ taken := by
  have hall : taken ++ search.pending = taken := by rw [hend, List.append_nil]
  induction hchain with
  | here _ =>
    have hbegun := h.begun
    rw [hall] at hbegun
    exact ⟨0, Nat.le_refl _, hbegun⟩
  | @step n f t before leads new ih =>
    obtain ⟨m, hm, hmem⟩ := ih (by omega)
    have hnear : m < bound := by omega
    rcases h.closed (f, m) hmem hnear t leads with hknown | ⟨k, hk, hfound⟩
    · exact absurd hknown new
    · rw [hall] at hfound
      have hle : k ≤ m + 1 := hk
      exact ⟨k, by omega, hfound⟩

/-- **A seed finds what it reaches over files that are new.** -/
theorem files_of_drains (hbound : ctx.settings.resolution.maxDepth = some bound)
    (hend : search.pending = []) (hdrains : Drains ctx (search.visit start 0) last) :
    last.pending = [] ∧ {f | f ∈ last.build.files} =
      {f | f ∈ search.build.files} ∪ reach ctx {f | f ∈ search.build.files} bound start := by
  by_cases hold : start ∈ search.build.files
  · rw [show search.visit start 0 = search from if_pos hold] at hdrains
    have hlast : last = search := hdrains.unique (.done hend)
    rw [hlast, reach_of_mem hold, Set.union_empty]
    exact ⟨hend, rfl⟩
  · obtain ⟨hempty, taken, hfollows⟩ := hdrains.follows hbound (follows_visit hend hold)
    have hfiles := hfollows.files
    rw [hempty, List.append_nil] at hfiles
    refine ⟨hempty, Set.ext fun f => ?_⟩
    show f ∈ last.build.files ↔ f ∈ search.build.files ∨ f ∈ reach ctx _ bound start
    rw [hfiles, List.mem_append]
    refine or_congr_right ?_
    constructor
    · intro hmem
      obtain ⟨e, he, rfl⟩ := List.mem_map.1 hmem
      obtain ⟨hle, hchain⟩ := hfollows.chain e (List.mem_append_left _ he)
      exact ⟨e.2, hle, hchain⟩
    · rintro ⟨n, hn, hchain⟩
      obtain ⟨m, -, hmem⟩ := hfollows.exists_le hempty hchain hn
      exact List.mem_map_of_mem hmem

/-- **Seeds find in turn what they reach over files that are new.** -/
theorem files_of_completes {seeds : List Path}
    (hbound : ctx.settings.resolution.maxDepth = some bound)
    (h : Completes ctx seeds search last) (hend : search.pending = []) :
    {f | f ∈ last.build.files} = sweep ctx bound {f | f ∈ search.build.files} seeds := by
  induction h with
  | nil => rfl
  | cons hdrains _ ih =>
    obtain ⟨hmiddle, hfiles⟩ := files_of_drains hbound hend hdrains
    rw [ih hmiddle, hfiles]
    rfl

end Search

/-! ## Full builds -/

variable {roots other : List Path} {options : Options}

/-- The files of a full build. -/
def found (ctx : Context) (roots : List Path) (options : Options) : Set Path :=
  {f | f ∈ (make .fullResolution ctx roots options).files}

/-- The files to which at most `bound` references lead from what a full build starts from. -/
def allotted (ctx : Context) (bound : Nat) (roots : List Path) (options : Options) : Set Path :=
  within ctx bound {s | IsSeed ctx roots options s}

/-- **A build finds what its seeds reach in turn.** -/
theorem found_eq_sweep (hbound : ctx.settings.resolution.maxDepth = some bound)
    (roots : List Path) (options : Options) :
    found ctx roots options = sweep ctx bound ∅ (seeds ctx roots options) := by
  have hfiles := Search.files_of_completes hbound (closure_completes ctx roots options) rfl
  have hempty : {f | f ∈ Search.empty.build.files} = (∅ : Set Path) :=
    Set.eq_empty_of_forall_notMem fun f hf => List.not_mem_nil hf
  rw [hempty] at hfiles
  exact hfiles

theorem allotted_eq_within (ctx : Context) (bound : Nat) (roots : List Path) (options : Options) :
    allotted ctx bound roots options = within ctx bound {s | s ∈ seeds ctx roots options} :=
  congrArg (within ctx bound) (Set.ext fun _ => mem_seeds.symm)

/-- No build finds what lies further away than the bound. -/
theorem found_subset_allotted (hbound : ctx.settings.resolution.maxDepth = some bound)
    (roots : List Path) (options : Options) :
    found ctx roots options ⊆ allotted ctx bound roots options := by
  rw [found_eq_sweep hbound, allotted_eq_within]
  intro f hf
  exact (sweep_subset _ hf).resolve_left (Set.notMem_empty f)

/-- Without declaration packages a build starts from its roots and the default library. -/
theorem seeds_of_disabled (hdisabled : ctx.settings.typeAcquisition.enabled = false) :
    seeds ctx roots options = roots ++ (library? ctx options).toList := by
  have hnone : Declaration.ofRoots ctx roots options.types = [] := by
    unfold Declaration.ofRoots
    cases roots with
    | nil => rfl
    | cons first rest => simp [hdisabled]
  unfold seeds
  rw [hnone, List.map_nil, List.append_nil]

/-- What lies within the bound does not depend on the order of the roots. -/
theorem allotted_perm (hdisabled : ctx.settings.typeAcquisition.enabled = false)
    (hperm : other.Perm roots) :
    allotted ctx bound other options = allotted ctx bound roots options := by
  rw [allotted_eq_within, allotted_eq_within, seeds_of_disabled hdisabled,
    seeds_of_disabled hdisabled]
  exact congrArg (within ctx bound) (Set.ext fun s => (hperm.append_right _).mem_iff)

/-- A root that comes first finds everything within the bound. -/
theorem reach_subset_found (hbound : ctx.settings.resolution.maxDepth = some bound)
    (hdisabled : ctx.settings.typeAcquisition.enabled = false) (first : Path) (rest : List Path) :
    reach ctx ∅ bound first ⊆ found ctx (first :: rest) options := by
  rw [found_eq_sweep hbound, seeds_of_disabled hdisabled, List.cons_append]
  exact reach_subset_sweep first _

/-- **The bound on the depth is exact for some builds only.**  A build never finds a file to which
more references lead from every seed than the bound allows.  It finds what the seeds reach in turn,
each over files that none before it has found.  That is all that lies within the bound of some seed
exactly if no file that lies nearer to a seed than the bound leads to something that is not found.

Without declaration packages, the order of the roots does not matter if the bound is exact for every
order; and only then, unless a default library takes part. -/
theorem depth_bound_is_exact_iff (hbound : ctx.settings.resolution.maxDepth = some bound)
    (roots : List Path) (options : Options) :
    found ctx roots options ⊆ allotted ctx bound roots options ∧
    found ctx roots options = sweep ctx bound ∅ (seeds ctx roots options) ∧
    (found ctx roots options = allotted ctx bound roots options ↔
      ∀ f ∈ found ctx roots options, ∀ t,
        (∃ s, IsSeed ctx roots options s ∧ ∃ n < bound, Chain ctx ∅ s n f) → LeadsTo ctx f t →
          t ∈ found ctx roots options) ∧
    (ctx.settings.typeAcquisition.enabled = false →
      ((∀ other, other.Perm roots → found ctx other options = allotted ctx bound other options) →
        ∀ other, other.Perm roots → found ctx other options = found ctx roots options) ∧
      (library? ctx options = none →
        (∀ other, other.Perm roots → found ctx other options = found ctx roots options) →
        ∀ other, other.Perm roots →
          found ctx other options = allotted ctx bound other options)) := by
  refine ⟨found_subset_allotted hbound roots options, found_eq_sweep hbound roots options, ?_,
    fun hdisabled => ⟨?_, ?_⟩⟩
  · rw [found_eq_sweep hbound, allotted_eq_within, sweep_eq_within_iff]
    simp only [mem_seeds]
  · intro hexact other hother
    rw [hexact other hother, allotted_perm hdisabled hother, hexact roots (List.Perm.refl roots)]
  · intro hlibrary hindependent other hother
    refine (found_subset_allotted hbound other options).antisymm ?_
    rintro f ⟨s, hs, hreach⟩
    have hroot : s ∈ other := by
      have hseed := mem_seeds.2 hs
      rw [seeds_of_disabled hdisabled, hlibrary, Option.toList_none, List.append_nil] at hseed
      exact hseed
    -- the order in which this root comes first finds the file, so any order does
    have hfirst : (s :: other.erase s).Perm other := (List.perm_cons_erase hroot).symm
    have hfound : f ∈ found ctx (s :: other.erase s) options :=
      reach_subset_found hbound hdisabled s _ hreach
    rw [hindependent other hother, ← hindependent _ (hfirst.trans hother)]
    exact hfound

/-! ### A root that another root imports -/

open Codebase.Path (atTop)

/-- Three files, each of which imports the next one, with one reference to follow from a seed. -/
def chained : Context where
  host := (((Memory.empty.addFile (atTop "a.ts") "import './b'").addFile
    (atTop "b.ts") "import './c'").addFile (atTop "c.ts") "").host
  documents := .empty
  settings := { Settings.default with
    typeAcquisition := ⟨false, [], []⟩
    resolution := ⟨Settings.defaultExtensions, some 1⟩ }

/-- When the imported root comes first, all that lies within the bound is found. -/
theorem depth_bound_is_exact_iff_imported_first :
    chained.settings.resolution.maxDepth = some 1 ∧
      found chained [atTop "b.ts", atTop "a.ts"] .default =
        allotted chained 1 [atTop "b.ts", atTop "a.ts"] .default := by
  have hfiles : (make .fullResolution chained [atTop "b.ts", atTop "a.ts"] .default).files =
      [atTop "b.ts", atTop "c.ts", atTop "a.ts"] := by
    decide +kernel
  have hclosed : ∀ f ∈ [atTop "b.ts", atTop "c.ts", atTop "a.ts"], ∀ r ∈ references chained f,
      (target? chained f r).all (· ∈ [atTop "b.ts", atTop "c.ts", atTop "a.ts"]) = true := by
    decide +kernel
  have hbound : chained.settings.resolution.maxDepth = some 1 := rfl
  obtain ⟨-, -, hexact, -⟩ :=
    depth_bound_is_exact_iff hbound [atTop "b.ts", atTop "a.ts"] .default
  refine ⟨hbound, hexact.2 ?_⟩
  unfold found
  rw [hfiles]
  rintro f hf t - ⟨r, hr, hrt⟩
  have hall := hclosed f hf r hr
  rw [hrt] at hall
  exact of_decide_eq_true hall

/-- **A root is not followed when another root has led to it at the bound.**  The file that it
imports lies within the bound and is not found; in the other order of the roots it is. -/
theorem depth_bound_cuts_a_root_short :
    chained.settings.resolution.maxDepth = some 1 ∧
      chained.settings.typeAcquisition.enabled = false ∧
      atTop "c.ts" ∈ allotted chained 1 [atTop "a.ts", atTop "b.ts"] .default ∧
      atTop "c.ts" ∉ found chained [atTop "a.ts", atTop "b.ts"] .default ∧
      atTop "c.ts" ∈ found chained [atTop "b.ts", atTop "a.ts"] .default := by
  have hleads : LeadsTo chained (atTop "b.ts") (atTop "c.ts") := by decide +kernel
  have hchain : Chain chained ∅ (atTop "b.ts") 1 (atTop "c.ts") :=
    .step (.here (Set.notMem_empty _)) hleads (Set.notMem_empty _)
  have hroot : atTop "b.ts" ∈ [atTop "a.ts", atTop "b.ts"] := by simp
  have hmissed : atTop "c.ts" ∉
      (make .fullResolution chained [atTop "a.ts", atTop "b.ts"] .default).files := by
    decide +kernel
  have hfound : atTop "c.ts" ∈
      (make .fullResolution chained [atTop "b.ts", atTop "a.ts"] .default).files := by
    decide +kernel
  exact ⟨rfl, rfl, ⟨atTop "b.ts", .inl hroot, 1, Nat.le_refl 1, hchain⟩, hmissed, hfound⟩

end Codebase.Build
