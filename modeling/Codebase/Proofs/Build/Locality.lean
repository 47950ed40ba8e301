import Codebase.Proofs.Build.Closure
import Codebase.Proofs.Documents
import Codebase.Proofs.Host.Memory
import Codebase.Proofs.Path
/-!
# What a build depends on

A build depends on its seeds, on the texts of its own files and on the targets of the references in
them.  `Context.Agree` says that two contexts have the same settings, files, directories and package
files; between such contexts a build depends on nothing but the texts of its own files.

* `seeds_eq` — contexts that agree start with the same seeds.
* `finish_alike`, `foldl_seed_alike` — two searches go the same way as long as both contexts are the
  same at the files that the first one finds.
* `closure_local` — so a build is the same in both contexts if their seeds are.
* `make_local` — if contexts that agree give the files of the first build the same texts, the second
  build has the same files and the same unresolved references.
* `build_depends_on_its_own_texts` — and whatever the second build reads from its host is a text
  that the first context has for the same file.
-/

namespace Codebase

/-- Two contexts that differ at most in the texts of files that describe no package. -/
structure Context.Agree (c d : Context) : Prop where
  settings : c.settings = d.settings
  hasFile : c.hasFile = d.hasFile
  hasDirectory : c.host.hasDirectory = d.host.hasDirectory
  list : c.host.list = d.host.list
  package : ∀ p : Path, p.fileName = Resolver.packageFile → c.read p = d.read p

namespace Context.Agree

variable {c d : Context}

theorem resolve_eq (h : c.Agree d) : c.resolver.resolve = d.resolver.resolve :=
  Resolver.resolve_congr (congrArg (·.resolution.extensions) h.settings) h.package h.hasFile

theorem scanned_eq (h : c.Agree d) :
    Declaration.scanned c.host = Declaration.scanned d.host := by
  have hlisted : Declaration.listed c.host = Declaration.listed d.host := by
    funext typeRoot
    unfold Declaration.listed
    rw [h.hasDirectory, h.list]
  have hsee : ∀ (survey : Declaration.Survey) (root : Path),
      survey.see c.host root = survey.see d.host root := by
    intro survey root
    unfold Declaration.Survey.see Declaration.Survey.list
    rw [hlisted]
  funext roots
  unfold Declaration.scanned
  simp only [hsee]

theorem declarations_eq (h : c.Agree d) (roots : List Path) (restriction : Option (List String)) :
    Declaration.ofRoots c roots restriction = Declaration.ofRoots d roots restriction := by
  unfold Declaration.ofRoots Declaration.candidates
  rw [h.scanned_eq, h.resolve_eq, h.settings]

theorem seeds_eq (h : c.Agree d) (roots : List Path) (options : Build.Options) :
    Build.seeds c roots options = Build.seeds d roots options := by
  unfold Build.seeds Build.library?
  rw [h.declarations_eq, h.settings, h.hasFile]

end Context.Agree

namespace Build

variable {c d : Context} {roots : List Path} {options : Options}

/-- Two contexts read the same from a file and resolve its references alike. -/
structure SameAt (c d : Context) (file : Path) : Prop where
  read : c.read file = d.read file
  targets : ∀ r ∈ references c file, target? c file r = target? d file r

instance (c d : Context) (file : Path) : Decidable (SameAt c d file) :=
  decidable_of_iff (c.read file = d.read file ∧
      ∀ r ∈ references c file, target? c file r = target? d file r)
    ⟨fun h => ⟨h.1, h.2⟩, fun h => ⟨h.read, h.targets⟩⟩

theorem sameAt_of_agree (h : c.Agree d) {file : Path} (hread : c.read file = d.read file) :
    SameAt c d file where
  read := hread
  targets r _ := by
    unfold target?
    rw [h.resolve_eq]

/-- A file that reads the same has the same targets, as long as each target in one of the contexts
is a file in the other. -/
theorem sameAt_of_targets (hsettings : c.settings = d.settings)
    (hpackages : ∀ p : Path, p.fileName = Resolver.packageFile → c.read p = d.read p) {file : Path}
    (hread : c.read file = d.read file) (hkept : ∀ t, LeadsTo c file t → d.hasFile t = true)
    (hknown : ∀ t, LeadsTo d file t → c.hasFile t = true) : SameAt c d file where
  read := hread
  targets r hr := by
    have hreferences : references c file = references d file := by
      unfold references
      rw [hread]
    rcases Resolver.resolve_concur (r := c.resolver) (s := d.resolver)
      (congrArg (·.resolution.extensions) hsettings) hpackages r.kind r.specifier file with
      hsame | ⟨t, ht, hlost⟩ | ⟨t, ht, hgained⟩
    · exact hsame
    · have hfile : d.hasFile t = true := hkept t ⟨r, hr, ht⟩
      exact absurd (hfile.symm.trans hlost) nofun
    · have hfile : c.hasFile t = true := hknown t ⟨r, hreferences ▸ hr, ht⟩
      exact absurd (hfile.symm.trans hgained) nofun

namespace Search

variable {s t : Search} {path : Path} {depth fuel : Nat}

/-- Two searches that differ at most in what they list as read. -/
structure Alike (s t : Search) : Prop where
  files : s.build.files = t.build.files
  unresolved : s.build.unresolved = t.build.unresolved
  pending : s.pending = t.pending

theorem visit_alike (h : Alike s t) : Alike (s.visit path depth) (t.visit path depth) := by
  unfold visit
  rw [← h.files]
  split
  · exact h
  · exact ⟨by rw [h.files], h.unresolved, by rw [h.pending]⟩

theorem follow_alike {reference : Reference}
    (htarget : target? c path reference = target? d path reference) (h : Alike s t) :
    Alike (follow c path depth s reference) (follow d path depth t reference) := by
  unfold target? at htarget
  unfold follow
  rw [htarget]
  split
  · exact visit_alike h
  · exact ⟨h.files, by rw [h.unresolved], h.pending⟩

theorem foldl_follow_alike {references : List Reference}
    (htargets : ∀ r ∈ references, target? c path r = target? d path r) (h : Alike s t) :
    Alike (references.foldl (follow c path depth) s)
      (references.foldl (follow d path depth) t) := by
  induction references generalizing s t with
  | nil => exact h
  | cons reference rest ih =>
    rw [List.forall_mem_cons] at htargets
    exact ih htargets.2 (follow_alike htargets.1 h)

theorem read_alike {text : String} {next : Search} (h : s.read c path = some (text, next)) :
    Alike next s := by
  obtain ⟨-, ⟨-, rfl⟩ | ⟨-, -, rfl⟩⟩ := read_eq_some h <;> exact ⟨rfl, rfl, rfl⟩

theorem isBounded_eq (hsettings : c.settings = d.settings) :
    isBounded c depth = isBounded d depth := by
  unfold isBounded
  rw [hsettings]

theorem Alike.symm (h : Alike s t) : Alike t s :=
  ⟨h.files.symm, h.unresolved.symm, h.pending.symm⟩

theorem Alike.trans {u : Search} (h : Alike s t) (h' : Alike t u) : Alike s u :=
  ⟨h.files.trans h'.files, h.unresolved.trans h'.unresolved, h.pending.trans h'.pending⟩

theorem expand_alike (hsettings : c.settings = d.settings) (h : Alike s t)
    (hpath : SameAt c d path) : Alike (s.expand c path depth) (t.expand d path depth) := by
  have htext := hpath.read
  unfold expand
  cases hc : s.read c path with
  | none =>
    cases hd : t.read d path with
    | none => exact h
    | some found =>
      obtain ⟨hread, -⟩ := read_eq_some hd
      rw [← htext, read_eq_none hc] at hread
      cases hread
  | some found =>
    obtain ⟨text, next⟩ := found
    have hread := (read_eq_some hc).1
    have htargets := hpath.targets
    rw [references_of_read hread] at htargets
    cases hd : t.read d path with
    | none =>
      rw [htext, read_eq_none hd] at hread
      cases hread
    | some found' =>
      obtain ⟨text', next'⟩ := found'
      have hsame : text' = text := by
        rw [htext, (read_eq_some hd).1] at hread
        exact Option.some.inj hread
      subst hsame
      have hnext : Alike next next' := (read_alike hc).trans (h.trans (read_alike hd).symm)
      simp only [isBounded_eq hsettings]
      split
      · exact hnext
      · exact foldl_follow_alike htargets hnext

/-- Two searches go the same way as long as both contexts are the same at the files that the first
one finds. -/
theorem finish_alike {candidates : List Path} (hsettings : c.settings = d.settings)
    (hplaces : ∀ f, c.hasFile f = true → f ∈ candidates) (hsound : Sound c candidates [] s)
    (h : Alike s t)
    (hsame : ∀ f ∈ (s.finish c fuel).build.files, SameAt c d f) :
    Alike (s.finish c fuel) (t.finish d fuel) := by
  induction fuel generalizing s t with
  | zero => exact h
  | succ fuel ih =>
    unfold finish at hsame ⊢
    rw [← h.pending]
    split
    · exact h
    · rename_i path depth rest hpending
      rw [hpending] at hsame
      have htaken := take_sound hsound hpending
      -- the file that is taken up is one of the files already, so it is among the last ones
      have hfile : path ∈ s.build.files := hsound.pending path (by rw [hpending]; simp)
      have hpath := hsame path (mem_files_finish (mem_files_expand hfile))
      exact ih (expand_sound hplaces htaken)
        (expand_alike hsettings ⟨h.files, h.unresolved, rfl⟩ hpath) hsame

theorem foldl_seed_alike {candidates : List Path} (hsettings : c.settings = d.settings)
    (hplaces : ∀ f, c.hasFile f = true → f ∈ candidates) {seeds : List Path}
    (hseeds : ∀ f ∈ seeds, f ∈ candidates) (hsound : Sound c candidates [] s) (h : Alike s t)
    (hsame : ∀ f ∈ (seeds.foldl (seed c fuel) s).build.files, SameAt c d f) :
    Alike (seeds.foldl (seed c fuel) s) (seeds.foldl (seed d fuel) t) := by
  induction seeds generalizing s t with
  | nil => exact h
  | cons first rest ih =>
    rw [List.forall_mem_cons] at hseeds
    have hvisited : Sound c candidates [] (s.visit first 0) := visit_sound hsound hseeds.1
    have hfirst : ∀ f ∈ (s.seed c fuel first).build.files, SameAt c d f := by
      intro f hf
      have hlast : f ∈ (rest.foldl (seed c fuel) (s.seed c fuel first)).build.files :=
        mem_files_foldl_seed (.inl hf)
      exact hsame f hlast
    exact ih hseeds.2 (finish_sound hplaces hvisited)
      (finish_alike hsettings hplaces hvisited (visit_alike h) hfirst) hsame

end Search

/-- **A build depends on its seeds, and on its own files and their references only.** -/
theorem closure_local (hsettings : c.settings = d.settings)
    (hseeds : seeds c roots options = seeds d roots options)
    (hsame : ∀ f ∈ (closure c roots options).files, SameAt c d f) :
    (closure d roots options).files = (closure c roots options).files ∧
      (closure d roots options).unresolved = (closure c roots options).unresolved := by
  -- the bounds of the two searches differ, so both are given the larger one
  obtain ⟨fuel, hc, hd⟩ : ∃ fuel, searchBound c (seeds c roots options) ≤ fuel ∧
      searchBound d (seeds d roots options) ≤ fuel := ⟨_, Nat.le_max_left _ _, Nat.le_max_right _ _⟩
  rw [closure_eq_search hc] at hsame ⊢
  rw [closure_eq_search hd, ← hseeds]
  have halike := Search.foldl_seed_alike hsettings
    (fun f hf => List.mem_append_right _ (Context.mem_places hf))
    (fun f => List.mem_append_left c.places) Search.empty_sound ⟨rfl, rfl, rfl⟩ hsame
  exact ⟨halike.files.symm, halike.unresolved.symm⟩

/-- **Between contexts that agree, a build depends on nothing but the texts of its own files.** -/
theorem make_local {strategy : Strategy} (hagree : c.Agree d)
    (htext : ∀ f ∈ (make strategy c roots options).files, c.read f = d.read f) :
    (make strategy d roots options).files = (make strategy c roots options).files ∧
      (make strategy d roots options).unresolved = (make strategy c roots options).unresolved := by
  cases strategy with
  | identity => exact ⟨rfl, rfl⟩
  | fullResolution =>
    exact closure_local hagree.settings (hagree.seeds_eq roots options) fun f hf =>
      sameAt_of_agree hagree (htext f hf)

/-- What a build has read from the host are texts of its files. -/
theorem read_of_mem_discovered {strategy : Strategy} {entry : Path × String}
    (h : entry ∈ (make strategy c roots options).discovered) :
    entry.1 ∈ (make strategy c roots options).files ∧ c.read entry.1 = some entry.2 := by
  cases strategy with
  | identity => cases h
  | fullResolution =>
    obtain ⟨-, -, -, hdiscovered⟩ := closure_sound c roots options
    obtain ⟨hfile, huntracked, hread⟩ := hdiscovered entry h
    have hnone : c.documents.text? entry.1 = none :=
      Option.map_eq_none_iff.2 (Table.contains_eq_false.1 huntracked)
    exact ⟨hfile, Context.read_of_host hnone hread⟩

/-- **A build looks at no text but those of its own files.**  Two contexts have the same settings,
files and directories, and the same texts in the files that describe packages.  If they have the
same texts for the files of a build in the first one, wherever each of them has a text from, then
the same build in the second one has the same files and the same unresolved references, and all that
it reads from its host are texts that the first context has for these files. -/
theorem build_depends_on_its_own_texts {strategy : Strategy} (hagree : c.Agree d)
    (htext : ∀ f ∈ (make strategy c roots options).files, c.read f = d.read f) :
    (make strategy d roots options).files = (make strategy c roots options).files ∧
      (make strategy d roots options).unresolved = (make strategy c roots options).unresolved ∧
      ∀ entry ∈ (make strategy d roots options).discovered,
        entry.1 ∈ (make strategy c roots options).files ∧ c.read entry.1 = some entry.2 := by
  obtain ⟨hfiles, hunresolved⟩ := make_local hagree htext
  refine ⟨hfiles, hunresolved, ?_⟩
  intro entry hentry
  obtain ⟨hfile, hread⟩ := read_of_mem_discovered hentry
  rw [hfiles] at hfile
  exact ⟨hfile, (htext entry.1 hfile).trans hread⟩

/-! ### Other texts elsewhere -/

open Codebase.Path (atTop)

/-- A file that imports another one, beside a third. -/
def besideFiles : Memory :=
  ((Memory.empty.addFile (atTop "a.ts") "import './b'").addFile (atTop "b.ts") "").addFile
    (atTop "c.ts") ""

/-- The same files, the third of which imports the first one now, and the second one the third. -/
def editedFiles : Memory :=
  (besideFiles.addFile (atTop "b.ts") "import './c'").addFile (atTop "c.ts") "import './a'"

def beside : Context := ⟨besideFiles.host, .empty, .default⟩

/-- A document holds the old text of the second file. -/
def overlaid : Context := ⟨editedFiles.host, Documents.empty.note (atTop "b.ts") "", .default⟩

theorem beside_agrees : beside.Agree overlaid := by
  have halike : besideFiles.Alike editedFiles :=
    (Memory.alike_addFile (by decide +kernel) (by decide +kernel) _).trans
      (Memory.alike_addFile (by decide +kernel) (by decide +kernel) _)
  have hb : editedFiles.hasFile (atTop "b.ts") = true := by decide +kernel
  have hnote : ∀ p, p ≠ atTop "b.ts" →
      overlaid.documents.get? p = beside.documents.get? p := by
    intro p hp
    show (Documents.empty.note (atTop "b.ts") "").get? p = Documents.empty.get? p
    rw [Documents.get?_note, if_neg fun h => hp h.1]
  refine ⟨rfl, funext fun p => ?_, halike.hasDirectory, halike.list, fun p hp => ?_⟩
  · show (beside.documents.contains p || besideFiles.hasFile p) =
      (overlaid.documents.contains p || editedFiles.hasFile p)
    rw [halike.hasFile]
    by_cases hp : p = atTop "b.ts"
    · rw [hp, hb, Bool.or_true, Bool.or_true]
    · rw [Documents.contains_congr (hnote p hp)]
  · have hother : p ≠ atTop "b.ts" := by
      rintro rfl
      exact absurd hp (by decide +kernel)
    unfold Context.read
    rw [Documents.text?_congr (hnote p hother)]
    show (besideFiles.read p).toOption = (editedFiles.read p).toOption
    rw [halike.package p hp]

/-- The texts of the host differ in two of the files, and the build stays. -/
theorem build_depends_on_its_own_texts_overlaid :
    (beside.host.read (atTop "b.ts")).toOption = some "" ∧
      (overlaid.host.read (atTop "b.ts")).toOption = some "import './c'" ∧
      beside.read (atTop "c.ts") ≠ overlaid.read (atTop "c.ts") ∧
      (make .fullResolution overlaid [atTop "a.ts"] .default).files =
        [atTop "a.ts", atTop "b.ts"] := by
  have hfiles : (make .fullResolution beside [atTop "a.ts"] .default).files =
      [atTop "a.ts", atTop "b.ts"] := by
    decide +kernel
  have htext : ∀ f ∈ [atTop "a.ts", atTop "b.ts"], beside.read f = overlaid.read f := by
    decide +kernel
  rw [← hfiles] at htext
  refine ⟨by decide +kernel, by decide +kernel, by decide +kernel, ?_⟩
  rw [(build_depends_on_its_own_texts beside_agrees htext).1, hfiles]

end Build

end Codebase
