import Codebase.Proofs.Declaration
import Codebase.Proofs.Path.Spelling
/-!
# The names of declaration packages

A directory name is read as the package that it declares, and a package is looked for under its name
as one name of a path.  Reading is undone by looking for, so what a root sees as a directory of a
type root is looked for in this directory.

* `mangled_declaredName`, `declaredName_injective` — the package of a directory leads back to it.
* `join_typeRoot` — a package of a type root is a directory directly in it.
* `Sights.resolve` — a package is resolved to the nearest directory with an entry.
* `declared_name_leads_back` — so it is acquired from the directory in which it was found.
-/

namespace Codebase.Declaration

/-! ## There and back -/

section Names

variable {text scope name : List Char}

theorem splitUnderscores?_eq_some (h : splitUnderscores? text = some (scope, name)) :
    text = scope ++ '_' :: '_' :: name := by
  induction text generalizing scope with
  | nil => cases h
  | cons c rest ih =>
    unfold splitUnderscores? at h
    split at h
    · cases h
    · rename_i heq
      cases h
      exact heq
    · rename_i heq
      cases heq
      obtain ⟨parts, hparts, hsame⟩ := Option.map_eq_some_iff.1 h
      cases hsame
      exact congrArg (c :: ·) (ih hparts)

/-- The first slash of a scoped name becomes two underscores. -/
theorem mangled_scoped {package : String} (hpackage : package.toList = '@' :: (scope ++ '/' :: name))
    (hscope : '/' ∉ scope) :
    Resolver.mangled package = String.ofList (scope ++ '_' :: '_' :: name) := by
  have hplain : ∀ c ∈ scope, decide (c ≠ '/') = true := fun c hc =>
    decide_eq_true fun hslash => hscope (hslash ▸ hc)
  unfold Resolver.mangled
  rw [hpackage]
  simp only [List.takeWhile_append_of_pos hplain, List.dropWhile_append_of_pos hplain]
  simp

/-- Any other name stays. -/
theorem mangled_of_unscoped {package : String} (h : package.toList.head? ≠ some '@') :
    Resolver.mangled package = package := by
  unfold Resolver.mangled
  split
  · rename_i rest hpackage
    rw [hpackage] at h
    exact absurd rfl h
  · rfl

end Names

/-- **The package that a directory declares is looked for under the name of the directory.** -/
theorem mangled_declaredName (d : Segment) (h : d.text.toList.head? ≠ some '@') :
    Resolver.mangled (declaredName d.text) = d.text := by
  unfold declaredName
  split
  · rename_i scope name hsplit
    have htext := splitUnderscores?_eq_some hsplit
    have hscope : '/' ∉ scope := fun hslash => by
      obtain ⟨-, -, -, hnone, -⟩ := d.allowed
      rw [htext] at hnone
      exact hnone (List.mem_append_left _ hslash)
    have hpackage : ("@" ++ String.ofList scope ++ "/" ++ String.ofList name).toList =
        '@' :: (scope ++ '/' :: name) := by simp
    rw [mangled_scoped hpackage hscope, ← htext, String.ofList_toList]
  · exact mangled_of_unscoped h

/-- So no two directories declare one package. -/
theorem declaredName_injective {d e : Segment} (hd : d.text.toList.head? ≠ some '@')
    (he : e.text.toList.head? ≠ some '@') (h : declaredName d.text = declaredName e.text) :
    d = e := by
  have htext : d.text = e.text := by
    rw [← mangled_declaredName d hd, h, mangled_declaredName e he]
  cases d
  cases e
  cases htext
  rfl

/-! ## From a root to a directory -/

variable {ctx : Context} {host : Host} {roots nearer : List Path} {root above entry : Path}
  {d : Segment}

/-- The directory of a package in a type root. -/
def packageDirectory (above : Path) (d : Segment) : Path :=
  ⟨(typeRoot above).root, d :: (typeRoot above).names⟩

/-- Where a package is looked for is directly in a type root. -/
theorem join_typeRoot (above : Path) (d : Segment) :
    above.join ("node_modules/@types/" ++ d.text) = packageDirectory above d := by
  have hunify : Path.unify ("node_modules/@types/" ++ d.text) =
      "node_modules/@types".toList ++ '/' :: d.text.toList := by
    rw [Path.unify_append, Path.unify_allowed d.allowed]
    rfl
  have hroot : typeRoot above = above.follow "node_modules/@types".toList := rfl
  unfold Path.join
  rw [hunify]
  show above.follow ("node_modules/@types".toList ++ '/' :: d.text.toList) = _
  rw [Path.follow_append, ← hroot, Path.follow_allowed d.allowed]
  rfl

/-- The root is the first one that sees the package of a directory.  It sees it in the type root of
the directory `above`, after it has looked into those of `nearer`. -/
structure Sights (host : Host) (roots : List Path) (root : Path) (nearer : List Path)
    (above : Path) (d : Segment) : Prop where
  first : ∃ before after, roots = before ++ root :: after ∧
    ∀ earlier ∈ before, declaredName d.text ∉ seen host earlier
  way : ∃ directory farther, root.parent? = some directory ∧
    directory.ancestors = nearer ++ above :: farther
  shown : host.hasDirectory (typeRoot above) = true ∧
    ∃ entries, host.list (typeRoot above) = .ok entries ∧
      ∃ entry ∈ entries, entry.isDirectory = true ∧ entry.path.fileName = d.text

theorem Sights.mem_seen (h : Sights host roots root nearer above d) :
    declaredName d.text ∈ seen host root := by
  obtain ⟨directory, farther, hparent, hancestors⟩ := h.way
  obtain ⟨hdirectory, entries, hlist, shown, hshown, hisDirectory, hname⟩ := h.shown
  unfold seen
  rw [hparent]
  refine List.mem_flatMap.2 ⟨typeRoot above, List.mem_map_of_mem ?_, ?_⟩
  · rw [hancestors]
    exact List.mem_append_right _ List.mem_cons_self
  · unfold listed
    rw [if_pos hdirectory, hlist]
    exact List.mem_map.2 ⟨shown, List.mem_filter.2 ⟨hshown, hisDirectory⟩, by rw [hname]⟩

/-- The package is resolved from this root. -/
theorem Sights.origin? (h : Sights host roots root nearer above d) :
    Declaration.origin? host roots none (declaredName d.text) = some root := by
  obtain ⟨before, after, rfl, hbefore⟩ := h.first
  have hfind : (before ++ root :: after).find? (fun root => declaredName d.text ∈ seen host root) =
      some root := by
    refine List.find?_eq_some_iff_append.2 ⟨decide_eq_true h.mem_seen, before, after, rfl, ?_⟩
    exact fun earlier hearlier => by simpa using hbefore earlier hearlier
  unfold Declaration.origin?
  simp only [hfind, Option.some_or]

/-- It is resolved to the entry of this directory, unless a nearer type root has one. -/
theorem Sights.resolve (h : Sights ctx.host roots root nearer above d)
    (hname : d.text.toList.head? ≠ some '@')
    (hentry : ctx.resolver.directory? (packageDirectory above d) = some entry)
    (hnearer : ∀ other ∈ nearer, ctx.resolver.directory? (packageDirectory other d) = none) :
    ctx.resolver.resolve .types (declaredName d.text) root = some entry := by
  obtain ⟨directory, farther, hparent, hancestors⟩ := h.way
  unfold Resolver.resolve
  simp only [hparent]
  unfold Resolver.types?
  simp only [mangled_declaredName d hname, join_typeRoot, hancestors]
  rw [List.findSome?_append, List.findSome?_eq_none_iff.2 hnearer, Option.none_or,
    List.findSome?_cons, hentry]
  rfl

/-- **A declared package leads back to its directory.**  The package that a directory name declares
is looked for under that name, and no two names declare one package, if the names do not start with
an at sign.  So, when the acquisition is not restricted and the settings allow the package, and a
root is the first one that sees it, as a directory in a type root that has an entry there, and no
type root nearer to the root has one, then the package is acquired with this entry and no other. -/
theorem declared_name_leads_back :
    (∀ d : Segment, d.text.toList.head? ≠ some '@' →
      Resolver.mangled (declaredName d.text) = d.text) ∧
    (∀ d e : Segment, d.text.toList.head? ≠ some '@' → e.text.toList.head? ≠ some '@' →
      declaredName d.text = declaredName e.text → d = e) ∧
    (∀ (ctx : Context) (roots : List Path) (root : Path) (nearer : List Path) (above : Path)
      (d : Segment) (entry : Path), d.text.toList.head? ≠ some '@' →
      Sights ctx.host roots root nearer above d →
      ctx.settings.typeAcquisition.allows (declaredName d.text) = true →
      ctx.resolver.directory? (packageDirectory above d) = some entry →
      (∀ other ∈ nearer, ctx.resolver.directory? (packageDirectory other d) = none) →
      ∀ found, ⟨declaredName d.text, found⟩ ∈ ofRoots ctx roots none ↔ found = entry) := by
  refine ⟨mangled_declaredName, fun d e => declaredName_injective, ?_⟩
  intro ctx roots root nearer above d entry hname hsights hallowed hentry hnearer found
  have horigin := hsights.origin?
  have hresolved := hsights.resolve hname hentry hnearer
  have hwanted : Wanted ctx roots none (declaredName d.text) := by
    obtain ⟨before, after, rfl, -⟩ := hsights.first
    exact .inr ⟨root, List.mem_append_right _ List.mem_cons_self, hsights.mem_seen⟩
  rw [mem_ofRoots_iff]
  constructor
  · rintro ⟨-, -, origin, horigin', hfound⟩
    simp only at horigin' hfound
    rw [horigin] at horigin'
    cases horigin'
    rw [hresolved] at hfound
    exact (Option.some.inj hfound).symm
  · rintro rfl
    exact ⟨hallowed, hwanted, root, horigin, hresolved⟩

/-! ### A scoped package at the top -/

/-- The directory of a package with a scope. -/
def scopedName : Segment := ⟨"scope__pkg", by decide⟩

/-- The root sees the package at the top, above a type root without it. -/
theorem nestedRoots_sights : Sights nestedContext.host nestedRoots (Path.atTop "p/a.ts")
    [Path.atTop "p"] (Path.atTop "") scopedName where
  first := ⟨[], [Path.atTop "b.ts"], rfl, by simp⟩
  way := ⟨Path.atTop "p", [], by decide +kernel, by decide +kernel⟩
  shown := by
    have hhost : nestedPackages.host = nestedPackages.unsorted :=
      Memory.host_eq_unsorted (by decide +kernel)
    have hlisted : (nestedPackages.unsorted.list (typeRoot (Path.atTop ""))).toOption.any
        (fun entries => entries.any fun entry =>
          entry.isDirectory && decide (entry.path.fileName = scopedName.text)) = true := by
      decide +kernel
    refine ⟨by decide +kernel, ?_⟩
    show ∃ entries, nestedPackages.host.list _ = _ ∧ _
    rw [hhost]
    cases hlist : nestedPackages.unsorted.list (typeRoot (Path.atTop "")) with
    | error e =>
      rw [hlist] at hlisted
      cases hlisted
    | ok entries =>
      rw [hlist] at hlisted
      obtain ⟨entry, hentry, hshown⟩ := List.any_eq_true.1 hlisted
      obtain ⟨hdirectory, hname⟩ := Bool.and_eq_true_iff.1 hshown
      exact ⟨entries, rfl, entry, hentry, hdirectory, of_decide_eq_true hname⟩

/-- The package with a scope is acquired from the directory at the top. -/
theorem declared_name_leads_back_scoped :
    declaredName "scope__pkg" = "@scope/pkg" ∧ Resolver.mangled "@scope/pkg" = "scope__pkg" ∧
      (∀ e : Segment, e.text.toList.head? ≠ some '@' →
        declaredName "scope__pkg" = declaredName e.text → scopedName = e) ∧
      ∀ found, ⟨"@scope/pkg", found⟩ ∈ ofRoots nestedContext nestedRoots none ↔
        found = Path.atTop "node_modules/@types/scope__pkg/index.d.ts" := by
  obtain ⟨hback, hinjective, hacquired⟩ := declared_name_leads_back
  have hname : scopedName.text.toList.head? ≠ some '@' := by decide
  have hpackage : declaredName scopedName.text = "@scope/pkg" := by decide +kernel
  have hmangled := hback scopedName hname
  have hfound := hacquired nestedContext nestedRoots _ _ _ scopedName
    (Path.atTop "node_modules/@types/scope__pkg/index.d.ts") hname nestedRoots_sights
    (by decide +kernel) (by decide +kernel) (by decide +kernel)
  rw [hpackage] at hmangled hfound
  exact ⟨hpackage, hmangled, fun e he => hinjective scopedName e hname he, hfound⟩

end Codebase.Declaration
