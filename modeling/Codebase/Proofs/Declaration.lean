import Codebase.Declaration
import Codebase.Proofs.Data.Table
import Codebase.Proofs.Host.Listing
import Codebase.Proofs.Resolution
/-!
# Which declaration packages are acquired

The survey of the type roots remembers which of them it has listed.  What it skips has shown all of
its packages to an earlier root already, and a package stays with the root that wanted it first, so
the survey finds what it would find without a memory:

* `Survey.see_spec` — one root adds what it sees, listed anew or not.
* `scanned_eq_rescanned` — so the survey finds what listing everything again finds.
* `mem_ofRoots_iff` — which packages are acquired, and from where each is resolved.
* `discovery_is_rescanning` — what this comes to.
-/

namespace Codebase

namespace Declaration

variable {ctx : Context} {host : Host} {root : Path} {roots : List Path}
  {restriction : Option (List String)} {package : String}

/-! ## Without a memory -/

/-- The packages that one root sees, those of its nearest type root first. -/
def seen (host : Host) (root : Path) : List String :=
  match root.parent? with
  | none => []
  | some directory => (directory.ancestors.map typeRoot).flatMap (listed host)

/-- The packages that the roots see when each lists every type root above it anew. -/
def rescanned (host : Host) (roots : List Path) : Table String Path :=
  roots.foldl (fun found root => addNames (seen host root) root found) Table.empty

/-- The packages to acquire, each with the root to resolve it from. -/
def rescannedCandidates (ctx : Context) (roots : List Path) (firstRoot : Path)
    (restriction : Option (List String)) : Table String Path :=
  let found := match restriction with
    | some names => addNames names firstRoot Table.empty
    | none => rescanned ctx.host roots
  addNames ctx.settings.typeAcquisition.extra firstRoot found

/-- The declaration packages of a project, found without a memory of what has been listed. -/
def rescannedOfRoots (ctx : Context) (roots : List Path) (restriction : Option (List String)) :
    List Declaration :=
  let policy := ctx.settings.typeAcquisition
  match roots with
  | [] => []
  | firstRoot :: _ =>
    if policy.enabled then
      (rescannedCandidates ctx roots firstRoot restriction).entries.filterMap fun (package, root) =>
        if policy.allows package then
          (ctx.resolver.resolve .types package root).map fun entry => ⟨package, entry⟩
        else none
    else []

theorem addNames_append (names more : List String) (root : Path) (found : Table String Path) :
    addNames (names ++ more) root found = addNames more root (addNames names root found) :=
  List.foldl_append

theorem get?_addNames (names : List String) (root : Path) (found : Table String Path)
    (package : String) :
    (addNames names root found).get? package =
      (found.get? package).or (if package ∈ names then some root else none) := by
  have hlookup : (names.map fun name => (name, root)).lookup package =
      if package ∈ names then some root else none := by
    induction names with
    | nil => rfl
    | cons name rest ih =>
      rw [List.map_cons, Table.lookup_cons_eq, ih]
      by_cases hname : package = name <;> simp [hname]
  rw [← hlookup, ← Table.get?_foldl_insertIfNew, List.foldl_map]
  rfl

theorem contains_addNames {names : List String} {found : Table String Path} :
    (addNames names root found).contains package = true ↔
      found.contains package = true ∨ package ∈ names := by
  unfold Table.contains
  rw [get?_addNames]
  by_cases hname : package ∈ names <;> simp [hname]

/-- Packages that are there already add nothing. -/
theorem addNames_of_contains {names : List String} {found : Table String Path}
    (h : ∀ name ∈ names, found.contains name = true) (root : Path) :
    addNames names root found = found := by
  unfold addNames
  refine List.foldlRecOn (motive := (· = found)) names _ rfl fun table htable name hname => ?_
  rw [htable]
  exact if_pos (h name hname)

/-! ## The memory skips nothing new -/

/-- Every type root that is remembered has shown all of its packages. -/
def Survey.Faithful (survey : Survey) (host : Host) : Prop :=
  ∀ typeRoot ∈ survey.listed, ∀ package ∈ Declaration.listed host typeRoot,
    survey.candidates.contains package = true

/-- Whether a type root is listed or skipped, its packages are candidates afterwards, and nothing
else changes. -/
theorem Survey.Faithful.list {survey : Survey} (h : survey.Faithful host) (root typeRoot : Path) :
    (survey.list host root typeRoot).candidates =
        addNames (Declaration.listed host typeRoot) root survey.candidates ∧
      (survey.list host root typeRoot).Faithful host := by
  unfold Survey.list
  split
  · rename_i hskipped
    exact ⟨(addNames_of_contains (h typeRoot hskipped) root).symm, h⟩
  · refine ⟨rfl, fun other hother package hpackage => ?_⟩
    refine contains_addNames.2 ?_
    rcases Roster.mem_insert.1 hother with hbefore | rfl
    · exact .inl (h other hbefore package hpackage)
    · exact .inr hpackage

theorem Survey.Faithful.foldl_list {survey : Survey} (h : survey.Faithful host) (root : Path)
    (typeRoots : List Path) :
    (typeRoots.foldl (fun s t => s.list host root t) survey).candidates =
        addNames (typeRoots.flatMap (Declaration.listed host)) root survey.candidates ∧
      (typeRoots.foldl (fun s t => s.list host root t) survey).Faithful host := by
  induction typeRoots generalizing survey with
  | nil => exact ⟨rfl, h⟩
  | cons typeRoot rest ih =>
    obtain ⟨hcandidates, hfaithful⟩ := h.list root typeRoot
    rw [List.foldl_cons, List.flatMap_cons, addNames_append, ← hcandidates]
    exact ih hfaithful

/-- A root adds what it sees. -/
theorem Survey.Faithful.see {survey : Survey} (h : survey.Faithful host) (root : Path) :
    (survey.see host root).candidates = addNames (seen host root) root survey.candidates ∧
      (survey.see host root).Faithful host := by
  unfold Survey.see seen
  cases root.parent? with
  | none => exact ⟨rfl, h⟩
  | some directory => exact h.foldl_list root _

/-- **What is skipped is not missed.**  The survey finds the same packages in the same order and
under the same roots as listing every type root anew for every root. -/
theorem scanned_eq_rescanned (host : Host) (roots : List Path) :
    scanned host roots = rescanned host roots := by
  have hall : ∀ survey : Survey, survey.Faithful host →
      (roots.foldl (fun s root => s.see host root) survey).candidates =
        roots.foldl (fun found root => addNames (seen host root) root found) survey.candidates := by
    induction roots with
    | nil => exact fun _ _ => rfl
    | cons root rest ih =>
      intro survey h
      obtain ⟨hcandidates, hfaithful⟩ := h.see root
      rw [List.foldl_cons, List.foldl_cons, ih _ hfaithful, hcandidates]
  exact hall ⟨Roster.empty, Table.empty⟩ fun _ hlisted => by cases hlisted

theorem candidates_eq_rescanned (ctx : Context) (roots : List Path) (firstRoot : Path)
    (restriction : Option (List String)) :
    candidates ctx roots firstRoot restriction =
      rescannedCandidates ctx roots firstRoot restriction := by
  unfold candidates rescannedCandidates
  cases restriction with
  | some names => rfl
  | none => simp only [scanned_eq_rescanned]

/-! ## Where a package is resolved from -/

/-- The root that a package is resolved from: without a restriction the first one that sees it, else
the first root. -/
def origin? (host : Host) (roots : List Path) (restriction : Option (List String))
    (package : String) : Option Path :=
  match restriction with
  | some _ => roots.head?
  | none => (roots.find? fun root => package ∈ seen host root).or roots.head?

/-- The package is one to acquire: the restriction names it, or without a restriction some root sees
it, or the settings ask for it. -/
def Wanted (ctx : Context) (roots : List Path) (restriction : Option (List String))
    (package : String) : Prop :=
  package ∈ ctx.settings.typeAcquisition.extra ∨
    match restriction with
    | some names => package ∈ names
    | none => ∃ root ∈ roots, package ∈ seen ctx.host root

theorem get?_rescanned (host : Host) (roots : List Path) (package : String) :
    (rescanned host roots).get? package = roots.find? fun root => package ∈ seen host root := by
  have hall : ∀ found : Table String Path,
      (roots.foldl (fun found root => addNames (seen host root) root found) found).get? package =
        (found.get? package).or (roots.find? fun root => package ∈ seen host root) := by
    induction roots with
    | nil => exact fun found => Option.or_none.symm
    | cons root rest ih =>
      intro found
      rw [List.foldl_cons, ih, get?_addNames, Option.or_assoc, List.find?_cons]
      by_cases hseen : package ∈ seen host root <;> simp [hseen]
  exact hall Table.empty

/-- A candidate is a package to acquire, and is kept with the root that it is resolved from. -/
theorem get?_candidates_eq_some_iff {firstRoot root : Path} {rest : List Path} :
    (candidates ctx (firstRoot :: rest) firstRoot restriction).get? package = some root ↔
      Wanted ctx (firstRoot :: rest) restriction package ∧
        origin? ctx.host (firstRoot :: rest) restriction package = some root := by
  rw [candidates_eq_rescanned]
  unfold rescannedCandidates Wanted origin?
  rw [get?_addNames]
  cases restriction with
  | some names =>
    simp only
    rw [get?_addNames, Table.get?_empty, Option.none_or]
    by_cases hname : package ∈ names <;>
      by_cases hextra : package ∈ ctx.settings.typeAcquisition.extra <;> simp [hname, hextra]
  | none =>
    simp only
    rw [get?_rescanned]
    cases hseen : (firstRoot :: rest).find? fun root => package ∈ seen ctx.host root with
    | some first =>
      have hsome : ∃ root ∈ firstRoot :: rest, package ∈ seen ctx.host root :=
        ⟨first, List.mem_of_find?_eq_some hseen, of_decide_eq_true (List.find?_some hseen :)⟩
      rw [Option.some_or, Option.some_or, and_iff_right (.inr hsome)]
    | none =>
      have hnone : ¬ ∃ root ∈ firstRoot :: rest, package ∈ seen ctx.host root := by
        rintro ⟨root, hroot, hpackage⟩
        exact List.find?_eq_none.1 hseen root hroot (decide_eq_true hpackage)
      rw [Option.none_or, Option.none_or, or_iff_left hnone]
      by_cases hextra : package ∈ ctx.settings.typeAcquisition.extra <;> simp [hextra]

/-- A package is acquired if the settings allow it, it is one to acquire, and it resolves to an
entry from its root. -/
theorem mem_ofRoots_iff {declaration : Declaration} :
    declaration ∈ ofRoots ctx roots restriction ↔
      ctx.settings.typeAcquisition.allows declaration.package = true ∧
      Wanted ctx roots restriction declaration.package ∧
      ∃ root, origin? ctx.host roots restriction declaration.package = some root ∧
        ctx.resolver.resolve .types declaration.package root = some declaration.entry := by
  unfold ofRoots
  cases roots with
  | nil =>
    refine iff_of_false List.not_mem_nil ?_
    rintro ⟨-, -, root, horigin, -⟩
    unfold origin? at horigin
    cases restriction <;> cases horigin
  | cons firstRoot rest =>
    simp only
    split
    · rw [List.mem_filterMap]
      constructor
      · rintro ⟨⟨package, root⟩, hentry, hresolved⟩
        simp only at hresolved
        split at hresolved
        · rename_i hallowed
          obtain ⟨entry, hentry', rfl⟩ := Option.map_eq_some_iff.1 hresolved
          obtain ⟨hwanted, horigin⟩ := get?_candidates_eq_some_iff.1 (Table.mem_entries.1 hentry)
          exact ⟨hallowed, hwanted, root, horigin, hentry'⟩
        · cases hresolved
      · rintro ⟨hallowed, hwanted, root, horigin, hresolved⟩
        refine ⟨(declaration.package, root),
          Table.mem_entries.2 (get?_candidates_eq_some_iff.2 ⟨hwanted, horigin⟩), ?_⟩
        simp only
        rw [if_pos hallowed, hresolved]
        rfl
    · rename_i hdisabled
      refine iff_of_false List.not_mem_nil ?_
      rintro ⟨hallowed, -⟩
      exact hdisabled (Bool.and_eq_true_iff.1 hallowed).1

theorem ofRoots_eq_rescanned (ctx : Context) (roots : List Path)
    (restriction : Option (List String)) :
    ofRoots ctx roots restriction = rescannedOfRoots ctx roots restriction := by
  unfold ofRoots rescannedOfRoots
  cases roots with
  | nil => rfl
  | cons firstRoot rest => simp only [candidates_eq_rescanned]

theorem nodup_packages (ctx : Context) (roots : List Path) (restriction : Option (List String)) :
    ((ofRoots ctx roots restriction).map Declaration.package).Nodup := by
  unfold ofRoots
  cases roots with
  | nil => exact List.nodup_nil
  | cons firstRoot rest =>
    simp only
    split
    · -- a package keeps its name, and the names of the candidates are distinct
      have hnodup := (candidates ctx (firstRoot :: rest) firstRoot restriction).nodup
      unfold List.Nodup at hnodup ⊢
      rw [List.pairwise_map] at hnodup ⊢
      refine List.pairwise_filterMap.2 (hnodup.imp fun {a b} hne c hc d hd => ?_)
      have hname : ∀ {e : String × Path} {declaration : Declaration},
          (if ctx.settings.typeAcquisition.allows e.1 = true then
            (ctx.resolver.resolve .types e.1 e.2).map fun entry => ⟨e.1, entry⟩
          else none) = some declaration → declaration.package = e.1 := by
        intro e declaration h
        split at h
        · obtain ⟨entry, -, rfl⟩ := Option.map_eq_some_iff.1 h
          rfl
        · cases h
      rw [hname hc, hname hd]
      exact hne
    · exact List.nodup_nil

/-- **Discovery is rescanning.**  The declaration packages of a project are those, in the same
order, that are found when every type root is listed anew for every root above which it lies.  No
two of them have the same name.  A package is among them if and only if the settings allow it, it is
one to acquire, and it resolves from its root; this is the first root that sees it when nothing
restricts the acquisition, and otherwise, and for a package that no root sees, the first root.  Its
entry is what it resolves to, and exists.  A restriction leaves no other packages than those it
names and those that the settings ask for, and nothing is acquired without a root or when
acquisition is disabled. -/
theorem discovery_is_rescanning (ctx : Context) (roots : List Path)
    (restriction : Option (List String)) :
    ofRoots ctx roots restriction = rescannedOfRoots ctx roots restriction ∧
    ((ofRoots ctx roots restriction).map Declaration.package).Nodup ∧
    (∀ declaration, declaration ∈ ofRoots ctx roots restriction ↔
      ctx.settings.typeAcquisition.allows declaration.package = true ∧
      Wanted ctx roots restriction declaration.package ∧
      ∃ root, origin? ctx.host roots restriction declaration.package = some root ∧
        ctx.resolver.resolve .types declaration.package root = some declaration.entry) ∧
    (∀ declaration ∈ ofRoots ctx roots restriction, ctx.hasFile declaration.entry = true) ∧
    (∀ names, restriction = some names → ∀ declaration ∈ ofRoots ctx roots restriction,
      declaration.package ∈ names ∨
        declaration.package ∈ ctx.settings.typeAcquisition.extra) ∧
    (ctx.settings.typeAcquisition.enabled = false ∨ roots = [] →
      ofRoots ctx roots restriction = []) := by
  refine ⟨ofRoots_eq_rescanned ctx roots restriction, nodup_packages ctx roots restriction,
    fun _ => mem_ofRoots_iff, fun declaration hmem => ?_, ?_, ?_⟩
  · obtain ⟨-, -, root, -, hresolved⟩ := mem_ofRoots_iff.1 hmem
    exact Resolver.hasFile_of_resolve hresolved
  · rintro names rfl declaration hmem
    obtain ⟨-, hwanted, -⟩ := mem_ofRoots_iff.1 hmem
    exact hwanted.symm
  · rintro (hdisabled | rfl)
    · refine List.eq_nil_iff_forall_not_mem.2 fun declaration hmem => ?_
      obtain ⟨hallowed, -⟩ := mem_ofRoots_iff.1 hmem
      rw [TypeAcquisition.allows, hdisabled] at hallowed
      cases hallowed
    · rfl

/-! ### Two roots beneath one type root -/

open Codebase.Path (atTop)

/-- Two packages at the top, one of which lies as well beside one of two roots. -/
def nestedPackages : Memory :=
  let files := ["b.ts", "node_modules/@types/node/index.d.ts",
    "node_modules/@types/scope__pkg/index.d.ts", "p/a.ts", "p/node_modules/@types/node/index.d.ts"]
  files.foldl (fun memory file => memory.addFile (atTop file) "") Memory.empty

/-- The roots, the first of which sees both type roots. -/
def nestedRoots : List Path := [atTop "p/a.ts", atTop "b.ts"]

def nestedContext : Context := ⟨nestedPackages.host, .empty, .default⟩

/-- The type root at the top is skipped for the second root, whose packages the first one has seen,
and the package that lies twice is the one beside the first root. -/
theorem discovery_is_rescanning_nested :
    let acquired := ofRoots nestedContext nestedRoots none
    acquired.map (fun d => (d.package, d.entry)) =
        [("node", atTop "p/node_modules/@types/node/index.d.ts"),
          ("@scope/pkg", atTop "node_modules/@types/scope__pkg/index.d.ts")] ∧
      seen nestedContext.host (atTop "b.ts") = ["node", "@scope/pkg"] ∧
      acquired = rescannedOfRoots nestedContext nestedRoots none ∧
      (∀ declaration ∈ acquired, nestedContext.hasFile declaration.entry = true) ∧
      (∀ declaration ∈ ofRoots nestedContext nestedRoots (some ["node"]),
        declaration.package ∈ ["node"] ∨ declaration.package ∈ ([] : List String)) ∧
      ofRoots nestedContext [] none = [] := by
  have hhost : nestedPackages.host = nestedPackages.unsorted :=
    Memory.host_eq_unsorted (by decide +kernel)
  obtain ⟨hsame, -, -, hexists, -, -⟩ := discovery_is_rescanning nestedContext nestedRoots none
  obtain ⟨-, -, -, -, hrestricted, -⟩ :=
    discovery_is_rescanning nestedContext nestedRoots (some ["node"])
  obtain ⟨-, -, -, -, -, hempty⟩ := discovery_is_rescanning nestedContext [] none
  refine ⟨?_, ?_, hsame, hexists, hrestricted ["node"] rfl, hempty (.inr rfl)⟩
  · unfold nestedContext
    rw [hhost]
    decide +kernel
  · unfold nestedContext
    rw [hhost]
    decide +kernel

end Declaration

end Codebase
