import Codebase.Proofs.Path
import Codebase.Resolution
/-!
# What resolution depends on

* `Resolver.hasFile_of_resolve` — a resolved specifier names an existing file.
* `Resolver.resolve_concur` — with the same extensions and the same package files, a target changes
  only if a file appears or goes.
* `Resolver.resolve_congr` — the target depends on the extensions, on which files exist, and on the
  texts of package files; on no other text.
* `added_file_attracts_only_to_itself` — a file that is added takes over some specifiers, and leads
  no specifier anywhere else.
-/

namespace Codebase.Resolver

/-- The file that describes a package. -/
def packageFile : String := "package.json"

theorem fileName_join_packageFile (directory : Path) :
    (directory.join packageFile).fileName = packageFile := by
  have hroot : Path.splitRoot? (Path.unify packageFile) = none := by decide
  have hname : (Path.unify packageFile).splitOn '/' = [packageFile.toList] := by decide
  have hallowed : Segment.Allowed (String.ofList packageFile.toList) := by decide
  unfold Path.join
  rw [hroot]
  simp only [Path.follow, hname, List.foldl_cons, List.foldl_nil, Path.descend]
  rw [if_neg (by decide), dif_pos hallowed]
  rfl

variable {r s : Resolver} {kind : Reference.Kind} {specifier package : String}
  {base directory source target : Path}

/-! ## Targets exist -/

theorem hasFile_of_withExtension? (h : r.withExtension? base = some target) :
    r.view.hasFile target = true :=
  List.find?_some h

theorem hasFile_of_file? (h : r.file? base = some target) : r.view.hasFile target = true := by
  unfold file? at h
  simp only [Option.or_eq_some_iff] at h
  rcases h with (h | ⟨-, h⟩) | ⟨-, h⟩
  · split at h
    · rename_i hfile
      cases h
      exact (Bool.and_eq_true_iff.1 hfile).2
    · cases h
  · obtain ⟨stem, -, hstem⟩ := Option.bind_eq_some_iff.1 h
    exact hasFile_of_withExtension? hstem
  · exact hasFile_of_withExtension? h

theorem hasFile_of_directory? (h : r.directory? directory = some target) :
    r.view.hasFile target = true := by
  unfold directory? at h
  simp only [Option.or_eq_some_iff] at h
  rcases h with h | ⟨-, h⟩
  · obtain ⟨entry, -, hentry⟩ := Option.bind_eq_some_iff.1 h
    exact hasFile_of_file? hentry
  · exact hasFile_of_withExtension? h

theorem hasFile_of_package? (h : r.package? package directory = some target) :
    r.view.hasFile target = true := by
  unfold package? at h
  obtain ⟨ancestor, -, h⟩ := List.exists_of_findSome?_eq_some h
  unfold packageAt? at h
  split at h
  · cases h
  · simp only [Option.or_eq_some_iff] at h
    rcases h with (h | ⟨-, h⟩) | ⟨-, h⟩
    · exact hasFile_of_file? h
    · exact hasFile_of_directory? h
    · exact hasFile_of_directory? h

theorem hasFile_of_module? (h : r.module? specifier directory = some target) :
    r.view.hasFile target = true := by
  unfold module? at h
  split at h
  · simp only [Option.or_eq_some_iff] at h
    rcases h with h | ⟨-, h⟩
    · exact hasFile_of_file? h
    · exact hasFile_of_directory? h
  · exact hasFile_of_package? h

theorem hasFile_of_path? (h : r.path? specifier directory = some target) :
    r.view.hasFile target = true := by
  unfold path? at h
  simp only at h
  split at h
  · rename_i hfile
    cases h
    exact hfile
  · exact hasFile_of_withExtension? h

theorem hasFile_of_types? (h : r.types? package directory = some target) :
    r.view.hasFile target = true := by
  unfold types? at h
  simp only [Option.or_eq_some_iff] at h
  rcases h with h | ⟨-, h⟩
  · obtain ⟨ancestor, -, h⟩ := List.exists_of_findSome?_eq_some h
    exact hasFile_of_directory? h
  · exact hasFile_of_package? h

/-- **A specifier is resolved to a file that exists.** -/
theorem hasFile_of_resolve (h : r.resolve kind specifier source = some target) :
    r.view.hasFile target = true := by
  unfold resolve at h
  split at h
  · cases h
  · cases kind with
    | module => exact hasFile_of_module? h
    | path => exact hasFile_of_path? h
    | types => exact hasFile_of_types? h

/-! ## What the target depends on -/

/-- Two views agree on a target, or it is a file that one of them does not have. -/
def Concur (r s : Resolver) (a b : Option Path) : Prop :=
  a = b ∨ (∃ t, a = some t ∧ s.view.hasFile t = false) ∨ ∃ t, b = some t ∧ r.view.hasFile t = false

namespace Concur

variable {a b a' b' : Option Path}

theorem same (a : Option Path) : Concur r s a a := .inl rfl

/-- The second choice counts only where the first one gives nothing. -/
theorem or (h : Concur r s a b) (h' : Concur r s a' b') : Concur r s (a.or a') (b.or b') := by
  rcases h with rfl | ⟨t, rfl, hlost⟩ | ⟨t, rfl, hgained⟩
  · cases a with
    | none => exact h'
    | some t => exact same _
  · exact .inr (.inl ⟨t, rfl, hlost⟩)
  · exact .inr (.inr ⟨t, rfl, hgained⟩)

theorem bind {α : Type} (o : Option α) {f g : α → Option Path} (h : ∀ x, Concur r s (f x) (g x)) :
    Concur r s (o.bind f) (o.bind g) := by
  cases o with
  | none => exact same none
  | some x => exact h x

theorem findSome? {α : Type} (l : List α) {f g : α → Option Path}
    (h : ∀ x, Concur r s (f x) (g x)) : Concur r s (l.findSome? f) (l.findSome? g) := by
  induction l with
  | nil => exact same none
  | cons x l ih =>
    have hcons : ∀ k : α → Option Path, (x :: l).findSome? k = (k x).or (l.findSome? k) := by
      intro k
      rw [List.findSome?_cons]
      cases k x <;> rfl
    rw [hcons, hcons]
    exact (h x).or ih

/-- The first file of a list of candidates. -/
theorem find? (candidates : List Path) :
    Concur r s (candidates.find? r.view.hasFile) (candidates.find? s.view.hasFile) := by
  induction candidates with
  | nil => exact same none
  | cons q rest ih =>
    rw [List.find?_cons, List.find?_cons]
    cases hr : r.view.hasFile q <;> cases hs : s.view.hasFile q
    · exact ih
    · exact .inr (.inr ⟨q, rfl, hr⟩)
    · exact .inr (.inl ⟨q, rfl, hs⟩)
    · exact same _

end Concur

section Views

variable (hextensions : r.extensions = s.extensions)
  (hread : ∀ p : Path, p.fileName = packageFile → r.view.read p = s.view.read p)

include hextensions in
theorem withExtension?_concur (base : Path) :
    Concur r s (r.withExtension? base) (s.withExtension? base) := by
  unfold withExtension?
  rw [hextensions]
  exact .find? _

include hextensions in
theorem file?_concur (base : Path) : Concur r s (r.file? base) (s.file? base) := by
  have hitself : Concur r s
      (if r.hasKnownEnding base && r.view.hasFile base then some base else none)
      (if s.hasKnownEnding base && s.view.hasFile base then some base else none) := by
    have hending : r.hasKnownEnding base = s.hasKnownEnding base := by
      unfold hasKnownEnding
      rw [hextensions]
    rw [hending]
    cases s.hasKnownEnding base with
    | false => exact .same none
    | true =>
      have hfind := Concur.find? (r := r) (s := s) [base]
      simp only [List.find?_cons, List.find?_nil] at hfind
      cases hr : r.view.hasFile base <;> cases hs : s.view.hasFile base <;>
        simpa [hr, hs] using hfind
  exact (hitself.or (.bind _ (withExtension?_concur hextensions))).or
    (withExtension?_concur hextensions base)

include hread in
theorem packageEntry?_congr (directory : Path) :
    r.packageEntry? directory = s.packageEntry? directory := by
  unfold packageEntry?
  rw [show "package.json" = packageFile from rfl, hread _ (fileName_join_packageFile directory)]

include hextensions hread in
theorem directory?_concur (directory : Path) :
    Concur r s (r.directory? directory) (s.directory? directory) := by
  unfold directory?
  rw [packageEntry?_congr hread directory]
  exact Concur.or (.bind _ fun _ => file?_concur hextensions _)
    (withExtension?_concur hextensions _)

include hextensions hread in
theorem package?_concur (package : String) (directory : Path) :
    Concur r s (r.package? package directory) (s.package? package directory) := by
  refine .findSome? _ fun ancestor => ?_
  unfold packageAt?
  split
  · exact .same none
  · exact ((file?_concur hextensions _).or (directory?_concur hextensions hread _)).or
      (directory?_concur hextensions hread _)

include hextensions hread in
/-- **Two views that read the package files alike resolve a specifier to the same file, unless one
of them does not have the file that the other finds.** -/
theorem resolve_concur (kind : Reference.Kind) (specifier : String) (source : Path) :
    Concur r s (r.resolve kind specifier source) (s.resolve kind specifier source) := by
  unfold resolve
  split
  · exact .same none
  · rename_i directory _
    cases kind with
    | module =>
      simp only [module?]
      split
      · exact (file?_concur hextensions _).or (directory?_concur hextensions hread _)
      · exact package?_concur hextensions hread specifier directory
    | path =>
      have htarget := Concur.find? (r := r) (s := s) [directory.join specifier]
      have hextended := withExtension?_concur hextensions (directory.join specifier)
      have hor := htarget.or hextended
      simp only [path?]
      simp only [List.find?_cons, List.find?_nil] at hor
      cases hr : r.view.hasFile (directory.join specifier) <;>
        cases hs : s.view.hasFile (directory.join specifier) <;> simpa [hr, hs] using hor
    | types =>
      exact (Concur.findSome? _ fun _ => directory?_concur hextensions hread _).or
        (package?_concur hextensions hread specifier directory)

include hextensions hread in
/-- **Two views that have the same files and the same package files resolve alike.** -/
theorem resolve_congr (hfile : r.view.hasFile = s.view.hasFile) : r.resolve = s.resolve := by
  funext kind specifier source
  rcases resolve_concur hextensions hread kind specifier source with
    hsame | ⟨t, ht, hlost⟩ | ⟨t, ht, hgained⟩
  · exact hsame
  · rw [← hfile, hasFile_of_resolve ht] at hlost
    cases hlost
  · rw [hfile, hasFile_of_resolve ht] at hgained
    cases hgained

end Views

/-! ## One more file -/

variable {added : Path}

/-- The second resolver sees at most one file more than the first one, with the same texts in the
files that describe packages. -/
structure Gains (r s : Resolver) (added : Path) : Prop where
  extensions : r.extensions = s.extensions
  package : ∀ p : Path, p.fileName = packageFile → r.view.read p = s.view.read p
  hasFile : ∀ p, p ≠ added → r.view.hasFile p = s.view.hasFile p
  missing : r.view.hasFile added = false

theorem Gains.hasFile_of_hasFile (h : Gains r s added) (hfile : r.view.hasFile target = true) :
    s.view.hasFile target = true := by
  have hother : target ≠ added := by
    rintro rfl
    rw [h.missing] at hfile
    cases hfile
  rw [← h.hasFile target hother]
  exact hfile

/-- What only the second resolver sees is the file that is added. -/
theorem Gains.eq_added (h : Gains r s added) (hfile : s.view.hasFile target = true)
    (hmissing : r.view.hasFile target = false) : target = added := by
  by_contra hother
  rw [h.hasFile target hother, hfile] at hmissing
  cases hmissing

/-- **A file that is added leads no specifier anywhere but to itself.**  Whatever a specifier is
resolved to exists.  If one file more exists and the packages are described as before, then a
specifier is resolved as before or to this file, wherever it stands and whatever its kind. -/
theorem added_file_attracts_only_to_itself :
    (∀ (r : Resolver) (kind : Reference.Kind) (specifier : String) (source target : Path),
      r.resolve kind specifier source = some target → r.view.hasFile target = true) ∧
    ∀ (r s : Resolver) (added : Path), Gains r s added →
      ∀ (kind : Reference.Kind) (specifier : String) (source : Path),
        s.resolve kind specifier source = r.resolve kind specifier source ∨
          s.resolve kind specifier source = some added := by
  refine ⟨fun r kind specifier source target => hasFile_of_resolve, ?_⟩
  intro r s added hgains kind specifier source
  rcases resolve_concur hgains.extensions hgains.package kind specifier source with
    hsame | ⟨t, ht, hlost⟩ | ⟨t, ht, hgained⟩
  · exact .inl hsame.symm
  · -- nothing is lost: what the first resolver finds is there for the second one too
    have hkept : s.view.hasFile t = true := hgains.hasFile_of_hasFile (hasFile_of_resolve ht)
    rw [hlost] at hkept
    cases hkept
  · right
    rw [ht, hgains.eq_added (hasFile_of_resolve ht) hgained]

/-- The resolver that sees this file too. -/
def seeing (r : Resolver) (added : Path) : Resolver :=
  { r with view := { r.view with hasFile := fun p => p = added || r.view.hasFile p } }

theorem gains_seeing (h : r.view.hasFile added = false) : Gains r (r.seeing added) added where
  extensions := rfl
  package _ _ := rfl
  hasFile p hp := by simp [seeing, hp]
  missing := h

/-- Sees a declaration file alone, and tries its extension last. -/
def declared : Resolver := ⟨⟨fun p => p = Path.atTop "b.d.ts", fun _ => none⟩, ["ts", "d.ts"]⟩

/-- A source with an extension that is tried first takes the place of a declaration file. -/
theorem added_file_attracts_only_to_itself_source :
    Gains declared (declared.seeing (Path.atTop "b.ts")) (Path.atTop "b.ts") ∧
      declared.resolve .module "./b" (Path.atTop "a.ts") = some (Path.atTop "b.d.ts") ∧
      (declared.seeing (Path.atTop "b.ts")).resolve .module "./b" (Path.atTop "a.ts") =
        some (Path.atTop "b.ts") := by
  have hgains : Gains declared (declared.seeing (Path.atTop "b.ts")) (Path.atTop "b.ts") :=
    gains_seeing (by decide +kernel)
  have hbefore : declared.resolve .module "./b" (Path.atTop "a.ts") =
      some (Path.atTop "b.d.ts") := by
    decide +kernel
  have hchanged : (declared.seeing (Path.atTop "b.ts")).resolve .module "./b"
      (Path.atTop "a.ts") ≠ declared.resolve .module "./b" (Path.atTop "a.ts") := by
    decide +kernel
  exact ⟨hgains, hbefore, (added_file_attracts_only_to_itself.2 _ _ _ hgains .module "./b"
    (Path.atTop "a.ts")).resolve_left hchanged⟩

end Codebase.Resolver
