import Codebase.Proofs.Host.Tree
import Codebase.Proofs.Path.Spelling
import Mathlib.Data.Finset.Max
/-!
# What a listing gets right

A listing of a host in memory spells each child by joining its name to the directory.  A name such
as `c:x.ts` stands on its own when it is joined, so the child is listed as a path on that drive.

* `pairwise_sort` — different paths are sorted strictly.
* `join_of_startsWithDrive` — a name that is read as a drive leads to the drive, or to a shorter
  name on it.
* `exists_unlisted` — so if a directory has such names, the child with the longest of them is not
  listed.
* `listing_is_exact_iff` — a listing is exact if and only if the directory has no such name.
-/

namespace Codebase

namespace Path

variable {p q : Path}

theorem le_iff : p.le q = true ↔ p.text ≤ q.text := by
  unfold Path.le
  rw [Bool.not_eq_true', decide_eq_false_iff_not, String.not_lt]

/-- Different paths are sorted strictly, since no two have one spelling. -/
theorem pairwise_sort {paths : List Path} (h : paths.Nodup) :
    (sort paths).Pairwise fun p q => p.text < q.text := by
  have hle : (sort paths).Pairwise fun p q => p.le q = true := by
    refine List.pairwise_mergeSort (fun p q r hpq hqr => ?_) (fun p q => ?_) paths
    · rw [le_iff] at hpq hqr ⊢
      exact String.le_trans hpq hqr
    · rw [Bool.or_eq_true, le_iff, le_iff]
      exact String.le_total _ _
  have hne : (sort paths).Pairwise fun p q => p ≠ q := (List.mergeSort_perm paths _).nodup_iff.2 h
  exact hle.imp₂ (fun p q hpq hpq' => lt_of_le_of_ne (le_iff.1 hpq) (text_injective.ne hpq')) hne

/-- A name that is read as a drive leads from everywhere to the drive, or to a name on it that is
two characters shorter. -/
theorem join_of_startsWithDrive {name : Segment} (h : Segment.startsWithDrive name.text = true)
    (directory : Path) : ∃ root, directory.join name.text = ⟨root, []⟩ ∨
      ∃ last : Segment, directory.join name.text = ⟨root, [last]⟩ ∧
        last.text.length + 2 = name.text.length := by
  obtain ⟨-, -, -, hslash, -⟩ := name.allowed
  unfold Segment.startsWithDrive at h
  split at h
  · rename_i letter rest hname
    rw [hname] at hslash
    have hrest : '/' ∉ rest := fun hmem =>
      hslash (List.mem_cons_of_mem _ (List.mem_cons_of_mem _ hmem))
    unfold join
    rw [unify_allowed name.allowed, hname, splitRoot?_drive h]
    unfold follow
    simp only [List.splitOn_eq_singleton hrest, List.foldl_cons, List.foldl_nil]
    refine ⟨.drive letter.toLower (isLower_toLower h), ?_⟩
    unfold descend
    split
    · exact .inl rfl
    · split
      · refine .inr ⟨_, rfl, ?_⟩
        rw [String.length_ofList, ← String.length_toList, hname]
        rfl
      · exact .inl rfl
  · cases h

end Path

namespace Memory

variable {memory : Memory} {directory p : Path}

/-! ## Names that are read as drives -/

/-- No name in the directory is read as a drive if no child has such a name. -/
theorem plainIn_iff : memory.PlainIn directory ↔
    ∀ child : Path, child.parent? = some directory →
      (memory.hasFile child = true ∨ memory.hasDirectory child = true) →
        Segment.startsWithDrive child.fileName = false := by
  constructor
  · intro h child hparent hstored
    obtain ⟨name, rfl⟩ := Path.parent?_eq_some_iff.1 hparent
    exact h name (mem_namesIn_iff_stored.2 hstored)
  · exact fun h name hname => h ⟨directory.root, name :: directory.names⟩ rfl
      (mem_namesIn_iff_stored.1 hname)

/-- A listing shows what the names of the children are read as. -/
theorem mem_path_children_iff_child : p ∈ (memory.children directory).map Host.Entry.path ↔
    ∃ child : Path, child.parent? = some directory ∧
      (memory.hasFile child = true ∨ memory.hasDirectory child = true) ∧
        p = directory.join child.fileName := by
  rw [mem_path_children_iff]
  constructor
  · rintro ⟨name, hname, rfl⟩
    exact ⟨⟨directory.root, name :: directory.names⟩, rfl, mem_namesIn_iff_stored.1 hname, rfl⟩
  · rintro ⟨child, hparent, hstored, rfl⟩
    obtain ⟨name, rfl⟩ := Path.parent?_eq_some_iff.1 hparent
    exact ⟨name, mem_namesIn_iff_stored.2 hstored, rfl⟩

/-- If a name in the directory is read as a drive, the child with the longest of these names is not
listed. -/
theorem exists_unlisted (h : ¬ memory.PlainIn directory) :
    ∃ name ∈ memory.namesIn directory, (⟨directory.root, name :: directory.names⟩ : Path) ∉
      (memory.children directory).map Host.Entry.path := by
  let drives := (memory.namesIn directory).toFinset.filter fun name =>
    Segment.startsWithDrive name.text = true
  have hmem : ∀ {name}, name ∈ drives ↔
      name ∈ memory.namesIn directory ∧ Segment.startsWithDrive name.text = true := by
    intro name
    rw [Finset.mem_filter, List.mem_toFinset]
  have hnonempty : drives.Nonempty := by
    unfold PlainIn at h
    push Not at h
    obtain ⟨name, hname, hdrive⟩ := h
    exact ⟨name, hmem.2 ⟨hname, Bool.eq_true_of_not_eq_false hdrive⟩⟩
  obtain ⟨name, hname, hlongest⟩ :=
    drives.exists_max_image (fun name => name.text.length) hnonempty
  refine ⟨name, (hmem.1 hname).1, fun hlisted => ?_⟩
  obtain ⟨other, hother, hchild⟩ := mem_path_children_iff.1 hlisted
  cases hdrive : Segment.startsWithDrive other.text with
  | false =>
    -- a plain name leads to its own child only
    rw [Path.join_plain ⟨other.allowed, hdrive⟩] at hchild
    have hsame : name = other := (List.cons.inj (Path.mk.inj hchild).2).1
    rw [← hsame, (hmem.1 hname).2] at hdrive
    cases hdrive
  | true =>
    obtain ⟨root, hroot | ⟨last, hlast, hlength⟩⟩ := Path.join_of_startsWithDrive hdrive directory
    · rw [hroot] at hchild
      exact absurd (Path.mk.inj hchild).2 (List.cons_ne_nil _ _)
    · rw [hlast] at hchild
      have hsame : name = last := (List.cons.inj (Path.mk.inj hchild).2).1
      have hle := hlongest other (hmem.2 ⟨hother, hdrive⟩)
      rw [hsame] at hle
      omega

/-! ## Listings -/

theorem pairwise_children (memory : Memory) (directory : Path) :
    (memory.children directory).Pairwise fun a b => a.path.text < b.path.text := by
  unfold children
  simp only [List.pairwise_map]
  exact Path.pairwise_sort (Roster.nodup_eraseDups _)

/-- **A listing is exact if and only if no name in the directory is read as a drive.**  What is no
directory cannot be listed.  A directory can, its listing is in the strict order of paths, and it
shows what the names of the children are read as from there.  These are the files and directories
that lie in the directory, each marked as what it is, exactly if no such name starts with a letter
and a colon. -/
theorem listing_is_exact_iff (memory : Memory) (directory : Path) :
    (memory.hasDirectory directory = false → ∃ e, memory.list directory = .error e) ∧
    (memory.hasDirectory directory = true → ∃ entries, memory.list directory = .ok entries ∧
      entries.Pairwise (fun a b => a.path.text < b.path.text) ∧
      (∀ p, p ∈ entries.map Host.Entry.path ↔ ∃ child : Path, child.parent? = some directory ∧
        (memory.hasFile child = true ∨ memory.hasDirectory child = true) ∧
          p = directory.join child.fileName) ∧
      ((∀ entry, entry ∈ entries ↔ entry.path.parent? = some directory ∧
          (memory.hasFile entry.path = true ∨ memory.hasDirectory entry.path = true) ∧
          entry.isDirectory = memory.hasDirectory entry.path) ↔
        ∀ child : Path, child.parent? = some directory →
          (memory.hasFile child = true ∨ memory.hasDirectory child = true) →
            Segment.startsWithDrive child.fileName = false)) := by
  constructor
  · intro hnone
    unfold list
    rw [if_neg (Bool.eq_false_iff.1 hnone)]
    exact ⟨_, rfl⟩
  · intro hdirectory
    refine ⟨memory.children directory, list_eq_ok_iff.2 ⟨hdirectory, rfl⟩,
      pairwise_children memory directory, fun p => mem_path_children_iff_child, ?_⟩
    rw [← plainIn_iff]
    constructor
    · intro hexact
      by_contra hdrive
      obtain ⟨name, hname, hunlisted⟩ := exists_unlisted hdrive
      let child : Path := ⟨directory.root, name :: directory.names⟩
      have hlisted : (⟨child, memory.hasDirectory child⟩ : Host.Entry) ∈
          memory.children directory :=
        (hexact _).2 ⟨rfl, mem_namesIn_iff_stored.1 hname, rfl⟩
      exact hunlisted (List.mem_map_of_mem hlisted)
    · exact fun hplain entry => mem_children_iff hplain

/-- A file whose name is read as a drive. -/
def driveNamedFile : Memory := Memory.empty.addFile (Path.atTop "p/c:x.ts") ""

/-- The listing shows a path that lies elsewhere and does not exist, and leaves out the file. -/
theorem listing_shows_another_drive :
    driveNamedFile.hasDirectory (Path.atTop "p") = true ∧
      (Path.atTop "p/c:x.ts").parent? = some (Path.atTop "p") ∧
      driveNamedFile.hasFile (Path.atTop "p/c:x.ts") = true ∧
      driveNamedFile.list (Path.atTop "p") = .ok [⟨Path.atTop "c:/x.ts", false⟩] ∧
      (Path.atTop "c:/x.ts").parent? ≠ some (Path.atTop "p") ∧
      driveNamedFile.hasFile (Path.atTop "c:/x.ts") = false ∧
      driveNamedFile.hasDirectory (Path.atTop "c:/x.ts") = false := by
  have hdirectory : driveNamedFile.hasDirectory (Path.atTop "p") = true := by decide +kernel
  have hseen : driveNamedFile.sightings (Path.atTop "p") = [(Path.atTop "c:/x.ts", false)] := by
    decide +kernel
  have hchildren : driveNamedFile.children (Path.atTop "p") =
      [⟨Path.atTop "c:/x.ts", false⟩] := by
    unfold children Path.sort
    rw [hseen]
    simp only [List.map_cons, List.map_nil, List.eraseDups_cons, List.filter_nil,
      List.eraseDups_nil, List.mergeSort_singleton]
    decide +kernel
  refine ⟨hdirectory, by decide +kernel, by decide +kernel,
    list_eq_ok_iff.2 ⟨hdirectory, hchildren.symm⟩, ?_⟩
  decide +kernel

end Memory

end Codebase
