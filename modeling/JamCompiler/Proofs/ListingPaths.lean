import JamCompiler.Path
import JamCompiler.Proofs.LastOccurrence

/-!
# Listing paths

Without an output path the listing of a file goes beside it. Its name is that of the file, with
another extension for the one it has, or with one more. The name always changes, because the
extension of a listing has two dots and the one that is taken away has only one.
-/

namespace JamCompiler

namespace Path

variable {p directory directory' : Path} {name name' root root' : List Char}

/-- Whether a path is a directory with a name in it. The directory ends in the last slash, or is
empty if there is none. -/
structure Splits (p directory : Path) (name : List Char) : Prop where
  whole : p = directory ++ name
  slash : directory = [] ∨ ∃ front, directory = front ++ ['/']
  single : '/' ∉ name

theorem Splits.split_eq (h : p.Splits directory name) : p.split = (directory, name) := by
  obtain ⟨rfl, rfl | ⟨front, rfl⟩, single⟩ := h
  · rw [List.nil_append, split, dropWhile_reverse_of_not_mem single,
      takeWhile_reverse_of_not_mem single, List.reverse_nil, List.reverse_reverse]
  · rw [← List.append_cons, split, dropWhile_reverse single, takeWhile_reverse single,
      List.reverse_cons, List.reverse_reverse, List.reverse_reverse]

theorem exists_splits (p : Path) : ∃ directory name, p.Splits directory name := by
  by_cases slash : '/' ∈ p
  · obtain ⟨front, name, rfl, single⟩ := exists_last slash
    exact ⟨front ++ ['/'], name, by simp, .inr ⟨front, rfl⟩, single⟩
  · exact ⟨[], p, rfl, .inl rfl, slash⟩

theorem Splits.unique (h : p.Splits directory name) (h' : p.Splits directory' name') :
    directory' = directory ∧ name' = name :=
  Prod.mk.inj (h'.split_eq.symm.trans h.split_eq)

/-- What is left of a name when its extension is taken away. The extension begins at the last dot,
and there is none if nothing but dots is before each dot. -/
inductive HasRoot : List Char → List Char → Prop
  | extended {root extension : List Char} {c : Char} (inside : c ∈ root) (other : c ≠ '.')
      (last : '.' ∉ extension) : HasRoot (root ++ '.' :: extension) root
  | bare {name : List Char} (dots : ∀ before after, name = before ++ '.' :: after →
      ∀ c ∈ before, c = '.') :
      HasRoot name name

theorem HasRoot.stem_eq (h : HasRoot name root) : stem name = root := by
  cases h with
  | @extended _ extension c inside other last =>
    have some : root.reverse.any (· != '.') = true :=
      List.any_eq_true.mpr ⟨c, List.mem_reverse.mpr inside, bne_iff_ne.mpr other⟩
    rw [stem, dropWhile_reverse last]
    dsimp only
    rw [if_pos some, List.reverse_reverse]
  | bare dots =>
    by_cases dot : '.' ∈ name
    · obtain ⟨before, after, rfl, last⟩ := exists_last dot
      have none : ¬ before.reverse.any (· != '.') = true := by
        intro some
        obtain ⟨c, inside, other⟩ := List.any_eq_true.mp some
        exact bne_iff_ne.mp other (dots before after rfl c (List.mem_reverse.mp inside))
      rw [stem, dropWhile_reverse last]
      dsimp only
      rw [if_neg none]
    · rw [stem, dropWhile_reverse_of_not_mem dot]

theorem hasRoot_stem (name : List Char) : HasRoot name (stem name) := by
  by_cases extended : ∃ before after, name = before ++ '.' :: after ∧ ∃ c ∈ before, c ≠ '.'
  · obtain ⟨before, after, rfl, c, inside, other⟩ := extended
    -- The last dot comes no earlier, so the same character is before it.
    obtain ⟨middle, extension, split, last⟩ :=
      exists_last (List.mem_cons_self (a := '.') (l := after))
    have root : HasRoot (before ++ '.' :: after) (before ++ middle) := by
      rw [split, ← List.append_assoc]
      exact .extended (List.mem_append_left middle inside) other last
    exact root.stem_eq.symm ▸ root
  · have root : HasRoot name name := by
      refine .bare fun before after split c inside => Decidable.byContradiction fun other => ?_
      exact extended ⟨before, after, split, c, inside, other⟩
    exact root.stem_eq.symm ▸ root

theorem HasRoot.begins (h : HasRoot name root) : root <+: name := by
  cases h with
  | extended => exact List.prefix_append _ _
  | bare => exact List.prefix_refl _

/-- The extension of a listing is not the one that was taken away. -/
theorem HasRoot.listing_ne (h : HasRoot name root) : root ++ listingExtension ≠ name := by
  cases h with
  | @extended _ extension c inside other last =>
    intro same
    have rest : listingExtension = '.' :: extension := List.append_cancel_left same
    have second : '.' ∈ listingExtension.tail := by decide
    rw [rest] at second
    exact last second
  | bare =>
    intro same
    have empty : listingExtension = [] := List.append_right_eq_self.mp same
    cases empty

theorem Splits.listing (h : p.Splits directory name) (root' : HasRoot name root) :
    p.listing.Splits directory (root ++ listingExtension) := by
  refine ⟨?_, h.slash, ?_⟩
  · rw [Path.listing, h.split_eq, root'.stem_eq, List.append_assoc]
  · rw [List.mem_append]
    rintro (inside | inside)
    · exact h.single (root'.begins.subset inside)
    · exact absurd inside (by decide)

/-- A path has one directory and one name, and the name one root. The listing is in the same
directory, its name is the root with the extension of listings, and that is not the name that the
path has. -/
theorem listing_beside (p : Path) : ∃ directory name root,
    (∀ d n, p.Splits d n ↔ d = directory ∧ n = name) ∧
    (∀ r, HasRoot name r ↔ r = root) ∧
    (∀ d n, p.listing.Splits d n ↔ d = directory ∧ n = root ++ listingExtension) ∧
    root ++ listingExtension ≠ name ∧ p.listing ≠ p := by
  obtain ⟨directory, name, parts⟩ := exists_splits p
  have root := hasRoot_stem name
  have parts' := parts.listing root
  refine ⟨directory, name, stem name,
    fun d n => ⟨parts.unique, ?_⟩, fun r => ⟨fun h => h.stem_eq.symm, ?_⟩,
    fun d n => ⟨parts'.unique, ?_⟩, root.listing_ne, fun same => ?_⟩
  · rintro ⟨rfl, rfl⟩
    exact parts
  · rintro rfl
    exact root
  · rintro ⟨rfl, rfl⟩
    exact parts'
  · rw [same] at parts'
    exact root.listing_ne (parts.unique parts').2

/-- Dots in directories and at the beginning of a name begin no extension, and a listing of a
listing has only the last of its extensions taken away. -/
example : listing "a.b/..c".toList = "a.b/..c.mJAM.txt".toList ∧
    listing "A.mJAM.txt".toList = "A.mJAM.mJAM.txt".toList := by decide

end Path

end JamCompiler
