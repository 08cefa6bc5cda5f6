import JamCompiler.Declaration
import Mathlib.Data.List.Infix

/-!
# Frames

A stage that visits a node writes only at the node and below it. Sites lie below each other as
suffixes of lists, so two children of one node have nothing below them in common, and what is
written at one of them leaves the other free.
-/

namespace JamCompiler

namespace Site

/-- Nothing lies at or below both sites. -/
def Apart (a b : Site) : Prop := ∀ t : Site, a <:+ t → ¬ b <:+ t

theorem apart_child {s : Site} {k l : Nat} (h : k ≠ l) : Apart (s.child k) (s.child l) := by
  intro t hk hl
  have same : s.child k = s.child l := by
    rcases List.suffix_or_suffix_of_suffix hk hl with le | le
    · exact le.eq_of_length (by simp [child])
    · exact (le.eq_of_length (by simp [child])).symm
  exact h (by simpa [child] using same)

theorem Apart.mono {a b a' b' : Site} (h : Apart a b) (ha : a <:+ a') (hb : b <:+ b') :
    Apart a' b' :=
  fun t ha' hb' => h t (ha.trans ha') (hb.trans hb')

theorem Apart.not_suffix {a b : Site} (h : Apart a b) : ¬ a <:+ b :=
  fun hab => h b hab (List.suffix_refl b)

theorem suffix_child (s : Site) (k : Nat) : s <:+ s.child k := List.suffix_cons k s

theorem suffix_item (s : Site) (list k : Nat) : s <:+ s.item list k :=
  (List.suffix_cons list s).trans (List.suffix_cons k _)

theorem child_suffix_item (s : Site) (list k : Nat) : s.child list <:+ s.item list k :=
  List.suffix_cons k _

/-- Two members of one list, or members of two lists of one node. -/
theorem apart_item {s : Site} {list list' k l : Nat} (h : (list, k) ≠ (list', l)) :
    Apart (s.item list k) (s.item list' l) := by
  by_cases same : list = list'
  · subst same
    exact apart_child (s := list :: s) (by simpa using h)
  · exact (apart_child same).mono (child_suffix_item s list k) (child_suffix_item s list' l)

theorem child_ne_self (s : Site) (k : Nat) : s.child k ≠ s := by
  intro h
  have := congrArg List.length h
  simp [child] at this

/-- A node does not lie below its child. -/
theorem not_child_suffix (s : Site) (k : Nat) : ¬ s.child k <:+ s := by
  intro h
  have := h.length_le
  simp only [child, List.length_cons] at this
  exact Nat.lt_irrefl _ this

/-- The number of the class in which a site lies. -/
def classNumber (s : Site) : Nat := s.getLast?.getD 0

theorem classNumber_of_suffix {k : Nat} {s : Site} (h : classAt k <:+ s) : s.classNumber = k := by
  obtain ⟨front, rfl⟩ := h
  simp [classNumber, classAt]

theorem apart_classAt {k l : Nat} (h : k ≠ l) : Apart (classAt k) (classAt l) :=
  apart_child (s := []) h

end Site

/-- Some sites of a program. -/
abbrev Region := Site → Prop

namespace Region

variable {a b a' b' c : Region} {s t : Site}

def Sub (a b : Region) : Prop := ∀ s, a s → b s

def Apart (a b : Region) : Prop := ∀ s, a s → ¬ b s

/-- No site at all. -/
def empty : Region := fun _ => False

theorem empty_sub (a : Region) : empty.Sub a := fun _ h => h.elim

theorem empty_apart (a : Region) : empty.Apart a := fun _ h => h.elim

theorem Sub.refl (a : Region) : a.Sub a := fun _ h => h

theorem Sub.trans (h : a.Sub b) (h' : b.Sub c) : a.Sub c := fun s hs => h' s (h s hs)

theorem Apart.symm (h : a.Apart b) : b.Apart a := fun s hb ha => h s ha hb

theorem Apart.mono (h : a.Apart b) (ha : a'.Sub a) (hb : b'.Sub b) : a'.Apart b' :=
  fun s hs hs' => h s (ha s hs) (hb s hs')

/-- Both regions together. -/
def union (a b : Region) : Region := fun s => a s ∨ b s

theorem sub_union_left (a b : Region) : a.Sub (a.union b) := fun _ => .inl

theorem sub_union_right (a b : Region) : b.Sub (a.union b) := fun _ => .inr

theorem union_sub (ha : a.Sub c) (hb : b.Sub c) : (a.union b).Sub c :=
  fun s hs => hs.elim (ha s) (hb s)

theorem apart_union (ha : c.Apart a) (hb : c.Apart b) : c.Apart (a.union b) :=
  fun s hs hs' => hs'.elim (ha s hs) (hb s hs)

end Region

namespace Site

variable {s t : Site} {list k l : Nat}

/-- A site and what lies below it. -/
def below (s : Site) : Region := fun t => s <:+ t

/-- The members of a list of children from the `k`th on, and what lies below them. -/
def itemsFrom (s : Site) (list k : Nat) : Region := fun t => ∃ j, k ≤ j ∧ s.item list j <:+ t

theorem below_sub (h : s <:+ t) : t.below.Sub s.below := fun _ ht => h.trans ht

theorem child_sub (s : Site) (k : Nat) : (s.child k).below.Sub s.below :=
  below_sub (s.suffix_child k)

theorem item_sub_itemsFrom (s : Site) (list k : Nat) :
    (s.item list k).below.Sub (s.itemsFrom list k) :=
  fun _ ht => ⟨k, Nat.le_refl k, ht⟩

theorem itemsFrom_succ_sub (s : Site) (list k : Nat) :
    (s.itemsFrom list (k + 1)).Sub (s.itemsFrom list k) :=
  fun _ ⟨j, hj, ht⟩ => ⟨j, Nat.le_of_succ_le hj, ht⟩

theorem itemsFrom_sub (s : Site) (list k : Nat) : (s.itemsFrom list k).Sub s.below :=
  fun _ ⟨j, _, ht⟩ => (s.suffix_item list j).trans ht

theorem itemsFrom_sub_child (s : Site) (list k : Nat) :
    (s.itemsFrom list k).Sub (s.child list).below :=
  fun _ ⟨j, _, ht⟩ => (s.child_suffix_item list j).trans ht

theorem Apart.below {a b : Site} (h : Site.Apart a b) : a.below.Apart b.below := h

theorem children_apart (h : k ≠ l) : (s.child k).below.Apart (s.child l).below := apart_child h

theorem item_apart_rest (s : Site) (list k : Nat) :
    (s.item list k).below.Apart (s.itemsFrom list (k + 1)) := by
  rintro t ht ⟨j, hj, ht'⟩
  exact apart_item (by simp; omega) t ht ht'

theorem child_apart_items (h : k ≠ list) : (s.child k).below.Apart (s.itemsFrom list l) :=
  (children_apart h).mono (.refl _) (itemsFrom_sub_child s list l)

theorem lists_apart (s : Site) {list' : Nat} (h : list ≠ list') (k l : Nat) :
    (s.itemsFrom list k).Apart (s.itemsFrom list' l) :=
  (child_apart_items h).mono (itemsFrom_sub_child s list k) (.refl _)

end Site

/-- Nothing lies below two methods of a program. -/
theorem Program.sitedMethods_apart (p : Program) :
    p.sitedMethods.Pairwise fun a b => a.1.below.Apart b.1.below := by
  rw [sitedMethods, List.pairwise_flatMap]
  constructor
  · rintro ⟨site, c⟩ -
    simp only [ClassDecl.sitedMethods, List.pairwise_iff_getElem]
    intro i j hi hj less
    simp only [List.getElem_mapIdx]
    exact (Site.apart_item (by simp; omega)).below
  · rw [sitedClasses, List.pairwise_iff_getElem]
    intro i j hi hj less a ha b hb
    simp only [List.getElem_mapIdx, ClassDecl.sitedMethods, List.mem_mapIdx] at ha hb
    obtain ⟨k, -, rfl⟩ := ha
    obtain ⟨l, -, rfl⟩ := hb
    exact ((Site.apart_classAt (Nat.ne_of_lt less)).mono (Site.suffix_item _ _ _)
      (Site.suffix_item _ _ _)).below

namespace SiteMap

variable {α : Type} {m m' m'' : SiteMap α} {s : Site} {a b : Region}

/-- Nothing is known in a region. -/
def Free (m : SiteMap α) (region : Region) : Prop := ∀ t, region t → m.get? t = none

/-- A map that came from another by entries in a region. -/
structure Grown (region : Region) (m m' : SiteMap α) : Prop where
  kept : ∀ {t a}, m.get? t = some a → m'.get? t = some a
  same : ∀ {t}, ¬ region t → m'.get? t = m.get? t

theorem Grown.refl (region : Region) (m : SiteMap α) : Grown region m m := ⟨id, fun _ => rfl⟩

theorem Grown.trans (h : Grown a m m') (h' : Grown a m' m'') : Grown a m m'' :=
  ⟨fun ht => h'.kept (h.kept ht), fun ht => (h'.same ht).trans (h.same ht)⟩

theorem Grown.up (h : Grown a m m') (sub : a.Sub b) : Grown b m m' :=
  ⟨h.kept, fun ht => h.same fun hs => ht (sub _ hs)⟩

theorem Free.down (h : m.Free b) (sub : a.Sub b) : m.Free a := fun t ht => h t (sub t ht)

theorem Free.grown (free : m.Free a) (h : Grown b m m') (apart : a.Apart b) : m'.Free a := by
  intro t ht
  rw [h.same (apart t ht), free t ht]

theorem grown_fill (m : SiteMap α) (s : Site) (x : α) : Grown s.below m (m.fill s x) :=
  ⟨get?_fill_of_some, fun ht => get?_fill_of_ne m x fun h => ht (h ▸ List.suffix_refl s)⟩

theorem get?_fill_free (free : m.get? s = none) (x : α) : (m.fill s x).get? s = some x := by
  rw [get?_fill_self, free]
  rfl

end SiteMap

end JamCompiler
