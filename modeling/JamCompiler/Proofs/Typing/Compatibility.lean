import JamCompiler.Proofs.Typing.Rules

/-!
# Compatible types

Which types go together, by their form. A type is a leaf under layers of arrays. Where neither the
type of what was already reported nor that of `null` occurs, two types go together if they have as
many layers over the same leaf, and that leaf is one whose values can be used; so there the relation
is symmetric and transitive. In general it is symmetric only, since those two types go with types
that do not go together.
-/

namespace JamCompiler

namespace ValueType

/-- What a type is under its layers of arrays. A class counts as the declaration that it is bound
to. -/
inductive Leaf
  | base (type : BaseType)
  | cls (ref : Option ClassRef)
  deriving DecidableEq

def leaf : ValueType → Leaf
  | base b => .base b
  | cls _ ref => .cls ref
  | array element => element.leaf

/-- How many layers of arrays a type has. -/
def layers : ValueType → Nat
  | base _ | cls .. => 0
  | array element => element.layers + 1

/-- Whether anything goes with a leaf: it is not the unsupported type, and a class is declared and
is not `String`. -/
def Leaf.Usable : Leaf → Prop
  | base b => b ≠ .unsupported
  | cls ref => ref ≠ none ∧ ref ≠ some Predefined.string

/-- Whether neither the type of what was already reported nor that of `null` occurs in a type. -/
def Definite : ValueType → Prop
  | base b => b ≠ .error ∧ b ≠ .null
  | cls .. => True
  | array element => element.Definite

theorem Definite.errorFree {t : ValueType} (h : t.Definite) : t.ErrorFree := by
  induction t with
  | base b => exact h.1
  | cls => trivial
  | array element ih => exact ih h

theorem compatible_comm (s t : ValueType) : s.compatible t = t.compatible s := by
  induction s generalizing t with
  | base b =>
    cases t with
    | base b' => cases b <;> cases b' <;> rfl
    | cls | array => cases b <;> rfl
  | cls name ref =>
    cases t with
    | base b' => cases b' <;> rfl
    | cls name' ref' =>
      rw [Bool.eq_iff_iff]
      simp only [compatible, Bool.and_eq_true, decide_eq_true_eq]
      constructor
      · rintro ⟨⟨usable, usable'⟩, same⟩
        exact ⟨⟨usable', usable⟩, same.symm⟩
      · rintro ⟨⟨usable', usable⟩, same⟩
        exact ⟨⟨usable, usable'⟩, same.symm⟩
    | array => rfl
  | array element ih =>
    cases t with
    | base b' => cases b' <;> rfl
    | cls => rfl
    | array element' => exact ih element'

theorem compatible_error (t : ValueType) : compatible error t := by
  cases t <;> rfl

theorem compatible_null_iff (t : ValueType) : compatible (base .null) t ↔
    t = base .null ∨ t = error ∨ (∃ name ref, t = cls name ref) ∨ ∃ element, t = array element := by
  cases t with
  | base b => cases b <;> simp [compatible, error]
  | cls | array => simp [compatible, error]

/-- Types that match have the same form, if `null` is not one of them. -/
theorem Matches.form {s t : ValueType} (h : s.Matches t) (hs : s.Definite) (ht : t.Definite) :
    s.layers = t.layers ∧ s.leaf = t.leaf ∧ s.leaf.Usable := by
  induction h with
  | base known usable => exact ⟨rfl, rfl, usable⟩
  | @cls name name' c usable =>
    have other : some c ≠ some Predefined.string := fun same => usable (Option.some.inj same)
    exact ⟨rfl, rfl, Option.some_ne_none c, other⟩
  | array elements ih =>
    obtain ⟨layers, leaf, usable⟩ := ih hs ht
    exact ⟨congrArg (· + 1) layers, leaf, usable⟩
  | nullClass | nullArray => exact absurd rfl hs.2
  | classNull | arrayNull => exact absurd rfl ht.2

theorem matches_of_form {s t : ValueType} (hs : s.Definite) (layers : s.layers = t.layers)
    (leaf : s.leaf = t.leaf) (usable : s.leaf.Usable) : s.Matches t := by
  induction s generalizing t with
  | base b =>
    cases t with
    | base b' =>
      cases leaf
      exact .base hs.1 usable
    | cls => cases leaf
    | array => cases layers
  | cls name ref =>
    cases t with
    | base => cases leaf
    | cls name' ref' =>
      cases leaf
      cases ref with
      | none => exact absurd rfl usable.1
      | some c => exact .cls fun same => usable.2 (congrArg some same)
    | array => cases layers
  | array element ih =>
    cases t with
    | base | cls => cases layers
    | array element' =>
      have fewer : element.layers = element'.layers := by
        simpa only [ValueType.layers, Nat.add_right_cancel_iff] using layers
      exact .array (ih hs fewer leaf usable)

/-- Definite types go together if they have the same form and can be used. -/
theorem compatible_iff_form {s t : ValueType} (hs : s.Definite) (ht : t.Definite) :
    s.compatible t ↔ s.layers = t.layers ∧ s.leaf = t.leaf ∧ s.leaf.Usable := by
  rw [← matches_iff hs.errorFree ht.errorFree]
  constructor
  · intro h
    exact h.form hs ht
  · rintro ⟨layers, leaf, usable⟩
    exact matches_of_form hs layers leaf usable

/-- Going together is symmetric. The type of what was already reported goes with every type, and
`null` with itself, classes and arrays only. On types in which neither occurs, going together is
having the same form, of a leaf that can be used, so that it is transitive. -/
theorem compatible_shape :
    (∀ s t, compatible s t = compatible t s) ∧
    (∀ t, compatible error t) ∧
    (∀ t, compatible (base .null) t ↔
      t = base .null ∨ t = error ∨ (∃ name ref, t = cls name ref) ∨ ∃ element, t = array element) ∧
    (∀ s t, Definite s → Definite t →
      (compatible s t ↔ s.layers = t.layers ∧ s.leaf = t.leaf ∧ s.leaf.Usable)) ∧
    ∀ s t u, Definite s → Definite t → Definite u →
      compatible s t → compatible t u → compatible s u := by
  refine ⟨compatible_comm, compatible_error, compatible_null_iff,
    fun s t hs ht => compatible_iff_form hs ht, ?_⟩
  intro s t u hs ht hu first second
  obtain ⟨layers, leaf, usable⟩ := (compatible_iff_form hs ht).mp first
  obtain ⟨layers', leaf', -⟩ := (compatible_iff_form ht hu).mp second
  exact (compatible_iff_form hs hu).mpr ⟨layers.trans layers', leaf.trans leaf', usable⟩

/-- The first class of a program. -/
def firstClass : ClassRef := { home := .user (.classAt 0), name := "A", pos := 6 }

/-- Arrays of a class go with arrays of it, but not with arrays of such arrays, and arrays of
`String` with nothing. -/
theorem arraysOfClass_shape : Definite (array (ofClass firstClass)) ∧
    Definite (array (array (ofClass firstClass))) ∧ Definite (array (ofClass Predefined.string)) ∧
    compatible (array (ofClass firstClass)) (array (ofClass firstClass)) ∧
    ¬ compatible (array (ofClass firstClass)) (array (array (ofClass firstClass))) ∧
    ¬ compatible (array (ofClass Predefined.string)) (array (ofClass Predefined.string)) := by
  obtain ⟨-, -, -, form, transitive⟩ := compatible_shape
  have single : Definite (array (ofClass firstClass)) := trivial
  have double : Definite (array (array (ofClass firstClass))) := trivial
  have strings : Definite (array (ofClass Predefined.string)) := trivial
  have same : compatible (array (ofClass firstClass)) (array (ofClass firstClass)) :=
    (form _ _ single single).mpr ⟨rfl, rfl, by decide, by decide⟩
  refine ⟨single, double, strings, transitive _ _ _ single single single same same, ?_, ?_⟩
  · intro nested
    have layers : 1 = 2 := ((form _ _ single double).mp nested).1
    omega
  · intro together
    exact ((form _ _ strings strings).mp together).2.2.2 rfl

end ValueType

end JamCompiler
