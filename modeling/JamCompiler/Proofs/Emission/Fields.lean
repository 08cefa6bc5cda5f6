import JamCompiler.Generation
import JamCompiler.Proofs.Emission.Placement
import Mathlib.Algebra.GroupWithZero.Nat

/-!
# Places of fields

Static fields are numbered through the whole program and the fields of instances through their
class, in the order in which they are declared. `FieldDecl.location` says so of one field, given
those before it.
-/

namespace JamCompiler

open Pass Emission

/-- How many of some fields are static. -/
def staticFields (fields : List FieldDecl) : Nat := fields.countP (·.isStatic)

/-- How many of some fields every instance has. -/
def instanceFields (fields : List FieldDecl) : Nat := fields.countP (!·.isStatic)

/-- The place of a field after so many static fields of the program and so many fields of its
instances. -/
def FieldDecl.location (f : FieldDecl) (statics instances : Nat) : Location :=
  if f.isStatic then .static statics else .object (headerSize + instances)

/-- How many static fields some classes have. -/
def staticsOf (classes : List ClassDecl) : Nat :=
  (classes.map fun c => staticFields c.fields).sum

theorem staticFields_cons (f : FieldDecl) (rest : List FieldDecl) :
    staticFields (f :: rest) = staticFields [f] + staticFields rest := by
  rw [← List.singleton_append, staticFields, List.countP_append]
  rfl

theorem instanceFields_cons (f : FieldDecl) (rest : List FieldDecl) :
    instanceFields (f :: rest) = instanceFields [f] + instanceFields rest := by
  rw [← List.singleton_append, instanceFields, List.countP_append]
  rfl

namespace Generation

variable {p : Placing}

/-- Each field takes the next number of its kind. -/
theorem placeFields_cons (cls : Site) (k statics instances : Nat) (f : FieldDecl)
    (rest : List FieldDecl) : placeFields cls k statics instances (f :: rest) =
      place (cls.field k) (f.location statics instances) f.name f.pos >>= fun _ =>
        placeFields cls (k + 1) (statics + staticFields [f])
          (instances + instanceFields [f]) rest := by
  rw [placeFields]
  cases static : f.isStatic <;> simp [FieldDecl.location, staticFields, instanceFields, static]

theorem concludes_placeFields {cls : Site} {k statics instances : Nat} {fields : List FieldDecl}
    (free : p.locations.Free (cls.itemsFrom 0 k)) :
    Concludes Fault.Expected (placeFields cls k statics instances fields) p True fun r p' =>
      r = (statics + staticFields fields, instances + instanceFields fields) ∧
      p.Grown (cls.itemsFrom 0 k) p' ∧ ∀ (i : Nat) (f : FieldDecl), fields[i]? = some f →
        p'.locations.get? (cls.field (k + i)) = some (f.location
          (statics + staticFields (fields.take i))
            (instances + instanceFields (fields.take i))) := by
  induction fields generalizing k statics instances p with
  | nil => exact .pure ⟨rfl, .refl _ _, nofun⟩
  | cons f rest ih =>
    have freeHere := free (cls.field k) ⟨k, Nat.le_refl k, List.suffix_refl _⟩
    rw [placeFields_cons]
    refine .after (concludes_place freeHere (f.location statics instances) f.name f.pos) ?_
    rintro _ _ rfl
    have filled := SiteMap.grown_fill p.locations (cls.field k) (f.location statics instances)
    have grown : p.Grown (cls.itemsFrom 0 k) { p with
        locations := p.locations.fill (cls.field k) (f.location statics instances) } :=
      ⟨filled.up (cls.item_sub_itemsFrom 0 k), rfl⟩
    have free' :=
      (free.down (cls.itemsFrom_succ_sub 0 k)).grown filled (cls.item_apart_rest 0 k).symm
    refine (ih free').mono ?_
    rintro _ p' ⟨rfl, grown', placed⟩
    refine ⟨?_, grown.trans (grown'.up (cls.itemsFrom_succ_sub 0 k)), fun i g hi => ?_⟩
    · rw [staticFields_cons f rest, instanceFields_cons f rest, ← Nat.add_assoc, ← Nat.add_assoc]
    · cases i with
      | zero =>
        cases hi
        exact grown'.locations.kept (SiteMap.get?_fill_free freeHere _)
      | succ i =>
        have later := placed i g hi
        rw [Nat.add_assoc, Nat.add_comm 1 i] at later
        rw [later, List.take_succ_cons, staticFields_cons f (rest.take i),
          instanceFields_cons f (rest.take i), ← Nat.add_assoc, ← Nat.add_assoc]

/-- The fields of some classes are placed one after the other, from a number of static fields on,
and the classes numbered, from a number on. -/
structure FieldsPlaced (number statics : Nat) (classes : List ClassDecl) (p : Placing) : Prop where
  located : ∀ (j : Nat) (c : ClassDecl), classes[j]? = some c →
    ∀ (i : Nat) (f : FieldDecl), c.fields[i]? = some f →
      p.locations.get? ((Site.classAt (number + j)).field i) = some (f.location
        (statics + staticsOf (classes.take j) + staticFields (c.fields.take i))
        (instanceFields (c.fields.take i)))
  layouts : ∀ (j : Nat) (c : ClassDecl), classes[j]? = some c →
    p.layouts.get? (.classAt (number + j)) = some ⟨number + j, instanceFields c.fields⟩

/-- The fields of the classes from one on. -/
def fieldsFrom (number : Nat) : Region :=
  fun s => ∃ j, number ≤ j ∧ (Site.classAt j).itemsFrom 0 0 s

theorem fieldsFrom_succ_sub (number : Nat) : (fieldsFrom (number + 1)).Sub (fieldsFrom number) :=
  fun _ ⟨j, le, inside⟩ => ⟨j, Nat.le_of_succ_le le, inside⟩

theorem itemsFrom_sub_fieldsFrom (number : Nat) :
    ((Site.classAt number).itemsFrom 0 0).Sub (fieldsFrom number) :=
  fun _ inside => ⟨number, Nat.le_refl _, inside⟩

/-- The fields of a class are apart from those of the classes after it. -/
theorem fields_apart (number : Nat) :
    (fieldsFrom (number + 1)).Apart ((Site.classAt number).itemsFrom 0 0) := by
  rintro t ⟨j, le, inside⟩ here
  exact Site.apart_classAt (k := j) (l := number) (by omega) t
    (Site.itemsFrom_sub _ _ _ t inside) (Site.itemsFrom_sub _ _ _ t here)

theorem staticsOf_cons (c : ClassDecl) (rest : List ClassDecl) :
    staticsOf (c :: rest) = staticFields c.fields + staticsOf rest := by
  simp [staticsOf]

theorem concludes_placeClasses {number statics : Nat} {classes : List ClassDecl}
    (free : p.locations.Free (fieldsFrom number))
    (fresh : ∀ j, number ≤ j → p.layouts.get? (.classAt j) = none) :
    Concludes Fault.Expected (placeClasses number statics classes) p True fun _ p' =>
      p.locations.Grown (fieldsFrom number) p'.locations ∧
      (∀ {s l}, p.layouts.get? s = some l → p'.layouts.get? s = some l) ∧
      FieldsPlaced number statics classes p' := by
  induction classes generalizing number statics p with
  | nil => exact .pure ⟨.refl _ _, id, nofun, nofun⟩
  | cons c rest ih =>
    refine .after (concludes_placeFields (free.down (itemsFrom_sub_fieldsFrom number))) ?_
    rintro _ p₁ ⟨rfl, grown, placed⟩
    refine .after (.modifyOwn (P := fun _ p₂ => p₂ = ⟨p₁.locations,
      p₁.layouts.fill (.classAt number) ⟨number, 0 + instanceFields c.fields⟩⟩) rfl) ?_
    rintro _ _ rfl
    have free' : p₁.locations.Free (fieldsFrom (number + 1)) :=
      (free.down (fieldsFrom_succ_sub number)).grown grown.locations (fields_apart number)
    have fresh' : ∀ j, number + 1 ≤ j → (p₁.layouts.fill (.classAt number)
        ⟨number, 0 + instanceFields c.fields⟩).get? (.classAt j) = none := by
      intro j le
      have other : Site.classAt j ≠ .classAt number := by simp [Site.classAt]; omega
      rw [SiteMap.get?_fill_of_ne _ _ other, grown.layouts]
      exact fresh j (Nat.le_of_succ_le le)
    refine (ih (p := ⟨p₁.locations, p₁.layouts.fill (.classAt number)
      ⟨number, 0 + instanceFields c.fields⟩⟩) free' fresh').mono ?_
    rintro _ p₃ ⟨grown', kept, later⟩
    refine ⟨(grown.locations.up (itemsFrom_sub_fieldsFrom number)).trans
      (grown'.up (fieldsFrom_succ_sub number)), fun found => kept ?_, ?_, ?_⟩
    · rw [← grown.layouts] at found
      exact SiteMap.get?_fill_of_some found
    · intro j d hj i f hf
      cases j with
      | zero =>
        cases hj
        have here := grown'.kept (placed i f hf)
        simpa [staticsOf] using here
      | succ j =>
        have there := later.located j d hj i f hf
        rw [Nat.add_assoc, Nat.add_comm 1 j] at there
        rw [there, List.take_succ_cons, staticsOf_cons c (rest.take j), ← Nat.add_assoc]
    · intro j d hj
      cases j with
      | zero =>
        cases hj
        refine kept ?_
        have none : p₁.layouts.get? (.classAt number) = none := by
          rw [grown.layouts]
          exact fresh number (Nat.le_refl _)
        have here := SiteMap.get?_fill_free none
          (ClassLayout.mk number (0 + instanceFields c.fields))
        simpa using here
      | succ j =>
        have there := later.layouts j d hj
        rwa [Nat.add_assoc, Nat.add_comm 1 j] at there

theorem FieldsPlaced.grown {number statics : Nat} {classes : List ClassDecl} {region : Region}
    {p' : Placing} (h : FieldsPlaced number statics classes p) (grown : p.Grown region p') :
    FieldsPlaced number statics classes p' where
  located j c hj i f hf := grown.locations.kept (h.located j c hj i f hf)
  layouts j c hj := by
    rw [grown.layouts]
    exact h.layouts j c hj

/-- Then everything outside of methods has its place. -/
theorem FieldsPlaced.knows {bound : Site → Option Decl} {prog : Program} {statics : Nat}
    (h : FieldsPlaced 0 statics prog.classes p) : (p.env bound).Knows prog [] where
  fields k c hk i f hf := by
    have located := h.located k c hk i f hf
    rw [Nat.zero_add] at located
    refine ⟨_, locationOf_eq rfl located, ?_⟩
    unfold FieldDecl.location
    split
    · rename_i static
      exact ⟨rfl, static⟩
    · rename_i inInstance
      exact ⟨rfl, inInstance⟩
  layouts k hk := by
    have found := h.layouts k prog.classes[k] (List.getElem?_eq_getElem hk)
    rw [Nat.zero_add] at found
    exact ⟨_, found⟩
  locals := nofun

end Generation

end JamCompiler
