import JamCompiler.Proofs.Binding
import JamCompiler.Proofs.Order.Meaning
import Mathlib.Data.List.Perm.Basic

/-!
# Arranged programs

The classes of a list, arranged in a text. What is known of the program as a whole, `Program.known`,
does not hang on the order of the classes, and neither does whether the program is `Coherent`:
whether its classes and members can be told apart and no use is at fault where everything is known.

What resolution knows when it comes to a class does hang on the order, but only in that some
references stay open. So a coherent program can be resolved in every order, and what its references
are bound to is what they mean in the program as a whole.
-/

namespace JamCompiler

namespace Program

variable {p : Program} {bound : Site → Option Decl} {k : Nat} {ctx : Resolving.Context}
variable {locals : Scope}

/-- What is known of a program once the types of all fields are. -/
def known (p : Program) : Globals where
  classes := p.classNamed
  members c name := p.memberPairs.lookup (c, name)
  typeOf d := d.typeIn p.classNamed

/-- A program whose classes and members can be told apart, and which has no use that is at fault
where everything is known. -/
structure Coherent (p : Program) : Prop where
  collectable : p.Collectable
  ok : ∀ (k : Nat) c, p.classes[k]? = some c → ∀ u ∈ c.uses (.classAt k), u.Ok p.known

theorem memberOfValue_known (d : Decl) (name : String) :
    (p.globals k).memberOfValue? ctx d name = some none ∨
      (p.globals k).memberOfValue? ctx d name = p.known.memberOfValue? ctx d name := by
  by_cases later : isLater k d = true
  · cases d with
    | cls | method | param | var => cases later
    | field home f =>
      cases home with
      | predefined => cases later
      | user site =>
        simp only [Globals.memberOfValue?, globals, known, later, if_true, Decl.typeIn]
        cases f.type with
        | named name pos => exact .inl rfl
        | base | array | unknown => exact .inr rfl
  · refine .inr ?_
    simp only [Globals.memberOfValue?, globals, known, later]
    rfl

/-- A reference is open in a class, or denotes there what it denotes where everything is known. -/
theorem denote_known (p : Program) (k : Nat) (ctx : Resolving.Context) (locals : Scope)
    (r : Reference) : r.denote? (p.globals k) ctx locals = some none ∨
      r.denote? (p.globals k) ctx locals = r.denote? p.known ctx locals := by
  induction r with
  | this | ident | unknown => exact .inr rfl
  | qualified qualifier name pos ih =>
    rcases ih with unknown | same
    · simp only [Reference.denote?, unknown, true_or]
    · simp only [Reference.denote?, same]
      cases qualifier.denote? p.known ctx locals with
      | none => exact .inr rfl
      | some o =>
        cases o with
        | none => exact .inl rfl
        | some d =>
          cases d with
          | cls | method => exact .inr (by cases qualifier <;> rfl)
          | field | param | var =>
            cases qualifier with
            | this => exact .inr rfl
            | ident | qualified | unknown => exact memberOfValue_known _ _

/-- What is without fault where everything is known is so in its class. -/
theorem Coherent.resolvable (h : p.Coherent) : p.Resolvable where
  collectable := h.collectable
  ok := by
    intro k c hk u hu
    have ok := h.ok k c hk u hu
    cases u with
    | type | declare | branch | foreign => exact ok
    | ref ctx locals site r =>
      show (r.denote? (p.globals k) ctx locals).isSome
      rcases p.denote_known k ctx locals r with unknown | same
      · rw [unknown]
        rfl
      · rw [same]
        exact ok
    | callee ctx locals site r =>
      show ∃ o, r.denote? (p.globals k) ctx locals = some o ∧ ∀ d ∈ o, d.isMethod
      rcases p.denote_known k ctx locals r with unknown | same
      · exact ⟨none, unknown, nofun⟩
      · rw [same]
        exact ok

/-- What a reference of a program is bound to is what it denotes where everything is known. -/
theorem Resolved.denote_known {site : Site} {r : Reference}
    (h : p.Resolved bound k ctx locals site r) {l : Site × Reference} (hl : l ∈ r.links site)
    {slot : Site} (hs : slot ∈ l.2.slots l.1) {d : Decl} (found : bound slot = some d) :
    l.2.denote? p.known ctx locals = some (some d) := by
  rw [h.bound l hl slot hs] at found
  have denoted := Option.join_eq_some_iff.mp found
  rcases p.denote_known k ctx locals l.2 with unknown | same
  · cases unknown.symm.trans denoted
  · rwa [← same]

/-- A reference of a use was resolved where the use stands. -/
theorem Settled.resolved_at (settled : p.Settled bound) (resolvable : p.Resolvable) {c : ClassDecl}
    (hk : p.classes[k]? = some c) {u : Use} (hu : u ∈ c.uses (.classAt k)) {site : Site}
    {r : Reference} (same : u = .ref ctx locals site r ∨ u = .callee ctx locals site r) :
    p.Resolved bound k ctx locals site r := by
  have ok := resolvable.ok k c hk u hu
  have bound := settled.bound k c hk u hu
  have within := settled.within k c hk u hu
  have known : (site, r) ∈ u.references → ∀ q ∈ u.inForce, ∀ name,
      q.2.typeIn p.classNamed ≠ .cls name none := by
    intro hl q hq
    obtain ⟨method, m, hm, body⟩ := ClassDecl.mem_bodyUses hu hl
    exact resolvable.local_known hk hm body hq
  rcases same with rfl | rfl
  · exact ⟨ok, bound, known (List.mem_singleton_self _), within⟩
  · obtain ⟨o, denoted, -⟩ := ok
    exact ⟨Option.isSome_iff_exists.mpr ⟨o, denoted⟩, bound,
      known (List.mem_singleton_self _), within⟩

theorem mem_uses {u : Use} :
    u ∈ p.uses ↔ ∃ k, ∃ c : ClassDecl, p.classes[k]? = some c ∧ u ∈ c.uses (.classAt k) := by
  rw [uses, List.mem_flatMap]
  constructor
  · rintro ⟨⟨site, c⟩, hc, hu⟩
    obtain ⟨k, hk, rfl⟩ := mem_sitedClasses.mp hc
    exact ⟨k, c, hk, hu⟩
  · rintro ⟨k, c, hk, hu⟩
    exact ⟨(.classAt k, c), mem_sitedClasses.mpr ⟨k, hk, rfl⟩, hu⟩

/-- A reference that is bound denotes the same where everything is known. -/
theorem Resolved.self_known {site : Site} {r : Reference} (h : p.Resolved bound k ctx locals site r)
    (some : (bound site).isSome) :
    r.denote? (p.globals k) ctx locals = r.denote? p.known ctx locals := by
  rcases p.denote_known k ctx locals r with unknown | same
  · rw [h.bound_self, unknown] at some
    cases some
  · exact same

/-- So do the links of a reference that is bound. -/
theorem Resolved.link_known {site : Site} {r : Reference} (h : p.Resolved bound k ctx locals site r)
    (some : (bound site).isSome) {l : Site × Reference} (hl : l ∈ r.links site) :
    l.2.denote? (p.globals k) ctx locals = l.2.denote? p.known ctx locals := by
  rcases p.denote_known k ctx locals l.2 with unknown | same
  · rw [h.bound_self, denote_open_of_link hl unknown] at some
    cases some
  · exact same

/-- Where all references are bound, every name is bound to what it means in the whole program. -/
theorem Settled.bound_known (settled : p.Settled bound) (resolvable : p.Resolvable)
    (all : Typing.AllBound bound p.uses) {c : ClassDecl} (hk : p.classes[k]? = some c) {u : Use}
    (hu : u ∈ c.uses (.classAt k)) : u.Bound p.known bound := by
  have here := settled.bound k c hk u hu
  have filled := all u (mem_uses.mpr ⟨k, c, hk, hu⟩)
  cases u with
  | type | declare | branch | foreign => exact here
  | ref ctx locals site r =>
    have resolved := settled.resolved_at resolvable hk hu (.inl rfl)
    intro l hl slot hs
    rw [here l hl slot hs, resolved.link_known (filled _ (List.mem_singleton_self _)) hl]
  | callee ctx locals site r =>
    have resolved := settled.resolved_at resolvable hk hu (.inr rfl)
    intro l hl slot hs
    rw [here l hl slot hs, resolved.link_known (filled _ (List.mem_singleton_self _)) hl]

/-- A program whose references were all bound is coherent. -/
theorem Resolvable.coherent (resolvable : p.Resolvable) (settled : p.Settled bound)
    (all : Typing.AllBound bound p.uses) : p.Coherent where
  collectable := resolvable.collectable
  ok := by
    intro k c hk u hu
    have ok := resolvable.ok k c hk u hu
    have filled := all u (mem_uses.mpr ⟨k, c, hk, hu⟩)
    cases u with
    | type | declare | branch | foreign => exact ok
    | ref ctx locals site r =>
      have resolved := settled.resolved_at resolvable hk hu (.inl rfl)
      have same := resolved.self_known (filled _ (List.mem_singleton_self _))
      show (r.denote? p.known ctx locals).isSome
      rw [← same]
      exact ok
    | callee ctx locals site r =>
      have resolved := settled.resolved_at resolvable hk hu (.inr rfl)
      have same := resolved.self_known (filled _ (List.mem_singleton_self _))
      show ∃ o, r.denote? p.known ctx locals = some o ∧ ∀ d ∈ o, d.isMethod
      rw [← same]
      exact ok

end Program

namespace Arrangement

variable {g : Arrangement} {classes : List ClassDecl} {p : Program}

/-- A class and its site after it was moved. -/
def movedClass (g : Arrangement) (c : Site × ClassDecl) : Site × ClassDecl :=
  (c.1.moved g, c.2.shift (g.distance c.1.classNumber))

/-- A method and its site after its class was moved. -/
def movedMethod (g : Arrangement) (m : Site × MethodDecl) : Site × MethodDecl :=
  (m.1.moved g, m.2.shift (g.distance m.1.classNumber))

theorem Arranges.class_of (h : g.Arranges classes p) {k : Nat} {c : ClassDecl}
    (hk : classes[k]? = some c) : p.classes[g.number k]? = some (c.shift (g.distance k)) := by
  rw [h k, hk]
  rfl

theorem Arranges.exists_class (h : g.Arranges classes p) {j : Nat} {c' : ClassDecl}
    (hj : p.classes[j]? = some c') : ∃ k c, classes[k]? = some c ∧ j = g.number k ∧
      c' = c.shift (g.distance k) := by
  have there := h (g.number.symm j)
  rw [Equiv.apply_symm_apply, hj] at there
  obtain ⟨c, hk, same⟩ := Option.map_eq_some_iff.mp there.symm
  exact ⟨g.number.symm j, c, hk, (g.number.apply_symm_apply j).symm, same.symm⟩

/-- The classes of an arranged program are the moved classes, in some order. -/
theorem Arranges.sitedClasses_perm (h : g.Arranges classes p) :
    p.sitedClasses.Perm ((Program.mk classes 0).sitedClasses.map g.movedClass) := by
  have moved : (((Program.mk classes 0).sitedClasses.map g.movedClass).map Prod.fst).Nodup := by
    rw [List.map_map]
    have sites := (Program.nodup_sites ⟨classes, 0⟩).map (Site.moved_injective g)
    rwa [List.map_map] at sites
  refine (List.perm_ext_iff_of_nodup p.nodup_sites.of_map moved.of_map).mpr fun s => ?_
  rw [Program.mem_sitedClasses, List.mem_map]
  constructor
  · rintro ⟨j, hj, site⟩
    obtain ⟨k, c, hk, rfl, same⟩ := h.exists_class hj
    refine ⟨(.classAt k, c), Program.mem_sitedClasses.mpr ⟨k, hk, rfl⟩, ?_⟩
    rw [movedClass, (Moves.classAt g k).moved, (Moves.classAt g k).classNumber, ← same, ← site]
  · rintro ⟨⟨site, c⟩, hc, rfl⟩
    obtain ⟨k, hk, rfl⟩ := Program.mem_sitedClasses.mp hc
    refine ⟨g.number k, ?_, (Moves.classAt g k).moved⟩
    rw [movedClass, (Moves.classAt g k).classNumber]
    exact h.class_of hk

/-- What is made of the classes of an arranged program one by one is what is made of the classes,
moved, in some order. -/
theorem Arranges.flatMap_perm {α : Type} (h : g.Arranges classes p)
    {f : Site × ClassDecl → List α} {e : α → α} (moves : ∀ k (c : ClassDecl),
      (f (.classAt (g.number k), c.shift (g.distance k))).Perm ((f (.classAt k, c)).map e)) :
    (p.sitedClasses.flatMap f).Perm (((Program.mk classes 0).sitedClasses.flatMap f).map e) := by
  refine (h.sitedClasses_perm.flatMap_right f).trans ?_
  rw [List.flatMap_map, List.map_flatMap]
  refine List.Perm.flatMap_left _ fun c hc => ?_
  obtain ⟨k, -, site⟩ := Program.mem_sitedClasses.mp hc
  obtain ⟨s, c⟩ := c
  obtain rfl : s = .classAt k := site
  simp only [movedClass, (Moves.classAt g k).moved, (Moves.classAt g k).classNumber]
  exact moves k c

theorem Arranges.sitedMethods_perm (h : g.Arranges classes p) :
    p.sitedMethods.Perm ((Program.mk classes 0).sitedMethods.map g.movedMethod) := by
  refine h.flatMap_perm (f := fun c => c.2.sitedMethods c.1) fun k c => ?_
  rw [ClassDecl.sitedMethods_shift (Moves.classAt g k)]
  refine .of_eq (List.map_congr_left fun m hm => ?_)
  obtain ⟨i, found⟩ := List.mem_iff_getElem?.mp hm
  simp only [ClassDecl.sitedMethods, List.getElem?_mapIdx, Option.map_eq_some_iff] at found
  obtain ⟨m, -, rfl⟩ := found
  have number : ((Site.classAt k).method i).classNumber = k :=
    ((Moves.classAt g k).item 1 i).classNumber
  simp only [movedMethod, number]

theorem Arranges.classPairs_perm (h : g.Arranges classes p) : p.classPairs.Perm
    ((Program.mk classes 0).classPairs.map fun q => (q.1, q.2.moved g)) := by
  have own := h.flatMap_perm (f := fun c => [(c.2.name, c.2.ref c.1)])
    (e := fun q => (q.1, q.2.moved g)) fun k c => by
      rw [ClassDecl.ref_shift (Moves.classAt g k)]
      exact .refl _
  unfold Program.classPairs
  rw [List.map_append]
  rw [← List.map_eq_flatMap, ← List.map_eq_flatMap] at own
  exact List.Perm.append (.of_eq rfl) own

theorem members_shift_perm (g : Arrangement) (k : Nat) (c : ClassDecl) :
    ((c.shift (g.distance k)).members (.classAt (g.number k))).Perm
      ((c.members (.classAt k)).map (Decl.moved g)) := by
  refine (ClassDecl.members_perm _ _).trans (.trans ?_ ((ClassDecl.members_perm c _).symm.map _))
  refine .of_eq ?_
  rw [List.map_append]
  congr 1
  · apply List.ext_getElem?
    intro i
    simp only [ClassDecl.fieldDecls, ClassDecl.shift, List.getElem?_mapIdx, List.getElem?_map,
      Option.map_map]
    rfl
  · apply List.ext_getElem?
    intro i
    simp only [ClassDecl.methodDecls, ClassDecl.shift, List.getElem?_mapIdx, List.getElem?_map,
      Option.map_map]
    rfl

theorem Arranges.memberPairs_perm (h : g.Arranges classes p) : p.memberPairs.Perm
    ((Program.mk classes 0).memberPairs.map fun q => (q.1, q.2.moved g)) := by
  have own := h.flatMap_perm (f := fun c => (c.2.ref c.1).memberPairs (c.2.members c.1))
    (e := fun q => (q.1, q.2.moved g)) fun k c => by
      have pairs := (members_shift_perm g k c).map fun d => ((c.name, d.name), d)
      rw [List.map_map] at pairs
      unfold ClassRef.memberPairs
      rw [List.map_map]
      refine pairs.trans (.of_eq (List.map_congr_left fun d _ => ?_))
      simp only [Function.comp_apply, Decl.moved_name]
      rfl
  unfold Program.memberPairs
  rw [List.map_append]
  exact List.Perm.append (.of_eq rfl) own

theorem Arranges.collectable_iff (h : g.Arranges classes p) :
    p.Collectable ↔ (Program.mk classes 0).Collectable := by
  have classKeys := (h.classPairs_perm.map Prod.fst).nodup_iff
  have memberKeys := (h.memberPairs_perm.map Prod.fst).nodup_iff
  rw [List.map_map] at classKeys memberKeys
  exact ⟨fun ok => ⟨classKeys.mp ok.classes, memberKeys.mp ok.members⟩,
    fun ok => ⟨classKeys.mpr ok.classes, memberKeys.mpr ok.members⟩⟩

/-- Where names can be told apart, what is known of an arranged program is what is known of the
classes, moved. -/
theorem Arranges.follows (h : g.Arranges classes p) (ok : p.Collectable) :
    Globals.Follows g (Program.mk classes 0).known p.known := by
  have named : ∀ name, p.classNamed name =
      ((Program.mk classes 0).classNamed name).map (ClassRef.moved g) := by
    intro name
    rw [Program.classNamed, Program.classNamed, ← lookup_map_snd]
    exact (lookup_eq_of_perm ok.classes h.classPairs_perm).symm
  refine ⟨named, fun c name => ?_, fun d => ?_⟩
  · show p.memberPairs.lookup (c, name) = _
    rw [← lookup_eq_of_perm ok.members h.memberPairs_perm]
    exact lookup_map_snd (Decl.moved g) _
  · show (d.moved g).typeIn p.classNamed = (d.typeIn (Program.mk classes 0).classNamed).moved g
    have written := fun n (t : TypeExpr) => t.typeIn_shift named n
    have fixed := fun n (t : TypeExpr) =>
      (t.predefinedView_shift n).trans (t.moved_predefinedView g).symm
    cases d with
    | cls ref => rfl
    | param site d => exact written _ d.type
    | var site d => exact written _ d.type
    | field home d =>
      cases home with
      | predefined => exact fixed _ d.type
      | user site => exact written _ d.type
    | method home head =>
      cases home with
      | predefined => exact fixed _ head.result
      | user site => exact written _ head.result

/-- Coherence does not hang on the order of the classes. -/
theorem Arranges.coherent_iff (h : g.Arranges classes p) :
    p.Coherent ↔ (Program.mk classes 0).Coherent := by
  have uses := fun k c => ClassDecl.uses_shift (Moves.classAt g k) c
  constructor
  · intro coherent
    refine ⟨h.collectable_iff.mp coherent.collectable, fun k c hk u hu => ?_⟩
    rw [← (h.follows coherent.collectable).ok (g.distance k)]
    refine coherent.ok (g.number k) _ (h.class_of hk) _ ?_
    rw [uses]
    exact List.mem_map_of_mem hu
  · intro coherent
    have ok := h.collectable_iff.mpr coherent.collectable
    refine ⟨ok, fun j c' hj u' hu' => ?_⟩
    obtain ⟨k, c, hk, rfl, rfl⟩ := h.exists_class hj
    rw [uses] at hu'
    obtain ⟨u, hu, rfl⟩ := List.mem_map.mp hu'
    exact ((h.follows ok).ok (g.distance k) u).mpr (coherent.ok k c hk u hu)

end Arrangement

end JamCompiler
