import JamCompiler.Proofs.Accepted
import JamCompiler.Proofs.Emission.Building
import JamCompiler.Proofs.Typing.Values

/-!
# Code for references

In a program that has passed all checks there is code for every reference as soon as the fields of
all classes and the locals in force have their places. What qualifies a reference is loaded only if
the reference denotes a member of an instance, and then it has a value.
-/

namespace JamCompiler

open Emission Typing

/-- Whether a location is one for a declaration. -/
def Location.Fits : Location → Decl → Prop
  | .static _, d => d.isMember ∧ d.isStatic
  | .object _, d => d.isMember ∧ ¬ d.isStatic
  | .frame _, d => ¬ d.isMember
  | .code _, _ => False

namespace Decl

/-- Whether a declared thing lives where things like it do. -/
def Placed (env : Env) (d : Decl) : Prop := ∃ l, locationOf env d = .ok l ∧ l.Fits d

/-- Whether a declared thing has a value that can be used. -/
def IsValue (d : Decl) : Prop := (∀ c, d ≠ .cls c) ∧ d.isMethod = false ∧ d ≠ Predefined.out

theorem isValue_of_valueType {bound : Site → Option Decl} {site : Site} {r : Reference} {d : Decl}
    {type : ValueType} (typed : valueType? bound site r = some type) (found : bound site = some d) :
    (∃ pos, r = .this pos) ∨ d.IsValue := by
  rw [valueType?, found, Option.bind_some] at typed
  cases r with
  | this pos => exact .inl ⟨pos, rfl⟩
  | ident | qualified | unknown =>
    cases d with
    | cls | method => cases typed
    | field | param | var =>
      dsimp only at typed
      split at typed
      · cases typed
      · rename_i usable
        exact .inr ⟨by rintro _ ⟨⟩, rfl, usable⟩

/-- What can be assigned to has a value, and is not the length of an array. -/
theorem isValue_of_targetType {bound : Site → Option Decl} {site : Site} {r : Reference} {d : Decl}
    {type : ValueType} (typed : targetType? bound site r = some type)
    (found : bound site = some d) : (∀ pos, r ≠ .this pos) ∧ d.IsValue ∧ d ≠ Predefined.length := by
  rw [targetType?, found, Option.bind_some] at typed
  cases r with
  | this pos => cases typed
  | ident | qualified | unknown =>
    cases d with
    | cls | method => cases typed
    | field | param | var =>
      dsimp only at typed
      split at typed
      · cases typed
      · split at typed
        · cases typed
        · rename_i notLength usable
          exact ⟨nofun, ⟨nofun, rfl, usable⟩, notLength⟩

end Decl

/-- Everything that may be used in a program where some locals are in force has its place. -/
structure Emission.Env.Knows (env : Env) (p : Program) (locals : Scope) : Prop where
  fields : ∀ (k : Nat) (c : ClassDecl), p.classes[k]? = some c →
    ∀ (i : Nat) (f : FieldDecl), c.fields[i]? = some f →
      (Decl.field (.user ((Site.classAt k).field i)) f).Placed env
  layouts : ∀ k < p.classes.length, ∃ l, env.layout (.classAt k) = some l
  locals : ∀ q ∈ locals, q.2.Placed env

theorem Emission.locationOf_eq {env : Env} {site : Site} {d : Decl} {l : Location}
    (home : d.home = .user site) (found : env.located site = some l) :
    locationOf env d = .ok l := by
  simp only [locationOf, home, found]

theorem Emission.valueDecl_eq {env : Env} {site : Site} {d : Decl} (found : env.bound site = some d)
    (value : d.IsValue) (pos : Nat) : valueDecl env site pos = .ok d := by
  unfold valueDecl
  rw [found]
  cases d with
  | cls c => exact absurd rfl (value.1 c)
  | method => cases value.2.1
  | field | param | var => exact if_neg value.2.2

namespace Program

variable {p : Program} {env : Env} {k : Nat} {ctx : Resolving.Context}
  {locals : Scope} {site : Site}
variable {r : Reference} {d : Decl}

theorem placed_of_origin (knows : env.Knows p locals)
    (origin : (∃ name, locals.lookup name = some d) ∨
      ∃ c name, (p.globals k).members c name = some d)
    (value : d.IsValue) : d.Placed env := by
  rcases origin with ⟨name, found⟩ | ⟨c, name, found⟩
  · exact knows.locals _ (mem_of_lookup found)
  · rcases member_cases (mem_of_lookup found) with ⟨-, rfl | rfl⟩ | ⟨j, c, hj, hd, -⟩
    · cases value.2.1
    · exact absurd rfl value.2.2
    · rcases ClassDecl.mem_members.mp hd with ⟨i, f, hf, rfl⟩ | ⟨i, m, hm, rfl⟩
      · exact knows.fields j c hj i f hf
      · cases value.2.1

/-- What a reference denotes has its place, unless it is the length of an array. -/
theorem placed_of_denote (knows : env.Knows p locals)
    (denoted : r.denote? (p.globals k) ctx locals = some (some d)) (value : d.IsValue)
    (notLength : d ≠ Predefined.length) : d.Placed env := by
  rcases Globals.origin_of_denote denoted value.1 with here | there | length
  · exact placed_of_origin (k := k) knows (.inl here) value
  · exact placed_of_origin knows (.inr there) value
  · exact absurd length notLength

/-- What qualifies a reference to a member of an instance has a value, unless the member is that
which prints. -/
theorem qualifier_isValue (collectable : p.Collectable) {qualifier : Reference} {base : Decl}
    {name : String} (after : (p.globals k).memberAfter? ctx qualifier base name = some (some d))
    (inInstance : d.isStatic = false) (own : d ≠ Predefined.println) :
    (∃ pos, qualifier = .this pos) ∨ base.IsValue := by
  have value (owner : Decl)
      (h : (p.globals k).memberOfValue? ctx owner name = some (some d)) :
    owner ≠ Predefined.out := by
    rintro rfl
    obtain ⟨e, member, same⟩ := Option.map_eq_some_iff.mp h
    cases same
    exact own (collectable.eq_println (mem_of_lookup (Globals.members_of_memberOf member)))
  cases base with
  | method => cases qualifier <;> cases after
  | cls c =>
    cases qualifier with
    | this pos => exact .inl ⟨pos, rfl⟩
    | ident | qualified | unknown =>
      obtain ⟨e, member, same⟩ := Option.map_eq_some_iff.mp after
      cases same
      obtain ⟨m, -, static⟩ := Option.bind_eq_some_iff.mp member
      split at static
      · rename_i isStatic
        cases static
        rw [isStatic] at inInstance
        cases inInstance
      · cases static
  | field home f | param home f | var home f =>
    cases qualifier with
    | this pos => exact .inl ⟨pos, rfl⟩
    | ident | qualified | unknown => exact .inr ⟨nofun, rfl, value _ after⟩

theorem member_of_denote {qualifier : Reference} {name : Identifier} {pos : Nat} {g : Globals}
    (denoted : (Reference.qualified qualifier name pos).denote? g ctx locals = some (some d)) :
    ∃ base, qualifier.denote? g ctx locals = some (some base) ∧
      g.memberAfter? ctx qualifier base name.spelling = some (some d) := by
  simp only [Reference.denote?] at denoted
  split at denoted
  · cases denoted
  · cases denoted
  · rename_i base meaning
    exact ⟨base, meaning, denoted⟩

section Resolved

variable (h : p.Resolved env.bound k ctx locals site r) (collectable : p.Collectable)
variable (knows : env.Knows p locals)

theorem Resolved.bound_of_denote
    (h : p.Resolved env.bound k ctx locals site r)
    (denoted : r.denote? (p.globals k) ctx locals = some (some d)) : env.bound site = some d := by
  rw [h.bound_self, denoted]
  rfl

include h collectable knows

/-- A reference that has a value has code. -/
theorem Resolved.loads (denoted : r.denote? (p.globals k) ctx locals = some (some d))
    (value : (∃ pos, r = .this pos) ∨ d.IsValue) : ∃ code, emitRef env site r = .ok code := by
  induction r generalizing site d with
  | this pos => exact ⟨_, rfl⟩
  | unknown => cases denoted
  | ident name pos =>
    obtain ⟨pos', this⟩ | value := value
    · cases this
    obtain ⟨e, named, same⟩ := Option.map_eq_some_iff.mp denoted
    cases same
    obtain ⟨l, located, fits⟩ :=
      placed_of_origin knows (Globals.origin_of_nameDecl named value.1) value
    simp only [emitRef, valueDecl_eq (h.bound_of_denote denoted) value, bind, Except.bind, located]
    cases l with
    | static | frame | object => exact ⟨_, rfl⟩
    | code => cases fits
  | qualified qualifier name pos ih =>
    obtain ⟨pos', this⟩ | value := value
    · cases this
    have inner (inInstance : d.isStatic = false) :
        ∃ code, emitRef env site.qualifier qualifier = .ok code := by
      obtain ⟨base, meaning, after⟩ := member_of_denote denoted
      refine ih h.qualifier meaning (qualifier_isValue collectable after inInstance ?_)
      rintro rfl
      cases value.2.1
    simp only [emitRef, valueDecl_eq (h.bound_of_denote denoted) value, bind, Except.bind]
    split
    · rename_i length
      obtain ⟨code, made⟩ := inner (by rw [length]; rfl)
      exact ⟨_, by rw [made]; rfl⟩
    · rename_i notLength
      obtain ⟨l, located, fits⟩ := placed_of_denote knows denoted value notLength
      rw [located]
      cases l with
      | static | frame => exact ⟨_, rfl⟩
      | object n =>
        obtain ⟨code, made⟩ := inner (Bool.eq_false_iff.mpr fits.2)
        exact ⟨_, by simp only [made]; rfl⟩
      | code => cases fits

/-- So has what qualifies a member of an instance. -/
theorem Resolved.qualifier_loads {qualifier : Reference} {name : Identifier} {pos : Nat}
    (same : r = .qualified qualifier name pos)
    (denoted : r.denote? (p.globals k) ctx locals = some (some d)) (inInstance : d.isStatic = false)
    (own : d ≠ Predefined.println) : ∃ code, emitRef env site.qualifier qualifier = .ok code := by
  subst same
  obtain ⟨base, meaning, after⟩ := member_of_denote denoted
  exact h.qualifier.loads collectable knows meaning
    (qualifier_isValue collectable after inInstance own)

/-- What can be assigned to has code that stores a value. -/
theorem Resolved.stores (denoted : r.denote? (p.globals k) ctx locals = some (some d))
    (notThis : ∀ pos, r ≠ .this pos) (value : d.IsValue) (notLength : d ≠ Predefined.length)
    {stored : Emitted Tree} {cond : Prop} (builds : Builds stored cond) :
    Builds (storeTree env site r stored) cond := by
  have target : targetDecl env site r = .ok d := by
    unfold targetDecl
    rw [h.bound_of_denote denoted]
    cases r with
    | this pos => exact absurd rfl (notThis pos)
    | ident | qualified | unknown =>
      cases d with
      | cls c => exact absurd rfl (value.1 c)
      | method => cases value.2.1
      | field | param | var => exact if_neg (by simp [notLength, value.2.2])
  obtain ⟨l, located, fits⟩ := placed_of_denote knows denoted value notLength
  have direct : ∀ items, Builds (do return Tree.seq (← stored) (.straight items)) cond :=
    fun items => builds.before fun _ _ => ⟨_, rfl⟩
  refine .after ⟨d, target⟩ fun d' known => ?_
  cases target.symm.trans known
  refine .after ⟨l, located⟩ fun l' known => ?_
  cases located.symm.trans known
  cases l with
  | static | frame => exact direct _
  | code => cases fits
  | object n =>
    cases r with
    | this | ident | unknown => exact direct _
    | qualified qualifier name pos =>
      have own : d ≠ Predefined.println := by
        rintro rfl
        cases value.2.1
      exact .after
        (h.qualifier_loads collectable knows rfl denoted (Bool.eq_false_iff.mpr fits.2) own)
        fun _ _ => builds.before fun _ _ => ⟨_, rfl⟩

/-- A method that is denoted can be called with as many arguments as it has parameters. -/
theorem Resolved.invokes {home : Home} {head : MethodHead}
    (denoted : r.denote? (p.globals k) ctx locals = some (some (.method home head))) (args : Tree) :
    ∃ t, invocationTree env site r (home, head) head.params.length args = .ok t := by
  unfold invocationTree
  dsimp only
  split
  · rename_i println
    have same := isPrintln_iff.mp println
    cases same
    exact ⟨_, rfl⟩
  · rename_i own
    split
    · exact ⟨_, rfl⟩
    · rename_i inInstance
      cases r with
      | this | ident | unknown => exact ⟨_, rfl⟩
      | qualified qualifier name pos =>
        obtain ⟨code, made⟩ := h.qualifier_loads collectable knows rfl denoted
          (Bool.eq_false_iff.mpr inInstance) fun println => own (isPrintln_iff.mpr println)
        exact ⟨_, by simp only [made]; rfl⟩

end Resolved

/-- What a name of a class means: a predefined class, or one of the program. -/
theorem classNamed_cases {name : String} {c : ClassRef} (collectable : p.Collectable)
    (h : p.classNamed name = some c) :
    (c.home = .predefined ∧ name ∈ Predefined.classes.map ClassRef.name) ∨
      ∃ k < p.classes.length, c.home = .user (.classAt k) ∧
        name ∉ Predefined.classes.map ClassRef.name := by
  rcases List.mem_append.mp (mem_of_lookup h) with predefined | user
  · obtain ⟨b, hb, same⟩ := List.mem_map.mp predefined
    cases same
    refine .inl ⟨?_, List.mem_map_of_mem hb⟩
    simp only [Predefined.classes, List.mem_cons, List.not_mem_nil, or_false] at hb
    rcases hb with rfl | rfl | rfl <;> rfl
  · obtain ⟨⟨site, d⟩, hd, same⟩ := List.mem_map.mp user
    obtain ⟨k, hk, rfl⟩ := mem_sitedClasses.mp hd
    cases same
    exact .inr ⟨k, (List.getElem?_eq_some_iff.mp hk).1, rfl, collectable.not_predefined hk⟩

/-- An instance can be made of the classes of the program and of no other. -/
theorem builds_new {t : TypeExpr} {pos : Nat} (collectable : p.Collectable)
    (knows : env.Knows p locals) (known : t.Known p.classNamed)
    (bound : ∀ n ∈ t.classNames site, env.bound n.1 = (p.classNamed n.2).map .cls) :
    Builds (emitNew env site t pos) t.Instantiable := by
  cases t with
  | base | array | unknown => exact ⟨False.elim, fun _ => ⟨_, _, rfl⟩⟩
  | named name pos' =>
    obtain ⟨c, named⟩ := Option.isSome_iff_exists.mp known
    have found : env.bound site.className = some (.cls c) := by
      rw [bound (site.className, name.spelling) (List.mem_singleton_self _), named]
      rfl
    obtain ⟨home, text, at'⟩ := c
    unfold emitNew
    rw [found]
    rcases classNamed_cases collectable named with ⟨predefined, mem⟩ | ⟨k, hk, user, free⟩
    · cases predefined
      exact ⟨fun free => absurd mem free, fun _ => ⟨_, _, rfl⟩⟩
    · cases user
      obtain ⟨l, layout⟩ := knows.layouts k hk
      refine ⟨fun _ => ?_, fun not => absurd free not⟩
      dsimp only
      rw [layout]
      exact ⟨_, rfl⟩

/-- Everything used in a program that has passed all checks has code where it has its place. -/
theorem Checked.ready (h : p.Checked env.bound) {u : Use} (hu : u ∈ p.uses)
    (knows : env.Knows p u.inForce) : u.Ready env := by
  have collectable := h.resolvable.collectable
  cases u with
  | declare | branch | foreign => trivial
  | type site t =>
    obtain ⟨⟨cls, c⟩, hc, hu⟩ := List.mem_flatMap.mp hu
    obtain ⟨k, hk, rfl⟩ := mem_sitedClasses.mp hc
    exact fun pos => builds_new collectable knows (h.resolvable.ok k c hk _ hu)
      (h.settled.bound k c hk _ hu)
  | ref ctx locals site r =>
    obtain ⟨k, c, ctx', -, -, resolved⟩ :=
      h.settled.resolved h.resolvable hu (l := (site, r)) (List.mem_singleton_self _)
    have denoted {d : Decl} (found : env.bound site = some d) :
        r.denote? (p.globals k) ctx' locals = some (some d) := by
      have bound := resolved.bound_self
      dsimp only at bound
      rw [found] at bound
      exact Option.join_eq_some_iff.mp bound.symm
    refine ⟨fun type typed => ?_, fun type typed value cond builds => ?_⟩
    · obtain ⟨d, found, -⟩ := Option.bind_eq_some_iff.mp typed
      exact resolved.loads collectable knows (denoted found) (Decl.isValue_of_valueType typed found)
    · obtain ⟨d, found, -⟩ := Option.bind_eq_some_iff.mp typed
      obtain ⟨notThis, value, notLength⟩ := Decl.isValue_of_targetType typed found
      exact resolved.stores collectable knows (denoted found) notThis value notLength builds
  | callee ctx locals site r =>
    obtain ⟨k, c, ctx', -, -, resolved⟩ :=
      h.settled.resolved h.resolvable hu (l := (site, r)) (List.mem_singleton_self _)
    intro home head found args
    have bound := resolved.bound_self
    dsimp only at bound
    rw [found] at bound
    exact resolved.invokes collectable knows (Option.join_eq_some_iff.mp bound.symm) args

end Program

end JamCompiler
