import JamCompiler.Proofs.Order.Types
import Mathlib.Logic.Function.Basic

/-!
# Bindings of arranged programs

Where every name is bound to what it means, `Program.Complete`, the declarations that references
denote have the types that are written. So the bindings of two arrangements of the same classes
agree, and the one program is well typed exactly if the other is.
-/

namespace JamCompiler

namespace Arrangement

variable {g : Arrangement} {k n : Nat} {s s' : Site}

theorem Moves.of_moved (h : Site.classAt (g.number k) <:+ s.moved g) : g.Moves k s (s.moved g) := by
  obtain ⟨front, same⟩ := h
  have there : s.moved g = front ++ [g.number k] := same.symm
  rw [← Site.moved_append] at there
  exact ⟨front, Site.moved_injective g there,
    by rw [Site.moved_injective g there, Site.moved_append]⟩

theorem Moves.below {t : Site} (h : g.Moves k s s') (ht : s <:+ t) : g.Moves k t (t.moved g) := by
  obtain ⟨front, rfl, -⟩ := h
  exact .of_suffix g ((List.suffix_append front [k]).trans ht)

end Arrangement

section Trees

variable {g : Arrangement} {k : Nat} {s s' : Site}

theorem TypeExpr.classNames_shift (at' : g.Moves k s s') (n : Nat) (t : TypeExpr) :
    (t.shift n).classNames s' = (t.classNames s).map fun q => (q.1.moved g, q.2) := by
  induction t generalizing s s' with
  | base | unknown => rfl
  | named name pos =>
    simp only [shift, classNames, List.map_cons, List.map_nil, Identifier.shift, Site.className,
      (at'.child 0).moved]
  | array element pos ih => exact ih (at'.child 0)

theorem Reference.links_shift (at' : g.Moves k s s') (n : Nat) (r : Reference) :
    (r.shift n).links s' = (r.links s).map fun l => (l.1.moved g, l.2.shift n) := by
  induction r generalizing s s' with
  | this | ident | unknown => simp only [links, List.map_cons, List.map_nil, at'.moved, shift]
  | qualified qualifier name pos ih =>
    have inner : (qualifier.shift n).links s'.qualifier = _ := ih (at'.child 0)
    simp only [links, List.map_cons, at'.moved, shift, inner]
    rfl

theorem Reference.slots_shift (at' : g.Moves k s s') (n : Nat) (r : Reference) :
    (r.shift n).slots s' = (r.slots s).map (Site.moved g) := by
  cases r with
  | unknown => rfl
  | this => simp only [slots, shift, List.map_cons, List.map_nil, at'.moved]
  | ident | qualified =>
    simp only [slots, shift, List.map_cons, List.map_nil, at'.moved, Site.name, (at'.child 1).moved]

/-- A reference that denotes something has itself for a link and its site for a slot. -/
theorem Reference.mem_self {globals : Globals} {ctx : Resolving.Context} {locals : Scope}
    {r : Reference} (h : (r.denote? globals ctx locals).isSome) :
    (s, r) ∈ r.links s ∧ s ∈ r.slots s := by
  cases r with
  | unknown => cases h
  | this | ident | qualified => exact ⟨List.mem_cons_self, List.mem_cons_self⟩

end Trees

/-- The types of parameters as written. -/
def MethodHead.paramTypesIn (classes : String → Option ClassRef) (home : Home) (head : MethodHead) :
    List ValueType :=
  head.params.map fun p => match home with
    | .predefined => p.type.predefinedView
    | .user _ => p.type.typeIn classes

/-- Whether the types of a declaration are what is written. -/
structure Decl.Reads (bound : Site → Option Decl) (classes : String → Option ClassRef) (d : Decl) :
    Prop where
  type : d.type bound = d.typeIn classes
  params : ∀ home head, d = .method home head →
    (head.paramTypes bound home).map Prod.snd = head.paramTypesIn classes home

theorem Decl.Reads.of_type {bound : Site → Option Decl} {classes : String → Option ClassRef}
    {d : Decl} (type : d.type bound = d.typeIn classes) (noMethod : d.isMethod = false) :
    d.Reads bound classes where
  type := type
  params := by
    rintro _ _ rfl
    cases noMethod

/-- Declarations that agree before and after a move because both have the types that are written. -/
theorem Decl.Reads.agrees {g : Arrangement} {before after : Site → Option Decl}
    {classes classes' : String → Option ClassRef}
    (named : ∀ name, classes' name = (classes name).map (ClassRef.moved g)) {d : Decl}
    (h : d.Reads before classes) (h' : (d.moved g).Reads after classes')
    (same : (d.moved g).typeIn classes' = (d.typeIn classes).moved g) :
    d.Agrees g before after where
  type := by rw [h'.type, h.type, same]
  params := by
    rintro home head rfl
    have moved := h'.params _ _ rfl
    have read := congrArg (List.map (ValueType.moved g)) (h.params home head rfl)
    rw [List.map_map] at read
    refine moved.trans (.trans ?_ read.symm)
    simp only [MethodHead.paramTypesIn, MethodHead.shift, List.map_map]
    refine List.map_congr_left fun p _ => ?_
    cases home with
    | predefined =>
      exact (p.type.predefinedView_shift _).trans (p.type.moved_predefinedView g).symm
    | user site => exact p.type.typeIn_shift named _

namespace Program

variable {p : Program} {bound : Site → Option Decl} {k : Nat} {c : ClassDecl}

/-- Whether every name of a program is bound to what it means where everything is known. -/
def Complete (p : Program) (bound : Site → Option Decl) : Prop :=
  ∀ (k : Nat) c, p.classes[k]? = some c → ∀ u ∈ c.uses (.classAt k), u.Bound p.known bound

theorem Complete.view (complete : p.Complete bound) (hk : p.classes[k]? = some c) {site : Site}
    {t : TypeExpr} (written : Use.type site t ∈ c.uses (.classAt k)) :
    t.view bound site = t.typeIn p.classNamed :=
  TypeExpr.view_of_bound (complete k c hk _ written)

theorem mem_uses_of_method {site : Site} {m : MethodDecl} {u : Use}
    (hm : (site, m) ∈ c.sitedMethods (.classAt k)) (hu : u ∈ m.uses (c.ref (.classAt k)) site) :
    u ∈ c.uses (.classAt k) :=
  List.mem_append_right _ (List.mem_flatMap.mpr ⟨(site, m), hm, hu⟩)

/-- The types of the parameters of a method, each at its place in the list. -/
theorem Complete.param (complete : p.Complete bound) (hk : p.classes[k]? = some c) {site : Site}
    {m : MethodDecl} (hm : (site, m) ∈ c.sitedMethods (.classAt k)) {i : Nat} {prm : ParamDecl}
    (found : m.head.params[i]? = some prm) :
    prm.type.view bound (site.param i).type = prm.type.typeIn p.classNamed := by
  refine complete.view hk (mem_uses_of_method hm ?_)
  have written :
      Use.type (site.param (0 + i)).type prm.type ∈ MethodDecl.paramUses site 0 [] m.head.params :=
    MethodDecl.mem_paramUses found
  rw [Nat.zero_add] at written
  exact List.mem_cons_of_mem _ (List.mem_append_left _ written)

theorem Complete.reads_method (complete : p.Complete bound) (hk : p.classes[k]? = some c)
    {site : Site} {m : MethodDecl} (hm : (site, m) ∈ c.sitedMethods (.classAt k)) :
    (Decl.method (.user site) m.head).Reads bound p.classNamed where
  type := complete.view hk (mem_uses_of_method hm List.mem_cons_self)
  params := by
    rintro _ _ ⟨⟩
    apply List.ext_getElem?
    intro i
    simp only [MethodHead.paramTypes, MethodHead.paramTypesIn, List.getElem?_map,
      List.getElem?_mapIdx, Option.map_map]
    cases found : m.head.params[i]? with
    | none => rfl
    | some prm => exact congrArg some (complete.param hk hm found)

/-- What a reference denotes has the types that are written. -/
theorem Complete.reads (complete : p.Complete bound) (hk : p.classes[k]? = some c) {u : Use}
    (hu : u ∈ c.uses (.classAt k)) {site : Site} {r : Reference} (hr : (site, r) ∈ u.references)
    {ctx : Resolving.Context} {d : Decl}
    (denoted : r.denote? p.known ctx u.inForce = some (some d)) : d.Reads bound p.classNamed := by
  by_cases value : ∃ c, d = .cls c
  · obtain ⟨c, rfl⟩ := value
    exact .of_type rfl rfl
  · have value : ∀ c, d ≠ .cls c := fun c same => value ⟨c, same⟩
    rcases Globals.origin_of_denote denoted value with ⟨name, found⟩ | ⟨cls, name, found⟩ | rfl
    · obtain ⟨method, m, hm, body⟩ := ClassDecl.mem_bodyUses hu hr
      rcases MethodDecl.inForce_of_bodyUses body (mem_of_lookup found) with
        ⟨i, prm, there, same⟩ | ⟨site', var, same, written⟩
      · obtain ⟨-, rfl⟩ := Prod.mk.inj same
        exact .of_type (complete.param hk hm there) rfl
      · obtain ⟨-, rfl⟩ := Prod.mk.inj same
        exact .of_type (complete.view hk (ClassDecl.bodyUses_subset hm written)) rfl
    · rcases member_cases (mem_of_lookup found) with ⟨-, rfl | rfl⟩ | ⟨j, b, hj, hd, -⟩
      · exact ⟨rfl, by rintro _ _ ⟨⟩; rfl⟩
      · exact .of_type rfl rfl
      · rcases ClassDecl.mem_members.mp hd with ⟨i, f, hf, rfl⟩ | ⟨i, m, hm, rfl⟩
        · have written := ClassDecl.mem_fieldUses (.classAt j) 0 hf
          rw [Nat.zero_add] at written
          exact .of_type (complete.view hj (List.mem_append_left _ written)) rfl
        · exact complete.reads_method hj
            (List.mem_iff_getElem?.mpr ⟨i, by simp [ClassDecl.sitedMethods, hm]⟩)
    · exact .of_type rfl rfl

end Program

namespace Arrangement

variable {g : Arrangement} {classes : List ClassDecl} {p : Program}
variable {before after : Site → Option Decl} {k : Nat} {c : ClassDecl}

theorem Arranges.mem_uses (h : g.Arranges classes p) (hk : classes[k]? = some c) {u : Use}
    (hu : u ∈ c.uses (.classAt k)) : ∃ c', p.classes[g.number k]? = some c' ∧
      u.moved g (g.distance k) ∈ c'.uses (.classAt (g.number k)) := by
  refine ⟨_, h.class_of hk, ?_⟩
  rw [ClassDecl.uses_shift (Moves.classAt g k)]
  exact List.mem_map_of_mem hu

/-- Where a reference is bound to what it denotes before and after a move, the bindings agree. -/
theorem Arranges.agrees_ref (h : g.Arranges classes p) (coherent : p.Coherent)
    (complete : (Program.mk classes 0).Complete before) (complete' : p.Complete after)
    (hk : classes[k]? = some c) {u : Use} (hu : u ∈ c.uses (.classAt k)) {ctx : Resolving.Context}
    {locals : Scope} {site : Site} {r : Reference}
    (refers : u = .ref ctx locals site r ∨ u = .callee ctx locals site r)
    (ok : (r.denote? (Program.mk classes 0).known ctx locals).isSome) :
    after (site.moved g) = (before site).map (Decl.moved g) ∧
      ∀ d, before site = some d → d.Agrees g before after := by
  have follows := h.follows coherent.collectable
  obtain ⟨c', hk', hu'⟩ := h.mem_uses hk hu
  have denoted' := follows.denote ctx locals (g.distance k) r
  have ok' :
      ((r.shift (g.distance k)).denote? p.known (ctx.moved g) (Scope.moved g locals)).isSome := by
    rw [denoted', Option.isSome_map]
    exact ok
  obtain ⟨link, slot⟩ := Reference.mem_self (s := site) ok
  obtain ⟨link', slot'⟩ := Reference.mem_self (s := site.moved g) ok'
  have here := complete k c hk u hu
  have there := complete' _ c' hk' _ hu'
  have bound : before site = (r.denote? (Program.mk classes 0).known ctx locals).join := by
    rcases refers with rfl | rfl <;> exact here _ link _ slot
  have bound' : after (site.moved g) =
      ((r.shift (g.distance k)).denote? p.known (ctx.moved g) (Scope.moved g locals)).join := by
    rcases refers with rfl | rfl <;> exact there _ link' _ slot'
  refine ⟨?_, fun d found => ?_⟩
  · rw [bound', denoted', bound]
    cases r.denote? (Program.mk classes 0).known ctx locals with
    | none => rfl
    | some o => cases o <;> rfl
  · rw [bound] at found
    have denoted := Option.join_eq_some_iff.mp found
    rw [denoted] at denoted'
    rcases refers with rfl | rfl
    all_goals
      have reads := complete.reads hk hu (List.mem_singleton_self _) denoted
      have reads' := complete'.reads hk' hu' (List.mem_singleton_self _) denoted'
      exact reads.agrees follows.classes reads' (follows.typeOf d)

/-- Where names are bound to what they mean before and after a move, the bindings agree. -/
theorem Arranges.agrees (h : g.Arranges classes p) (coherent : p.Coherent)
    (complete : (Program.mk classes 0).Complete before) (complete' : p.Complete after)
    (hk : classes[k]? = some c) {u : Use} (hu : u ∈ c.uses (.classAt k)) :
    u.Agrees g (g.distance k) before after := by
  have ok := (h.coherent_iff.mp coherent).ok k c hk u hu
  cases u with
  | declare | branch | foreign => trivial
  | type site t =>
    obtain ⟨c', hk', hu'⟩ := h.mem_uses hk hu
    show (t.shift (g.distance k)).view after (site.moved g) = _
    rw [complete.view hk hu, complete'.view hk' hu']
    exact t.typeIn_shift (h.follows coherent.collectable).classes _
  | ref ctx locals site r => exact h.agrees_ref coherent complete complete' hk hu (.inl rfl) ok
  | callee ctx locals site r =>
    obtain ⟨o, denoted, -⟩ := ok
    exact h.agrees_ref coherent complete complete' hk hu (.inr rfl)
      (Option.isSome_iff_exists.mpr ⟨o, denoted⟩)

end Arrangement

end JamCompiler
