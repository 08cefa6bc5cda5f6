import JamCompiler.Proofs.Naming.Locals

/-!
# Completeness of binding

After a resolution without errors every class name of a written type is bound. A reference is bound
with everything it is made of unless it is open, and it is open exactly if one of its links is
`Forward`: its qualifier is a field of a later class, and that field has a class for its type. The
type of such a field is bound only after the link was met.
-/

namespace JamCompiler

/-- The names of classes in a written type, with their sites. -/
def Use.classNames : Use → List (Site × String)
  | type site t => t.classNames site
  | _ => []

namespace Program

/-- Everything that resolution has to settle in the classes of a program. -/
def uses (p : Program) : List Use := p.sitedClasses.flatMap fun c => c.2.uses c.1

/-- The sites of the class names in all written types. -/
def classNames (p : Program) : List (Site × String) := p.uses.flatMap Use.classNames

/-- All references, those that qualify others included. -/
def links (p : Program) : List (Site × Reference) :=
  p.uses.flatMap fun u => u.references.flatMap fun r => r.2.links r.1

/-- The sites that are bound with the references: their own and those of their names. -/
def slots (p : Program) : List Site := p.links.flatMap fun l => l.2.slots l.1

end Program

/-- A link from a field of a later class into the class that is the type of that field. -/
def Forward (bound : Site → Option Decl) : Site × Reference → Prop
  | (site, .qualified ..) => ∃ home f name pos,
    bound site.qualifier = some (.field (.user home) f) ∧ f.type = .named name pos ∧
      site.classNumber < home.classNumber
  | _ => False

namespace Reference

variable {g : Globals} {ctx : Resolving.Context} {locals : Scope} {site : Site} {r : Reference}

theorem mem_links_self (h : ∀ kind pos, r ≠ .unknown kind pos) : (site, r) ∈ r.links site := by
  cases r with
  | unknown kind pos => exact absurd rfl (h kind pos)
  | this | ident | qualified => exact List.mem_cons_self

/-- The links of a link are links too. -/
theorem links_trans {l : Site × Reference} (h : l ∈ r.links site) :
    l.2.links l.1 ⊆ r.links site := by
  induction r generalizing site with
  | this | ident | unknown =>
    obtain rfl := List.mem_singleton.mp h
    exact List.Subset.refl _
  | qualified qualifier name pos ih =>
    rcases List.mem_cons.mp h with rfl | h
    · exact List.Subset.refl _
    · exact List.Subset.trans (ih h) (List.subset_cons_self _ _)

/-- What qualifies a reference that is without fault is without fault. -/
theorem denote_isSome_of_link {l : Site × Reference} (h : l ∈ r.links site)
    (ok : (r.denote? g ctx locals).isSome) : (l.2.denote? g ctx locals).isSome := by
  induction r generalizing site with
  | this | ident | unknown =>
    obtain rfl := List.mem_singleton.mp h
    exact ok
  | qualified qualifier name pos ih =>
    rcases List.mem_cons.mp h with rfl | h
    · exact ok
    · refine ih h ?_
      cases meaning : qualifier.denote? g ctx locals with
      | none => simp [denote?, meaning] at ok
      | some o => rfl

end Reference

/-- A member is open only after a variable whose class is not known. -/
theorem Globals.memberAfter_open {g : Globals} {ctx : Resolving.Context} {qualifier : Reference}
    {base : Decl} {name : String} (h : g.memberAfter? ctx qualifier base name = some none) :
    (∀ c, base ≠ .cls c) ∧ base.isMethod = false ∧ ∃ text, g.typeOf base = .cls text none := by
  have value :
      g.memberOfValue? ctx base name = some none → ∃ text, g.typeOf base = .cls text none := by
    intro h
    unfold memberOfValue? at h
    split at h
    · split at h <;> cases h
    · obtain ⟨d, -, same⟩ := Option.map_eq_some_iff.mp h
      cases same
    · rename_i text type
      exact ⟨text, type⟩
    · cases h
  have member : ∀ o : Option Decl, o.map some ≠ some none := by
    intro o same
    obtain ⟨d, -, same⟩ := Option.map_eq_some_iff.mp same
    cases same
  cases base with
  | method => cases qualifier <;> cases h
  | cls c => cases qualifier <;> exact absurd h (member _)
  | field home d | param home d | var home d =>
    cases qualifier with
    | this => exact absurd h (member _)
    | ident | qualified | unknown => exact ⟨by simp, rfl, value h⟩

namespace TypeExpr

theorem known_classNames {classes : String → Option ClassRef} {t : TypeExpr}
    (h : t.Known classes) {site : Site} : ∀ n ∈ t.classNames site, (classes n.2).isSome := by
  induction t generalizing site with
  | base | unknown => simp [classNames]
  | named name pos =>
    intro n hn
    obtain rfl := List.mem_singleton.mp hn
    exact h
  | array element pos ih => exact ih h

theorem typeIn_none_eq_cls {t : TypeExpr} {name : String}
    (h : (t.typeIn fun _ => none) = .cls name none) : ∃ id pos, t = .named id pos := by
  cases t with
  | named id pos => exact ⟨id, pos, rfl⟩
  | base | array | unknown => simp [typeIn] at h

end TypeExpr

namespace Program

variable {p : Program} {bound : Site → Option Decl} {k : Nat} {ctx : Resolving.Context}
variable {locals : Scope} {site : Site} {r : Reference}

/-- A reference in the `k`th class that was resolved: it is without fault, its slots are bound to
what it means, and the classes of the locals in force are known. -/
structure Resolved (p : Program) (bound : Site → Option Decl) (k : Nat)
    (ctx : Resolving.Context) (locals : Scope) (site : Site) (r : Reference) : Prop where
  ok : (r.denote? (p.globals k) ctx locals).isSome
  bound : ∀ l ∈ r.links site, ∀ slot ∈ l.2.slots l.1,
    bound slot = (l.2.denote? (p.globals k) ctx locals).join
  known : ∀ q ∈ locals, ∀ name, q.2.typeIn p.classNamed ≠ .cls name none
  within : site.below.Sub (Site.classAt k).below

theorem Resolved.link (h : p.Resolved bound k ctx locals site r) {l : Site × Reference}
    (hl : l ∈ r.links site) : p.Resolved bound k ctx locals l.1 l.2 where
  ok := Reference.denote_isSome_of_link hl h.ok
  bound := fun l' hl' => h.bound l' (Reference.links_trans hl hl')
  known := h.known
  within := (Site.below_sub (Reference.links_below l hl)).trans h.within

theorem Resolved.qualifier {qualifier : Reference} {name : Identifier} {pos : Nat}
    (h : p.Resolved bound k ctx locals site (.qualified qualifier name pos)) :
    p.Resolved bound k ctx locals site.qualifier qualifier := by
  refine h.link (l := (site.qualifier, qualifier)) (List.mem_cons_of_mem _ ?_)
  refine Reference.mem_links_self fun kind pos same => ?_
  have ok := h.ok
  simp [Reference.denote?, same] at ok

/-- What the reference as a whole is bound to. -/
theorem Resolved.bound_self (h : p.Resolved bound k ctx locals site r) :
    bound site = (r.denote? (p.globals k) ctx locals).join := by
  have known : ∀ kind pos, r ≠ .unknown kind pos := by
    rintro kind pos rfl
    have ok := h.ok
    simp [Reference.denote?] at ok
  refine h.bound (site, r) (Reference.mem_links_self known) site ?_
  cases r with
  | unknown kind pos => exact absurd rfl (known kind pos)
  | this | ident | qualified => exact List.mem_cons_self

/-- The class of a field is unknown only if the field is one of a later class. -/
theorem forward_of_unknown (resolvable : p.Resolvable) {d : Decl} {name : String}
    (known : ∀ q ∈ locals, ∀ name, q.2.typeIn p.classNamed ≠ .cls name none)
    (owner : (p.globals k).Owner locals d) (h : (p.globals k).typeOf d = .cls name none) :
    ∃ home f id pos, d = .field (.user home) f ∧ f.type = .named id pos ∧
      k < home.classNumber := by
  by_cases later : isLater k d = true
  · cases d with
    | field home f =>
      cases home with
      | predefined => cases later
      | user home =>
        simp only [globals, later, if_true] at h
        obtain ⟨id, pos, type⟩ := TypeExpr.typeIn_none_eq_cls h
        exact ⟨home, f, id, pos, rfl, type, by simpa [isLater] using later⟩
    | cls | method | param | var => cases later
  · simp only [globals, later, Bool.false_eq_true, if_false] at h
    exfalso
    obtain ⟨data, ⟨name', found⟩ | other⟩ := owner
    · exact known _ (mem_of_lookup found) name h
    · have global : (p.globals k).Owner [] d := ⟨data, .inr other⟩
      rcases owner_cases global with (rfl | rfl) | ⟨j, c, i, f, hj, hf, rfl⟩
      · have known : Predefined.out.typeIn p.classNamed = .ofClass Predefined.printStream := rfl
        rw [known] at h
        cases h
      · cases h
      · exact resolvable.field_known hj hf name h

/-- An open reference has a forward link. -/
theorem Resolved.forward_of_open (resolvable : p.Resolvable)
    (h : p.Resolved bound k ctx locals site r)
    (unknown : r.denote? (p.globals k) ctx locals = some none) :
    ∃ l ∈ r.links site, Forward bound l := by
  induction r generalizing site with
  | this pos =>
    simp only [Reference.denote?] at unknown
    split at unknown <;> cases unknown
  | ident name pos =>
    obtain ⟨d, -, same⟩ := Option.map_eq_some_iff.mp unknown
    cases same
  | unknown kind pos => cases unknown
  | qualified qualifier name pos ih =>
    cases meaning : qualifier.denote? (p.globals k) ctx locals with
    | none => simp [Reference.denote?, meaning] at unknown
    | some denoted =>
      cases denoted with
      | none =>
        obtain ⟨l, hl, forward⟩ := ih h.qualifier meaning
        exact ⟨l, List.mem_cons_of_mem _ hl, forward⟩
      | some base =>
        refine ⟨_, List.mem_cons_self, ?_⟩
        simp only [Reference.denote?, meaning] at unknown
        obtain ⟨value, data, text, type⟩ := Globals.memberAfter_open unknown
        have owner := Globals.owner_of_denote meaning value data
        obtain ⟨home, f, id, pos', rfl, written, later⟩ :=
          forward_of_unknown resolvable h.known owner type
        refine ⟨home, f, id, pos', ?_, written, ?_⟩
        · rw [h.qualifier.bound_self, meaning]
          rfl
        · rw [Site.classNumber_of_suffix (h.within site (List.suffix_refl site))]
          exact later

/-- A reference with a forward link is open there, so the link is unbound. -/
theorem Resolved.unbound_of_forward (h : p.Resolved bound k ctx locals site r)
    {l : Site × Reference} (hl : l ∈ r.links site) (forward : Forward bound l) :
    l.2.denote? (p.globals k) ctx locals = some none := by
  have link := h.link hl
  obtain ⟨s, r'⟩ := l
  cases r' with
  | this | ident | unknown => cases forward
  | qualified qualifier name pos =>
    obtain ⟨home, f, id, pos', known, type, later⟩ := forward
    have inner := link.qualifier
    have meaning : qualifier.denote? (p.globals k) ctx locals =
        some (some (.field (.user home) f)) := by
      have self := inner.bound_self
      rw [known] at self
      obtain ⟨o, denoted⟩ := Option.isSome_iff_exists.mp inner.ok
      rw [denoted] at self ⊢
      exact congrArg some self.symm
    have unknown : (p.globals k).typeOf (.field (.user home) f) = .cls id.spelling none := by
      have after : isLater k (.field (.user home) f) = true := by
        rw [Site.classNumber_of_suffix (link.within s (List.suffix_refl s))] at later
        simpa [isLater] using later
      simp only [globals, after, if_true, Decl.typeIn, type, TypeExpr.typeIn]
    have whole : (Reference.qualified qualifier name pos).denote? (p.globals k) ctx locals =
        (p.globals k).memberAfter? ctx qualifier (.field (.user home) f) name.spelling := by
      simp only [Reference.denote?, meaning]
    rw [whole]
    cases qualifier with
    | this pos =>
      simp only [Reference.denote?] at meaning
      split at meaning <;> cases meaning
    | ident | qualified | unknown =>
      simp only [Globals.memberAfter?, Globals.memberOfValue?, unknown]

/-- What an open reference qualifies is open. -/
theorem denote_open_of_link {l : Site × Reference} (hl : l ∈ r.links site)
    (unknown : l.2.denote? (p.globals k) ctx locals = some none) :
    r.denote? (p.globals k) ctx locals = some none := by
  induction r generalizing site with
  | this | ident | unknown =>
    obtain rfl := List.mem_singleton.mp hl
    exact unknown
  | qualified qualifier name pos ih =>
    rcases List.mem_cons.mp hl with rfl | hl
    · exact unknown
    · simp only [Reference.denote?, ih hl]

theorem Resolved.open_iff (resolvable : p.Resolvable) (h : p.Resolved bound k ctx locals site r) :
    r.denote? (p.globals k) ctx locals = some none ↔ ∃ l ∈ r.links site, Forward bound l :=
  ⟨h.forward_of_open resolvable,
    fun ⟨_, hl, forward⟩ => denote_open_of_link hl (h.unbound_of_forward hl forward)⟩

/-- The slots of a reference are bound exactly if none of its links is forward. -/
theorem Resolved.bound_iff (resolvable : p.Resolvable) (h : p.Resolved bound k ctx locals site r) :
    (∀ slot ∈ r.slots site, (bound slot).isSome) ↔ ∀ l ∈ r.links site, ¬ Forward bound l := by
  have means : ∀ slot ∈ r.slots site, bound slot = (r.denote? (p.globals k) ctx locals).join := by
    intro slot hs
    refine h.bound (site, r) (Reference.mem_links_self ?_) slot hs
    rintro kind pos rfl
    cases hs
  constructor
  · intro all l hl forward
    have unknown := denote_open_of_link hl (h.unbound_of_forward hl forward)
    have slot : site ∈ r.slots site := by
      cases r with
      | unknown kind pos => cases unknown
      | this | ident | qualified => exact List.mem_cons_self
    have some := all site slot
    rw [means site slot, unknown] at some
    cases some
  · intro none slot hs
    rw [means slot hs]
    obtain ⟨o, meaning⟩ := Option.isSome_iff_exists.mp h.ok
    cases o with
    | none =>
      obtain ⟨l, hl, forward⟩ := h.forward_of_open resolvable meaning
      exact absurd forward (none l hl)
    | some d =>
      rw [meaning]
      rfl

/-- The references of a program were resolved, each in its class with the locals in force. -/
theorem Settled.resolved (settled : p.Settled bound) (resolvable : p.Resolvable) {u : Use}
    (hu : u ∈ p.uses) {l : Site × Reference} (hl : l ∈ u.references) :
    ∃ k c ctx, p.classes[k]? = some c ∧ u ∈ c.uses (.classAt k) ∧
      p.Resolved bound k ctx u.inForce l.1 l.2 := by
  obtain ⟨⟨cls, c⟩, hc, hu⟩ := List.mem_flatMap.mp hu
  obtain ⟨k, hk, rfl⟩ := mem_sitedClasses.mp hc
  obtain ⟨method, m, hm, body⟩ := ClassDecl.mem_bodyUses hu hl
  have ok := resolvable.ok k c hk u hu
  have bound := settled.bound k c hk u hu
  have within := settled.within k c hk u hu
  have known := fun q hq => resolvable.local_known hk hm body (q := q) hq
  cases u with
  | type | declare | branch | foreign => cases hl
  | ref ctx locals site r =>
    obtain rfl := List.mem_singleton.mp hl
    exact ⟨k, c, ctx, hk, hu, ok, bound, known, within⟩
  | callee ctx locals site r =>
    obtain rfl := List.mem_singleton.mp hl
    obtain ⟨o, denoted, -⟩ := ok
    exact ⟨k, c, ctx, hk, hu, Option.isSome_iff_exists.mpr ⟨o, denoted⟩, bound, known, within⟩

theorem mem_links {l : Site × Reference} :
    l ∈ p.links ↔ ∃ u ∈ p.uses, ∃ r ∈ u.references, l ∈ r.2.links r.1 := by
  simp only [links, List.mem_flatMap]

theorem links_of_link {l l' : Site × Reference} (hl : l ∈ p.links) (hl' : l' ∈ l.2.links l.1) :
    l' ∈ p.links := by
  obtain ⟨u, hu, r, hr, hl⟩ := mem_links.mp hl
  exact mem_links.mpr ⟨u, hu, r, hr, Reference.links_trans hl hl'⟩

/-- The slots of each reference are bound exactly if none of its links is forward. -/
theorem Settled.bound_iff (settled : p.Settled bound) (resolvable : p.Resolvable)
    {l : Site × Reference} (hl : l ∈ p.links) :
    (∀ slot ∈ l.2.slots l.1, (bound slot).isSome) ↔ ∀ l' ∈ l.2.links l.1, ¬ Forward bound l' := by
  obtain ⟨u, hu, r, hr, hl⟩ := mem_links.mp hl
  obtain ⟨k, c, ctx, -, -, whole⟩ := settled.resolved resolvable hu hr
  exact (whole.link hl).bound_iff resolvable

/-- The names of the classes in all written types are bound. -/
theorem Settled.classNames_bound (settled : p.Settled bound) (resolvable : p.Resolvable)
    {n : Site × String} (hn : n ∈ p.classNames) : (bound n.1).isSome := by
  obtain ⟨u, hu, hn⟩ := List.mem_flatMap.mp hn
  obtain ⟨⟨cls, c⟩, hc, hu⟩ := List.mem_flatMap.mp hu
  obtain ⟨k, hk, rfl⟩ := mem_sitedClasses.mp hc
  cases u with
  | ref | callee | declare | branch | foreign => cases hn
  | type site t =>
    rw [settled.bound k c hk _ hu n hn, Option.isSome_map]
    exact TypeExpr.known_classNames (resolvable.ok k c hk _ hu) n hn

end Program

end JamCompiler
