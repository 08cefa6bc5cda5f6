import JamCompiler.Proofs.CleanRun
import JamCompiler.Proofs.Frame
import JamCompiler.Proofs.Naming.Table
import JamCompiler.Proofs.Naming.Use

/-!
# Resolving references

What a clean run of resolution over written types and references does, in terms of uses: it ends
exactly if the use is without fault, and then its names are bound to what they mean in their place,
or to nothing where they are open. `Models` ties the state of resolution to what is known and to
the locals in force.
-/

namespace JamCompiler

open Pass

theorem Reference.links_below {site : Site} {r : Reference} :
    ∀ l ∈ r.links site, site <:+ l.1 := by
  induction r generalizing site with
  | this | ident | unknown => simp [links]
  | qualified qualifier name pos ih =>
    intro l hl
    rcases List.mem_cons.mp hl with rfl | hl
    · exact List.suffix_refl site
    · exact (site.suffix_child 0).trans (ih l hl)

theorem Reference.slots_below {site : Site} {r : Reference} :
    ∀ slot ∈ r.slots site, site <:+ slot := by
  cases r with
  | unknown => simp [slots]
  | this => simp [slots]
  | ident | qualified =>
    intro slot hs
    simp only [slots, List.mem_cons, List.not_mem_nil, or_false] at hs
    rcases hs with rfl | rfl
    · exact List.suffix_refl _
    · exact site.suffix_child 1

theorem TypeExpr.classNames_below {site : Site} {t : TypeExpr} :
    ∀ n ∈ t.classNames site, site <:+ n.1 := by
  induction t generalizing site with
  | base | unknown => simp [classNames]
  | named =>
    intro n hn
    simp only [classNames, List.mem_singleton] at hn
    subst hn
    exact site.suffix_child 0
  | array element pos ih =>
    intro n hn
    exact (site.suffix_child 0).trans (ih n hn)

namespace Use

/-- Whether what a use binds lies in a region. -/
def Within (region : Region) : Use → Prop
  | type site _ | ref _ _ site _ | callee _ _ site _ => site.below.Sub region
  | _ => True

theorem Within.mono {a b : Region} {u : Use} (h : u.Within a) (sub : a.Sub b) : u.Within b := by
  cases u <;> first | exact Region.Sub.trans h sub | trivial

/-- What is bound elsewhere plays no part. -/
theorem Bound.congr {g : Globals} {b b' : Site → Option Decl} {region : Region} {u : Use}
    (h : u.Bound g b) (within : u.Within region) (same : ∀ t, region t → b' t = b t) :
    u.Bound g b' := by
  cases u with
  | type site t =>
    intro n hn
    rw [same n.1 (within _ (TypeExpr.classNames_below n hn))]
    exact h n hn
  | ref ctx locals site r | callee ctx locals site r =>
    intro l hl slot hs
    have inside := (Reference.links_below l hl).trans (Reference.slots_below slot hs)
    rw [same slot (within _ inside)]
    exact h l hl slot hs
  | declare | branch | foreign => trivial

end Use

namespace Globals

/-- What can stand before a dot with a type: fields and locals. -/
def Owner (g : Globals) (locals : Scope) (d : Decl) : Prop :=
  d.isMethod = false ∧ ((∃ name, locals.lookup name = some d) ∨
    (∃ c name, g.members c name = some d) ∨ d = Predefined.length)

/-- What is known of the types of locals is what is written. -/
structure Regular (g : Globals) : Prop where
  param : ∀ site d, g.typeOf (.param site d) = d.type.typeIn g.classes
  var : ∀ site d, g.typeOf (.var site d) = d.type.typeIn g.classes

end Globals

/-- The state of resolution when it comes to a region: names mean what they mean there, the types
of what can stand before a dot are as known, and nothing is bound in the region. -/
structure Models (g : Globals) (ctx : Resolving.Context) (locals : Scope) (n : Naming)
    (region : Region) : Prop where
  lookup : ∀ name, n.table.retrieve? name = g.lookup ctx locals name
  classes : ∀ name, n.table.retrieveClass? name = g.classes name
  members : ∀ c name, n.table.retrieveMember? c name = g.members c name
  typeOf : ∀ d, g.Owner locals d → d.type n.bindings.get? = g.typeOf d
  apart : ∀ d, g.Owner locals d → ∀ home, d.home = .user home → home.below.Apart region
  free : n.bindings.Free region

/-- A step that binds the names of some uses, all in a region. -/
structure Settles (g : Globals) (uses : List Use) (region : Region) (n n' : Naming) : Prop where
  table : n'.table = n.table
  grown : n.bindings.Grown region n'.bindings
  within : ∀ u ∈ uses, u.Within region
  bound : ∀ u ∈ uses, u.Bound g n'.bindings.get?

theorem TypeExpr.view_congr {b b' : Site → Option Decl} {site : Site} {t : TypeExpr}
    (same : ∀ s, site <:+ s → b' s = b s) : t.view b' site = t.view b site := by
  induction t generalizing site with
  | base | unknown => rfl
  | named name pos =>
    have name := same site.className (site.suffix_child 0)
    simp only [view, name]
  | array element pos ih =>
    have inner : element.view b' site.element = element.view b site.element :=
      ih fun s hs => same s ((site.suffix_child 0).trans hs)
    simp only [view, inner]

/-- The type of a declaration hangs on what is bound below it only. -/
theorem Decl.type_congr {b b' : Site → Option Decl} {d : Decl}
    (same : ∀ home, d.home = .user home → ∀ s, home <:+ s → b' s = b s) :
    d.type b' = d.type b := by
  have written : ∀ (home : Home) (t : TypeExpr),
      (∀ site, home = .user site → ∀ s, site <:+ s → b' s = b s) →
      t.viewAt b' home = t.viewAt b home := by
    intro home t agree
    cases home with
    | predefined => rfl
    | user site =>
      exact TypeExpr.view_congr fun s hs => agree site rfl s ((site.suffix_child 0).trans hs)
  cases d with
  | cls ref => rfl
  | field home d => exact written home _ same
  | method home d => exact written home _ same
  | param site d => exact written (.user site) _ same
  | var site d => exact written (.user site) _ same

/-- The type of a declaration stays as it is when something else is bound. -/
theorem Decl.type_grown {m m' : SiteMap Decl} {a region : Region} {d : Decl}
    (grown : SiteMap.Grown a m m') (sub : a.Sub region)
    (apart : ∀ home, d.home = .user home → home.below.Apart region) :
    d.type m'.get? = d.type m.get? :=
  type_congr fun home hh s hs => grown.same fun inside => apart home hh s hs (sub s inside)

namespace Models

variable {g : Globals} {ctx : Resolving.Context} {locals : Scope} {n n' : Naming}
variable {a b region : Region}

theorem down (h : Models g ctx locals n b) (sub : a.Sub b) : Models g ctx locals n a :=
  { h with
    apart := fun d hd home hh => (h.apart d hd home hh).mono (.refl _) sub
    free := h.free.down sub }

/-- What was settled in one region leaves the state ready for a region apart. -/
theorem after (h : Models g ctx locals n region) {uses : List Use}
    (settled : Settles g uses a n n') (ha : a.Sub region) (hb : b.Sub region)
    (apart : a.Apart b) : Models g ctx locals n' b where
  lookup := settled.table ▸ h.lookup
  classes := settled.table ▸ h.classes
  members := settled.table ▸ h.members
  typeOf d hd := (Decl.type_grown settled.grown ha (h.apart d hd)).trans (h.typeOf d hd)
  apart := fun d hd home hh => (h.apart d hd home hh).mono (.refl _) hb
  free := (h.free.down hb).grown settled.grown apart.symm

end Models

namespace Settles

variable {g : Globals} {us vs : List Use} {n n' n'' : Naming} {a b region : Region}

theorem up (h : Settles g us a n n') (sub : a.Sub b) : Settles g us b n n' :=
  ⟨h.table, h.grown.up sub, fun u hu => (h.within u hu).mono sub, h.bound⟩

theorem append (h : Settles g us a n n') (h' : Settles g vs b n' n'') (apart : a.Apart b)
    (ha : a.Sub region) (hb : b.Sub region) : Settles g (us ++ vs) region n n'' where
  table := h'.table.trans h.table
  grown := (h.grown.up ha).trans (h'.grown.up hb)
  within := by
    intro u hu
    rcases List.mem_append.mp hu with hu | hu
    · exact (h.within u hu).mono ha
    · exact (h'.within u hu).mono hb
  bound := by
    intro u hu
    rcases List.mem_append.mp hu with hu | hu
    · exact (h.bound u hu).congr (h.within u hu) fun t ht => h'.grown.same (apart t ht)
    · exact h'.bound u hu

theorem nil (g : Globals) (region : Region) (n : Naming) : Settles g [] region n n :=
  ⟨rfl, .refl region _, by simp, by simp⟩

end Settles

/-- The same step seen from another table. -/
theorem Settles.retable {g : Globals} {us : List Use} {region : Region} {n n' : Naming}
    (h : Settles g us region n n') (t : ScopeTable) :
    Settles g us region { n with table := t } { n' with table := t } :=
  ⟨rfl, h.grown, h.within, h.bound⟩

/-- A step of resolution that ends exactly if some uses are without fault. It settles them and
leaves a table. -/
abbrev Leads {α : Type} (g : Globals) (x : Resolving α) (uses : List Use) (region : Region)
    (n : Naming) (t : ScopeTable) : Prop :=
  Decides x n (∀ u ∈ uses, u.Ok g) fun _ n' => Settles g uses region { n with table := t } n'

/-- A step that leaves the table as it is. -/
abbrev Resolves {α : Type} (g : Globals) (x : Resolving α) (uses : List Use) (region : Region)
    (n : Naming) : Prop :=
  Leads g x uses region n n.table

section Steps

variable {α β : Type} {g : Globals} {us vs : List Use} {n : Naming} {a b region : Region}
variable {x : Resolving α} {y : Resolving β} {t u : ScopeTable}

theorem Leads.up (h : Leads g x us a n t) (sub : a.Sub b) : Leads g x us b n t :=
  h.mono fun _ _ _ settled => settled.up sub

/-- One step after another, in regions apart. -/
theorem Leads.seq (first : Leads g x us a n t)
    (next : (∀ u ∈ us, u.Ok g) → ∀ n', Settles g us a { n with table := t } n' →
      Leads g y vs b n' u)
    (apart : a.Apart b) (ha : a.Sub region) (hb : b.Sub region) :
    Leads g (x >>= fun _ => y) (us ++ vs) region n u := by
  have both := first.bind
    (Q := fun _ n'' => Settles g (us ++ vs) region { n with table := u } n'')
    fun ok _ n' settled => (next ok n' settled).mono fun _ _ _ settled' =>
      (settled.retable u).append settled' apart ha hb
  refine both.congr ?_
  simp only [List.mem_append, or_imp, forall_and]

theorem Resolves.seq (first : Resolves g x us a n)
    (next : (∀ u ∈ us, u.Ok g) → ∀ n', Settles g us a n n' → Resolves g y vs b n')
    (apart : a.Apart b) (ha : a.Sub region) (hb : b.Sub region) :
    Resolves g (x >>= fun _ => y) (us ++ vs) region n :=
  Leads.seq first (fun ok n' settled => settled.table ▸ next ok n' settled) apart ha hb

/-- One step after another where names mean what they are to mean before both of them. -/
theorem Models.seq {ctx : Resolving.Context} {locals : Scope} (h : Models g ctx locals n region)
    (first : Models g ctx locals n a → Resolves g x us a n)
    (next : ∀ n', Models g ctx locals n' b → Resolves g y vs b n')
    (apart : a.Apart b) (ha : a.Sub region) (hb : b.Sub region) :
    Resolves g (x >>= fun _ => y) (us ++ vs) region n :=
  Resolves.seq (first (h.down ha)) (fun _ n' settled => next n' (h.after settled ha hb apart))
    apart ha hb

theorem Resolves.nil : Resolves g (pure ()) [] region n :=
  (Decides.pure (P := fun _ n' => Settles g [] region n n') (Settles.nil g region n)).congr
    (by simp)

end Steps

namespace Globals

variable {g : Globals} {ctx : Resolving.Context} {locals : Scope} {c : ClassRef} {name : String}
variable {d : Decl}

theorem members_of_memberOf (h : g.memberOf? ctx c name = some d) :
    g.members c.name name = some d := by
  obtain ⟨m, member, h⟩ := Option.bind_eq_some_iff.mp h
  split at h
  · cases h
  · cases h
    exact member

theorem memberOf_of_memberOfClass (h : g.memberOfClass? ctx c name = some d) :
    g.memberOf? ctx c name = some d := by
  obtain ⟨m, member, h⟩ := Option.bind_eq_some_iff.mp h
  split at h
  · cases h
    exact member
  · cases h

theorem lookup_of_nameDecl (h : g.nameDecl? ctx locals name = some d) :
    g.lookup ctx locals name = some d := by
  obtain ⟨m, found, h⟩ := Option.bind_eq_some_iff.mp h
  split at h
  · cases h
  · split at h
    · cases h
    · cases h
      exact found

/-- What is initialized has no meaning yet. -/
theorem initializing_ne_of_nameDecl (h : g.nameDecl? ctx locals name = some d) :
    ctx.initializing ≠ some d := by
  intro same
  obtain ⟨m, -, h⟩ := Option.bind_eq_some_iff.mp h
  split at h
  · cases h
  · rename_i other
    split at h
    · cases h
    · cases h
      exact other same

/-- What stands after a dot is a member of a class, or the length of an array. -/
theorem member_of_memberAfter {qualifier : Reference} {base : Decl}
    (h : g.memberAfter? ctx qualifier base name = some (some d)) :
    (∃ c, g.memberOf? ctx c name = some d) ∨ d = Predefined.length := by
  have value : ∀ owner, g.memberOfValue? ctx owner name = some (some d) →
      (∃ c, g.memberOf? ctx c name = some d) ∨ d = Predefined.length := by
    intro owner h
    unfold memberOfValue? at h
    split at h
    · split at h
      · cases h
        exact .inr rfl
      · cases h
    · rename_i c _
      obtain ⟨m, member, same⟩ := Option.map_eq_some_iff.mp h
      cases same
      exact .inl ⟨c, member⟩
    · cases h
    · cases h
  unfold memberAfter? at h
  split at h
  · cases h
  · obtain ⟨m, member, same⟩ := Option.map_eq_some_iff.mp h
    cases same
    exact .inl ⟨ctx.cls, member⟩
  · obtain ⟨m, member, same⟩ := Option.map_eq_some_iff.mp h
    cases same
    exact .inl ⟨_, memberOf_of_memberOfClass member⟩
  · exact value base h

/-- What a name by itself is used for is a class, or has its name from the locals or from some
class. -/
theorem origin_of_nameDecl {name : String} (h : g.nameDecl? ctx locals name = some d)
    (value : ∀ c, d ≠ .cls c) :
    (∃ name, locals.lookup name = some d) ∨ ∃ c name, g.members c name = some d := by
  have found := lookup_of_nameDecl h
  rw [lookup, Option.or_eq_some_iff, Option.or_eq_some_iff] at found
  rcases found with found | ⟨-, found | ⟨-, found⟩⟩
  · exact .inl ⟨_, found⟩
  · exact .inr ⟨_, _, found⟩
  · obtain ⟨c, -, same⟩ := Option.map_eq_some_iff.mp found
    exact absurd same.symm (value c)

/-- What a reference denotes is a class, or has its name from the locals or from some class. -/
theorem origin_of_denote {r : Reference} (h : r.denote? g ctx locals = some (some d))
    (value : ∀ c, d ≠ .cls c) : (∃ name, locals.lookup name = some d) ∨
      (∃ c name, g.members c name = some d) ∨ d = Predefined.length := by
  cases r with
  | this pos =>
    simp only [Reference.denote?] at h
    split at h
    · cases h
    · cases h
      exact absurd rfl (value ctx.cls)
  | ident name pos =>
    obtain ⟨m, found, same⟩ := Option.map_eq_some_iff.mp h
    cases same
    exact (origin_of_nameDecl found value).imp_right .inl
  | qualified qualifier name pos =>
    simp only [Reference.denote?] at h
    split at h
    · cases h
    · cases h
    · rcases member_of_memberAfter h with ⟨c, member⟩ | length
      · exact .inr (.inl ⟨_, _, members_of_memberOf member⟩)
      · exact .inr (.inr length)
  | unknown kind pos => cases h

theorem owner_of_denote {r : Reference} (h : r.denote? g ctx locals = some (some d))
    (value : ∀ c, d ≠ .cls c) (data : d.isMethod = false) : g.Owner locals d :=
  ⟨data, origin_of_denote h value⟩

end Globals

namespace Resolving

variable {g : Globals} {ctx : Context} {locals : Scope} {n : Naming} {site : Site}

theorem run_table (w : Work Naming) : EStateM.run table w = .ok w.own.table w := rfl

theorem run_bound (w : Work Naming) : EStateM.run bound w = .ok w.own.bindings.get? w := rfl

theorem run_reportName (fault : NameFault) (pos : Nat) (n : Naming) :
    EStateM.run (reportName fault pos) (strict n) = .error (.aborted ⟨.error, .naming fault, pos⟩)
      ⟨(Log.addError { failFast := true } (.naming fault) pos), n⟩ := by
  rw [reportName, run_report]
  rfl

/-- Binding a name that is not bound yet. -/
theorem run_bind {s : Site} (free : n.bindings.get? s = none) (d : Decl) :
    EStateM.run (bind s d) (strict n) =
      .ok d (strict { n with bindings := n.bindings.fill s d }) := by
  have now := SiteMap.get?_fill_free free d
  change EStateM.Result.ok (((n.bindings.fill s d).get? s).getD d) _ = _
  rw [now]
  rfl

section Table

variable {d : Decl} {c : ClassRef} {t : ScopeTable}

theorem run_enter_ok (h : n.table.enter? d = .ok t) (pos : Nat) :
    EStateM.run (enter d pos) (strict n) = .ok true (strict { n with table := t }) := by
  rw [enter, EStateM.run_bind, run_table]
  simp only [strict, h]
  rfl

theorem run_enter_error {fault : NameFault} (h : n.table.enter? d = .error fault) (pos : Nat) :
    EStateM.run (enter d pos) (strict n) =
      EStateM.run (do reportName fault pos; return false) (strict n) := by
  rw [enter, EStateM.run_bind, run_table]
  simp only [strict, h]

theorem run_registerClass_ok (h : n.table.registerClass? c = .ok t) :
    EStateM.run (registerClass c) (strict n) = .ok true (strict { n with table := t }) := by
  rw [registerClass, EStateM.run_bind, run_table]
  simp only [strict, h]
  rfl

theorem run_registerClass_error {fault : NameFault} (h : n.table.registerClass? c = .error fault) :
    EStateM.run (registerClass c) (strict n) =
      EStateM.run (do reportName fault c.pos; return false) (strict n) := by
  rw [registerClass, EStateM.run_bind, run_table]
  simp only [strict, h]

theorem run_registerMember_ok (h : n.table.registerMember? c d = .ok t) :
    EStateM.run (registerMember c d) (strict n) = .ok true (strict { n with table := t }) := by
  rw [registerMember, EStateM.run_bind, run_table]
  simp only [strict, h]
  rfl

theorem run_registerMember_error {previous : Decl}
    (h : n.table.registerMember? c d = .error previous) :
    EStateM.run (registerMember c d) (strict n) = EStateM.run (do
      Pass.note (.naming (.previousMember d.name)) previous.pos
      reportName (.duplicateMember d.name c.name) d.pos
      return false) (strict n) := by
  rw [registerMember, EStateM.run_bind, run_table]
  simp only [strict, h]

theorem run_closeScope (h : n.table.closeScope? = .ok t) :
    EStateM.run closeScope (strict n) = .ok () (strict { n with table := t }) := by
  rw [closeScope, EStateM.run_bind, run_table]
  simp only [strict, h]
  rfl
end Table

theorem resolveType_resolves (classes : ∀ name, n.table.retrieveClass? name = g.classes name)
    (free : n.bindings.Free site.below) (t : TypeExpr) :
    Resolves g (resolveType site t) [.type site t] site.below n := by
  induction t generalizing site with
  | base b pos =>
    refine Decides.ok () n rfl (by simp [Use.Ok, TypeExpr.Known]) ?_
    exact ⟨rfl, .refl _ _, by simp [Use.Within, Region.Sub.refl],
      by simp [Use.Bound, TypeExpr.classNames]⟩
  | unknown kind pos => exact Decides.error ⟨_, _, rfl⟩ (by simp [Use.Ok, TypeExpr.Known])
  | array element pos ih =>
    have sub : site.element.below.Sub site.below := site.child_sub 0
    refine ((ih (free.down sub)).mono fun _ _ n' settled => ?_).congr
      (by simp [Use.Ok, TypeExpr.Known])
    have bound := settled.bound
    refine ⟨settled.table, settled.grown.up sub, by simp [Use.Within, Region.Sub.refl], ?_⟩
    simpa [Use.Bound, TypeExpr.classNames] using bound
  | named name pos =>
    have unbound : n.bindings.get? site.className = none := free _ (site.suffix_child 0)
    cases known : g.classes name.spelling with
    | none =>
      have run : EStateM.run (resolveType site (.named name pos)) (strict n) =
          EStateM.run (reportName (.undeclaredClass name.spelling) pos) (strict n) := by
        rw [resolveType, EStateM.run_bind, run_bound]
        simp only [strict, unbound, EStateM.run_bind, run_table, classes, known]
      exact Decides.error ⟨_, _, run.trans (run_reportName _ _ _)⟩
        (by simp [Use.Ok, TypeExpr.Known, known])
    | some c =>
      have run : EStateM.run (resolveType site (.named name pos)) (strict n) =
          .ok () (strict { n with bindings := n.bindings.fill site.className (.cls c) }) := by
        have bind := run_bind unbound (.cls c)
        simp only [strict] at bind
        rw [resolveType, EStateM.run_bind, run_bound]
        simp only [strict, unbound, EStateM.run_bind, run_table, classes, known, bind,
          EStateM.run_pure]
      refine Decides.ok () _ run (by simp [Use.Ok, TypeExpr.Known, known]) ?_
      refine ⟨rfl, (SiteMap.grown_fill _ _ _).up (site.child_sub 0),
        by simp [Use.Within, Region.Sub.refl], ?_⟩
      simp [Use.Bound, TypeExpr.classNames, SiteMap.get?_fill_free unbound, known]

theorem answers_table {α : Type} {f : ScopeTable → Resolving α} {o : Option α}
    (h : Answers (f n.table) n o) : Answers (table >>= f) n o := by
  cases o <;> exact h

theorem answers_bound {α : Type} {f : (Site → Option Decl) → Resolving α} {o : Option α}
    (h : Answers (f n.bindings.get?) n o) : Answers (bound >>= f) n o := by
  cases o <;> exact h

theorem memberOf_answers (members : ∀ c name, n.table.retrieveMember? c name = g.members c name)
    (c : ClassRef) (name : Identifier) :
    Answers (memberOf ctx c name) n ((g.memberOf? ctx c name.spelling).map some) := by
  refine answers_table ?_
  rw [members, Globals.memberOf?]
  cases g.members c.name name.spelling with
  | none => exact (Answers.report _ _ n).bind_none
  | some d =>
    simp only [Option.bind_some]
    split
    · exact (Answers.report _ _ n).bind_none
    · exact Answers.pure _ n

theorem memberOfClass_answers
    (members : ∀ c name, n.table.retrieveMember? c name = g.members c name)
    (c : ClassRef) (name : Identifier) :
    Answers (memberOfClass ctx c name) n ((g.memberOfClass? ctx c name.spelling).map some) := by
  have first : Answers (memberOf ctx c name) n _ := memberOf_answers members c name
  rw [Globals.memberOfClass?]
  cases member : g.memberOf? ctx c name.spelling with
  | none =>
    rw [member] at first
    exact first.bind_none
  | some d =>
    rw [member] at first
    refine first.bind_some ?_
    simp only [Option.bind_some]
    split
    · exact Answers.pure _ n
    · exact (Answers.report _ _ n).bind_none

theorem memberOfValue_answers
    (members : ∀ c name, n.table.retrieveMember? c name = g.members c name) {owner : Decl}
    (type : owner.type n.bindings.get? = g.typeOf owner) (pos : Nat) (name : Identifier) :
    Answers (memberOfValue ctx owner pos name) n (g.memberOfValue? ctx owner name.spelling) := by
  refine answers_bound ?_
  rw [type, Globals.memberOfValue?]
  cases g.typeOf owner with
  | base b => exact (Answers.report _ _ n).bind_none
  | array element =>
    simp only
    split
    · exact Answers.pure _ n
    · exact (Answers.report _ _ n).bind_none
  | cls text known =>
    cases known with
    | none => exact Answers.pure _ n
    | some c => exact memberOf_answers members c name

theorem memberAfter_answers
    (members : ∀ c name, n.table.retrieveMember? c name = g.members c name) {base : Decl}
    (type : (∀ c, base ≠ .cls c) → base.isMethod = false →
      base.type n.bindings.get? = g.typeOf base)
    (qualifier : Reference) (name : Identifier) :
    Answers (memberAfter ctx qualifier base name) n
      (g.memberAfter? ctx qualifier base name.spelling) := by
  cases base with
  | method home head =>
    cases qualifier <;> exact (Answers.report _ _ n).bind_none
  | cls c =>
    cases qualifier with
    | this => exact memberOf_answers members ctx.cls name
    | ident | qualified | unknown => exact memberOfClass_answers members c name
  | field home d | param home d | var home d =>
    have known := type (by simp) rfl
    cases qualifier with
    | this => exact memberOf_answers members ctx.cls name
    | ident | qualified | unknown => exact memberOfValue_answers members known _ name

/-- The declaration of a name that stands by itself, without binding it. -/
def nameOf (ctx : Context) (name : Identifier) : Resolving (Option Decl) := do
  match (← table).retrieve? name.spelling with
  | none =>
    reportName (.undeclared name.spelling) name.pos
    return none
  | some d =>
    if ctx.initializing = some d then
      reportName (.ownInitializer name.spelling) name.pos
      return none
    else if d.isMember && d.isStatic != ctx.isStatic then
      if ctx.isStatic then reportName (.instanceFromStatic name.spelling) name.pos
      else reportName (.unqualifiedStatic name.spelling ctx.cls.name) name.pos
      return none
    else return some d

/-- Binds the name of a reference and then the reference itself. -/
def settle (site : Site) : Option Decl → Resolving (Option Decl)
  | none => return none
  | some d => do
    let d ← bind site.name d
    return some (← bind site d)

/-- What is done at a qualified reference once its qualifier has been resolved. -/
def linkTo (ctx : Context) (site : Site) (qualifier : Reference) (name : Identifier) :
    Option Decl → Resolving (Option Decl)
  | none => return none
  | some base => memberAfter ctx qualifier base name >>= settle site

theorem resolveRef_this_static (static : ctx.isStatic = true) (site : Site) (pos : Nat) :
    resolveRef ctx site (.this pos) = do
      reportName .thisInStatic pos
      return none := by
  rw [resolveRef, static]
  rfl

theorem resolveRef_this_object (object : ctx.isStatic = false) (site : Site) (pos : Nat) :
    resolveRef ctx site (.this pos) = do return some (← bind site (.cls ctx.cls)) := by
  rw [resolveRef, object]
  rfl

theorem resolveRef_ident (site : Site) (name : Identifier) (pos : Nat) :
    resolveRef ctx site (.ident name pos) = nameOf ctx name >>= settle site := by
  unfold resolveRef resolveName nameOf
  simp only [bind_assoc]
  congr 1
  funext t
  cases t.retrieve? name.spelling with
  | none => simp only [bind_assoc, pure_bind]; rfl
  | some d =>
    dsimp only
    split
    · simp only [bind_assoc, pure_bind]; rfl
    · split
      · split <;> simp only [bind_assoc, pure_bind] <;> rfl
      · simp only [bind_assoc, pure_bind]; rfl

theorem resolveRef_qualified (site : Site) (qualifier : Reference) (name : Identifier) (pos : Nat) :
    resolveRef ctx site (.qualified qualifier name pos) =
      resolveRef ctx site.qualifier qualifier >>= linkTo ctx site qualifier name := by
  rw [resolveRef]
  rfl

theorem nameOf_answers (lookup : ∀ name, n.table.retrieve? name = g.lookup ctx locals name)
    (name : Identifier) :
    Answers (nameOf ctx name) n ((g.nameDecl? ctx locals name.spelling).map some) := by
  refine answers_table ?_
  rw [lookup, Globals.nameDecl?]
  cases g.lookup ctx locals name.spelling with
  | none => exact (Answers.report _ _ n).bind_none
  | some d =>
    simp only [Option.bind_some]
    split
    · exact (Answers.report _ _ n).bind_none
    · split
      · cases ctx.isStatic <;> exact (Answers.report _ _ n).bind_none
      · exact Answers.pure _ n

theorem run_settle_free (own : n.bindings.get? site = none)
    (name : n.bindings.get? site.name = none) (d : Decl) :
    EStateM.run (settle site (some d)) (strict n) =
      .ok (some d) (strict { n with bindings := (n.bindings.fill site.name d).fill site d }) := by
  have apart : site ≠ site.name := (site.child_ne_self 1).symm
  have still : (n.bindings.fill site.name d).get? site = none := by
    rw [SiteMap.get?_fill_of_ne _ _ apart, own]
  have last := run_bind (n := { n with bindings := n.bindings.fill site.name d }) still d
  simp only [settle, EStateM.run_bind, run_bind name, last, EStateM.run_pure]

/-- A name and its reference bound to the same declaration. -/
theorem fill_slots {m : SiteMap Decl} (own : m.get? site = none) (name : m.get? site.name = none)
    (d : Decl) : let m' := (m.fill site.name d).fill site d
    m.Grown site.below m' ∧ (∀ slot ∈ [site, site.name], m'.get? slot = some d) ∧
      ∀ t, site.qualifier.below t → m'.get? t = m.get? t := by
  have apart : site.name ≠ site := site.child_ne_self 1
  refine ⟨?_, ?_, ?_⟩
  · exact ((SiteMap.grown_fill m site.name d).up (site.child_sub 1)).trans
      (SiteMap.grown_fill _ site d)
  · intro slot hs
    rcases List.mem_cons.mp hs with rfl | hs
    · rw [SiteMap.get?_fill_free]
      rw [SiteMap.get?_fill_of_ne _ _ apart.symm, own]
    · obtain rfl := List.mem_singleton.mp hs
      rw [SiteMap.get?_fill_of_ne _ _ apart, SiteMap.get?_fill_free name]
  · intro t ht
    have notName : t ≠ site.name := by
      rintro rfl
      exact (Site.apart_child (s := site) (k := 0) (l := 1) (by decide)).not_suffix ht
    have notSite : t ≠ site := by
      rintro rfl
      exact t.not_child_suffix 0 ht
    rw [SiteMap.get?_fill_of_ne _ _ notSite, SiteMap.get?_fill_of_ne _ _ notName]

/-- The slots of a reference whose qualifier was settled, once its own are. -/
theorem settles_qualified {n' n'' : Naming} {qualifier : Reference} {name : Identifier} {pos : Nat}
    (settled : Settles g [.ref ctx locals site.qualifier qualifier] site.qualifier.below n n')
    (table : n''.table = n'.table)
    (grown : n'.bindings.Grown site.below n''.bindings)
    (inner : ∀ t, site.qualifier.below t → n''.bindings.get? t = n'.bindings.get? t)
    (own : ∀ slot ∈ [site, site.name], n''.bindings.get? slot =
      ((Reference.qualified qualifier name pos).denote? g ctx locals).join) :
    Settles g [.ref ctx locals site (.qualified qualifier name pos)] site.below n n'' where
  table := table.trans settled.table
  grown := (settled.grown.up (site.child_sub 0)).trans grown
  within := by simp [Use.Within, Region.Sub.refl]
  bound := by
    intro u hu
    obtain rfl := List.mem_singleton.mp hu
    intro l hl slot hs
    rcases List.mem_cons.mp hl with rfl | hl
    · exact own slot hs
    · have below := (Reference.links_below l hl).trans (Reference.slots_below slot hs)
      rw [inner slot below]
      exact settled.bound _ (List.mem_singleton_self _) l hl slot hs

/-- The answer and the state that resolving a reference ends with. -/
abbrev Refers (g : Globals) (ctx : Context) (locals : Scope) (site : Site) (r : Reference)
    (n : Naming) (o : Option Decl) (n' : Naming) : Prop :=
  r.denote? g ctx locals = some o ∧ Settles g [.ref ctx locals site r] site.below n n'

theorem this_decides (models : Models g ctx locals n site.below) (pos : Nat) :
    Decides (resolveRef ctx site (.this pos)) n ((Reference.this pos).denote? g ctx locals).isSome
      (Refers g ctx locals site (.this pos) n) := by
  cases static : ctx.isStatic with
  | true =>
    rw [resolveRef_this_static static]
    exact Decides.error (Answers.report _ _ n).bind_none (by simp [Reference.denote?, static])
  | false =>
    rw [resolveRef_this_object static]
    have free := models.free site (List.suffix_refl site)
    have meaning : (Reference.this pos).denote? g ctx locals = some (some (.cls ctx.cls)) := by
      simp [Reference.denote?, static]
    refine Decides.ok _ { n with bindings := n.bindings.fill site (.cls ctx.cls) }
      ?_ (by simp [meaning])
      ⟨meaning, rfl, SiteMap.grown_fill _ _ _, ?_, ?_⟩
    · rw [EStateM.run_bind, run_bind free]
      rfl
    · simp [Use.Within, Region.Sub.refl]
    · simp [Use.Bound, Reference.links, Reference.slots, meaning, SiteMap.get?_fill_free free]

theorem ident_decides (models : Models g ctx locals n site.below) (name : Identifier) (pos : Nat) :
    Decides (resolveRef ctx site (.ident name pos)) n
      ((Reference.ident name pos).denote? g ctx locals).isSome
      (Refers g ctx locals site (.ident name pos) n) := by
  have own := models.free site (List.suffix_refl site)
  have free := models.free site.name (site.suffix_child 1)
  have first := nameOf_answers models.lookup name
  rw [resolveRef_ident]
  cases meaning : g.nameDecl? ctx locals name.spelling with
  | none =>
    rw [meaning] at first
    exact Decides.error first.bind_none (by simp [Reference.denote?, meaning])
  | some d =>
    rw [meaning] at first
    have denoted : (Reference.ident name pos).denote? g ctx locals = some (some d) := by
      simp [Reference.denote?, meaning]
    obtain ⟨grown, slots, -⟩ := fill_slots own free d
    have named : EStateM.run (nameOf ctx name) (strict n) = .ok (some d) (strict n) := first
    refine Decides.ok (some d) { n with bindings := (n.bindings.fill site.name d).fill site d } ?_
      (by simp [denoted]) ⟨denoted, rfl, grown, ?_, ?_⟩
    · rw [EStateM.run_bind, named]
      exact run_settle_free own free d
    · simp [Use.Within, Region.Sub.refl]
    · simpa [Use.Bound, Reference.links, Reference.slots, denoted] using slots

/-- A qualifier is settled without the slots of what it qualifies. -/
theorem free_after (models : Models g ctx locals n site.below) {n' : Naming} {uses : List Use}
    (settled : Settles g uses site.qualifier.below n n') :
    n'.bindings.get? site = none ∧ n'.bindings.get? site.name = none := by
  have notName : ¬ site.qualifier.below site.name :=
    (Site.apart_child (s := site) (k := 0) (l := 1) (by decide)).not_suffix
  rw [settled.grown.same (site.not_child_suffix 0), settled.grown.same notName]
  exact ⟨models.free site (List.suffix_refl site), models.free site.name (site.suffix_child 1)⟩

/-- The last link of a chain, whose qualifier denotes something and has been settled. -/
theorem linkTo_decides (models : Models g ctx locals n site.below) {n' : Naming}
    {qualifier : Reference} {name : Identifier} {pos : Nat} {base : Decl}
    (meaning : qualifier.denote? g ctx locals = some (some base))
    (settled : Settles g [.ref ctx locals site.qualifier qualifier] site.qualifier.below n n') :
    Decides (linkTo ctx site qualifier name (some base)) n'
      ((Reference.qualified qualifier name pos).denote? g ctx locals).isSome
      (Refers g ctx locals site (.qualified qualifier name pos) n) := by
  have sub : site.qualifier.below.Sub site.below := site.child_sub 0
  have whole : (Reference.qualified qualifier name pos).denote? g ctx locals =
      g.memberAfter? ctx qualifier base name.spelling := by
    simp [Reference.denote?, meaning]
  obtain ⟨here, there⟩ := free_after models settled
  have known : (∀ c, base ≠ .cls c) → base.isMethod = false →
      base.type n'.bindings.get? = g.typeOf base := by
    intro value data
    have owner := Globals.owner_of_denote meaning value data
    rw [← models.typeOf base owner]
    exact Decl.type_grown settled.grown sub (models.apart base owner)
  have member : Answers (memberAfter ctx qualifier base name) n' _ :=
    memberAfter_answers (settled.table ▸ models.members) known qualifier name
  rw [whole]
  refine member.decides.before ?_
  rintro - o n' ⟨answer, rfl⟩
  cases o with
  | none =>
    refine Decides.ok _ _ rfl trivial ⟨whole.trans answer, ?_⟩
    refine settles_qualified settled rfl (.refl _ _) (fun _ _ => rfl) ?_
    simp [whole, answer, here, there]
  | some d =>
    obtain ⟨grown, slots, inner⟩ := fill_slots here there d
    refine Decides.ok _ _ (run_settle_free here there d) trivial ⟨whole.trans answer, ?_⟩
    refine settles_qualified settled rfl grown inner ?_
    simpa [whole, answer] using slots

theorem resolveRef_decides (models : Models g ctx locals n site.below) (r : Reference) :
    Decides (resolveRef ctx site r) n (r.denote? g ctx locals).isSome
      (Refers g ctx locals site r n) := by
  induction r generalizing site with
  | unknown kind pos => exact Decides.error ⟨_, _, rfl⟩ (by simp [Reference.denote?])
  | this pos => exact this_decides models pos
  | ident name pos => exact ident_decides models name pos
  | qualified qualifier name pos ih =>
    have first := ih (models.down (site.child_sub 0))
    rw [resolveRef_qualified]
    cases meaning : qualifier.denote? g ctx locals with
    | none =>
      rw [meaning] at first
      exact first.bind_stop (by simp) (by simp [Reference.denote?, meaning])
    | some denoted =>
      rw [meaning] at first
      refine first.bind_of_imp (fun _ => rfl) ?_
      rintro - o n' ⟨answer, settled⟩
      cases meaning.symm.trans answer
      cases denoted with
      | some base => exact linkTo_decides models meaning settled
      | none =>
        -- a link after one that is missed is left alone
        have whole : (Reference.qualified qualifier name pos).denote? g ctx locals = some none := by
          simp [Reference.denote?, meaning]
        obtain ⟨here, there⟩ := free_after models settled
        refine Decides.ok _ n' rfl (by simp [whole]) ⟨whole, ?_⟩
        exact settles_qualified settled rfl (.refl _ _)
          (fun _ _ => rfl) (by simp [whole, here, there])

theorem resolveRef_resolves (models : Models g ctx locals n site.below) (r : Reference) :
    Resolves g (resolveRef ctx site r) [.ref ctx locals site r] site.below n :=
  ((resolveRef_decides models r).mono fun _ _ _ h => h.2).congr (by simp [Use.Ok])

/-- A reference that is called is to denote a method, if it denotes anything yet. -/
theorem resolveMethod_resolves (models : Models g ctx locals n site.below) (r : Reference) :
    Resolves g (resolveMethod ctx site r) [.callee ctx locals site r] site.below n := by
  have first := resolveRef_decides models r
  have callee : ∀ n', Settles g [.ref ctx locals site r] site.below n n' →
      Settles g [.callee ctx locals site r] site.below n n' := by
    intro n' settled
    refine ⟨settled.table, settled.grown, ?_, ?_⟩
    · simpa [Use.Within] using settled.within
    · simpa [Use.Bound] using settled.bound
  have both := first.bind (f := fun o => match o with
      | none => pure ()
      | some d => if !d.isMethod then reportName (.notMethod d.name) r.pos else pure ())
    (d := ∀ o, r.denote? g ctx locals = some o → ∀ d ∈ o, d.isMethod)
    (Q := fun _ n' => Settles g [.callee ctx locals site r] site.below n n') ?_
  · refine both.congr ?_
    simp only [List.mem_singleton, forall_eq, Use.Ok, Option.isSome_iff_exists]
    constructor
    · rintro ⟨⟨o, denoted⟩, all⟩
      exact ⟨o, denoted, all o denoted⟩
    · rintro ⟨o, denoted, method⟩
      refine ⟨⟨o, denoted⟩, fun o' denoted' => ?_⟩
      rw [denoted] at denoted'
      cases denoted'
      exact method
  · rintro - o n' ⟨denoted, settled⟩
    cases o with
    | none => exact Decides.ok () n' rfl (by simp [denoted]) (callee n' settled)
    | some d =>
      cases method : d.isMethod with
      | true =>
        simp only [method, Bool.not_true, Bool.false_eq_true, if_false]
        exact Decides.ok () n' rfl (by simp [denoted, method]) (callee n' settled)
      | false =>
        simp only [method, Bool.not_false, if_true]
        exact Decides.error ⟨_, _, run_reportName _ _ _⟩ (by simp [denoted, method])

end Resolving

end JamCompiler
