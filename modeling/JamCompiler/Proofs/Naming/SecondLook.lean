import JamCompiler.Proofs.Naming.SecondRun

/-!
# References in two runs

What a second run of resolution does at written types and references that the first run has bound.
It finds the same everywhere but at a link that was missed: there the first run leaves the reference
unbound without an error, while the second binds it or reports it, and goes on to the links after
it.
-/

namespace JamCompiler

open Pass

theorem SiteMap.fill_of_some {α : Type} {m : SiteMap α} {s : Site} {a : α}
    (known : m.get? s = some a) (b : α) : m.fill s b = m := by
  simp only [fill, known]

namespace Resolving

variable {bound : Site → Option Decl} {k : Nat} {t t' : ScopeTable} {m m' n n' : SiteMap Decl}
variable {ctx : Context} {site : Site} {d : Decl} {v : Option Decl} {e found : Log}

theorem ends_table (n : Naming) : Ends table n fun t n' => t = n.table ∧ n' = n := ⟨fun run => by
  cases run
  exact ⟨rfl, rfl⟩⟩

theorem ends_bound (n : Naming) : Ends Resolving.bound n fun b n' => b = n.bindings.get? ∧ n' = n :=
  ⟨fun run => by
    cases run
    exact ⟨rfl, rfl⟩⟩

theorem ends_reportName (fault : NameFault) (pos : Nat) (n : Naming) :
    Ends (reportName fault pos) n fun _ n' => n' = n := by
  refine ⟨fun run => ?_⟩
  rw [reportName, run_report] at run
  split at run
  · cases run
  · cases run
    rfl

theorem finishes_bind (s : Site) (d : Decl) (t : ScopeTable) (m : SiteMap Decl) :
    Finishes (Resolving.bind s d) ⟨t, m⟩ ((m.get? s).getD d) {} ⟨t, m.fill s d⟩ := by
  have known := SiteMap.get?_fill_self m s d
  unfold Finishes Resolving.bind
  simp only [EStateM.run_bind, run_modifyOwn, run_bound, known]
  rfl

/-- A step that binds in a region and leaves the table. -/
abbrev Binds {α : Type} (region : Region) (x : Resolving α) : Prop :=
  ∀ n, Ends x n fun _ n' => n'.table = n.table ∧ n.bindings.Grown region n'.bindings

namespace Binds

variable {α β : Type} {region : Region} {x : Resolving α} {f : α → Resolving β}

theorem pure (a : α) : Binds region (Pure.pure a) := fun _ => .pure ⟨rfl, .refl _ _⟩

theorem bind (first : Binds region x) (next : ∀ a, Binds region (f a)) :
    Binds region (x >>= f) := by
  intro n
  refine (first n).bind fun a n₁ h => (next a n₁).imp fun _ _ h' => ?_
  exact ⟨h'.1.trans h.1, h.2.trans h'.2⟩

theorem up {a b : Region} (h : Binds a x) (sub : a.Sub b) : Binds b x :=
  fun n => (h n).imp fun _ _ h => ⟨h.1, h.2.up sub⟩

theorem table : Binds region Resolving.table :=
  fun n => (ends_table n).imp fun _ _ h => by
    obtain ⟨-, rfl⟩ := h
    exact ⟨rfl, .refl _ _⟩

theorem read : Binds region Resolving.bound :=
  fun n => (ends_bound n).imp fun _ _ h => by
    obtain ⟨-, rfl⟩ := h
    exact ⟨rfl, .refl _ _⟩

theorem report (fault : NameFault) (pos : Nat) : Binds region (reportName fault pos) :=
  fun n => (ends_reportName fault pos n).imp fun _ _ h => by
    subst h
    exact ⟨rfl, .refl _ _⟩

theorem refuse (fault : NameFault) (pos : Nat) (a : α) :
    Binds region (do reportName fault pos; return a) :=
  (report fault pos).bind fun _ => .pure a

theorem filled {s : Site} (inside : region s) (d : Decl) : Binds region (Resolving.bind s d) := by
  have set : Binds region
      (Pass.modifyOwn fun n => { n with bindings := n.bindings.fill s d } : Resolving Unit) :=
    fun n => Ends.modifyOwn ⟨rfl, SiteMap.get?_fill_of_some, fun outside =>
      SiteMap.get?_fill_of_ne _ _ fun same => outside (same ▸ inside)⟩
  exact set.bind fun _ => read.bind fun _ => .pure _

end Binds

theorem binds_resolveType (site : Site) (type : TypeExpr) :
    Binds site.below (resolveType site type) := by
  induction type generalizing site with
  | base => exact .pure _
  | unknown => exact fun _ => .fatal
  | array element pos ih => exact (ih site.element).up (site.child_sub 0)
  | named name pos =>
    refine Binds.read.bind fun _ => ?_
    split
    · exact .pure _
    · refine Binds.table.bind fun _ => ?_
      split
      · exact (Binds.filled (site.suffix_child 0) _).bind fun _ => .pure _
      · exact .report _ _

/-- A written type that was resolved is resolved again, and nothing changes. -/
theorem again_resolveType (type : TypeExpr) {u : Unit} (free : m.Free site.below)
    (run : Finishes (resolveType site type) ⟨t, m⟩ u found ⟨t', m'⟩)
    (waits : ∀ s, site.below s → n.get? s = m'.get? s) :
    t' = t ∧ Finishes (resolveType site type) ⟨t, n⟩ u found ⟨t, n⟩ := by
  induction type generalizing site with
  | base =>
    obtain ⟨-, rfl, same⟩ := finishes_pure.mp run
    cases same
    exact ⟨rfl, rfl⟩
  | unknown => cases run
  | array element pos ih =>
    exact ih (free.down (site.child_sub 0)) run fun s hs => waits s (site.child_sub 0 s hs)
  | named name pos =>
    have unbound : m.get? site.className = none := free _ (site.suffix_child 0)
    have here := waits site.className (site.suffix_child 0)
    unfold Finishes at run ⊢
    simp only [resolveType, EStateM.run_bind, run_bound, unbound, run_table] at run ⊢
    cases known : t.retrieveClass? name.spelling with
    | some c =>
      simp only [known, EStateM.run_bind] at run
      have first := finishes_bind site.className (.cls c) t m
      unfold Finishes at first
      rw [first] at run
      cases run
      rw [SiteMap.get?_fill_free unbound] at here
      refine ⟨rfl, ?_⟩
      simp only [here]
      rfl
    | none =>
      simp only [known] at run
      obtain ⟨rfl, same⟩ := finishes_report.mp run
      cases same
      rw [unbound] at here
      refine ⟨rfl, ?_⟩
      simp only [here, EStateM.run_bind, run_table, known]
      rfl

/-- A written type, and a declaration in it. -/
theorem follows_resolveType (type : TypeExpr) :
    Follows bound k [.type site type] site.below (resolveType site type) where
  names := names_resolveType site type
  within := by simp [Use.references]
  grown n := (binds_resolveType site type n).imp fun _ _ h => h.2
  again {_ _ _ _ n _ _} beside run made := by
    obtain ⟨rfl, again⟩ := again_resolveType type beside.free run fun s hs => by
      rw [beside.waits s hs, made s hs]
    have none : ¬ MissedAmong bound [.type site type] :=
      (missedAmong_cons rfl).not.mpr not_missedAmong_nil
    exact ⟨_, _, n, again, .same none, fun _ => .inl⟩

/-- What a name denotes in a table, and what is recorded of it, whatever is bound. Nothing is
recorded exactly if it denotes something. -/
structure Judges (t : ScopeTable) (x : Resolving (Option Decl)) (v : Option Decl) (e : Log) :
    Prop where
  runs : ∀ m, Finishes x ⟨t, m⟩ v e ⟨t, m⟩
  source : ∀ d, v = some d → d.dataHome? = none ∨ t.Knows d
  notes : e.notes = []
  reported : v = none → e.errors ≠ []
  quiet : ∀ d, v = some d → e = {}

namespace Judges

variable {x : Resolving (Option Decl)}

theorem refuse (t : ScopeTable) (fault : NameFault) (pos : Nat) :
    Judges t (do reportName fault pos; return none) none
      (({} : Log).addError (.naming fault) pos) :=
  ⟨fun _ => rfl, nofun, rfl, fun _ => nofun, nofun⟩

theorem accept (source : d.dataHome? = none ∨ t.Knows d) : Judges t (return some d) (some d) {} :=
  ⟨fun _ => rfl, fun _ same => Option.some.inj same ▸ source, rfl, nofun, fun _ _ => rfl⟩

/-- A judgement that goes by the table. -/
theorem table {f : ScopeTable → Resolving (Option Decl)} (h : ∃ v e, Judges t (f t) v e) :
    ∃ v e, Judges t (Resolving.table >>= f) v e := by
  obtain ⟨v, e, h⟩ := h
  exact ⟨v, e, { h with runs := fun m => h.runs m }⟩

/-- A judgement of what was judged before. -/
theorem next {f : Option Decl → Resolving (Option Decl)} (h : Judges t x v e)
    (nothing : f none = pure none)
    (something : ∀ d, v = some d → ∃ w e', Judges t (f (some d)) w e') :
    ∃ w e', Judges t (x >>= f) w e' := by
  cases v with
  | none =>
    refine ⟨none, e, { h with runs := fun m => ?_ }⟩
    have run := h.runs m
    unfold Finishes at run ⊢
    rw [EStateM.run_bind, run]
    simp only [nothing]
    rfl
  | some d =>
    obtain ⟨w, e', then'⟩ := something d rfl
    refine ⟨w, e', { then' with runs := fun m => ?_ }⟩
    have run := h.runs m
    have run' := then'.runs m
    unfold Finishes at run run' ⊢
    rw [EStateM.run_bind, run, h.quiet d rfl]
    exact run'

end Judges

theorem judges_memberOf (ctx : Context) (c : ClassRef) (name : Identifier) (t : ScopeTable) :
    ∃ v e, Judges t (memberOf ctx c name) v e := by
  refine Judges.table ?_
  split
  · exact ⟨_, _, .refuse _ _ _⟩
  · rename_i d known
    split
    · exact ⟨_, _, .refuse _ _ _⟩
    · exact ⟨_, _, .accept (.inr (ScopeTable.knows_of_retrieveMember known))⟩

theorem judges_memberOfClass (ctx : Context) (c : ClassRef) (name : Identifier) (t : ScopeTable) :
    ∃ v e, Judges t (memberOfClass ctx c name) v e := by
  obtain ⟨v, e, judges⟩ := judges_memberOf ctx c name t
  refine judges.next rfl fun d same => ?_
  dsimp only
  split
  · exact ⟨_, _, .accept (judges.source d same)⟩
  · exact ⟨_, _, .refuse _ _ _⟩

theorem judges_nameOf (ctx : Context) (name : Identifier) (t : ScopeTable) :
    ∃ v e, Judges t (nameOf ctx name) v e := by
  refine Judges.table ?_
  split
  · exact ⟨_, _, .refuse _ _ _⟩
  · rename_i d known
    split
    · exact ⟨_, _, .refuse _ _ _⟩
    · split
      · split
        · exact ⟨_, _, .refuse _ _ _⟩
        · exact ⟨_, _, .refuse _ _ _⟩
      · exact ⟨_, _, .accept (.inr (ScopeTable.knows_of_retrieve known))⟩

/-- The member that a name denotes after a value of a type. -/
def memberOfType (ctx : Context) (owner : Decl) (pos : Nat) (name : Identifier) :
    ValueType → Resolving (Option Decl)
  | .array _ => do
    if name.spelling = Predefined.length.name then return some Predefined.length
    else
      reportName (.arrayMember name.spelling) name.pos
      return none
  | .cls _ (some c) => memberOf ctx c name
  | .cls _ none => return none
  | .base type => do
    reportName (.noMembers owner.name type.text) pos
    return none

theorem memberOfValue_eq (owner : Decl) (pos : Nat) (name : Identifier) :
    memberOfValue ctx owner pos name =
      Resolving.bound >>= fun b => memberOfType ctx owner pos name (owner.type b) := by
  unfold memberOfValue memberOfType
  congr 1
  funext b
  cases owner.type b with
  | cls text c => cases c <;> rfl
  | base | array => rfl

/-- Types after which a name denotes the same members. -/
def Alike (type type' : ValueType) : Prop :=
  type' = type ∨ ∃ element element', type = .array element ∧ type' = .array element'

theorem memberOfType_congr {type type' : ValueType} (same : Alike type type') (owner : Decl)
    (pos : Nat) (name : Identifier) :
    memberOfType ctx owner pos name type' = memberOfType ctx owner pos name type := by
  obtain rfl | ⟨_, _, rfl, rfl⟩ := same
  · rfl
  · rfl

theorem judges_memberOfType (ctx : Context) (owner : Decl) (pos : Nat) (name : Identifier)
    (t : ScopeTable) (type : ValueType) : (∃ text, type = .cls text none) ∨
      ∃ v e, Judges t (memberOfType ctx owner pos name type) v e := by
  match type with
  | .array _ =>
    rw [memberOfType]
    split
    · exact .inr ⟨_, _, .accept (.inl rfl)⟩
    · exact .inr ⟨_, _, .refuse _ _ _⟩
  | .cls _ (some c) => exact .inr (judges_memberOf ctx c name t)
  | .cls text none => exact .inl ⟨text, rfl⟩
  | .base _ => exact .inr ⟨_, _, .refuse _ _ _⟩

namespace OfTable

theorem memberOf (ctx : Context) (c : ClassRef) (name : Identifier) :
    OfTable (memberOf ctx c name) := by
  refine table.bind fun t => ?_
  split
  · exact refuse _ _ _
  · split
    · exact refuse _ _ _
    · exact .pure _

theorem memberOfClass (ctx : Context) (c : ClassRef) (name : Identifier) :
    OfTable (memberOfClass ctx c name) := by
  refine (memberOf ctx c name).bind fun o => ?_
  split
  · exact .pure _
  · split
    · exact .pure _
    · exact refuse _ _ _

theorem memberOfType (owner : Decl) (pos : Nat) (name : Identifier) (type : ValueType) :
    OfTable (memberOfType ctx owner pos name type) := by
  match type with
  | .array _ =>
    rw [Resolving.memberOfType]
    split
    · exact .pure _
    · exact refuse _ _ _
  | .cls _ (some c) => exact memberOf ctx c name
  | .cls _ none => exact .pure _
  | .base _ => exact refuse _ _ _

end OfTable

/-- What follows a qualifier hangs on what is bound only through the type of a value. -/
theorem memberAfter_cases (ctx : Context) (qualifier : Reference) (base : Decl)
    (name : Identifier) :
    (base.isMethod = false ∧
      memberAfter ctx qualifier base name = memberOfValue ctx base qualifier.pos name) ∨
    OfTable (memberAfter ctx qualifier base name) ∧
      ∀ t, ∃ v e, Judges t (memberAfter ctx qualifier base name) v e := by
  unfold memberAfter
  split
  · exact .inr ⟨.refuse _ _ _, fun t => ⟨_, _, .refuse _ _ _⟩⟩
  · exact .inr ⟨.memberOf _ _ _, judges_memberOf _ _ _⟩
  · exact .inr ⟨.memberOfClass _ _ _, judges_memberOfClass _ _ _⟩
  · rename_i noMethod _ _
    refine .inl ⟨?_, rfl⟩
    cases base with
    | method home head => exact (noMethod home head rfl).elim
    | cls | field | param | var => rfl

theorem finishes_memberOfValue {base : Decl} {pos : Nat} {name : Identifier} {s : Naming} :
    Finishes (memberOfValue ctx base pos name) ⟨t, m⟩ v e s ↔
      Finishes (memberOfType ctx base pos name (base.type m.get?)) ⟨t, m⟩ v e s := by
  rw [memberOfValue_eq]
  rfl

/-- There is always an answer, which records no note. -/
theorem memberAfter_ends (ctx : Context) (qualifier : Reference) (base : Decl) (name : Identifier)
    (t : ScopeTable) (m : SiteMap Decl) : ∃ v e,
      Finishes (memberAfter ctx qualifier base name) ⟨t, m⟩ v e ⟨t, m⟩ ∧
      (∀ d, v = some d → d.dataHome? = none ∨ t.Knows d) ∧ e.notes = [] := by
  rcases memberAfter_cases ctx qualifier base name with ⟨-, value⟩ | ⟨-, judged⟩
  · rw [value]
    simp only [finishes_memberOfValue]
    rcases judges_memberOfType ctx base qualifier.pos name t (base.type m.get?) with
      ⟨text, type⟩ | ⟨v, e, judges⟩
    · rw [type]
      exact ⟨none, {}, rfl, nofun, rfl⟩
    · exact ⟨v, e, judges.runs m, judges.source, judges.notes⟩
  · obtain ⟨v, e, judges⟩ := judged t
    exact ⟨v, e, judges.runs m, judges.source, judges.notes⟩

/-- The answer is the same where the type of the qualifier is. -/
theorem memberAfter_again {qualifier : Reference} {base : Decl} {name : Identifier} {s : Naming}
    (same : base.isMethod = false → Alike (base.type m.get?) (base.type n.get?))
    (run : Finishes (memberAfter ctx qualifier base name) ⟨t, m⟩ v e s) :
    Finishes (memberAfter ctx qualifier base name) ⟨t, n⟩ v e ⟨s.table, n⟩ := by
  rcases memberAfter_cases ctx qualifier base name with ⟨data, value⟩ | ⟨ofTable, -⟩
  · rw [value, finishes_memberOfValue] at run ⊢
    rw [memberOfType_congr (same data)]
    exact ((OfTable.memberOfType _ _ _ _).finishes run).2 n
  · exact (ofTable.finishes run).2 n

theorem binds_memberAfter (region : Region) (ctx : Context) (qualifier : Reference) (base : Decl)
    (name : Identifier) : Binds region (memberAfter ctx qualifier base name) := by
  have member : ∀ c, Binds region (memberOf ctx c name) := by
    intro c
    refine Binds.table.bind fun _ => ?_
    split
    · exact .refuse _ _ _
    · split
      · exact .refuse _ _ _
      · exact .pure _
  unfold memberAfter
  split
  · exact .refuse _ _ _
  · exact member _
  · refine (member _).bind fun o => ?_
    split
    · exact .pure _
    · split
      · exact .pure _
      · exact .refuse _ _ _
  · refine Binds.read.bind fun b => ?_
    dsimp only
    split
    · split
      · exact .pure _
      · exact .refuse _ _ _
    · exact member _
    · exact .pure _
    · exact .refuse _ _ _

/-- A reference and its name. -/
def ownSlots (site : Site) : Region := fun s => s = site ∨ s = site.name

theorem ownSlots_sub (site : Site) : (ownSlots site).Sub site.below := by
  rintro s (rfl | rfl)
  · exact List.suffix_refl _
  · exact site.suffix_child 1

theorem qualifier_apart (site : Site) : site.qualifier.below.Apart (ownSlots site) := by
  rintro s inside (rfl | rfl)
  · exact Site.not_child_suffix s 0 inside
  · exact Site.children_apart (s := site) (k := 0) (l := 1) (by decide) _
      inside (List.suffix_refl _)

theorem binds_settle (site : Site) (v : Option Decl) : Binds (ownSlots site) (settle site v) := by
  cases v with
  | none => exact .pure none
  | some d =>
    exact (Binds.filled (.inr rfl) d).bind fun _ =>
      (Binds.filled (.inl rfl) _).bind fun _ => .pure _

theorem binds_linkTo (ctx : Context) (site : Site) (qualifier : Reference) (name : Identifier)
    (o : Option Decl) : Binds (ownSlots site) (linkTo ctx site qualifier name o) := by
  cases o with
  | none => exact .pure none
  | some base => exact (binds_memberAfter _ _ _ _ _).bind fun _ => binds_settle _ _

theorem binds_resolveRef (ctx : Context) (site : Site) (r : Reference) :
    Binds site.below (resolveRef ctx site r) := by
  induction r generalizing site with
  | unknown => exact fun _ => .fatal
  | this pos =>
    unfold resolveRef
    split
    · exact .refuse _ _ _
    · exact (Binds.filled (List.suffix_refl site) _).bind fun _ => .pure _
  | ident name pos =>
    rw [resolveRef_ident]
    refine Binds.bind (Binds.table.bind fun _ => ?_) fun _ =>
      (binds_settle _ _).up (ownSlots_sub site)
    split
    · exact .refuse _ _ _
    · split
      · exact .refuse _ _ _
      · split
        · split
          · exact .refuse _ _ _
          · exact .refuse _ _ _
        · exact .pure _
  | qualified qualifier name pos ih =>
    rw [resolveRef_qualified]
    exact ((ih site.qualifier).up (site.child_sub 0)).bind fun o =>
      (binds_linkTo _ _ _ _ o).up (ownSlots_sub site)

theorem finishes_settle (site : Site) (d : Decl) (t : ScopeTable) (m : SiteMap Decl) :
    Finishes (settle site (some d)) ⟨t, m⟩
      (some (((m.fill site.name d).get? site).getD ((m.get? site.name).getD d))) {}
      ⟨t, (m.fill site.name d).fill site ((m.get? site.name).getD d)⟩ := by
  have first := finishes_bind site.name d t m
  have second := finishes_bind site ((m.get? site.name).getD d) t (m.fill site.name d)
  unfold Finishes at first second ⊢
  rw [settle, EStateM.run_bind, first]
  dsimp only
  rw [EStateM.run_bind, second]
  rfl

/-- What was settled is settled again, and nothing changes. -/
theorem again_settle (free : m.get? site = none) (free' : m.get? site.name = none) {a : Option Decl}
    (run : Finishes (settle site v) ⟨t, m⟩ a e ⟨t', m'⟩) (here : n.get? site = m'.get? site)
    (name : n.get? site.name = m'.get? site.name) :
    t' = t ∧ e = {} ∧ a = v ∧ m'.get? site = v ∧ m'.get? site.name = v ∧
      Finishes (settle site v) ⟨t, n⟩ v {} ⟨t, n⟩ := by
  cases v with
  | none =>
    obtain ⟨rfl, rfl, same⟩ := finishes_pure.mp run
    cases same
    exact ⟨rfl, rfl, rfl, free, free', rfl⟩
  | some d =>
    have other : site ≠ site.name := (site.child_ne_self 1).symm
    have unbound : (m.fill site.name d).get? site = none := by
      rw [SiteMap.get?_fill_of_ne _ _ other, free]
    obtain ⟨rfl, rfl, same⟩ := (finishes_settle site d t m).det run
    cases same
    rw [free', Option.getD_none] at here name ⊢
    rw [SiteMap.get?_fill_free unbound] at here ⊢
    rw [SiteMap.get?_fill_of_ne _ _ other.symm, SiteMap.get?_fill_free free'] at name ⊢
    have again := finishes_settle site d t n
    rw [SiteMap.fill_of_some name, here, name, Option.getD_some, Option.getD_some,
      SiteMap.fill_of_some here] at again
    rw [unbound]
    exact ⟨rfl, rfl, rfl, rfl, rfl, again⟩

/-- The type of a field, a parameter or a variable is the one that is written where it is
declared. -/
theorem type_of_dataHome {home : Site} (h : d.dataHome? = some home) :
    ∃ type : TypeExpr, (∀ b, d.type b = type.view b home.type) ∧
      ∀ f, d = .field (.user home) f → type = f.type := by
  cases d with
  | cls ref => cases h
  | method at' head => cases h
  | param site p =>
    cases h
    exact ⟨p.type, fun _ => rfl, nofun⟩
  | var site v =>
    cases h
    exact ⟨v.type, fun _ => rfl, nofun⟩
  | field at' f =>
    cases at' with
    | predefined => cases h
    | user site =>
      cases h
      refine ⟨f.type, fun _ => rfl, fun g same => ?_⟩
      cases same
      rfl

/-- The type of anything else but a method is the same whatever is bound. -/
theorem type_of_no_home (h : d.dataHome? = none) (data : d.isMethod = false)
    (b b' : Site → Option Decl) : d.type b' = d.type b := by
  cases d with
  | cls ref => rfl
  | method at' head => cases data
  | param site p | var site v => cases h
  | field at' f =>
    cases at' with
    | predefined => rfl
    | user site => cases h

/-- What a written type stands for where nothing of it is bound, against where something is. It has
the same members, unless it is a class that is known only in the second place. -/
theorem view_of_free (type : TypeExpr) (b' : Site → Option Decl) {site : Site}
    {b : Site → Option Decl} (free : ∀ s, site.below s → b s = none) :
    (Alike (type.view b site) (type.view b' site) ∧
      ∀ name pos cls, type = .named name pos → b' site.className ≠ some (.cls cls)) ∨
    ∃ name pos cls, type = .named name pos ∧ b' site.className = some (.cls cls) ∧
      type.view b site = .cls name.spelling none ∧
        type.view b' site = .cls name.spelling (some cls) := by
  cases type with
  | base | unknown => exact .inl ⟨.inl rfl, nofun⟩
  | array element pos => exact .inl ⟨.inr ⟨_, _, rfl, rfl⟩, nofun⟩
  | named name pos =>
    have unbound : b site.className = none := free _ (site.suffix_child 0)
    by_cases known : ∃ cls, b' site.className = some (.cls cls)
    · obtain ⟨cls, known⟩ := known
      exact .inr ⟨name, pos, cls, rfl, known, by simp only [TypeExpr.view, unbound],
        by simp only [TypeExpr.view, known]⟩
    · refine .inl ⟨.inl ?_, fun _ _ cls _ same => known ⟨cls, same⟩⟩
      have open' : (TypeExpr.named name pos).view b' site = .cls name.spelling none := by
        rw [TypeExpr.view]
        split
        · rename_i cls same
          exact absurd ⟨cls, same⟩ known
        · rfl
      rw [open']
      simp only [TypeExpr.view, unbound]

theorem memberAfter_field {qualifier : Reference} (named : ∀ pos, qualifier ≠ .this pos)
    (home : Home) (f : FieldDecl) (name : Identifier) :
    memberAfter ctx qualifier (.field home f) name =
      memberOfValue ctx (.field home f) qualifier.pos name := by
  cases qualifier with
  | this pos => exact absurd rfl (named pos)
  | ident | qualified | unknown => rfl

/-- What both runs find after a qualifier: the same, unless the link between them was missed. There
the first run finds nothing, and the second finds a member or reports that there is none. -/
theorem link_cases (ctx : Context) (t : ScopeTable) {qualifier : Reference} {base : Decl}
    (name : Identifier) (pos : Nat) {region : Region} (known : bound site.qualifier = some base)
    (types : ∀ home, base.dataHome? = some home →
      TypeKnown bound site.classNumber m n region base home ∧ ∀ pos, qualifier ≠ .this pos) :
    (¬ Missed bound (site, .qualified qualifier name pos) ∧
      (base.isMethod = false → Alike (base.type m.get?) (base.type n.get?))) ∨
    Missed bound (site, .qualified qualifier name pos) ∧
      Finishes (memberAfter ctx qualifier base name) ⟨t, m⟩ none {} ⟨t, m⟩ ∧
      ∃ v e, Finishes (memberAfter ctx qualifier base name) ⟨t, n⟩ v e ⟨t, n⟩ ∧ e.notes = [] ∧
        (v = none → e.errors ≠ []) := by
  cases where' : base.dataHome? with
  | none =>
    refine .inl ⟨?_, fun data => .inl (type_of_no_home where' data _ _)⟩
    rintro ⟨home, f, -, -, -, same, -⟩
    cases known.symm.trans same
    cases where'
  | some home =>
    obtain ⟨type, view, written⟩ := type_of_dataHome where'
    obtain ⟨⟨-, first, second, field⟩, named⟩ := types home where'
    by_cases later : site.classNumber < home.classNumber
    · obtain ⟨f, rfl⟩ := field later
      have free : ∀ s, home.type.below s → m.get? s = none := fun s hs => by
        rw [first s hs, if_neg (Nat.not_le.mpr later)]
      have end' := second home.type.className (home.type.suffix_child 0)
      rw [view, view]
      -- The first run has bound nothing of this type yet. That makes a difference only if it is a
      -- class: the members of an array do not hang on its elements.
      rcases view_of_free type n.get? free with
          ⟨alike, open'⟩ | ⟨id, pos', cls, rfl, class', old, new⟩
      · refine .inl ⟨?_, fun _ => alike⟩
        rintro ⟨home', f', id, pos', cls, same, named', -, class'⟩
        cases known.symm.trans same
        rw [← end'] at class'
        exact open' id pos' cls ((written f rfl).trans named') class'
      · refine .inr
          ⟨⟨home, f, id, pos', cls, known, (written f rfl).symm, later, end' ▸ class'⟩, ?_, ?_⟩
        · rw [memberAfter_field named, finishes_memberOfValue, view, old]
          rfl
        · obtain ⟨v, e, judges⟩ := judges_memberOf ctx cls name t
          refine ⟨v, e, ?_, judges.notes, judges.reported⟩
          rw [memberAfter_field named, finishes_memberOfValue, view, new]
          exact judges.runs n
    · refine .inl ⟨?_, fun _ => .inl ?_⟩
      · rintro ⟨home', f', -, -, -, same, -, later', -⟩
        cases known.symm.trans same
        cases where'
        exact later later'
      · rw [view, view]
        refine TypeExpr.view_congr fun s hs => ?_
        rw [second s hs, first s hs, if_pos (Nat.not_lt.mp later)]

theorem names_nameOf (ctx : Context) (name : Identifier) : Names (nameOf ctx name) := by
  refine .bind names_table fun t => ?_
  split
  · exact names_refuse _ _ _
  · split
    · exact names_refuse _ _ _
    · split
      · split
        · exact names_refuse _ _ _
        · exact names_refuse _ _ _
      · exact .pure _

theorem names_settle (site : Site) (v : Option Decl) : Names (settle site v) := by
  cases v with
  | none => exact .pure none
  | some d => exact .bind (names_bind _ _) fun _ => .bind (names_bind _ _) fun _ => .pure _

theorem names_linkTo (ctx : Context) (site : Site) (qualifier : Reference) (name : Identifier)
    (o : Option Decl) : Names (linkTo ctx site qualifier name o) := by
  cases o with
  | none => exact .pure none
  | some base => exact .bind (names_memberAfter ctx _ _ _) fun _ => names_settle _ _

/-- Where both runs find the same declaration, the second finds it bound already. -/
theorem again_settled {x : Resolving (Option Decl)} (names : Names x) {a : Option Decl}
    (first : Finishes x ⟨t, m⟩ v e ⟨t, m⟩) (second : Finishes x ⟨t, n⟩ v e ⟨t, n⟩)
    (free : m.get? site = none) (free' : m.get? site.name = none)
    (run : Finishes (x >>= settle site) ⟨t, m⟩ a found ⟨t', m'⟩) (here : n.get? site = m'.get? site)
    (name : n.get? site.name = m'.get? site.name) :
    t' = t ∧ a = v ∧ m'.get? site = v ∧ Finishes (x >>= settle site) ⟨t, n⟩ a found ⟨t, n⟩ := by
  obtain ⟨w, e₁, s₁, e₂, run₁, run₂, rfl⟩ := (names.seq_iff (names_settle site)).mp run
  obtain ⟨rfl, rfl, rfl⟩ := first.det run₁
  obtain ⟨rfl, rfl, rfl, bound, -, again⟩ := again_settle free free' run₂ here name
  exact ⟨rfl, rfl, bound,
    (names.seq_iff (names_settle site)).mpr ⟨a, _, ⟨t', n⟩, {}, second, again, rfl⟩⟩

/-- Settling has an end in any state. -/
theorem settle_ends (site : Site) (v : Option Decl) (t : ScopeTable) (n : SiteMap Decl) :
    ∃ a n', Finishes (settle site v) ⟨t, n⟩ a {} ⟨t, n'⟩ ∧ n.Grown (ownSlots site) n' ∧
      (v ≠ none → (n'.get? site.name).isSome) := by
  cases v with
  | none => exact ⟨none, n, rfl, .refl _ _, fun some => absurd rfl some⟩
  | some d =>
    have run := finishes_settle site d t n
    refine ⟨_, _, run, ((binds_settle site (some d) ⟨t, n⟩).holds run).2, fun _ => ?_⟩
    have other : site.name ≠ site := site.child_ne_self 1
    rw [SiteMap.get?_fill_of_ne _ _ other, SiteMap.get?_fill_self]
    rfl

/-- What a run adds after a missed link does not undo that it was missed. -/
theorem Adds.more {P : Prop} {a region : Region} {f f' g' : Log} {n'' : SiteMap Decl}
    (h : Adds bound P a f f' n n') (missed : P) (sub : a.Sub region) (grown : n'.Grown region n'')
    (notes : g'.notes = []) : Adds bound P region f (f'.append g') n n'' where
  grown := (h.grown.up sub).trans grown
  errors := h.errors.trans (List.sublist_append_left _ _)
  notes := by simp only [Log.append, h.notes, notes, List.append_nil]
  quiet none := absurd missed none
  loud _ := by
    rcases h.loud missed with more | ⟨s, free, filled⟩
    · refine .inl (Nat.lt_of_lt_of_le more ?_)
      simp only [Log.append, List.length_append]
      exact Nat.le_add_right _ _
    · obtain ⟨d, filled⟩ := Option.isSome_iff_exists.mp filled
      exact .inr ⟨s, free, Option.isSome_iff_exists.mpr ⟨d, grown.kept filled⟩⟩

/-- What the second run does at a reference beside the first: what it answers, unless the first run
missed a link, and what it adds. The answer of the first run is what the reference is bound to. -/
structure RefAgain (bound : Site → Option Decl) (ctx : Context) (t : ScopeTable) (n : SiteMap Decl)
    (site : Site) (r : Reference) (a : Option Decl) (found : Log) : Prop where
  answer : a = bound site
  source : ∀ d, a = some d → d.dataHome? = none ∨ t.Knows d ∧ ∀ pos, r ≠ .this pos
  again : ∃ a' found' n', Finishes (resolveRef ctx site r) ⟨t, n⟩ a' found' ⟨t, n'⟩ ∧
    Adds bound (∃ l ∈ r.links site, Missed bound l) site.below found found' n n' ∧
    (a' = a ∨ a = none ∧ ∃ l ∈ r.links site, Missed bound l)

/-- A reference of a single name, at which nothing can be missed. -/
theorem RefAgain.same {r : Reference} {a : Option Decl} (answer : a = bound site)
    (source : ∀ d, a = some d → d.dataHome? = none ∨ t.Knows d ∧ ∀ pos, r ≠ .this pos)
    (only : r.links site = [(site, r)]) (none : ¬ Missed bound (site, r))
    (run : Finishes (resolveRef ctx site r) ⟨t, n⟩ a found ⟨t, n⟩) :
    RefAgain bound ctx t n site r a found := by
  refine ⟨answer, source, a, found, n, run, .same ?_, .inl rfl⟩
  rw [only]
  rintro ⟨l, hl, missed⟩
  rw [List.mem_singleton.mp hl] at missed
  exact none missed

/-- A link has an end in any state. -/
theorem linkTo_ends (ctx : Context) (site : Site) (qualifier : Reference) (name : Identifier)
    (o : Option Decl) (t : ScopeTable) (n : SiteMap Decl) :
    ∃ a found n', Finishes (linkTo ctx site qualifier name o) ⟨t, n⟩ a found ⟨t, n'⟩ ∧
      found.notes = [] ∧
      n.Grown (ownSlots site) n' := by
  cases o with
  | none => exact ⟨none, {}, n, rfl, rfl, .refl _ _⟩
  | some base =>
    obtain ⟨v, e, run, -, notes⟩ := memberAfter_ends ctx qualifier base name t n
    obtain ⟨a, n', run', grown, -⟩ := settle_ends site v t n
    refine ⟨a, e.append {}, n', ?_, ?_, grown⟩
    · exact ((names_memberAfter ctx _ _ _).seq_iff (names_settle site)).mpr
        ⟨v, e, ⟨t, n⟩, {}, run, run', rfl⟩
    · simp only [Log.append, notes, List.append_nil]

/-- A link from a qualifier that both runs have found. -/
theorem again_linkTo {qualifier : Reference} {base : Decl} {name : Identifier} (pos : Nat)
    {a : Option Decl} (beside : Beside bound site.classNumber t m n (ownSlots site))
    (known : bound site.qualifier = some base)
    (source : base.dataHome? = none ∨ t.Knows base ∧ ∀ pos, qualifier ≠ .this pos)
    (run : Finishes (linkTo ctx site qualifier name (some base)) ⟨t, m⟩ a found ⟨t', m'⟩)
    (made : ∀ s, ownSlots site s → m'.get? s = bound s) :
    t' = t ∧ a = bound site ∧ (∀ d, a = some d → d.dataHome? = none ∨ t.Knows d) ∧
      ∃ a' found' n',
        Finishes (linkTo ctx site qualifier name (some base)) ⟨t, n⟩ a' found' ⟨t, n'⟩ ∧
        Adds bound (Missed bound (site, .qualified qualifier name pos))
          (ownSlots site) found found' n n' ∧
        (a' = a ∨ a = none ∧ Missed bound (site, .qualified qualifier name pos)) := by
  have atSite : ownSlots site site := .inl rfl
  have atName : ownSlots site site.name := .inr rfl
  have names := names_memberAfter ctx qualifier base name
  have types : ∀ home, base.dataHome? = some home →
      TypeKnown bound site.classNumber m n (ownSlots site) base home ∧
        ∀ pos, qualifier ≠ .this pos := by
    intro home hd
    rcases source with none | ⟨inTable, named⟩
    · rw [none] at hd
      cases hd
    · exact ⟨beside.owners base inTable home hd, named⟩
  rcases link_cases ctx t name pos known types with
    ⟨met, alike⟩ | ⟨missed, first, v, e, second, notes, reported⟩
  · obtain ⟨v, e, first, origin, -⟩ := memberAfter_ends ctx qualifier base name t m
    obtain ⟨rfl, rfl, here, again⟩ := again_settled names first (memberAfter_again alike first)
      (beside.free _ atSite) (beside.free _ atName) run
      ((beside.waits _ atSite).trans (made _ atSite).symm)
      ((beside.waits _ atName).trans (made _ atName).symm)
    exact ⟨rfl, here.symm.trans (made _ atSite), origin, _, _, n, again, .same met, .inl rfl⟩
  · obtain ⟨w, e₁, s₁, e₂, run₁, run₂, rfl⟩ := (names.seq_iff (names_settle site)).mp run
    obtain ⟨rfl, rfl, rfl⟩ := first.det run₁
    obtain ⟨rfl, rfl, same⟩ := finishes_pure.mp run₂
    cases same
    -- The first run answers nothing and binds nothing. So if the second finds a member, it binds a
    -- site that the first leaves free, and if it finds none, it reports what the first did not.
    have unbound : bound site.name = none := (made _ atName).symm.trans (beside.free _ atName)
    obtain ⟨a', n', settled, grown, filled⟩ := settle_ends site v t n
    refine ⟨rfl, (beside.free _ atSite).symm.trans (made _ atSite),
      by rintro _ ⟨⟩, a', e.append {}, n',
      (names.seq_iff (names_settle site)).mpr ⟨v, e, ⟨t, n⟩, {}, second, settled, rfl⟩,
      ⟨grown, ?_, ?_, fun met => absurd missed met, fun _ => ?_⟩, .inr ⟨rfl, missed⟩⟩
    · exact List.nil_sublist _
    · simp only [Log.append, notes, List.append_nil]
    · cases v with
      | some d => exact .inr ⟨site.name, unbound, filled (Option.some_ne_none d)⟩
      | none =>
        refine .inl ?_
        simp only [Log.append, List.append_nil, List.length_nil]
        exact List.length_pos_iff.mpr (reported rfl)

theorem again_this (pos : Nat) {a : Option Decl} (beside : Beside bound k t m n site.below)
    (run : Finishes (resolveRef ctx site (.this pos)) ⟨t, m⟩ a found ⟨t', m'⟩)
    (made : ∀ s, site.below s → m'.get? s = bound s) :
    t' = t ∧ RefAgain bound ctx t n site (.this pos) a found := by
  have unbound := beside.free site (List.suffix_refl site)
  have waits := beside.waits site (List.suffix_refl site)
  have known := made site (List.suffix_refl site)
  cases static : ctx.isStatic with
  | true =>
    have refused := (Judges.refuse t .thisInStatic pos).runs
    rw [resolveRef_this_static static] at run
    obtain ⟨rfl, rfl, same⟩ := (refused m).det run
    cases same
    refine ⟨rfl, .same (unbound.symm.trans known) nofun rfl id ?_⟩
    rw [resolveRef_this_static static]
    exact refused n
  | false =>
    have object : ∀ m, Finishes (resolveRef ctx site (.this pos)) ⟨t, m⟩
        (some ((m.get? site).getD (.cls ctx.cls))) {} ⟨t, m.fill site (.cls ctx.cls)⟩ := by
      intro m
      have bound := finishes_bind site (.cls ctx.cls) t m
      unfold Finishes at bound ⊢
      rw [resolveRef_this_object static, EStateM.run_bind, bound]
      rfl
    obtain ⟨rfl, rfl, same⟩ := (object m).det run
    cases same
    rw [SiteMap.get?_fill_free unbound] at known
    have again := object n
    rw [waits, ← known, SiteMap.fill_of_some (waits.trans known.symm), Option.getD_some] at again
    rw [unbound, Option.getD_none]
    refine ⟨rfl, .same known (fun d same => ?_) rfl id again⟩
    cases same
    exact .inl rfl

theorem again_ident (name : Identifier) (pos : Nat) {a : Option Decl}
    (beside : Beside bound k t m n site.below)
    (run : Finishes (resolveRef ctx site (.ident name pos)) ⟨t, m⟩ a found ⟨t', m'⟩)
    (made : ∀ s, site.below s → m'.get? s = bound s) :
    t' = t ∧ RefAgain bound ctx t n site (.ident name pos) a found := by
  have here := ownSlots_sub site site (.inl rfl)
  have named := ownSlots_sub site site.name (.inr rfl)
  obtain ⟨v, e, judges⟩ := judges_nameOf ctx name t
  rw [resolveRef_ident] at run
  obtain ⟨rfl, rfl, known, again⟩ := again_settled (names_nameOf ctx name) (judges.runs m)
    (judges.runs n) (beside.free _ here) (beside.free _ named) run
    ((beside.waits _ here).trans (made _ here).symm)
    ((beside.waits _ named).trans (made _ named).symm)
  rw [← resolveRef_ident site name pos] at again
  refine ⟨rfl, .same (known.symm.trans (made _ here)) (fun d same => ?_) rfl id again⟩
  exact (judges.source d same).imp_right fun known => ⟨known, nofun⟩

/-- The second run follows the first at a reference, from its qualifier on. -/
theorem again_resolveRef (r : Reference) {a : Option Decl} (inClass : Site.classAt k <:+ site)
    (beside : Beside bound k t m n site.below)
    (run : Finishes (resolveRef ctx site r) ⟨t, m⟩ a found ⟨t', m'⟩)
    (made : ∀ s, site.below s → m'.get? s = bound s) :
    t' = t ∧ RefAgain bound ctx t n site r a found := by
  induction r generalizing site a found t' m' with
  | unknown => cases run
  | this pos => exact again_this pos beside run made
  | ident name pos => exact again_ident name pos beside run made
  | qualified qualifier name pos ih =>
    have own := ownSlots_sub site
    have below := site.child_sub 0
    have names := names_resolveRef ctx site.qualifier qualifier
    rw [resolveRef_qualified] at run
    obtain ⟨o, f₁, ⟨t₁, m₁⟩, f₂, run₁, run₂, rfl⟩ :=
      (names.seq_iff (names_linkTo ctx site qualifier name)).mp run
    have grown₁ := ((binds_resolveRef ctx site.qualifier qualifier ⟨t, m⟩).holds run₁).2
    have grown₂ := ((binds_linkTo ctx site qualifier name o ⟨t₁, m₁⟩).holds run₂).2
    have made₁ : ∀ s, site.qualifier.below s → m₁.get? s = bound s := fun s hs => by
      rw [← made s (below s hs), grown₂.same (qualifier_apart site s hs)]
    obtain ⟨rfl, answer, source, o', f₁', n₁, again₁, adds₁, alike⟩ :=
      ih (inClass.trans (site.suffix_child 0)) (beside.down below) run₁ made₁
    have beside₁ : Beside bound k t₁ m₁ n₁ (ownSlots site) :=
      beside.after below own (qualifier_apart site) grown₁ made₁ adds₁.grown fun _ => .inl
    have here : m'.get? site = bound site := made site (List.suffix_refl site)
    have links : (∃ l ∈ qualifier.links site.qualifier, Missed bound l) ∨
        Missed bound (site, .qualified qualifier name pos) ↔
        ∃ l ∈ (Reference.qualified qualifier name pos).links site, Missed bound l := by
      simp [Reference.links, or_comm]
    have both {a' : Option Decl} {g : Log} {n' : SiteMap Decl}
        (second : Finishes (linkTo ctx site qualifier name o') ⟨t₁, n₁⟩ a' g ⟨t₁, n'⟩) :
        Finishes (resolveRef ctx site (.qualified qualifier name pos)) ⟨t₁, n⟩ a' (f₁'.append g)
          ⟨t₁, n'⟩ := by
      rw [resolveRef_qualified]
      exact (names.seq_iff (names_linkTo ctx site qualifier name)).mpr
        ⟨o', f₁', ⟨t₁, n₁⟩, g, again₁, second, rfl⟩
    cases o with
    | none =>
      obtain ⟨rfl, rfl, same⟩ := finishes_pure.mp run₂
      cases same
      have unlinked : ¬ Missed bound (site, .qualified qualifier name pos) := by
        rintro ⟨_, _, _, _, _, known, -⟩
        cases answer.trans known
      refine ⟨rfl, (beside₁.free _ (.inl rfl)).symm.trans here, by rintro _ ⟨⟩, ?_⟩
      rw [append_nothing]
      rcases alike with rfl | ⟨-, missed⟩
      · have again : Finishes (resolveRef ctx site (.qualified qualifier name pos)) ⟨_, n⟩ none _
          ⟨_, n₁⟩ := both rfl
        rw [append_nothing] at again
        exact ⟨none, _, n₁, again,
          (adds₁.up below).congr ((or_iff_left unlinked).symm.trans links), .inl rfl⟩
      -- The first run stopped at a link that it missed; the second goes on to this one. Whatever
      -- that gives, it takes nothing back of what the second run has added before.
      · obtain ⟨a', g, n', second, notes, grown⟩ := linkTo_ends ctx site qualifier name o' t' n₁
        have all := links.mp (.inl missed)
        refine ⟨a', _, n', both second, (adds₁.more missed below (grown.up own) notes).congr ?_,
          .inr ⟨rfl, all⟩⟩
        exact iff_of_true missed all
    | some base =>
      obtain rfl : o' = some base := by
        rcases alike with same | ⟨nothing, -⟩
        · exact same
        · cases nothing
      rw [← Site.classNumber_of_suffix inClass] at beside₁
      obtain ⟨rfl, answer', source', a', g, n', second, adds₂, alike'⟩ :=
        again_linkTo pos beside₁ answer.symm (source base rfl) run₂ fun s hs => made s (own s hs)
      refine ⟨rfl, answer', fun d same => ?_, a', _, n', both second,
        ((adds₁.up below).append (adds₂.up own)).congr links, ?_⟩
      · exact (source' d same).imp_right fun known => ⟨known, by rintro _ ⟨⟩⟩
      · rcases alike' with same | ⟨nothing, missed⟩
        · exact .inl same
        · exact .inr ⟨nothing, links.mp (.inr missed)⟩

end Resolving

end JamCompiler
