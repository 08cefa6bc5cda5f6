import JamCompiler.Resolution
import JamCompiler.Proofs.Naming.Table
import JamCompiler.Proofs.Relabelling.Passes

/-!
# Resolution of relabelled programs

Resolution looks names up by their spelling, and compares declarations. Different names stay
different under a relabelling, and so do declarations, so every look-up finds what it found before,
relabelled.
-/

namespace JamCompiler

open Pass

/-- A key that is exchanged for another has the value that it had. -/
theorem lookup_map {κ κ' ν ν' : Type} [BEq κ] [LawfulBEq κ] [BEq κ'] [LawfulBEq κ'] {f : κ → κ'}
    (injective : Function.Injective f) (g : ν → ν') (l : List (κ × ν)) (k : κ) :
    (l.map fun p => (f p.1, g p.2)).lookup (f k) = (l.lookup k).map g := by
  induction l with
  | nil => rfl
  | cons p rest ih =>
    rw [List.map_cons, List.lookup_cons, List.lookup_cons, ih]
    by_cases same : k = p.1
    · simp [same]
    · have other : (k == p.1) = false := by simpa using same
      have other' : (f k == f p.1) = false := by simpa [injective.eq_iff] using same
      simp only [other, other']

namespace SiteMap

variable {α β : Type} (f : α → β)

def map (m : SiteMap α) : SiteMap β := ⟨m.entries.map fun e => (e.1, f e.2)⟩

theorem get?_map (m : SiteMap α) (site : Site) : (m.map f).get? site = (m.get? site).map f :=
  lookup_map_snd f m.entries

theorem fill_map (m : SiteMap α) (site : Site) (a : α) :
    (m.map f).fill site (f a) = (m.fill site a).map f := by
  unfold fill
  rw [get?_map]
  cases m.get? site <;> rfl

end SiteMap

def Scope.relabel (ρ : Relabelling) (scope : Scope) : Scope :=
  scope.map fun p => (ρ.name p.1, p.2.relabel ρ)

namespace ScopeTable

def relabel (ρ : Relabelling) (t : ScopeTable) : ScopeTable where
  predefined := Scope.relabel ρ t.predefined
  inner := t.inner.map (Scope.relabel ρ)
  classes := t.classes.map fun c => (ρ.name c.1, c.2.relabel ρ)
  members := t.members.map fun m => ((ρ.name m.1.1, ρ.name m.1.2), m.2.relabel ρ)

variable (ρ : Relabelling) (t : ScopeTable)

theorem lookup_relabel (scope : Scope) (name : String) :
    (Scope.relabel ρ scope).lookup (ρ.name name) = (scope.lookup name).map (Decl.relabel ρ) :=
  lookup_map ρ.name_injective (Decl.relabel ρ) scope name

theorem holds_relabel (scope : Scope) (name : String) :
    holds (Scope.relabel ρ scope) (ρ.name name) = holds scope name := by
  rw [holds, holds, lookup_relabel, Option.isSome_map]

theorem retrieve?_relabel (name : String) :
    (t.relabel ρ).retrieve? (ρ.name name) = (t.retrieve? name).map (Decl.relabel ρ) := by
  have scopes : (t.relabel ρ).inner ++ [(t.relabel ρ).predefined] =
      (t.inner ++ [t.predefined]).map (Scope.relabel ρ) := by simp [relabel]
  rw [retrieve?, retrieve?, scopes]
  induction t.inner ++ [t.predefined] with
  | nil => rfl
  | cons scope rest ih =>
    rw [List.map_cons, List.findSome?_cons, List.findSome?_cons, lookup_relabel, ih]
    cases scope.lookup name <;> rfl

theorem retrieveClass?_relabel (name : String) :
    (t.relabel ρ).retrieveClass? (ρ.name name) =
      (t.retrieveClass? name).map (ClassRef.relabel ρ) :=
  lookup_map ρ.name_injective (ClassRef.relabel ρ) t.classes name

theorem retrieveMember?_relabel (cls name : String) :
    (t.relabel ρ).retrieveMember? (ρ.name cls) (ρ.name name) =
      (t.retrieveMember? cls name).map (Decl.relabel ρ) := by
  refine lookup_map (f := fun k : String × String => (ρ.name k.1, ρ.name k.2)) ?_ (Decl.relabel ρ)
    t.members (cls, name)
  rintro ⟨a, b⟩ ⟨a', b'⟩ same
  simpa using same

/-- What a table relabelled is closed to, or refuses. -/
theorem closeScope?_relabel :
    (∀ ρ, (t.relabel ρ).closeScope? = .error .closedOutermost) ∨
      ∃ u, ∀ ρ, (t.relabel ρ).closeScope? = .ok (relabel ρ u) := by
  cases inner : t.inner with
  | nil => exact .inl fun ρ => by simp [closeScope?, relabel, inner]
  | cons scope outer =>
    exact .inr ⟨{ t with inner := outer }, fun ρ => by simp [closeScope?, relabel, inner]⟩

/-- A declaration is refused after every relabelling, or after none. The fault names it. -/
theorem enter?_relabel (d : Decl) :
    (∃ fault : String → NameFault, ∀ ρ : Relabelling,
      (t.relabel ρ).enter? (d.relabel ρ) = .error (fault (ρ.name d.name))) ∨
      ∃ u, ∀ ρ, (t.relabel ρ).enter? (d.relabel ρ) = .ok (relabel ρ u) := by
  have current : ∀ ρ, (t.relabel ρ).current = Scope.relabel ρ t.current := by
    intro ρ
    cases inner : t.inner <;> simp [ScopeTable.current, relabel, inner]
  have enclosing :
      ∀ ρ, (t.relabel ρ).enclosingLocals = t.enclosingLocals.map (Scope.relabel ρ) := by
    intro ρ
    simp [enclosingLocals, relabel, level, List.map_take, List.map_tail]
  simp only [enter?, current, enclosing, Decl.relabel_name, holds_relabel, List.any_map,
    Function.comp_def]
  by_cases duplicate : holds t.current d.name = true
  · exact .inl ⟨.duplicate, fun ρ => by simp [duplicate]⟩
  · by_cases hides : t.enclosingLocals.any (holds · d.name) = true
    · exact .inl ⟨.hidesLocal, fun ρ => by simp [duplicate, hides]⟩
    · right
      simp only [if_neg duplicate, if_neg hides]
      cases inner : t.inner with
      | nil =>
        exact ⟨{ t with predefined := (d.name, d) :: t.predefined },
          fun ρ => by simp [relabel, Scope.relabel, inner]⟩
      | cons scope outer =>
        exact ⟨{ t with inner := ((d.name, d) :: scope) :: outer },
          fun ρ => by simp [relabel, Scope.relabel, inner]⟩

theorem registerClass?_relabel (c : ClassRef) :
    (∀ ρ, (t.relabel ρ).registerClass? (c.relabel ρ) = .error (.duplicateClass (ρ.name c.name))) ∨
      ∃ u, ∀ ρ, (t.relabel ρ).registerClass? (c.relabel ρ) = .ok (relabel ρ u) := by
  simp only [registerClass?, ClassRef.relabel_name, retrieveClass?_relabel]
  cases t.retrieveClass? c.name with
  | some previous => exact .inl fun ρ => rfl
  | none => exact .inr ⟨{ t with classes := (c.name, c) :: t.classes }, fun ρ => rfl⟩

theorem registerMember?_relabel (c : ClassRef) (d : Decl) :
    (∃ previous, ∀ ρ, (t.relabel ρ).registerMember? (c.relabel ρ) (d.relabel ρ) =
      .error (Decl.relabel ρ previous)) ∨
      ∃ u, ∀ ρ, (t.relabel ρ).registerMember? (c.relabel ρ) (d.relabel ρ) = .ok (relabel ρ u) := by
  simp only [registerMember?, ClassRef.relabel_name, Decl.relabel_name, retrieveMember?_relabel]
  cases t.retrieveMember? c.name d.name with
  | some previous => exact .inl ⟨previous, fun ρ => rfl⟩
  | none => exact .inr ⟨{ t with members := ((c.name, d.name), d) :: t.members }, fun ρ => by
      simp [relabel]⟩

end ScopeTable

def Naming.relabel (ρ : Relabelling) (n : Naming) : Naming :=
  ⟨n.table.relabel ρ, n.bindings.map (Decl.relabel ρ)⟩

theorem SiteMap.get?_relabel (ρ : Relabelling) (bindings : SiteMap Decl) :
    (bindings.map (Decl.relabel ρ)).get? = relabelBound ρ bindings.get? :=
  funext (get?_map (Decl.relabel ρ) bindings)

/-- A declaration, if there is one, relabelled. -/
def Decl.relabel? (ρ : Relabelling) : Option Decl → Option Decl := Option.map (Decl.relabel ρ)

namespace Resolving

def Context.relabel (ρ : Relabelling) (ctx : Context) : Context :=
  { cls := ctx.cls.relabel ρ
    isStatic := ctx.isStatic
    initializing := Decl.relabel? ρ ctx.initializing }

variable {ρ ρ' : Relabelling}

theorem mirrors_reportName {fault fault' : NameFault} {pos pos' : Nat}
    (places : Places ρ ρ' pos pos') (same : ρ.name = ρ'.name → fault = fault') :
    Mirrors ρ ρ' Naming.relabel unchanged (reportName fault pos) (reportName fault' pos') :=
  .report places fun names => by rw [same names]

/-- A step that is refused with a report has no answer. -/
theorem mirrors_refuse {fault fault' : NameFault} {pos pos' : Nat}
    (places : Places ρ ρ' pos pos') (same : ρ.name = ρ'.name → fault = fault') :
    Mirrors ρ ρ' Naming.relabel Decl.relabel? (do reportName fault pos; return none)
      (do reportName fault' pos'; return none) :=
  (mirrors_reportName places same).bind fun _ => .pure none rfl rfl

theorem mirrors_table : Mirrors ρ ρ' Naming.relabel ScopeTable.relabel table table :=
  Mirrors.getOwn.answers Naming.table (fun _ => rfl) fun _ => rfl

theorem mirrors_setTable (t : ScopeTable) :
    Mirrors ρ ρ' Naming.relabel unchanged (setTable (t.relabel ρ)) (setTable (t.relabel ρ')) :=
  .modifyOwn ({ · with table := t }) (fun _ => rfl) fun _ => rfl

theorem mirrors_bound : Mirrors ρ ρ' Naming.relabel relabelBound bound bound :=
  Mirrors.getOwn.answers (fun n => n.bindings.get?) (fun n => n.bindings.get?_relabel ρ)
    fun n => n.bindings.get?_relabel ρ'

theorem mirrors_bind (site : Site) (d : Decl) :
    Mirrors ρ ρ' Naming.relabel Decl.relabel (Resolving.bind site (d.relabel ρ))
      (Resolving.bind site (d.relabel ρ')) := by
  have filled : ∀ (ρ : Relabelling) (n : Naming),
      ({ n.relabel ρ with bindings := (n.relabel ρ).bindings.fill site (d.relabel ρ) } : Naming) =
        ({ n with bindings := n.bindings.fill site d } : Naming).relabel ρ := fun ρ n =>
    congrArg (Naming.mk _) (n.bindings.fill_map (Decl.relabel ρ) site d)
  have answer : ∀ (ρ : Relabelling) (bound : Site → Option Decl),
      (relabelBound ρ bound site).getD (d.relabel ρ) = ((bound site).getD d).relabel ρ := by
    intro ρ bound
    rw [relabelBound, Option.getD_map]
  refine (Mirrors.modifyOwn (fun n : Naming => { n with bindings := n.bindings.fill site d })
    (filled ρ) (filled ρ')).bind fun _ => ?_
  exact mirrors_bound.answers (fun bound => (bound site).getD d) (answer ρ) (answer ρ')

/-- Binding a name to the declaration it is bound to. -/
theorem mirrors_some (site : Site) (d : Decl) :
    Mirrors ρ ρ' Naming.relabel Decl.relabel? (do return some (← Resolving.bind site (d.relabel ρ)))
      (do return some (← Resolving.bind site (d.relabel ρ'))) :=
  (mirrors_bind site d).answers some (fun _ => rfl) fun _ => rfl

theorem mirrors_openScope : Mirrors ρ ρ' Naming.relabel unchanged openScope openScope :=
  mirrors_table.bind fun t => mirrors_setTable t.openScope

theorem mirrors_closeScope : Mirrors ρ ρ' Naming.relabel unchanged closeScope closeScope := by
  refine mirrors_table.bind fun t => ?_
  rcases t.closeScope?_relabel with refused | ⟨u, closed⟩
  · rw [refused, refused]
    exact .fatal .zero fun _ => rfl
  · rw [closed, closed]
    exact mirrors_setTable u

theorem mirrors_enter (d : Decl) {pos pos' : Nat} (places : Places ρ ρ' pos pos') :
    Mirrors ρ ρ' Naming.relabel unchanged (enter (d.relabel ρ) pos)
      (enter (d.relabel ρ') pos') := by
  refine mirrors_table.bind fun t => ?_
  rcases t.enter?_relabel d with ⟨fault, refused⟩ | ⟨u, entered⟩
  · rw [refused, refused]
    exact (mirrors_reportName places fun names => by rw [names]).bind fun _ => .pure false rfl rfl
  · rw [entered, entered]
    exact (mirrors_setTable u).bind fun _ => .pure true rfl rfl

theorem mirrors_registerClass (c : ClassRef) :
    Mirrors ρ ρ' Naming.relabel unchanged (registerClass (c.relabel ρ))
      (registerClass (c.relabel ρ')) := by
  refine mirrors_table.bind fun t => ?_
  rcases t.registerClass?_relabel c with refused | ⟨u, registered⟩
  · rw [refused, refused]
    exact (mirrors_reportName (.labels c.home c.pos) fun names => by rw [names]).bind
      fun _ => .pure false rfl rfl
  · rw [registered, registered]
    exact (mirrors_setTable u).bind fun _ => .pure true rfl rfl

theorem mirrors_registerMember (c : ClassRef) (d : Decl) :
    Mirrors ρ ρ' Naming.relabel unchanged (registerMember (c.relabel ρ) (d.relabel ρ))
      (registerMember (c.relabel ρ') (d.relabel ρ')) := by
  refine mirrors_table.bind fun t => ?_
  rcases t.registerMember?_relabel c d with ⟨previous, refused⟩ | ⟨u, registered⟩
  · rw [refused, refused]
    refine (Mirrors.note previous.places fun names => ?_).bind fun _ => ?_
    · simp only [Decl.relabel_name, names]
    · exact (mirrors_reportName d.places fun names => by simp [names]).bind
        fun _ => .pure false rfl rfl
  · rw [registered, registered]
    exact (mirrors_setTable u).bind fun _ => .pure true rfl rfl

theorem mirrors_registerMembers (c : ClassRef) (members : List Decl) :
    Mirrors ρ ρ' Naming.relabel unchanged
      (registerMembers (c.relabel ρ) (members.map (Decl.relabel ρ)))
      (registerMembers (c.relabel ρ') (members.map (Decl.relabel ρ'))) :=
  .forM _ _ members fun d _ => (mirrors_registerMember c d).bind fun _ => .done

theorem mirrors_collectPredefined (c : ClassRef) :
    Mirrors ρ ρ' Naming.relabel unchanged (collectPredefined (c.relabel ρ))
      (collectPredefined (c.relabel ρ')) := by
  refine (mirrors_enter (.cls c) .zero).bind fun _ => ?_
  refine (mirrors_registerClass c).bind fun _ => ?_
  rw [Predefined.members_relabel, Predefined.members_relabel]
  exact mirrors_registerMembers c (Predefined.members c)

theorem mirrors_collectClass (site : Site) (c : ClassDecl) :
    Mirrors ρ ρ' Naming.relabel unchanged (collectClass site (c.relabel ρ.written))
      (collectClass site (c.relabel ρ'.written)) := by
  refine (mirrors_registerClass (c.ref site)).bind fun registered => ?_
  cases registered with
  | false => exact .done
  | true =>
    refine (mirrors_enter (.cls (c.ref site)) (.place c.pos)).bind fun _ => ?_
    rw [ClassDecl.members_relabel, ClassDecl.members_relabel]
    exact mirrors_registerMembers (c.ref site) (c.members site)

theorem mirrors_collect (p : Program) :
    Mirrors ρ ρ' Naming.relabel unchanged (collect (p.relabel ρ.written))
      (collect (p.relabel ρ'.written)) := by
  have predefined : ∀ ρ, Predefined.classes.map (ClassRef.relabel ρ) = Predefined.classes :=
    fun ρ => (List.map_congr_left fun c hc => Predefined.relabel_of_mem_classes ρ hc).trans
      (List.map_id _)
  have first : Mirrors ρ ρ' Naming.relabel unchanged (Predefined.classes.forM collectPredefined)
      (Predefined.classes.forM collectPredefined) := by
    have each := Mirrors.forM (ClassRef.relabel ρ) (ClassRef.relabel ρ') Predefined.classes
      fun c _ => mirrors_collectPredefined c
    rwa [predefined, predefined] at each
  refine first.bind fun _ => mirrors_openScope.bind fun _ => ?_
  rw [Program.sitedClasses_relabel, Program.sitedClasses_relabel]
  exact .forM _ _ p.sitedClasses fun c _ => mirrors_collectClass c.1 c.2

theorem mirrors_resolveType (site : Site) (t : TypeExpr) :
    Mirrors ρ ρ' Naming.relabel unchanged (resolveType site (t.relabel ρ.written))
      (resolveType site (t.relabel ρ'.written)) := by
  match t with
  | .base type pos => exact .done
  | .array element pos => exact mirrors_resolveType site.element element
  | .unknown kind pos => exact .fatal (.place pos) fun _ => rfl
  | .named name pos =>
    refine mirrors_bound.bind fun bound => ?_
    simp only [relabelBound]
    cases bound site.className with
    | some d => exact .done
    | none =>
      refine mirrors_table.bind fun t => ?_
      have known : ∀ ρ : Relabelling,
          (t.relabel ρ).retrieveClass? (name.relabel ρ.written).spelling =
            (t.retrieveClass? name.spelling).map (ClassRef.relabel ρ) :=
        fun ρ => t.retrieveClass?_relabel ρ name.spelling
      rw [known, known]
      cases t.retrieveClass? name.spelling with
      | some c => exact (mirrors_bind site.className (.cls c)).bind fun _ => .done
      | none =>
        exact mirrors_reportName (.place pos) fun names =>
          congrArg NameFault.undeclaredClass (congrFun names name.spelling)

theorem mirrors_resolveName (ctx : Context) (site : Site) (name : Identifier) :
    Mirrors ρ ρ' Naming.relabel Decl.relabel?
      (resolveName (ctx.relabel ρ) site (name.relabel ρ.written))
      (resolveName (ctx.relabel ρ') site (name.relabel ρ'.written)) := by
  refine mirrors_table.bind fun t => ?_
  have known : ∀ ρ : Relabelling, (t.relabel ρ).retrieve? (name.relabel ρ.written).spelling =
      (t.retrieve? name.spelling).map (Decl.relabel ρ) :=
    fun ρ => t.retrieve?_relabel ρ name.spelling
  have spelled : ρ.name = ρ'.name →
      (name.relabel ρ.written).spelling = (name.relabel ρ'.written).spelling :=
    fun names => congrFun names name.spelling
  have here : Places ρ ρ' (name.relabel ρ.written).pos (name.relabel ρ'.written).pos :=
    .place name.pos
  rw [known, known]
  cases t.retrieve? name.spelling with
  | none => exact mirrors_refuse here fun names => by rw [spelled names]
  | some d =>
    -- Relabelling takes different declarations apart, so the one that is being initialized is no
    -- other.
    have own : ∀ ρ : Relabelling, (ctx.relabel ρ).initializing = some (d.relabel ρ) ↔
        ctx.initializing = some d := by
      intro ρ
      simp [Context.relabel, Decl.relabel?]
    simp only [Option.map_some, own, Decl.relabel_isMember, Decl.relabel_isStatic]
    by_cases initializing : ctx.initializing = some d
    · simp only [if_pos initializing]
      exact mirrors_refuse here fun names => by rw [spelled names]
    · simp only [if_neg initializing]
      have static : ∀ ρ, (ctx.relabel ρ).isStatic = ctx.isStatic := fun _ => rfl
      simp only [static]
      cases wrong : d.isMember && d.isStatic != ctx.isStatic with
      | false =>
        simp only [Bool.false_eq_true, if_false]
        exact mirrors_some site d
      | true =>
        simp only [if_true]
        by_cases still : ctx.isStatic = true
        · simp only [still, if_true]
          exact mirrors_refuse here fun names => by rw [spelled names]
        · simp only [if_neg still]
          refine mirrors_refuse here fun names => ?_
          rw [spelled names]
          exact congrArg _ (congrFun names ctx.cls.name)

theorem mirrors_memberOf (ctx : Context) (c : ClassRef) (name : Identifier) :
    Mirrors ρ ρ' Naming.relabel Decl.relabel?
      (memberOf (ctx.relabel ρ) (c.relabel ρ) (name.relabel ρ.written))
      (memberOf (ctx.relabel ρ') (c.relabel ρ') (name.relabel ρ'.written)) := by
  refine mirrors_table.bind fun t => ?_
  have known : ∀ ρ : Relabelling,
      (t.relabel ρ).retrieveMember? (c.relabel ρ).name (name.relabel ρ.written).spelling =
        (t.retrieveMember? c.name name.spelling).map (Decl.relabel ρ) :=
    fun ρ => t.retrieveMember?_relabel ρ c.name name.spelling
  have spelled : ρ.name = ρ'.name →
      (name.relabel ρ.written).spelling = (name.relabel ρ'.written).spelling :=
    fun names => congrFun names name.spelling
  have here : Places ρ ρ' (name.relabel ρ.written).pos (name.relabel ρ'.written).pos :=
    .place name.pos
  rw [known, known]
  cases t.retrieveMember? c.name name.spelling with
  | none =>
    exact mirrors_refuse here fun names => by
      rw [spelled names, ClassRef.relabel_name, ClassRef.relabel_name, names]
  | some d =>
    -- Whether a private member is at home is a comparison of classes, not of their names.
    have elsewhere : ∀ ρ : Relabelling, c.relabel ρ ≠ (ctx.relabel ρ).cls ↔ c ≠ ctx.cls :=
      fun ρ => not_congr (ClassRef.relabel_inj ρ)
    simp only [Option.map_some, Decl.relabel_isPrivate, elsewhere]
    by_cases hidden : (d.isPrivate && decide (c ≠ ctx.cls)) = true
    · simp only [if_pos hidden]
      exact mirrors_refuse here fun names => by
        rw [spelled names, ClassRef.relabel_name, ClassRef.relabel_name, names]
    · simp only [if_neg hidden]
      exact .pure (some d) rfl rfl

theorem mirrors_memberOfClass (ctx : Context) (c : ClassRef) (name : Identifier) :
    Mirrors ρ ρ' Naming.relabel Decl.relabel?
      (memberOfClass (ctx.relabel ρ) (c.relabel ρ) (name.relabel ρ.written))
      (memberOfClass (ctx.relabel ρ') (c.relabel ρ') (name.relabel ρ'.written)) := by
  refine (mirrors_memberOf ctx c name).bind fun member => ?_
  cases member with
  | none => exact .pure none rfl rfl
  | some d =>
    simp only [Decl.relabel?, Option.map_some, Decl.relabel_isStatic]
    cases d.isStatic with
    | true => exact .pure (some d) rfl rfl
    | false =>
      exact mirrors_refuse (.place name.pos) fun names =>
        congrArg₂ NameFault.instanceThroughClass (congrFun names name.spelling)
          (congrFun names c.name)

theorem mirrors_memberOfValue (ctx : Context) (owner : Decl) (pos : Nat) (name : Identifier) :
    Mirrors ρ ρ' Naming.relabel Decl.relabel?
      (memberOfValue (ctx.relabel ρ) (owner.relabel ρ) (ρ.place pos) (name.relabel ρ.written))
      (memberOfValue (ctx.relabel ρ') (owner.relabel ρ') (ρ'.place pos)
        (name.relabel ρ'.written)) := by
  refine mirrors_bound.bind fun bound => ?_
  simp only [Decl.type_relabel]
  cases owner.type bound with
  | array element =>
    have length : ∀ ρ : Relabelling, (name.relabel ρ.written).spelling = Predefined.length.name ↔
        name.spelling = Predefined.length.name :=
      fun ρ => ρ.name_eq_known (by decide)
    simp only [ValueType.relabel, length]
    by_cases known : name.spelling = Predefined.length.name
    · simp only [if_pos known]
      exact .pure (some Predefined.length) (congrArg some (Predefined.length_relabel ρ).symm)
        (congrArg some (Predefined.length_relabel ρ').symm)
    · simp only [if_neg known]
      exact mirrors_refuse (.place name.pos) fun names =>
        congrArg NameFault.arrayMember (congrFun names name.spelling)
  | cls spelling c =>
    cases c with
    | none => exact .pure none rfl rfl
    | some c => exact mirrors_memberOf ctx c name
  | base type =>
    refine mirrors_refuse (.place pos) fun names => ?_
    rw [Decl.relabel_name, Decl.relabel_name, names]
    rfl

theorem mirrors_memberAfter (ctx : Context) (qualifier : Reference) (base : Decl)
    (name : Identifier) :
    Mirrors ρ ρ' Naming.relabel Decl.relabel?
      (memberAfter (ctx.relabel ρ) (qualifier.relabel ρ.written) (base.relabel ρ)
        (name.relabel ρ.written))
      (memberAfter (ctx.relabel ρ') (qualifier.relabel ρ'.written) (base.relabel ρ')
        (name.relabel ρ'.written)) := by
  have value : Mirrors ρ ρ' Naming.relabel Decl.relabel? _ _ :=
    mirrors_memberOfValue ctx base qualifier.pos name
  have here : Places ρ ρ' (ρ.place qualifier.pos) (ρ'.place qualifier.pos) := .place _
  cases base with
  | method home head =>
    have method : Mirrors ρ ρ' Naming.relabel Decl.relabel?
        (do reportName (.methodQualifier (ρ.name head.name)) (ρ.place qualifier.pos); return none)
        (do reportName (.methodQualifier (ρ'.name head.name)) (ρ'.place qualifier.pos)
            return none) :=
      mirrors_refuse here fun names => by rw [names]
    cases qualifier <;> cases home <;> exact method
  | cls c =>
    cases qualifier with
    | this pos => exact mirrors_memberOf ctx ctx.cls name
    | ident | qualified | unknown => exact mirrors_memberOfClass ctx c name
  | field | param | var =>
    cases qualifier with
    | this pos => exact mirrors_memberOf ctx ctx.cls name
    | ident | qualified | unknown => exact value

theorem mirrors_resolveRef (ctx : Context) (site : Site) (ref : Reference) :
    Mirrors ρ ρ' Naming.relabel Decl.relabel?
      (resolveRef (ctx.relabel ρ) site (ref.relabel ρ.written))
      (resolveRef (ctx.relabel ρ') site (ref.relabel ρ'.written)) := by
  match ref with
  | .this pos =>
    simp only [Reference.relabel, resolveRef, Context.relabel]
    by_cases still : ctx.isStatic = true
    · simp only [still, if_true]
      exact mirrors_refuse (.place pos) fun _ => rfl
    · simp only [still, Bool.false_eq_true, if_false]
      exact mirrors_some site (.cls ctx.cls)
  | .ident name pos =>
    refine (mirrors_resolveName ctx site.name name).bind fun found => ?_
    cases found with
    | none => exact .pure none rfl rfl
    | some d => exact mirrors_some site d
  | .qualified qualifier name pos =>
    refine (mirrors_resolveRef ctx site.qualifier qualifier).bind fun found => ?_
    cases found with
    | none => exact .pure none rfl rfl
    | some base =>
      refine (mirrors_memberAfter ctx qualifier base name).bind fun found => ?_
      cases found with
      | none => exact .pure none rfl rfl
      | some member => exact (mirrors_bind site.name member).bind fun d => mirrors_some site d
  | .unknown kind pos => exact .fatal (.place pos) fun _ => rfl

theorem mirrors_resolveMethod (ctx : Context) (site : Site) (ref : Reference) :
    Mirrors ρ ρ' Naming.relabel unchanged
      (resolveMethod (ctx.relabel ρ) site (ref.relabel ρ.written))
      (resolveMethod (ctx.relabel ρ') site (ref.relabel ρ'.written)) := by
  refine (mirrors_resolveRef ctx site ref).bind fun found => ?_
  cases found with
  | none => exact .done
  | some d =>
    simp only [Decl.relabel?, Option.map_some, Decl.relabel_isMethod, Reference.pos_relabel]
    cases d.isMethod with
    | true => exact .done
    | false =>
      exact mirrors_reportName (.place ref.pos) fun names => by
        rw [Decl.relabel_name, Decl.relabel_name, names]

mutual

theorem mirrors_resolveExpr (ctx : Context) (site : Site) (e : Expr) :
    Mirrors ρ ρ' Naming.relabel unchanged
      (resolveExpr (ctx.relabel ρ) site (e.relabel ρ.written))
      (resolveExpr (ctx.relabel ρ') site (e.relabel ρ'.written)) := by
  match e with
  | .int .. | .bool .. | .null .. => exact .done
  | .unary op operand pos => exact mirrors_resolveExpr ctx site.operand operand
  | .binary op left right pos =>
    exact (mirrors_resolveExpr ctx site.left left).bind fun _ =>
      mirrors_resolveExpr ctx site.right right
  | .ref ref pos => exact (mirrors_resolveRef ctx site.target ref).bind fun _ => .done
  | .index ref index pos =>
    exact (mirrors_resolveRef ctx site.target ref).bind fun _ =>
      mirrors_resolveExpr ctx site.index index
  | .call method args pos =>
    exact (mirrors_resolveMethod ctx site.target method).bind fun _ =>
      mirrors_resolveArgs ctx site 0 args
  | .newObject type pos => exact mirrors_resolveType site.type type
  | .newArray element size pos =>
    exact (mirrors_resolveType site.type element).bind fun _ =>
      mirrors_resolveExpr ctx site.size size
  | .unknown kind pos => exact .fatal (.place pos) fun _ => rfl

theorem mirrors_resolveArgs (ctx : Context) (call : Site) (k : Nat) (args : List Expr) :
    Mirrors ρ ρ' Naming.relabel unchanged
      (resolveArgs (ctx.relabel ρ) call k (Expr.relabelAll ρ.written args))
      (resolveArgs (ctx.relabel ρ') call k (Expr.relabelAll ρ'.written args)) := by
  match args with
  | [] => exact .done
  | e :: rest =>
    exact (mirrors_resolveExpr ctx (call.arg k) e).bind fun _ =>
      mirrors_resolveArgs ctx call (k + 1) rest

end

theorem mirrors_rejectDeclaration (branch : Stmt) :
    Mirrors ρ ρ' Naming.relabel unchanged (rejectDeclaration (branch.relabel ρ.written))
      (rejectDeclaration (branch.relabel ρ'.written)) := by
  simp only [rejectDeclaration, Stmt.isDeclaration_relabel, Stmt.pos_relabel]
  cases branch.isDeclaration with
  | true => exact mirrors_reportName (.place branch.pos) fun _ => rfl
  | false => exact .done

mutual

theorem mirrors_resolveStmt (ctx : Context) (site : Site) (s : Stmt) :
    Mirrors ρ ρ' Naming.relabel unchanged
      (resolveStmt (ctx.relabel ρ) site (s.relabel ρ.written))
      (resolveStmt (ctx.relabel ρ') site (s.relabel ρ'.written)) := by
  match s with
  | .block stmts pos =>
    exact mirrors_openScope.bind fun _ => (mirrors_resolveStmts ctx site 0 stmts).bind fun _ =>
      mirrors_closeScope
  | .declare var init pos =>
    refine (mirrors_resolveType site.var.type var.type).bind fun _ => ?_
    refine (mirrors_enter (.var site.var var) (.place var.pos)).bind fun _ => ?_
    exact mirrors_resolveExpr { ctx with initializing := some (.var site.var var) } site.init init
  | .assign target value pos =>
    exact (mirrors_resolveRef ctx site.target target).bind fun _ =>
      mirrors_resolveExpr ctx site.value value
  | .assignIndex target index value pos =>
    exact (mirrors_resolveRef ctx site.target target).bind fun _ =>
      (mirrors_resolveExpr ctx site.index index).bind fun _ =>
        mirrors_resolveExpr ctx site.value value
  | .call method args pos =>
    exact (mirrors_resolveMethod ctx site.target method).bind fun _ =>
      mirrors_resolveArgs ctx site 0 args
  | .ret none pos => exact .done
  | .ret (some value) pos => exact mirrors_resolveExpr ctx site.value value
  | .ifThen cond body pos =>
    exact (mirrors_resolveExpr ctx site.cond cond).bind fun _ =>
      (mirrors_rejectDeclaration body).bind fun _ =>
        mirrors_resolveStmt ctx site.thenBranch body
  | .ifElse cond body other pos =>
    exact (mirrors_resolveExpr ctx site.cond cond).bind fun _ =>
      (mirrors_rejectDeclaration body).bind fun _ =>
        (mirrors_resolveStmt ctx site.thenBranch body).bind fun _ =>
          (mirrors_rejectDeclaration other).bind fun _ =>
            mirrors_resolveStmt ctx site.elseBranch other
  | .loop cond body pos =>
    exact (mirrors_resolveExpr ctx site.cond cond).bind fun _ =>
      (mirrors_rejectDeclaration body).bind fun _ =>
        mirrors_resolveStmt ctx site.thenBranch body
  | .unknown kind pos => exact .fatal (.place pos) fun _ => rfl

theorem mirrors_resolveStmts (ctx : Context) (block : Site) (k : Nat) (stmts : List Stmt) :
    Mirrors ρ ρ' Naming.relabel unchanged
      (resolveStmts (ctx.relabel ρ) block k (Stmt.relabelAll ρ.written stmts))
      (resolveStmts (ctx.relabel ρ') block k (Stmt.relabelAll ρ'.written stmts)) := by
  match stmts with
  | [] => exact .done
  | s :: rest =>
    exact (mirrors_resolveStmt ctx (block.stmt k) s).bind fun _ =>
      mirrors_resolveStmts ctx block (k + 1) rest

end

theorem mirrors_resolveParams (method : Site) (k : Nat) (params : List ParamDecl) :
    Mirrors ρ ρ' Naming.relabel unchanged
      (resolveParams method k (params.map (·.relabel ρ.written)))
      (resolveParams method k (params.map (·.relabel ρ'.written))) := by
  induction params generalizing k with
  | nil => exact .done
  | cons p rest ih =>
    exact (mirrors_resolveType (method.param k).type p.type).bind fun _ =>
      (mirrors_enter (.param (method.param k) p) (.place p.pos)).bind fun _ => ih (k + 1)

theorem mirrors_resolveBody (ctx : Context) (method : Site) (k : Nat) (stmts : List Stmt) :
    Mirrors ρ ρ' Naming.relabel unchanged
      (resolveBody (ctx.relabel ρ) method k (Stmt.relabelAll ρ.written stmts))
      (resolveBody (ctx.relabel ρ') method k (Stmt.relabelAll ρ'.written stmts)) := by
  induction stmts generalizing k with
  | nil => exact .done
  | cons s rest ih =>
    exact (mirrors_resolveStmt ctx (method.body k) s).bind fun _ => ih (k + 1)

theorem mirrors_resolveMethodDecl (c : ClassRef) (site : Site) (m : MethodDecl) :
    Mirrors ρ ρ' Naming.relabel unchanged
      (resolveMethodDecl (c.relabel ρ) site (m.relabel ρ.written))
      (resolveMethodDecl (c.relabel ρ') site (m.relabel ρ'.written)) :=
  (mirrors_resolveType site.type m.head.result).bind fun _ =>
    mirrors_openScope.bind fun _ => (mirrors_resolveParams site 0 m.head.params).bind fun _ =>
      mirrors_openScope.bind fun _ =>
        (mirrors_resolveBody { cls := c, isStatic := m.head.isStatic } site 0 m.body).bind fun _ =>
          mirrors_closeScope.bind fun _ => mirrors_closeScope

theorem mirrors_resolveFields (cls : Site) (k : Nat) (fields : List FieldDecl) :
    Mirrors ρ ρ' Naming.relabel unchanged
      (resolveFields cls k (fields.map (·.relabel ρ.written)))
      (resolveFields cls k (fields.map (·.relabel ρ'.written))) := by
  induction fields generalizing k with
  | nil => exact .done
  | cons f rest ih =>
    exact (mirrors_resolveType (cls.field k).type f.type).bind fun _ => ih (k + 1)

/-- Enters a member into the scope of its class, if it is the one that the class is known by. -/
def enterMember (cls : String) (d : Decl) : Resolving Unit := do
  if (← table).retrieveMember? cls d.name = some d then
    let _ ← enter d d.pos

theorem mirrors_enterMember (cls : String) (d : Decl) :
    Mirrors ρ ρ' Naming.relabel unchanged (enterMember (ρ.name cls) (d.relabel ρ))
      (enterMember (ρ'.name cls) (d.relabel ρ')) := by
  refine mirrors_table.bind fun t => ?_
  have known : ∀ ρ : Relabelling,
      (t.relabel ρ).retrieveMember? (ρ.name cls) (d.relabel ρ).name = some (d.relabel ρ) ↔
        t.retrieveMember? cls d.name = some d := by
    intro ρ
    rw [Decl.relabel_name, ScopeTable.retrieveMember?_relabel]
    simp
  simp only [known]
  split
  · exact (mirrors_enter d d.places).bind fun _ => .done
  · exact .done

theorem mirrors_resolveClass (site : Site) (c : ClassDecl) :
    Mirrors ρ ρ' Naming.relabel unchanged (resolveClass site (c.relabel ρ.written))
      (resolveClass site (c.relabel ρ'.written)) := by
  refine mirrors_openScope.bind fun _ => ?_
  rw [ClassDecl.members_relabel, ClassDecl.members_relabel, ClassDecl.sitedMethods_relabel,
    ClassDecl.sitedMethods_relabel]
  refine (Mirrors.forM (f := enterMember (ρ.name c.name)) (g := enterMember (ρ'.name c.name)) _ _
    (c.members site) fun d _ => mirrors_enterMember c.name d).bind fun _ => ?_
  refine (mirrors_resolveFields site 0 c.fields).bind fun _ => ?_
  refine (Mirrors.forM _ _ (c.sitedMethods site) fun m _ =>
    mirrors_resolveMethodDecl (c.ref site) m.1 m.2).bind fun _ => ?_
  exact mirrors_closeScope

end Resolving

/-- The classes that a relabelled table knows are those that the table knows, relabelled. -/
theorem Program.registered_relabel (ρ : Relabelling) (p : Program) (t : ScopeTable) :
    (p.relabel ρ.written).registered (t.relabel ρ) =
      (p.registered t).map fun c => (c.1, c.2.relabel ρ.written) := by
  have known : ∀ c : Site × ClassDecl,
      (t.relabel ρ).retrieveClass? (ρ.name c.2.name) = some ((c.2.ref c.1).relabel ρ) ↔
        t.retrieveClass? c.2.name = some (c.2.ref c.1) := by
    intro c
    rw [ScopeTable.retrieveClass?_relabel]
    simp
  rw [registered, registered, sitedClasses_relabel, List.filter_map]
  refine congrArg _ (List.filter_congr fun c _ => ?_)
  exact decide_eq_decide.mpr (known c)

/-- Resolution finds the same faults in a program, whichever way it is relabelled. -/
theorem Resolving.mirrors_resolve {ρ ρ' : Relabelling} (p : Program) :
    Pass.Mirrors ρ ρ' Naming.relabel unchanged (resolve (p.relabel ρ.written))
      (resolve (p.relabel ρ'.written)) := by
  refine (mirrors_collect p).bind fun _ => mirrors_table.bind fun t => ?_
  rw [Program.registered_relabel, Program.registered_relabel]
  exact .forM _ _ (p.registered t) fun c _ => mirrors_resolveClass c.1 c.2

end JamCompiler
