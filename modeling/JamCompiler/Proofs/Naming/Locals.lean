import JamCompiler.Proofs.Naming.Programs

/-!
# Locals in force

Where the locals in force at a use come from: a parameter of the method, or a variable that the
method declares, whose written type is a use of the method too.
-/

namespace JamCompiler

/-- The locals in force where a reference stands. -/
def Use.inForce : Use → Scope
  | ref _ locals _ _ | callee _ locals _ _ => locals
  | _ => []

mutual

/-- An expression declares nothing. -/
theorem Expr.inForce_of_uses {ctx : Resolving.Context} {locals : Scope} {site : Site} (e : Expr) :
    ∀ u ∈ e.uses ctx locals site, u.inForce ⊆ locals := by
  match e with
  | .int .. | .bool .. | .null .. => simp [uses]
  | .unknown .. => simp [uses, Use.inForce]
  | .unary _ operand _ => exact operand.inForce_of_uses
  | .binary _ left right _ =>
    exact List.forall_mem_append.mpr ⟨left.inForce_of_uses, right.inForce_of_uses⟩
  | .ref r _ => simp [uses, Use.inForce]
  | .index r i _ =>
    exact List.forall_mem_cons.mpr ⟨List.Subset.refl _, i.inForce_of_uses⟩
  | .call method args _ =>
    exact List.forall_mem_cons.mpr ⟨List.Subset.refl _, Expr.inForce_of_argUses args⟩
  | .newObject type _ => simp [uses, Use.inForce]
  | .newArray element size _ =>
    exact List.forall_mem_cons.mpr ⟨List.nil_subset _, size.inForce_of_uses⟩

theorem Expr.inForce_of_argUses {ctx : Resolving.Context} {locals : Scope} {call : Site} {k : Nat}
    (args : List Expr) : ∀ u ∈ Expr.argUses ctx locals call k args, u.inForce ⊆ locals := by
  match args with
  | [] => simp [argUses]
  | e :: rest =>
    exact List.forall_mem_append.mpr ⟨e.inForce_of_uses, Expr.inForce_of_argUses rest⟩

end

namespace Stmt

/-- A variable whose written type is among some uses. -/
def Declared (uses : List Use) (q : String × Decl) : Prop :=
  ∃ site var, q = (var.name, .var site var) ∧ Use.type site.type var.type ∈ uses

theorem Declared.mono {uses more : List Use} {q : String × Decl} (h : Declared uses q)
    (sub : uses ⊆ more) : Declared more q := by
  obtain ⟨site, var, same, written⟩ := h
  exact ⟨site, var, same, sub written⟩

theorem declared_of_localsAfter {ctx : Resolving.Context} {locals : Scope} {site : Site} {s : Stmt}
    {q : String × Decl} (h : q ∈ s.localsAfter locals site) :
    q ∈ locals ∨ Declared (s.uses ctx locals site) q := by
  cases s with
  | declare var init pos =>
    rcases List.mem_cons.mp h with rfl | h
    · exact .inr ⟨site.var, var, rfl, List.mem_cons_self⟩
    · exact .inl h
  | block | assign | assignIndex | call | ret | ifThen | ifElse | loop | unknown => exact .inl h

mutual

theorem inForce_of_uses {ctx : Resolving.Context} {locals : Scope} {site : Site} (s : Stmt) :
    ∀ u ∈ s.uses ctx locals site, ∀ q ∈ u.inForce,
      q ∈ locals ∨ Declared (s.uses ctx locals site) q := by
  have plain : ∀ {uses : List Use}, (∀ u ∈ uses, u.inForce ⊆ locals) → ∀ u ∈ uses, ∀ q ∈ u.inForce,
      q ∈ locals ∨ Declared (s.uses ctx locals site) q := fun h u hu q hq => .inl (h u hu hq)
  match s with
  | .unknown .. => simp [uses, Use.inForce]
  | .block stmts _ => exact inForce_of_usesFrom stmts
  | .declare var init _ =>
    intro u hu q hq
    rcases List.mem_cons.mp hu with rfl | hu
    · cases hq
    · rcases List.mem_cons.mp hu with rfl | hu
      · cases hq
      · exact declared_of_localsAfter (s := .declare var init _) (init.inForce_of_uses u hu hq)
  | .assign target value _ =>
    exact plain (List.forall_mem_cons.mpr ⟨List.Subset.refl _, value.inForce_of_uses⟩)
  | .assignIndex target index value _ =>
    exact plain (List.forall_mem_cons.mpr ⟨List.Subset.refl _,
      List.forall_mem_append.mpr ⟨index.inForce_of_uses, value.inForce_of_uses⟩⟩)
  | .call method args _ =>
    exact plain (List.forall_mem_cons.mpr ⟨List.Subset.refl _, Expr.inForce_of_argUses args⟩)
  | .ret none _ => simp [uses]
  | .ret (some value) _ => exact plain value.inForce_of_uses
  | .ifThen cond body _ | .loop cond body _ =>
    intro u hu q hq
    rcases List.mem_append.mp hu with hu | hu
    · exact .inl (cond.inForce_of_uses u hu hq)
    · rcases List.mem_cons.mp hu with rfl | hu
      · cases hq
      · exact (inForce_of_uses body u hu q hq).imp_right fun h => h.mono
          (List.Subset.trans (List.subset_cons_self _ _) (List.subset_append_right _ _))
  | .ifElse cond body other _ =>
    intro u hu q hq
    rcases List.mem_append.mp hu with hu | hu
    · exact .inl (cond.inForce_of_uses u hu hq)
    · rcases List.mem_cons.mp hu with rfl | hu
      · cases hq
      · rcases List.mem_append.mp hu with hu | hu
        · refine (inForce_of_uses body u hu q hq).imp_right fun h => h.mono fun v hv => ?_
          exact List.mem_append_right _ (List.mem_cons_of_mem _ (List.mem_append_left _ hv))
        · rcases List.mem_cons.mp hu with rfl | hu
          · cases hq
          · refine (inForce_of_uses other u hu q hq).imp_right fun h => h.mono fun v hv => ?_
            exact List.mem_append_right _ (List.mem_cons_of_mem _
              (List.mem_append_right _ (List.mem_cons_of_mem _ hv)))

theorem inForce_of_usesFrom {ctx : Resolving.Context} {locals : Scope} {sites : Nat → Site}
    {k : Nat} (stmts : List Stmt) : ∀ u ∈ usesFrom ctx locals sites k stmts, ∀ q ∈ u.inForce,
      q ∈ locals ∨ Declared (usesFrom ctx locals sites k stmts) q := by
  match stmts with
  | [] => simp [usesFrom]
  | s :: rest =>
    intro u hu q hq
    rcases List.mem_append.mp hu with hu | hu
    · exact (inForce_of_uses s u hu q hq).imp_right fun h => h.mono (List.subset_append_left _ _)
    · rcases inForce_of_usesFrom rest u hu q hq with later | later
      · exact (declared_of_localsAfter later).imp_right fun h =>
          h.mono (List.subset_append_left _ _)
      · exact .inr (later.mono (List.subset_append_right _ _))

end

end Stmt

namespace MethodDecl

theorem mem_paramScope {method : Site} {k : Nat} {locals : Scope} {params : List ParamDecl}
    {q : String × Decl} (h : q ∈ paramScope method k locals params) :
    q ∈ locals ∨ ∃ i p, params[i]? = some p ∧ q = (p.name, .param (method.param (k + i)) p) := by
  induction params generalizing k locals with
  | nil => exact .inl h
  | cons p rest ih =>
    rcases ih h with h | ⟨i, p', h, same⟩
    · rcases List.mem_cons.mp h with rfl | h
      · exact .inr ⟨0, p, rfl, rfl⟩
      · exact .inl h
    · rw [Nat.add_assoc, Nat.add_comm 1 i] at same
      exact .inr ⟨i + 1, p', h, same⟩

theorem mem_paramUses {method : Site} {k i : Nat} {locals : Scope} {params : List ParamDecl}
    {p : ParamDecl} (h : params[i]? = some p) :
    Use.type (method.param (k + i)).type p.type ∈ paramUses method k locals params := by
  induction params generalizing k i locals with
  | nil => simp at h
  | cons q rest ih =>
    cases i with
    | zero =>
      cases h
      exact List.mem_cons_self
    | succ i =>
      have later := @ih (k + 1) i ((q.name, .param (method.param k) q) :: locals) h
      rw [Nat.add_assoc, Nat.add_comm 1 i] at later
      exact List.mem_cons_of_mem _ (List.mem_cons_of_mem _ later)

/-- The locals in force in the body of a method are its parameters and its variables. -/
theorem inForce_of_bodyUses {cls : ClassRef} {site : Site} {m : MethodDecl} {u : Use}
    (hu : u ∈ m.bodyUses cls site) {q : String × Decl} (hq : q ∈ u.inForce) :
    (∃ i p, m.head.params[i]? = some p ∧ q = (p.name, .param (site.param i) p)) ∨
      Stmt.Declared (m.bodyUses cls site) q := by
  rcases Stmt.inForce_of_usesFrom m.body u hu q hq with h | h
  · rcases mem_paramScope h with h | ⟨i, p, found, same⟩
    · cases h
    · rw [Nat.zero_add] at same
      exact .inl ⟨i, p, found, same⟩
  · exact .inr h

end MethodDecl

/-- References stand in the bodies of methods only. -/
theorem ClassDecl.mem_bodyUses {c : ClassDecl} {cls : Site} {u : Use} (hu : u ∈ c.uses cls)
    {l : Site × Reference} (hl : l ∈ u.references) :
    ∃ site m, (site, m) ∈ c.sitedMethods cls ∧ u ∈ m.bodyUses (c.ref cls) site := by
  have fields : ∀ (fields : List FieldDecl) (k : Nat), u ∉ fieldUses cls k fields := by
    intro fields
    induction fields with
    | nil => simp [fieldUses]
    | cons f rest ih =>
      intro k h
      rcases List.mem_cons.mp h with rfl | h
      · cases hl
      · exact ih _ h
  have params : ∀ (site : Site) (params : List ParamDecl) (k : Nat) (locals : Scope),
      u ∉ MethodDecl.paramUses site k locals params := by
    intro site params
    induction params with
    | nil => simp [MethodDecl.paramUses]
    | cons p rest ih =>
      intro k locals h
      rcases List.mem_cons.mp h with rfl | h
      · cases hl
      · rcases List.mem_cons.mp h with rfl | h
        · cases hl
        · exact ih _ _ h
  rcases List.mem_append.mp hu with h | h
  · exact absurd h (fields _ _)
  · obtain ⟨⟨site, m⟩, hm, h⟩ := List.mem_flatMap.mp h
    rcases List.mem_cons.mp h with rfl | h
    · cases hl
    · rcases List.mem_append.mp h with h | h
      · exact absurd h (params _ _ _ _)
      · exact ⟨site, m, hm, h⟩

theorem TypeExpr.typeIn_of_known {classes : String → Option ClassRef} {t : TypeExpr}
    (h : t.Known classes) (name : String) : t.typeIn classes ≠ .cls name none := by
  cases t with
  | base | array | unknown => simp [typeIn]
  | named id pos =>
    intro same
    simp only [typeIn, ValueType.cls.injEq] at same
    rw [Known, same.2] at h
    simp at h

namespace Program

variable {p : Program}

/-- In a program whose names can be resolved the class of every local is known. -/
theorem Resolvable.local_known (ok : p.Resolvable) {k : Nat} {c : ClassDecl}
    (hk : p.classes[k]? = some c) {site : Site} {m : MethodDecl}
    (hm : (site, m) ∈ c.sitedMethods (.classAt k)) {u : Use}
    (hu : u ∈ m.bodyUses (c.ref (.classAt k)) site) {q : String × Decl} (hq : q ∈ u.inForce)
    (name : String) : q.2.typeIn p.classNamed ≠ .cls name none := by
  rcases MethodDecl.inForce_of_bodyUses hu hq with
      ⟨i, param, found, rfl⟩ | ⟨site', var, rfl, written⟩
  · have written : Use.type (site.param (0 + i)).type param.type ∈ c.uses (.classAt k) := by
      refine List.mem_append_right _ (List.mem_flatMap.mpr ⟨(site, m), hm, ?_⟩)
      exact List.mem_cons_of_mem _ (List.mem_append_left _ (MethodDecl.mem_paramUses found))
    exact TypeExpr.typeIn_of_known (ok.ok k c hk _ written) name
  · exact TypeExpr.typeIn_of_known
      (ok.ok k c hk _ (ClassDecl.bodyUses_subset hm written)) name

/-- So is the class of every field. -/
theorem Resolvable.field_known (ok : p.Resolvable) {j : Nat} {c : ClassDecl}
    (hj : p.classes[j]? = some c) {i : Nat} {f : FieldDecl} (hf : c.fields[i]? = some f)
    (name : String) : f.type.typeIn p.classNamed ≠ .cls name none := by
  have written := ClassDecl.mem_fieldUses (.classAt j) 0 hf
  exact TypeExpr.typeIn_of_known (ok.ok j c hj _ (List.mem_append_left _ written)) name

end Program

end JamCompiler
