import JamCompiler.Proofs.Accepted
import JamCompiler.Proofs.Typing.Annotations
import JamCompiler.Proofs.Typing.Declared

/-!
# Checking decides the typing rules

A check of a parsed program reports nothing exactly if the bodies are derivable by the rules, and
then every expression carries the type that is derived for it. Whatever it reports, if it comes to
its end then every node carries a type.
-/

namespace JamCompiler

open Pass Typing

section Nodes

variable {bound : Site → Option Decl}

mutual

theorem Expr.written_parts {site : Site} (e : Expr) (h : e.Written) :
    ∀ n ∈ e.parts site, n.2.Written := by
  match e with
  | .int .. | .bool .. | .null .. | .ref .. | .newObject .. | .unknown .. => exact nofun
  | .unary op operand pos => exact List.forall_mem_cons.mpr ⟨h.2, operand.written_parts h.2⟩
  | .binary op left right pos =>
    exact List.forall_mem_append.mpr ⟨List.forall_mem_cons.mpr ⟨h.2.1, left.written_parts h.2.1⟩,
      List.forall_mem_cons.mpr ⟨h.2.2, right.written_parts h.2.2⟩⟩
  | .index r i pos => exact List.forall_mem_cons.mpr ⟨h.2, i.written_parts h.2⟩
  | .call r args pos => exact Expr.written_argNodes args h.2
  | .newArray element size pos => exact List.forall_mem_cons.mpr ⟨h.2, size.written_parts h.2⟩

theorem Expr.written_argNodes {call : Site} {k : Nat} (es : List Expr) (h : Expr.AllWritten es) :
    ∀ n ∈ Expr.argNodes call k es, n.2.Written := by
  match es with
  | [] => exact nofun
  | e :: rest =>
    exact List.forall_mem_append.mpr ⟨List.forall_mem_cons.mpr ⟨h.1, e.written_parts h.1⟩,
      Expr.written_argNodes rest h.2⟩

end

theorem Expr.written_nodes {site : Site} (e : Expr) (h : e.Written) :
    ∀ n ∈ e.nodes site, n.2.Written :=
  List.forall_mem_cons.mpr ⟨h, e.written_parts h⟩

mutual

theorem Stmt.written_exprNodes {site : Site} (s : Stmt) (h : s.Written) :
    ∀ n ∈ s.exprNodes site, n.2.Written := by
  match s with
  | .block stmts pos => exact Stmt.written_exprNodesFrom stmts h
  | .declare var init pos => exact init.written_nodes h.2
  | .assign target value pos => exact value.written_nodes h.2
  | .assignIndex target index value pos =>
    exact List.forall_mem_append.mpr ⟨index.written_nodes h.2.1, value.written_nodes h.2.2⟩
  | .call method args pos => exact Expr.written_argNodes args h.2
  | .ret none pos => exact nofun
  | .ret (some value) pos => exact value.written_nodes h
  | .ifThen cond body pos | .loop cond body pos =>
    exact List.forall_mem_append.mpr ⟨cond.written_nodes h.1, body.written_exprNodes h.2⟩
  | .ifElse cond body other pos =>
    exact List.forall_mem_append.mpr ⟨cond.written_nodes h.1, List.forall_mem_append.mpr
      ⟨body.written_exprNodes h.2.1, other.written_exprNodes h.2.2⟩⟩
  | .unknown .. => exact h.elim

theorem Stmt.written_exprNodesFrom {sites : Nat → Site} {k : Nat} (ss : List Stmt)
    (h : Stmt.AllWritten ss) : ∀ n ∈ Stmt.exprNodesFrom sites k ss, n.2.Written := by
  match ss with
  | [] => exact nofun
  | s :: rest =>
    exact List.forall_mem_append.mpr ⟨s.written_exprNodes h.1, Stmt.written_exprNodesFrom rest h.2⟩

end

/-- Whether an expression has a type by itself. -/
def Typed (bound : Site → Option Decl) (n : Site × Expr) : Prop := ∃ t, n.2.type? bound n.1 = some t

mutual

/-- What is in an expression with a type has types. -/
theorem Expr.typed_parts {site : Site} {t : ValueType} (e : Expr)
    (h : e.type? bound site = some t) : ∀ n ∈ e.parts site, Typed bound n := by
  match e with
  | .int .. | .bool .. | .null .. | .ref .. | .newObject .. | .unknown .. => exact nofun
  | .unary op operand pos =>
    obtain ⟨given, inner, -⟩ := Option.bind_eq_some_iff.mp h
    exact List.forall_mem_cons.mpr ⟨⟨given, inner⟩, operand.typed_parts inner⟩
  | .binary op left right pos =>
    obtain ⟨l, first, rest⟩ := Option.bind_eq_some_iff.mp h
    obtain ⟨r, second, -⟩ := Option.bind_eq_some_iff.mp rest
    exact List.forall_mem_append.mpr ⟨List.forall_mem_cons.mpr ⟨⟨l, first⟩, left.typed_parts first⟩,
      List.forall_mem_cons.mpr ⟨⟨r, second⟩, right.typed_parts second⟩⟩
  | .index r i pos =>
    obtain ⟨base, -, rest⟩ := Option.bind_eq_some_iff.mp h
    obtain ⟨given, inner, -⟩ := Option.bind_eq_some_iff.mp rest
    exact List.forall_mem_cons.mpr ⟨⟨given, inner⟩, i.typed_parts inner⟩
  | .call r args pos =>
    obtain ⟨d, -, rest⟩ := Option.bind_eq_some_iff.mp h
    obtain ⟨types, inner, -⟩ := Option.bind_eq_some_iff.mp rest
    exact Expr.typed_argNodes args inner
  | .newArray element size pos =>
    obtain ⟨given, inner, -⟩ := Option.bind_eq_some_iff.mp h
    exact List.forall_mem_cons.mpr ⟨⟨given, inner⟩, size.typed_parts inner⟩

theorem Expr.typed_argNodes {call : Site} {k : Nat} {types : List ValueType} (es : List Expr)
    (h : Expr.argTypes? bound call k es = some types) :
    ∀ n ∈ Expr.argNodes call k es, Typed bound n := by
  match es with
  | [] => exact nofun
  | e :: rest =>
    obtain ⟨t, first, others⟩ := Option.bind_eq_some_iff.mp h
    obtain ⟨types', later, -⟩ := Option.map_eq_some_iff.mp others
    exact List.forall_mem_append.mpr ⟨List.forall_mem_cons.mpr ⟨⟨t, first⟩, e.typed_parts first⟩,
      Expr.typed_argNodes rest later⟩

end

theorem Expr.typed_nodes {site : Site} {t : ValueType} {e : Expr}
    (h : e.type? bound site = some t) : ∀ n ∈ e.nodes site, Typed bound n :=
  List.forall_mem_cons.mpr ⟨⟨t, h⟩, e.typed_parts h⟩

namespace Stmt

variable {ctx : Context}

mutual

/-- The expressions in a well-typed statement have types. -/
theorem typed_exprNodes {site : Site} (s : Stmt) (h : s.WellTyped ctx site) :
    ∀ n ∈ s.exprNodes site, Typed ctx.bound n := by
  match s with
  | .block stmts pos => exact typed_exprNodesFrom stmts h
  | .declare var init pos =>
    obtain ⟨given, typed, -⟩ := h
    exact Expr.typed_nodes typed
  | .assign target value pos =>
    obtain ⟨expected, -, given, typed, -⟩ := h
    exact Expr.typed_nodes typed
  | .assignIndex target index value pos =>
    obtain ⟨type, -, i, index', given, typed, -⟩ := h
    exact List.forall_mem_append.mpr ⟨Expr.typed_nodes index', Expr.typed_nodes typed⟩
  | .call method args pos =>
    obtain ⟨d, -, types, typed, -⟩ := h
    exact Expr.typed_argNodes args typed
  | .ret none pos => exact nofun
  | .ret (some value) pos =>
    obtain ⟨given, typed, -⟩ := h
    exact Expr.typed_nodes typed
  | .ifThen cond body pos | .loop cond body pos =>
    obtain ⟨⟨given, typed, -⟩, body'⟩ := h
    exact List.forall_mem_append.mpr ⟨Expr.typed_nodes typed, typed_exprNodes body body'⟩
  | .ifElse cond body other pos =>
    obtain ⟨⟨given, typed, -⟩, body', other'⟩ := h
    exact List.forall_mem_append.mpr ⟨Expr.typed_nodes typed, List.forall_mem_append.mpr
      ⟨typed_exprNodes body body', typed_exprNodes other other'⟩⟩
  | .unknown .. => exact nofun

theorem typed_exprNodesFrom {sites : Nat → Site} {k : Nat} (ss : List Stmt)
    (h : AllWellTyped ctx sites k ss) : ∀ n ∈ exprNodesFrom sites k ss, Typed ctx.bound n := by
  match ss with
  | [] => exact nofun
  | s :: rest =>
    exact List.forall_mem_append.mpr ⟨typed_exprNodes s h.1, typed_exprNodesFrom rest h.2⟩

end

end Stmt

namespace Program

variable {p : Program}

theorem written_exprNodes (written : p.Written) : ∀ n ∈ p.exprNodes, n.2.Written := by
  intro n hn
  obtain ⟨⟨site, m⟩, hm, inside⟩ := List.mem_flatMap.mp hn
  obtain ⟨k, c, hk, hs⟩ := mem_sitedMethods.mp hm
  have shape :=
    (written c (List.mem_of_getElem? hk)).methods m (ClassDecl.mem_of_mem_sitedMethods hs)
  exact Stmt.written_exprNodesFrom m.body shape.body n inside

theorem typed_exprNodes (typed : p.WellTyped bound) : ∀ n ∈ p.exprNodes, Typed bound n := by
  intro n hn
  obtain ⟨⟨site, m⟩, hm, inside⟩ := List.mem_flatMap.mp hn
  exact Stmt.typed_exprNodesFrom m.body (typed _ hm) n inside

end Program

end Nodes

section Runs

variable {bound : Site → Option Decl} {p : Program} {log : Log} {w : Work (SiteMap ValueType)}
  {answer : Except Stop Unit}

namespace Typing

/-- A check of a written program whose references are bound comes to its end, unless the first error
is to end it. -/
theorem ended_of_bound (written : p.Written) (known : AllBound bound p.uses)
    (lenient : log.failFast = false) (checked : (check bound p).run log {} = (w, answer)) :
    answer = .ok () := by
  have types : Types False False (check bound p) := by
    refine types_check (fun k c hk u hu l hl unbound => ?_) fun foreign => foreign written
    have use : u ∈ p.uses :=
      List.mem_flatMap.mpr ⟨(.classAt k, c), Program.mem_sitedClasses.mpr ⟨k, hk, rfl⟩, hu⟩
    have isSome := known u use l hl
    rw [unbound] at isSome
    cases isSome
  unfold Pass.run at checked
  split at checked
  · cases checked
    rfl
  · rename_i stop v stopped
    cases stop with
    | missingArgument => obtain ⟨-, ⟨⟩⟩ | ⟨⟨⟩, -⟩ := types.missed stopped
    | aborted d =>
      obtain ⟨more, -, -, (⟨-, ⟨⟩⟩ | ⟨⟨⟩, -⟩) | ⟨strictly, -⟩⟩ := types.aborted stopped
      exact absurd (lenient.symm.trans strictly) (by simp)

end Typing

/-- What a check that comes to its end leaves at the nodes of a program. -/
theorem Program.annotated_of_check (checked : (Typing.check bound p).run log {} = (w, .ok ())) :
    (∀ n ∈ p.exprNodes, Typing.Annotated bound w.own n) ∧
      ∀ s ∈ p.stmtSites, w.own.get? s = some (.base .unsupported) :=
  have covered := (Typing.ends_check bound p).holds (run_eq_ok checked)
  ⟨covered.exprs, covered.sites⟩

end Runs

section Decides

variable {text : List Char} {failFast : Bool} {p : Program} {c : Compilation}
  {t : ScopeTable} {log : Log}
  {w : Work (SiteMap ValueType)} {resolution answer : Except Stop Unit}

/-- Let names be bound by a resolution of a program, whatever that answers, and let all references
be bound. Then a check records no error exactly if the bodies are derivable by the rules, where
values are returned only from methods with a result, so that they are derivable by the documented
rules too. In that case all expressions are annotated with the types that are derived for them, in
which the type of what was already reported does not occur. If a check comes to its end, as it does
unless the first error ends it, then all expressions and statements are annotated, and that type
occurs only if an error was recorded. -/
theorem check_decides_rules (parsed : Program.ofText? text = .ok p)
    (resolved : (p.start failFast).resolve = (c, t, resolution))
    (known : Typing.AllBound c.bindings.get? p.uses)
    (checked : (Typing.check c.bindings.get? p).run log {} = (w, answer)) :
    (w.log.errors = log.errors ↔ p.Derivable c.bindings.get? false) ∧
    (p.Derivable c.bindings.get? false → p.Derivable c.bindings.get? true) ∧
    (p.Derivable c.bindings.get? false → ∀ n ∈ p.exprNodes, ∃ type, w.own.get? n.1 = some type ∧
      type.ErrorFree ∧ ∀ s, n.2.HasType c.bindings.get? n.1 s ↔ s = type) ∧
    (log.failFast = false → answer = .ok ()) ∧
    (answer = .ok () →
      (∀ n ∈ p.exprNodes, ∃ type, w.own.get? n.1 = some type ∧
        (¬ type.ErrorFree → w.log.errors ≠ log.errors)) ∧
      ∀ s ∈ p.stmtSites, w.own.get? s = some (.base .unsupported)) := by
  have written := Program.written_of_ofText parsed
  have declared := Program.declared_of_resolve written resolved
  have clean_iff := Typing.clean_iff_wellTyped checked
  have derivable_iff := Program.derivable_iff written declared
  -- an expression that has a type is annotated with it, whatever else was reported
  have derived {n : Site × Expr} (hn : n ∈ p.exprNodes) (ended : answer = .ok ())
      (typed : p.WellTyped c.bindings.get?) : ∃ type, w.own.get? n.1 = some type ∧ type.ErrorFree ∧
        n.2.HasType c.bindings.get? n.1 type := by
    subst ended
    obtain ⟨type, annotated, same⟩ := (Program.annotated_of_check checked).1 n hn
    obtain ⟨s, own⟩ := Program.typed_exprNodes typed n hn
    obtain rfl := same s own
    obtain ⟨hasType, free⟩ :=
      n.2.hasType_of_type? declared (Program.written_exprNodes written n hn) own
    exact ⟨type, annotated, free, hasType⟩
  refine ⟨clean_iff.trans derivable_iff.symm, .loosen, fun derivable n hn => ?_,
    fun lenient => Typing.ended_of_bound written known lenient checked, fun ended => ?_⟩
  · have typed := derivable_iff.mp derivable
    have ended := Typing.ended_of_clean checked (clean_iff.mpr typed)
    obtain ⟨type, annotated, free, hasType⟩ := derived hn ended typed
    refine ⟨type, annotated, free, fun s => ⟨fun hasType' => hasType'.unique hasType, ?_⟩⟩
    rintro rfl
    exact hasType
  · subst ended
    obtain ⟨exprs, stmts⟩ := Program.annotated_of_check checked
    refine ⟨fun n hn => ?_, stmts⟩
    obtain ⟨type, annotated, -⟩ := exprs n hn
    refine ⟨type, annotated, fun faulty clean => ?_⟩
    obtain ⟨type', annotated', free, -⟩ := derived hn rfl (clean_iff.mp clean)
    cases annotated.symm.trans annotated'
    exact faulty free

end Decides

/-- Elements, operators, calls and conditions in one method. -/
def typedText : List Char :=
  ("class A \x7b int[] n; boolean f(int k, A o) \x7b if (o == null) o.n[k] = -k; " ++
    "boolean b = this.f(n[0] + 1, o); return !b || k < n.length; \x7d \x7d").toList

theorem typedText_derivable : ∃ p c t w, Program.ofText? typedText = .ok p ∧
    (p.start false).resolve = (c, t, .ok ()) ∧ Typing.AllBound c.bindings.get? p.uses ∧
      (Typing.check c.bindings.get? p).run {} {} = (w, .ok ()) ∧ p.Derivable c.bindings.get? false ∧
        ∀ n ∈ p.exprNodes, ∃ type, w.own.get? n.1 = some type ∧ type.ErrorFree := by
  obtain ⟨p, c, t, parsed, resolved, -, h⟩ := exists_resolved_of_check typedText
    (P := fun p c => (p.uses.all fun u => u.references.all fun l => (c.bindings.get? l.1).isSome) &&
      ((Typing.check c.bindings.get? p).run {} {}).1.log.errors.isEmpty) (by decide +kernel)
  simp only [Bool.and_eq_true, List.all_eq_true, List.isEmpty_iff] at h
  obtain ⟨known, clean⟩ := h
  cases checked : (Typing.check c.bindings.get? p).run {} {} with
  | mk w answer =>
    rw [checked] at clean
    obtain ⟨same, -, annotated, finished, -⟩ := check_decides_rules parsed resolved known checked
    obtain rfl := finished rfl
    have derivable := same.mp clean
    refine ⟨p, c, t, w, parsed, resolved, known, checked, derivable, fun n hn => ?_⟩
    obtain ⟨type, here, free, -⟩ := annotated derivable n hn
    exact ⟨type, here, free⟩

/-- A method without a result returns the value of a call of another one. -/
def voidReturnText : List Char :=
  "class A \x7b static void g() \x7b \x7d static void f() \x7b return g(); \x7d \x7d".toList

/-- The method of that text that is called. -/
def voidReturnCallee : MethodHead where
  name := "g"
  result := .base .void 17
  isStatic := true
  params := []
  pos := 22

/-- Whether methods are a callee and another one that returns the value of a call of it. -/
def returnsVoidCall (bound : Site → Option Decl) : List (Site × MethodDecl) → Bool
  | [(callee, ⟨_, []⟩), (site, ⟨⟨_, .base .void _, _, _, _, _⟩, [.ret (some (.call _ [] _)) _]⟩)] =>
    bound (site.body 0).value.target = some (.method (.user callee) voidReturnCallee)
  | _ => false

/-- That is derivable by the rule for returning a value as it is documented, and reported as an
error. -/
theorem voidReturnText_reported : ∃ p c t w, Program.ofText? voidReturnText = .ok p ∧
    (p.start false).resolve = (c, t, .ok ()) ∧ Typing.AllBound c.bindings.get? p.uses ∧
      p.Derivable c.bindings.get? true ∧
        (Typing.check c.bindings.get? p).run {} {} = (w, .ok ()) ∧ w.log.errors ≠ [] := by
  obtain ⟨p, c, t, parsed, resolved, -, h⟩ := exists_resolved_of_check voidReturnText
    (P := fun p c => (p.uses.all fun u => u.references.all fun l => (c.bindings.get? l.1).isSome) &&
      returnsVoidCall c.bindings.get? p.sitedMethods &&
      ((Typing.check c.bindings.get? p).run {} {}).2.isOk &&
      !((Typing.check c.bindings.get? p).run {} {}).1.log.errors.isEmpty) (by decide +kernel)
  simp only [Bool.and_eq_true, List.all_eq_true, Bool.not_eq_true', List.isEmpty_eq_false_iff] at h
  obtain ⟨⟨⟨known, methods⟩, finished⟩, reported⟩ := h
  obtain ⟨w, checked⟩ := exists_ended_of_isOk finished
  rw [checked] at reported
  refine ⟨p, c, t, w, parsed, resolved, known, ?_, checked, reported⟩
  unfold Program.Derivable
  unfold returnsVoidCall at methods
  split at methods
  · rename_i sited
    rw [sited]
    refine List.forall_mem_cons.mpr
      ⟨by rintro _ _ ⟨⟩, List.forall_mem_singleton.mpr fun k s hs => ?_⟩
    cases k with
    | succ k => cases hs
    | zero =>
      cases hs
      refine .retValue (.call (of_decide_eq_true methods) rfl (by simp) .nil) ?_ (.inl rfl)
      exact .base (by rintro ⟨⟩) (by rintro ⟨⟩)
  · cases methods

end JamCompiler
