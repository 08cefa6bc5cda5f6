import JamCompiler.Program.Reading

/-!
# Trees that are written

The trees that reading makes have no foreign nodes and no operators outside the language, and what
they declare has a type other than `void`, except for the results of methods. `Yields` says what
every answer of a reading step is like; each step of the grammar has one lemma in its terms, and the
mutually recursive ones go by induction on the depth that is left.
-/

namespace JamCompiler

namespace TypeExpr

/-- The types of variables. -/
def Written : TypeExpr → Prop
  | base .int _ | base .boolean _ | named .. | array (base .int _) _ | array (named ..) _ => True
  | _ => False

/-- The types of results. -/
def WrittenResult (t : TypeExpr) : Prop := t.Written ∨ t.isVoid = true

@[elab_as_elim]
theorem Written.elim {motive : (t : TypeExpr) → t.Written → Prop}
    (int : ∀ pos, motive (.base .int pos) trivial)
    (boolean : ∀ pos, motive (.base .boolean pos) trivial)
    (named : ∀ name pos, motive (.named name pos) trivial)
    (ints : ∀ pos pos', motive (.array (.base .int pos) pos') trivial)
    (nameds : ∀ name pos pos', motive (.array (.named name pos) pos') trivial) {t : TypeExpr}
    (h : t.Written) : motive t h := by
  cases t with
  | base b pos =>
    cases b with
    | int => exact int pos
    | boolean => exact boolean pos
    | void | null | error | unsupported => exact False.elim h
  | named name pos => exact named name pos
  | array element pos' =>
    cases element with
    | base b pos =>
      cases b with
      | int => exact ints pos pos'
      | boolean | void | null | error | unsupported => exact False.elim h
    | named name pos => exact nameds name pos pos'
    | array | unknown => exact False.elim h
  | unknown => exact False.elim h

theorem WrittenResult.cases {t : TypeExpr} (h : t.WrittenResult) :
    t.Written ∨ ∃ pos, t = .base .void pos := by
  refine h.imp_right fun isVoid => ?_
  cases t with
  | base b pos =>
    cases b with
    | void => exact ⟨pos, rfl⟩
    | int | boolean | null | error | unsupported => cases isVoid
  | named | array | unknown => cases isVoid

end TypeExpr

def Reference.Written : Reference → Prop
  | this _ | ident .. => True
  | qualified qualifier _ _ => qualifier.Written
  | unknown .. => False

def UnaryOp.Written : UnaryOp → Prop
  | neg | not => True
  | other _ => False

def BinaryOp.Written : BinaryOp → Prop
  | other _ => False
  | _ => True

mutual

def Expr.Written : Expr → Prop
  | .int .. | .bool .. | .null .. => True
  | .unary op operand _ => op.Written ∧ operand.Written
  | .binary op left right _ => op.Written ∧ left.Written ∧ right.Written
  | .ref r _ => r.Written
  | .index r i _ => r.Written ∧ i.Written
  | .call method args _ => method.Written ∧ Expr.AllWritten args
  | .newObject type _ => type.Written
  | .newArray element size _ => element.Written ∧ size.Written
  | .unknown .. => False

def Expr.AllWritten : List Expr → Prop
  | [] => True
  | e :: rest => e.Written ∧ Expr.AllWritten rest

end

mutual

def Stmt.Written : Stmt → Prop
  | .block stmts _ => Stmt.AllWritten stmts
  | .declare var init _ => var.type.Written ∧ init.Written
  | .assign target value _ => target.Written ∧ value.Written
  | .assignIndex target index value _ => target.Written ∧ index.Written ∧ value.Written
  | .call method args _ => method.Written ∧ Expr.AllWritten args
  | .ret none _ => True
  | .ret (some value) _ => value.Written
  | .ifThen cond body _ | .loop cond body _ => cond.Written ∧ body.Written
  | .ifElse cond body other _ => cond.Written ∧ body.Written ∧ other.Written
  | .unknown .. => False

def Stmt.AllWritten : List Stmt → Prop
  | [] => True
  | s :: rest => s.Written ∧ Stmt.AllWritten rest

end

structure MethodDecl.Written (m : MethodDecl) : Prop where
  result : m.head.result.WrittenResult
  params : ∀ p ∈ m.head.params, p.type.Written
  body : Stmt.AllWritten m.body

structure ClassDecl.Written (c : ClassDecl) : Prop where
  fields : ∀ f ∈ c.fields, f.type.Written
  methods : ∀ m ∈ c.methods, m.Written

def Program.Written (p : Program) : Prop := ∀ c ∈ p.classes, c.Written

namespace Reading

variable {α β : Type}

/-- Every answer of a step is as said. -/
structure Yields (x : Reading α) (P : α → Prop) : Prop where
  holds : ∀ {tokens a rest}, EStateM.run x tokens = .ok a rest → P a

namespace Yields

variable {x : Reading α} {f : α → Reading β} {P : α → Prop} {Q : β → Prop}

theorem any (x : Reading α) : Yields x fun _ => True := ⟨fun _ => trivial⟩

theorem pure {a : α} (h : P a) : Yields (Pure.pure a) P := by
  refine ⟨fun run => ?_⟩
  cases run
  exact h

theorem stuck : Yields (Reading.stuck : Reading α) P := ⟨fun run => by cases run⟩

theorem bind (first : Yields x P) (next : ∀ a, P a → Yields (f a) Q) : Yields (x >>= f) Q := by
  refine ⟨fun run => ?_⟩
  rw [EStateM.run_bind] at run
  split at run
  · rename_i a rest' run'
    exact (next a (first.holds run')).holds run
  · cases run

/-- A first step of which nothing needs to be known. -/
theorem after (next : ∀ a, Yields (f a) Q) : Yields (x >>= f) Q :=
  (any x).bind fun a _ => next a

end Yields

theorem yields_arrayOr {element : TypeExpr} (h : element.Written)
    (h' : (TypeExpr.array element element.pos).Written) :
    Yields (arrayOr element) TypeExpr.Written := by
  refine .after fun bracket => ?_
  split
  · exact .after fun _ => .pure h'
  · exact .pure h

theorem yields_primitiveType : Yields primitiveType TypeExpr.Written := by
  refine .after fun next => ?_
  split
  · exact .after fun _ => .pure trivial
  · exact .after fun _ => yields_arrayOr trivial trivial

theorem yields_typeExpr : Yields typeExpr TypeExpr.Written := by
  refine .after fun next => ?_
  split
  · exact .after fun _ => yields_arrayOr trivial trivial
  · exact yields_primitiveType

theorem yields_qualifiers {r : Reference} (h : r.Written) :
    Yields (qualifiers r) Reference.Written := by
  refine ⟨fun {tokens a rest} run => ?_⟩
  change qualifiers r tokens = _ at run
  fun_induction qualifiers r tokens with
  | case1 _ _ _ _ _ _ _ ih => exact ih h run
  | case2 => cases run
  | case3 =>
    cases run
    exact h

theorem yields_reference : Yields reference Reference.Written := by
  refine .after fun next => ?_
  split
  · exact .after fun _ => yields_qualifiers trivial
  · exact .after fun _ => yields_qualifiers trivial

theorem binaryOp_written {s : Symbol} {op : BinaryOp} (h : binaryOp? s = some op) : op.Written := by
  cases s <;> cases h <;> trivial

theorem yields_nextOp (least : Nat) : Yields (nextOp least) fun o => ∀ p ∈ o, p.2.Written := by
  refine .after fun next => ?_
  split
  · split
    · rename_i s _ op found
      refine .pure ?_
      split
      · rintro p ⟨⟩
        exact binaryOp_written found
      · rintro p ⟨⟩
    · exact .pure (by simp)
  · exact .pure (by simp)

/-- What the steps for expressions yield at some depth. -/
structure ExprsWritten (fuel : Nat) : Prop where
  exprFrom : ∀ least, Yields (exprFrom fuel least) Expr.Written
  operators : ∀ least left, left.Written → Yields (operators fuel least left) Expr.Written
  operand : Yields (operand fuel) Expr.Written
  referenceOperand : ∀ r, r.Written → Yields (referenceOperand fuel r) Expr.Written
  creation : ∀ pos, Yields (creation fuel pos) Expr.Written
  bracketed : Yields (bracketed fuel) Expr.Written
  arguments : Yields (arguments fuel) Expr.AllWritten
  moreArguments : Yields (moreArguments fuel) Expr.AllWritten

theorem exprsWritten (fuel : Nat) : ExprsWritten fuel := by
  induction fuel with
  | zero =>
    exact ⟨fun _ => .stuck, fun _ _ _ => .stuck, .stuck, fun _ _ => .stuck, fun _ => .stuck, .stuck,
      .stuck, .stuck⟩
  | succ fuel ih =>
    constructor
    case exprFrom =>
      exact fun least => ih.operand.bind fun first h => ih.operators least first h
    case operators =>
      intro least left h
      refine (yields_nextOp least).bind fun o known => ?_
      split
      · exact .pure h
      · rename_i s op
        exact .after fun pos => (ih.exprFrom _).bind fun right h' =>
          ih.operators least _ ⟨known _ rfl, h, h'⟩
    case operand =>
      refine .after fun next => ?_
      split
      · exact .after fun _ => .pure trivial
      · exact .after fun _ => .pure trivial
      · exact .after fun _ => .pure trivial
      · exact .after fun _ => .pure trivial
      · exact .after fun _ => ih.operand.bind fun _ h => .pure ⟨trivial, h⟩
      · exact .after fun _ => ih.operand.bind fun _ h => .pure ⟨trivial, h⟩
      · exact .after fun _ => (ih.exprFrom 1).bind fun _ h => .after fun _ => .pure h
      · exact .after fun pos => ih.creation pos
      · exact yields_reference.bind fun r h => ih.referenceOperand r h
    case referenceOperand =>
      intro r h
      refine .after fun next => ?_
      split
      · exact .after fun _ => (ih.exprFrom 1).bind fun _ h' => .after fun _ => .pure ⟨h, h'⟩
      · exact ih.arguments.bind fun _ h' => .pure ⟨h, h'⟩
      · exact .pure h
    case creation =>
      intro pos
      refine .after fun next => ?_
      split
      · refine .after fun name => .after fun paren => ?_
        split
        · exact .after fun _ => .pure trivial
        · exact ih.bracketed.bind fun _ h => .pure ⟨trivial, h⟩
      · exact .after fun _ => ih.bracketed.bind fun _ h => .pure ⟨trivial, h⟩
    case bracketed =>
      exact .after fun _ => (ih.exprFrom 1).bind fun _ h => .after fun _ => .pure h
    case arguments =>
      refine .after fun _ => .after fun empty => ?_
      split
      · exact .pure trivial
      · exact (ih.exprFrom 1).bind fun _ h => ih.moreArguments.bind fun _ h' => .pure ⟨h, h'⟩
    case moreArguments =>
      refine .after fun comma => ?_
      split
      · exact (ih.exprFrom 1).bind fun _ h => ih.moreArguments.bind fun _ h' => .pure ⟨h, h'⟩
      · exact .after fun _ => .pure trivial

theorem yields_initializer (fuel : Nat) : Yields (initializer fuel) Expr.Written :=
  .after fun _ => ((exprsWritten fuel).exprFrom 1).bind fun _ h => .after fun _ => .pure h

theorem yields_declaration (fuel : Nat) {type : TypeExpr} (h : type.Written) :
    Yields (declaration fuel type) Stmt.Written :=
  .after fun _ => (yields_initializer fuel).bind fun _ h' => .pure ⟨h, h'⟩

theorem yields_elementAssignment (fuel : Nat) {r : Reference} (h : r.Written) :
    Yields (elementAssignment fuel r) Stmt.Written :=
  ((exprsWritten fuel).exprFrom 1).bind fun _ h' => .after fun _ =>
    (yields_initializer fuel).bind fun _ h'' => .pure ⟨h, h', h''⟩

theorem yields_referenceStmt (fuel : Nat) {r : Reference} (h : r.Written) :
    Yields (referenceStmt fuel r) Stmt.Written := by
  refine .after fun next => ?_
  split
  · exact (exprsWritten fuel).arguments.bind fun _ h' => .after fun _ => .pure ⟨h, h'⟩
  · split
    · exact .after fun _ => yields_elementAssignment fuel h
    · exact .stuck
  · exact (yields_initializer fuel).bind fun _ h' => .pure ⟨h, h'⟩

theorem yields_namedStmt (fuel : Nat) (name : Identifier) :
    Yields (namedStmt fuel name) Stmt.Written := by
  refine .after fun next => ?_
  split
  · exact yields_declaration fuel trivial
  · refine .after fun _ => .after fun array => ?_
    split
    · exact yields_declaration fuel trivial
    · exact yields_elementAssignment fuel trivial
  · exact (yields_qualifiers (r := .ident name name.pos) trivial).bind fun r h =>
      yields_referenceStmt fuel h

theorem yields_returnStmt (fuel pos : Nat) : Yields (returnStmt fuel pos) Stmt.Written := by
  refine .after fun empty => ?_
  split
  · exact .pure trivial
  · exact ((exprsWritten fuel).exprFrom 1).bind fun _ h => .after fun _ => .pure h

theorem yields_condition (fuel : Nat) : Yields (condition fuel) Expr.Written :=
  .after fun _ => ((exprsWritten fuel).exprFrom 1).bind fun _ h => .after fun _ => .pure h

/-- What the steps for statements yield at some depth. -/
structure StmtsWritten (fuel : Nat) : Prop where
  stmtFrom : Yields (stmtFrom fuel) Stmt.Written
  stmtsFrom : Yields (stmtsFrom fuel) Stmt.AllWritten

theorem stmtsWritten (fuel : Nat) : StmtsWritten fuel := by
  induction fuel with
  | zero => exact ⟨.stuck, .stuck⟩
  | succ fuel ih =>
    constructor
    case stmtFrom =>
      refine .after fun next => ?_
      split
      · exact .after fun _ => ih.stmtsFrom.bind fun _ h => .pure h
      · exact yields_primitiveType.bind fun _ h => yields_declaration fuel h
      · exact yields_primitiveType.bind fun _ h => yields_declaration fuel h
      · exact .after fun name => yields_namedStmt fuel name
      · exact yields_reference.bind fun r h => yields_referenceStmt fuel h
      · exact .after fun pos => yields_returnStmt fuel pos
      · refine .after fun _ => (yields_condition fuel).bind fun _ hc => ih.stmtFrom.bind fun _ hb =>
          .after fun other => ?_
        split
        · exact ih.stmtFrom.bind fun _ ho => .pure ⟨hc, hb, ho⟩
        · exact .pure ⟨hc, hb⟩
      · exact .after fun _ => (yields_condition fuel).bind fun _ hc => ih.stmtFrom.bind fun _ hb =>
          .pure ⟨hc, hb⟩
      · exact .stuck
    case stmtsFrom =>
      refine .after fun close => ?_
      split
      · exact .pure trivial
      · exact ih.stmtFrom.bind fun _ h => ih.stmtsFrom.bind fun _ h' => .pure ⟨h, h'⟩

theorem yields_parameter : Yields parameter fun p => p.type.Written :=
  yields_typeExpr.bind fun _ h => .after fun _ => .pure h

theorem yields_moreParameters (fuel : Nat) :
    Yields (moreParameters fuel) fun ps => ∀ p ∈ ps, p.type.Written := by
  induction fuel with
  | zero => exact .stuck
  | succ fuel ih =>
    refine .after fun comma => ?_
    split
    · exact yields_parameter.bind fun _ h => ih.bind fun _ h' =>
        .pure (List.forall_mem_cons.mpr ⟨h, h'⟩)
    · exact .after fun _ => .pure (by simp)

theorem yields_parameters (fuel : Nat) :
    Yields (parameters fuel) fun ps => ∀ p ∈ ps, p.type.Written := by
  refine .after fun _ => .after fun empty => ?_
  split
  · exact .pure (by simp)
  · exact yields_parameter.bind fun _ h => (yields_moreParameters fuel).bind fun _ h' =>
      .pure (List.forall_mem_cons.mpr ⟨h, h'⟩)

theorem yields_methodRest (fuel : Nat) (isPrivate isStatic : Bool) {result : TypeExpr}
    (h : result.WrittenResult) (name : Identifier) :
    Yields (methodRest fuel isPrivate isStatic result name) MethodDecl.Written :=
  (yields_parameters fuel).bind fun _ hp => .after fun _ => (stmtsWritten fuel).stmtsFrom.bind
    fun _ hb => .pure ⟨h, hp, hb⟩

/-- A member: a field of a type of variables, or a method. -/
def MemberWritten : FieldDecl ⊕ MethodDecl → Prop
  | .inl f => f.type.Written
  | .inr m => m.Written

theorem yields_member (fuel : Nat) : Yields (member fuel) MemberWritten := by
  refine .after fun isPrivate => .after fun isStatic => .after fun next => ?_
  split
  · exact .after fun _ => .after fun name =>
      (yields_methodRest fuel _ _ (.inr rfl) name).bind fun _ h => .pure h
  · refine yields_typeExpr.bind fun type h => .after fun name => .after fun field => ?_
    split
    · exact .pure h
    · exact (yields_methodRest fuel _ _ (.inl h) name).bind fun _ h => .pure h

theorem yields_members (fuel : Nat) :
    Yields (members fuel) fun ms => ∀ m ∈ ms, MemberWritten m := by
  induction fuel with
  | zero => exact .stuck
  | succ fuel ih =>
    refine .after fun close => ?_
    split
    · exact .pure (by simp)
    · exact (yields_member fuel).bind fun _ h => ih.bind fun _ h' =>
        .pure (List.forall_mem_cons.mpr ⟨h, h'⟩)

theorem yields_classDecl (fuel : Nat) : Yields (classDecl fuel) ClassDecl.Written := by
  refine .after fun _ => .after fun name => .after fun _ => (yields_members fuel).bind fun ms h =>
    .pure ⟨?_, ?_⟩
  · intro f hf
    obtain ⟨m, hm, same⟩ := List.mem_filterMap.mp hf
    obtain rfl := Sum.getLeft?_eq_some_iff.mp same
    exact h _ hm
  · intro m hm
    obtain ⟨e, he, same⟩ := List.mem_filterMap.mp hm
    obtain rfl := Sum.getRight?_eq_some_iff.mp same
    exact h _ he

theorem yields_classes (fuel : Nat) : Yields (classes fuel) fun cs => ∀ c ∈ cs, c.Written := by
  induction fuel with
  | zero => exact .stuck
  | succ fuel ih =>
    refine .after fun next => ?_
    split
    · exact .pure (by simp)
    · exact (yields_classDecl fuel).bind fun _ h => ih.bind fun _ h' =>
        .pure (List.forall_mem_cons.mpr ⟨h, h'⟩)

end Reading

/-- The program that a text is has no foreign parts. -/
theorem Program.written_of_ofText {text : List Char} {p : Program} (h : ofText? text = .ok p) :
    p.Written := by
  unfold ofText? ofScan? at h
  split at h
  · cases h
  · cases h
  · rename_i classes rest read
    have written := (Reading.yields_classes _).holds read
    split at h
    · cases h
      exact written
    · cases h

/-- An answer of which something is known by evaluation. -/
theorem exists_ok_of_any {ε α : Type} {x : Except ε α} {P : α → Bool}
    (h : x.toOption.any P = true) : ∃ a, x = .ok a ∧ P a = true := by
  cases x with
  | error e => cases h
  | ok a => exact ⟨a, rfl, h⟩

end JamCompiler
