import JamCompiler.Proofs.Reading.Lookahead
import JamCompiler.Proofs.Relabelling.Trees

/-!
# Reading relabelled tokens

What a reading step does next depends on the kinds of tokens, and of identifiers not on which name
they are; positions are only put into the tree. So a step makes of relabelled tokens the tree that
it makes of the tokens, relabelled, and where it is stuck on the one it is on the other.
-/

namespace JamCompiler

/-- A token with another name for its name. -/
def TokenKind.rename (name : String → String) : TokenKind → TokenKind
  | ident n => ident (name n)
  | number value => number value
  | keyword word => keyword word
  | symbol s => symbol s

theorem TokenKind.rename_id (kind : TokenKind) : kind.rename id = kind := by
  cases kind <;> rfl

theorem TokenKind.map_rename_id (ks : List TokenKind) : ks.map (rename id) = ks := by
  rw [funext rename_id, List.map_id']

/-- A token with other labels, on the line on which the new position is. -/
def Token.relabel (ρ : Relabelling) (line : Nat → Nat) (t : Token) : Token :=
  ⟨t.kind.rename ρ.name, ρ.place t.pos, line t.pos⟩

namespace Reading

variable {α β : Type} {ρ : Relabelling} {line : Nat → Nat}

/-- What a step ends with, with the answer and the tokens left relabelled. -/
def relabelResult (ρ : Relabelling) (line : Nat → Nat) (answer : α → β) :
    EStateM.Result Unit (List Token) α → EStateM.Result Unit (List Token) β
  | .ok a rest => .ok (answer a) (rest.map (Token.relabel ρ line))
  | .error e rest => .error e (rest.map (Token.relabel ρ line))

/-- On relabelled tokens `y` does what `x` does on the tokens, relabelled. -/
def Relabels (ρ : Relabelling) (line : Nat → Nat) (answer : α → β) (x : Reading α) (y : Reading β) :
    Prop :=
  ∀ ts, EStateM.run y (ts.map (Token.relabel ρ line)) =
    relabelResult ρ line answer (EStateM.run x ts)

theorem front_map_relabel (ts : List Token) :
    front (ts.map (Token.relabel ρ line)) = (front ts).map (TokenKind.rename ρ.name) := by
  cases ts <;> rfl

namespace Relabels

variable {α' β' : Type} {answer : α → α'} {after : β → β'} {x : Reading α} {y : Reading α'}

theorem pure (a : α) {a' : α'} (same : a' = answer a) :
    Relabels ρ line answer (Pure.pure a) (Pure.pure a') := by
  subst same
  exact fun _ => rfl

theorem stuck : Relabels ρ line answer Reading.stuck Reading.stuck := fun _ => rfl

theorem bind {f : α → Reading β} {g : α' → Reading β'} (first : Relabels ρ line answer x y)
    (next : ∀ a, Relabels ρ line after (f a) (g (answer a))) :
    Relabels ρ line after (x >>= f) (y >>= g) := by
  intro ts
  rw [EStateM.run_bind, EStateM.run_bind, first ts]
  cases EStateM.run x ts with
  | ok a rest => exact next a rest
  | error e rest => rfl

/-- The next step is chosen by the kind of the next token, if it does not look at its name. -/
theorem peek {f : Option TokenKind → Reading β} {g : Option TokenKind → Reading β'}
    (blind : ∀ kind : TokenKind, g (some (kind.rename ρ.name)) = g (some kind))
    (h : ∀ o, Relabels ρ line after (f o) (g o)) :
    Relabels ρ line after (Reading.peek >>= f) (Reading.peek >>= g) := by
  intro ts
  have chosen : g (front (ts.map (Token.relabel ρ line))) = g (front ts) := by
    rw [front_map_relabel]
    cases front ts with
    | none => rfl
    | some kind => exact blind kind
  change EStateM.run (g (front (ts.map (Token.relabel ρ line)))) _ = _
  rw [chosen]
  exact h (front ts) ts

theorem expect {kind : TokenKind} (named : ∀ n, kind ≠ .ident n) :
    Relabels ρ line ρ.place (Reading.expect kind) (Reading.expect kind) := by
  intro ts
  cases ts with
  | nil => rfl
  | cons t ts =>
    have same : (t.relabel ρ line).kind = kind ↔ t.kind = kind := by
      obtain ⟨kind', pos, n⟩ := t
      cases kind' with
      | ident name => exact iff_of_false (Ne.symm (named _)) (Ne.symm (named _))
      | number | keyword | symbol => exact Iff.rfl
    rw [List.map_cons, run_expect, run_expect]
    simp only [same]
    split <;> rfl

theorem symbol (s : Symbol) :
    Relabels ρ line ρ.place (Reading.symbol s) (Reading.symbol s) := expect nofun

theorem keyword (word : Keyword) :
    Relabels ρ line ρ.place (Reading.keyword word) (Reading.keyword word) := expect nofun

theorem number (value : Nat) :
    Relabels ρ line ρ.place (Reading.expect (.number value)) (Reading.expect (.number value)) :=
  expect nofun

theorem identifier :
    Relabels ρ line (Identifier.relabel ρ.written) Reading.identifier Reading.identifier := by
  intro ts
  cases ts with
  | nil => rfl
  | cons t ts =>
    obtain ⟨kind, pos, n⟩ := t
    cases kind <;> rfl

theorem takes {kind : TokenKind} (named : ∀ n, kind ≠ .ident n) :
    Relabels ρ line (id : Bool → Bool) (Reading.takes kind) (Reading.takes kind) := by
  have other :
      ∀ kind' : TokenKind, some (kind'.rename ρ.name) = some kind ↔ some kind' = some kind := by
    intro kind'
    cases kind' with
    | ident name => simp [TokenKind.rename, Ne.symm (named _)]
    | number | keyword | symbol => exact Iff.rfl
  refine peek (fun kind' => by simp only [other]) fun o => ?_
  split
  · exact (expect named).bind fun _ => .pure true rfl
  · exact .pure false rfl

theorem takesSymbol (s : Symbol) :
    Relabels ρ line (id : Bool → Bool) (Reading.takes (.symbol s)) (Reading.takes (.symbol s)) :=
  takes nofun

theorem takesKeyword (word : Keyword) :
    Relabels ρ line (id : Bool → Bool) (Reading.takes (.keyword word))
      (Reading.takes (.keyword word)) :=
  takes nofun

end Relabels

theorem relabels_arrayOr (element : TypeExpr) :
    Relabels ρ line (TypeExpr.relabel ρ.written) (arrayOr element)
      (arrayOr (element.relabel ρ.written)) := by
  refine (Relabels.takesSymbol .lbracket).bind fun taken => ?_
  cases taken with
  | false => exact .pure element rfl
  | true =>
    refine (Relabels.symbol .rbracket).bind fun _ => .pure (TypeExpr.array element element.pos) ?_
    rw [TypeExpr.pos_relabel]
    rfl

theorem relabels_primitiveType :
    Relabels ρ line (TypeExpr.relabel ρ.written) primitiveType primitiveType := by
  refine .peek (by rintro ⟨⟩ <;> rfl) fun o => ?_
  split
  · exact (Relabels.keyword .booleanWord).bind fun pos => .pure (TypeExpr.base .boolean pos) rfl
  · exact (Relabels.keyword .intWord).bind fun pos => relabels_arrayOr (.base .int pos)

theorem relabels_typeExpr :
    Relabels ρ line (TypeExpr.relabel ρ.written) typeExpr typeExpr := by
  refine .peek (by rintro ⟨⟩ <;> rfl) fun o => ?_
  split
  · exact Relabels.identifier.bind fun name => relabels_arrayOr (.named name name.pos)
  · exact relabels_primitiveType

theorem relabels_qualifiers (ref : Reference) :
    Relabels ρ line (Reference.relabel ρ.written) (qualifiers ref)
      (qualifiers (ref.relabel ρ.written)) := by
  intro ts
  change qualifiers (ref.relabel ρ.written) (ts.map (Token.relabel ρ line)) =
    relabelResult ρ line (Reference.relabel ρ.written) (qualifiers ref ts)
  fun_induction qualifiers ref ts with
  | case1 ref dp dl name pos line ts ih =>
    rw [← ih]
    have pos := ref.pos_relabel (L := ρ.written)
    simp only [List.map_cons, Token.relabel, TokenKind.rename, qualifiers, Reference.relabel, pos]
    rfl
  | case2 ref dp dl ts other =>
    refine qualifiers_stuck fun name ident => ?_
    rw [front_map_relabel] at ident
    obtain ⟨kind, found, renamed⟩ := Option.map_eq_some_iff.mp ident
    cases kind with
    | ident n =>
      obtain ⟨pos, line, rest, rfl⟩ := front_eq_some.mp found
      exact other n pos line rest rfl
    | number | keyword | symbol => cases renamed
  | case3 ref ts _ other =>
    refine qualifiers_end fun dot => ?_
    rw [front_map_relabel] at dot
    obtain ⟨kind, found, renamed⟩ := Option.map_eq_some_iff.mp dot
    cases kind with
    | symbol s =>
      cases renamed
      obtain ⟨pos, line, rest, rfl⟩ := front_eq_some.mp found
      exact other pos line rest rfl
    | number | keyword | ident => cases renamed

theorem relabels_reference :
    Relabels ρ line (Reference.relabel ρ.written) reference reference := by
  refine .peek (by rintro ⟨⟩ <;> rfl) fun o => ?_
  split
  · exact Relabels.identifier.bind fun name => relabels_qualifiers (.ident name name.pos)
  · exact (Relabels.keyword .thisWord).bind fun pos => relabels_qualifiers (.this pos)

theorem relabels_nextOp (least : Nat) :
    Relabels ρ line (id : Option (Symbol × BinaryOp) → _) (nextOp least) (nextOp least) := by
  refine .peek (by rintro ⟨⟩ <;> rfl) fun o => ?_
  split
  · split
    · exact .pure _ rfl
    · exact .pure _ rfl
  · exact .pure _ rfl

/-- At a depth, the steps for expressions read relabelled tokens as relabelled trees. -/
structure ExprsRelabel (ρ : Relabelling) (line : Nat → Nat) (fuel : Nat) : Prop where
  exprFrom : ∀ least, Relabels ρ line (Expr.relabel ρ.written) (exprFrom fuel least)
    (exprFrom fuel least)
  operators : ∀ least left, Relabels ρ line (Expr.relabel ρ.written) (operators fuel least left)
    (operators fuel least (left.relabel ρ.written))
  operand : Relabels ρ line (Expr.relabel ρ.written) (operand fuel) (operand fuel)
  referenceOperand : ∀ r : Reference, Relabels ρ line (Expr.relabel ρ.written)
    (referenceOperand fuel r) (referenceOperand fuel (r.relabel ρ.written))
  creation : ∀ pos, Relabels ρ line (Expr.relabel ρ.written) (creation fuel pos)
    (creation fuel (ρ.place pos))
  bracketed : Relabels ρ line (Expr.relabel ρ.written) (bracketed fuel) (bracketed fuel)
  arguments : Relabels ρ line (Expr.relabelAll ρ.written) (arguments fuel) (arguments fuel)
  moreArguments : Relabels ρ line (Expr.relabelAll ρ.written) (moreArguments fuel)
    (moreArguments fuel)

theorem exprsRelabel (fuel : Nat) : ExprsRelabel ρ line fuel := by
  -- By induction on the depth: a step calls none but steps at the depth below.
  induction fuel with
  | zero => constructor <;> intros <;> exact .stuck
  | succ fuel ih =>
    constructor
    case exprFrom =>
      intro least
      exact ih.operand.bind fun first => ih.operators least first
    case operators =>
      intro least left
      refine (relabels_nextOp least).bind fun found => ?_
      cases found with
      | none => exact .pure left rfl
      | some found =>
        exact (Relabels.symbol found.1).bind fun pos => (ih.exprFrom _).bind fun right =>
          ih.operators least (.binary found.2 left right pos)
    case operand =>
      refine .peek (by rintro ⟨⟩ <;> rfl) fun o => ?_
      split
      · exact (Relabels.number _).bind fun pos => .pure (Expr.int _ pos) rfl
      · exact (Relabels.keyword .trueWord).bind fun pos => .pure (Expr.bool true pos) rfl
      · exact (Relabels.keyword .falseWord).bind fun pos => .pure (Expr.bool false pos) rfl
      · exact (Relabels.keyword .nullWord).bind fun pos => .pure (Expr.null pos) rfl
      · exact (Relabels.symbol .minus).bind fun pos => ih.operand.bind fun e =>
          .pure (Expr.unary .neg e pos) rfl
      · exact (Relabels.symbol .not).bind fun pos => ih.operand.bind fun e =>
          .pure (Expr.unary .not e pos) rfl
      · exact (Relabels.symbol .lparen).bind fun _ => (ih.exprFrom 1).bind fun e =>
          (Relabels.symbol .rparen).bind fun _ => .pure e rfl
      · exact (Relabels.keyword .newWord).bind fun pos => ih.creation pos
      · exact relabels_reference.bind fun ref => ih.referenceOperand ref
    case referenceOperand =>
      intro r
      refine .peek (by rintro (_ | _ | _ | ⟨⟨⟩⟩) <;> rfl) fun o => ?_
      rw [Reference.pos_relabel]
      split
      · exact (Relabels.symbol .lbracket).bind fun _ => (ih.exprFrom 1).bind fun index =>
          (Relabels.symbol .rbracket).bind fun _ => .pure (Expr.index r index r.pos) rfl
      · exact ih.arguments.bind fun args => .pure (Expr.call r args r.pos) rfl
      · exact .pure (Expr.ref r r.pos) rfl
    case creation =>
      intro pos
      refine .peek (by rintro ⟨⟩ <;> rfl) fun o => ?_
      split
      · refine Relabels.identifier.bind fun name => ?_
        refine (Relabels.takesSymbol .lparen).bind fun taken => ?_
        cases taken with
        | true =>
          exact (Relabels.symbol .rparen).bind fun _ =>
            .pure (Expr.newObject (.named name name.pos) pos) rfl
        | false =>
          exact ih.bracketed.bind fun size =>
            .pure (Expr.newArray (.named name name.pos) size pos) rfl
      · exact (Relabels.keyword .intWord).bind fun intPos => ih.bracketed.bind fun size =>
          .pure (Expr.newArray (.base .int intPos) size pos) rfl
    case bracketed =>
      exact (Relabels.symbol .lbracket).bind fun _ => (ih.exprFrom 1).bind fun e =>
        (Relabels.symbol .rbracket).bind fun _ => .pure e rfl
    case arguments =>
      refine (Relabels.symbol .lparen).bind fun _ => ?_
      refine (Relabels.takesSymbol .rparen).bind fun taken => ?_
      cases taken with
      | true => exact .pure [] rfl
      | false =>
        exact (ih.exprFrom 1).bind fun first => ih.moreArguments.bind fun more =>
          .pure (first :: more) rfl
    case moreArguments =>
      refine (Relabels.takesSymbol .comma).bind fun taken => ?_
      cases taken with
      | true =>
        exact (ih.exprFrom 1).bind fun next => ih.moreArguments.bind fun more =>
          .pure (next :: more) rfl
      | false => exact (Relabels.symbol .rparen).bind fun _ => .pure [] rfl

theorem relabels_initializer (fuel : Nat) :
    Relabels ρ line (Expr.relabel ρ.written) (initializer fuel) (initializer fuel) :=
  (Relabels.symbol .assign).bind fun _ => ((exprsRelabel fuel).exprFrom 1).bind fun e =>
    (Relabels.symbol .semicolon).bind fun _ => .pure e rfl

theorem relabels_condition (fuel : Nat) :
    Relabels ρ line (Expr.relabel ρ.written) (condition fuel) (condition fuel) :=
  (Relabels.symbol .lparen).bind fun _ => ((exprsRelabel fuel).exprFrom 1).bind fun e =>
    (Relabels.symbol .rparen).bind fun _ => .pure e rfl

theorem relabels_declaration (fuel : Nat) (type : TypeExpr) :
    Relabels ρ line (Stmt.relabel ρ.written) (declaration fuel type)
      (declaration fuel (type.relabel ρ.written)) := by
  refine Relabels.identifier.bind fun name => (relabels_initializer fuel).bind fun init => ?_
  refine .pure (Stmt.declare ⟨name.spelling, type, name.pos⟩ init type.pos) ?_
  rw [TypeExpr.pos_relabel]
  rfl

theorem relabels_elementAssignment (fuel : Nat) (ref : Reference) :
    Relabels ρ line (Stmt.relabel ρ.written) (elementAssignment fuel ref)
      (elementAssignment fuel (ref.relabel ρ.written)) := by
  refine ((exprsRelabel fuel).exprFrom 1).bind fun index => ?_
  refine (Relabels.symbol .rbracket).bind fun _ => (relabels_initializer fuel).bind fun value => ?_
  rw [Reference.pos_relabel]
  exact .pure (Stmt.assignIndex ref index value ref.pos) rfl

theorem isQualified_relabel (ref : Reference) :
    isQualified (ref.relabel ρ.written) = isQualified ref := by
  cases ref <;> rfl

theorem relabels_referenceStmt (fuel : Nat) (ref : Reference) :
    Relabels ρ line (Stmt.relabel ρ.written) (referenceStmt fuel ref)
      (referenceStmt fuel (ref.relabel ρ.written)) := by
  refine .peek (by rintro (_ | _ | _ | ⟨⟨⟩⟩) <;> rfl) fun o => ?_
  rw [Reference.pos_relabel, isQualified_relabel]
  split
  · exact (exprsRelabel fuel).arguments.bind fun args => (Relabels.symbol .semicolon).bind fun _ =>
      .pure (Stmt.call ref args ref.pos) rfl
  · split
    · exact (Relabels.symbol .lbracket).bind fun _ => relabels_elementAssignment fuel ref
    · exact .stuck
  · exact (relabels_initializer fuel).bind fun value => .pure (Stmt.assign ref value ref.pos) rfl

theorem relabels_namedStmt (fuel : Nat) (name : Identifier) :
    Relabels ρ line (Stmt.relabel ρ.written) (namedStmt fuel name)
      (namedStmt fuel (name.relabel ρ.written)) := by
  refine .peek (by rintro (_ | _ | _ | ⟨⟨⟩⟩) <;> rfl) fun o => ?_
  split
  · exact relabels_declaration fuel (.named name name.pos)
  · refine (Relabels.symbol .lbracket).bind fun _ => ?_
    refine (Relabels.takesSymbol .rbracket).bind fun taken => ?_
    cases taken with
    | true => exact relabels_declaration fuel (.array (.named name name.pos) name.pos)
    | false => exact relabels_elementAssignment fuel (.ident name name.pos)
  · exact (relabels_qualifiers (.ident name name.pos)).bind fun ref =>
      relabels_referenceStmt fuel ref

theorem relabels_returnStmt (fuel pos : Nat) :
    Relabels ρ line (Stmt.relabel ρ.written) (returnStmt fuel pos)
      (returnStmt fuel (ρ.place pos)) := by
  refine (Relabels.takesSymbol .semicolon).bind fun taken => ?_
  cases taken with
  | true => exact .pure (Stmt.ret none pos) rfl
  | false =>
    exact ((exprsRelabel fuel).exprFrom 1).bind fun e => (Relabels.symbol .semicolon).bind fun _ =>
      .pure (Stmt.ret (some e) pos) rfl

/-- At a depth, the steps for statements read relabelled tokens as relabelled trees. -/
structure StmtsRelabel (ρ : Relabelling) (line : Nat → Nat) (fuel : Nat) : Prop where
  stmtFrom : Relabels ρ line (Stmt.relabel ρ.written) (stmtFrom fuel) (stmtFrom fuel)
  stmtsFrom : Relabels ρ line (Stmt.relabelAll ρ.written) (stmtsFrom fuel) (stmtsFrom fuel)

theorem stmtsRelabel (fuel : Nat) : StmtsRelabel ρ line fuel := by
  induction fuel with
  | zero => exact ⟨.stuck, .stuck⟩
  | succ fuel ih =>
    constructor
    case stmtFrom =>
      refine .peek (by rintro (_ | _ | ⟨⟨⟩⟩ | ⟨⟨⟩⟩) <;> rfl) fun o => ?_
      split
      · exact (Relabels.symbol .lbrace).bind fun pos => ih.stmtsFrom.bind fun stmts =>
          .pure (Stmt.block stmts pos) rfl
      · exact relabels_primitiveType.bind fun type => relabels_declaration fuel type
      · exact relabels_primitiveType.bind fun type => relabels_declaration fuel type
      · exact Relabels.identifier.bind fun name => relabels_namedStmt fuel name
      · exact relabels_reference.bind fun ref => relabels_referenceStmt fuel ref
      · exact (Relabels.keyword .returnWord).bind fun pos => relabels_returnStmt fuel pos
      · refine (Relabels.keyword .ifWord).bind fun pos =>
          (relabels_condition fuel).bind fun cond => ?_
        refine ih.stmtFrom.bind fun body => (Relabels.takesKeyword .elseWord).bind fun taken => ?_
        cases taken with
        | true => exact ih.stmtFrom.bind fun other => .pure (Stmt.ifElse cond body other pos) rfl
        | false => exact .pure (Stmt.ifThen cond body pos) rfl
      · exact (Relabels.keyword .whileWord).bind fun pos =>
          (relabels_condition fuel).bind fun cond =>
          ih.stmtFrom.bind fun body => .pure (Stmt.loop cond body pos) rfl
      · exact .stuck
    case stmtsFrom =>
      refine (Relabels.takesSymbol .rbrace).bind fun taken => ?_
      cases taken with
      | true => exact .pure [] rfl
      | false =>
        exact ih.stmtFrom.bind fun first => ih.stmtsFrom.bind fun rest => .pure (first :: rest) rfl

theorem relabels_parameter :
    Relabels ρ line (ParamDecl.relabel ρ.written) parameter parameter :=
  relabels_typeExpr.bind fun type => Relabels.identifier.bind fun name =>
    .pure (ParamDecl.mk name.spelling type name.pos) rfl

theorem relabels_moreParameters (fuel : Nat) :
    Relabels ρ line (List.map (ParamDecl.relabel ρ.written)) (moreParameters fuel)
      (moreParameters fuel) := by
  induction fuel with
  | zero => exact .stuck
  | succ fuel ih =>
    refine (Relabels.takesSymbol .comma).bind fun taken => ?_
    cases taken with
    | true => exact relabels_parameter.bind fun next => ih.bind fun rest => .pure (next :: rest) rfl
    | false => exact (Relabels.symbol .rparen).bind fun _ => .pure [] rfl

theorem relabels_parameters (fuel : Nat) :
    Relabels ρ line (List.map (ParamDecl.relabel ρ.written)) (parameters fuel)
      (parameters fuel) := by
  refine (Relabels.symbol .lparen).bind fun _ => (Relabels.takesSymbol .rparen).bind fun taken => ?_
  cases taken with
  | true => exact .pure [] rfl
  | false =>
    exact relabels_parameter.bind fun first => (relabels_moreParameters fuel).bind fun rest =>
      .pure (first :: rest) rfl

theorem relabels_methodRest (fuel : Nat) (isPrivate isStatic : Bool) (result : TypeExpr)
    (name : Identifier) :
    Relabels ρ line (MethodDecl.relabel ρ.written) (methodRest fuel isPrivate isStatic result name)
      (methodRest fuel isPrivate isStatic (result.relabel ρ.written) (name.relabel ρ.written)) :=
  (relabels_parameters fuel).bind fun params => (Relabels.symbol .lbrace).bind fun _ =>
    (stmtsRelabel fuel).stmtsFrom.bind fun body =>
      .pure (MethodDecl.mk ⟨name.spelling, result, isPrivate, isStatic, params, name.pos⟩ body) rfl

theorem relabels_visibility :
    Relabels ρ line (id : Bool → Bool) visibility visibility := by
  refine (Relabels.takesKeyword .publicWord).bind fun taken => ?_
  cases taken with
  | true => exact .pure false rfl
  | false => exact .takesKeyword .privateWord

theorem relabels_member (fuel : Nat) :
    Relabels ρ line (Sum.map (FieldDecl.relabel ρ.written) (MethodDecl.relabel ρ.written))
      (member fuel) (member fuel) := by
  refine relabels_visibility.bind fun isPrivate => ?_
  refine (Relabels.takesKeyword .staticWord).bind fun isStatic => ?_
  refine .peek (by rintro ⟨⟩ <;> rfl) fun o => ?_
  split
  · exact (Relabels.keyword .voidWord).bind fun pos => Relabels.identifier.bind fun name =>
      (relabels_methodRest fuel isPrivate isStatic (.base .void pos) name).bind fun m =>
        .pure (Sum.inr m) rfl
  · refine relabels_typeExpr.bind fun type => Relabels.identifier.bind fun name => ?_
    refine (Relabels.takesSymbol .semicolon).bind fun taken => ?_
    cases taken with
    | true =>
      exact .pure (Sum.inl (FieldDecl.mk name.spelling type isPrivate isStatic name.pos)) rfl
    | false =>
      exact (relabels_methodRest fuel isPrivate isStatic type name).bind fun m =>
        .pure (Sum.inr m) rfl

theorem relabels_members (fuel : Nat) :
    Relabels ρ line
      (List.map (Sum.map (FieldDecl.relabel ρ.written) (MethodDecl.relabel ρ.written)))
      (members fuel) (members fuel) := by
  induction fuel with
  | zero => exact .stuck
  | succ fuel ih =>
    refine (Relabels.takesSymbol .rbrace).bind fun taken => ?_
    cases taken with
    | true => exact .pure [] rfl
    | false =>
      exact (relabels_member fuel).bind fun first => ih.bind fun rest => .pure (first :: rest) rfl

theorem relabels_classDecl (fuel : Nat) :
    Relabels ρ line (ClassDecl.relabel ρ.written) (classDecl fuel) (classDecl fuel) := by
  refine (Relabels.keyword .classWord).bind fun _ => Relabels.identifier.bind fun name => ?_
  refine (Relabels.symbol .lbrace).bind fun _ => (relabels_members fuel).bind fun members => ?_
  refine .pure (ClassDecl.mk name.spelling (members.filterMap Sum.getLeft?)
    (members.filterMap Sum.getRight?) name.pos) ?_
  have fields : (members.map (Sum.map (FieldDecl.relabel ρ.written)
      (MethodDecl.relabel ρ.written))).filterMap Sum.getLeft? =
        (members.filterMap Sum.getLeft?).map (FieldDecl.relabel ρ.written) := by
    rw [List.filterMap_map, List.map_filterMap]
    exact List.filterMap_congr fun m _ => by cases m <;> rfl
  have methods : (members.map (Sum.map (FieldDecl.relabel ρ.written)
      (MethodDecl.relabel ρ.written))).filterMap Sum.getRight? =
        (members.filterMap Sum.getRight?).map (MethodDecl.relabel ρ.written) := by
    rw [List.filterMap_map, List.map_filterMap]
    exact List.filterMap_congr fun m _ => by cases m <;> rfl
  rw [fields, methods]
  rfl

theorem relabels_classes (fuel : Nat) :
    Relabels ρ line (List.map (ClassDecl.relabel ρ.written)) (classes fuel) (classes fuel) := by
  induction fuel with
  | zero => exact .stuck
  | succ fuel ih =>
    refine .peek (by rintro ⟨⟩ <;> rfl) fun o => ?_
    split
    · exact .pure [] rfl
    · exact (relabels_classDecl fuel).bind fun first => ih.bind fun rest =>
        .pure (first :: rest) rfl

end Reading

/-- What is wrong with relabelled tokens. -/
def ReadFault.relabel (ρ : Relabelling) : ReadFault → ReadFault
  | fault (.unexpected kind) pos => fault (.unexpected (kind.rename ρ.name)) (pos.map ρ.place)
  | fault other pos => fault other (pos.map ρ.place)
  | longNumber pos => longNumber (ρ.place pos)

/-- Relabelled tokens are a relabelled program, or no program for the same reason. -/
theorem Program.ofScan?_relabel (ρ : Relabelling) (line : Nat → Nat) (ts : List Token) (m n : Nat) :
    ofScan? ⟨ts.map (Token.relabel ρ line), none, m⟩ = match ofScan? ⟨ts, none, n⟩ with
      | .ok p => .ok (p.relabel ρ.written)
      | .error fault => .error (fault.relabel ρ) := by
  have fuel : fuelFor (ts.map (Token.relabel ρ line)) = fuelFor ts := by simp [fuelFor]
  have read : Reading.classes (fuelFor ts) (ts.map (Token.relabel ρ line)) =
      Reading.relabelResult ρ line (List.map (ClassDecl.relabel ρ.written))
        (Reading.classes (fuelFor ts) ts) := Reading.relabels_classes (fuelFor ts) ts
  simp only [ofScan?, fuel, read]
  cases Reading.classes (fuelFor ts) ts with
  | ok cs rest => rfl
  | error e rest => cases rest <;> rfl

end JamCompiler
