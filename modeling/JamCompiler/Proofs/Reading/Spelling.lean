import JamCompiler.Program.Reading

/-!
# Spelling

Which tokens spell which tree, positions included. `Spelled` relations follow the grammar one
construct at a time and know nothing of how texts are read. Each tree says by itself where an
operator or an `else` belongs: an expression is spelled at a level, below which no operator outside
parentheses may bind, and the first branch of an `if` with an `else` must not be open, that is, must
not end in an `if` that could take the `else` for itself.

A tree may be spelled in many ways, since parentheses and `public` leave no trace in it.
-/

namespace JamCompiler

open Reading (binaryOp?)

inductive TypeExpr.Spelled : TypeExpr → List Token → Prop
  | int {t : Token} (word : t.kind = .keyword .intWord) : Spelled (.base .int t.pos) [t]
  | boolean {t : Token} (word : t.kind = .keyword .booleanWord) : Spelled (.base .boolean t.pos) [t]
  | named {t : Token} {name : String} (word : t.kind = .ident name) :
    Spelled (.named ⟨name, t.pos⟩ t.pos) [t]
  | ints {t l r : Token} (word : t.kind = .keyword .intWord) (left : l.kind = .symbol .lbracket)
      (right : r.kind = .symbol .rbracket) : Spelled (.array (.base .int t.pos) t.pos) [t, l, r]
  | nameds {t l r : Token} {name : String} (word : t.kind = .ident name)
      (left : l.kind = .symbol .lbracket) (right : r.kind = .symbol .rbracket) :
    Spelled (.array (.named ⟨name, t.pos⟩ t.pos) t.pos) [t, l, r]

inductive Reference.Spelled : Reference → List Token → Prop
  | this {t : Token} (word : t.kind = .keyword .thisWord) : Spelled (.this t.pos) [t]
  | ident {t : Token} {name : String} (word : t.kind = .ident name) :
    Spelled (.ident ⟨name, t.pos⟩ t.pos) [t]
  | qualified {r : Reference} {ts : List Token} {d t : Token} {name : String}
      (qualifier : Spelled r ts)
      (dot : d.kind = .symbol .dot) (word : t.kind = .ident name) :
    Spelled (.qualified r ⟨name, t.pos⟩ r.pos) (ts ++ [d, t])

/-- The level of expressions without binary operators outside parentheses. -/
def operandLevel : Nat := 7

/-- What is spelled in an expression: an expression at a level, the arguments of a call with their
parentheses, or the arguments after the first one with the closing parenthesis. -/
inductive Phrase
  | expr (least : Nat) (e : Expr)
  | args (es : List Expr)
  | moreArgs (es : List Expr)

inductive Phrase.Spelled : Phrase → List Token → Prop
  | int {least value : Nat} {t : Token} (word : t.kind = .number value) :
    Spelled (.expr least (.int value t.pos)) [t]
  | true {least : Nat} {t : Token} (word : t.kind = .keyword .trueWord) :
    Spelled (.expr least (.bool true t.pos)) [t]
  | false {least : Nat} {t : Token} (word : t.kind = .keyword .falseWord) :
    Spelled (.expr least (.bool false t.pos)) [t]
  | null {least : Nat} {t : Token} (word : t.kind = .keyword .nullWord) :
    Spelled (.expr least (.null t.pos)) [t]
  | neg {least : Nat} {e : Expr} {t : Token} {ts : List Token} (op : t.kind = .symbol .minus)
      (operand : Spelled (.expr operandLevel e) ts) :
    Spelled (.expr least (.unary .neg e t.pos)) (t :: ts)
  | not {least : Nat} {e : Expr} {t : Token} {ts : List Token} (op : t.kind = .symbol .not)
      (operand : Spelled (.expr operandLevel e) ts) :
    Spelled (.expr least (.unary .not e t.pos)) (t :: ts)
  | binary {least : Nat} {a b : Expr} {t : Token} {s : Symbol} {op : BinaryOp} {us vs : List Token}
      (word : t.kind = .symbol s) (known : binaryOp? s = some op) (level : least ≤ op.precedence)
      (left : Spelled (.expr op.precedence a) us)
      (right : Spelled (.expr (op.precedence + 1) b) vs) :
    Spelled (.expr least (.binary op a b t.pos)) (us ++ t :: vs)
  | paren {least : Nat} {e : Expr} {l r : Token} {ts : List Token} (left : l.kind = .symbol .lparen)
      (inner : Spelled (.expr 1 e) ts) (right : r.kind = .symbol .rparen) :
    Spelled (.expr least e) (l :: (ts ++ [r]))
  | ref {least : Nat} {r : Reference} {ts : List Token} (ref : r.Spelled ts) :
    Spelled (.expr least (.ref r r.pos)) ts
  | index {least : Nat} {r : Reference} {i : Expr} {us vs : List Token} {l t : Token}
      (ref : r.Spelled us) (left : l.kind = .symbol .lbracket) (index : Spelled (.expr 1 i) vs)
      (right : t.kind = .symbol .rbracket) :
    Spelled (.expr least (.index r i r.pos)) (us ++ l :: (vs ++ [t]))
  | call {least : Nat} {r : Reference} {es : List Expr} {us vs : List Token} (ref : r.Spelled us)
      (args : Spelled (.args es) vs) : Spelled (.expr least (.call r es r.pos)) (us ++ vs)
  | newObject {least : Nat} {t n l r : Token} {name : String} (word : t.kind = .keyword .newWord)
      (cls : n.kind = .ident name) (left : l.kind = .symbol .lparen)
      (right : r.kind = .symbol .rparen) :
    Spelled (.expr least (.newObject (.named ⟨name, n.pos⟩ n.pos) t.pos)) [t, n, l, r]
  | newArray {least : Nat} {t n l r : Token} {name : String} {size : Expr} {ts : List Token}
      (word : t.kind = .keyword .newWord) (cls : n.kind = .ident name)
      (left : l.kind = .symbol .lbracket) (inner : Spelled (.expr 1 size) ts)
      (right : r.kind = .symbol .rbracket) :
    Spelled (.expr least (.newArray (.named ⟨name, n.pos⟩ n.pos) size t.pos))
      (t :: n :: l :: (ts ++ [r]))
  | newInts {least : Nat} {t n l r : Token} {size : Expr} {ts : List Token}
      (word : t.kind = .keyword .newWord) (int : n.kind = .keyword .intWord)
      (left : l.kind = .symbol .lbracket) (inner : Spelled (.expr 1 size) ts)
      (right : r.kind = .symbol .rbracket) :
    Spelled (.expr least (.newArray (.base .int n.pos) size t.pos)) (t :: n :: l :: (ts ++ [r]))
  | noArgs {l r : Token} (left : l.kind = .symbol .lparen) (right : r.kind = .symbol .rparen) :
    Spelled (.args []) [l, r]
  | args {e : Expr} {es : List Expr} {l : Token} {us vs : List Token}
      (left : l.kind = .symbol .lparen)
      (first : Spelled (.expr 1 e) us) (more : Spelled (.moreArgs es) vs) :
    Spelled (.args (e :: es)) (l :: (us ++ vs))
  | endArgs {r : Token} (right : r.kind = .symbol .rparen) : Spelled (.moreArgs []) [r]
  | moreArgs {e : Expr} {es : List Expr} {c : Token} {us vs : List Token}
      (comma : c.kind = .symbol .comma) (next : Spelled (.expr 1 e) us)
      (more : Spelled (.moreArgs es) vs) : Spelled (.moreArgs (e :: es)) (c :: (us ++ vs))

/-- An expression as it may stand anywhere. -/
abbrev Expr.Spelled (e : Expr) (ts : List Token) : Prop := (Phrase.expr 1 e).Spelled ts

/-- Whether a statement ends in an `if` without `else`, so that an `else` after it would be its. -/
def Stmt.Open : Stmt → Prop
  | ifThen .. => True
  | ifElse _ _ other _ => other.Open
  | loop _ body _ => body.Open
  | _ => False

/-- What is spelled in a body: a statement, or the statements up to a closing brace with it. -/
inductive Passage
  | stmt (s : Stmt)
  | stmts (ss : List Stmt)

/-- An expression after an equals sign, up to the semicolon. -/
def Expr.SpelledValue (e : Expr) (ts : List Token) : Prop :=
  ∃ us, ∃ a c : Token, a.kind = .symbol .assign ∧ e.Spelled us ∧ c.kind = .symbol .semicolon ∧
    ts = a :: (us ++ [c])

/-- A condition between parentheses. -/
def Expr.SpelledCondition (e : Expr) (ts : List Token) : Prop :=
  ∃ us, ∃ l r : Token, l.kind = .symbol .lparen ∧ e.Spelled us ∧ r.kind = .symbol .rparen ∧
    ts = l :: (us ++ [r])

/-- Whether an element of what a reference denotes can be assigned: not by `this` alone. -/
def Reference.Assignable : Reference → Prop
  | this _ => False
  | _ => True

inductive Passage.Spelled : Passage → List Token → Prop
  | block {ss : List Stmt} {l : Token} {ts : List Token} (left : l.kind = .symbol .lbrace)
      (stmts : Spelled (.stmts ss) ts) : Spelled (.stmt (.block ss l.pos)) (l :: ts)
  | declare {type : TypeExpr} {n : Token} {name : String} {init : Expr} {us vs : List Token}
      (type' : type.Spelled us) (word : n.kind = .ident name) (value : init.SpelledValue vs) :
    Spelled (.stmt (.declare ⟨name, type, n.pos⟩ init type.pos)) (us ++ n :: vs)
  | assign {r : Reference} {value : Expr} {us vs : List Token} (ref : r.Spelled us)
      (value' : value.SpelledValue vs) : Spelled (.stmt (.assign r value r.pos)) (us ++ vs)
  | assignIndex {r : Reference} {index value : Expr} {l t : Token} {us vs ws : List Token}
      (ref : r.Spelled us) (assignable : r.Assignable) (left : l.kind = .symbol .lbracket)
      (index' : index.Spelled vs) (right : t.kind = .symbol .rbracket)
      (value' : value.SpelledValue ws) :
    Spelled (.stmt (.assignIndex r index value r.pos)) (us ++ l :: (vs ++ t :: ws))
  | call {r : Reference} {es : List Expr} {us vs : List Token} {c : Token} (ref : r.Spelled us)
      (args : (Phrase.args es).Spelled vs) (semicolon : c.kind = .symbol .semicolon) :
    Spelled (.stmt (.call r es r.pos)) (us ++ (vs ++ [c]))
  | ret {t c : Token} (word : t.kind = .keyword .returnWord)
      (semicolon : c.kind = .symbol .semicolon) :
    Spelled (.stmt (.ret none t.pos)) [t, c]
  | retValue {t c : Token} {e : Expr} {ts : List Token} (word : t.kind = .keyword .returnWord)
      (value : e.Spelled ts) (semicolon : c.kind = .symbol .semicolon) :
    Spelled (.stmt (.ret (some e) t.pos)) (t :: (ts ++ [c]))
  | ifThen {t : Token} {cond : Expr} {body : Stmt} {us vs : List Token}
      (word : t.kind = .keyword .ifWord) (cond' : cond.SpelledCondition us)
      (body' : Spelled (.stmt body) vs) :
    Spelled (.stmt (.ifThen cond body t.pos)) (t :: (us ++ vs))
  | ifElse {t o : Token} {cond : Expr} {body other : Stmt} {us vs ws : List Token}
      (word : t.kind = .keyword .ifWord) (cond' : cond.SpelledCondition us)
      (body' : Spelled (.stmt body) vs) (closed : ¬ body.Open) (word' : o.kind = .keyword .elseWord)
      (other' : Spelled (.stmt other) ws) :
    Spelled (.stmt (.ifElse cond body other t.pos)) (t :: (us ++ (vs ++ o :: ws)))
  | loop {t : Token} {cond : Expr} {body : Stmt} {us vs : List Token}
      (word : t.kind = .keyword .whileWord) (cond' : cond.SpelledCondition us)
      (body' : Spelled (.stmt body) vs) : Spelled (.stmt (.loop cond body t.pos)) (t :: (us ++ vs))
  | endStmts {r : Token} (right : r.kind = .symbol .rbrace) : Spelled (.stmts []) [r]
  | stmts {s : Stmt} {ss : List Stmt} {us vs : List Token} (first : Spelled (.stmt s) us)
      (more : Spelled (.stmts ss) vs) : Spelled (.stmts (s :: ss)) (us ++ vs)

abbrev Stmt.Spelled (s : Stmt) (ts : List Token) : Prop := (Passage.stmt s).Spelled ts

/-- Statements up to a closing brace, with it. -/
abbrev Stmt.SpelledBody (ss : List Stmt) (ts : List Token) : Prop := (Passage.stmts ss).Spelled ts

inductive ParamDecl.Spelled : ParamDecl → List Token → Prop
  | mk {type : TypeExpr} {n : Token} {name : String} {ts : List Token} (type' : type.Spelled ts)
      (word : n.kind = .ident name) : Spelled ⟨name, type, n.pos⟩ (ts ++ [n])

/-- The parameters after the first one with the closing parenthesis. -/
inductive ParamDecl.SpelledMore : List ParamDecl → List Token → Prop
  | done {r : Token} (right : r.kind = .symbol .rparen) : SpelledMore [] [r]
  | more {p : ParamDecl} {ps : List ParamDecl} {c : Token} {us vs : List Token}
      (comma : c.kind = .symbol .comma) (next : p.Spelled us) (rest : SpelledMore ps vs) :
    SpelledMore (p :: ps) (c :: (us ++ vs))

/-- The parameters of a method with their parentheses. -/
inductive ParamDecl.SpelledAll : List ParamDecl → List Token → Prop
  | none {l r : Token} (left : l.kind = .symbol .lparen) (right : r.kind = .symbol .rparen) :
    SpelledAll [] [l, r]
  | some {p : ParamDecl} {ps : List ParamDecl} {l : Token} {us vs : List Token}
      (left : l.kind = .symbol .lparen) (first : p.Spelled us) (rest : SpelledMore ps vs) :
    SpelledAll (p :: ps) (l :: (us ++ vs))

/-- Whether a member is private, as its first tokens say. -/
inductive SpelledVisibility : Bool → List Token → Prop
  | default : SpelledVisibility false []
  | isPublic {t : Token} (word : t.kind = .keyword .publicWord) : SpelledVisibility false [t]
  | isPrivate {t : Token} (word : t.kind = .keyword .privateWord) : SpelledVisibility true [t]

/-- Whether a member is static. -/
inductive SpelledAccess : Bool → List Token → Prop
  | default : SpelledAccess false []
  | isStatic {t : Token} (word : t.kind = .keyword .staticWord) : SpelledAccess true [t]

/-- The type of a result. -/
inductive TypeExpr.SpelledResult : TypeExpr → List Token → Prop
  | type {t : TypeExpr} {ts : List Token} (type' : t.Spelled ts) : SpelledResult t ts
  | void {t : Token} (word : t.kind = .keyword .voidWord) : SpelledResult (.base .void t.pos) [t]

/-- A field or a method of a class. -/
abbrev Member := FieldDecl ⊕ MethodDecl

inductive Member.Spelled : Member → List Token → Prop
  | field {isPrivate isStatic : Bool} {type : TypeExpr} {n c : Token} {name : String}
      {us vs ws : List Token} (visibility : SpelledVisibility isPrivate us)
      (access : SpelledAccess isStatic vs) (type' : type.Spelled ws) (word : n.kind = .ident name)
      (semicolon : c.kind = .symbol .semicolon) :
    Spelled (.inl ⟨name, type, isPrivate, isStatic, n.pos⟩) (us ++ (vs ++ (ws ++ [n, c])))
  | method {isPrivate isStatic : Bool} {result : TypeExpr} {n l : Token} {name : String}
      {params : List ParamDecl} {body : List Stmt} {us vs ws xs ys : List Token}
      (visibility : SpelledVisibility isPrivate us) (access : SpelledAccess isStatic vs)
      (result' : result.SpelledResult ws) (word : n.kind = .ident name)
      (params' : ParamDecl.SpelledAll params xs) (left : l.kind = .symbol .lbrace)
      (body' : Stmt.SpelledBody body ys) :
    Spelled (.inr ⟨⟨name, result, isPrivate, isStatic, params, n.pos⟩, body⟩)
      (us ++ (vs ++ (ws ++ n :: (xs ++ l :: ys))))

/-- The members of a class up to the closing brace, with it. -/
inductive Member.SpelledAll : List Member → List Token → Prop
  | done {r : Token} (right : r.kind = .symbol .rbrace) : SpelledAll [] [r]
  | more {m : Member} {ms : List Member} {us vs : List Token} (first : Member.Spelled m us)
      (rest : SpelledAll ms vs) : SpelledAll (m :: ms) (us ++ vs)

/-- A class with members in the order in which they are written. -/
def ClassDecl.ofMembers (name : String) (ms : List Member) (pos : Nat) : ClassDecl where
  name := name
  fields := ms.filterMap Sum.getLeft?
  methods := ms.filterMap Sum.getRight?
  pos := pos

inductive ClassDecl.Spelled : ClassDecl → List Token → Prop
  | mk {t n l : Token} {name : String} {ms : List Member} {ts : List Token}
      (word : t.kind = .keyword .classWord) (cls : n.kind = .ident name)
      (left : l.kind = .symbol .lbrace) (members : Member.SpelledAll ms ts) :
    Spelled (.ofMembers name ms n.pos) (t :: n :: l :: ts)

inductive ClassDecl.SpelledAll : List ClassDecl → List Token → Prop
  | done : SpelledAll [] []
  | more {c : ClassDecl} {cs : List ClassDecl} {us vs : List Token} (first : c.Spelled us)
      (rest : SpelledAll cs vs) : SpelledAll (c :: cs) (us ++ vs)

def Program.Spelled (p : Program) (ts : List Token) : Prop :=
  p.pos = 0 ∧ ClassDecl.SpelledAll p.classes ts

end JamCompiler
