import JamCompiler.Proofs.Reading.Grammar
import JamCompiler.Proofs.Reading.Complete

/-!
# Derivations and trees

The tokens that the parser's grammar derives are those that spell a tree. A grammar does not say to
which `if` an `else` belongs or which operator comes first; a tree does. So from two trees around an
operator a tree for the whole is made by going down the right edge of the one and the left edge of
the other until the operator fits, and an `else` goes down the right edge of a statement to the
last `if` that is open.
-/

namespace JamCompiler

namespace Reading

/-- An expression is an operand, which may stand at every level, or two expressions around an
operator. -/
theorem spelled_induction {motive : Nat → Expr → List Token → Prop}
    (operand : ∀ level e ts, (∀ l, (Phrase.expr l e).Spelled ts) → motive level e ts)
    (binary : ∀ level a b (t : Token) s op us vs, t.kind = .symbol s → binaryOp? s = some op →
      level ≤ op.precedence → (Phrase.expr op.precedence a).Spelled us →
      (Phrase.expr (op.precedence + 1) b).Spelled vs → motive op.precedence a us →
      motive (op.precedence + 1) b vs → motive level (.binary op a b t.pos) (us ++ t :: vs))
    {level : Nat} {e : Expr} {ts : List Token} (h : (Phrase.expr level e).Spelled ts) :
    motive level e ts := by
  cases h with
  | binary word known le left right =>
    exact binary _ _ _ _ _ _ _ _ word known le left right (spelled_induction operand binary left)
      (spelled_induction operand binary right)
  | int word => exact operand _ _ _ fun _ => .int word
  | true word => exact operand _ _ _ fun _ => .true word
  | false word => exact operand _ _ _ fun _ => .false word
  | null word => exact operand _ _ _ fun _ => .null word
  | neg op inner => exact operand _ _ _ fun _ => .neg op inner
  | not op inner => exact operand _ _ _ fun _ => .not op inner
  | paren left inner right => exact operand _ _ _ fun _ => .paren left inner right
  | ref ref => exact operand _ _ _ fun _ => .ref ref
  | index ref left index right => exact operand _ _ _ fun _ => .index ref left index right
  | call ref args => exact operand _ _ _ fun _ => .call ref args
  | newObject word cls left right => exact operand _ _ _ fun _ => .newObject word cls left right
  | newArray word cls left inner right =>
    exact operand _ _ _ fun _ => .newArray word cls left inner right
  | newInts word int left inner right =>
    exact operand _ _ _ fun _ => .newInts word int left inner right

/-- An operator after an expression, with a right operand that holds together more tightly. -/
theorem exists_binary_right {level : Nat} {a b : Expr} {t : Token} {s : Symbol} {op : BinaryOp}
    {us vs : List Token} (ha : (Phrase.expr level a).Spelled us) (word : t.kind = .symbol s)
    (known : binaryOp? s = some op) (hb : (Phrase.expr (op.precedence + 1) b).Spelled vs) :
    ∃ e, (Phrase.expr (min level op.precedence) e).Spelled (us ++ t :: vs) := by
  refine spelled_induction (motive := fun level _ us =>
    ∃ e, (Phrase.expr (min level op.precedence) e).Spelled (us ++ t :: vs)) ?_ ?_ ha
  · exact fun level a us ha => ⟨_, .binary word known (by omega) (ha _) hb⟩
  · intro level a₁ a₂ t₁ s₁ op₁ us₁ us₂ word₁ known₁ le₁ left right _ ih
    rcases Nat.lt_or_ge op₁.precedence op.precedence with looser | tighter
    · obtain ⟨e, he⟩ := ih
      refine ⟨.binary op₁ a₁ e t₁.pos, ?_⟩
      rw [List.append_assoc, List.cons_append]
      exact .binary word₁ known₁ (by omega) left (spelled_lower he (by omega))
    · exact ⟨_, .binary word known (by omega) (.binary word₁ known₁ tighter left right) hb⟩

/-- An operator between two expressions. -/
theorem exists_binary {a b : Expr} {t : Token} {s : Symbol} {op : BinaryOp} {us vs : List Token}
    (ha : a.Spelled us) (word : t.kind = .symbol s) (known : binaryOp? s = some op)
    (hb : b.Spelled vs) : ∃ e : Expr, e.Spelled (us ++ t :: vs) := by
  have least {op : BinaryOp} {s : Symbol} (known : binaryOp? s = some op) :
      1 ≤ min 1 op.precedence := by
    have := precedence_lt known
    omega
  refine spelled_induction (motive := fun _ _ vs => ∃ e : Expr, e.Spelled (us ++ t :: vs)) ?_ ?_ hb
  · intro _ b vs hb
    obtain ⟨e, he⟩ := exists_binary_right ha word known (hb _)
    exact ⟨e, spelled_lower he (least known)⟩
  · intro _ b₁ b₂ t₂ s₂ op₂ vs₁ vs₂ word₂ known₂ _ _ right ih _
    obtain ⟨e₁, he₁⟩ := ih
    obtain ⟨e, he⟩ := exists_binary_right he₁ word₂ known₂ right
    exact ⟨e, by simpa using spelled_lower he (least known₂)⟩

/-- A unary operator before an expression belongs to its first operand. -/
theorem exists_unary {level : Nat} {e : Expr} {t : Token} {ts : List Token}
    (h : (Phrase.expr level e).Spelled ts)
    (op : t.kind = .symbol .minus ∨ t.kind = .symbol .not) :
    ∃ e', (Phrase.expr level e').Spelled (t :: ts) := by
  refine spelled_induction (motive := fun level _ ts =>
    ∃ e', (Phrase.expr level e').Spelled (t :: ts)) ?_ ?_ h
  · intro level e ts h
    rcases op with op | op
    · exact ⟨_, .neg op (h _)⟩
    · exact ⟨_, .not op (h _)⟩
  · rintro level a b t' s op us vs word known le - right ⟨a', ha'⟩ -
    exact ⟨_, .binary word known le ha' right⟩

/-- An `else` after an open statement belongs to the last `if` in it. -/
theorem exists_attached {s other : Stmt} {o : Token} {us vs : List Token} (h : s.Spelled us)
    (stillOpen : s.Open) (word : o.kind = .keyword .elseWord) (h' : other.Spelled vs) :
    ∃ s' : Stmt, s'.Spelled (us ++ o :: vs) := by
  cases h with
  | @ifThen t cond body us₁ us₂ word' cond' body' =>
    by_cases deeper : body.Open
    · obtain ⟨s', hs'⟩ := exists_attached body' deeper word h'
      exact ⟨_, by simpa using .ifThen word' cond' hs'⟩
    · exact ⟨_, by simpa using .ifElse word' cond' body' deeper word h'⟩
  | ifElse word' cond' body' closed word'' other' =>
    obtain ⟨s', hs'⟩ := exists_attached other' stillOpen word h'
    exact ⟨_, by simpa using .ifElse word' cond' body' closed word'' hs'⟩
  | loop word' cond' body' =>
    obtain ⟨s', hs'⟩ := exists_attached body' stillOpen word h'
    exact ⟨_, by simpa using .loop word' cond' hs'⟩
  | block | declare | assign | assignIndex | call | ret | retValue => exact absurd stillOpen id

theorem exists_ifElse {cond : Expr} {body other : Stmt} {t o : Token} {us vs ws : List Token}
    (word : t.kind = .keyword .ifWord) (cond' : cond.SpelledCondition us) (body' : body.Spelled vs)
    (word' : o.kind = .keyword .elseWord) (other' : other.Spelled ws) :
    ∃ s : Stmt, s.Spelled (t :: (us ++ (vs ++ o :: ws))) := by
  by_cases stillOpen : body.Open
  · obtain ⟨s, hs⟩ := exists_attached body' stillOpen word' other'
    exact ⟨_, .ifThen word cond' hs⟩
  · exact ⟨_, .ifElse word cond' body' stillOpen word' other'⟩

/-- What the phrases of the parser's grammar come to: lists are read from the left and spelled from
the right, so a list is what makes a list of any list after it. -/
def Meaning : ParserPhrase → List Token → Prop
  | .program, ts | .classList, ts => ∀ cs vs, ClassDecl.SpelledAll cs vs →
    ∃ cs', ClassDecl.SpelledAll cs' (ts ++ vs)
  | .classDecl, ts => ∃ c : ClassDecl, c.Spelled ts
  | .memberList, ts => ∀ ms vs, Member.SpelledAll ms vs → ∃ ms', Member.SpelledAll ms' (ts ++ vs)
  | .member, ts => ∃ m, Member.Spelled m ts
  | .visibility, ts => ∃ isPrivate, SpelledVisibility isPrivate ts
  | .access, ts => ∃ isStatic, SpelledAccess isStatic ts
  | .voidType, ts => ∃ type : TypeExpr, type.SpelledResult ts
  | .type, ts | .primType, ts => ∃ type : TypeExpr, type.Spelled ts
  | .paramList, ts => ∀ l r : Token, l.kind = .symbol .lparen → r.kind = .symbol .rparen →
    ∃ ps, ParamDecl.SpelledAll ps (l :: (ts ++ [r]))
  | .params, ts => ∃ p : ParamDecl, ∃ us vs, p.Spelled us ∧ ts = us ++ vs ∧
    ∀ ps ws, ParamDecl.SpelledMore ps ws → ∃ ps', ParamDecl.SpelledMore ps' (vs ++ ws)
  | .stmtList, ts => ∀ ss vs, Stmt.SpelledBody ss vs → ∃ ss', Stmt.SpelledBody ss' (ts ++ vs)
  | .stmt, ts => ∃ s : Stmt, s.Spelled ts
  | .reference, ts => ∃ r : Reference, r.Spelled ts
  | .qualified, ts => ∃ r : Reference, r.Spelled ts ∧ r.Assignable
  | .argList, ts => ∀ l r : Token, l.kind = .symbol .lparen → r.kind = .symbol .rparen →
    ∃ es, (Phrase.args es).Spelled (l :: (ts ++ [r]))
  | .args, ts => ∃ e : Expr, ∃ us vs, e.Spelled us ∧ ts = us ++ vs ∧
    ∀ es ws, (Phrase.moreArgs es).Spelled ws → ∃ es', (Phrase.moreArgs es').Spelled (vs ++ ws)
  | .expr, ts => ∃ e : Expr, e.Spelled ts

open Grammar (Spells)

section Rules

variable {right : List (RuleItem ParserPhrase)} {ts : List Token}

theorem meaning_stmt (rule : right ∈ parsed .stmt) (h : Spells Meaning right ts) :
    Meaning .stmt ts := by
  have value {e : Expr} {a c : Token} {us : List Token} (assign : a.kind = .symbol .assign)
      (he : e.Spelled us) (semicolon : c.kind = .symbol .semicolon) :
      e.SpelledValue (a :: (us ++ [c])) := ⟨us, a, c, assign, he, semicolon, rfl⟩
  have condition {e : Expr} {l r : Token} {us : List Token} (left : l.kind = .symbol .lparen)
      (he : e.Spelled us) (right : r.kind = .symbol .rparen) :
      e.SpelledCondition (l :: (us ++ [r])) := ⟨us, l, r, left, he, right, rfl⟩
  simp only [parsed, List.mem_cons, List.not_mem_nil, or_false] at rule
  rcases rule with rfl | rfl | rfl | rfl | rfl | rfl | rfl | rfl | rfl | rfl | rfl | rfl | rfl
  · obtain ⟨l, _, left, rfl, us, _, list, rfl, r, _, right, rfl, rfl⟩ := h
    obtain ⟨ss, hss⟩ := list _ _ (.endStmts right)
    exact ⟨_, .block left hss⟩
  · obtain ⟨us, _, ⟨type, ht⟩, rfl, n, _, name, word, rfl, a, _, assign, rfl, vs, _, ⟨e, he⟩, rfl,
        c, _, semicolon, rfl, rfl⟩ := h
    exact ⟨_, .declare ht word (value assign he semicolon)⟩
  · obtain ⟨t, _, cls, word, rfl, n, _, name, word', rfl, a, _, assign, rfl, vs, _, ⟨e, he⟩, rfl, c,
        _, semicolon, rfl, rfl⟩ := h
    exact ⟨_, .declare (.named word) word' (value assign he semicolon)⟩
  · obtain ⟨t, _, cls, word, rfl, l, _, left, rfl, r, _, right, rfl, n, _, name, word', rfl, a, _,
        assign, rfl, vs, _, ⟨e, he⟩, rfl, c, _, semicolon, rfl, rfl⟩ := h
    exact ⟨_, .declare (.nameds word left right) word' (value assign he semicolon)⟩
  · obtain ⟨us, _, ⟨r, hr⟩, rfl, a, _, assign, rfl, vs, _, ⟨e, he⟩, rfl, c, _,
        semicolon, rfl, rfl⟩ := h
    exact ⟨_, .assign hr (value assign he semicolon)⟩
  · obtain ⟨t, _, name, word, rfl, l, _, left, rfl, vs, _, ⟨i, hi⟩, rfl, r, _, right, rfl, a, _,
        assign, rfl, ws, _, ⟨e, he⟩, rfl, c, _, semicolon, rfl, rfl⟩ := h
    exact ⟨_, .assignIndex (.ident word) trivial left hi right (value assign he semicolon)⟩
  · obtain ⟨us, _, ⟨q, hq, assignable⟩, rfl, l, _, left, rfl, vs, _, ⟨i, hi⟩, rfl, r, _, right, rfl,
        a, _, assign, rfl, ws, _, ⟨e, he⟩, rfl, c, _, semicolon, rfl, rfl⟩ := h
    exact ⟨_, .assignIndex hq assignable left hi right (value assign he semicolon)⟩
  · obtain ⟨us, _, ⟨q, hq⟩, rfl, l, _, left, rfl, vs, _, list, rfl, r, _, right, rfl, c, _,
        semicolon, rfl, rfl⟩ := h
    obtain ⟨es, hes⟩ := list l r left right
    exact ⟨.call q es q.pos, by simpa using Passage.Spelled.call hq hes semicolon⟩
  · obtain ⟨t, _, word, rfl, c, _, semicolon, rfl, rfl⟩ := h
    exact ⟨_, .ret word semicolon⟩
  · obtain ⟨t, _, word, rfl, us, _, ⟨e, he⟩, rfl, c, _, semicolon, rfl, rfl⟩ := h
    exact ⟨_, .retValue word he semicolon⟩
  · obtain ⟨t, _, word, rfl, l, _, left, rfl, us, _, ⟨e, he⟩, rfl, r, _, right, rfl, vs,
        _, ⟨s, hs⟩, rfl, rfl⟩ := h
    exact ⟨.ifThen e s t.pos,
      by simpa using Passage.Spelled.ifThen word (condition left he right) hs⟩
  · obtain ⟨t, _, word, rfl, l, _, left, rfl, us, _, ⟨e, he⟩, rfl, r, _, right, rfl, vs, _, ⟨s, hs⟩,
        rfl, o, _, word', rfl, ws, _, ⟨s', hs'⟩, rfl, rfl⟩ := h
    obtain ⟨whole, spelled⟩ := exists_ifElse word (condition left he right) hs word' hs'
    exact ⟨whole, by simpa using spelled⟩
  · obtain ⟨t, _, word, rfl, l, _, left, rfl, us, _, ⟨e, he⟩, rfl, r, _, right, rfl, vs,
        _, ⟨s, hs⟩, rfl, rfl⟩ := h
    exact ⟨.loop e s t.pos, by simpa using Passage.Spelled.loop word (condition left he right) hs⟩

theorem meaning_expr (rule : right ∈ parsed .expr) (h : Spells Meaning right ts) :
    Meaning .expr ts := by
  -- all rules for binary operators
  have binary {s : Symbol} {op : BinaryOp} (known : binaryOp? s = some op)
      (h : Spells Meaning [.phrase .expr, .symbol s, .phrase .expr] ts) : Meaning .expr ts := by
    obtain ⟨us, _, ⟨a, ha⟩, rfl, t, _, word, rfl, vs, _, ⟨b, hb⟩, rfl, rfl⟩ := h
    simpa [Meaning] using exists_binary ha word known hb
  simp only [parsed, List.mem_cons, List.not_mem_nil, or_false] at rule
  rcases rule with rfl | rfl | rfl | rfl | rfl | rfl | rfl | rfl | rfl | rfl | rfl | rfl | rfl | rfl
      | rfl | rfl | rfl | rfl | rfl | rfl | rfl | rfl | rfl | rfl | rfl
  · obtain ⟨us, _, ⟨r, hr⟩, rfl, rfl⟩ := h
    exact ⟨_, by simpa using .ref hr⟩
  · obtain ⟨us, _, ⟨r, hr⟩, rfl, l, _, left, rfl, vs, _, ⟨i, hi⟩, rfl, t, _, right, rfl, rfl⟩ := h
    exact ⟨_, .index hr left hi right⟩
  · obtain ⟨us, _, ⟨r, hr⟩, rfl, l, _, left, rfl, vs, _, list, rfl, t, _, right, rfl, rfl⟩ := h
    obtain ⟨es, hes⟩ := list l t left right
    exact ⟨_, .call hr hes⟩
  · obtain ⟨t, _, word, rfl, us, _, ⟨e, he⟩, rfl, rfl⟩ := h
    simpa [Meaning] using exists_unary he (.inl word)
  · obtain ⟨t, _, word, rfl, us, _, ⟨e, he⟩, rfl, rfl⟩ := h
    simpa [Meaning] using exists_unary he (.inr word)
  · exact binary rfl h
  · exact binary rfl h
  · exact binary rfl h
  · exact binary rfl h
  · exact binary rfl h
  · exact binary rfl h
  · exact binary rfl h
  · exact binary rfl h
  · exact binary rfl h
  · exact binary rfl h
  · exact binary rfl h
  · exact binary rfl h
  · obtain ⟨l, _, left, rfl, us, _, ⟨e, he⟩, rfl, r, _, right, rfl, rfl⟩ := h
    exact ⟨e, .paren left he right⟩
  · obtain ⟨t, _, value, word, rfl, rfl⟩ := h
    exact ⟨_, .int word⟩
  · obtain ⟨t, _, word, rfl, rfl⟩ := h
    exact ⟨_, .true word⟩
  · obtain ⟨t, _, word, rfl, rfl⟩ := h
    exact ⟨_, .false word⟩
  · obtain ⟨t, _, word, rfl, rfl⟩ := h
    exact ⟨_, .null word⟩
  · obtain ⟨t, _, word, rfl, n, _, name, cls, rfl, l, _, left, rfl, r, _, right, rfl, rfl⟩ := h
    exact ⟨_, .newObject word cls left right⟩
  · obtain ⟨t, _, word, rfl, n, _, int, rfl, l, _, left, rfl, us, _, ⟨e, he⟩, rfl, r,
        _, right, rfl, rfl⟩ := h
    exact ⟨_, .newInts word int left he right⟩
  · obtain ⟨t, _, word, rfl, n, _, name, cls, rfl, l, _, left, rfl, us, _, ⟨e, he⟩, rfl, r,
        _, right, rfl, rfl⟩ := h
    exact ⟨_, .newArray word cls left he right⟩

/-- A method is spelled whatever its result is. -/
theorem meaning_method {result : ParserPhrase}
    (shape : ∀ us, Meaning result us → ∃ type : TypeExpr, type.SpelledResult us)
    (h : Spells Meaning [.phrase .visibility, .phrase .access, .phrase result, .ident,
      .symbol .lparen, .phrase .paramList, .symbol .rparen, .symbol .lbrace, .phrase .stmtList,
      .symbol .rbrace] ts) : Meaning .member ts := by
  obtain ⟨us, _, ⟨isPrivate, visibility'⟩, rfl, vs, _, ⟨isStatic, access⟩, rfl, ws, _, result', rfl,
      n, _, name, word, rfl, l, _, left, rfl, xs, _, params, rfl, r, _, right, rfl, l', _, left',
      rfl, ys, _, list, rfl, r', _, right', rfl, rfl⟩ := h
  obtain ⟨type, ht⟩ := shape _ result'
  obtain ⟨ps, hps⟩ := params l r left right
  obtain ⟨ss, hss⟩ := list _ _ (.endStmts right')
  have spelled := Member.Spelled.method visibility' access ht word hps left' hss
  simp only [List.cons_append, List.append_assoc, List.nil_append] at spelled
  exact ⟨_, spelled⟩

theorem meaning_member (rule : right ∈ parsed .member) (h : Spells Meaning right ts) :
    Meaning .member ts := by
  obtain rfl | rfl | rfl : _ ∨ _ ∨ _ := by simpa [parsed] using rule
  · obtain ⟨us, _, ⟨isPrivate, visibility'⟩, rfl, vs, _, ⟨isStatic, access⟩, rfl, ws, _, ⟨type, ht⟩,
        rfl, n, _, name, word, rfl, c, _, semicolon, rfl, rfl⟩ := h
    exact ⟨_, .field visibility' access ht word semicolon⟩
  · have result : ∀ us, Meaning .type us → ∃ type : TypeExpr, type.SpelledResult us :=
      fun us ⟨type, ht⟩ => ⟨type, .type ht⟩
    exact meaning_method result h
  · have result : ∀ us, Meaning .voidType us → ∃ type : TypeExpr, type.SpelledResult us :=
      fun us ht => ht
    exact meaning_method result h

theorem meaning_classList (rule : right ∈ parsed .classList) (h : Spells Meaning right ts) :
    Meaning .classList ts := by
  obtain rfl | rfl : _ ∨ _ := by simpa [parsed] using rule
  · obtain ⟨us, _, list, rfl, vs, _, ⟨c, hc⟩, rfl, rfl⟩ := h
    exact fun cs ws more => by simpa using list _ _ (.more hc more)
  · exact fun cs vs h' => ⟨cs, by rwa [h]⟩

theorem meaning_classDecl (rule : right ∈ parsed .classDecl) (h : Spells Meaning right ts) :
    Meaning .classDecl ts := by
  obtain rfl := List.mem_singleton.mp rule
  obtain ⟨t, _, word, rfl, n, _, name, cls, rfl, l, _, left, rfl, us, _, list, rfl, r,
      _, right, rfl, rfl⟩ := h
  obtain ⟨ms, hms⟩ := list _ _ (.done right)
  exact ⟨_, .mk word cls left hms⟩

theorem meaning_memberList (rule : right ∈ parsed .memberList) (h : Spells Meaning right ts) :
    Meaning .memberList ts := by
  obtain rfl | rfl : _ ∨ _ := by simpa [parsed] using rule
  · obtain ⟨us, _, list, rfl, vs, _, ⟨m, hm⟩, rfl, rfl⟩ := h
    exact fun ms ws more => by simpa using list _ _ (.more hm more)
  · exact fun ms vs h' => ⟨ms, by rwa [h]⟩

theorem meaning_visibility (rule : right ∈ parsed .visibility) (h : Spells Meaning right ts) :
    Meaning .visibility ts := by
  obtain rfl | rfl | rfl : _ ∨ _ ∨ _ := by simpa [parsed] using rule
  · obtain ⟨t, _, word, rfl, rfl⟩ := h
    exact ⟨_, .isPublic word⟩
  · obtain ⟨t, _, word, rfl, rfl⟩ := h
    exact ⟨_, .isPrivate word⟩
  · obtain rfl : ts = [] := h
    exact ⟨_, .default⟩

theorem meaning_access (rule : right ∈ parsed .access) (h : Spells Meaning right ts) :
    Meaning .access ts := by
  obtain rfl | rfl : _ ∨ _ := by simpa [parsed] using rule
  · obtain ⟨t, _, word, rfl, rfl⟩ := h
    exact ⟨_, .isStatic word⟩
  · obtain rfl : ts = [] := h
    exact ⟨_, .default⟩

theorem meaning_type (rule : right ∈ parsed .type) (h : Spells Meaning right ts) :
    Meaning .type ts := by
  obtain rfl | rfl | rfl : _ ∨ _ ∨ _ := by simpa [parsed] using rule
  · obtain ⟨us, _, ht, rfl, rfl⟩ := h
    rwa [List.append_nil]
  · obtain ⟨t, _, name, word, rfl, rfl⟩ := h
    exact ⟨_, .named word⟩
  · obtain ⟨t, _, name, word, rfl, l, _, left, rfl, r, _, right, rfl, rfl⟩ := h
    exact ⟨_, .nameds word left right⟩

theorem meaning_primType (rule : right ∈ parsed .primType) (h : Spells Meaning right ts) :
    Meaning .primType ts := by
  obtain rfl | rfl | rfl : _ ∨ _ ∨ _ := by simpa [parsed] using rule
  · obtain ⟨t, _, word, rfl, rfl⟩ := h
    exact ⟨_, .int word⟩
  · obtain ⟨t, _, word, rfl, rfl⟩ := h
    exact ⟨_, .boolean word⟩
  · obtain ⟨t, _, word, rfl, l, _, left, rfl, r, _, right, rfl, rfl⟩ := h
    exact ⟨_, .ints word left right⟩

theorem meaning_paramList (rule : right ∈ parsed .paramList) (h : Spells Meaning right ts) :
    Meaning .paramList ts := by
  obtain rfl | rfl : _ ∨ _ := by simpa [parsed] using rule
  · obtain ⟨_, _, ⟨p, us, vs, hp, rfl, list⟩, rfl, rfl⟩ := h
    intro l r left right
    obtain ⟨ps, hps⟩ := list _ _ (.done right)
    exact ⟨_, by simpa using .some left hp hps⟩
  · obtain rfl : ts = [] := h
    exact fun l r left right => ⟨_, .none left right⟩

theorem meaning_params (rule : right ∈ parsed .params) (h : Spells Meaning right ts) :
    Meaning .params ts := by
  obtain rfl | rfl : _ ∨ _ := by simpa [parsed] using rule
  · obtain ⟨_, _, ⟨p, us, vs, hp, rfl, list⟩, rfl, c, _, comma, rfl, ws, _, ⟨type, ht⟩, rfl, n, _,
        name, word, rfl, rfl⟩ := h
    refine ⟨p, us, _, hp, List.append_assoc .., fun ps xs more => ?_⟩
    simpa using list _ _ (.more comma (.mk ht word) more)
  · obtain ⟨us, _, ⟨type, ht⟩, rfl, n, _, name, word, rfl, rfl⟩ := h
    exact ⟨_, us ++ [n], [], .mk ht word, by simp, fun ps ws more => ⟨ps, more⟩⟩

theorem meaning_stmtList (rule : right ∈ parsed .stmtList) (h : Spells Meaning right ts) :
    Meaning .stmtList ts := by
  obtain rfl | rfl : _ ∨ _ := by simpa [parsed] using rule
  · obtain ⟨us, _, list, rfl, vs, _, ⟨s, hs⟩, rfl, rfl⟩ := h
    exact fun ss ws more => by simpa using list _ _ (.stmts hs more)
  · exact fun ss vs h' => ⟨ss, by rwa [h]⟩

theorem meaning_reference (rule : right ∈ parsed .reference) (h : Spells Meaning right ts) :
    Meaning .reference ts := by
  obtain rfl | rfl | rfl : _ ∨ _ ∨ _ := by simpa [parsed] using rule
  · obtain ⟨t, _, name, word, rfl, rfl⟩ := h
    exact ⟨_, .ident word⟩
  · obtain ⟨t, _, word, rfl, rfl⟩ := h
    exact ⟨_, .this word⟩
  · obtain ⟨us, _, ⟨r, hr, -⟩, rfl, rfl⟩ := h
    exact ⟨r, by rwa [List.append_nil]⟩

theorem meaning_argList (rule : right ∈ parsed .argList) (h : Spells Meaning right ts) :
    Meaning .argList ts := by
  obtain rfl | rfl : _ ∨ _ := by simpa [parsed] using rule
  · obtain ⟨_, _, ⟨e, us, vs, he, rfl, list⟩, rfl, rfl⟩ := h
    intro l r left right
    obtain ⟨es, hes⟩ := list _ _ (.endArgs right)
    exact ⟨_, by simpa using .args left he hes⟩
  · obtain rfl : ts = [] := h
    exact fun l r left right => ⟨_, .noArgs left right⟩

theorem meaning_args (rule : right ∈ parsed .args) (h : Spells Meaning right ts) :
    Meaning .args ts := by
  obtain rfl | rfl : _ ∨ _ := by simpa [parsed] using rule
  · obtain ⟨_, _, ⟨e, us, vs, he, rfl, list⟩, rfl, c, _, comma, rfl, ws, _, ⟨e', he'⟩, rfl, rfl⟩ :=
      h
    refine ⟨e, us, _, he, List.append_assoc .., fun es xs more => ?_⟩
    simpa using list _ _ (.moreArgs comma he' more)
  · obtain ⟨us, _, ⟨e, he⟩, rfl, rfl⟩ := h
    exact ⟨e, us, [], he, rfl, fun es ws more => ⟨es, more⟩⟩

end Rules

theorem meaning_closed (n : ParserPhrase) (right : List (RuleItem ParserPhrase))
    (rule : right ∈ parsed n) (ts : List Token) (h : Spells Meaning right ts) : Meaning n ts := by
  cases n with
  | stmt => exact meaning_stmt rule h
  | expr => exact meaning_expr rule h
  | program =>
    obtain rfl := List.mem_singleton.mp rule
    obtain ⟨us, _, list, rfl, rfl⟩ := h
    rwa [List.append_nil]
  | classList => exact meaning_classList rule h
  | classDecl => exact meaning_classDecl rule h
  | memberList => exact meaning_memberList rule h
  | member => exact meaning_member rule h
  | visibility => exact meaning_visibility rule h
  | access => exact meaning_access rule h
  | voidType =>
    obtain rfl := List.mem_singleton.mp rule
    obtain ⟨t, _, word, rfl, rfl⟩ := h
    exact ⟨_, .void word⟩
  | type => exact meaning_type rule h
  | primType => exact meaning_primType rule h
  | paramList => exact meaning_paramList rule h
  | params => exact meaning_params rule h
  | stmtList => exact meaning_stmtList rule h
  | reference => exact meaning_reference rule h
  | qualified =>
    obtain rfl := List.mem_singleton.mp rule
    obtain ⟨us, _, ⟨r, hr⟩, rfl, d, _, dot, rfl, t, _, name, word, rfl, rfl⟩ := h
    exact ⟨_, .qualified hr dot word, trivial⟩
  | argList => exact meaning_argList rule h
  | args => exact meaning_args rule h

/-- Tokens that the parser's grammar derives spell classes. -/
theorem spelledAll_of_derives {ts : List Token} (h : parsed.Derives [.phrase .program] ts) :
    ∃ cs, ClassDecl.SpelledAll cs ts := by
  obtain ⟨us, _, program, rfl, rfl⟩ := h.spells meaning_closed
  exact program [] [] .done

open Grammar (Derives)

/-- What the parser's grammar derives. -/
abbrev Parsed (items : List (RuleItem ParserPhrase)) (ts : List Token) : Prop :=
  parsed.Derives items ts

variable {ts us vs : List Token}

theorem Parsed.of (n : ParserPhrase) {right : List (RuleItem ParserPhrase)} (h : Parsed right ts)
    (rule : right ∈ parsed n) : Parsed [.phrase n] ts :=
  h.asPhrase n rule

theorem parsed_typeExpr {type : TypeExpr} (h : type.Spelled ts) :
    Parsed [.phrase .type] ts := by
  cases h with
  | int word | boolean word =>
    exact .of .type (.of .primType (.keyword word .nil) (by decide)) (by decide)
  | named word => exact .of .type (.ident word .nil) (by decide)
  | ints word left right =>
    exact .of .type (.of .primType (.keyword word (.symbol left (.symbol right .nil))) (by decide))
      (by decide)
  | nameds word left right =>
    exact .of .type (.ident word (.symbol left (.symbol right .nil))) (by decide)

/-- A reference, which is a qualified one if it is not a single word. -/
theorem parsed_reference {r : Reference} (h : r.Spelled ts) :
    Parsed [.phrase .reference] ts ∧ (isQualified r = true → Parsed [.phrase .qualified] ts) := by
  induction h with
  | this word => exact ⟨.of .reference (.keyword word .nil) (by decide), nofun⟩
  | ident word => exact ⟨.of .reference (.ident word .nil) (by decide), nofun⟩
  | qualified _ dot word ih =>
    have whole := Parsed.of .qualified (ih.1.part (.symbol dot (.ident word .nil))) (by decide)
    exact ⟨.of .reference whole (by decide), fun _ => whole⟩

/-- A phrase that ends before a closing symbol, with the symbol. -/
def ParsedUpTo (n : ParserPhrase) (s : Symbol) (ts : List Token) : Prop :=
  ∃ us, ∃ r : Token, ts = us ++ [r] ∧ r.kind = .symbol s ∧ Parsed [.phrase n] us

/-- What is derived of the parts of an expression. Lists are derived from the left and spelled from
the right, so what is spelled of one goes on with any list before it. -/
def PhraseParsed : Phrase → List Token → Prop
  | .expr _ _, ts => Parsed [.phrase .expr] ts
  | .args _, ts => Parsed [.symbol .lparen, .phrase .argList, .symbol .rparen] ts
  | .moreArgs _, ts => ∀ us, Parsed [.phrase .args] us → ParsedUpTo .args .rparen (us ++ ts)

theorem phraseParsed {p : Phrase} (h : p.Spelled ts) : PhraseParsed p ts := by
  induction h with
  | int word => exact .of .expr (.number word .nil) (by decide)
  | true word => exact .of .expr (.keyword word .nil) (by decide)
  | false word => exact .of .expr (.keyword word .nil) (by decide)
  | null word => exact .of .expr (.keyword word .nil) (by decide)
  | neg op _ ih => exact .of .expr (.symbol op ih) (by decide)
  | not op _ ih => exact .of .expr (.symbol op ih) (by decide)
  | @binary _ _ _ _ s _ _ _ word known _ _ _ ihl ihr =>
    have whole := ihl.part (.symbol word ihr)
    cases s <;> cases known <;> exact .of .expr whole (by decide)
  | paren left _ right ih =>
    exact .of .expr (.symbol left (ih.part (.symbol right .nil))) (by decide)
  | ref ref => exact .of .expr (parsed_reference ref).1 (by decide)
  | index ref left _ right ih =>
    exact .of .expr ((parsed_reference ref).1.part (.symbol left (ih.part (.symbol right .nil))))
      (by decide)
  | call ref _ ih => exact .of .expr ((parsed_reference ref).1.part ih) (by decide)
  | newObject word cls left right =>
    exact .of .expr (.keyword word (.ident cls (.symbol left (.symbol right .nil)))) (by decide)
  | newArray word cls left _ right ih =>
    exact .of .expr (.keyword word (.ident cls (.symbol left (ih.part (.symbol right .nil)))))
      (by decide)
  | newInts word int left _ right ih =>
    exact .of .expr (.keyword word (.keyword int (.symbol left (ih.part (.symbol right .nil)))))
      (by decide)
  | noArgs left right =>
    exact .symbol left ((Parsed.of .argList .nil (by decide)).part (.symbol right .nil))
  | args left _ _ ih ih' =>
    obtain ⟨us, r, split, right, all⟩ := ih' _ (.of .args ih (by decide))
    rw [split]
    exact .symbol left ((Parsed.of .argList all (by decide)).part (.symbol right .nil))
  | @endArgs r right => exact fun us h => ⟨us, r, rfl, right, h⟩
  | moreArgs comma _ _ ih ih' =>
    intro us h
    simpa using ih' _ (.of .args (h.part (.symbol comma ih)) (by decide))

theorem parsed_value {e : Expr} (h : e.SpelledValue ts) :
    Parsed [.symbol .assign, .phrase .expr, .symbol .semicolon] ts := by
  obtain ⟨us, a, c, assign, h, semicolon, rfl⟩ := h
  exact .symbol assign ((phraseParsed h).part (.symbol semicolon .nil))

theorem parsed_condition {e : Expr} (h : e.SpelledCondition ts) :
    Parsed [.symbol .lparen, .phrase .expr, .symbol .rparen] ts := by
  obtain ⟨us, l, r, left, h, right, rfl⟩ := h
  exact .symbol left ((phraseParsed h).part (.symbol right .nil))

def PassageParsed : Passage → List Token → Prop
  | .stmt _, ts => Parsed [.phrase .stmt] ts
  | .stmts _, ts => ∀ us, Parsed [.phrase .stmtList] us → ParsedUpTo .stmtList .rbrace (us ++ ts)

theorem passageParsed {p : Passage} (h : p.Spelled ts) : PassageParsed p ts := by
  induction h with
  | block left _ ih =>
    obtain ⟨us, r, rfl, right, list⟩ := ih [] (.of .stmtList .nil (by decide))
    exact .of .stmt (.symbol left (list.part (.symbol right .nil))) (by decide)
  | declare type' word value =>
    have tail := parsed_value value
    cases type' with
    | int word' | boolean word' =>
      exact .of .stmt
        ((Parsed.of .primType (.keyword word' .nil) (by decide)).part (.ident word tail))
        (by decide)
    | named word' => exact .of .stmt (.ident word' (.ident word tail)) (by decide)
    | ints word' left right =>
      have type :=
        Parsed.of .primType (.keyword word' (.symbol left (.symbol right .nil))) (by decide)
      exact .of .stmt (type.part (.ident word tail)) (by decide)
    | nameds word' left right =>
      exact .of .stmt (.ident word' (.symbol left (.symbol right (.ident word tail)))) (by decide)
  | assign ref value' =>
    exact .of .stmt ((parsed_reference ref).1.part (parsed_value value')) (by decide)
  | assignIndex ref assignable left index' right value' =>
    have tail :=
      Derives.symbol left ((phraseParsed index').part (.symbol right (parsed_value value')))
    cases ref with
    | this word => exact absurd assignable id
    | ident word => exact .of .stmt (.ident word tail) (by decide)
    | qualified qualifier dot word =>
      exact .of .stmt (((parsed_reference (.qualified qualifier dot word)).2 rfl).part tail)
        (by decide)
  | call ref args semicolon =>
    exact .of .stmt
      ((parsed_reference ref).1.part ((phraseParsed args).append (.symbol semicolon .nil)))
      (by decide)
  | ret word semicolon => exact .of .stmt (.keyword word (.symbol semicolon .nil)) (by decide)
  | retValue word value semicolon =>
    exact .of .stmt (.keyword word ((phraseParsed value).part (.symbol semicolon .nil))) (by decide)
  | ifThen word cond' _ ih =>
    exact .of .stmt (.keyword word ((parsed_condition cond').append ih)) (by decide)
  | ifElse word cond' _ _ word' _ ih ih' =>
    exact .of .stmt (.keyword word ((parsed_condition cond').append (ih.part (.keyword word' ih'))))
      (by decide)
  | loop word cond' _ ih =>
    exact .of .stmt (.keyword word ((parsed_condition cond').append ih)) (by decide)
  | @endStmts r right => exact fun us h => ⟨us, r, rfl, right, h⟩
  | stmts _ _ ih ih' =>
    intro us h
    simpa using ih' _ (.of .stmtList (h.part ih) (by decide))

theorem parsed_moreParams {ps : List ParamDecl} (h : ParamDecl.SpelledMore ps vs)
    (before : Parsed [.phrase .params] us) : ParsedUpTo .params .rparen (us ++ vs) := by
  induction h generalizing us with
  | @done r right => exact ⟨us, r, rfl, right, before⟩
  | more comma next _ ih =>
    cases next with
    | mk type' word =>
      have next := (parsed_typeExpr type').part (.ident word .nil)
      simpa using ih (.of .params (before.part (.symbol comma next)) (by decide))

theorem parsed_params {ps : List ParamDecl} (h : ParamDecl.SpelledAll ps ts) :
    Parsed [.symbol .lparen, .phrase .paramList, .symbol .rparen] ts := by
  cases h with
  | none left right =>
    exact .symbol left ((Parsed.of .paramList .nil (by decide)).part (.symbol right .nil))
  | some left first more =>
    cases first with
    | mk type' word =>
      have first := (parsed_typeExpr type').part (.ident word .nil)
      obtain ⟨us, r, split, right, all⟩ := parsed_moreParams more (.of .params first (by decide))
      rw [split]
      exact .symbol left ((Parsed.of .paramList all (by decide)).part (.symbol right .nil))

theorem parsed_visibility {isPrivate : Bool} (h : SpelledVisibility isPrivate ts) :
    Parsed [.phrase .visibility] ts := by
  cases h with
  | default => exact .of .visibility .nil (by decide)
  | isPublic word => exact .of .visibility (.keyword word .nil) (by decide)
  | isPrivate word => exact .of .visibility (.keyword word .nil) (by decide)

theorem parsed_access {isStatic : Bool} (h : SpelledAccess isStatic ts) :
    Parsed [.phrase .access] ts := by
  cases h with
  | default => exact .of .access .nil (by decide)
  | isStatic word => exact .of .access (.keyword word .nil) (by decide)

theorem parsed_member {m : Member} (h : Member.Spelled m ts) : Parsed [.phrase .member] ts := by
  cases h with
  | field visibility' access type' word semicolon =>
    have tail := (parsed_typeExpr type').part (.ident word (.symbol semicolon .nil))
    exact .of .member ((parsed_visibility visibility').part ((parsed_access access).part tail))
      (by decide)
  | method visibility' access result' word params' left body' =>
    obtain ⟨us, r, rfl, right, list⟩ := passageParsed body' [] (.of .stmtList .nil (by decide))
    have tail := Derives.ident word ((parsed_params params').append
      (.symbol left (list.part (.symbol right .nil))))
    have head {n : ParserPhrase} {ws : List Token} (type : Parsed [.phrase n] ws) :=
      (parsed_visibility visibility').part ((parsed_access access).part (type.part tail))
    cases result' with
    | type type' => exact .of .member (head (parsed_typeExpr type')) (by decide)
    | void word' =>
      exact .of .member (head (.of .voidType (.keyword word' .nil) (by decide))) (by decide)

theorem parsed_members {ms : List Member} (h : Member.SpelledAll ms vs)
    (before : Parsed [.phrase .memberList] us) : ParsedUpTo .memberList .rbrace (us ++ vs) := by
  induction h generalizing us with
  | @done r right => exact ⟨us, r, rfl, right, before⟩
  | more first _ ih =>
    simpa using ih (.of .memberList (before.part (parsed_member first)) (by decide))

theorem parsed_classDecl {c : ClassDecl} (h : c.Spelled ts) : Parsed [.phrase .classDecl] ts := by
  cases h with
  | mk word cls left members =>
    obtain ⟨us, r, rfl, right, list⟩ := parsed_members members (.of .memberList .nil (by decide))
    exact .of .classDecl
      (.keyword word (.ident cls (.symbol left (list.part (.symbol right .nil)))))
      (by decide)

theorem parsed_classes {cs : List ClassDecl} (h : ClassDecl.SpelledAll cs vs)
    (before : Parsed [.phrase .classList] us) : Parsed [.phrase .classList] (us ++ vs) := by
  induction h generalizing us with
  | done => simpa using before
  | more first _ ih =>
    simpa using ih (.of .classList (before.part (parsed_classDecl first)) (by decide))

/-- The tokens that the parser's grammar derives are those that spell classes. -/
theorem parsed_iff_spelledAll {ts : List Token} :
    Parsed [.phrase .program] ts ↔ ∃ cs, ClassDecl.SpelledAll cs ts := by
  refine ⟨spelledAll_of_derives, fun ⟨cs, h⟩ => ?_⟩
  exact .of .program (parsed_classes h (.of .classList .nil (by decide))) (by decide)

end Reading

end JamCompiler
