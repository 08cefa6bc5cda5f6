import JamCompiler.Proofs.Reading.Lookahead

/-!
# What is spelled is read

Tokens that spell a tree are read as that tree, at every depth that is great enough, wherever what
comes after them cannot go on from them. Expressions are the point at which this needs care: what
an expression is read as depends on the operators after it, so the statement about them says what
reading a longer expression comes down to once the shorter one is read.
-/

namespace JamCompiler

namespace Reading

variable {α β : Type}

/-- A step at every depth that is great enough answers `a` and leaves `rest`. -/
def Succeeds (step : Nat → Reading α) (ts : List Token) (a : α) (rest : List Token) : Prop :=
  ∃ enough, ∀ fuel, enough ≤ fuel → EStateM.run (step fuel) ts = .ok a rest

namespace Succeeds

variable {x : Nat → Reading α} {f : Nat → α → Reading β}
  {ts middle rest : List Token} {a : α} {b : β}

theorem const {x : Reading α} (run : EStateM.run x ts = .ok a rest) :
    Succeeds (fun _ => x) ts a rest :=
  ⟨0, fun _ _ => run⟩

theorem pure : Succeeds (fun _ => Pure.pure a) ts a ts :=
  const rfl

theorem bind (first : Succeeds x ts a middle) (next : Succeeds (f · a) middle b rest) :
    Succeeds (fun fuel => x fuel >>= f fuel) ts b rest := by
  obtain ⟨n, first⟩ := first
  obtain ⟨m, next⟩ := next
  refine ⟨n + m, fun fuel le => ?_⟩
  rw [EStateM.run_bind, first fuel (by omega)]
  exact next fuel (by omega)

theorem succ (h : Succeeds (fun fuel => x (fuel + 1)) ts a rest) : Succeeds x ts a rest := by
  obtain ⟨n, h⟩ := h
  refine ⟨n + 1, fun fuel le => ?_⟩
  obtain ⟨fuel, rfl⟩ := Nat.exists_eq_succ_of_ne_zero (Nat.ne_zero_of_lt le)
  exact h fuel (Nat.le_of_succ_le_succ le)

theorem peek {f : Nat → Option TokenKind → Reading β} (h : Succeeds (f · (front ts)) ts b rest) :
    Succeeds (fun fuel => Reading.peek >>= f fuel) ts b rest :=
  h

theorem token {f : Nat → Nat → Reading β} {t : Token} {kind : TokenKind} (known : t.kind = kind)
    (h : Succeeds (f · t.pos) ts b rest) :
    Succeeds (fun fuel => Reading.expect kind >>= f fuel) (t :: ts) b rest :=
  (const (by rw [run_expect, if_pos known])).bind h

theorem name {f : Nat → Identifier → Reading β} {t : Token} {name : String}
    (known : t.kind = .ident name) (h : Succeeds (f · ⟨name, t.pos⟩) ts b rest) :
    Succeeds (fun fuel => Reading.identifier >>= f fuel) (t :: ts) b rest := by
  obtain ⟨kind, pos, line⟩ := t
  cases known
  exact (const rfl : Succeeds (fun _ => Reading.identifier) _ _ _).bind h

theorem taken {t : Token} {kind : TokenKind} (known : t.kind = kind) :
    Succeeds (fun _ => Reading.takes kind) (t :: ts) true ts := by
  refine const ?_
  change EStateM.run (if some t.kind = some kind then _ else _) (t :: ts) = _
  rw [if_pos (congrArg some known), EStateM.run_bind, run_expect, if_pos known]
  rfl

theorem left {kind : TokenKind} (other : front ts ≠ some kind) :
    Succeeds (fun _ => Reading.takes kind) ts false ts := by
  refine const ?_
  change EStateM.run (if front ts = some kind then _ else _) ts = _
  rw [if_neg other]
  rfl

theorem takes {f : Nat → Bool → Reading β} {t : Token} {kind : TokenKind} (known : t.kind = kind)
    (h : Succeeds (f · true) ts b rest) :
    Succeeds (fun fuel => Reading.takes kind >>= f fuel) (t :: ts) b rest :=
  (taken known).bind h

theorem leaves {f : Nat → Bool → Reading β} {kind : TokenKind} (other : front ts ≠ some kind)
    (h : Succeeds (f · false) ts b rest) :
    Succeeds (fun fuel => Reading.takes kind >>= f fuel) ts b rest :=
  (left other).bind h

end Succeeds

variable {ts rest : List Token}

theorem succeeds_arrayOr {type : TypeExpr} (other : front rest ≠ some (.symbol .lbracket)) :
    Succeeds (fun _ => arrayOr type) rest type rest :=
  .leaves other .pure

theorem succeeds_typeExpr {type : TypeExpr} (h : type.Spelled ts)
    (other : front rest ≠ some (.symbol .lbracket)) :
    Succeeds (fun _ => typeExpr) (ts ++ rest) type rest := by
  cases h with
  | @int t word =>
    obtain ⟨kind, pos, line⟩ := t
    cases word
    exact .peek (.peek (.token rfl (succeeds_arrayOr other)))
  | @boolean t word =>
    obtain ⟨kind, pos, line⟩ := t
    cases word
    exact .peek (.peek (.token rfl .pure))
  | @named t name word =>
    obtain ⟨kind, pos, line⟩ := t
    cases word
    exact .peek (.name rfl (succeeds_arrayOr other))
  | @ints t l r word left right =>
    obtain ⟨kind, pos, line⟩ := t
    cases word
    exact .peek (.peek (.token rfl (.takes left (.token right .pure))))
  | @nameds t l r name word left right =>
    obtain ⟨kind, pos, line⟩ := t
    cases word
    exact .peek (.name rfl (.takes left (.token right .pure)))

/-- How a reference begins, and what reading its qualifiers comes down to. -/
theorem spelled_reference_begins {r : Reference} (h : r.Spelled ts) :
    ∃ t us, ts = t :: us ∧
      (us = [] ∧ isQualified r = false ∨ front us = some (.symbol .dot) ∧ isQualified r = true) ∧
      ((∃ name, t.kind = .ident name ∧
          ∀ rest, qualifiers (.ident ⟨name, t.pos⟩ t.pos) (us ++ rest) = qualifiers r rest) ∨
        (t.kind = .keyword .thisWord ∧
          ∀ rest, qualifiers (.this t.pos) (us ++ rest) = qualifiers r rest)) := by
  induction h with
  | @this t word => exact ⟨t, [], rfl, .inl ⟨rfl, rfl⟩, .inr ⟨word, fun _ => rfl⟩⟩
  | @ident t name word => exact ⟨t, [], rfl, .inl ⟨rfl, rfl⟩, .inl ⟨name, word, fun _ => rfl⟩⟩
  | @qualified r ts d t name _ dot word ih =>
    have goes (rest : List Token) : qualifiers r ([d, t] ++ rest) =
        qualifiers (.qualified r ⟨name, t.pos⟩ r.pos) rest := by
      obtain ⟨dk, dp, dl⟩ := d
      obtain ⟨tk, tp, tl⟩ := t
      cases dot
      cases word
      rfl
    obtain ⟨t₀, us, rfl, tail, begins⟩ := ih
    have tail' : front (us ++ [d, t]) = some (.symbol .dot) := by
      rcases tail with ⟨rfl, -⟩ | ⟨at', -⟩
      · exact congrArg some dot
      · obtain ⟨pos, line, us', rfl⟩ := front_eq_some.mp at'
        rfl
    refine ⟨t₀, us ++ [d, t], rfl, .inr ⟨tail', rfl⟩, ?_⟩
    rcases begins with ⟨name₀, known, same⟩ | ⟨known, same⟩
    · exact .inl ⟨name₀, known, fun rest => by rw [List.append_assoc, same, goes]⟩
    · exact .inr ⟨known, fun rest => by rw [List.append_assoc, same, goes]⟩

theorem succeeds_reference {r : Reference} (h : r.Spelled ts)
    (other : front rest ≠ some (.symbol .dot)) :
    Succeeds (fun _ => reference) (ts ++ rest) r rest := by
  obtain ⟨⟨kind, pos, line⟩, us, rfl, -, ⟨name, known, same⟩ | ⟨known, same⟩⟩ :=
    spelled_reference_begins h
  · cases known
    exact .peek (.name rfl (.const ((same rest).trans (qualifiers_end other))))
  · cases known
    exact .peek (.token rfl (.const ((same rest).trans (qualifiers_end other))))

/-- Whether a token ends a reference that it follows. -/
def EndsReference (o : Option TokenKind) : Prop :=
  o ≠ some (.symbol .dot) ∧ o ≠ some (.symbol .lbracket) ∧ o ≠ some (.symbol .lparen)

/-- Whether a token ends every expression that it follows. -/
def EndsExpr (o : Option TokenKind) : Prop := EndsReference o ∧ ¬ Continues 1 o

theorem Continues.lower {least level : Nat} {o : Option TokenKind} (h : Continues level o)
    (le : least ≤ level) : Continues least o := by
  obtain ⟨s, op, at', known, level⟩ := h
  exact ⟨s, op, at', known, Nat.le_trans le level⟩

theorem endsExpr_symbol {s : Symbol}
    (h : s = .rparen ∨ s = .rbracket ∨ s = .semicolon ∨ s = .comma) :
    EndsExpr (some (.symbol s)) := by
  refine ⟨⟨?_, ?_, ?_⟩, ?_⟩
  · rintro ⟨⟩; simp at h
  · rintro ⟨⟩; simp at h
  · rintro ⟨⟩; simp at h
  · rintro ⟨s', op, ⟨⟩, known, -⟩
    rcases h with rfl | rfl | rfl | rfl <;> cases known

/-- What reading comes down to on tokens that spell a part of an expression. -/
def PhraseRead : Phrase → List Token → Prop
  | .expr level e, ts =>
    (∀ least rest e' rest', least ≤ level → EndsReference (front rest) →
      ¬ Continues (level + 1) (front rest) → Succeeds (operators · least e) rest e' rest' →
      Succeeds (exprFrom · least) (ts ++ rest) e' rest') ∧
    (operandLevel ≤ level → ∀ rest, EndsReference (front rest) →
      Succeeds operand (ts ++ rest) e rest)
  | .args es, ts => ∀ rest, Succeeds arguments (ts ++ rest) es rest
  | .moreArgs es, ts => ∀ rest, Succeeds moreArguments (ts ++ rest) es rest

/-- An expression without operators outside parentheses is read as an operand. -/
theorem read_of_operand {level : Nat} {e : Expr}
    (h : ∀ rest, EndsReference (front rest) → Succeeds operand (ts ++ rest) e rest) :
    PhraseRead (.expr level e) ts :=
  ⟨fun _ _ _ _ _ ends _ next => .succ (.bind (h _ ends) next), fun _ => h⟩

theorem run_peek (ts : List Token) : EStateM.run Reading.peek ts = .ok (front ts) ts := rfl

theorem run_nextOp_none {least : Nat} (h : ¬ Continues least (front ts)) :
    EStateM.run (nextOp least) ts = .ok none ts := by
  simp only [nextOp, EStateM.run_bind, run_peek]
  split
  · rename_i s at'
    split
    · rename_i op known
      rw [if_neg fun level => h ⟨s, op, at', known, level⟩]
      rfl
    · rfl
  · rfl

theorem run_nextOp_some {least : Nat} {t : Token} {s : Symbol} {op : BinaryOp}
    (word : t.kind = .symbol s) (known : binaryOp? s = some op) (level : least ≤ op.precedence) :
    EStateM.run (nextOp least) (t :: ts) = .ok (some (s, op)) (t :: ts) := by
  have first : front (t :: ts) = some (.symbol s) := congrArg some word
  simp only [nextOp, EStateM.run_bind, run_peek, first, known, if_pos level, EStateM.run_pure]

theorem succeeds_operators_end {least : Nat} {e : Expr} (h : ¬ Continues least (front rest)) :
    Succeeds (operators · least e) rest e rest :=
  .succ (.bind (.const (run_nextOp_none h)) .pure)

/-- An expression that stands alone. -/
theorem PhraseRead.alone {level : Nat} {e : Expr} (h : PhraseRead (.expr level e) ts)
    (ends : EndsReference (front rest)) (stops : ¬ Continues level (front rest)) :
    Succeeds (exprFrom · level) (ts ++ rest) e rest :=
  h.1 level rest e rest (Nat.le_refl _) ends (fun on => stops (on.lower (Nat.le_succ _)))
    (succeeds_operators_end stops)

theorem PhraseRead.closed {e : Expr} {t : Token} {s : Symbol} (h : PhraseRead (.expr 1 e) ts)
    (known : t.kind = .symbol s)
    (closes : s = .rparen ∨ s = .rbracket ∨ s = .semicolon ∨ s = .comma) :
    Succeeds (exprFrom · 1) (ts ++ t :: rest) e (t :: rest) := by
  have ends : EndsExpr (front (t :: rest)) := by
    change EndsExpr (some t.kind)
    rw [known]
    exact endsExpr_symbol closes
  exact h.alone ends.1 ends.2

/-- How an expression begins, among the symbols. -/
def StartsExpr (t : Token) : Prop :=
  ∀ s, t.kind = .symbol s → s = .minus ∨ s = .not ∨ s = .lparen

theorem startsExpr_of_reference {r : Reference} (h : r.Spelled ts) :
    ∃ t us, ts = t :: us ∧ StartsExpr t := by
  obtain ⟨t, us, rfl, -, ⟨name, known, -⟩ | ⟨known, -⟩⟩ := spelled_reference_begins h <;>
    exact ⟨t, us, rfl, fun s symbol => by rw [known] at symbol; cases symbol⟩

theorem startsExpr_of_spelled {level : Nat} {e : Expr} {ts : List Token}
    (h : (Phrase.expr level e).Spelled ts) :
    ∃ t us, ts = t :: us ∧ StartsExpr t := by
  have plain {t : Token} {kind : TokenKind} (known : t.kind = kind)
      (starts : ∀ s, kind = .symbol s → s = .minus ∨ s = .not ∨ s = .lparen) (us : List Token) :
      ∃ t' us', t :: us = t' :: us' ∧ StartsExpr t' :=
    ⟨t, us, rfl, fun s symbol => starts s (known.symm.trans symbol)⟩
  cases h with
  | int word => exact plain word nofun _
  | true word => exact plain word nofun _
  | false word => exact plain word nofun _
  | null word => exact plain word nofun _
  | neg op operand => exact plain op (fun s same => by cases same; simp) _
  | not op operand => exact plain op (fun s same => by cases same; simp) _
  | binary word known level left right =>
    obtain ⟨t, us, rfl, starts⟩ := startsExpr_of_spelled left
    exact ⟨t, _, rfl, starts⟩
  | paren left inner right => exact plain left (fun s same => by cases same; simp) _
  | ref ref => exact startsExpr_of_reference ref
  | index ref left index right | call ref args =>
    obtain ⟨t, us, rfl, starts⟩ := startsExpr_of_reference ref
    exact ⟨t, _, rfl, starts⟩
  | newObject word cls left right => exact plain word nofun _
  | newArray word cls left inner right => exact plain word nofun _
  | newInts word int left inner right => exact plain word nofun _

/-- The token after an opening one does not close it, if an expression follows. -/
theorem front_ne_of_spelled {level : Nat} {e : Expr} {s : Symbol}
    (h : (Phrase.expr level e).Spelled ts) (other : s ≠ .minus ∧ s ≠ .not ∧ s ≠ .lparen) :
    front (ts ++ rest) ≠ some (.symbol s) := by
  obtain ⟨t, us, rfl, starts⟩ := startsExpr_of_spelled h
  intro same
  rcases starts s (Option.some.inj same) with rfl | rfl | rfl <;> simp at other

theorem succeeds_operand_of_reference {r : Reference} {e : Expr} {rest' : List Token}
    (h : r.Spelled ts) (other : front rest ≠ some (.symbol .dot))
    (next : Succeeds (referenceOperand · r) rest e rest') :
    Succeeds operand (ts ++ rest) e rest' := by
  have ref := succeeds_reference h other
  obtain ⟨⟨kind, pos, line⟩, us, rfl, -, ⟨name, known, -⟩ | ⟨known, -⟩⟩ :=
    spelled_reference_begins h
  · cases known
    exact .succ (.peek (ref.bind next))
  · cases known
    exact .succ (.peek (ref.bind next))

theorem PhraseRead.bracketed {e : Expr} {l r : Token} (h : PhraseRead (.expr 1 e) ts)
    (left : l.kind = .symbol .lbracket) (right : r.kind = .symbol .rbracket) :
    Succeeds bracketed (l :: (ts ++ r :: rest)) e rest :=
  .succ (.token left ((h.closed right (.inr (.inl rfl))).bind (.token right .pure)))

theorem args_begin {es : List Expr} (h : (Phrase.args es).Spelled ts) :
    ∃ l us, ts = l :: us ∧ l.kind = .symbol .lparen := by
  cases h with
  | noArgs left right => exact ⟨_, _, rfl, left⟩
  | args left first more => exact ⟨_, _, rfl, left⟩

theorem moreArgs_begin {es : List Expr} (h : (Phrase.moreArgs es).Spelled ts) :
    ∃ t us s, ts = t :: us ∧ t.kind = .symbol s ∧ (s = .rparen ∨ s = .comma) := by
  cases h with
  | endArgs right => exact ⟨_, _, _, rfl, right, .inl rfl⟩
  | moreArgs comma next more => exact ⟨_, _, _, rfl, comma, .inr rfl⟩

theorem phraseRead {p : Phrase} (h : p.Spelled ts) : PhraseRead p ts := by
  induction h with
  | @int least value t word | @true least t word | @false least t word | @null least t word =>
    obtain ⟨kind, pos, line⟩ := t
    cases word
    exact read_of_operand fun rest _ => .succ (.peek (.token rfl .pure))
  | @neg least e t ts op operand ih | @not least e t ts op operand ih =>
    obtain ⟨kind, pos, line⟩ := t
    cases op
    refine read_of_operand fun rest ends => .succ (.peek (.token rfl ?_))
    exact (ih.2 (Nat.le_refl _) rest ends).bind .pure
  | @binary least a b t s op us vs word known level left right ihl ihr =>
    refine ⟨fun m rest e' rest' le ends stops next => ?_, fun above => ?_⟩
    · -- the left operand ends before the operator, the right one before what is no tighter operator
      have right_stops : ¬ Continues (op.precedence + 1) (front rest) :=
        fun on => stops (on.lower (Nat.succ_le_succ level))
      have left_ends : EndsReference (front (t :: (vs ++ rest))) := by
        change EndsReference (some t.kind)
        rw [word]
        cases s <;> cases known <;> exact ⟨nofun, nofun, nofun⟩
      have left_stops : ¬ Continues (op.precedence + 1) (front (t :: (vs ++ rest))) := by
        rintro ⟨s', op', at', known', le'⟩
        cases (Option.some.inj at').symm.trans word
        cases known'.symm.trans known
        omega
      rw [List.append_assoc]
      refine ihl.1 m _ e' rest' (Nat.le_trans le level) left_ends left_stops (.succ ?_)
      refine (Succeeds.const (run_nextOp_some word known (Nat.le_trans le level))).bind ?_
      exact .token word ((ihr.alone ends right_stops).bind next)
    · have := precedence_lt known
      omega
  | @paren least e l r ts left inner right ih =>
    obtain ⟨kind, pos, line⟩ := l
    cases left
    refine read_of_operand fun rest ends => ?_
    simp only [List.cons_append, List.append_assoc, List.nil_append]
    exact .succ (.peek (.token rfl ((ih.closed right (.inl rfl)).bind (.token right .pure))))
  | ref ref =>
    refine read_of_operand fun rest ends => succeeds_operand_of_reference ref ends.1 ?_
    refine .succ (.peek ?_)
    split
    · exact absurd ‹_› ends.2.1
    · exact absurd ‹_› ends.2.2
    · exact .pure
  | @index least r i us vs l t ref left index right ih =>
    obtain ⟨kind, pos, line⟩ := l
    cases left
    refine read_of_operand fun rest _ => ?_
    simp only [List.cons_append, List.append_assoc, List.nil_append]
    refine succeeds_operand_of_reference ref nofun (.succ (.peek (.token rfl ?_)))
    exact (ih.closed right (.inr (.inl rfl))).bind (.token right .pure)
  | @call least r es us vs ref args ih =>
    refine read_of_operand fun rest _ => ?_
    obtain ⟨⟨kind, pos, line⟩, ws, rfl, left⟩ := args_begin args
    cases left
    rw [List.append_assoc]
    exact succeeds_operand_of_reference ref nofun (.succ (.peek ((ih rest).bind .pure)))
  | @newObject least t n l r name word cls left right =>
    obtain ⟨kind, pos, line⟩ := t
    obtain ⟨kind', pos', line'⟩ := n
    cases word
    cases cls
    refine read_of_operand fun rest _ => .succ (.peek (.token rfl (.succ (.peek (.name rfl ?_)))))
    exact .takes left (.token right .pure)
  | @newArray least t n l r name size ts word cls left inner right ih =>
    obtain ⟨kind, pos, line⟩ := t
    obtain ⟨kind', pos', line'⟩ := n
    cases word
    cases cls
    refine read_of_operand fun rest _ => ?_
    simp only [List.cons_append, List.append_assoc, List.nil_append]
    refine .succ (.peek (.token rfl (.succ (.peek (.name rfl (.leaves ?_ ?_))))))
    · intro paren
      cases left.symm.trans (Option.some.inj paren)
    · exact (ih.bracketed left right).bind .pure
  | @newInts least t n l r size ts word int left inner right ih =>
    obtain ⟨kind, pos, line⟩ := t
    obtain ⟨kind', pos', line'⟩ := n
    cases word
    cases int
    refine read_of_operand fun rest _ => ?_
    simp only [List.cons_append, List.append_assoc, List.nil_append]
    refine .succ (.peek (.token rfl (.succ (.peek (.token rfl ?_)))))
    exact (ih.bracketed left right).bind .pure
  | noArgs left right => exact fun rest => .succ (.token left (.takes right .pure))
  | args left first more ihf ihm =>
    intro rest
    simp only [List.cons_append, List.append_assoc]
    refine .succ (.token left (.leaves (front_ne_of_spelled first (by decide)) ?_))
    obtain ⟨t, ws, s, rfl, known, closes⟩ := moreArgs_begin more
    exact (ihf.closed known (by rcases closes with rfl | rfl <;> simp)).bind ((ihm rest).bind .pure)
  | endArgs right =>
    intro rest
    refine .succ (.leaves ?_ (.token right .pure))
    exact fun comma => by cases right.symm.trans (Option.some.inj comma)
  | @moreArgs e es c us vs comma next more ihn ihm =>
    intro rest
    simp only [List.cons_append, List.append_assoc]
    obtain ⟨t, ws, s, rfl, known, closes⟩ := moreArgs_begin more
    refine .succ (.takes comma ?_)
    exact (ihn.closed known (by rcases closes with rfl | rfl <;> simp)).bind ((ihm rest).bind .pure)

section

variable {e : Expr} {s : Stmt} {us : List Token}

theorem succeeds_expr_closed {t : Token} {c : Symbol} (h : e.Spelled ts)
    (known : t.kind = .symbol c)
    (closes : c = .rparen ∨ c = .rbracket ∨ c = .semicolon ∨ c = .comma) :
    Succeeds (exprFrom · 1) (ts ++ t :: rest) e (t :: rest) :=
  (phraseRead h).closed known closes

theorem succeeds_initializer (h : e.SpelledValue ts) :
    Succeeds initializer (ts ++ rest) e rest := by
  obtain ⟨us, a, c, assign, h, semicolon, rfl⟩ := h
  simp only [List.cons_append, List.append_assoc, List.nil_append]
  exact .token assign ((succeeds_expr_closed h semicolon (by simp)).bind (.token semicolon .pure))

theorem succeeds_condition (h : e.SpelledCondition ts) :
    Succeeds condition (ts ++ rest) e rest := by
  obtain ⟨us, l, r, left, h, right, rfl⟩ := h
  simp only [List.cons_append, List.append_assoc, List.nil_append]
  exact .token left ((succeeds_expr_closed h right (by simp)).bind (.token right .pure))

theorem spelledValue_begins (h : e.SpelledValue ts) : front ts = some (.symbol .assign) := by
  obtain ⟨us, a, c, assign, -, -, rfl⟩ := h
  exact congrArg some assign

theorem succeeds_declaration (type : TypeExpr) (rest : List Token) {n : Token} {name : String}
    (word : n.kind = .ident name) (value : e.SpelledValue ts) :
    Succeeds (declaration · type) (n :: (ts ++ rest))
      (.declare ⟨name, type, n.pos⟩ e type.pos) rest :=
  .name word ((succeeds_initializer value).bind .pure)

theorem succeeds_elementAssignment (r : Reference) (rest : List Token) {i : Expr} {t : Token}
    (index : i.Spelled us) (right : t.kind = .symbol .rbracket) (value : e.SpelledValue ts) :
    Succeeds (elementAssignment · r) (us ++ t :: (ts ++ rest)) (.assignIndex r i e r.pos) rest :=
  (succeeds_expr_closed index right (by simp)).bind
    (.token right ((succeeds_initializer value).bind .pure))

/-- Whether a token can come after a reference that begins a statement. -/
def FollowsReference (r : Reference) (o : Option TokenKind) : Prop :=
  o = some (.symbol .assign) ∨ o = some (.symbol .lparen) ∨
    o = some (.symbol .lbracket) ∧ isQualified r = true

/-- A statement that begins with a reference. -/
theorem succeeds_stmt_of_reference {r : Reference} {rest' : List Token} (h : r.Spelled ts)
    (follows : FollowsReference r (front rest)) (next : Succeeds (referenceStmt · r) rest s rest') :
    Succeeds stmtFrom (ts ++ rest) s rest' := by
  have other : front rest ≠ some (.symbol .dot) := by
    rcases follows with at' | at' | ⟨at', -⟩ <;> rw [at'] <;> exact nofun
  have ref := succeeds_reference h other
  obtain ⟨⟨kind, pos, line⟩, us, rfl, tail, ⟨name, known, same⟩ | ⟨known, same⟩⟩ :=
    spelled_reference_begins h
  · cases known
    refine .succ (.peek (.name rfl (.peek ?_)))
    have default : ∀ o, front (us ++ rest) = some o → o = .symbol .dot ∨ o = .symbol .assign ∨
        o = .symbol .lparen := by
      intro o at'
      rcases tail with ⟨rfl, plain⟩ | ⟨dot, -⟩
      · rcases follows with at'' | at'' | ⟨-, qualified⟩
        · cases at''.symm.trans at'
          simp
        · cases at''.symm.trans at'
          simp
        · cases plain.symm.trans qualified
      · obtain ⟨pos, line, us', rfl⟩ := front_eq_some.mp dot
        cases at'
        simp
    split
    · rename_i at'
      simpa using default _ at'
    · rename_i at'
      simpa using default _ at'
    · exact .bind (.const ((same rest).trans (qualifiers_end other))) next
  · cases known
    exact .succ (.peek (ref.bind next))

/-- How a statement begins, or what comes after the last one of a body. -/
def StartsStmt (t : Token) : Prop := t.kind ≠ .symbol .rbrace ∧ t.kind ≠ .keyword .elseWord

theorem typeExpr_begins {type : TypeExpr} (h : type.Spelled ts) :
    ∃ t us, ts = t :: us ∧
      (t.kind = .keyword .intWord ∨ t.kind = .keyword .booleanWord ∨
        ∃ name, t.kind = .ident name) := by
  cases h with
  | int word => exact ⟨_, _, rfl, .inl word⟩
  | boolean word => exact ⟨_, _, rfl, .inr (.inl word)⟩
  | named word => exact ⟨_, _, rfl, .inr (.inr ⟨_, word⟩)⟩
  | ints word left right => exact ⟨_, _, rfl, .inl word⟩
  | nameds word left right => exact ⟨_, _, rfl, .inr (.inr ⟨_, word⟩)⟩

theorem startsStmt_of_spelled (h : s.Spelled ts) : ∃ t us, ts = t :: us ∧ StartsStmt t := by
  have plain {t : Token} {kind : TokenKind} (known : t.kind = kind)
      (starts : kind ≠ .symbol .rbrace ∧ kind ≠ .keyword .elseWord) (us : List Token) :
      ∃ t' us', t :: us = t' :: us' ∧ StartsStmt t' :=
    ⟨t, us, rfl, by rwa [StartsStmt, known]⟩
  have ref {r : Reference} {us : List Token} (h : r.Spelled us) (vs : List Token) :
      ∃ t' us', us ++ vs = t' :: us' ∧ StartsStmt t' := by
    obtain ⟨t, us, rfl, -, ⟨name, known, -⟩ | ⟨known, -⟩⟩ := spelled_reference_begins h
    · exact plain known ⟨nofun, nofun⟩ _
    · exact plain known ⟨nofun, nofun⟩ _
  cases h with
  | block left stmts => exact plain left ⟨nofun, nofun⟩ _
  | declare type' word value =>
    obtain ⟨t, us, rfl, known | known | ⟨name, known⟩⟩ := typeExpr_begins type'
    · exact plain known ⟨nofun, nofun⟩ _
    · exact plain known ⟨nofun, nofun⟩ _
    · exact plain known ⟨nofun, nofun⟩ _
  | assign h _ => exact ref h _
  | assignIndex h _ _ _ _ _ => exact ref h _
  | call h _ _ => exact ref h _
  | ret word _ => exact plain word ⟨nofun, nofun⟩ _
  | retValue word _ _ => exact plain word ⟨nofun, nofun⟩ _
  | ifThen word _ _ => exact plain word ⟨nofun, nofun⟩ _
  | ifElse word _ _ _ _ _ => exact plain word ⟨nofun, nofun⟩ _
  | loop word _ _ => exact plain word ⟨nofun, nofun⟩ _

theorem spelledBody_front {ss : List Stmt} (h : Stmt.SpelledBody ss ts) :
    front (ts ++ rest) ≠ some (.keyword .elseWord) := by
  cases h with
  | endStmts right =>
    intro same
    cases right.symm.trans (Option.some.inj same)
  | stmts first more =>
    obtain ⟨t, us, rfl, starts⟩ := startsStmt_of_spelled first
    exact fun same => starts.2 (Option.some.inj same)

/-- What reading comes down to on tokens that spell a part of a body. -/
def PassageRead : Passage → List Token → Prop
  | .stmt s, ts => ∀ rest, (s.Open → front rest ≠ some (.keyword .elseWord)) →
    Succeeds stmtFrom (ts ++ rest) s rest
  | .stmts ss, ts => ∀ rest, Succeeds stmtsFrom (ts ++ rest) ss rest

theorem passageRead {p : Passage} (h : p.Spelled ts) : PassageRead p ts := by
  induction h with
  | @block ss l ts left stmts ih =>
    intro rest _
    obtain ⟨kind, pos, line⟩ := l
    cases left
    exact .succ (.peek (.token rfl ((ih rest).bind .pure)))
  | @declare type n name init us vs type' word value =>
    intro rest _
    cases type' with
    | @int t word' =>
      obtain ⟨kind, pos, line⟩ := t
      cases word'
      have tail := succeeds_declaration (.base .int pos) rest word value
      refine .succ (.peek (.bind (.peek (.token rfl (.leaves ?_ .pure))) tail))
      exact fun bracket => by cases word.symm.trans (Option.some.inj bracket)
    | @boolean t word' =>
      obtain ⟨kind, pos, line⟩ := t
      cases word'
      have tail := succeeds_declaration (.base .boolean pos) rest word value
      exact .succ (.peek (.bind (.peek (.token rfl .pure)) tail))
    | @named t name' word' =>
      obtain ⟨kind, pos, line⟩ := t
      obtain ⟨kind', pos', line'⟩ := n
      cases word'
      cases word
      exact .succ (.peek (.name rfl (.peek (succeeds_declaration _ rest rfl value))))
    | @ints t l r word' left right =>
      obtain ⟨kind, pos, line⟩ := t
      cases word'
      have tail := succeeds_declaration (.array (.base .int pos) pos) rest word value
      exact .succ (.peek (.bind (.peek (.token rfl (.takes left (.token right .pure)))) tail))
    | @nameds t l r name' word' left right =>
      obtain ⟨kind, pos, line⟩ := t
      obtain ⟨kind', pos', line'⟩ := l
      cases word'
      cases left
      refine .succ (.peek (.name rfl (.peek (.token rfl (.takes right ?_)))))
      exact succeeds_declaration _ rest word value
  | @assign r value us vs ref value' =>
    intro rest _
    rw [List.append_assoc]
    obtain ⟨pos, line, ws, rfl⟩ := front_eq_some.mp (spelledValue_begins value')
    refine succeeds_stmt_of_reference ref (.inl rfl) (.peek ?_)
    exact (succeeds_initializer value').bind .pure
  | @assignIndex r index value l t us vs ws ref assignable left index' right value' =>
    intro rest _
    obtain ⟨kind, pos, line⟩ := l
    cases left
    simp only [List.cons_append, List.append_assoc]
    have tail := succeeds_elementAssignment r rest index' right value'
    cases ref with
    | this word => exact absurd assignable id
    | @ident n name word =>
      obtain ⟨kind', pos', line'⟩ := n
      cases word
      refine .succ (.peek (.name rfl (.peek (.token rfl (.leaves ?_ tail)))))
      exact front_ne_of_spelled index' (by decide)
    | qualified qualifier dot word =>
      exact succeeds_stmt_of_reference (.qualified qualifier dot word) (.inr (.inr ⟨rfl, rfl⟩))
        (.peek (.token rfl tail))
  | @call r es us vs c ref args semicolon =>
    intro rest _
    simp only [List.cons_append, List.append_assoc, List.nil_append]
    have read := phraseRead args
    obtain ⟨⟨kind, pos, line⟩, ws, rfl, left⟩ := args_begin args
    cases left
    refine succeeds_stmt_of_reference ref (.inr (.inl rfl)) (.peek ?_)
    exact (read (c :: rest)).bind (.token semicolon .pure)
  | @ret t c word semicolon =>
    intro rest _
    obtain ⟨kind, pos, line⟩ := t
    cases word
    exact .succ (.peek (.token rfl (.takes semicolon .pure)))
  | @retValue t c e ts word value semicolon =>
    intro rest _
    obtain ⟨kind, pos, line⟩ := t
    cases word
    simp only [List.cons_append, List.append_assoc, List.nil_append]
    refine .succ (.peek (.token rfl (.leaves (front_ne_of_spelled value (by decide)) ?_)))
    exact (succeeds_expr_closed value semicolon (by simp)).bind (.token semicolon .pure)
  | @ifThen t cond body us vs word cond' body' ih =>
    intro rest other
    obtain ⟨kind, pos, line⟩ := t
    cases word
    simp only [List.cons_append, List.append_assoc]
    refine .succ (.peek (.token rfl ((succeeds_condition cond').bind ?_)))
    exact (ih rest fun _ => other trivial).bind (.leaves (other trivial) .pure)
  | @ifElse t o cond body other us vs ws word cond' body' closed word' other' ih ih' =>
    intro rest follows
    obtain ⟨kind, pos, line⟩ := t
    cases word
    simp only [List.cons_append, List.append_assoc]
    refine .succ (.peek (.token rfl ((succeeds_condition cond').bind ?_)))
    exact (ih _ fun still => absurd still closed).bind
      (.takes word' ((ih' rest follows).bind .pure))
  | @loop t cond body us vs word cond' body' ih =>
    intro rest other
    obtain ⟨kind, pos, line⟩ := t
    cases word
    simp only [List.cons_append, List.append_assoc]
    exact .succ (.peek (.token rfl ((succeeds_condition cond').bind ((ih rest other).bind .pure))))
  | endStmts right => exact fun rest => .succ (.takes right .pure)
  | @stmts s ss us vs first more ih ih' =>
    intro rest
    rw [List.append_assoc]
    refine .succ (.leaves ?_ ((ih _ fun _ => spelledBody_front more).bind ((ih' rest).bind .pure)))
    obtain ⟨t, us, rfl, starts⟩ := startsStmt_of_spelled first
    exact fun same => starts.1 (Option.some.inj same)

theorem succeeds_body {ss : List Stmt} (h : Stmt.SpelledBody ss ts) :
    Succeeds stmtsFrom (ts ++ rest) ss rest :=
  passageRead h rest

end

section

variable {us vs ws : List Token}

theorem succeeds_parameter {p : ParamDecl} (h : p.Spelled ts) :
    Succeeds (fun _ => parameter) (ts ++ rest) p rest := by
  cases h with
  | @mk type n name ts type' word =>
    rw [List.append_assoc]
    refine (succeeds_typeExpr type' ?_).bind (.name word .pure)
    exact fun bracket => by cases word.symm.trans (Option.some.inj bracket)

theorem succeeds_moreParameters (rest : List Token) {ps : List ParamDecl}
    (h : ParamDecl.SpelledMore ps ts) : Succeeds moreParameters (ts ++ rest) ps rest := by
  induction h with
  | done right =>
    refine .succ (.leaves ?_ (.token right .pure))
    exact fun comma => by cases right.symm.trans (Option.some.inj comma)
  | more comma next _ ih =>
    simp only [List.cons_append, List.append_assoc]
    exact .succ (.takes comma ((succeeds_parameter next).bind (ih.bind .pure)))

theorem succeeds_parameters {ps : List ParamDecl} (h : ParamDecl.SpelledAll ps ts) :
    Succeeds parameters (ts ++ rest) ps rest := by
  cases h with
  | none left right => exact .token left (.takes right .pure)
  | @some p ps l us vs left first more =>
    simp only [List.cons_append, List.append_assoc]
    have next := succeeds_moreParameters rest more
    refine .token left (.leaves ?_ ((succeeds_parameter first).bind (next.bind .pure)))
    cases first with
    | mk type' word =>
      obtain ⟨t, us, rfl, known | known | ⟨name, known⟩⟩ := typeExpr_begins type' <;>
        exact fun same => by cases known.symm.trans (Option.some.inj same)

theorem succeeds_methodRest (isPrivate isStatic : Bool) (result : TypeExpr) (name : Identifier)
    (rest : List Token) {params : List ParamDecl} {l : Token} {body : List Stmt}
    (params' : ParamDecl.SpelledAll params us) (left : l.kind = .symbol .lbrace)
    (body' : Stmt.SpelledBody body vs) :
    Succeeds (methodRest · isPrivate isStatic result name) (us ++ l :: (vs ++ rest))
      ⟨⟨name.spelling, result, isPrivate, isStatic, params, name.pos⟩, body⟩ rest :=
  (succeeds_parameters params').bind (.token left ((succeeds_body body').bind .pure))

theorem succeeds_visibility {isPrivate : Bool} (h : SpelledVisibility isPrivate ts)
    (other : front rest ≠ some (.keyword .publicWord) ∧ front rest ≠ some (.keyword .privateWord)) :
    Succeeds (fun _ => visibility) (ts ++ rest) isPrivate rest := by
  cases h with
  | default => exact .leaves other.1 (.left other.2)
  | isPublic word => exact .takes word .pure
  | isPrivate word =>
    exact .leaves (fun same => by cases word.symm.trans (Option.some.inj same)) (.taken word)

theorem succeeds_access {isStatic : Bool} (h : SpelledAccess isStatic ts)
    (other : front rest ≠ some (.keyword .staticWord)) :
    Succeeds (fun _ => takes (.keyword .staticWord)) (ts ++ rest) isStatic rest := by
  cases h with
  | default => exact .left other
  | isStatic word => exact .taken word

/-- How the type of a result begins. -/
def StartsResult (o : Option TokenKind) : Prop :=
  o = some (.keyword .voidWord) ∨ o = some (.keyword .intWord) ∨ o = some (.keyword .booleanWord) ∨
    ∃ name, o = some (.ident name)

theorem startsResult_of_spelled {type : TypeExpr} (h : type.SpelledResult ts) :
    StartsResult (front (ts ++ rest)) := by
  cases h with
  | void word => exact .inl (congrArg some word)
  | type type' =>
    obtain ⟨t, us, rfl, known | known | ⟨name, known⟩⟩ := typeExpr_begins type'
    · exact .inr (.inl (congrArg some known))
    · exact .inr (.inr (.inl (congrArg some known)))
    · exact .inr (.inr (.inr ⟨name, congrArg some known⟩))

theorem StartsResult.not_static {o : Option TokenKind} (h : StartsResult o) :
    o ≠ some (.keyword .staticWord) := by
  rcases h with rfl | rfl | rfl | ⟨name, rfl⟩ <;> exact nofun

/-- What comes before the type of a member is read first. -/
theorem succeeds_modifiers {β : Type} {f : Nat → Bool → Bool → Reading β}
    {isPrivate isStatic : Bool} {b : β} {rest' : List Token}
    (visibility' : SpelledVisibility isPrivate us) (access : SpelledAccess isStatic vs)
    (starts : StartsResult (front rest)) (next : Succeeds (f · isPrivate isStatic) rest b rest') :
    Succeeds (fun fuel => visibility >>= fun isPrivate =>
      takes (.keyword .staticWord) >>= fun isStatic => f fuel isPrivate isStatic)
      (us ++ (vs ++ rest)) b rest' := by
  refine (succeeds_visibility visibility' ?_).bind
    ((succeeds_access access starts.not_static).bind next)
  cases access with
  | default => rcases starts with at' | at' | at' | ⟨name, at'⟩ <;> simp [at']
  | @isStatic t word =>
    change some t.kind ≠ _ ∧ some t.kind ≠ _
    simp [word]

theorem typeExpr_not_void {type : TypeExpr} (h : type.Spelled ts) :
    front (ts ++ rest) ≠ some (.keyword .voidWord) := by
  obtain ⟨t, us, rfl, known | known | ⟨name, known⟩⟩ := typeExpr_begins h <;>
    exact fun same => by cases known.symm.trans (Option.some.inj same)

theorem parameters_begin {ps : List ParamDecl} (h : ParamDecl.SpelledAll ps ts) :
    ∃ l us, ts = l :: us ∧ l.kind = .symbol .lparen := by
  cases h with
  | none left right => exact ⟨_, _, rfl, left⟩
  | some left first more => exact ⟨_, _, rfl, left⟩

theorem succeeds_member {m : Member} (h : Member.Spelled m ts) :
    Succeeds member (ts ++ rest) m rest := by
  cases h with
  | @field isPrivate isStatic type n c name us vs ws visibility' access type' word semicolon =>
    have starts : StartsResult (front (ws ++ n :: c :: rest)) :=
      startsResult_of_spelled (.type type')
    simp only [List.append_assoc, List.cons_append, List.nil_append]
    refine succeeds_modifiers visibility' access starts (.peek ?_)
    simp only [if_neg (typeExpr_not_void type')]
    refine (succeeds_typeExpr type' ?_).bind (.name word (.takes semicolon .pure))
    exact fun bracket => by cases word.symm.trans (Option.some.inj bracket)
  | @method isPrivate isStatic result n l name params body us vs ws xs ys visibility' access result'
      word params' left body' =>
    have starts : StartsResult (front (ws ++ n :: (xs ++ l :: (ys ++ rest)))) :=
      startsResult_of_spelled result'
    have tail (result : TypeExpr) := succeeds_methodRest isPrivate isStatic result ⟨name, n.pos⟩
      rest params' left body'
    simp only [List.append_assoc, List.cons_append]
    refine succeeds_modifiers visibility' access starts (.peek ?_)
    cases result' with
    | @void t word' =>
      simp only [List.cons_append, List.nil_append]
      have isVoid : front (t :: n :: (xs ++ l :: (ys ++ rest))) = some (.keyword .voidWord) :=
        congrArg some word'
      simp only [if_pos isVoid]
      exact .token word' (.name word ((tail _).bind .pure))
    | type type' =>
      simp only [if_neg (typeExpr_not_void type')]
      refine (succeeds_typeExpr type' ?_).bind (.name word (.leaves ?_ ((tail _).bind .pure)))
      · exact fun bracket => by cases word.symm.trans (Option.some.inj bracket)
      · obtain ⟨p, us, rfl, paren⟩ := parameters_begin params'
        exact fun semicolon => by cases paren.symm.trans (Option.some.inj semicolon)

theorem member_begins {m : Member} (h : Member.Spelled m ts) :
    front (ts ++ rest) ≠ some (.symbol .rbrace) := by
  have begins {isPrivate isStatic : Bool} {type : TypeExpr} {us vs ws : List Token}
      (visibility' : SpelledVisibility isPrivate us) (access : SpelledAccess isStatic vs)
      (result' : type.SpelledResult ws) (rest : List Token) :
      front (us ++ (vs ++ (ws ++ rest))) ≠ some (.symbol .rbrace) := by
    cases visibility' with
    | isPublic word | isPrivate word =>
      exact fun same => by cases word.symm.trans (Option.some.inj same)
    | default =>
      cases access with
      | isStatic word => exact fun same => by cases word.symm.trans (Option.some.inj same)
      | default =>
        have starts : StartsResult (front (ws ++ rest)) := startsResult_of_spelled result'
        simp only [List.nil_append]
        rcases starts with at' | at' | at' | ⟨name, at'⟩ <;> rw [at'] <;> exact nofun
  cases h with
  | field visibility' access type' word semicolon =>
    simpa only [List.append_assoc] using begins visibility' access (.type type') _
  | method visibility' access result' word params' left body' =>
    simpa only [List.append_assoc] using begins visibility' access result' _

theorem succeeds_members {ms : List Member} (h : Member.SpelledAll ms ts) :
    Succeeds members (ts ++ rest) ms rest := by
  induction h with
  | done right => exact .succ (.takes right .pure)
  | more first _ ih =>
    rw [List.append_assoc]
    exact .succ (.leaves (member_begins first) ((succeeds_member first).bind (ih.bind .pure)))

theorem succeeds_classDecl {c : ClassDecl} (h : c.Spelled ts) :
    Succeeds classDecl (ts ++ rest) c rest := by
  cases h with
  | mk word cls left members =>
    exact .token word (.name cls (.token left ((succeeds_members members).bind .pure)))

theorem succeeds_classes {cs : List ClassDecl} (h : ClassDecl.SpelledAll cs ts) :
    Succeeds classes ts cs [] := by
  induction h with
  | done => exact .succ (.peek .pure)
  | @more c cs us vs first _ ih =>
    refine .succ (.peek ?_)
    have going : front (us ++ vs) ≠ none := by
      cases first
      exact nofun
    simp only [if_neg going]
    exact (succeeds_classDecl first).bind (ih.bind .pure)

end

/-- Tokens are read as what they spell. -/
theorem run_classes_iff {ts : List Token} {cs : List ClassDecl} :
    EStateM.run (classes (Program.fuelFor ts)) ts = .ok cs [] ↔ ClassDecl.SpelledAll cs ts := by
  constructor
  · intro run
    obtain ⟨used, split, spelled, -⟩ := (reads_classes (front ts) _).sound rfl run
    rwa [split, List.append_nil]
  · intro spelled
    obtain ⟨enough, run⟩ := succeeds_classes spelled
    have deep := run (enough + Program.fuelFor ts) (by omega)
    have follows := follows_fuelFor ts (enough + Program.fuelFor ts) (by omega)
    cases here : EStateM.run (classes (Program.fuelFor ts)) ts with
    | ok cs' rest =>
      obtain ⟨used, rfl, -, same⟩ := follows.ok (Nat.le_refl _) here
      cases (same rest rfl).symm.trans deep
      rfl
    | error u rest =>
      obtain ⟨used, rfl, same⟩ := follows.stuck (Nat.le_refl _) here
      cases (same rest rfl).symm.trans deep

/-- Reading classes comes to its end only with the tokens. -/
theorem run_classes_ok {ts rest : List Token} {cs : List ClassDecl}
    (run : EStateM.run (classes (Program.fuelFor ts)) ts = .ok cs rest) :
    rest = [] ∧ ClassDecl.SpelledAll cs ts := by
  obtain ⟨used, split, spelled, ended⟩ := (reads_classes (front ts) _).sound rfl run
  cases rest with
  | nil => exact ⟨rfl, by rwa [split, List.append_nil]⟩
  | cons t rest => cases ended

/-- Where reading is stuck: what was taken begins some program, and what was taken with a next token
of the kind of the one left begins none. -/
theorem run_classes_error {ts rest : List Token}
    (run : EStateM.run (classes (Program.fuelFor ts)) ts = .error () rest) :
    ∃ used, ts = used ++ rest ∧ (∃ w cs, ClassDecl.SpelledAll cs (used ++ w)) ∧
      ∀ w cs, front w = front rest → ¬ ClassDecl.SpelledAll cs (used ++ w) := by
  obtain ⟨used, split, w, cs, spelled, -⟩ := (reads_classes (front ts) _).viable rfl run
  refine ⟨used, split, ⟨w, cs, spelled⟩, fun w' cs' at' spelled' => ?_⟩
  obtain ⟨enough, run'⟩ := succeeds_classes spelled'
  have deep := run' (enough + Program.fuelFor ts) (by omega)
  have follows := follows_fuelFor ts (enough + Program.fuelFor ts) (by omega)
  obtain ⟨used', split', same⟩ := follows.stuck (Nat.le_refl _) run
  obtain rfl := List.append_cancel_right (split.symm.trans split')
  cases (same w' at').symm.trans deep

/-- No tokens spell two lists of classes. -/
theorem spelledAll_unique {ts : List Token} {cs cs' : List ClassDecl}
    (h : ClassDecl.SpelledAll cs ts) (h' : ClassDecl.SpelledAll cs' ts) : cs = cs' := by
  have := (run_classes_iff.mpr h).symm.trans (run_classes_iff.mpr h')
  cases this
  rfl

end Reading

end JamCompiler
