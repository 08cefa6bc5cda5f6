import JamCompiler.Proofs.Reading.Written
import JamCompiler.Proofs.Reading.Spelling

/-!
# What reading steps read

A reading step that comes to its end has taken tokens that spell its answer. One that is stuck has
taken tokens that can be completed, by others than those left, to tokens that spell some answer.
`Reads` says both of a step, with one rule for each way in which steps are put together; the
mutually recursive steps go by induction on the depth that is left.
-/

namespace JamCompiler

namespace Reading

variable {α β : Type}

/-- The kind of the first token. -/
def front (ts : List Token) : Option TokenKind := ts.head?.map Token.kind

/-- What a step makes of tokens with a front: `W` holds of its answer, the tokens taken and the
front of the tokens left; and if it is stuck, the tokens taken can be completed to such tokens. -/
structure Reads (o : Option TokenKind) (x : Reading α)
    (W : α → List Token → Option TokenKind → Prop) : Prop where
  sound : ∀ {ts a rest}, front ts = o → EStateM.run x ts = .ok a rest →
    ∃ used, ts = used ++ rest ∧ W a used (front rest)
  viable : ∀ {ts rest}, front ts = o → EStateM.run x ts = .error () rest →
    ∃ used, ts = used ++ rest ∧ ∃ w a, W a (used ++ w) none

theorem run_expect (kind : TokenKind) (t : Token) (ts : List Token) :
    EStateM.run (expect kind) (t :: ts) =
      if t.kind = kind then .ok t.pos ts else .error () (t :: ts) := by
  by_cases known : t.kind = kind
  · rw [if_pos known]
    simp only [expect, EStateM.run_bind, EStateM.run_get, known, if_true]
    rfl
  · rw [if_neg known]
    simp only [expect, EStateM.run_bind, EStateM.run_get, known, if_false]
    rfl

namespace Reads

variable {o : Option TokenKind} {x : Reading α} {f : α → Reading β}
variable {L W' : α → List Token → Option TokenKind → Prop}
variable {W : β → List Token → Option TokenKind → Prop}

/-- Some tokens make the step come to its end. -/
theorem inhabited (h : Reads none x L) : ∃ w a, L a w none := by
  cases run : EStateM.run x [] with
  | ok a rest =>
    obtain ⟨used, split, holds⟩ := h.sound rfl run
    obtain ⟨rfl, rfl⟩ := List.nil_eq_append_iff.mp split
    exact ⟨[], a, holds⟩
  | error u rest =>
    obtain ⟨used, split, w, a, holds⟩ := h.viable rfl run
    exact ⟨_, a, holds⟩

theorem pure {a : α} (h : L a [] o) : Reads o (Pure.pure a) L where
  sound := by
    intro ts a rest at' run
    cases run
    exact ⟨[], rfl, at' ▸ h⟩
  viable := by
    intro ts rest _ run
    cases run

theorem stuck (h : ∃ w a, L a w none) : Reads o Reading.stuck L where
  sound := by
    intro ts a rest _ run
    cases run
  viable := by
    intro ts rest _ run
    cases run
    exact ⟨[], rfl, h⟩

theorem bind (first : Reads o x L)
    (next : ∀ a u o', L a u o' → Reads o' (f a) fun b v => W b (u ++ v)) : Reads o (x >>= f) W where
  sound := by
    intro ts b rest at' run
    rw [EStateM.run_bind] at run
    split at run
    · rename_i a middle run'
      obtain ⟨used, rfl, holds⟩ := first.sound at' run'
      obtain ⟨used', rfl, holds'⟩ := (next a used _ holds).sound rfl run
      exact ⟨used ++ used', (List.append_assoc ..).symm, holds'⟩
    · cases run
  viable := by
    intro ts rest at' run
    rw [EStateM.run_bind] at run
    split at run
    · rename_i a middle run'
      obtain ⟨used, rfl, holds⟩ := first.sound at' run'
      obtain ⟨used', rfl, w, b, holds'⟩ := (next a used _ holds).viable rfl run
      exact ⟨used ++ used', (List.append_assoc ..).symm, w, b, by rwa [List.append_assoc]⟩
    · -- what completes the first step is followed by anything that the next step reads
      rename_i u middle run'
      cases run
      obtain ⟨used, rfl, w, a, holds⟩ := first.viable at' run'
      obtain ⟨w', b, holds'⟩ := (next a (used ++ w) none holds).inhabited
      exact ⟨used, rfl, w ++ w', b, by rwa [← List.append_assoc]⟩

theorem imp (h : Reads o x L) (imp : ∀ a u o', L a u o' → W' a u o') : Reads o x W' where
  sound := fun at' run =>
    have ⟨used, split, holds⟩ := h.sound at' run
    ⟨used, split, imp _ _ _ holds⟩
  viable := fun at' run =>
    have ⟨used, split, w, a, holds⟩ := h.viable at' run
    ⟨used, split, w, a, imp _ _ _ holds⟩

/-- A step that looks at the next token. -/
theorem peek {f : Option TokenKind → Reading β} (h : Reads o (f o) W) :
    Reads o (Reading.peek >>= f) W where
  sound := by
    intro ts b rest at' run
    have same : EStateM.run (Reading.peek >>= f) ts = EStateM.run (f (front ts)) ts := rfl
    rw [same, at'] at run
    exact h.sound at' run
  viable := by
    intro ts rest at' run
    have same : EStateM.run (Reading.peek >>= f) ts = EStateM.run (f (front ts)) ts := rfl
    rw [same, at'] at run
    exact h.viable at' run

theorem expect (o : Option TokenKind) (kind : TokenKind) :
    Reads o
    (Reading.expect kind) fun pos u _ => ∃ t : Token, t.kind = kind ∧ t.pos = pos ∧ u = [t] where
  sound := by
    intro ts pos rest _ run
    cases ts with
    | nil => cases run
    | cons t ts =>
      rw [run_expect] at run
      split at run
      · rename_i known
        cases run
        exact ⟨[t], rfl, t, known, rfl, rfl⟩
      · cases run
  viable := by
    intro ts rest _ run
    have kept : rest = ts := by
      cases ts with
      | nil =>
        cases run
        rfl
      | cons t ts =>
        rw [run_expect] at run
        split at run
        · cases run
        · cases run
          rfl
    exact ⟨[], kept.symm, [⟨kind, 0, 0⟩], 0, _, rfl, rfl, rfl⟩

/-- A token of a kind, and what follows it. -/
theorem token {kind : TokenKind} {f : Nat → Reading β}
    (next : ∀ t o', t.kind = kind → Reads o' (f t.pos) fun b v => W b (t :: v)) :
    Reads o (Reading.expect kind >>= f) W := by
  refine (expect o kind).bind ?_
  rintro pos u o' ⟨t, known, rfl, rfl⟩
  exact next t o' known

/-- A name, and what follows it. -/
theorem name {f : Identifier → Reading β}
    (next : ∀ t name o', t.kind = .ident name →
      Reads o' (f ⟨name, t.pos⟩) fun b v => W b (t :: v)) :
    Reads o (identifier >>= f) W := by
  refine bind (L := fun id u _ =>
    ∃ t : Token, t.kind = .ident id.spelling ∧ t.pos = id.pos ∧ u = [t])
    ⟨?_, ?_⟩ ?_
  · intro ts id rest _ run
    simp only [identifier, EStateM.run_bind, EStateM.run_get] at run
    split at run
    · rename_i spelling pos line rest' same
      cases run
      exact ⟨[⟨.ident spelling, pos, line⟩], rfl, _, rfl, rfl, rfl⟩
    · cases run
  · intro ts rest _ run
    have kept : rest = ts := by
      simp only [identifier, EStateM.run_bind, EStateM.run_get] at run
      split at run
      · cases run
      · cases run
        rfl
    exact ⟨[], kept.symm, [⟨.ident "a", 0, 0⟩], ⟨"a", 0⟩, _, rfl, rfl, rfl⟩
  · rintro ⟨spelling, pos⟩ u o' ⟨t, known, rfl, rfl⟩
    exact next t spelling o' known

/-- A token that is taken if it is there, and what follows. -/
theorem takes {kind : TokenKind} {f : Bool → Reading β}
    (taken : ∀ t o', t.kind = kind → o = some kind → Reads o' (f true) fun b v => W b (t :: v))
    (left : o ≠ some kind → Reads o (f false) W) : Reads o (Reading.takes kind >>= f) W := by
  unfold Reading.takes
  rw [bind_assoc]
  refine peek ?_
  split
  · rename_i same
    rw [bind_assoc]
    exact token fun t o' known => taken t o' known same
  · rename_i other
    exact left other

end Reads

variable {o : Option TokenKind}

theorem reads_primitiveType :
    Reads o primitiveType fun t u _ => t.Spelled u := by
  refine .peek ?_
  split
  · exact .token fun t o' word => .pure (.boolean word)
  · refine .token fun t o' word => .takes (fun l o' left _ => ?_) fun _ => .pure (.int word)
    exact .token fun r o' right => .pure (.ints word left right)

theorem reads_typeExpr : Reads o typeExpr fun t u _ => t.Spelled u := by
  refine .peek ?_
  split
  · refine .name fun t name o' word => .takes (fun l o' left _ => ?_) fun _ => .pure (.named word)
    exact .token fun r o' right => .pure (.nameds word left right)
  · exact reads_primitiveType

theorem reads_qualifiers {r : Reference} {us : List Token} (h : r.Spelled us) :
    Reads o (qualifiers r) fun q v _ => q.Spelled (us ++ v) := by
  refine ⟨fun {ts q rest} at' run => ?_, fun {ts rest} at' run => ?_⟩ <;> clear at'
  · change qualifiers r ts = _ at run
    fun_induction qualifiers r ts generalizing us with
    | case1 r dp dl name pos line ts ih =>
      obtain ⟨used, rfl, spelled⟩ := ih (h.qualified (d := ⟨.symbol .dot, dp, dl⟩)
        (t := ⟨.ident name, pos, line⟩) rfl rfl) run
      exact ⟨_ :: _ :: used, rfl, by simpa using spelled⟩
    | case2 => cases run
    | case3 =>
      cases run
      exact ⟨[], rfl, by simpa using h⟩
  · change qualifiers r ts = _ at run
    fun_induction qualifiers r ts generalizing us with
    | case1 r dp dl name pos line ts ih =>
      obtain ⟨used, rfl, w, q, spelled⟩ := ih (h.qualified (d := ⟨.symbol .dot, dp, dl⟩)
        (t := ⟨.ident name, pos, line⟩) rfl rfl) run
      exact ⟨_ :: _ :: used, rfl, w, q, by simpa using spelled⟩
    | case2 r dp dl ts =>
      cases run
      exact ⟨[⟨.symbol .dot, dp, dl⟩], rfl, [⟨.ident "a", 0, 0⟩], _, h.qualified rfl rfl⟩
    | case3 => cases run

theorem reads_reference : Reads o reference fun r u _ => r.Spelled u := by
  refine .peek ?_
  split
  · exact .name fun t name o' word => reads_qualifiers (.ident word)
  · exact .token fun t o' word => reads_qualifiers (.this word)

/-- Whether a token goes on with an expression whose operators bind at least as tightly as asked. -/
def Continues (least : Nat) (o : Option TokenKind) : Prop :=
  ∃ s op, o = some (.symbol s) ∧ binaryOp? s = some op ∧ least ≤ op.precedence

theorem not_continues_none (least : Nat) : ¬ Continues least none := by
  rintro ⟨s, op, ⟨⟩, -⟩

theorem Reads.nextOp {β : Type} {least : Nat} {f : Option (Symbol × BinaryOp) → Reading β}
    {W : β → List Token → Option TokenKind → Prop}
    (found : ∀ s op, o = some (.symbol s) → binaryOp? s = some op → least ≤ op.precedence →
      Reads o (f (some (s, op))) W)
    (none : ¬ Continues least o → Reads o (f none) W) : Reads o (Reading.nextOp least >>= f) W := by
  unfold Reading.nextOp
  rw [bind_assoc]
  refine .peek ?_
  split
  · rename_i s
    split
    · rename_i op known
      split
      · rename_i level
        exact found s op rfl known level
      · rename_i level
        refine none ?_
        rintro ⟨s', op', same, known', level'⟩
        cases same
        cases known.symm.trans known'
        exact level level'
    · rename_i unknown
      refine none ?_
      rintro ⟨s', op', same, known', -⟩
      cases same
      cases unknown.symm.trans known'
  · rename_i other
    refine none ?_
    rintro ⟨s', op', same, -, -⟩
    exact other s' same

/-- An expression that is spelled at a level is so at every lower level. -/
theorem spelled_lower {level least : Nat} {e : Expr} {ts : List Token}
    (h : (Phrase.expr level e).Spelled ts) (le : least ≤ level) :
    (Phrase.expr least e).Spelled ts := by
  cases h with
  | int word => exact .int word
  | true word => exact .true word
  | false word => exact .false word
  | null word => exact .null word
  | neg op operand => exact .neg op operand
  | not op operand => exact .not op operand
  | binary word known level left right =>
    exact .binary word known (Nat.le_trans le level) left right
  | paren left inner right => exact .paren left inner right
  | ref ref => exact .ref ref
  | index ref left index right => exact .index ref left index right
  | call ref args => exact .call ref args
  | newObject word cls left right => exact .newObject word cls left right
  | newArray word cls left inner right => exact .newArray word cls left inner right
  | newInts word int left inner right => exact .newInts word int left inner right

theorem precedence_lt {s : Symbol} {op : BinaryOp} (h : binaryOp? s = some op) :
    0 < op.precedence ∧ op.precedence < operandLevel := by
  cases s <;> cases h <;> decide

theorem not_continues_operand {least : Nat} (h : operandLevel ≤ least) (o : Option TokenKind) :
    ¬ Continues least o := by
  rintro ⟨s, op, -, known, level⟩
  have := precedence_lt known
  omega

/-- An expression between brackets. -/
def SpelledBracketed (e : Expr) (ts : List Token) : Prop :=
  ∃ us, ∃ l r : Token, l.kind = .symbol .lbracket ∧ e.Spelled us ∧ r.kind = .symbol .rbracket ∧
    ts = l :: (us ++ [r])

/-- What the steps for expressions read at some depth. -/
structure ExprsRead (fuel : Nat) : Prop where
  exprFrom : ∀ o least, Reads o (exprFrom fuel least) fun e u o' =>
    (Phrase.expr least e).Spelled u ∧ ¬ Continues least o'
  operators : ∀ o least level left us, (Phrase.expr level left).Spelled us → least ≤ level →
    ¬ Continues (level + 1) o → Reads o (operators fuel least left) fun e v o' =>
      (Phrase.expr least e).Spelled (us ++ v) ∧ ¬ Continues least o'
  operand : ∀ o, Reads o (operand fuel) fun e u _ => ∀ level, (Phrase.expr level e).Spelled u
  referenceOperand : ∀ o r us, r.Spelled us → Reads o (referenceOperand fuel r) fun e v _ =>
    ∀ level, (Phrase.expr level e).Spelled (us ++ v)
  creation : ∀ o (t : Token), t.kind = .keyword .newWord →
    Reads o (creation fuel t.pos) fun e v _ => ∀ level, (Phrase.expr level e).Spelled (t :: v)
  bracketed : ∀ o, Reads o (bracketed fuel) fun e u _ => SpelledBracketed e u
  arguments : ∀ o, Reads o (arguments fuel) fun es u _ => (Phrase.args es).Spelled u
  moreArguments : ∀ o, Reads o (moreArguments fuel) fun es u _ => (Phrase.moreArgs es).Spelled u

/-- Some expression can be spelled at every level. -/
theorem exists_spelled : ∃ w e, ∀ level, (Phrase.expr level e).Spelled w :=
  ⟨[⟨.keyword .nullWord, 0, 0⟩], _, fun _ => .null rfl⟩

theorem exprsRead_zero : ExprsRead 0 := by
  obtain ⟨w, e, h⟩ := exists_spelled
  constructor
  case exprFrom => exact fun _ least => .stuck ⟨w, e, h least, not_continues_none _⟩
  case operators =>
    exact fun _ _ _ left us h le _ =>
      .stuck ⟨[], left, by simpa using spelled_lower h le, not_continues_none _⟩
  case operand => exact fun _ => .stuck ⟨w, e, h⟩
  case referenceOperand => exact fun _ r us h => .stuck ⟨[], _, fun _ => by simpa using .ref h⟩
  case creation =>
    exact fun _ t word => .stuck ⟨[⟨.ident "a", 0, 0⟩, ⟨.symbol .lparen, 0, 0⟩,
      ⟨.symbol .rparen, 0, 0⟩], _, fun _ => .newObject word rfl rfl rfl⟩
  case bracketed =>
    exact fun _ =>
      .stuck ⟨⟨.symbol .lbracket, 0, 0⟩ :: (w ++ [⟨.symbol .rbracket, 0, 0⟩]), e, w, _, _,
      rfl, h 1, rfl, rfl⟩
  case arguments =>
    exact fun _ => .stuck ⟨[⟨.symbol .lparen, 0, 0⟩, ⟨.symbol .rparen, 0, 0⟩], _, .noArgs rfl rfl⟩
  case moreArguments => exact fun _ => .stuck ⟨[⟨.symbol .rparen, 0, 0⟩], _, .endArgs rfl⟩

theorem exprsRead (fuel : Nat) : ExprsRead fuel := by
  induction fuel with
  | zero => exact exprsRead_zero
  | succ fuel ih =>
    constructor
    case exprFrom =>
      intro o least
      refine (ih.operand o).bind fun first u o' h => ?_
      exact ih.operators o' least (least + operandLevel) first u (h _) (by omega)
        (not_continues_operand (by omega) o')
    case operators =>
      intro o least level left us h le stops
      refine .nextOp (fun s op front known least_le => ?_) fun stops' => ?_
      · -- the operator binds no tighter than what was read so far, which is its left operand
        have op_le : op.precedence ≤ level :=
          Nat.le_of_not_lt fun tighter => stops ⟨s, op, front, known, tighter⟩
        refine .token fun t o' word => (ih.exprFrom o' _).bind fun right v o'' ⟨h', stops'⟩ => ?_
        have whole := Phrase.Spelled.binary word known (Nat.le_refl _) (spelled_lower h op_le) h'
        refine (ih.operators o'' least op.precedence _ _ whole least_le stops').imp ?_
        intro e w o₃ spelled
        simpa using spelled
      · exact .pure ⟨by simpa using spelled_lower h le, stops'⟩
    case operand =>
      intro o
      refine .peek ?_
      split
      · exact .token fun t o' word => .pure fun _ => .int word
      · exact .token fun t o' word => .pure fun _ => .true word
      · exact .token fun t o' word => .pure fun _ => .false word
      · exact .token fun t o' word => .pure fun _ => .null word
      · refine .token fun t o' word => (ih.operand o').bind fun e u o'' h => ?_
        exact .pure fun _ => by simpa using .neg word (h _)
      · refine .token fun t o' word => (ih.operand o').bind fun e u o'' h => ?_
        exact .pure fun _ => by simpa using .not word (h _)
      · refine .token fun l o' left => (ih.exprFrom o' 1).bind fun e u o'' ⟨h, _⟩ => ?_
        exact .token fun r _ right => .pure fun _ => .paren left h right
      · exact .token fun t o' word => ih.creation o' t word
      · exact reads_reference.bind fun r u o' h => ih.referenceOperand o' r u h
    case referenceOperand =>
      intro o r us h
      refine .peek ?_
      split
      · refine .token fun l o' left => (ih.exprFrom o' 1).bind fun i u o'' ⟨h', _⟩ => ?_
        exact .token fun t _ right => .pure fun _ => by simpa using .index h left h' right
      · exact (ih.arguments _).bind fun es u o' h' => .pure fun _ => by simpa using .call h h'
      · exact .pure fun _ => by simpa using .ref h
    case creation =>
      intro o t word
      refine .peek ?_
      split
      · refine .name fun n name o' cls => .takes (fun l o'' left _ => ?_) fun _ => ?_
        · exact .token fun r _ right => .pure fun _ => .newObject word cls left right
        · refine (ih.bracketed o').bind ?_
          rintro size u o'' ⟨ts, l, r, left, inner, right, rfl⟩
          exact .pure fun _ => by simpa using .newArray word cls left inner right
      · refine .token fun n o' int => (ih.bracketed o').bind ?_
        rintro size u o'' ⟨ts, l, r, left, inner, right, rfl⟩
        exact .pure fun _ => by simpa using .newInts word int left inner right
    case bracketed =>
      intro o
      refine .token fun l o' left => (ih.exprFrom o' 1).bind fun e u o'' ⟨h, _⟩ => ?_
      exact .token fun r _ right => .pure ⟨u, l, r, left, h, right, rfl⟩
    case arguments =>
      intro o
      refine .token fun l o' left =>
        .takes (fun r o'' right _ => .pure (.noArgs left right)) fun _ => ?_
      refine (ih.exprFrom o' 1).bind fun e u o'' ⟨h, _⟩ => ?_
      exact (ih.moreArguments o'').bind fun es v _ h' => .pure (by simpa using .args left h h')
    case moreArguments =>
      intro o
      refine .takes (fun c o' comma _ => ?_) fun _ => .token fun r _ right => .pure (.endArgs right)
      refine (ih.exprFrom o' 1).bind fun e u o'' ⟨h, _⟩ => ?_
      exact (ih.moreArguments o'').bind fun es v _ h' => .pure (by simpa using .moreArgs comma h h')

theorem reads_initializer (o : Option TokenKind) (fuel : Nat) :
    Reads o (initializer fuel) fun e u _ => e.SpelledValue u := by
  refine .token fun a o' assign => ((exprsRead fuel).exprFrom o' 1).bind fun e u o'' ⟨h, _⟩ => ?_
  exact .token fun c _ semicolon => .pure ⟨u, a, c, assign, h, semicolon, rfl⟩

theorem reads_condition (o : Option TokenKind) (fuel : Nat) :
    Reads o (condition fuel) fun e u _ => e.SpelledCondition u := by
  refine .token fun l o' left => ((exprsRead fuel).exprFrom o' 1).bind fun e u o'' ⟨h, _⟩ => ?_
  exact .token fun r _ right => .pure ⟨u, l, r, left, h, right, rfl⟩

/-- What is read as a statement in front of a token: if the statement is open, the token is no
`else`, since it would belong to the statement. -/
def StmtRead (us : List Token) (s : Stmt) (v : List Token) (o : Option TokenKind) : Prop :=
  s.Spelled (us ++ v) ∧ (s.Open → o ≠ some (.keyword .elseWord))

theorem reads_declaration {type : TypeExpr} {us : List Token} (h : type.Spelled us)
    (o : Option TokenKind) (fuel : Nat) : Reads o (declaration fuel type) (StmtRead us) := by
  refine .name fun n name o' word => (reads_initializer o' fuel).bind fun init u o'' h' => ?_
  exact .pure ⟨by simpa using .declare h word h', nofun⟩

theorem reads_elementAssignment {r : Reference} {us : List Token} {l : Token} (h : r.Spelled us)
    (assignable : r.Assignable) (left : l.kind = .symbol .lbracket) (o : Option TokenKind)
    (fuel : Nat) : Reads o (elementAssignment fuel r) fun s v => StmtRead us s (l :: v) := by
  refine ((exprsRead fuel).exprFrom o 1).bind fun index u o' ⟨h', _⟩ => ?_
  refine .token fun t o'' right => (reads_initializer o'' fuel).bind fun value v o₃ h'' => ?_
  exact .pure ⟨by simpa using .assignIndex h assignable left h' right h'', nofun⟩

theorem assignable_of_isQualified {r : Reference} (h : isQualified r = true) : r.Assignable := by
  cases r with
  | qualified r id pos => trivial
  | this pos => cases h
  | ident id pos => cases h
  | unknown => cases h

theorem reads_referenceStmt {r : Reference} {us : List Token} (h : r.Spelled us)
    (o : Option TokenKind) (fuel : Nat) : Reads o (referenceStmt fuel r) (StmtRead us) := by
  refine .peek ?_
  split
  · refine ((exprsRead fuel).arguments _).bind fun es u o' h' => .token fun c _ semicolon => ?_
    exact .pure ⟨by simpa using .call h h' semicolon, nofun⟩
  · split
    · rename_i qualified
      exact .token fun l o' left =>
        reads_elementAssignment h (assignable_of_isQualified qualified) left o' fuel
    · exact .stuck ⟨_, _, .call h (.noArgs (l := ⟨.symbol .lparen, 0, 0⟩)
        (r := ⟨.symbol .rparen, 0, 0⟩) rfl rfl) (c := ⟨.symbol .semicolon, 0, 0⟩) rfl, nofun⟩
  · exact (reads_initializer _ fuel).bind fun value u o' h' =>
      .pure ⟨by simpa using .assign h h', nofun⟩

theorem reads_namedStmt {n : Token} {name : String} (word : n.kind = .ident name)
    (o : Option TokenKind) (fuel : Nat) :
    Reads o (namedStmt fuel ⟨name, n.pos⟩) (StmtRead [n]) := by
  refine .peek ?_
  split
  · exact reads_declaration (.named word) _ fuel
  · refine .token fun l o' left => .takes (fun r o'' right _ => ?_) fun _ => ?_
    · exact reads_declaration (.nameds word left right) o'' fuel
    · exact reads_elementAssignment (.ident word) trivial left o' fuel
  · refine (reads_qualifiers (.ident word)).bind fun r u o' h => ?_
    refine (reads_referenceStmt h o' fuel).imp fun s v o'' read => ?_
    simpa [StmtRead] using read

theorem reads_returnStmt {t : Token} (word : t.kind = .keyword .returnWord) (o : Option TokenKind)
    (fuel : Nat) : Reads o (returnStmt fuel t.pos) (StmtRead [t]) := by
  refine .takes (fun c o' semicolon _ => .pure ⟨.ret word semicolon, nofun⟩) fun _ => ?_
  refine ((exprsRead fuel).exprFrom o 1).bind fun e u o' ⟨h, _⟩ => .token fun c _ semicolon => ?_
  exact .pure ⟨by simpa using .retValue word h semicolon, nofun⟩

/-- What the steps for statements read at some depth. -/
structure StmtsRead (fuel : Nat) : Prop where
  stmtFrom : ∀ o, Reads o (stmtFrom fuel) (StmtRead [])
  stmtsFrom : ∀ o, Reads o (stmtsFrom fuel) fun ss u _ => Stmt.SpelledBody ss u

theorem exists_stmtRead : ∃ w s, StmtRead [] s w none :=
  ⟨[⟨.keyword .returnWord, 0, 0⟩, ⟨.symbol .semicolon, 0, 0⟩], _, .ret rfl rfl, nofun⟩

theorem stmtsRead (fuel : Nat) : StmtsRead fuel := by
  induction fuel with
  | zero => exact ⟨fun _ => .stuck exists_stmtRead,
      fun _ => .stuck ⟨[⟨.symbol .rbrace, 0, 0⟩], [], .endStmts rfl⟩⟩
  | succ fuel ih =>
    constructor
    case stmtFrom =>
      intro o
      refine .peek ?_
      split
      · refine .token fun l o' left => (ih.stmtsFrom o').bind fun ss u o'' h => ?_
        exact .pure ⟨by simpa using .block left h, nofun⟩
      · exact reads_primitiveType.bind fun type u o' h => reads_declaration h o' fuel
      · exact reads_primitiveType.bind fun type u o' h => reads_declaration h o' fuel
      · exact .name fun n name o' word => reads_namedStmt word o' fuel
      · exact reads_reference.bind fun r u o' h => reads_referenceStmt h o' fuel
      · exact .token fun t o' word => reads_returnStmt word o' fuel
      · refine .token fun t o' word => (reads_condition o' fuel).bind fun cond u o'' h => ?_
        refine (ih.stmtFrom o'').bind fun body v o₃ ⟨h', open'⟩ => ?_
        refine .takes (fun t' o₄ word' at' => ?_) fun other => ?_
        · -- a first branch that is open would have taken the `else`
          refine (ih.stmtFrom o₄).bind fun other w o₅ ⟨h'', open''⟩ => .pure ⟨?_, open''⟩
          simpa using .ifElse word h h' (fun still => open' still at') word' h''
        · exact .pure ⟨by simpa using .ifThen word h h', fun _ => other⟩
      · refine .token fun t o' word => (reads_condition o' fuel).bind fun cond u o'' h => ?_
        refine (ih.stmtFrom o'').bind fun body v o₃ ⟨h', open'⟩ => .pure ⟨?_, open'⟩
        simpa using .loop word h h'
      · exact .stuck exists_stmtRead
    case stmtsFrom =>
      intro o
      refine .takes (fun r o' right _ => .pure (.endStmts right)) fun _ => ?_
      refine (ih.stmtFrom o).bind fun s u o' ⟨h, _⟩ => (ih.stmtsFrom o').bind fun ss v _ h' => ?_
      exact .pure (by simpa using .stmts h h')

theorem reads_parameter (o : Option TokenKind) :
    Reads o parameter fun p u _ => p.Spelled u := by
  refine reads_typeExpr.bind fun type u o' h => .name fun n name _ word => ?_
  exact .pure (.mk h word)

theorem reads_moreParameters (o : Option TokenKind) (fuel : Nat) :
    Reads o (moreParameters fuel) fun ps u _ => ParamDecl.SpelledMore ps u := by
  induction fuel generalizing o with
  | zero => exact .stuck ⟨[⟨.symbol .rparen, 0, 0⟩], [], .done rfl⟩
  | succ fuel ih =>
    refine .takes (fun c o' comma _ => ?_) fun _ => .token fun r _ right => .pure (.done right)
    refine (reads_parameter o').bind fun p u o'' h => (ih o'').bind fun ps v _ h' => ?_
    exact .pure (by simpa using .more comma h h')

theorem reads_parameters (o : Option TokenKind) (fuel : Nat) :
    Reads o (parameters fuel) fun ps u _ => ParamDecl.SpelledAll ps u := by
  refine .token fun l o' left => .takes (fun r o'' right _ => .pure (.none left right)) fun _ => ?_
  refine (reads_parameter o').bind fun p u o'' h =>
    (reads_moreParameters o'' fuel).bind fun ps v _ h' => ?_
  exact .pure (by simpa using .some left h h')

theorem reads_methodRest {isPrivate isStatic : Bool} {result : TypeExpr} {n : Token} {name : String}
    {us vs ws : List Token} (visibility : SpelledVisibility isPrivate us)
    (access : SpelledAccess isStatic vs) (result' : result.SpelledResult ws)
    (word : n.kind = .ident name) (o : Option TokenKind) (fuel : Nat) :
    Reads o (methodRest fuel isPrivate isStatic result ⟨name, n.pos⟩) fun m v _ =>
      Member.Spelled (.inr m) (us ++ (vs ++ (ws ++ n :: v))) := by
  refine (reads_parameters o fuel).bind fun ps xs o' params => .token fun l o'' left => ?_
  refine ((stmtsRead fuel).stmtsFrom o'').bind fun body ys _ h => .pure ?_
  simpa using .method visibility access result' word params left h

theorem reads_visibility (o : Option TokenKind) :
    Reads o visibility fun isPrivate u _ => SpelledVisibility isPrivate u := by
  refine .takes (fun t o' word _ => .pure (.isPublic word)) fun _ => ?_
  rw [← bind_pure (Reading.takes _)]
  exact .takes (fun t o' word _ => .pure (.isPrivate word)) fun _ => .pure .default

theorem reads_access (o : Option TokenKind) :
    Reads o (takes (.keyword .staticWord)) fun isStatic u _ => SpelledAccess isStatic u := by
  rw [← bind_pure (Reading.takes _)]
  exact .takes (fun t o' word _ => .pure (.isStatic word)) fun _ => .pure .default

theorem reads_member (o : Option TokenKind) (fuel : Nat) :
    Reads o (member fuel) fun m u _ => Member.Spelled m u := by
  refine (reads_visibility o).bind fun isPrivate us o' visibility => ?_
  refine (reads_access o').bind fun isStatic vs o'' access => .peek ?_
  split
  · refine .token fun t _ word => .name fun n name o₃ word' => ?_
    refine (reads_methodRest visibility access (.void word) word' o₃ fuel).bind fun m v _ h => ?_
    exact .pure (by simpa using h)
  · refine reads_typeExpr.bind fun type ws _ type' => .name fun n name o₃ word => ?_
    refine .takes (fun c _ semicolon _ => .pure ?_) fun _ => ?_
    · simpa using .field visibility access type' word semicolon
    · refine (reads_methodRest visibility access (.type type') word o₃ fuel).bind fun m v _ h => ?_
      exact .pure (by simpa using h)

theorem reads_members (o : Option TokenKind) (fuel : Nat) :
    Reads o (members fuel) fun ms u _ => Member.SpelledAll ms u := by
  induction fuel generalizing o with
  | zero => exact .stuck ⟨[⟨.symbol .rbrace, 0, 0⟩], [], .done rfl⟩
  | succ fuel ih =>
    refine .takes (fun r o' right _ => .pure (.done right)) fun _ => ?_
    refine (reads_member o fuel).bind fun m u o' h => (ih o').bind fun ms v _ h' => ?_
    exact .pure (by simpa using .more h h')

theorem reads_classDecl (o : Option TokenKind) (fuel : Nat) :
    Reads o (classDecl fuel) fun c u _ => c.Spelled u := by
  refine .token fun t o' word => .name fun n name o'' cls => .token fun l o₃ left => ?_
  exact (reads_members o₃ fuel).bind fun ms u _ h => .pure (by simpa using .mk word cls left h)

theorem reads_classes (o : Option TokenKind) (fuel : Nat) :
    Reads o (classes fuel) fun cs u o' => ClassDecl.SpelledAll cs u ∧ o' = none := by
  induction fuel generalizing o with
  | zero => exact .stuck ⟨[], [], .done, rfl⟩
  | succ fuel ih =>
    refine .peek ?_
    split
    · rename_i ended
      exact .pure ⟨.done, ended⟩
    · refine (reads_classDecl o fuel).bind fun c u o' h => (ih o').bind fun cs v _ h' => ?_
      exact .pure ⟨by simpa using .more h h'.1, h'.2⟩

end Reading

end JamCompiler
