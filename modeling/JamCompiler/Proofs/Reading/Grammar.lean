import JamCompiler.Token

/-!
# Grammars

A grammar gives the right sides of the rules of each kind of phrase, and a derivation spells the
parts of a right side one after the other. Two grammars of the language are given as tables: the
one of its documentation, and the one that its parser works with, which is written for a parser
that looks at one token and decides.

What holds of a phrase as soon as it holds of the parts of one of its right sides holds of all that
a grammar derives.
-/

namespace JamCompiler

/-- A part of the right side of a rule. -/
inductive RuleItem (N : Type)
  | number
  | ident
  | keyword (word : Keyword)
  | symbol (s : Symbol)
  | phrase (n : N)
  deriving DecidableEq

/-- The right sides of the rules for each kind of phrase. -/
abbrev Grammar (N : Type) := N → List (List (RuleItem N))

namespace Grammar

variable {N : Type}

/-- Which tokens a sequence of items derives. -/
inductive Derives (g : Grammar N) : List (RuleItem N) → List Token → Prop
  | nil : Derives g [] []
  | number {value : Nat} {t : Token} {items : List (RuleItem N)} {ts : List Token}
      (word : t.kind = .number value) (rest : Derives g items ts) :
    Derives g (.number :: items) (t :: ts)
  | ident {name : String} {t : Token} {items : List (RuleItem N)} {ts : List Token}
      (word : t.kind = .ident name) (rest : Derives g items ts) :
    Derives g (.ident :: items) (t :: ts)
  | keyword {k : Keyword} {t : Token} {items : List (RuleItem N)} {ts : List Token}
      (word : t.kind = .keyword k) (rest : Derives g items ts) :
    Derives g (.keyword k :: items) (t :: ts)
  | symbol {s : Symbol} {t : Token} {items : List (RuleItem N)} {ts : List Token}
      (word : t.kind = .symbol s) (rest : Derives g items ts) :
    Derives g (.symbol s :: items) (t :: ts)
  | phrase {n : N} {right items : List (RuleItem N)} {us vs : List Token} (rule : right ∈ g n)
      (first : Derives g right us) (rest : Derives g items vs) :
    Derives g (.phrase n :: items) (us ++ vs)

/-- Which tokens a sequence of items makes if `M` says which ones the phrases make. -/
def Spells (M : N → List Token → Prop) : List (RuleItem N) → List Token → Prop
  | [], ts => ts = []
  | .number :: items, ts =>
    ∃ t us value, t.kind = .number value ∧ ts = t :: us ∧ Spells M items us
  | .ident :: items, ts => ∃ t us name, t.kind = .ident name ∧ ts = t :: us ∧ Spells M items us
  | .keyword k :: items, ts => ∃ t us, t.kind = .keyword k ∧ ts = t :: us ∧ Spells M items us
  | .symbol s :: items, ts => ∃ t us, t.kind = .symbol s ∧ ts = t :: us ∧ Spells M items us
  | .phrase n :: items, ts => ∃ us vs, M n us ∧ ts = us ++ vs ∧ Spells M items vs

variable {g : Grammar N}

/-- What every rule passes on from the parts to the whole holds of all that is derived. -/
theorem Derives.spells {M : N → List Token → Prop}
    (closed : ∀ n, ∀ right ∈ g n, ∀ ts, Spells M right ts → M n ts) {items : List (RuleItem N)}
    {ts : List Token} (h : g.Derives items ts) : Spells M items ts := by
  induction h with
  | nil => rfl
  | number word _ ih => exact ⟨_, _, _, word, rfl, ih⟩
  | ident word _ ih => exact ⟨_, _, _, word, rfl, ih⟩
  | keyword word _ ih => exact ⟨_, _, word, rfl, ih⟩
  | symbol word _ ih => exact ⟨_, _, word, rfl, ih⟩
  | phrase rule _ _ ih ih' => exact ⟨_, _, closed _ _ rule _ ih, rfl, ih'⟩

theorem Derives.append {items items' : List (RuleItem N)} {us vs : List Token}
    (h : g.Derives items us) (h' : g.Derives items' vs) :
    g.Derives (items ++ items') (us ++ vs) := by
  induction h with
  | nil => exact h'
  | number word _ ih => exact .number word ih
  | ident word _ ih => exact .ident word ih
  | keyword word _ ih => exact .keyword word ih
  | symbol word _ ih => exact .symbol word ih
  | phrase rule first _ _ ih =>
    rw [List.append_assoc]
    exact .phrase rule first ih

theorem Derives.asPhrase (n : N) {right : List (RuleItem N)} {ts : List Token}
    (h : g.Derives right ts) (rule : right ∈ g n) : g.Derives [.phrase n] ts := by
  simpa using Derives.phrase rule h .nil

/-- What is derived depends on the kinds of the tokens alone. -/
theorem Derives.of_kinds {items : List (RuleItem N)} {ts us : List Token} (h : g.Derives items ts)
    (same : us.map Token.kind = ts.map Token.kind) : g.Derives items us := by
  induction h generalizing us with
  | nil =>
    obtain rfl := List.map_eq_nil_iff.mp same
    exact .nil
  | number word _ ih =>
    obtain ⟨t, us, rfl, kind, rest⟩ := List.map_eq_cons_iff.mp same
    exact .number (kind.trans word) (ih rest)
  | ident word _ ih =>
    obtain ⟨t, us, rfl, kind, rest⟩ := List.map_eq_cons_iff.mp same
    exact .ident (kind.trans word) (ih rest)
  | keyword word _ ih =>
    obtain ⟨t, us, rfl, kind, rest⟩ := List.map_eq_cons_iff.mp same
    exact .keyword (kind.trans word) (ih rest)
  | symbol word _ ih =>
    obtain ⟨t, us, rfl, kind, rest⟩ := List.map_eq_cons_iff.mp same
    exact .symbol (kind.trans word) (ih rest)
  | phrase rule _ _ ih ih' =>
    rw [List.map_append] at same
    obtain ⟨us, vs, rfl, first, rest⟩ := List.map_eq_append_iff.mp same
    exact .phrase rule (ih first) (ih' rest)

theorem Derives.part {n : N} {items : List (RuleItem N)} {us vs : List Token}
    (h : g.Derives [.phrase n] us) (rest : g.Derives items vs) :
    g.Derives (.phrase n :: items) (us ++ vs) :=
  h.append rest

theorem Derives.split {items items' : List (RuleItem N)} {ts : List Token}
    (h : g.Derives (items ++ items') ts) :
    ∃ us vs, ts = us ++ vs ∧ g.Derives items us ∧ g.Derives items' vs := by
  induction items generalizing ts with
  | nil => exact ⟨[], ts, rfl, .nil, h⟩
  | cons item items ih =>
    cases h with
    | number word rest =>
      obtain ⟨us, vs, rfl, h, h'⟩ := ih rest
      exact ⟨_ :: us, vs, rfl, .number word h, h'⟩
    | ident word rest =>
      obtain ⟨us, vs, rfl, h, h'⟩ := ih rest
      exact ⟨_ :: us, vs, rfl, .ident word h, h'⟩
    | keyword word rest =>
      obtain ⟨us, vs, rfl, h, h'⟩ := ih rest
      exact ⟨_ :: us, vs, rfl, .keyword word h, h'⟩
    | symbol word rest =>
      obtain ⟨us, vs, rfl, h, h'⟩ := ih rest
      exact ⟨_ :: us, vs, rfl, .symbol word h, h'⟩
    | phrase rule first rest =>
      obtain ⟨us, vs, rfl, h, h'⟩ := ih rest
      exact ⟨_ ++ us, vs, by simp, .phrase rule first h, h'⟩

/-- Some of a sequence of items, taken together. -/
theorem Derives.within (before right : List (RuleItem N)) (n : N) {items : List (RuleItem N)}
    {ts : List Token} (h : g.Derives (before ++ (right ++ items)) ts) (rule : right ∈ g n) :
    g.Derives (before ++ .phrase n :: items) ts := by
  obtain ⟨us, _, rfl, first, rest⟩ := h.split
  obtain ⟨vs, ws, rfl, middle, last⟩ := rest.split
  exact first.append (.phrase rule middle last)

/-- What one grammar derives another one does, if that derives what each rule does. -/
theorem Derives.mono {g' : Grammar N} (closed : ∀ n, ∀ right ∈ g n, ∀ ts, g'.Derives right ts →
      g'.Derives [.phrase n] ts)
    {items : List (RuleItem N)} {ts : List Token} (h : g.Derives items ts) :
    g'.Derives items ts := by
  induction h with
  | nil => exact .nil
  | number word _ ih => exact .number word ih
  | ident word _ ih => exact .ident word ih
  | keyword word _ ih => exact .keyword word ih
  | symbol word _ ih => exact .symbol word ih
  | phrase rule _ _ ih ih' => exact (closed _ _ rule _ ih).part ih'

/-- An item of one grammar in another one, where `image` says what a phrase is there. -/
def translate {N' : Type} (image : N → List (RuleItem N')) : RuleItem N → List (RuleItem N')
  | .number => [.number]
  | .ident => [.ident]
  | .keyword k => [.keyword k]
  | .symbol s => [.symbol s]
  | .phrase n => image n

/-- What one grammar derives another one does, if that has every rule in translation. -/
theorem Derives.translate {N' : Type} {g' : Grammar N'} {image : N → List (RuleItem N')}
    (closed : ∀ n, ∀ right ∈ g n, ∀ ts, g'.Derives (right.flatMap (translate image)) ts →
      g'.Derives (image n) ts)
    {items : List (RuleItem N)} {ts : List Token} (h : g.Derives items ts) :
    g'.Derives (items.flatMap (Grammar.translate image)) ts := by
  induction h with
  | nil => exact .nil
  | number word _ ih => exact .number word ih
  | ident word _ ih => exact .ident word ih
  | keyword word _ ih => exact .keyword word ih
  | symbol word _ ih => exact .symbol word ih
  | phrase rule _ _ ih ih' => exact (closed _ _ rule _ ih).append ih'

end Grammar

open RuleItem

/-- The kinds of phrases of the documented grammar. What the documentation writes as a repetition or
an option of a phrase is a kind of its own here. -/
inductive DocumentedPhrase
  | classDecls
  | classDecl
  | members
  | member
  | visibility
  | access
  | type
  | params?
  | params
  | stmts
  | stmt
  | ref
  | args?
  | args
  | expr
  deriving DecidableEq

/-- The binary operators of the documentation, from the lowest to the highest precedence. -/
def binops : List Symbol :=
  [.or, .and, .eq, .ne, .lt, .le, .gt, .ge, .plus, .minus, .times, .divide]

/-- The documented grammar, with a right side for each choice between single words. `ofThis` says
whether an element of every reference can be assigned, as the documentation has it, or only one of
a reference that ends in a name. -/
def documented (ofThis : Bool) : Grammar DocumentedPhrase
  | .classDecls => [[], [phrase .classDecls, phrase .classDecl]]
  | .classDecl =>
    [[keyword .classWord, ident, symbol .lbrace, phrase .members, symbol .rbrace]]
  | .members => [[], [phrase .members, phrase .member]]
  | .member =>
    [[phrase .visibility, phrase .access, phrase .type, ident, symbol .semicolon],
     [phrase .visibility, phrase .access, phrase .type, ident, symbol .lparen, phrase .params?,
      symbol .rparen, symbol .lbrace, phrase .stmts, symbol .rbrace],
     [phrase .visibility, phrase .access, keyword .voidWord, ident, symbol .lparen, phrase .params?,
      symbol .rparen, symbol .lbrace, phrase .stmts, symbol .rbrace]]
  | .visibility => [[], [keyword .publicWord], [keyword .privateWord]]
  | .access => [[], [keyword .staticWord]]
  | .type =>
    [[keyword .intWord], [keyword .booleanWord], [ident],
     [keyword .intWord, symbol .lbracket, symbol .rbracket],
     [ident, symbol .lbracket, symbol .rbracket]]
  | .params? => [[], [phrase .params]]
  | .params => [[phrase .type, ident], [phrase .params, symbol .comma, phrase .type, ident]]
  | .stmts => [[], [phrase .stmts, phrase .stmt]]
  | .stmt =>
    [[symbol .lbrace, phrase .stmts, symbol .rbrace],
     [phrase .type, ident, symbol .assign, phrase .expr, symbol .semicolon],
     [phrase .ref, symbol .assign, phrase .expr, symbol .semicolon],
     [phrase .ref, symbol .lparen, phrase .args?, symbol .rparen, symbol .semicolon],
     [keyword .returnWord, symbol .semicolon],
     [keyword .returnWord, phrase .expr, symbol .semicolon],
     [keyword .ifWord, symbol .lparen, phrase .expr, symbol .rparen, phrase .stmt],
     [keyword .ifWord, symbol .lparen, phrase .expr, symbol .rparen, phrase .stmt,
      keyword .elseWord, phrase .stmt],
     [keyword .whileWord, symbol .lparen, phrase .expr, symbol .rparen, phrase .stmt]] ++
    (if ofThis then [[phrase .ref]] else [[ident], [phrase .ref, symbol .dot, ident]]).map
      (· ++ [symbol .lbracket, phrase .expr, symbol .rbracket, symbol .assign, phrase .expr,
        symbol .semicolon])
  | .ref => [[ident], [keyword .thisWord], [phrase .ref, symbol .dot, ident]]
  | .args? => [[], [phrase .args]]
  | .args => [[phrase .expr], [phrase .args, symbol .comma, phrase .expr]]
  | .expr =>
    [[phrase .ref],
     [phrase .ref, symbol .lbracket, phrase .expr, symbol .rbracket],
     [phrase .ref, symbol .lparen, phrase .args?, symbol .rparen],
     [symbol .minus, phrase .expr], [symbol .not, phrase .expr]] ++
    binops.map (fun op => [phrase .expr, symbol op, phrase .expr]) ++
    [[symbol .lparen, phrase .expr, symbol .rparen],
     [number], [keyword .trueWord], [keyword .falseWord], [keyword .nullWord],
     [keyword .newWord, ident, symbol .lparen, symbol .rparen],
     [keyword .newWord, keyword .intWord, symbol .lbracket, phrase .expr, symbol .rbracket],
     [keyword .newWord, ident, symbol .lbracket, phrase .expr, symbol .rbracket]]

/-- The kinds of phrases of the parser's grammar. -/
inductive ParserPhrase
  | program
  | classList
  | classDecl
  | memberList
  | member
  | visibility
  | access
  | voidType
  | type
  | primType
  | paramList
  | params
  | stmtList
  | stmt
  | reference
  | qualified
  | argList
  | args
  | expr
  deriving DecidableEq

/-- The grammar that the parser works with. Lists are left recursive, and a statement that begins
with an identifier has its name, its brackets or its qualified name in a rule of its own, so that
the next token decides between a type and a reference. -/
def parsed : Grammar ParserPhrase
  | .program => [[phrase .classList]]
  | .classList => [[phrase .classList, phrase .classDecl], []]
  | .classDecl =>
    [[keyword .classWord, ident, symbol .lbrace, phrase .memberList, symbol .rbrace]]
  | .memberList => [[phrase .memberList, phrase .member], []]
  | .member =>
    [[phrase .visibility, phrase .access, phrase .type, ident, symbol .semicolon],
     [phrase .visibility, phrase .access, phrase .type, ident, symbol .lparen, phrase .paramList,
      symbol .rparen, symbol .lbrace, phrase .stmtList, symbol .rbrace],
     [phrase .visibility, phrase .access, phrase .voidType, ident, symbol .lparen,
      phrase .paramList, symbol .rparen, symbol .lbrace, phrase .stmtList, symbol .rbrace]]
  | .visibility => [[keyword .publicWord], [keyword .privateWord], []]
  | .access => [[keyword .staticWord], []]
  | .voidType => [[keyword .voidWord]]
  | .type => [[phrase .primType], [ident], [ident, symbol .lbracket, symbol .rbracket]]
  | .primType =>
    [[keyword .intWord], [keyword .booleanWord],
     [keyword .intWord, symbol .lbracket, symbol .rbracket]]
  | .paramList => [[phrase .params], []]
  | .params =>
    [[phrase .params, symbol .comma, phrase .type, ident], [phrase .type, ident]]
  | .stmtList => [[phrase .stmtList, phrase .stmt], []]
  | .stmt =>
    [[symbol .lbrace, phrase .stmtList, symbol .rbrace],
     [phrase .primType, ident, symbol .assign, phrase .expr, symbol .semicolon],
     [ident, ident, symbol .assign, phrase .expr, symbol .semicolon],
     [ident, symbol .lbracket, symbol .rbracket, ident, symbol .assign, phrase .expr,
      symbol .semicolon],
     [phrase .reference, symbol .assign, phrase .expr, symbol .semicolon],
     [ident, symbol .lbracket, phrase .expr, symbol .rbracket, symbol .assign, phrase .expr,
      symbol .semicolon],
     [phrase .qualified, symbol .lbracket, phrase .expr, symbol .rbracket, symbol .assign,
      phrase .expr, symbol .semicolon],
     [phrase .reference, symbol .lparen, phrase .argList, symbol .rparen, symbol .semicolon],
     [keyword .returnWord, symbol .semicolon],
     [keyword .returnWord, phrase .expr, symbol .semicolon],
     [keyword .ifWord, symbol .lparen, phrase .expr, symbol .rparen, phrase .stmt],
     [keyword .ifWord, symbol .lparen, phrase .expr, symbol .rparen, phrase .stmt,
      keyword .elseWord, phrase .stmt],
     [keyword .whileWord, symbol .lparen, phrase .expr, symbol .rparen, phrase .stmt]]
  | .reference => [[ident], [keyword .thisWord], [phrase .qualified]]
  | .qualified => [[phrase .reference, symbol .dot, ident]]
  | .argList => [[phrase .args], []]
  | .args => [[phrase .args, symbol .comma, phrase .expr], [phrase .expr]]
  | .expr =>
    [[phrase .reference],
     [phrase .reference, symbol .lbracket, phrase .expr, symbol .rbracket],
     [phrase .reference, symbol .lparen, phrase .argList, symbol .rparen],
     [symbol .minus, phrase .expr],
     [symbol .not, phrase .expr],
     [phrase .expr, symbol .or, phrase .expr],
     [phrase .expr, symbol .and, phrase .expr],
     [phrase .expr, symbol .eq, phrase .expr],
     [phrase .expr, symbol .ne, phrase .expr],
     [phrase .expr, symbol .lt, phrase .expr],
     [phrase .expr, symbol .le, phrase .expr],
     [phrase .expr, symbol .gt, phrase .expr],
     [phrase .expr, symbol .ge, phrase .expr],
     [phrase .expr, symbol .plus, phrase .expr],
     [phrase .expr, symbol .minus, phrase .expr],
     [phrase .expr, symbol .times, phrase .expr],
     [phrase .expr, symbol .divide, phrase .expr],
     [symbol .lparen, phrase .expr, symbol .rparen],
     [number], [keyword .trueWord], [keyword .falseWord], [keyword .nullWord],
     [keyword .newWord, ident, symbol .lparen, symbol .rparen],
     [keyword .newWord, keyword .intWord, symbol .lbracket, phrase .expr, symbol .rbracket],
     [keyword .newWord, ident, symbol .lbracket, phrase .expr, symbol .rbracket]]

end JamCompiler
