import JamCompiler.Proofs.Reading.Derivations

/-!
# The documented language

The parser's grammar has the rules of the documented one, some of them split so that one token of
lookahead is enough, but for one: the documentation lets an element of any reference be assigned,
and no part of the split rule covers an element of `this`. Without that rule the two grammars derive
the same programs, and they are those that reading accepts.
-/

namespace JamCompiler

namespace Reading

open Grammar (Derives translate)

variable {ts : List Token}

/-- What the phrases of the documented grammar are in the parser's. -/
def toParsed : DocumentedPhrase → ParserPhrase
  | .classDecls => .classList
  | .classDecl => .classDecl
  | .members => .memberList
  | .member => .member
  | .visibility => .visibility
  | .access => .access
  | .type => .type
  | .params? => .paramList
  | .params => .params
  | .stmts => .stmtList
  | .stmt => .stmt
  | .ref => .reference
  | .args? => .argList
  | .args => .args
  | .expr => .expr

/-- What the phrases of the parser's grammar are in the documented one. -/
def toDocumented : ParserPhrase → List (RuleItem DocumentedPhrase)
  | .program | .classList => [.phrase .classDecls]
  | .classDecl => [.phrase .classDecl]
  | .memberList => [.phrase .members]
  | .member => [.phrase .member]
  | .visibility => [.phrase .visibility]
  | .access => [.phrase .access]
  | .voidType => [.keyword .voidWord]
  | .type | .primType => [.phrase .type]
  | .paramList => [.phrase .params?]
  | .params => [.phrase .params]
  | .stmtList => [.phrase .stmts]
  | .stmt => [.phrase .stmt]
  | .reference => [.phrase .ref]
  | .qualified => [.phrase .ref, .symbol .dot, .ident]
  | .argList => [.phrase .args?]
  | .args => [.phrase .args]
  | .expr => [.phrase .expr]

/-- The documented rules that the parser's grammar does not have as they are. -/
def splitRules : DocumentedPhrase → List (List (RuleItem DocumentedPhrase))
  | .member =>
    [[.phrase .visibility, .phrase .access, .keyword .voidWord, .ident, .symbol .lparen,
      .phrase .params?, .symbol .rparen, .symbol .lbrace, .phrase .stmts, .symbol .rbrace]]
  | .type =>
    [[.keyword .intWord], [.keyword .booleanWord],
     [.keyword .intWord, .symbol .lbracket, .symbol .rbracket]]
  | .stmt =>
    [[.phrase .type, .ident, .symbol .assign, .phrase .expr, .symbol .semicolon],
     [.phrase .ref, .symbol .dot, .ident, .symbol .lbracket, .phrase .expr, .symbol .rbracket,
      .symbol .assign, .phrase .expr, .symbol .semicolon]]
  | .ref => [[.phrase .ref, .symbol .dot, .ident]]
  | _ => []

theorem splitRules_or_parsed (n : DocumentedPhrase) : ∀ right ∈ documented false n,
    right ∈ splitRules n ∨
      right.flatMap (translate fun n => [.phrase (toParsed n)]) ∈ parsed (toParsed n) := by
  cases n <;> decide

/-- The parser's grammar derives what the split rules derive. -/
theorem parsed_of_splitRules {n : DocumentedPhrase} {right : List (RuleItem DocumentedPhrase)}
    (rule : right ∈ splitRules n)
    (h : Parsed (right.flatMap (translate fun n => [.phrase (toParsed n)])) ts) :
    Parsed [.phrase (toParsed n)] ts := by
  cases n with
  | member =>
    obtain rfl := List.mem_singleton.mp rule
    exact .of .member
      (h.within [.phrase .visibility, .phrase .access] [.keyword .voidWord] .voidType
      (by decide)) (by decide)
  | type =>
    have prim : ∀ right ∈ splitRules .type,
        right.flatMap (translate fun n => [.phrase (toParsed n)]) ∈ parsed .primType := by decide
    exact .of .type (.of .primType h (prim right rule)) (by decide)
  | stmt =>
    obtain rfl | rfl : _ ∨ _ := by simpa [splitRules] using rule
    · -- the type of a declaration is split into what begins with a word and what with a name
      cases h with
      | phrase type first rest =>
        change _ ∈ parsed .type at type
        obtain rfl | rfl | rfl : _ ∨ _ ∨ _ := by simpa [parsed] using type
        · exact .of .stmt (first.append rest) (by decide)
        · exact .of .stmt (first.append rest) (by decide)
        · exact .of .stmt (first.append rest) (by decide)
    · exact .of .stmt
        (h.within [] [.phrase .reference, .symbol .dot, .ident] .qualified (by decide))
        (by decide)
  | ref =>
    obtain rfl := List.mem_singleton.mp rule
    exact .of .reference (.of .qualified h (by decide)) (by decide)
  | _ => cases rule

theorem parsed_of_documented {items : List (RuleItem DocumentedPhrase)}
    (h : (documented false).Derives items ts) :
    Parsed (items.flatMap (translate fun n => [.phrase (toParsed n)])) ts := by
  refine h.translate fun n right rule ts h => ?_
  rcases splitRules_or_parsed n right rule with split | same
  · exact parsed_of_splitRules split h
  · exact Parsed.of (toParsed n) h same

/-- The parser's rules for declarations whose type begins with a name. -/
def namedRules : List (List (RuleItem ParserPhrase)) :=
  [[.ident, .ident, .symbol .assign, .phrase .expr, .symbol .semicolon],
   [.ident, .symbol .lbracket, .symbol .rbracket, .ident, .symbol .assign, .phrase .expr,
    .symbol .semicolon]]

/-- Whether a right side is one of the documented rules for what a phrase of the parser's is. -/
def isDocumented (n : ParserPhrase) (right : List (RuleItem DocumentedPhrase)) : Bool :=
  match toDocumented n with
  | [.phrase m] => right ∈ documented false m
  | _ => false

/-- A rule of the parser only renames, or it names the type of a declaration, or the documentation
has it. -/
theorem namedRules_or_documented (n : ParserPhrase) : ∀ right ∈ parsed n,
    right.flatMap (translate toDocumented) = toDocumented n ∨ n = .stmt ∧ right ∈ namedRules ∨
      isDocumented n (right.flatMap (translate toDocumented)) := by
  cases n <;> decide

theorem documented_of_parsed {items : List (RuleItem ParserPhrase)} (h : Parsed items ts) :
    (documented false).Derives (items.flatMap (translate toDocumented)) ts := by
  refine h.translate fun n right rule ts h => ?_
  rcases namedRules_or_documented n right rule with same | ⟨rfl, named⟩ | same
  · rwa [← same]
  · obtain rfl | rfl : _ ∨ _ := by simpa [namedRules] using named
    · exact (h.within [] [.ident] .type (by decide)).asPhrase DocumentedPhrase.stmt (by decide)
    · exact (h.within [] [.ident, .symbol .lbracket, .symbol .rbracket] .type (by decide)).asPhrase
        DocumentedPhrase.stmt (by decide)
  · unfold isDocumented at same
    split at same
    · rename_i m image
      rw [image]
      exact h.asPhrase m (of_decide_eq_true same)
    · cases same

theorem documented_iff_parsed :
    (documented false).Derives [.phrase .classDecls] ts ↔ Parsed [.phrase .program] ts := by
  refine ⟨fun h => .of .program (parsed_of_documented h) (by decide), fun h => ?_⟩
  exact documented_of_parsed h

/-- The rules for elements of names are those for elements of references that end in a name. -/
def elementRules : List (List (RuleItem DocumentedPhrase)) :=
  [[.ident], [.phrase .ref, .symbol .dot, .ident]].map
    (· ++ [.symbol .lbracket, .phrase .expr, .symbol .rbracket, .symbol .assign, .phrase .expr,
      .symbol .semicolon])

theorem elementRules_or_documented (n : DocumentedPhrase) : ∀ right ∈ documented false n,
    n = .stmt ∧ right ∈ elementRules ∨ right ∈ documented true n := by
  cases n <;> decide

/-- With the rule for elements of every reference no less is derived. -/
theorem documented_mono {items : List (RuleItem DocumentedPhrase)}
    (h : (documented false).Derives items ts) : (documented true).Derives items ts := by
  refine h.mono fun n right rule ts h => ?_
  rcases elementRules_or_documented n right rule with ⟨rfl, element⟩ | same
  · obtain rfl | rfl : _ ∨ _ := by simpa [elementRules] using element
    · exact (h.within [] [.ident] .ref (by decide)).asPhrase DocumentedPhrase.stmt (by decide)
    · exact (h.within [] [.phrase .ref, .symbol .dot, .ident] .ref (by decide)).asPhrase
        DocumentedPhrase.stmt (by decide)
  · exact h.asPhrase n same

end Reading

end JamCompiler
