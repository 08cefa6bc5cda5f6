import JamCompiler.Proofs.Reading.Printed
import Mathlib.Logic.Relation

/-!
# Tokens that leave no trace

A tree is spelled by more tokens than it is printed with: there may be parentheses where none are
needed, and `public`. Every spelling of a tree becomes the printed one by leaving out such tokens,
one `public` or one pair of parentheses at a time, and it spells the same tree all the way.

`Reduces` says this of the spellings of one tree, and it holds of a construct as soon as it holds of
its parts.
-/

namespace JamCompiler

open Reading (binaryOp? precedence_lt)
open Relation (ReflTransGen)

/-- One `public` less, or one pair of parentheses. -/
inductive Drops : List TokenKind → List TokenKind → Prop
  | isPublic (before after : List TokenKind) :
    Drops (before ++ .keyword .publicWord :: after) (before ++ after)
  | parens (before between after : List TokenKind) :
    Drops (before ++ .symbol .lparen :: (between ++ .symbol .rparen :: after))
      (before ++ (between ++ after))

theorem Drops.within {ks ks' : List TokenKind} (h : Drops ks ks') (before after : List TokenKind) :
    Drops (before ++ (ks ++ after)) (before ++ (ks' ++ after)) := by
  cases h with
  | isPublic a c => simpa using Drops.isPublic (before ++ a) (c ++ after)
  | parens a b c => simpa using Drops.parens (before ++ a) b (c ++ after)

theorem Drops.sublist {ks ks' : List TokenKind} (h : Drops ks ks') : ks'.Sublist ks := by
  cases h with
  | isPublic a c => exact (List.Sublist.refl a).append (List.sublist_cons_self _ c)
  | parens a b c =>
    have tail := (List.Sublist.refl b).append (List.sublist_cons_self (.symbol .rparen) c)
    exact (List.Sublist.refl a).append (tail.trans (List.sublist_cons_self _ _))

theorem Drops.length_lt {ks ks' : List TokenKind} (h : Drops ks ks') : ks'.length < ks.length := by
  cases h with
  | isPublic a c => simp only [List.length_append, List.length_cons]; omega
  | parens a b c => simp only [List.length_append, List.length_cons]; omega

/-- Tokens of a language become others of it, one drop at a time. -/
structure Reduces (L : List TokenKind → Prop) (ks ks' : List TokenKind) : Prop where
  start : L ks
  steps : ReflTransGen (fun us vs => Drops us vs ∧ L vs) ks ks'

/-- The tokens of one language after those of another. -/
def Joined (L M : List TokenKind → Prop) (ws : List TokenKind) : Prop :=
  ∃ us vs, L us ∧ M vs ∧ ws = us ++ vs

namespace Reduces

variable {L M : List TokenKind → Prop} {ks ks' us us' vs vs' : List TokenKind}

theorem refl (h : L ks) : Reduces L ks ks := ⟨h, .refl⟩

/-- Tokens that stay as they are. -/
theorem words (ks : List TokenKind) : Reduces (· = ks) ks ks := refl rfl

theorem finish (h : Reduces L ks ks') : L ks' := by
  cases h.steps with
  | refl => exact h.start
  | tail _ last => exact last.2

theorem within (h : Reduces L ks ks') (before after : List TokenKind)
    (lift : ∀ us, L us → M (before ++ (us ++ after))) :
    Reduces M (before ++ (ks ++ after)) (before ++ (ks' ++ after)) where
  start := lift _ h.start
  steps := ReflTransGen.lift (fun us => before ++ (us ++ after))
    (fun _ _ step => ⟨step.1.within before after, lift _ step.2⟩) _ _ h.steps

theorem imp (h : Reduces L ks ks') (lift : ∀ us, L us → M us) : Reduces M ks ks' := by
  simpa using h.within [] [] fun us hu => by simpa using lift us hu

theorem trans (h : Reduces L us vs) (h' : Reduces L vs ks) : Reduces L us ks :=
  ⟨h.start, h.steps.trans h'.steps⟩

theorem append (h : Reduces L us us') (h' : Reduces M vs vs') :
    Reduces (Joined L M) (us ++ vs) (us' ++ vs') := by
  have first := h.within (M := Joined L M) [] vs fun ws hw => ⟨ws, vs, hw, h'.start, rfl⟩
  have second := h'.within (M := Joined L M) us' [] fun ws hw => ⟨us', ws, h.finish, hw, by simp⟩
  simpa using first.trans (by simpa using second)

theorem cons (k : TokenKind) (h : Reduces L us us') :
    Reduces (Joined (· = [k]) L) (k :: us) (k :: us') :=
  (words [k]).append h

theorem sublist (h : Reduces L ks ks') : ks'.Sublist ks := by
  obtain ⟨-, steps⟩ := h
  induction steps with
  | refl => exact .refl _
  | tail _ last ih => exact last.1.sublist.trans ih

end Reduces

section Shaped

variable {ts : List Token}

theorem TypeExpr.Spelled.written {t : TypeExpr} (h : t.Spelled ts) : t.Written := by
  cases h <;> trivial

theorem TypeExpr.SpelledResult.written {t : TypeExpr} (h : t.SpelledResult ts) :
    t.WrittenResult := by
  cases h with
  | type type' => exact .inl type'.written
  | void word => exact .inr rfl

theorem Reference.Spelled.written {r : Reference} (h : r.Spelled ts) : r.Written := by
  induction h with
  | this | ident => trivial
  | qualified _ _ _ ih => exact ih

def Phrase.Shaped : Phrase → Prop
  | .expr _ e => e.Shaped
  | .args es | .moreArgs es => Expr.AllShaped es

theorem Phrase.Spelled.shaped {p : Phrase} (h : p.Spelled ts) : p.Shaped := by
  induction h with
  | int word => exact Int.natCast_nonneg _
  | true | false | null | noArgs | endArgs | newObject => trivial
  | neg _ _ ih => exact ⟨trivial, ih⟩
  | not _ _ ih => exact ⟨trivial, ih⟩
  | binary _ known _ _ _ ihl ihr => exact ⟨Reading.binaryOp_written known, ihl, ihr⟩
  | paren _ _ _ ih => exact ih
  | ref ref => exact ref.written
  | index ref _ _ _ ih => exact ⟨ref.written, ih⟩
  | call ref _ ih => exact ⟨ref.written, ih⟩
  | newArray _ _ _ _ _ ih => exact ⟨trivial, ih⟩
  | newInts _ _ _ _ _ ih => exact ⟨trivial, ih⟩
  | args _ _ _ ih ih' => exact ⟨ih, ih'⟩
  | moreArgs _ _ _ ih ih' => exact ⟨ih, ih'⟩

theorem Expr.SpelledValue.shaped {e : Expr} (h : e.SpelledValue ts) : e.Shaped := by
  obtain ⟨us, a, c, -, h, -, -⟩ := h
  exact Phrase.Spelled.shaped h

theorem Expr.SpelledCondition.shaped {e : Expr} (h : e.SpelledCondition ts) : e.Shaped := by
  obtain ⟨us, l, r, -, h, -, -⟩ := h
  exact Phrase.Spelled.shaped h

def Passage.Shaped : Passage → Prop
  | .stmt s => s.Shaped
  | .stmts ss => Stmt.AllShaped ss

theorem Passage.Spelled.shaped {p : Passage} (h : p.Spelled ts) : p.Shaped := by
  induction h with
  | block _ _ ih => exact ih
  | declare type' _ value => exact ⟨type'.written, value.shaped⟩
  | assign ref value' => exact ⟨ref.written, value'.shaped⟩
  | assignIndex ref assignable _ index' _ value' =>
    exact ⟨ref.written, assignable, index'.shaped, value'.shaped⟩
  | call ref args _ => exact ⟨ref.written, args.shaped⟩
  | ret | endStmts => trivial
  | retValue _ value _ => exact value.shaped
  | ifThen _ cond' _ ih => exact ⟨cond'.shaped, ih⟩
  | ifElse _ cond' _ closed _ _ ih ih' => exact ⟨cond'.shaped, ih, closed, ih'⟩
  | loop _ cond' _ ih => exact ⟨cond'.shaped, ih⟩
  | stmts _ _ ih ih' => exact ⟨ih, ih'⟩

theorem ParamDecl.Spelled.written {p : ParamDecl} (h : p.Spelled ts) : p.type.Written := by
  cases h with
  | mk type' word => exact type'.written

theorem ParamDecl.SpelledMore.written {ps : List ParamDecl} (h : ParamDecl.SpelledMore ps ts) :
    ∀ p ∈ ps, p.type.Written := by
  induction h with
  | done => simp
  | more _ next _ ih => exact List.forall_mem_cons.mpr ⟨next.written, ih⟩

theorem ParamDecl.SpelledAll.written {ps : List ParamDecl} (h : ParamDecl.SpelledAll ps ts) :
    ∀ p ∈ ps, p.type.Written := by
  cases h with
  | none => simp
  | some _ first rest => exact List.forall_mem_cons.mpr ⟨first.written, rest.written⟩

theorem Member.Spelled.shaped {m : Member} (h : Member.Spelled m ts) : Member.Shaped m := by
  cases h with
  | field _ _ type' _ _ => exact type'.written
  | method _ _ result' _ params' _ body' => exact ⟨result'.written, params'.written, body'.shaped⟩

theorem Member.SpelledAll.shaped {ms : List Member} (h : Member.SpelledAll ms ts) :
    ∀ m ∈ ms, Member.Shaped m := by
  induction h with
  | done => simp
  | more first _ ih => exact List.forall_mem_cons.mpr ⟨first.shaped, ih⟩

theorem ClassDecl.Spelled.shaped {c : ClassDecl} (h : c.Spelled ts) : c.Shaped := by
  cases h with
  | mk _ _ _ members =>
    have shaped := members.shaped
    constructor
    · intro f hf
      obtain ⟨m, hm, left⟩ := List.mem_filterMap.mp hf
      obtain rfl := Sum.getLeft?_eq_some_iff.mp left
      exact shaped _ hm
    · intro d hd
      obtain ⟨m, hm, right⟩ := List.mem_filterMap.mp hd
      obtain rfl := Sum.getRight?_eq_some_iff.mp right
      exact shaped _ hm

theorem ClassDecl.SpelledAll.shaped {cs : List ClassDecl} (h : ClassDecl.SpelledAll cs ts) :
    ∀ c ∈ cs, c.Shaped := by
  induction h with
  | done => simp
  | more first _ ih => exact List.forall_mem_cons.mpr ⟨first.shaped, ih⟩

/-- A program that is spelled by some tokens has the grammar's shape. -/
theorem Program.Spelled.shaped {p : Program} (h : p.Spelled ts) : p.Shaped := h.2.shaped

end Shaped

/-- The kinds of tokens. -/
def kinds (ts : List Token) : List TokenKind := ts.map Token.kind

@[simp] theorem kinds_nil : kinds [] = [] := rfl

@[simp] theorem kinds_cons (t : Token) (ts : List Token) :
    kinds (t :: ts) = t.kind :: kinds ts := rfl

@[simp] theorem kinds_append (ts us : List Token) : kinds (ts ++ us) = kinds ts ++ kinds us :=
  List.map_append

@[simp] theorem kinds_unplaced (ks : List TokenKind) : kinds (unplaced ks) = ks := by
  simp [kinds, unplaced, Function.comp_def]

theorem BinaryOp.print_of_binaryOp? {s : Symbol} {op : BinaryOp} (h : binaryOp? s = some op) :
    op.print = [.symbol s] := by
  cases s <;> cases h <;> rfl

/-- The spellings of a type. -/
theorem TypeExpr.Spelled.kinds_eq {t : TypeExpr} {ts : List Token} (h : t.Spelled ts) :
    kinds ts = t.print := by
  cases h with
  | int word | boolean word | named word => simp [print, word]
  | ints word left right | nameds word left right => simp [print, word, left, right]

theorem Reference.Spelled.kinds_eq {r : Reference} {ts : List Token} (h : r.Spelled ts) :
    kinds ts = r.print := by
  induction h with
  | this word | ident word => simp [print, word]
  | qualified _ dot word ih => simp [print, dot, word, ih]

namespace Phrase

def bare : Phrase → Phrase
  | expr least e => expr least e.bare
  | args es => args (Expr.bareAll es)
  | moreArgs es => moreArgs (Expr.bareAll es)

def print : Phrase → List TokenKind
  | expr least e => e.print least
  | args es => Expr.printArgs es
  | moreArgs es => Expr.printMore es

/-- The tokens that spell a part of an expression, up to positions. -/
def Spellings (p : Phrase) (ks : List TokenKind) : Prop := p.bare.Spelled (unplaced ks)

theorem spellings_print {p : Phrase} (h : p.Shaped) : p.Spellings p.print := by
  cases p with
  | expr least e => exact e.spelled_print h least
  | args es => exact Expr.spelled_printArgs es h
  | moreArgs es => exact Expr.spelled_printMore es h

/-- Parentheses are printed around the whole of an expression or not at all. -/
theorem print_eq_or {e : Expr} (h : e.Shaped) (least : Nat) :
    e.print least = e.print 1 ∨ e.print least = parenthesized (e.print 1) := by
  cases e with
  | binary op a b pos =>
    obtain ⟨s, words, known⟩ := BinaryOp.print_eq h.1
    have lowest : 1 ≤ op.precedence := (precedence_lt known).1
    by_cases le : least ≤ op.precedence
    · exact .inl (by simp [Expr.print, le, lowest])
    · exact .inr (by simp [Expr.print, le, lowest])
  | bool value pos => exact .inl (by cases value <;> rfl)
  | _ => exact .inl rfl

namespace Spelled

variable {p : Phrase} {ts : List Token}

/-- What is spelled as it is printed stays as it is. -/
theorem reduces_of_eq (h : p.Spelled ts) (same : kinds ts = p.print) :
    Reduces p.Spellings (kinds ts) p.print := by
  rw [same]
  exact .refl (spellings_print h.shaped)

theorem reduces (h : p.Spelled ts) : Reduces p.Spellings (kinds ts) p.print := by
  induction h with
  | int word => exact (int word).reduces_of_eq (by simp [Phrase.print, Expr.print, word])
  | true word => exact (true word).reduces_of_eq (by simp [Phrase.print, Expr.print, word])
  | false word => exact (false word).reduces_of_eq (by simp [Phrase.print, Expr.print, word])
  | null word => exact (null word).reduces_of_eq (by simp [Phrase.print, Expr.print, word])
  | @neg least e t ts op operand ih =>
    rw [kinds_cons, op]
    refine (ih.cons (.symbol .minus)).imp ?_
    rintro _ ⟨_, us, rfl, hu, rfl⟩
    exact .neg (t := ⟨_, 0, 0⟩) rfl hu
  | @not least e t ts op operand ih =>
    rw [kinds_cons, op]
    refine (ih.cons (.symbol .not)).imp ?_
    rintro _ ⟨_, us, rfl, hu, rfl⟩
    exact .not (t := ⟨_, 0, 0⟩) rfl hu
  | @binary least a b t s op us vs word known le left right ihl ihr =>
    have target : Phrase.print (.expr least (.binary op a b t.pos)) =
        a.print op.precedence ++ (.symbol s :: b.print (op.precedence + 1)) := by
      simp [Phrase.print, Expr.print, le, BinaryOp.print_of_binaryOp? known]
    rw [target, kinds_append, kinds_cons, word]
    refine (ihl.append (ihr.cons (.symbol s))).imp ?_
    rintro _ ⟨us, _, hu, ⟨_, vs, rfl, hv, rfl⟩, rfl⟩
    simpa [Spellings, Phrase.bare, Expr.bare]
      using binary (t := ⟨.symbol s, 0, 0⟩) rfl known le hu hv
  | @paren least e l r ts left inner right ih =>
    have outer :
        Reduces (Spellings (.expr least e)) ([.symbol .lparen] ++ (kinds ts ++ [.symbol .rparen]))
        ([.symbol .lparen] ++ (e.print 1 ++ [.symbol .rparen])) := by
      refine ih.within _ _ fun us hu => ?_
      simpa [Spellings, Phrase.bare, Expr.bare]
        using paren (l := ⟨_, 0, 0⟩) (r := ⟨_, 0, 0⟩) rfl hu rfl
    simp only [kinds_cons, kinds_append, kinds_nil, left, right]
    rcases print_eq_or inner.shaped least with same | same
    · -- the parentheses are not needed, and leaving them out is the last step
      have target := spellings_print (p := .expr least e) inner.shaped
      have drop := Drops.parens [] (e.print 1) []
      rw [List.append_nil] at drop
      refine outer.trans ⟨outer.finish, .single ⟨?_, target⟩⟩
      simpa [Phrase.print, same] using drop
    · simpa [Phrase.print, same, parenthesized] using outer
  | ref ref =>
    exact (Spelled.ref ref).reduces_of_eq (by simp [Phrase.print, Expr.print, ref.kinds_eq])
  | @index least r i us vs l t ref left index right ih =>
    have whole := (Reduces.words r.print).append ((ih.append (.words [.symbol .rbracket])).cons
      (.symbol .lbracket))
    simp only [kinds_append, kinds_cons, kinds_nil, ref.kinds_eq, left, right]
    refine whole.imp ?_
    rintro _ ⟨_, _, rfl, ⟨_, _, rfl, ⟨vs, _, hv, rfl, rfl⟩, rfl⟩, rfl⟩
    have spelled : (Phrase.expr least _).Spelled _ := .index (l := ⟨_, 0, 0⟩) (t := ⟨_, 0, 0⟩)
      (Reference.spelled_print ref.written) rfl hv rfl
    rw [Reference.bare_pos] at spelled
    simpa [Spellings, Phrase.bare, Expr.bare] using spelled
  | @call least r es us vs ref args ih =>
    simp only [kinds_append, ref.kinds_eq]
    refine ((Reduces.words r.print).append ih).imp ?_
    rintro _ ⟨_, vs, rfl, hv, rfl⟩
    have spelled : (Phrase.expr least _).Spelled _ := .call (Reference.spelled_print ref.written) hv
    rw [Reference.bare_pos] at spelled
    simpa [Spellings, Phrase.bare, Expr.bare] using spelled
  | newObject word cls left right =>
    refine (newObject word cls left right).reduces_of_eq ?_
    simp [Phrase.print, Expr.print, TypeExpr.print, word, cls, left, right]
  | @newArray least t n l r name size ts word cls left inner right ih =>
    have whole := (((ih.append (.words [.symbol .rbracket])).cons (.symbol .lbracket)).cons
      (.ident name)).cons (.keyword .newWord)
    simp only [kinds_append, kinds_cons, kinds_nil, word, cls, left, right]
    refine whole.imp ?_
    rintro _ ⟨_, _, rfl, ⟨_, _, rfl, ⟨_, _, rfl, ⟨us, _, hu, rfl, rfl⟩, rfl⟩, rfl⟩, rfl⟩
    have spelled : (Phrase.expr least _).Spelled _ :=
      .newArray (t := ⟨_, 0, 0⟩) (n := ⟨.ident name, 0, 0⟩)
        (l := ⟨_, 0, 0⟩) (r := ⟨_, 0, 0⟩) rfl rfl rfl hu rfl
    simpa [Spellings, Phrase.bare, Expr.bare, TypeExpr.bare, Identifier.bare] using spelled
  | @newInts least t n l r size ts word int left inner right ih =>
    have whole := (((ih.append (.words [.symbol .rbracket])).cons (.symbol .lbracket)).cons
      (.keyword .intWord)).cons (.keyword .newWord)
    simp only [kinds_append, kinds_cons, kinds_nil, word, int, left, right]
    refine whole.imp ?_
    rintro _ ⟨_, _, rfl, ⟨_, _, rfl, ⟨_, _, rfl, ⟨us, _, hu, rfl, rfl⟩, rfl⟩, rfl⟩, rfl⟩
    have spelled : (Phrase.expr least _).Spelled _ := .newInts (t := ⟨_, 0, 0⟩) (n := ⟨_, 0, 0⟩)
      (l := ⟨_, 0, 0⟩) (r := ⟨_, 0, 0⟩) rfl rfl rfl hu rfl
    simpa [Spellings, Phrase.bare, Expr.bare, TypeExpr.bare] using spelled
  | noArgs left right =>
    exact (noArgs left right).reduces_of_eq (by simp [Phrase.print, Expr.printArgs, left, right])
  | args left first more ih ih' =>
    simp only [kinds_append, kinds_cons, left]
    refine ((ih.append ih').cons (.symbol .lparen)).imp ?_
    rintro _ ⟨_, _, rfl, ⟨us, vs, hu, hv, rfl⟩, rfl⟩
    simpa [Spellings, Phrase.bare, Expr.bareAll] using args (l := ⟨_, 0, 0⟩) rfl hu hv
  | endArgs right =>
    exact (endArgs right).reduces_of_eq (by simp [Phrase.print, Expr.printMore, right])
  | moreArgs comma next more ih ih' =>
    simp only [kinds_append, kinds_cons, comma]
    refine ((ih.append ih').cons (.symbol .comma)).imp ?_
    rintro _ ⟨_, _, rfl, ⟨us, vs, hu, hv, rfl⟩, rfl⟩
    simpa [Spellings, Phrase.bare, Expr.bareAll] using moreArgs (c := ⟨_, 0, 0⟩) rfl hu hv

end Spelled

end Phrase

theorem Expr.SpelledValue.reduces {e : Expr} {ts : List Token} (h : e.SpelledValue ts) :
    Reduces (fun ks => e.bare.SpelledValue (unplaced ks)) (kinds ts) e.printValue := by
  obtain ⟨us, a, c, assign, h, semicolon, rfl⟩ := h
  have whole :=
    ((Phrase.Spelled.reduces h).append (.words [.symbol .semicolon])).cons (.symbol .assign)
  simp only [kinds_append, kinds_cons, kinds_nil, assign, semicolon]
  refine whole.imp ?_
  rintro _ ⟨_, _, rfl, ⟨us, _, hu, rfl, rfl⟩, rfl⟩
  exact ⟨unplaced us, ⟨_, 0, 0⟩, ⟨_, 0, 0⟩, rfl, hu, rfl, by simp⟩

theorem Expr.SpelledCondition.reduces {e : Expr} {ts : List Token} (h : e.SpelledCondition ts) :
    Reduces (fun ks => e.bare.SpelledCondition (unplaced ks)) (kinds ts)
      (parenthesized (e.print 1)) := by
  obtain ⟨us, l, r, left, h, right, rfl⟩ := h
  have whole :=
    ((Phrase.Spelled.reduces h).append (.words [.symbol .rparen])).cons (.symbol .lparen)
  simp only [kinds_append, kinds_cons, kinds_nil, left, right]
  refine whole.imp ?_
  rintro _ ⟨_, _, rfl, ⟨us, _, hu, rfl, rfl⟩, rfl⟩
  exact ⟨unplaced us, ⟨_, 0, 0⟩, ⟨_, 0, 0⟩, rfl, hu, rfl, by simp⟩

namespace Passage

def bare : Passage → Passage
  | stmt s => stmt s.bare
  | stmts ss => stmts (Stmt.bareAll ss)

def print : Passage → List TokenKind
  | stmt s => s.print
  | stmts ss => Stmt.printAll ss

/-- The tokens that spell a part of a body, up to positions. -/
def Spellings (p : Passage) (ks : List TokenKind) : Prop := p.bare.Spelled (unplaced ks)

theorem Spelled.reduces {p : Passage} {ts : List Token} (h : p.Spelled ts) :
    Reduces p.Spellings (kinds ts) p.print := by
  induction h with
  | block left _ ih =>
    rw [kinds_cons, left]
    refine (ih.cons (.symbol .lbrace)).imp ?_
    rintro _ ⟨_, us, rfl, hu, rfl⟩
    exact .block (l := ⟨_, 0, 0⟩) rfl hu
  | @declare type n name init us vs type' word value =>
    simp only [kinds_append, kinds_cons, type'.kinds_eq, word]
    refine ((Reduces.words type.print).append (value.reduces.cons (.ident name))).imp ?_
    rintro _ ⟨_, _, rfl, ⟨_, vs, rfl, hv, rfl⟩, rfl⟩
    have spelled := declare (n := ⟨.ident name, 0, 0⟩) (TypeExpr.spelled_print type'.written) rfl hv
    rw [TypeExpr.bare_pos] at spelled
    simpa [Spellings, Passage.bare, Stmt.bare, VarDecl.bare] using spelled
  | @assign r value us vs ref value' =>
    simp only [kinds_append, ref.kinds_eq]
    refine ((Reduces.words r.print).append value'.reduces).imp ?_
    rintro _ ⟨_, vs, rfl, hv, rfl⟩
    have spelled := assign (Reference.spelled_print ref.written) hv
    rw [Reference.bare_pos] at spelled
    simpa [Spellings, Passage.bare, Stmt.bare] using spelled
  | @assignIndex r index value l t us vs ws ref assignable left index' right value' =>
    have whole := (Reduces.words r.print).append (((Phrase.Spelled.reduces index').append
      (value'.reduces.cons (.symbol .rbracket))).cons (.symbol .lbracket))
    simp only [kinds_append, kinds_cons, ref.kinds_eq, left, right]
    refine whole.imp ?_
    rintro _ ⟨_, _, rfl, ⟨_, _, rfl, ⟨vs, _, hv, ⟨_, ws, rfl, hw, rfl⟩, rfl⟩, rfl⟩, rfl⟩
    have spelled :=
      assignIndex (l := ⟨_, 0, 0⟩) (t := ⟨_, 0, 0⟩) (Reference.spelled_print ref.written)
        (Reference.assignable_bare.mpr assignable) rfl hv rfl hw
    rw [Reference.bare_pos] at spelled
    simpa [Spellings, Passage.bare, Stmt.bare] using spelled
  | @call r es us vs c ref args semicolon =>
    simp only [kinds_append, kinds_cons, kinds_nil, ref.kinds_eq, semicolon]
    refine ((Reduces.words r.print).append (args.reduces.append (.words [.symbol .semicolon]))).imp
      ?_
    rintro _ ⟨_, _, rfl, ⟨vs, _, hv, rfl, rfl⟩, rfl⟩
    have spelled := call (c := ⟨_, 0, 0⟩) (Reference.spelled_print ref.written) hv rfl
    rw [Reference.bare_pos] at spelled
    simpa [Spellings, Passage.bare, Stmt.bare] using spelled
  | ret word semicolon =>
    simp only [kinds_cons, kinds_nil, word, semicolon]
    exact .refl (ret (t := ⟨_, 0, 0⟩) (c := ⟨_, 0, 0⟩) rfl rfl)
  | retValue word value semicolon =>
    have whole := ((Phrase.Spelled.reduces value).append (.words [.symbol .semicolon])).cons
      (.keyword .returnWord)
    simp only [kinds_append, kinds_cons, kinds_nil, word, semicolon]
    refine whole.imp ?_
    rintro _ ⟨_, _, rfl, ⟨us, _, hu, rfl, rfl⟩, rfl⟩
    simpa [Spellings, Passage.bare, Stmt.bare] using
      retValue (t := ⟨_, 0, 0⟩) (c := ⟨_, 0, 0⟩) rfl hu rfl
  | ifThen word cond' _ ih =>
    simp only [kinds_append, kinds_cons, word]
    refine ((cond'.reduces.append ih).cons (.keyword .ifWord)).imp ?_
    rintro _ ⟨_, _, rfl, ⟨us, vs, hu, hv, rfl⟩, rfl⟩
    simpa [Spellings, Passage.bare, Stmt.bare] using ifThen (t := ⟨_, 0, 0⟩) rfl hu hv
  | @ifElse t o cond body other us vs ws word cond' _ closed word' _ ih ih' =>
    have whole :=
      (cond'.reduces.append (ih.append (ih'.cons (.keyword .elseWord)))).cons (.keyword .ifWord)
    simp only [kinds_append, kinds_cons, word, word']
    refine whole.imp ?_
    rintro _ ⟨_, _, rfl, ⟨us, _, hu, ⟨vs, _, hv, ⟨_, ws, rfl, hw, rfl⟩, rfl⟩, rfl⟩, rfl⟩
    simpa [Spellings, Passage.bare, Stmt.bare]
      using ifElse (t := ⟨_, 0, 0⟩) (o := ⟨_, 0, 0⟩) rfl hu hv
      (fun still => closed ((Stmt.open_bare body).mp still)) rfl hw
  | loop word cond' _ ih =>
    simp only [kinds_append, kinds_cons, word]
    refine ((cond'.reduces.append ih).cons (.keyword .whileWord)).imp ?_
    rintro _ ⟨_, _, rfl, ⟨us, vs, hu, hv, rfl⟩, rfl⟩
    simpa [Spellings, Passage.bare, Stmt.bare] using loop (t := ⟨_, 0, 0⟩) rfl hu hv
  | endStmts right =>
    simp only [kinds_cons, kinds_nil, right]
    exact .refl (endStmts (r := ⟨_, 0, 0⟩) rfl)
  | stmts _ _ ih ih' =>
    rw [kinds_append]
    refine (ih.append ih').imp ?_
    rintro _ ⟨us, vs, hu, hv, rfl⟩
    simpa [Spellings, Passage.bare, Stmt.bareAll] using stmts hu hv

end Passage

theorem ParamDecl.Spelled.kinds_eq {p : ParamDecl} {ts : List Token} (h : p.Spelled ts) :
    kinds ts = p.print := by
  cases h with
  | mk type' word => simp [print, type'.kinds_eq, word]

theorem ParamDecl.SpelledMore.kinds_eq {ps : List ParamDecl} {ts : List Token}
    (h : ParamDecl.SpelledMore ps ts) : kinds ts = ParamDecl.printMore ps := by
  induction h with
  | done right => simp [printMore, right]
  | more comma next _ ih => simp [printMore, comma, next.kinds_eq, ih]

theorem ParamDecl.SpelledAll.kinds_eq {ps : List ParamDecl} {ts : List Token}
    (h : ParamDecl.SpelledAll ps ts) : kinds ts = ParamDecl.printAll ps := by
  cases h with
  | none left right => simp [printAll, left, right]
  | some left first rest => simp [printAll, left, first.kinds_eq, rest.kinds_eq]

theorem TypeExpr.SpelledResult.kinds_eq {t : TypeExpr} {ts : List Token} (h : t.SpelledResult ts) :
    kinds ts = t.print := by
  cases h with
  | type type' => exact type'.kinds_eq
  | void word => simp [print, word]

theorem SpelledAccess.kinds_eq {isStatic : Bool} {ts : List Token} (h : SpelledAccess isStatic ts) :
    kinds ts = printAccess isStatic := by
  cases h with
  | default => rfl
  | isStatic word => simp [printAccess, word]

theorem SpelledVisibility.reduces {isPrivate : Bool} {ts : List Token}
    (h : SpelledVisibility isPrivate ts) :
    Reduces (fun ks => SpelledVisibility isPrivate (unplaced ks)) (kinds ts)
      (printVisibility isPrivate) := by
  cases h with
  | default => exact .refl .default
  | @isPublic t word =>
    have drop := Drops.isPublic [] []
    rw [kinds_cons, word]
    exact ⟨.isPublic (t := ⟨_, 0, 0⟩) rfl, .single ⟨drop, .default⟩⟩
  | isPrivate word =>
    rw [kinds_cons, word]
    exact .refl (.isPrivate (t := ⟨_, 0, 0⟩) rfl)

namespace Member

theorem Spelled.reduces {m : Member} {ts : List Token} (h : Member.Spelled m ts) :
    Reduces (fun ks => Member.Spelled (Member.bare m) (unplaced ks)) (kinds ts)
      (Member.print m) := by
  cases h with
  | @field isPrivate isStatic type n c name us vs ws visibility access type' word semicolon =>
    have whole := visibility.reduces.append
      (.words (printAccess isStatic ++ (type.print ++ [.ident name, .symbol .semicolon])))
    simp only [kinds_append, kinds_cons, kinds_nil, access.kinds_eq,
      type'.kinds_eq, word, semicolon]
    refine whole.imp ?_
    rintro _ ⟨us, _, hu, rfl, rfl⟩
    have spelled := Spelled.field (n := ⟨.ident name, 0, 0⟩) (c := ⟨_, 0, 0⟩) hu
      (spelled_printAccess isStatic) (TypeExpr.spelled_print type'.written) rfl rfl
    simpa [bare, FieldDecl.bare] using spelled
  | @method isPrivate isStatic result n l name params body us vs ws xs ys visibility access result'
      word params' left body' =>
    have whole := visibility.reduces.append
      ((Reduces.words (printAccess isStatic ++ (result.print ++ .ident name ::
        (ParamDecl.printAll params ++ [.symbol .lbrace])))).append (Passage.Spelled.reduces body'))
    have target : kinds (us ++ (vs ++ (ws ++ n :: (xs ++ l :: ys)))) = kinds us ++
        ((printAccess isStatic ++ (result.print ++ .ident name ::
          (ParamDecl.printAll params ++ [.symbol .lbrace]))) ++ kinds ys) := by
      simp [access.kinds_eq, result'.kinds_eq, params'.kinds_eq, word, left]
    have printed : Member.print (.inr ⟨⟨name, result, isPrivate, isStatic, params, n.pos⟩, body⟩) =
        printVisibility isPrivate ++ ((printAccess isStatic ++ (result.print ++ .ident name ::
          (ParamDecl.printAll params ++ [.symbol .lbrace]))) ++ Passage.print (.stmts body)) := by
      simp [print, Passage.print]
    rw [target, printed]
    refine whole.imp ?_
    rintro _ ⟨us, _, hu, ⟨_, ys, rfl, hy, rfl⟩, rfl⟩
    have spelled := Spelled.method (n := ⟨.ident name, 0, 0⟩) (l := ⟨_, 0, 0⟩) hu
      (spelled_printAccess isStatic) (TypeExpr.spelledResult_print result'.written) rfl
      (ParamDecl.spelled_printAll params'.written) rfl hy
    simpa [bare, MethodDecl.bare, MethodHead.bare] using spelled

theorem SpelledAll.reduces {ms : List Member} {ts : List Token} (h : Member.SpelledAll ms ts) :
    Reduces (fun ks => Member.SpelledAll (ms.map Member.bare) (unplaced ks)) (kinds ts)
      (Member.printAll ms) := by
  induction h with
  | done right =>
    rw [kinds_cons, right]
    exact .refl (.done (r := ⟨_, 0, 0⟩) rfl)
  | more first _ ih =>
    rw [kinds_append]
    refine (first.reduces.append ih).imp ?_
    rintro _ ⟨us, vs, hu, hv, rfl⟩
    simpa using SpelledAll.more hu hv

/-- A member's position is that of one of its tokens. -/
theorem Spelled.pos_mem {m : Member} {ts : List Token} (h : Member.Spelled m ts) :
    Member.pos m ∈ ts.map Token.pos := by
  cases h with
  | field => simp [pos]
  | method => simp [pos]

theorem SpelledAll.pos_mem {ms : List Member} {ts : List Token} (h : Member.SpelledAll ms ts) :
    ∀ m ∈ ms, Member.pos m ∈ ts.map Token.pos := by
  induction h with
  | done => simp
  | more first _ ih =>
    intro m hm
    rw [List.map_append, List.mem_append]
    rcases List.mem_cons.mp hm with rfl | later
    · exact .inl first.pos_mem
    · exact .inr (ih m later)

/-- Members whose tokens are in order are so themselves. -/
theorem SpelledAll.sorted {ms : List Member} {ts : List Token} (h : Member.SpelledAll ms ts)
    (sorted : (ts.map Token.pos).Pairwise (· < ·)) :
    ms.Pairwise fun m m' => Member.pos m < Member.pos m' := by
  induction h with
  | done => exact .nil
  | more first rest ih =>
    rw [List.map_append, List.pairwise_append] at sorted
    obtain ⟨-, later, before⟩ := sorted
    exact .cons (fun m' hm' => before _ first.pos_mem _ (rest.pos_mem m' hm')) (ih later)

end Member

/-- Members that are in order are found in it again. -/
theorem ClassDecl.inOrder_ofMembers (name : String) {ms : List Member} (pos : Nat)
    (sorted : ms.Pairwise fun m m' => Member.pos m < Member.pos m') :
    (ClassDecl.ofMembers name ms pos).inOrder = ms := by
  simp only [inOrder, ofMembers]
  induction ms with
  | nil => simp
  | cons m ms ih =>
    obtain ⟨first, rest⟩ := List.pairwise_cons.mp sorted
    have ih := ih rest
    cases m with
    | inl f =>
      have fields : (.inl f :: ms : List Member).filterMap Sum.getLeft? =
          f :: ms.filterMap Sum.getLeft? := rfl
      have methods :
          (.inl f :: ms : List Member).filterMap Sum.getRight? = ms.filterMap Sum.getRight? := rfl
      rw [fields, methods, List.map_cons]
      cases later : ms.filterMap Sum.getRight? with
      | nil =>
        rw [later, List.map_nil, List.merge_right] at ih
        rw [List.map_nil, List.merge_right, ih]
      | cons d ds =>
        obtain ⟨m', hm', found⟩ := List.mem_filterMap.mp (later ▸ List.mem_cons_self ..)
        obtain rfl := Sum.getRight?_eq_some_iff.mp found
        rw [later, List.map_cons] at ih
        have le : Member.pos (.inl f) ≤ Member.pos (.inr d) := Nat.le_of_lt (first _ hm')
        rw [List.map_cons, List.cons_merge_cons, if_pos (by simpa using le), ih]
    | inr d =>
      have fields :
          (.inr d :: ms : List Member).filterMap Sum.getLeft? = ms.filterMap Sum.getLeft? := rfl
      have methods : (.inr d :: ms : List Member).filterMap Sum.getRight? =
          d :: ms.filterMap Sum.getRight? := rfl
      rw [fields, methods, List.map_cons]
      cases later : ms.filterMap Sum.getLeft? with
      | nil =>
        rw [later, List.map_nil, List.nil_merge] at ih
        rw [List.map_nil, List.nil_merge, ih]
      | cons f fs =>
        obtain ⟨m', hm', found⟩ := List.mem_filterMap.mp (later ▸ List.mem_cons_self ..)
        obtain rfl := Sum.getLeft?_eq_some_iff.mp found
        rw [later, List.map_cons] at ih
        have lt : Member.pos (.inr d) < Member.pos (.inl f) := first _ hm'
        rw [List.map_cons, List.cons_merge_cons, if_neg (by simpa using lt), ih]

namespace ClassDecl

theorem Spelled.reduces {c : ClassDecl} {ts : List Token} (h : c.Spelled ts)
    (sorted : (ts.map Token.pos).Pairwise (· < ·)) :
    Reduces (fun ks => c.bare.Spelled (unplaced ks)) (kinds ts) c.print := by
  cases h with
  | @mk t n l name ms ts word cls left members =>
    have order : (ClassDecl.ofMembers name ms n.pos).inOrder = ms := by
      refine inOrder_ofMembers name n.pos (members.sorted ?_)
      simpa using (((List.pairwise_cons.mp sorted).2).of_cons).of_cons
    have whole :=
      ((members.reduces.cons (.symbol .lbrace)).cons (.ident name)).cons (.keyword .classWord)
    simp only [kinds_cons, word, cls, left]
    rw [print, bare_eq, order]
    refine whole.imp ?_
    rintro _ ⟨_, _, rfl, ⟨_, _, rfl, ⟨_, ks, rfl, hk, rfl⟩, rfl⟩, rfl⟩
    exact .mk (t := ⟨_, 0, 0⟩) (n := ⟨_, 0, 0⟩) (l := ⟨_, 0, 0⟩) rfl rfl rfl hk

theorem SpelledAll.reduces {cs : List ClassDecl} {ts : List Token} (h : ClassDecl.SpelledAll cs ts)
    (sorted : (ts.map Token.pos).Pairwise (· < ·)) :
    Reduces (fun ks => ClassDecl.SpelledAll (cs.map bare) (unplaced ks)) (kinds ts)
      (ClassDecl.printAll cs) := by
  induction h with
  | done => exact .refl .done
  | more first _ ih =>
    rw [List.map_append, List.pairwise_append] at sorted
    rw [kinds_append]
    refine ((first.reduces sorted.1).append (ih sorted.2.1)).imp ?_
    rintro _ ⟨us, vs, hu, hv, rfl⟩
    simpa using SpelledAll.more hu hv

end ClassDecl

/-- Every spelling of a program becomes the printed one, when the tokens stand in order. -/
theorem Program.Spelled.reduces {p : Program} {ts : List Token} (h : p.Spelled ts)
    (sorted : (ts.map Token.pos).Pairwise (· < ·)) :
    Reduces (fun ks => p.bare.Spelled (unplaced ks)) (kinds ts) p.print :=
  (h.2.reduces sorted).imp fun _ hk => ⟨rfl, hk⟩

end JamCompiler
