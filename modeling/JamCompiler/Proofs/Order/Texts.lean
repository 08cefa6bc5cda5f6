import JamCompiler.Proofs.Language
import JamCompiler.Proofs.Order.Moving
import Mathlib.Data.List.Perm.Basic

/-!
# Texts of classes

Texts that are read by themselves are read the same when they are put together, each on lines of its
own: a line feed ends whatever piece stands before it, so a scan goes on after it as it would begin,
only further down. Texts of one class each thus give a program of these classes, each of them moved
by the length of the texts before it.
-/

namespace JamCompiler

open Piece (commentRest symbol?)

/-- Texts put together, each ended by a line feed. -/
def Text.unlines (texts : List (List Char)) : List Char := texts.flatMap (· ++ ['\n'])

namespace Piece

variable {c : Char} {cs : List Char} (rest : List Char)

/-- Whether a piece is no fault and ends within so many characters. -/
def EndsWithin (n : Nat) : Piece → Prop
  | blank length => length ≤ n
  | token _ length => length ≤ n
  | fault _ => False

theorem takeWhile_newline {p : Char → Bool} (stop : p '\n' = false) (cs : List Char) :
    (cs ++ '\n' :: rest).takeWhile p = cs.takeWhile p := by
  induction cs with
  | nil => exact List.takeWhile_cons_of_neg (by simp [stop])
  | cons c cs ih => rw [List.cons_append, List.takeWhile_cons, List.takeWhile_cons, ih]

theorem commentRest_append {n : Nat} (h : commentRest cs = some n) :
    commentRest (cs ++ rest) = some n ∧ n ≤ cs.length := by
  induction cs using commentRest.induct generalizing n with
  | case1 => cases h
  | case2 tail =>
    cases h
    exact ⟨rfl, by simp⟩
  | case3 c tail other ih =>
    rw [commentRest.eq_3 _ _ other] at h
    obtain ⟨m, found, rfl⟩ := Option.map_eq_some_iff.mp h
    obtain ⟨same, short⟩ := ih found
    refine ⟨?_, by simpa using short⟩
    have other' : ∀ after, c = '*' → tail ++ rest = '/' :: after → False := by
      intro after star meet
      cases tail with
      | nil => cases found
      | cons d tail => exact other tail star (by rw [(List.cons.inj meet).1])
    rw [List.cons_append, commentRest.eq_3 _ _ other', same]
    rfl

theorem slash_newline (h : ∀ f, slash cs ≠ .fault f) :
    slash (cs ++ '\n' :: rest) = slash cs ∧ (slash cs).EndsWithin (cs.length + 1) := by
  cases cs with
  | nil => exact ⟨rfl, Nat.le_refl 1⟩
  | cons d cs =>
    by_cases line : d = '/'
    · subst line
      rw [List.cons_append, slash_line, slash_line, takeWhile_newline rest (by decide)]
      exact ⟨rfl, Nat.add_le_add_right (List.takeWhile_sublist _).length_le 2⟩
    by_cases block : d = '*'
    · subst block
      rw [slash_block] at h
      cases ended : commentRest cs with
      | none => rw [ended] at h; exact absurd rfl (h _)
      | some n =>
        obtain ⟨same, short⟩ := commentRest_append ('\n' :: rest) ended
        rw [List.cons_append, slash_block, slash_block, same, ended]
        exact ⟨rfl, Nat.add_le_add_right short 2⟩
    · rw [List.cons_append, slash_other line block, slash_other line block]
      exact ⟨rfl, Nat.le_add_left 1 _⟩

theorem number_newline (h : ∀ f, number c cs ≠ .fault f) :
    number c (cs ++ '\n' :: rest) = number c cs ∧ (number c cs).EndsWithin (cs.length + 1) := by
  simp only [number, takeWhile_newline rest (p := Text.isDigit) (by decide)] at h ⊢
  refine ⟨trivial, ?_⟩
  split
  · exact Nat.add_le_add_right (List.takeWhile_sublist _).length_le 1
  · rename_i long
    rw [if_neg long] at h
    exact absurd rfl (h _)

theorem word_newline :
    word c (cs ++ '\n' :: rest) = word c cs ∧ (word c cs).EndsWithin (cs.length + 1) := by
  simp only [word, takeWhile_newline rest (p := isWordPart) (by decide)]
  refine ⟨trivial, ?_⟩
  split <;> exact Nat.add_le_add_right (List.takeWhile_sublist _).length_le 1

/-- A symbol does not hang on more than the next character, and none goes on with a line feed. -/
theorem symbol?_newline : symbol? c (cs ++ '\n' :: rest) = symbol? c cs := by
  cases cs with
  | nil =>
    unfold symbol?
    split <;> simp_all
  | cons d cs =>
    unfold symbol?
    split <;> simp_all

theorem symbol?_length {s : Symbol} {n : Nat} (h : symbol? c cs = some (s, n)) :
    n ≤ cs.length + 1 := by
  unfold symbol? at h
  split at h <;> cases h <;> simp

/-- A piece that is no fault is the same when a line feed and more come after it. -/
theorem first_newline (h : ∀ f, first c cs ≠ .fault f) :
    first c (cs ++ '\n' :: rest) = first c cs ∧ (first c cs).EndsWithin (cs.length + 1) := by
  unfold first at h ⊢
  split
  · exact ⟨rfl, Nat.le_add_left 1 _⟩
  rename_i noBlank
  rw [if_neg noBlank] at h
  split
  · rename_i isSlash
    rw [if_pos isSlash] at h
    exact slash_newline rest h
  rename_i noSlash
  rw [if_neg noSlash] at h
  split
  · rename_i isDigit
    rw [if_pos isDigit] at h
    exact number_newline rest h
  rename_i noDigit
  rw [if_neg noDigit] at h
  split
  · exact word_newline rest
  rename_i noWord
  rw [if_neg noWord] at h
  rw [symbol?_newline]
  refine ⟨rfl, ?_⟩
  split
  · rename_i found
    exact symbol?_length found
  · rename_i found
    simp only [found] at h
    exact absurd rfl (h _)

end Piece

def Token.shift (n l : Nat) (t : Token) : Token := ⟨t.kind, t.pos + n, t.line + l⟩

theorem Token.kept {n l : Nat} {t : Token} {k : TokenKind} (h : t.kind = k) :
    (t.shift n l).kind = k := h

namespace Scan

/-- A scan that goes on after one without fault. -/
def append (scan next : Scan) : Scan := ⟨scan.tokens ++ next.tokens, next.fault, next.line⟩

def shift (n l : Nat) (scan : Scan) : Scan where
  tokens := scan.tokens.map (·.shift n l)
  fault := scan.fault.map fun fault => (fault.1, fault.2 + n)
  line := scan.line + l

/-- After a line feed a scan goes on as if it began there. -/
theorem ofTextFrom_newline (text rest : List Char) {pos line skip : Nat}
    (within : skip ≤ text.length) (whole : (ofTextFrom pos line skip text).fault = none) :
    ofTextFrom pos line skip (text ++ '\n' :: rest) = (ofTextFrom pos line skip text).append
      (ofTextFrom (pos + text.length + 1) ((ofTextFrom pos line skip text).line + 1) 0 rest) := by
  induction text generalizing pos line skip with
  | nil =>
    obtain rfl := Nat.le_zero.mp within
    rfl
  | cons c cs ih =>
    have further : pos + (c :: cs).length + 1 = pos + 1 + cs.length + 1 := by
      rw [List.length_cons]
      omega
    rw [further]
    cases skip with
    | succ skip => exact ih (Nat.le_of_succ_le_succ within) whole
    | zero =>
      have noFault : ∀ f, Piece.first c cs ≠ .fault f := by
        intro f same
        simp [ofTextFrom, same] at whole
      obtain ⟨same, ends⟩ := Piece.first_newline rest noFault
      simp only [List.cons_append, ofTextFrom, same] at whole ⊢
      cases piece : Piece.first c cs with
      | fault f => exact absurd piece (noFault f)
      | blank n =>
        rw [piece] at ends
        simp only [piece] at whole
        exact ih (Nat.sub_le_of_le_add ends) whole
      | token k n =>
        rw [piece] at ends
        simp only [piece] at whole
        simp only [ih (Nat.sub_le_of_le_add ends) whole]
        rfl

theorem ofTextFrom_shift (text : List Char) (n l pos line skip : Nat) :
    ofTextFrom (pos + n) (line + l) skip text = (ofTextFrom pos line skip text).shift n l := by
  induction text generalizing pos line skip with
  | nil => rfl
  | cons c cs ih =>
    have later : (if c = '\n' then line + l + 1 else line + l) =
        (if c = '\n' then line + 1 else line) + l := by
      split <;> omega
    cases skip with
    | succ skip => simp only [ofTextFrom, later, Nat.add_right_comm pos n, ih]
    | zero =>
      simp only [ofTextFrom, later, Nat.add_right_comm pos n, ih]
      cases Piece.first c cs <;> rfl

end Scan

section Spelled

open Token (kept)

variable {n : Nat} (l : Nat) {ts : List Token}

theorem TypeExpr.pos_shift (t : TypeExpr) : (t.shift n).pos = t.pos + n := by cases t <;> rfl

theorem Reference.pos_shift (r : Reference) : (r.shift n).pos = r.pos + n := by cases r <;> rfl

theorem TypeExpr.Spelled.shift {t : TypeExpr} (h : t.Spelled ts) :
    (t.shift n).Spelled (ts.map (·.shift n l)) := by
  cases h with
  | int word => exact .int (kept word)
  | boolean word => exact .boolean (kept word)
  | named word => exact .named (kept word)
  | ints word left right => exact .ints (kept word) (kept left) (kept right)
  | nameds word left right => exact .nameds (kept word) (kept left) (kept right)

theorem Reference.Spelled.shift {r : Reference} (h : r.Spelled ts) :
    (r.shift n).Spelled (ts.map (·.shift n l)) := by
  induction h with
  | this word => exact .this (kept word)
  | ident word => exact .ident (kept word)
  | qualified _ dot word ih =>
    rw [Reference.shift, ← Reference.pos_shift, List.map_append]
    exact .qualified ih (kept dot) (kept word)

def Phrase.shift (n : Nat) : Phrase → Phrase
  | expr least e => expr least (e.shift n)
  | args es => args (Expr.shiftAll n es)
  | moreArgs es => moreArgs (Expr.shiftAll n es)

theorem Phrase.Spelled.shift {f : Phrase} (h : f.Spelled ts) :
    (f.shift n).Spelled (ts.map (·.shift n l)) := by
  induction h with
  | int word => exact .int (kept word)
  | true word => exact .true (kept word)
  | false word => exact .false (kept word)
  | null word => exact .null (kept word)
  | neg op _ ih => exact .neg (kept op) ih
  | not op _ ih => exact .not (kept op) ih
  | binary word known level _ _ first second =>
    rw [List.map_append]
    exact .binary (kept word) known level first second
  | paren left _ right ih =>
    rw [List.map_cons, List.map_append]
    exact .paren (kept left) ih (kept right)
  | ref ref =>
    rw [Phrase.shift, Expr.shift, ← Reference.pos_shift]
    exact .ref (ref.shift l)
  | index ref left _ right ih =>
    rw [Phrase.shift, Expr.shift, ← Reference.pos_shift, List.map_append,
      List.map_cons, List.map_append]
    exact .index (ref.shift l) (kept left) ih (kept right)
  | call ref _ ih =>
    rw [Phrase.shift, Expr.shift, ← Reference.pos_shift, List.map_append]
    exact .call (ref.shift l) ih
  | newObject word cls left right =>
    exact .newObject (kept word) (kept cls) (kept left) (kept right)
  | newArray word cls left _ right ih =>
    rw [List.map_cons, List.map_cons, List.map_cons, List.map_append]
    exact .newArray (kept word) (kept cls) (kept left) ih (kept right)
  | newInts word int left _ right ih =>
    rw [List.map_cons, List.map_cons, List.map_cons, List.map_append]
    exact .newInts (kept word) (kept int) (kept left) ih (kept right)
  | noArgs left right => exact .noArgs (kept left) (kept right)
  | args left _ _ first more =>
    rw [List.map_cons, List.map_append]
    exact .args (kept left) first more
  | endArgs right => exact .endArgs (kept right)
  | moreArgs comma _ _ next more =>
    rw [List.map_cons, List.map_append]
    exact .moreArgs (kept comma) next more

theorem Expr.SpelledValue.shift {e : Expr} (h : e.SpelledValue ts) :
    (e.shift n).SpelledValue (ts.map (·.shift n l)) := by
  obtain ⟨us, a, c, assign, value, semicolon, rfl⟩ := h
  exact ⟨_, a.shift n l, c.shift n l, assign, value.shift l, semicolon, by simp⟩

theorem Expr.SpelledCondition.shift {e : Expr} (h : e.SpelledCondition ts) :
    (e.shift n).SpelledCondition (ts.map (·.shift n l)) := by
  obtain ⟨us, a, c, left, cond, right, rfl⟩ := h
  exact ⟨_, a.shift n l, c.shift n l, left, cond.shift l, right, by simp⟩

theorem Stmt.open_shift (s : Stmt) : (s.shift n).Open ↔ s.Open := by
  match s with
  | .ifElse _ _ other _ => exact other.open_shift
  | .loop _ body _ => exact body.open_shift
  | .ret none _ | .ret (some _) _ => exact Iff.rfl
  | .block .. | .declare .. | .assign .. | .assignIndex .. | .call .. | .ifThen .. | .unknown .. =>
    exact Iff.rfl

theorem Reference.assignable_shift (r : Reference) : (r.shift n).Assignable ↔ r.Assignable := by
  cases r <;> exact Iff.rfl

def Passage.shift (n : Nat) : Passage → Passage
  | stmt s => stmt (s.shift n)
  | stmts ss => stmts (Stmt.shiftAll n ss)

theorem Passage.Spelled.shift {f : Passage} (h : f.Spelled ts) :
    (f.shift n).Spelled (ts.map (·.shift n l)) := by
  induction h with
  | block left _ ih => exact .block (kept left) ih
  | declare type word value =>
    rw [Passage.shift, Stmt.shift, ← TypeExpr.pos_shift, List.map_append]
    exact .declare (type.shift l) (kept word) (value.shift l)
  | assign ref value =>
    rw [Passage.shift, Stmt.shift, ← Reference.pos_shift, List.map_append]
    exact .assign (ref.shift l) (value.shift l)
  | assignIndex ref assignable left index right value =>
    rw [Passage.shift, Stmt.shift, ← Reference.pos_shift, List.map_append,
      List.map_cons, List.map_append]
    exact .assignIndex (ref.shift l) ((Reference.assignable_shift _).mpr assignable)
      (kept left) (index.shift l)
      (kept right) (value.shift l)
  | call ref args semicolon =>
    rw [Passage.shift, Stmt.shift, ← Reference.pos_shift, List.map_append, List.map_append]
    exact .call (ref.shift l) (args.shift l) (kept semicolon)
  | ret word semicolon => exact .ret (kept word) (kept semicolon)
  | retValue word value semicolon =>
    rw [List.map_cons, List.map_append]
    exact .retValue (kept word) (value.shift l) (kept semicolon)
  | ifThen word cond _ ih =>
    rw [List.map_cons, List.map_append]
    exact .ifThen (kept word) (cond.shift l) ih
  | ifElse word cond _ closed word' _ body other =>
    rw [List.map_cons, List.map_append, List.map_append]
    exact .ifElse (kept word) (cond.shift l) body
      (fun h => closed ((Stmt.open_shift _).mp h)) (kept word') other
  | loop word cond _ ih =>
    rw [List.map_cons, List.map_append]
    exact .loop (kept word) (cond.shift l) ih
  | endStmts right => exact .endStmts (kept right)
  | stmts _ _ first more =>
    rw [List.map_append]
    exact .stmts first more

theorem ParamDecl.Spelled.shift {p : ParamDecl} (h : p.Spelled ts) :
    (p.shift n).Spelled (ts.map (·.shift n l)) := by
  cases h with
  | mk type word =>
    rw [List.map_append]
    exact .mk (type.shift l) (kept word)

theorem ParamDecl.SpelledMore.shift {ps : List ParamDecl} (h : ParamDecl.SpelledMore ps ts) :
    ParamDecl.SpelledMore (ps.map (·.shift n)) (ts.map (·.shift n l)) := by
  induction h with
  | done right => exact .done (kept right)
  | more comma next _ ih =>
    rw [List.map_cons, List.map_cons, List.map_append]
    exact .more (kept comma) (next.shift l) ih

theorem ParamDecl.SpelledAll.shift {ps : List ParamDecl} (h : ParamDecl.SpelledAll ps ts) :
    ParamDecl.SpelledAll (ps.map (·.shift n)) (ts.map (·.shift n l)) := by
  cases h with
  | none left right => exact .none (kept left) (kept right)
  | some left first rest =>
    rw [List.map_cons, List.map_cons, List.map_append]
    exact .some (kept left) (first.shift l) (rest.shift l)

theorem SpelledVisibility.shift {isPrivate : Bool} (h : SpelledVisibility isPrivate ts) :
    SpelledVisibility isPrivate (ts.map (·.shift n l)) := by
  cases h with
  | default => exact .default
  | isPublic word => exact .isPublic (kept word)
  | isPrivate word => exact .isPrivate (kept word)

theorem SpelledAccess.shift {isStatic : Bool} (h : SpelledAccess isStatic ts) :
    SpelledAccess isStatic (ts.map (·.shift n l)) := by
  cases h with
  | default => exact .default
  | isStatic word => exact .isStatic (kept word)

theorem TypeExpr.SpelledResult.shift {t : TypeExpr} (h : t.SpelledResult ts) :
    (t.shift n).SpelledResult (ts.map (·.shift n l)) := by
  cases h with
  | type type' => exact .type (type'.shift l)
  | void word => exact .void (kept word)

def Member.shift (n : Nat) : Member → Member := Sum.map (·.shift n) (·.shift n)

theorem Member.Spelled.shift {m : Member} (h : m.Spelled ts) :
    (m.shift n).Spelled (ts.map (·.shift n l)) := by
  cases h with
  | field visibility access type word semicolon =>
    rw [List.map_append, List.map_append, List.map_append]
    exact .field (visibility.shift l) (access.shift l) (type.shift l) (kept word) (kept semicolon)
  | method visibility access result word params left body =>
    rw [List.map_append, List.map_append, List.map_append, List.map_cons, List.map_append]
    exact .method (visibility.shift l) (access.shift l) (result.shift l) (kept word)
      (params.shift l) (kept left)
      (body.shift l)

theorem Member.SpelledAll.shift {ms : List Member} (h : Member.SpelledAll ms ts) :
    Member.SpelledAll (ms.map (·.shift n)) (ts.map (·.shift n l)) := by
  induction h with
  | done right => exact .done (kept right)
  | more first _ ih =>
    rw [List.map_cons, List.map_append]
    exact .more (first.shift l) ih

theorem ClassDecl.shift_ofMembers (name : String) (ms : List Member) (pos : Nat) :
    (ofMembers name ms pos).shift n = ofMembers name (ms.map (·.shift n)) (pos + n) := by
  have fields : (ms.map (·.shift n)).filterMap Sum.getLeft? =
      (ms.filterMap Sum.getLeft?).map (·.shift n) := by
    rw [List.filterMap_map, List.map_filterMap]
    exact List.filterMap_congr fun m _ => by cases m <;> rfl
  have methods : (ms.map (·.shift n)).filterMap Sum.getRight? =
      (ms.filterMap Sum.getRight?).map (·.shift n) := by
    rw [List.filterMap_map, List.map_filterMap]
    exact List.filterMap_congr fun m _ => by cases m <;> rfl
  simp only [ofMembers, shift, fields, methods]

/-- A class is spelled anywhere as it is at the front of a text. -/
theorem ClassDecl.Spelled.shift {c : ClassDecl} (h : c.Spelled ts) :
    (c.shift n).Spelled (ts.map (·.shift n l)) := by
  cases h with
  | mk word cls left members =>
    rw [ClassDecl.shift_ofMembers]
    exact .mk (kept word) (kept cls) (kept left) (members.shift l)

end Spelled

/-- A permutation of the numbers after the first one. -/
def keepFirst (number : Equiv.Perm Nat) : Equiv.Perm Nat where
  toFun
    | 0 => 0
    | k + 1 => number k + 1
  invFun
    | 0 => 0
    | k + 1 => number.symm k + 1
  left_inv := by rintro (_ | k) <;> simp
  right_inv := by rintro (_ | k) <;> simp

/-- Whether a text is read as a class. -/
def Text.IsClass (text : List Char) (c : ClassDecl) : Prop := Program.ofText? text = .ok ⟨[c], 0⟩

theorem ClassDecl.SpelledAll.only {c : ClassDecl} {ts : List Token}
    (h : ClassDecl.SpelledAll [c] ts) : c.Spelled ts := by
  cases h with
  | more first rest =>
    cases rest
    rwa [List.append_nil]

namespace Text

variable {texts texts' : List (List Char)} {classes : List ClassDecl}

/-- Where a text begins among texts that are put together. -/
def offset (texts : List (List Char)) (k : Nat) : Nat := (unlines (texts.take k)).length

theorem unlines_cons (text : List Char) (texts : List (List Char)) :
    unlines (text :: texts) = text ++ '\n' :: unlines texts := by
  simp [unlines]

theorem offset_cons (text : List Char) (texts : List (List Char)) (k : Nat) :
    offset (text :: texts) (k + 1) = text.length + 1 + offset texts k := by
  rw [offset, List.take_succ_cons, unlines_cons, List.length_append, List.length_cons, ← offset]
  omega

/-- The tokens of texts of classes that are put together spell the classes, further down. -/
theorem scan_unlines (reads : List.Forall₂ IsClass texts classes) (pos line : Nat) :
    let scan := Scan.ofTextFrom pos (line + 1) 0 (unlines texts)
    scan.fault = none ∧ ∃ cs, ClassDecl.SpelledAll cs scan.tokens ∧
      ∀ k : Nat, cs[k]? = (classes[k]?).map (·.shift (pos + offset texts k)) := by
  induction reads generalizing pos line with
  | nil => exact ⟨rfl, [], .done, fun k => by simp⟩
  | @cons text c texts classes read reads ih =>
    obtain ⟨whole, -, spelled⟩ := Program.ReadAs.ok_iff.mp read
    have moved : Scan.ofTextFrom pos (line + 1) 0 text = (Scan.ofText text).shift pos line := by
      rw [Scan.ofText, ← Scan.ofTextFrom_shift, Nat.zero_add, Nat.add_comm 1]
    have clean : (Scan.ofTextFrom pos (line + 1) 0 text).fault = none := by
      rw [moved, Scan.shift, whole]
      rfl
    have first : (c.shift pos).Spelled ((Scan.ofTextFrom pos (line + 1) 0 text).tokens) := by
      rw [moved]
      exact spelled.only.shift line
    obtain ⟨whole', cs, rest, found⟩ :=
      ih (pos + text.length + 1) (Scan.ofTextFrom pos (line + 1) 0 text).line
    rw [unlines_cons, Scan.ofTextFrom_newline text _ (Nat.zero_le _) clean]
    refine ⟨whole', c.shift pos :: cs, .more first rest, fun k => ?_⟩
    cases k with
    | zero => simp [offset, unlines]
    | succ k =>
      rw [List.getElem?_cons_succ, List.getElem?_cons_succ, found, offset_cons]
      simp only [Nat.add_assoc]

/-- Texts of classes that are put together are read as the classes, moved. -/
theorem ofText_unlines (reads : List.Forall₂ IsClass texts classes) :
    ∃ p, Program.ofText? (unlines texts) = .ok p ∧
      ∀ k : Nat, p.classes[k]? = (classes[k]?).map (·.shift (offset texts k)) := by
  obtain ⟨whole, cs, spelled, found⟩ := scan_unlines reads 0 0
  exact ⟨⟨cs, 0⟩, Program.ReadAs.ok_iff.mpr ⟨whole, rfl, spelled⟩,
    fun k => by rw [found, Nat.zero_add]⟩

theorem read_of_isClass (reads : List.Forall₂ IsClass texts classes) :
    texts.map Program.ofText? = classes.map fun c => .ok ⟨[c], 0⟩ := by
  induction reads with
  | nil => rfl
  | cons read _ ih => exact congrArg₂ List.cons read ih

/-- Texts in another order are the texts arranged by a permutation of their numbers. -/
theorem exists_number {α : Type} {l l' : List α} (perm : l.Perm l') :
    ∃ number : Equiv.Perm Nat, ∀ k, l'[number k]? = l[k]? := by
  induction perm with
  | nil => exact ⟨Equiv.refl Nat, fun _ => rfl⟩
  | cons a _ ih =>
    obtain ⟨number, found⟩ := ih
    refine ⟨keepFirst number, fun k => ?_⟩
    cases k with
    | zero => rfl
    | succ k => exact found k
  | swap a b l =>
    refine ⟨Equiv.swap 0 1, fun k => ?_⟩
    match k with
    | 0 | 1 => rfl
    | k + 2 => rw [Equiv.swap_apply_of_ne_of_ne (by omega) (by omega)]; rfl
  | trans _ _ first second =>
    obtain ⟨number, found⟩ := first
    obtain ⟨number', found'⟩ := second
    exact ⟨number.trans number', fun k => (found' _).trans (found k)⟩

/-- Texts of classes in any order give a program in which the classes are arranged. -/
theorem exists_arranges (reads : List.Forall₂ IsClass texts classes) (perm : texts'.Perm texts) :
    ∃ (g : Arrangement) (p : Program), Program.ofText? (unlines texts') = .ok p ∧
      g.Arranges classes p := by
  obtain ⟨classes', reads', -⟩ := List.perm_comp_forall₂ perm reads
  obtain ⟨number, found⟩ := exists_number perm.symm
  obtain ⟨p, parsed, placed⟩ := ofText_unlines reads'
  refine ⟨⟨number, fun k => offset texts' (number k)⟩, p, parsed, fun k => ?_⟩
  have same := congrArg (Option.map Program.ofText?) (found k)
  rw [← List.getElem?_map, ← List.getElem?_map, read_of_isClass reads', read_of_isClass reads,
    List.getElem?_map, List.getElem?_map] at same
  have apart :
      Function.Injective fun c : ClassDecl => (.ok ⟨[c], 0⟩ : Except ReadFault Program) := by
    intro c d h
    simpa using h
  rw [placed, Option.map_injective apart same]

end Text

end JamCompiler
