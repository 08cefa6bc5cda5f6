import JamCompiler.Proofs.Reading.Derivations
import JamCompiler.Proofs.Reading.Printing
import Mathlib.Algebra.GroupWithZero.Nat

/-!
# What is printed is spelled

The tokens that a tree of the grammar's shape is printed with spell it, up to positions.
-/

namespace JamCompiler

open Reading (binaryOp? precedence_lt)

/-- Tokens of given kinds, all at the beginning of the text. -/
def unplaced (ks : List TokenKind) : List Token := ks.map fun k => ⟨k, 0, 0⟩

@[simp] theorem unplaced_nil : unplaced [] = [] := rfl

@[simp] theorem unplaced_cons (k : TokenKind) (ks : List TokenKind) :
    unplaced (k :: ks) = ⟨k, 0, 0⟩ :: unplaced ks := rfl

@[simp] theorem unplaced_append (ks ks' : List TokenKind) :
    unplaced (ks ++ ks') = unplaced ks ++ unplaced ks' :=
  List.map_append

theorem TypeExpr.spelled_print {t : TypeExpr} (h : t.Written) :
    t.bare.Spelled (unplaced t.print) := by
  cases h using Written.elim with
  | int => exact .int (t := ⟨_, 0, 0⟩) rfl
  | boolean => exact .boolean (t := ⟨_, 0, 0⟩) rfl
  | named => exact .named (t := ⟨_, 0, 0⟩) rfl
  | ints => exact .ints (t := ⟨_, 0, 0⟩) rfl rfl rfl
  | nameds => exact .nameds (t := ⟨_, 0, 0⟩) rfl rfl rfl

theorem TypeExpr.spelledResult_print {t : TypeExpr} (h : t.WrittenResult) :
    t.bare.SpelledResult (unplaced t.print) := by
  rcases h.cases with written | ⟨pos, rfl⟩
  · exact .type (spelled_print written)
  · exact .void (t := ⟨_, 0, 0⟩) rfl

theorem Reference.bare_pos (r : Reference) : r.bare.pos = 0 := by
  cases r <;> rfl

theorem Reference.spelled_print {r : Reference} (h : r.Written) :
    r.bare.Spelled (unplaced r.print) := by
  induction r with
  | this pos => exact .this (t := ⟨_, 0, 0⟩) rfl
  | ident name pos => exact .ident (t := ⟨_, 0, 0⟩) rfl
  | qualified q name pos ih =>
    have whole := (ih h).qualified (d := ⟨_, 0, 0⟩) (t := ⟨.ident name.spelling, 0, 0⟩) rfl rfl
    rw [bare_pos] at whole
    simpa [print, bare, Identifier.bare] using whole
  | unknown => exact absurd h id

theorem BinaryOp.print_eq {op : BinaryOp} (h : op.Written) :
    ∃ s, op.print = [.symbol s] ∧ binaryOp? s = some op := by
  cases op with
  | other => exact absurd h id
  | _ => exact ⟨_, rfl, rfl⟩

mutual

theorem Expr.spelled_print (e : Expr) (h : e.Shaped) (least : Nat) :
    (Phrase.expr least e.bare).Spelled (unplaced (e.print least)) := by
  cases e with
  | int value pos =>
    obtain ⟨n, rfl⟩ := Int.eq_ofNat_of_zero_le h
    exact .int (t := ⟨_, 0, 0⟩) rfl
  | bool value pos =>
    cases value with
    | true => exact .true (t := ⟨_, 0, 0⟩) rfl
    | false => exact .false (t := ⟨_, 0, 0⟩) rfl
  | null pos => exact .null (t := ⟨_, 0, 0⟩) rfl
  | unary op operand pos =>
    have inner := Expr.spelled_print operand h.2 operandLevel
    cases op with
    | neg => exact .neg (t := ⟨_, 0, 0⟩) rfl inner
    | not => exact .not (t := ⟨_, 0, 0⟩) rfl inner
    | other => exact absurd h.1 id
  | binary op a b pos =>
    obtain ⟨s, words, known⟩ := BinaryOp.print_eq h.1
    have left := Expr.spelled_print a h.2.1 op.precedence
    have right := Expr.spelled_print b h.2.2 (op.precedence + 1)
    have whole {least : Nat} (le : least ≤ op.precedence) : (Phrase.expr least
        (.binary op a.bare b.bare 0)).Spelled (unplaced (a.print op.precedence) ++
          ⟨.symbol s, 0, 0⟩ :: unplaced (b.print (op.precedence + 1))) :=
      .binary (t := ⟨.symbol s, 0, 0⟩) rfl known le left right
    by_cases le : least ≤ op.precedence
    · simpa [print, bare, le, words] using whole le
    · have inner : (Phrase.expr least _).Spelled _ := .paren (l := ⟨_, 0, 0⟩) (r := ⟨_, 0, 0⟩) rfl
        (whole (precedence_lt known).1) rfl
      simpa [print, bare, le, words, parenthesized] using inner
  | ref r pos =>
    have whole : (Phrase.expr least _).Spelled _ := .ref (Reference.spelled_print h)
    rwa [Reference.bare_pos] at whole
  | index r i pos =>
    have whole : (Phrase.expr least _).Spelled _ := .index (l := ⟨_, 0, 0⟩) (t := ⟨_, 0, 0⟩)
      (Reference.spelled_print h.1) rfl (Expr.spelled_print i h.2 1) rfl
    rw [Reference.bare_pos] at whole
    simpa [print, bare] using whole
  | call r es pos =>
    have whole : (Phrase.expr least _).Spelled _ := .call (Reference.spelled_print h.1)
      (Expr.spelled_printArgs es h.2)
    rw [Reference.bare_pos] at whole
    simpa [print, bare] using whole
  | newObject type pos =>
    cases type with
    | named name pos =>
      exact .newObject (t := ⟨_, 0, 0⟩) (n := ⟨_, 0, 0⟩) rfl rfl rfl rfl
    | base | array | unknown => exact absurd h id
  | newArray element size pos =>
    have inner := Expr.spelled_print size h.2 1
    cases element with
    | named name pos =>
      have whole : (Phrase.expr least _).Spelled _ := .newArray (t := ⟨_, 0, 0⟩)
        (n := ⟨.ident name.spelling, 0, 0⟩) (l := ⟨_, 0, 0⟩) (r := ⟨_, 0, 0⟩) rfl rfl rfl inner rfl
      simpa [print, bare, TypeExpr.print, TypeExpr.bare, Identifier.bare] using whole
    | base type pos =>
      cases type with
      | int =>
        have whole : (Phrase.expr least _).Spelled _ := .newInts (t := ⟨_, 0, 0⟩) (n := ⟨_, 0, 0⟩)
          (l := ⟨_, 0, 0⟩) (r := ⟨_, 0, 0⟩) rfl rfl rfl inner rfl
        simpa [print, bare, TypeExpr.print, TypeExpr.bare] using whole
      | boolean | void | null | error | unsupported => exact absurd h.1 id
    | array | unknown => exact absurd h.1 id
  | unknown kind pos => exact absurd h id

theorem Expr.spelled_printArgs (es : List Expr) (h : Expr.AllShaped es) :
    (Phrase.args (Expr.bareAll es)).Spelled (unplaced (Expr.printArgs es)) := by
  cases es with
  | nil => exact .noArgs rfl rfl
  | cons e rest =>
    have first := Expr.spelled_print e h.1 1
    have more := Expr.spelled_printMore rest h.2
    simpa [printArgs, bareAll] using .args (l := ⟨_, 0, 0⟩) rfl first more

theorem Expr.spelled_printMore (es : List Expr) (h : Expr.AllShaped es) :
    (Phrase.moreArgs (Expr.bareAll es)).Spelled (unplaced (Expr.printMore es)) := by
  cases es with
  | nil => exact .endArgs rfl
  | cons e rest =>
    have first := Expr.spelled_print e h.1 1
    have more := Expr.spelled_printMore rest h.2
    simpa [printMore, bareAll] using .moreArgs (c := ⟨_, 0, 0⟩) rfl first more

end

theorem Expr.spelledValue_print {e : Expr} (h : e.Shaped) :
    e.bare.SpelledValue (unplaced e.printValue) :=
  ⟨_, ⟨_, 0, 0⟩, ⟨_, 0, 0⟩, rfl, e.spelled_print h 1, rfl, by simp [printValue]⟩

theorem Expr.spelledCondition_print {e : Expr} (h : e.Shaped) :
    e.bare.SpelledCondition (unplaced (parenthesized (e.print 1))) :=
  ⟨_, ⟨_, 0, 0⟩, ⟨_, 0, 0⟩, rfl, e.spelled_print h 1, rfl, by simp [parenthesized]⟩

theorem TypeExpr.bare_pos (t : TypeExpr) : t.bare.pos = 0 := by
  cases t <;> rfl

theorem Reference.assignable_bare {r : Reference} : r.bare.Assignable ↔ r.Assignable := by
  cases r <;> rfl

theorem Stmt.open_bare (s : Stmt) : s.bare.Open ↔ s.Open := by
  cases s with
  | ifElse cond body other pos => exact Stmt.open_bare other
  | loop cond body pos => exact Stmt.open_bare body
  | ret value => cases value <;> rfl
  | ifThen | block | declare | assign | assignIndex | call | unknown => rfl

mutual

theorem Stmt.spelled_print (s : Stmt) (h : s.Shaped) : s.bare.Spelled (unplaced s.print) := by
  cases s with
  | block ss pos => exact .block (l := ⟨_, 0, 0⟩) rfl (Stmt.spelled_printAll ss h)
  | declare var init pos =>
    have whole := Passage.Spelled.declare (n := ⟨.ident var.name, 0, 0⟩)
      (TypeExpr.spelled_print h.1) rfl (Expr.spelledValue_print h.2)
    rw [TypeExpr.bare_pos] at whole
    simpa [print, bare, VarDecl.bare] using whole
  | assign r value pos =>
    have whole := Passage.Spelled.assign (Reference.spelled_print h.1) (Expr.spelledValue_print h.2)
    rw [Reference.bare_pos] at whole
    simpa [print, bare] using whole
  | assignIndex r index value pos =>
    have whole := Passage.Spelled.assignIndex (l := ⟨_, 0, 0⟩) (t := ⟨_, 0, 0⟩)
      (Reference.spelled_print h.1) (Reference.assignable_bare.mpr h.2.1) rfl
      (index.spelled_print h.2.2.1 1) rfl (Expr.spelledValue_print h.2.2.2)
    rw [Reference.bare_pos] at whole
    simpa [print, bare] using whole
  | call r es pos =>
    have whole := Passage.Spelled.call (c := ⟨_, 0, 0⟩) (Reference.spelled_print h.1)
      (Expr.spelled_printArgs es h.2) rfl
    rw [Reference.bare_pos] at whole
    simpa [print, bare] using whole
  | ret value pos =>
    cases value with
    | none => exact .ret (t := ⟨_, 0, 0⟩) rfl rfl
    | some e =>
      have whole := Passage.Spelled.retValue (t := ⟨_, 0, 0⟩) (c := ⟨_, 0, 0⟩) rfl
        (e.spelled_print h 1) rfl
      simpa [print, bare] using whole
  | ifThen cond body pos =>
    have whole := Passage.Spelled.ifThen (t := ⟨_, 0, 0⟩) rfl (Expr.spelledCondition_print h.1)
      (Stmt.spelled_print body h.2)
    simpa [print, bare] using whole
  | ifElse cond body other pos =>
    have whole := Passage.Spelled.ifElse (t := ⟨_, 0, 0⟩) (o := ⟨_, 0, 0⟩) rfl
      (Expr.spelledCondition_print h.1) (Stmt.spelled_print body h.2.1)
      (fun still => h.2.2.1 ((Stmt.open_bare body).mp still)) rfl (Stmt.spelled_print other h.2.2.2)
    simpa [print, bare] using whole
  | loop cond body pos =>
    have whole := Passage.Spelled.loop (t := ⟨_, 0, 0⟩) rfl (Expr.spelledCondition_print h.1)
      (Stmt.spelled_print body h.2)
    simpa [print, bare] using whole
  | unknown kind pos => exact absurd h id

theorem Stmt.spelled_printAll (ss : List Stmt) (h : Stmt.AllShaped ss) :
    Stmt.SpelledBody (Stmt.bareAll ss) (unplaced (Stmt.printAll ss)) := by
  cases ss with
  | nil => exact .endStmts rfl
  | cons s rest =>
    have whole := Passage.Spelled.stmts (Stmt.spelled_print s h.1) (Stmt.spelled_printAll rest h.2)
    simpa [printAll, bareAll] using whole

end

theorem ParamDecl.spelled_print {p : ParamDecl} (h : p.type.Written) :
    p.bare.Spelled (unplaced p.print) := by
  simpa [print, bare] using ParamDecl.Spelled.mk (n := ⟨.ident p.name, 0, 0⟩)
    (TypeExpr.spelled_print h) rfl

theorem ParamDecl.spelled_printMore {ps : List ParamDecl} (h : ∀ p ∈ ps, p.type.Written) :
    ParamDecl.SpelledMore (ps.map bare) (unplaced (ParamDecl.printMore ps)) := by
  induction ps with
  | nil => exact .done rfl
  | cons p ps ih =>
    have whole := ParamDecl.SpelledMore.more (c := ⟨_, 0, 0⟩) rfl
      (spelled_print (h p (List.mem_cons_self ..))) (ih fun q hq => h q (List.mem_cons_of_mem _ hq))
    simpa [printMore] using whole

theorem ParamDecl.spelled_printAll {ps : List ParamDecl} (h : ∀ p ∈ ps, p.type.Written) :
    ParamDecl.SpelledAll (ps.map bare) (unplaced (ParamDecl.printAll ps)) := by
  cases ps with
  | nil => exact .none rfl rfl
  | cons p ps =>
    have whole := ParamDecl.SpelledAll.some (l := ⟨_, 0, 0⟩) rfl
      (spelled_print (h p (List.mem_cons_self ..)))
      (spelled_printMore fun q hq => h q (List.mem_cons_of_mem _ hq))
    simpa [printAll] using whole

theorem spelled_printVisibility (isPrivate : Bool) :
    SpelledVisibility isPrivate (unplaced (printVisibility isPrivate)) := by
  cases isPrivate with
  | true => exact .isPrivate rfl
  | false => exact .default

theorem spelled_printAccess (isStatic : Bool) :
    SpelledAccess isStatic (unplaced (printAccess isStatic)) := by
  cases isStatic with
  | true => exact .isStatic rfl
  | false => exact .default

/-- The members of a class of the grammar's shape. -/
def Member.Shaped : Member → Prop
  | .inl field => field.type.Written
  | .inr method => method.Shaped

theorem Member.spelled_print {m : Member} (h : Member.Shaped m) :
    Member.Spelled (Member.bare m) (unplaced (Member.print m)) := by
  cases m with
  | inl field =>
    have whole := Member.Spelled.field (n := ⟨.ident field.name, 0, 0⟩) (c := ⟨_, 0, 0⟩)
      (spelled_printVisibility field.isPrivate) (spelled_printAccess field.isStatic)
      (TypeExpr.spelled_print h) rfl rfl
    simpa [print, bare, FieldDecl.bare] using whole
  | inr method =>
    have whole := Member.Spelled.method (n := ⟨.ident method.head.name, 0, 0⟩) (l := ⟨_, 0, 0⟩)
      (spelled_printVisibility method.head.isPrivate) (spelled_printAccess method.head.isStatic)
      (TypeExpr.spelledResult_print h.result) rfl (ParamDecl.spelled_printAll h.params) rfl
      (Stmt.spelled_printAll method.body h.body)
    simpa [print, bare, MethodDecl.bare, MethodHead.bare] using whole

theorem Member.spelled_printAll {ms : List Member} (h : ∀ m ∈ ms, Member.Shaped m) :
    Member.SpelledAll (ms.map Member.bare) (unplaced (Member.printAll ms)) := by
  induction ms with
  | nil => exact .done rfl
  | cons m ms ih =>
    have whole := Member.SpelledAll.more (spelled_print (h m (List.mem_cons_self ..)))
      (ih fun m' hm' => h m' (List.mem_cons_of_mem _ hm'))
    simpa [printAll] using whole

/-- Putting fields and methods in the order of their positions keeps each of them in their order. -/
theorem filterMap_merge (fields : List FieldDecl) (methods : List MethodDecl)
    (le : Member → Member → Bool) :
    (List.merge (fields.map .inl) (methods.map .inr) le).filterMap Sum.getLeft? = fields ∧
      (List.merge (fields.map .inl) (methods.map .inr) le).filterMap Sum.getRight? = methods := by
  have left (fields : List FieldDecl) :
      (fields.map (Sum.inl (β := MethodDecl))).filterMap Sum.getLeft? = fields ∧
        (fields.map (Sum.inl (β := MethodDecl))).filterMap Sum.getRight? = [] := by
    induction fields with
    | nil => simp
    | cons f fields ih => simp [List.filterMap_cons, ih]
  have right (methods : List MethodDecl) :
      (methods.map (Sum.inr (α := FieldDecl))).filterMap Sum.getLeft? = [] ∧
        (methods.map (Sum.inr (α := FieldDecl))).filterMap Sum.getRight? = methods := by
    induction methods with
    | nil => simp
    | cons m methods ih => simp [List.filterMap_cons, ih]
  induction fields generalizing methods with
  | nil => simpa only [List.map_nil, List.nil_merge] using right methods
  | cons f fields ih =>
    induction methods with
    | nil => simpa only [List.map_nil, List.merge_right] using left (f :: fields)
    | cons m methods ih' =>
      simp only [List.map_cons, List.cons_merge_cons]
      split
      · have rest := ih (m :: methods)
        simp only [List.map_cons] at rest
        simp [List.filterMap_cons, rest]
      · simp only [List.map_cons] at ih'
        simp [List.filterMap_cons, ih']

theorem ClassDecl.fields_inOrder (c : ClassDecl) : c.inOrder.filterMap Sum.getLeft? = c.fields :=
  (filterMap_merge ..).1

theorem ClassDecl.methods_inOrder (c : ClassDecl) : c.inOrder.filterMap Sum.getRight? = c.methods :=
  (filterMap_merge ..).2

theorem filterMap_bare (ms : List Member) :
    (ms.map Member.bare).filterMap Sum.getLeft? = (ms.filterMap Sum.getLeft?).map FieldDecl.bare ∧
      (ms.map Member.bare).filterMap Sum.getRight? =
        (ms.filterMap Sum.getRight?).map MethodDecl.bare := by
  induction ms with
  | nil => simp
  | cons m ms ih => cases m <;> simp [Member.bare, List.filterMap_cons, ih]

/-- A class without positions is made of its members without positions. -/
theorem ClassDecl.bare_eq (c : ClassDecl) :
    c.bare = .ofMembers c.name (c.inOrder.map Member.bare) 0 := by
  simp only [bare, ofMembers, filterMap_bare, fields_inOrder, methods_inOrder]

theorem ClassDecl.Shaped.inOrder {c : ClassDecl} (h : c.Shaped) :
    ∀ m ∈ c.inOrder, Member.Shaped m := by
  intro m hm
  rcases List.mem_merge.mp hm with field | method
  · obtain ⟨f, hf, rfl⟩ := List.mem_map.mp field
    exact h.fields f hf
  · obtain ⟨d, hd, rfl⟩ := List.mem_map.mp method
    exact h.methods d hd

theorem ClassDecl.spelled_print {c : ClassDecl} (h : c.Shaped) :
    c.bare.Spelled (unplaced c.print) := by
  rw [bare_eq]
  exact .mk (t := ⟨_, 0, 0⟩) (n := ⟨_, 0, 0⟩) (l := ⟨_, 0, 0⟩) rfl rfl rfl
    (Member.spelled_printAll h.inOrder)

theorem ClassDecl.spelled_printAll {cs : List ClassDecl} (h : ∀ c ∈ cs, c.Shaped) :
    ClassDecl.SpelledAll (cs.map bare) (unplaced (ClassDecl.printAll cs)) := by
  induction cs with
  | nil => exact .done
  | cons c cs ih =>
    have whole := ClassDecl.SpelledAll.more (spelled_print (h c (List.mem_cons_self ..)))
      (ih fun c' hc' => h c' (List.mem_cons_of_mem _ hc'))
    simpa [printAll] using whole

/-- What a program is printed with spells it, up to positions. -/
theorem Program.spelled_print {p : Program} (h : p.Shaped) : p.bare.Spelled (unplaced p.print) :=
  ⟨rfl, ClassDecl.spelled_printAll h⟩

theorem TypeExpr.print_bare (t : TypeExpr) : t.bare.print = t.print := by
  induction t with
  | array element pos ih => simp [bare, print, ih]
  | base type => cases type <;> rfl
  | named | unknown => rfl

theorem Reference.print_bare (r : Reference) : r.bare.print = r.print := by
  induction r with
  | qualified q name pos ih => simp [bare, print, ih, Identifier.bare]
  | this | ident | unknown => rfl

mutual

theorem Expr.print_bare (e : Expr) (least : Nat) : e.bare.print least = e.print least := by
  cases e with
  | bool value => cases value <;> rfl
  | int | null | unknown => rfl
  | unary op operand => simp [bare, print, Expr.print_bare operand]
  | binary op a b => simp [bare, print, Expr.print_bare a, Expr.print_bare b]
  | ref r => simp [bare, print, r.print_bare]
  | index r i => simp [bare, print, r.print_bare, Expr.print_bare i]
  | call r es => simp [bare, print, r.print_bare, Expr.printArgs_bare es]
  | newObject type => simp [bare, print, type.print_bare]
  | newArray element size => simp [bare, print, element.print_bare, Expr.print_bare size]

theorem Expr.printArgs_bare (es : List Expr) : printArgs (bareAll es) = printArgs es := by
  cases es with
  | nil => rfl
  | cons e rest => simp [bareAll, printArgs, Expr.print_bare e, Expr.printMore_bare rest]

theorem Expr.printMore_bare (es : List Expr) : printMore (bareAll es) = printMore es := by
  cases es with
  | nil => rfl
  | cons e rest => simp [bareAll, printMore, Expr.print_bare e, Expr.printMore_bare rest]

end

theorem Expr.printValue_bare (e : Expr) : e.bare.printValue = e.printValue := by
  rw [printValue, print_bare, ← printValue]

mutual

theorem Stmt.print_bare (s : Stmt) : s.bare.print = s.print := by
  cases s with
  | block ss => simp [bare, print, Stmt.printAll_bare ss]
  | declare var init =>
    simp [bare, print, VarDecl.bare, var.type.print_bare, init.printValue_bare]
  | assign r value => simp [bare, print, r.print_bare, value.printValue_bare]
  | assignIndex r index value =>
    simp [bare, print, r.print_bare, index.print_bare, value.printValue_bare]
  | call r es => simp [bare, print, r.print_bare, Expr.printArgs_bare es]
  | ret value =>
    cases value with
    | none => rfl
    | some e => simp [bare, print, e.print_bare]
  | ifThen cond body => simp [bare, print, cond.print_bare, Stmt.print_bare body]
  | ifElse cond body other =>
    simp [bare, print, cond.print_bare, Stmt.print_bare body, Stmt.print_bare other]
  | loop cond body => simp [bare, print, cond.print_bare, Stmt.print_bare body]
  | unknown => rfl

theorem Stmt.printAll_bare (ss : List Stmt) : printAll (bareAll ss) = printAll ss := by
  cases ss with
  | nil => rfl
  | cons s rest => simp [bareAll, printAll, Stmt.print_bare s, Stmt.printAll_bare rest]

end

theorem ParamDecl.print_bare (p : ParamDecl) : p.bare.print = p.print := by
  simp [bare, print, p.type.print_bare]

theorem ParamDecl.printMore_bare (ps : List ParamDecl) :
    printMore (ps.map bare) = printMore ps := by
  induction ps with
  | nil => rfl
  | cons p ps ih => simp [printMore, p.print_bare, ih]

theorem ParamDecl.printAll_bare (ps : List ParamDecl) : printAll (ps.map bare) = printAll ps := by
  cases ps with
  | nil => rfl
  | cons p ps => simp [printAll, p.print_bare, printMore_bare]

theorem Member.print_bare (m : Member) : Member.print (Member.bare m) = Member.print m := by
  cases m with
  | inl field => simp [bare, print, FieldDecl.bare, field.type.print_bare]
  | inr method =>
    simp [bare, print, MethodDecl.bare, MethodHead.bare, method.head.result.print_bare,
      ParamDecl.printAll_bare, Stmt.printAll_bare]

theorem Member.length_printAll (ms : List Member) :
    (printAll ms).length = (ms.map fun m => (print m).length).sum + 1 := by
  induction ms with
  | nil => rfl
  | cons m ms ih =>
    simp only [printAll, List.length_append, ih, List.map_cons, List.sum_cons]; omega

/-- How many tokens a class is printed with. Without positions its members may be printed in another
order. -/
theorem ClassDecl.length_print (c : ClassDecl) : c.print.length =
    ((c.fields.map fun f => (Member.print (.inl f)).length).sum +
      (c.methods.map fun m => (Member.print (.inr m)).length).sum) + 4 := by
  have order : c.inOrder.Perm (c.fields.map .inl ++ c.methods.map .inr) := List.merge_perm_append _
  have sum := (order.map fun m => (Member.print m).length).sum_nat
  simp only [List.map_append, List.map_map, List.sum_append_nat] at sum
  simp only [print, List.length_cons, Member.length_printAll, sum, Function.comp_def]

theorem ClassDecl.length_print_bare (c : ClassDecl) : c.bare.print.length = c.print.length := by
  have fields (f : FieldDecl) : Member.print (.inl f.bare) = Member.print (.inl f) :=
    Member.print_bare (.inl f)
  have methods (m : MethodDecl) : Member.print (.inr m.bare) = Member.print (.inr m) :=
    Member.print_bare (.inr m)
  simp only [length_print, bare, List.map_map, Function.comp_def, fields, methods]

theorem Program.length_print_bare (p : Program) : p.bare.print.length = p.print.length := by
  simp only [print, bare, ClassDecl.printAll, List.length_flatMap, List.map_map, Function.comp_def,
    ClassDecl.length_print_bare]

end JamCompiler
