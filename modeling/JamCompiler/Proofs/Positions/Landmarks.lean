import JamCompiler.Proofs.Naming.Use
import JamCompiler.Proofs.Reading.Sound

/-!
# Landmarks

Everything in a tree that has a position: the names in it, what it declares, and its nodes. In a
program that was read from tokens each of them stands where the tokens say. A name and a declaration
stand at a token that is their name, an operator between its operands, and every other node at the
first of the tokens that spell it.
-/

namespace JamCompiler

open Reading (binaryOp? spelled_lower)

/-- What has a position in a tree: a name that is used, a declaration with its name, or a node. -/
inductive Landmark
  | name (id : Identifier)
  | declared (name : String) (pos : Nat)
  | type (t : TypeExpr)
  | ref (r : Reference)
  | expr (e : Expr)
  | stmt (s : Stmt)

def Landmark.pos : Landmark → Nat
  | name id => id.pos
  | declared _ pos => pos
  | type t => t.pos
  | ref r => r.pos
  | expr e => e.pos
  | stmt s => s.pos

def TypeExpr.landmarks : TypeExpr → List Landmark
  | base b pos => [.type (base b pos)]
  | named id pos => [.type (named id pos), .name id]
  | array element pos => .type (array element pos) :: element.landmarks
  | unknown kind pos => [.type (unknown kind pos)]

def Reference.landmarks : Reference → List Landmark
  | this pos => [.ref (this pos)]
  | ident id pos => [.ref (ident id pos), .name id]
  | qualified qualifier id pos =>
    .ref (qualified qualifier id pos) :: .name id :: qualifier.landmarks
  | unknown kind pos => [.ref (unknown kind pos)]

mutual

def Expr.landmarks : Expr → List Landmark
  | .int value pos => [.expr (.int value pos)]
  | .bool value pos => [.expr (.bool value pos)]
  | .null pos => [.expr (.null pos)]
  | .unary op operand pos => .expr (.unary op operand pos) :: operand.landmarks
  | .binary op left right pos =>
    .expr (.binary op left right pos) :: (left.landmarks ++ right.landmarks)
  | .ref r pos => .expr (.ref r pos) :: r.landmarks
  | .index r i pos => .expr (.index r i pos) :: (r.landmarks ++ i.landmarks)
  | .call method args pos =>
    .expr (.call method args pos) :: (method.landmarks ++ Expr.argLandmarks args)
  | .newObject type pos => .expr (.newObject type pos) :: type.landmarks
  | .newArray element size pos =>
    .expr (.newArray element size pos) :: (element.landmarks ++ size.landmarks)
  | .unknown kind pos => [.expr (.unknown kind pos)]

def Expr.argLandmarks : List Expr → List Landmark
  | [] => []
  | e :: rest => e.landmarks ++ Expr.argLandmarks rest

end

mutual

def Stmt.landmarks : Stmt → List Landmark
  | .block stmts pos => .stmt (.block stmts pos) :: Stmt.allLandmarks stmts
  | .declare var init pos =>
    .stmt (.declare var init pos) :: .declared var.name var.pos ::
      (var.type.landmarks ++ init.landmarks)
  | .assign target value pos =>
    .stmt (.assign target value pos) :: (target.landmarks ++ value.landmarks)
  | .assignIndex target index value pos =>
    .stmt (.assignIndex target index value pos) ::
      (target.landmarks ++ (index.landmarks ++ value.landmarks))
  | .call method args pos =>
    .stmt (.call method args pos) :: (method.landmarks ++ Expr.argLandmarks args)
  | .ret none pos => [.stmt (.ret none pos)]
  | .ret (some value) pos => .stmt (.ret (some value) pos) :: value.landmarks
  | .ifThen cond body pos => .stmt (.ifThen cond body pos) :: (cond.landmarks ++ body.landmarks)
  | .ifElse cond body other pos =>
    .stmt (.ifElse cond body other pos) :: (cond.landmarks ++ (body.landmarks ++ other.landmarks))
  | .loop cond body pos => .stmt (.loop cond body pos) :: (cond.landmarks ++ body.landmarks)
  | .unknown kind pos => [.stmt (.unknown kind pos)]

def Stmt.allLandmarks : List Stmt → List Landmark
  | [] => []
  | s :: rest => s.landmarks ++ Stmt.allLandmarks rest

end

def ParamDecl.landmarks (p : ParamDecl) : List Landmark :=
  .declared p.name p.pos :: p.type.landmarks

def FieldDecl.landmarks (f : FieldDecl) : List Landmark :=
  .declared f.name f.pos :: f.type.landmarks

def MethodDecl.landmarks (m : MethodDecl) : List Landmark :=
  .declared m.head.name m.head.pos ::
    (m.head.result.landmarks ++
      (m.head.params.flatMap ParamDecl.landmarks ++ Stmt.allLandmarks m.body))

def ClassDecl.landmarks (c : ClassDecl) : List Landmark :=
  .declared c.name c.pos ::
    (c.fields.flatMap FieldDecl.landmarks ++ c.methods.flatMap MethodDecl.landmarks)

def Program.landmarks (p : Program) : List Landmark := p.classes.flatMap ClassDecl.landmarks

theorem Reference.mem_landmarks (r : Reference) : .ref r ∈ r.landmarks := by
  cases r <;> exact List.mem_cons_self

theorem Expr.mem_landmarks (e : Expr) : .expr e ∈ e.landmarks := by
  cases e <;> exact List.mem_cons_self

theorem Stmt.mem_landmarks (s : Stmt) : .stmt s ∈ s.landmarks := by
  match s with
  | .ret none _ | .ret (some _) _ => exact List.mem_cons_self
  | .block .. | .declare .. | .assign .. | .assignIndex .. | .call .. | .ifThen .. | .ifElse .. |
      .loop .. | .unknown .. => exact List.mem_cons_self

theorem Stmt.allLandmarks_append (stmts more : List Stmt) :
    Stmt.allLandmarks (stmts ++ more) = Stmt.allLandmarks stmts ++ Stmt.allLandmarks more := by
  induction stmts with
  | nil => rfl
  | cons s rest ih => simp only [List.cons_append, Stmt.allLandmarks, ih, List.append_assoc]

/-- Whether all of some landmarks stand at some of some positions. -/
abbrev Landmark.AllAt (P : Nat → Prop) (ls : List Landmark) : Prop := ∀ l ∈ ls, P l.pos

section AllAt

variable {P : Nat → Prop} {p : Program}

namespace Landmark.AllAt

variable {l : Landmark} {ls ls' ls'' : List Landmark}

theorem tail (h : AllAt P (l :: ls)) : AllAt P ls := (List.forall_mem_cons.mp h).2

/-- The landmarks of a node with two parts. -/
theorem parts (h : AllAt P (l :: (ls ++ ls'))) : P l.pos ∧ AllAt P ls ∧ AllAt P ls' :=
  ⟨h l List.mem_cons_self, List.forall_mem_append.mp h.tail⟩

theorem threeParts (h : AllAt P (l :: (ls ++ (ls' ++ ls'')))) :
    P l.pos ∧ AllAt P ls ∧ AllAt P ls' ∧ AllAt P ls'' := by
  obtain ⟨here, first, others⟩ := h.parts
  exact ⟨here, first, List.forall_mem_append.mp others⟩

end Landmark.AllAt

open Landmark

theorem Program.allAt_class {c : Site × ClassDecl} (h : AllAt P p.landmarks)
    (hc : c ∈ p.sitedClasses) : AllAt P c.2.landmarks := by
  obtain ⟨k, hk, -⟩ := mem_sitedClasses.mp hc
  exact List.forall_mem_flatMap.mp h c.2 (List.mem_of_getElem? hk)

theorem ClassDecl.allAt_method {c : ClassDecl} {m : MethodDecl} (h : AllAt P c.landmarks)
    (hm : m ∈ c.methods) : AllAt P m.landmarks :=
  List.forall_mem_flatMap.mp h.parts.2.2 m hm

theorem ClassDecl.allAt_field {c : ClassDecl} {f : FieldDecl} (h : AllAt P c.landmarks)
    (hf : f ∈ c.fields) : AllAt P f.landmarks :=
  List.forall_mem_flatMap.mp h.parts.2.1 f hf

theorem Program.allAt_method {m : Site × MethodDecl} (h : AllAt P p.landmarks)
    (hm : m ∈ p.sitedMethods) : AllAt P m.2.landmarks := by
  obtain ⟨k, c, hk, hc⟩ := mem_sitedMethods.mp hm
  have inClass := List.forall_mem_flatMap.mp h c (List.mem_of_getElem? hk)
  exact c.allAt_method inClass (ClassDecl.mem_of_mem_sitedMethods hc)

theorem MethodDecl.allAt_body {m : MethodDecl} (h : AllAt P m.landmarks) :
    AllAt P (Stmt.allLandmarks m.body) :=
  h.threeParts.2.2.2

end AllAt

/-- Whether there are tokens among some that are spelled, the first of them at a position. -/
def SpelledAt (spelled : List Token → Prop) (pos : Nat) (ts : List Token) : Prop :=
  ∃ t us, t :: us <:+: ts ∧ spelled (t :: us) ∧ t.pos = pos

/-- Whether a token is an operator, and where. -/
structure Token.IsOperator (t : Token) (text : String) (pos : Nat) : Prop where
  symbol : ∃ s, t.kind = .symbol s ∧ s.spelling = text
  here : t.pos = pos

/-- Whether a landmark stands where it does among the tokens of a text. -/
def Landmark.PlacedIn (ts : List Token) : Landmark → Prop
  | name id => ∃ t ∈ ts, t.kind = .ident id.spelling ∧ t.pos = id.pos
  | declared n pos => ∃ t ∈ ts, t.kind = .ident n ∧ t.pos = pos
  | type t => SpelledAt t.SpelledResult t.pos ts
  | ref r => SpelledAt r.Spelled r.pos ts
  | expr (.unary op operand pos) =>
    ∃ t us, t :: us <:+: ts ∧ t.IsOperator op.text pos ∧ operand.Spelled us
  | expr (.binary op left right pos) => ∃ us t vs, us ++ t :: vs <:+: ts ∧
      left.Spelled us ∧ t.IsOperator op.text pos ∧ right.Spelled vs
  | expr e => SpelledAt e.Spelled e.pos ts
  | stmt s => SpelledAt s.Spelled s.pos ts

section Placed

variable {spelled : List Token → Prop} {pos : Nat} {t : Token}
  {ts us vs : List Token} {l : Landmark}

theorem SpelledAt.mono (h : SpelledAt spelled pos us) (part : us <:+: ts) :
    SpelledAt spelled pos ts := by
  obtain ⟨t, ws, inside, whole, here⟩ := h
  exact ⟨t, ws, inside.trans part, whole, here⟩

theorem SpelledAt.whole (h : spelled (t :: us)) : SpelledAt spelled t.pos (t :: us) :=
  ⟨t, us, List.infix_rfl, h, rfl⟩

theorem SpelledAt.exists_token (h : SpelledAt spelled pos ts) : ∃ t ∈ ts, t.pos = pos := by
  obtain ⟨t, ws, inside, -, here⟩ := h
  exact ⟨t, inside.subset List.mem_cons_self, here⟩

/-- Whether the first of some tokens is at a position. -/
def BeginsAt (pos : Nat) (ts : List Token) : Prop := ∃ t us, ts = t :: us ∧ t.pos = pos

theorem SpelledAt.lead (h : spelled (us ++ vs)) (begins : BeginsAt pos us) :
    SpelledAt spelled pos (us ++ vs) := by
  obtain ⟨t, ws, rfl, rfl⟩ := begins
  exact .whole h

namespace Landmark

theorem PlacedIn.mono (h : l.PlacedIn us) (part : us <:+: ts) : l.PlacedIn ts := by
  cases l with
  | name | declared =>
    obtain ⟨t, ht, same⟩ := h
    exact ⟨t, part.subset ht, same⟩
  | type | ref | stmt => exact SpelledAt.mono h part
  | expr e =>
    cases e with
    | unary op operand pos =>
      obtain ⟨t, ws, inside, same⟩ := h
      exact ⟨t, ws, inside.trans part, same⟩
    | binary op left right pos =>
      obtain ⟨vs, t, ws, inside, same⟩ := h
      exact ⟨vs, t, ws, inside.trans part, same⟩
    | int | bool | null | ref | index | call | newObject | newArray | unknown =>
      exact SpelledAt.mono h part

/-- A landmark stands where a token does. -/
theorem PlacedIn.exists_token (h : l.PlacedIn ts) : ∃ t ∈ ts, t.pos = l.pos := by
  cases l with
  | name | declared =>
    obtain ⟨t, ht, -, here⟩ := h
    exact ⟨t, ht, here⟩
  | type | ref | stmt => exact SpelledAt.exists_token h
  | expr e =>
    cases e with
    | unary op operand pos =>
      obtain ⟨t, ws, inside, operator, -⟩ := h
      exact ⟨t, inside.subset List.mem_cons_self, operator.here⟩
    | binary op left right pos =>
      obtain ⟨vs, t, ws, inside, -, operator, -⟩ := h
      exact ⟨t, inside.subset (List.mem_append_right _ List.mem_cons_self), operator.here⟩
    | int | bool | null | ref | index | call | newObject | newArray | unknown =>
      exact SpelledAt.exists_token h

/-- Whether landmarks stand where they do among the tokens of a text. -/
abbrev AllPlaced (ls : List Landmark) (ts : List Token) : Prop := ∀ l ∈ ls, l.PlacedIn ts

variable {ls ls' : List Landmark}

theorem AllPlaced.mono (h : AllPlaced ls us) (part : us <:+: ts) : AllPlaced ls ts :=
  fun l hl => (h l hl).mono part

theorem AllPlaced.cons (h : l.PlacedIn ts) (rest : AllPlaced ls ts) : AllPlaced (l :: ls) ts :=
  List.forall_mem_cons.mpr ⟨h, rest⟩

theorem AllPlaced.append (h : AllPlaced ls ts) (h' : AllPlaced ls' ts) : AllPlaced (ls ++ ls') ts :=
  List.forall_mem_append.mpr ⟨h, h'⟩

theorem AllPlaced.left (h : AllPlaced ls us) : AllPlaced ls (us ++ vs) :=
  h.mono (List.prefix_append us vs).isInfix

theorem AllPlaced.right (h : AllPlaced ls vs) : AllPlaced ls (us ++ vs) :=
  h.mono (List.suffix_append us vs).isInfix

theorem AllPlaced.after (h : AllPlaced ls ts) : AllPlaced ls (t :: ts) :=
  h.mono (List.suffix_cons t ts).isInfix

theorem allPlaced_nil : AllPlaced [] ts := List.forall_mem_nil _

end Landmark

end Placed

open Landmark

section Words

variable {ts : List Token}

theorem TypeExpr.Spelled.beginsAt {type : TypeExpr} (h : type.Spelled ts) :
    BeginsAt type.pos ts := by
  cases h <;> exact ⟨_, _, rfl, rfl⟩

theorem Reference.Spelled.beginsAt {r : Reference} (h : r.Spelled ts) : BeginsAt r.pos ts := by
  induction h with
  | this | ident => exact ⟨_, _, rfl, rfl⟩
  | qualified _ _ _ ih =>
    obtain ⟨t, us, rfl, here⟩ := ih
    exact ⟨t, _, rfl, here⟩

theorem TypeExpr.SpelledResult.placed {type : TypeExpr} (h : type.SpelledResult ts) :
    AllPlaced type.landmarks ts := by
  cases h with
  | void word => exact .cons (.whole (.void word)) allPlaced_nil
  | type h =>
    cases h with
    | int word => exact .cons (.whole (.type (.int word))) allPlaced_nil
    | boolean word => exact .cons (.whole (.type (.boolean word))) allPlaced_nil
    | @named t name word =>
      exact .cons (.whole (.type (.named word)))
        (.cons ⟨t, List.mem_cons_self, word, rfl⟩ allPlaced_nil)
    | @ints t l r word left right =>
      have element : SpelledAt (SpelledResult (.base .int t.pos)) t.pos [t] :=
        .whole (.type (.int word))
      exact .cons (.whole (.type (.ints word left right)))
        (.cons (element.mono (List.prefix_append [t] [l, r]).isInfix) allPlaced_nil)
    | @nameds t l r name word left right =>
      have element : SpelledAt (SpelledResult (.named ⟨name, t.pos⟩ t.pos)) t.pos [t] :=
        .whole (.type (.named word))
      exact .cons (.whole (.type (.nameds word left right)))
        (.cons (element.mono (List.prefix_append [t] [l, r]).isInfix)
          (.cons ⟨t, List.mem_cons_self, word, rfl⟩ allPlaced_nil))

theorem TypeExpr.Spelled.placed {type : TypeExpr} (h : type.Spelled ts) :
    AllPlaced type.landmarks ts :=
  (SpelledResult.type h).placed

theorem Reference.Spelled.placed {r : Reference} (h : r.Spelled ts) : AllPlaced r.landmarks ts := by
  induction h with
  | this word => exact .cons (.whole (.this word)) allPlaced_nil
  | @ident t name word =>
    exact .cons (.whole (.ident word)) (.cons ⟨t, List.mem_cons_self, word, rfl⟩ allPlaced_nil)
  | @qualified r us d t name qualifier dot word ih =>
    have last : t ∈ us ++ [d, t] :=
      List.mem_append_right _ (List.mem_cons_of_mem _ List.mem_cons_self)
    exact .cons (.lead (.qualified qualifier dot word) qualifier.beginsAt)
      (.cons ⟨t, last, word, rfl⟩ ih.left)

end Words

theorem binaryOp?_spelling {s : Symbol} {op : BinaryOp} (h : binaryOp? s = some op) :
    s.spelling = op.text := by
  cases s <;> cases h <;> rfl

def Phrase.landmarks : Phrase → List Landmark
  | expr _ e => e.landmarks
  | args es | moreArgs es => Expr.argLandmarks es

theorem Phrase.Spelled.placed {p : Phrase} {ts : List Token} (h : p.Spelled ts) :
    AllPlaced p.landmarks ts := by
  induction h with
  | int word => exact .cons (.whole (.int word)) allPlaced_nil
  | true word => exact .cons (.whole (.true word)) allPlaced_nil
  | false word => exact .cons (.whole (.false word)) allPlaced_nil
  | null word => exact .cons (.whole (.null word)) allPlaced_nil
  | @neg least e t ts op operand ih | @not least e t ts op operand ih =>
    exact .cons ⟨t, ts, List.infix_rfl, ⟨⟨_, op, rfl⟩, rfl⟩,
      spelled_lower operand (by decide)⟩ ih.after
  | @binary least a b t s op us vs word known level left right ihl ihr =>
    have one : 1 ≤ op.precedence := by
      cases op with
      | other => cases s <;> cases known
      | or | and | eq | ne | lt | le | gt | ge | add | sub | mul | div => decide
    refine .cons ⟨us, t, vs, List.infix_rfl, spelled_lower left one,
      ⟨⟨s, word, binaryOp?_spelling known⟩, rfl⟩, spelled_lower right (Nat.le_succ_of_le one)⟩ ?_
    exact .append ihl.left ihr.after.right
  | paren left inner right ih => exact ih.left.after
  | ref r =>
    obtain ⟨t, us, rfl, here⟩ := r.beginsAt
    exact .cons ⟨t, us, List.infix_rfl, .ref r, here⟩ r.placed
  | index r left index right ih =>
    exact .cons (.lead (.index r left index right) r.beginsAt)
      (.append r.placed.left ih.left.after.right)
  | call r args ih => exact .cons (.lead (.call r args) r.beginsAt) (.append r.placed.left ih.right)
  | @newObject least t n l r name word cls left right =>
    have type : AllPlaced (TypeExpr.named ⟨name, n.pos⟩ n.pos).landmarks ([n] ++ [l, r]) :=
      (TypeExpr.Spelled.named cls).placed.left
    exact .cons (.whole (.newObject word cls left right)) type.after
  | @newArray least t n l r name size ts word cls left inner right ih =>
    have type :
        AllPlaced (TypeExpr.named ⟨name, n.pos⟩ n.pos).landmarks ([n] ++ l :: (ts ++ [r])) :=
      (TypeExpr.Spelled.named cls).placed.left
    exact .cons (.whole (.newArray word cls left inner right))
      (.append type.after ih.left.after.after.after)
  | @newInts least t n l r size ts word int left inner right ih =>
    have type : AllPlaced (TypeExpr.base .int n.pos).landmarks ([n] ++ l :: (ts ++ [r])) :=
      (TypeExpr.Spelled.int int).placed.left
    exact .cons (.whole (.newInts word int left inner right))
      (.append type.after ih.left.after.after.after)
  | noArgs | endArgs => exact allPlaced_nil
  | args left first more ihFirst ihMore => exact .append ihFirst.left.after ihMore.right.after
  | moreArgs comma next more ihNext ihMore => exact .append ihNext.left.after ihMore.right.after

theorem Expr.Spelled.placed {e : Expr} {ts : List Token} (h : e.Spelled ts) :
    AllPlaced e.landmarks ts :=
  Phrase.Spelled.placed h

theorem Expr.SpelledValue.placed {e : Expr} {ts : List Token} (h : e.SpelledValue ts) :
    AllPlaced e.landmarks ts := by
  obtain ⟨us, a, c, -, spelled, -, rfl⟩ := h
  exact (Expr.Spelled.placed spelled).left.after

theorem Expr.SpelledCondition.placed {e : Expr} {ts : List Token} (h : e.SpelledCondition ts) :
    AllPlaced e.landmarks ts := by
  obtain ⟨us, l, r, -, spelled, -, rfl⟩ := h
  exact (Expr.Spelled.placed spelled).left.after

def Passage.landmarks : Passage → List Landmark
  | stmt s => s.landmarks
  | stmts ss => Stmt.allLandmarks ss

theorem Passage.Spelled.placed {p : Passage} {ts : List Token} (h : p.Spelled ts) :
    AllPlaced p.landmarks ts := by
  induction h with
  | block left stmts ih => exact .cons (.whole (.block left stmts)) ih.after
  | @declare type n name init us vs type' word value =>
    refine .cons (.lead (.declare type' word value) type'.beginsAt) (.cons ?_ ?_)
    · exact ⟨n, List.mem_append_right _ List.mem_cons_self, word, rfl⟩
    · exact .append type'.placed.left value.placed.after.right
  | assign r value =>
    exact .cons (.lead (.assign r value) r.beginsAt) (.append r.placed.left value.placed.right)
  | assignIndex r assignable left index right value =>
    refine .cons (.lead (.assignIndex r assignable left index right value) r.beginsAt)
      (.append r.placed.left ?_)
    exact .append index.placed.left.after.right value.placed.after.right.after.right
  | call r args semicolon =>
    exact .cons (.lead (.call r args semicolon) r.beginsAt)
      (.append r.placed.left args.placed.left.right)
  | ret word semicolon => exact .cons (.whole (.ret word semicolon)) allPlaced_nil
  | retValue word value semicolon =>
    exact .cons (.whole (.retValue word value semicolon)) (Expr.Spelled.placed value).left.after
  | ifThen word cond body ih =>
    exact .cons (.whole (.ifThen word cond body)) (.append cond.placed.left.after ih.right.after)
  | ifElse word cond body closed word' other ihBody ihOther =>
    refine .cons (.whole (.ifElse word cond body closed word' other))
      (.append cond.placed.left.after ?_)
    exact .append ihBody.left.right.after ihOther.after.right.right.after
  | loop word cond body ih =>
    exact .cons (.whole (.loop word cond body)) (.append cond.placed.left.after ih.right.after)
  | endStmts => exact allPlaced_nil
  | stmts first more ihFirst ihMore => exact .append ihFirst.left ihMore.right

theorem ParamDecl.Spelled.placed {p : ParamDecl} {ts : List Token} (h : p.Spelled ts) :
    AllPlaced p.landmarks ts := by
  obtain ⟨type, word⟩ := h
  exact .cons ⟨_, List.mem_append_right _ List.mem_cons_self, word, rfl⟩ type.placed.left

theorem ParamDecl.SpelledMore.placed {ps : List ParamDecl} {ts : List Token}
    (h : SpelledMore ps ts) : AllPlaced (ps.flatMap ParamDecl.landmarks) ts := by
  induction h with
  | done => exact allPlaced_nil
  | more comma next rest ih => exact .append next.placed.left.after ih.right.after

theorem ParamDecl.SpelledAll.placed {ps : List ParamDecl} {ts : List Token} (h : SpelledAll ps ts) :
    AllPlaced (ps.flatMap ParamDecl.landmarks) ts := by
  cases h with
  | none => exact allPlaced_nil
  | some left first rest => exact .append first.placed.left.after rest.placed.right.after

def Member.landmarks : Member → List Landmark
  | .inl f => f.landmarks
  | .inr m => m.landmarks

theorem Member.Spelled.placed {m : Member} {ts : List Token} (h : Member.Spelled m ts) :
    AllPlaced (landmarks m) ts := by
  cases h with
  | @field isPrivate isStatic type n c name us vs ws _ _ type' word =>
    have rest :
        AllPlaced (FieldDecl.landmarks ⟨name, type, isPrivate, isStatic, n.pos⟩) (ws ++ [n, c]) :=
      .cons ⟨n, List.mem_append_right _ List.mem_cons_self, word, rfl⟩ type'.placed.left
    exact rest.right.right
  | @method isPrivate isStatic result n l name params body us vs ws xs ys _ _ result'
      word params' _ body' =>
    have rest : AllPlaced
        (MethodDecl.landmarks ⟨⟨name, result, isPrivate, isStatic, params, n.pos⟩, body⟩)
        (ws ++ n :: (xs ++ l :: ys)) := by
      refine .cons ⟨n, List.mem_append_right _ List.mem_cons_self, word, rfl⟩
        (.append result'.placed.left ?_)
      exact .append params'.placed.left.after.right
        (Passage.Spelled.placed body').after.right.after.right
    exact rest.right.right

theorem Member.SpelledAll.placed {ms : List Member} {ts : List Token}
    (h : Member.SpelledAll ms ts) : AllPlaced (ms.flatMap landmarks) ts := by
  induction h with
  | done => exact allPlaced_nil
  | more first _ ih => exact .append first.placed.left ih.right

/-- The landmarks of a class are those of its members and its name. -/
theorem ClassDecl.landmarks_ofMembers {name : String} {ms : List Member} {pos : Nat} {l : Landmark}
    (h : l ∈ (ofMembers name ms pos).landmarks) :
    l = .declared name pos ∨ l ∈ ms.flatMap Member.landmarks := by
  simp only [landmarks, ofMembers, List.mem_cons, List.mem_append, List.mem_flatMap,
    List.mem_filterMap, Sum.getLeft?_eq_some_iff, Sum.getRight?_eq_some_iff] at h
  obtain rfl | ⟨f, ⟨_, hm, rfl⟩, hl⟩ | ⟨m, ⟨_, hm, rfl⟩, hl⟩ := h
  · exact .inl rfl
  · exact .inr (List.mem_flatMap.mpr ⟨_, hm, hl⟩)
  · exact .inr (List.mem_flatMap.mpr ⟨_, hm, hl⟩)

theorem ClassDecl.Spelled.placed {c : ClassDecl} {ts : List Token} (h : c.Spelled ts) :
    AllPlaced c.landmarks ts := by
  obtain ⟨word, cls, left, members⟩ := h
  intro l hl
  obtain rfl | inside := landmarks_ofMembers hl
  · exact ⟨_, List.mem_cons_of_mem _ List.mem_cons_self, cls, rfl⟩
  · exact members.placed.after.after.after l inside

theorem ClassDecl.SpelledAll.placed {cs : List ClassDecl} {ts : List Token}
    (h : ClassDecl.SpelledAll cs ts) : AllPlaced (cs.flatMap ClassDecl.landmarks) ts := by
  induction h with
  | done => exact allPlaced_nil
  | more first _ ih => exact .append first.placed.left ih.right

/-- In a program that tokens spell, all landmarks stand where they do. -/
theorem Program.Spelled.placed {p : Program} {ts : List Token} (h : p.Spelled ts) :
    AllPlaced p.landmarks ts :=
  h.2.placed

end JamCompiler
