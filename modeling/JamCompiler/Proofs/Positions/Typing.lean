import JamCompiler.Proofs.Positions.Landmarks
import JamCompiler.Proofs.Positions.Logs
import JamCompiler.Typing

/-!
# Positions of what the check reports

Whatever the check of types reports stands at a landmark of a method body. The positions of
arguments travel with their types to where they are compared with the parameters, so what is shown
of a list of arguments is also that the positions in it are landmarks.
-/

namespace JamCompiler

open Pass
open Landmark (AllAt)

namespace Typing

/-- All that a step writes stands at one of some positions, and something holds of its answer. -/
abbrev Points {α : Type} (P : Nat → Prop) (x : Typing α) (R : α → Prop) : Prop :=
  Logs (Diagnostic.At P) (fun _ => True) x fun a _ => R a

/-- The same of a step of whose answer nothing is asked. -/
abbrev Stays {α : Type} (P : Nat → Prop) (x : Typing α) : Prop := Points P x fun _ => True

section Steps

variable {P : Nat → Prop} {α β : Type} {pos : Nat}

theorem stays_pure (a : α) : Stays P (pure a : Typing α) := .pure fun _ => id

theorem Stays.bind {x : Typing α} {f : α → Typing β} (first : Stays P x)
    (next : ∀ a, Stays P (f a)) : Stays P (x >>= f) :=
  Logs.bind first next

/-- After a step of whose answer something is known. -/
theorem Stays.after {R : α → Prop} {x : Typing α} {f : α → Typing β} (first : Points P x R)
    (next : ∀ a, R a → Stays P (f a)) : Stays P (x >>= f) := by
  refine Logs.bind first fun a => .fix fun _ holds => ?_
  exact (next a holds).imp (fun _ _ => trivial) fun _ _ => id

theorem stays_report (h : P pos) (fault : TypeFault) : Stays P (reportType fault pos) :=
  .report ⟨pos, rfl, h⟩

theorem stays_fatal (h : P pos) (fault : TypeFault) :
    Stays P (Pass.fatal (.typing fault) pos : Typing α) :=
  .fatal ⟨pos, rfl, h⟩

theorem stays_faulty (h : P pos) (fault : TypeFault) : Stays P (faulty fault pos) :=
  (stays_report h fault).bind fun _ => stays_pure _

theorem stays_record (site : Site) (type : ValueType) : Stays P (record site type) := by
  refine Stays.bind (.modifyOwn fun _ => id) fun _ => Stays.bind ?_ fun _ => stays_pure _
  exact Logs.getOwn.imp (fun _ => id) fun _ _ _ => trivial

/-- A fault that is reported under a condition before a step goes on. -/
theorem stays_unless {fault : TypeFault} {c : Prop} [Decidable c] {f : Unit → Typing α} (h : P pos)
    (next : ∀ u, Stays P (f u)) : Stays P (if c then reportType fault pos >>= f else f ()) := by
  split
  · exact (stays_report h fault).bind next
  · exact next ()

theorem stays_finish (site : Site) : Stays P (finish site) :=
  (stays_record _ _).bind fun _ => stays_pure _

end Steps

section Parts

variable {P : Nat → Prop} {ctx : Context}

theorem stays_declOf (site : Site) {r : Reference} (h : P r.pos) : Stays P (declOf ctx site r) := by
  unfold declOf
  split
  · exact stays_pure _
  · exact stays_fatal h _

theorem stays_checkValue (site : Site) {r : Reference} (h : P r.pos) :
    Stays P (checkValue ctx site r) := by
  refine (stays_declOf site h).bind fun d => ?_
  split
  · exact stays_pure _
  · exact stays_faulty h _
  · exact stays_faulty h _
  · split
    · exact stays_faulty h _
    · exact stays_pure _

theorem stays_checkTarget (site : Site) {r : Reference} (h : P r.pos) :
    Stays P (checkTarget ctx site r) := by
  refine (stays_declOf site h).bind fun d => ?_
  split
  · exact stays_faulty h _
  · exact stays_faulty h _
  · exact stays_faulty h _
  · split
    · exact stays_faulty h _
    · split
      · exact stays_faulty h _
      · exact stays_pure _

theorem stays_checkUnary (op : UnaryOp) {pos : Nat} (h : P pos) (given : ValueType) :
    Stays P (checkUnary op pos given) := by
  cases op with
  | neg | not =>
    unfold checkUnary
    dsimp only
    split
    · exact stays_pure _
    · exact stays_faulty h _
  | other text => exact stays_fatal h _

theorem stays_checkBinary (op : BinaryOp) {pos : Nat} (h : P pos) (left right : ValueType) :
    Stays P (checkBinary op pos left right) := by
  cases op with
  | other text => exact stays_fatal h _
  | or | and | eq | ne | lt | le | gt | ge | add | sub | mul | div =>
    unfold checkBinary
    dsimp only
    split
    · exact stays_pure _
    · exact stays_faulty h _

theorem stays_matchArgs (method : String) (args : List (Nat × ValueType))
    (params : List (ParamDecl × ValueType)) (h : ∀ a ∈ args, P a.1) :
    Stays P (matchArgs method args params) := by
  induction args generalizing params with
  | nil => exact stays_pure _
  | cons a rest ih =>
    obtain ⟨here, later⟩ := List.forall_mem_cons.mp h
    cases params with
    | nil => exact stays_pure _
    | cons p params =>
      unfold matchArgs
      exact stays_unless here fun _ => ih params later

theorem stays_checkCall (d : Decl) {r : Reference} {pos : Nat} {args : List (Nat × ValueType)}
    (here : P pos) (inRef : P r.pos) (h : ∀ a ∈ args, P a.1) :
    Stays P (checkCall ctx d r pos args) := by
  unfold checkCall
  split
  · split
    · exact stays_faulty here _
    · exact (stays_matchArgs _ _ _ h).bind fun _ => stays_pure _
  · exact stays_faulty inRef _

end Parts

section Trees

variable {P : Nat → Prop}

mutual

theorem stays_checkExpr (ctx : Context) (site : Site) (e : Expr) (h : AllAt P e.landmarks) :
    Stays P (checkExpr ctx site e) := by
  match e with
  | .int .. | .bool .. | .null .. => exact stays_record _ _
  | .unary op operand pos =>
    obtain ⟨here, inside⟩ := List.forall_mem_cons.mp h
    exact (stays_checkExpr ctx _ operand inside).bind fun _ =>
      (stays_checkUnary op here _).bind fun _ => stays_record _ _
  | .binary op left right pos =>
    obtain ⟨here, inLeft, inRight⟩ := h.parts
    exact (stays_checkExpr ctx _ left inLeft).bind fun _ =>
      (stays_checkExpr ctx _ right inRight).bind fun _ =>
      (stays_checkBinary op here _ _).bind fun _ => stays_record _ _
  | .ref r pos =>
    have inside : P r.pos := h _ (List.mem_cons_of_mem _ r.mem_landmarks)
    exact (stays_checkValue _ inside).bind fun _ => stays_record _ _
  | .index r i pos =>
    obtain ⟨-, inRef, inIndex⟩ := h.parts
    refine (stays_checkValue _ (inRef _ r.mem_landmarks)).bind fun type =>
      (stays_checkExpr ctx _ i inIndex).bind fun given => ?_
    refine stays_unless (inIndex _ i.mem_landmarks) fun _ => ?_
    dsimp only
    split
    · exact stays_record _ _
    · exact stays_record _ _
    · exact (stays_faulty (inRef _ r.mem_landmarks) _).bind fun _ => stays_record _ _
  | .call method args pos =>
    obtain ⟨here, inRef, inArgs⟩ := h.parts
    have refAt := inRef _ method.mem_landmarks
    refine (stays_declOf _ refAt).bind fun d =>
      Stays.after (points_checkArgs ctx site 0 args inArgs) ?_
    intro types argsAt
    exact (stays_checkCall d here refAt argsAt).bind fun _ => stays_record _ _
  | .newObject type pos => exact stays_record _ _
  | .newArray element size pos =>
    obtain ⟨-, -, inSize⟩ := h.parts
    refine (stays_checkExpr ctx _ size inSize).bind fun given => ?_
    exact stays_unless (inSize _ size.mem_landmarks) fun _ => stays_record _ _
  | .unknown kind pos => exact stays_fatal (h _ List.mem_cons_self) _

/-- The positions among the answers are those of the arguments. -/
theorem points_checkArgs (ctx : Context) (call : Site) (k : Nat) (args : List Expr)
    (h : AllAt P (Expr.argLandmarks args)) :
    Points P (checkArgs ctx call k args) fun types => ∀ a ∈ types, P a.1 := by
  match args with
  | [] => exact .pure fun _ _ => List.forall_mem_nil _
  | e :: rest =>
    obtain ⟨here, later⟩ := List.forall_mem_append.mp h
    refine Logs.bind (stays_checkExpr ctx _ e here) fun type => ?_
    refine (points_checkArgs ctx call (k + 1) rest later).bind fun types => .pure fun _ argsAt => ?_
    exact List.forall_mem_cons.mpr ⟨here _ e.mem_landmarks, argsAt⟩

end

theorem stays_checkCondition (ctx : Context) (site : Site) (statement : String) (cond : Expr)
    (h : AllAt P cond.landmarks) : Stays P (checkCondition ctx site statement cond) := by
  refine (stays_checkExpr ctx site cond h).bind fun given => ?_
  split
  · exact stays_report (h _ cond.mem_landmarks) _
  · exact stays_pure _

theorem stays_checkReturn (ctx : Context) (site : Site) {pos : Nat} (value : Option Expr)
    (here : P pos) (h : ∀ e ∈ value, AllAt P e.landmarks) :
    Stays P (checkReturn ctx site pos value) := by
  cases value with
  | none =>
    rw [checkReturn]
    split
    · exact stays_report here _
    · exact stays_pure _
  | some e =>
    have there : P e.pos := h e rfl _ e.mem_landmarks
    refine (stays_checkExpr ctx _ e (h e rfl)).bind fun given => ?_
    split
    · exact stays_report there _
    · split
      · exact stays_report there _
      · exact stays_pure _

mutual

theorem stays_checkStmt (ctx : Context) (site : Site) (s : Stmt) (h : AllAt P s.landmarks) :
    Stays P (checkStmt ctx site s) := by
  match s with
  | .block stmts pos =>
    have inside : AllAt P (Stmt.allLandmarks stmts) := h.tail
    exact (stays_checkStmts ctx site 0 stmts inside).bind fun _ => stays_finish _
  | .declare var init pos =>
    obtain ⟨-, -, inInit⟩ := h.tail.parts
    refine (stays_checkExpr ctx _ init inInit).bind fun given => ?_
    exact stays_unless (inInit _ init.mem_landmarks) fun _ => stays_finish _
  | .assign target value pos =>
    obtain ⟨-, inRef, inValue⟩ := h.parts
    refine (stays_checkTarget _ (inRef _ target.mem_landmarks)).bind fun expected =>
      (stays_checkExpr ctx _ value inValue).bind fun given => ?_
    exact stays_unless (inValue _ value.mem_landmarks) fun _ => stays_finish _
  | .assignIndex target index value pos =>
    obtain ⟨-, inRef, inIndex, inValue⟩ := h.threeParts
    have refAt := inRef _ target.mem_landmarks
    have valueAt := inValue _ value.mem_landmarks
    refine (stays_checkTarget _ refAt).bind fun type =>
      (stays_checkExpr ctx _ index inIndex).bind fun _ =>
      (stays_checkExpr ctx _ value inValue).bind fun given => ?_
    refine stays_unless (inIndex _ index.mem_landmarks) fun _ => ?_
    dsimp only
    split
    · exact stays_unless valueAt fun _ => stays_finish _
    · exact stays_finish _
    · exact (stays_report refAt _).bind fun _ => stays_finish _
  | .call method args pos =>
    obtain ⟨here, inRef, inArgs⟩ := h.parts
    have refAt := inRef _ method.mem_landmarks
    refine (stays_declOf _ refAt).bind fun d =>
      Stays.after (points_checkArgs ctx site 0 args inArgs) ?_
    intro types argsAt
    exact (stays_checkCall d here refAt argsAt).bind fun _ => stays_finish _
  | .ret none pos =>
    exact (stays_checkReturn ctx site none (h _ List.mem_cons_self) nofun).bind fun _ =>
      stays_finish _
  | .ret (some value) pos =>
    obtain ⟨here, inside⟩ := List.forall_mem_cons.mp h
    refine (stays_checkReturn ctx site (some value) here ?_).bind fun _ => stays_finish _
    rintro _ ⟨⟩
    exact inside
  | .ifThen cond body pos | .loop cond body pos =>
    obtain ⟨-, inCond, inBody⟩ := h.parts
    exact (stays_checkCondition ctx _ _ cond inCond).bind fun _ =>
      (stays_checkStmt ctx _ body inBody).bind fun _ => stays_finish _
  | .ifElse cond body other pos =>
    obtain ⟨-, inCond, inBody, inOther⟩ := h.threeParts
    exact (stays_checkCondition ctx _ _ cond inCond).bind fun _ =>
      (stays_checkStmt ctx _ body inBody).bind fun _ =>
      (stays_checkStmt ctx _ other inOther).bind fun _ => stays_finish _
  | .unknown kind pos => exact stays_fatal (h _ List.mem_cons_self) _

theorem stays_checkStmts (ctx : Context) (block : Site) (k : Nat) (stmts : List Stmt)
    (h : AllAt P (Stmt.allLandmarks stmts)) : Stays P (checkStmts ctx block k stmts) := by
  match stmts with
  | [] => exact stays_pure _
  | s :: rest =>
    obtain ⟨here, later⟩ := List.forall_mem_append.mp h
    exact (stays_checkStmt ctx _ s here).bind fun _ => stays_checkStmts ctx block (k + 1) rest later

end

theorem stays_checkBody (ctx : Context) (method : Site) (k : Nat) (stmts : List Stmt)
    (h : AllAt P (Stmt.allLandmarks stmts)) : Stays P (checkBody ctx method k stmts) := by
  induction stmts generalizing k with
  | nil => exact stays_pure _
  | cons s rest ih =>
    obtain ⟨here, later⟩ := List.forall_mem_append.mp h
    exact (stays_checkStmt ctx _ s here).bind fun _ => ih _ later

/-- Whatever becomes of the check, all that it writes stands at landmarks of the program. -/
theorem stays_check (bound : Site → Option Decl) {p : Program} (h : AllAt P p.landmarks) :
    Stays P (check bound p) := by
  refine .forM ?_
  rintro ⟨site, m⟩ hm
  exact stays_checkBody _ _ _ _ (MethodDecl.allAt_body (p.allAt_method h hm))

end Trees

end Typing

end JamCompiler
