import JamCompiler.Proofs.FailFast

/-!
# Checking again

A check may be run again on what it has left: it then reports the same, ends in the same way and
changes no type, whatever the program, its bindings and the types that were there before, and also
if the first run was stopped.

The types are used in one way only: a node is given a type unless it has one, and the type it then
has is what the check goes on with. So whatever knows all that a run leaves answers it as the run
itself was answered, and learns nothing from it.
-/

namespace JamCompiler

open Pass

namespace SiteMap

variable {α : Type} {l m n : SiteMap α}

/-- Everything known in one map is known in another. -/
def Within (m n : SiteMap α) : Prop := ∀ t a, m.get? t = some a → n.get? t = some a

theorem Within.refl (m : SiteMap α) : m.Within m := fun _ _ known => known

theorem Within.trans (h : l.Within m) (h' : m.Within n) : l.Within n :=
  fun t a known => h' t a (h t a known)

theorem within_fill (m : SiteMap α) (s : Site) (a : α) : m.Within (m.fill s a) :=
  fun _ _ => get?_fill_of_some

end SiteMap

namespace Pass

variable {σ α : Type}

/-- The state that a run leaves. -/
def ownOf : EStateM.Result Stop (Work σ) α → σ
  | .ok _ w | .error _ w => w.own

/-- The same outcome with another state. -/
def withOwn (s : σ) : EStateM.Result Stop (Work σ) α → EStateM.Result Stop (Work σ) α
  | .ok a w => .ok a { w with own := s }
  | .error stop w => .error stop { w with own := s }

end Pass

namespace Typing

variable {α β : Type}

/-- A step of the check keeps the types it finds; on types that know all it leaves, it does the same
and leaves them alone. -/
structure Repeats (x : Typing α) : Prop where
  keeps : ∀ w : Work (SiteMap ValueType), w.own.Within (ownOf (EStateM.run x w))
  again : ∀ {w : Work (SiteMap ValueType)} {n : SiteMap ValueType},
    (ownOf (EStateM.run x w)).Within n →
    EStateM.run x { w with own := n } = withOwn n (EStateM.run x w)

theorem run_record (site : Site) (type : ValueType) (w : Work (SiteMap ValueType)) :
    EStateM.run (record site type) w =
      .ok ((w.own.get? site).getD type) { w with own := w.own.fill site type } := by
  have known := SiteMap.get?_fill_self w.own site type
  simp only [record, EStateM.run_bind, run_modifyOwn, run_getOwn, known]
  rfl

namespace Repeats

variable {x : Typing α} {f : α → Typing β} {fault : TypeFault} {pos : Nat}

theorem pure (a : α) : Repeats (Pure.pure a : Typing α) := ⟨fun w => .refl w.own, fun _ => rfl⟩

theorem fatal (fault : Fault) (pos : Nat) : Repeats (Pass.fatal fault pos : Typing α) :=
  ⟨fun w => .refl w.own, fun _ => rfl⟩

theorem report (fault : TypeFault) (pos : Nat) : Repeats (reportType fault pos) := by
  constructor
  · intro w
    rw [reportType, run_report]
    split <;> exact .refl w.own
  · intro w n _
    rw [reportType, run_report, run_report]
    split <;> rfl

/-- The second step is repeated on what knows what it left, and with that what the first step
left. -/
theorem bind (first : Repeats x) (next : ∀ a, Repeats (f a)) : Repeats (x >>= f) := by
  constructor
  · intro w
    have kept := first.keeps w
    rw [EStateM.run_bind]
    cases run : EStateM.run x w with
    | ok a v =>
      rw [run] at kept
      exact kept.trans ((next a).keeps v)
    | error stop v =>
      rw [run] at kept
      exact kept
  · intro w n knows
    have same := first.again (w := w) (n := n)
    rw [EStateM.run_bind] at knows ⊢
    rw [EStateM.run_bind]
    cases run : EStateM.run x w with
    | ok a v =>
      rw [run] at same knows
      rw [same (((next a).keeps v).trans knows)]
      exact (next a).again knows
    | error stop v =>
      rw [run] at same knows
      rw [same knows]
      rfl

/-- A node keeps the type that it has, and is given the same one as the first time if it has
none. -/
theorem record (site : Site) (type : ValueType) : Repeats (record site type) := by
  constructor
  · intro w
    rw [run_record]
    exact SiteMap.within_fill w.own site type
  · intro w n knows
    rw [run_record] at knows ⊢
    have known : n.get? site = some ((w.own.get? site).getD type) :=
      knows _ _ (SiteMap.get?_fill_self w.own site type)
    have unchanged : n.fill site type = n := by simp only [SiteMap.fill, known]
    rw [run_record]
    simp only [known, unchanged, withOwn, Option.getD_some]

theorem faulty (fault : TypeFault) (pos : Nat) : Repeats (faulty fault pos) :=
  (report fault pos).bind fun _ => .pure _

/-- A fault that is reported unless a condition holds, before a step goes on. -/
theorem reported_unless {c : Bool} {next : Unit → Typing α} (after : Repeats (next ())) :
    Repeats (if (!c) = true then reportType fault pos >>= next else next ()) := by
  split
  · exact (report fault pos).bind fun _ => after
  · exact after

theorem recorded {x : Typing ValueType} (h : Repeats x) (site : Site) :
    Repeats (x >>= Typing.record site) :=
  h.bind (record site)

theorem finish (site : Site) : Repeats (finish site) := (record site _).bind fun _ => .pure _

theorem finished {x : Typing Unit} (h : Repeats x) (site : Site) :
    Repeats (x >>= fun _ => Typing.finish site) :=
  h.bind fun _ => finish site

theorem forM {γ : Type} {g : γ → Typing Unit} (each : ∀ a, Repeats (g a)) (l : List γ) :
    Repeats (l.forM g) := by
  induction l with
  | nil => exact .pure ()
  | cons a rest ih => exact (each a).bind fun _ => ih

end Repeats

section Checks

variable (ctx : Context)

theorem repeats_declOf (site : Site) (r : Reference) : Repeats (declOf ctx site r) := by
  unfold declOf
  cases ctx.bound site with
  | some d => exact .pure d
  | none => exact .fatal _ _

theorem repeats_checkValue (site : Site) (r : Reference) : Repeats (checkValue ctx site r) := by
  refine (repeats_declOf ctx site r).bind fun d => ?_
  split
  · exact .pure _
  · exact .faulty _ _
  · exact .faulty _ _
  · split
    · exact .faulty _ _
    · exact .pure _

theorem repeats_checkTarget (site : Site) (r : Reference) : Repeats (checkTarget ctx site r) := by
  refine (repeats_declOf ctx site r).bind fun d => ?_
  split
  · exact .faulty _ _
  · exact .faulty _ _
  · exact .faulty _ _
  · split
    · exact .faulty _ _
    · split
      · exact .faulty _ _
      · exact .pure _

theorem repeats_checkUnary (op : UnaryOp) (pos : Nat) (given : ValueType) :
    Repeats (checkUnary op pos given) := by
  unfold checkUnary
  cases op with
  | neg | not =>
    dsimp only
    split
    · exact .pure _
    · exact .faulty _ _
  | other text => exact .fatal _ _

theorem repeats_checkBinary (op : BinaryOp) (pos : Nat) (left right : ValueType) :
    Repeats (checkBinary op pos left right) := by
  unfold checkBinary
  cases op with
  | other text => exact .fatal _ _
  | or | and | eq | ne | lt | le | gt | ge | add | sub | mul | div =>
    dsimp only
    split
    · exact .pure _
    · exact .faulty _ _

theorem repeats_matchArgs (method : String) (args : List (Nat × ValueType))
    (params : List (ParamDecl × ValueType)) : Repeats (matchArgs method args params) := by
  induction args generalizing params with
  | nil => exact .pure ()
  | cons arg rest ih =>
    cases params with
    | nil => exact .pure ()
    | cons p params =>
      unfold matchArgs
      dsimp only
      split
      · exact (Repeats.report _ _).bind fun _ => ih params
      · exact ih params

theorem repeats_checkCall (d : Decl) (r : Reference) (pos : Nat) (args : List (Nat × ValueType)) :
    Repeats (checkCall ctx d r pos args) := by
  unfold checkCall
  split
  · split
    · exact .faulty _ _
    · exact (repeats_matchArgs _ _ _).bind fun _ => .pure _
  · exact .faulty _ _

mutual

theorem repeats_checkExpr (site : Site) (e : Expr) : Repeats (checkExpr ctx site e) :=
  match e with
  | .int .. => .record site _
  | .bool .. => .record site _
  | .null _ => .record site _
  | .unary op operand pos =>
    (repeats_checkExpr site.operand operand).bind fun given =>
      (repeats_checkUnary op pos given).recorded site
  | .binary op left right pos =>
    (repeats_checkExpr site.left left).bind fun leftType =>
      (repeats_checkExpr site.right right).bind fun rightType =>
        (repeats_checkBinary op pos leftType rightType).recorded site
  | .ref ref _ => (repeats_checkValue ctx site.target ref).recorded site
  | .index ref index _ => by
    refine (repeats_checkValue ctx site.target ref).bind fun type =>
      (repeats_checkExpr site.index index).bind fun given => .reported_unless ?_
    split
    · exact .record site _
    · exact .record site _
    · exact (Repeats.faulty _ _).recorded site
  | .call method args pos =>
    (repeats_declOf ctx site.target method).bind fun d =>
      (repeats_checkArgs site 0 args).bind fun types =>
        (repeats_checkCall ctx d method pos types).recorded site
  | .newObject _ _ => .record site _
  | .newArray _ size _ =>
    (repeats_checkExpr site.size size).bind fun _ =>
      .reported_unless (.record site _)
  | .unknown _ pos => .fatal _ pos

theorem repeats_checkArgs (call : Site) (k : Nat) (args : List Expr) :
    Repeats (checkArgs ctx call k args) :=
  match args with
  | [] => .pure []
  | e :: rest =>
    (repeats_checkExpr (call.arg k) e).bind fun _ =>
      (repeats_checkArgs call (k + 1) rest).bind fun _ => .pure _

end

theorem repeats_checkCondition (site : Site) (statement : String) (cond : Expr) :
    Repeats (checkCondition ctx site statement cond) :=
  (repeats_checkExpr ctx site cond).bind fun _ => by
    split
    · exact .report _ _
    · exact .pure ()

theorem repeats_checkReturn (site : Site) (pos : Nat) (value : Option Expr) :
    Repeats (checkReturn ctx site pos value) := by
  unfold checkReturn
  cases value with
  | none =>
    dsimp only
    split
    · exact .report _ _
    · exact .pure ()
  | some value =>
    refine (repeats_checkExpr ctx site.value value).bind fun given => ?_
    split
    · exact .report _ _
    · split
      · exact .report _ _
      · exact .pure ()

mutual

theorem repeats_checkStmt (site : Site) (s : Stmt) : Repeats (checkStmt ctx site s) :=
  match s with
  | .block stmts _ => (repeats_checkStmts site 0 stmts).finished site
  | .declare _ init _ =>
    (repeats_checkExpr ctx site.init init).bind fun _ => .reported_unless (.finish site)
  | .assign target value _ =>
    (repeats_checkTarget ctx site.target target).bind fun _ =>
      (repeats_checkExpr ctx site.value value).bind fun _ => .reported_unless (.finish site)
  | .assignIndex target index value _ => by
    refine (repeats_checkTarget ctx site.target target).bind fun type =>
      (repeats_checkExpr ctx site.index index).bind fun _ =>
        (repeats_checkExpr ctx site.value value).bind fun given => .reported_unless ?_
    split
    · exact .reported_unless (.finish site)
    · exact .finish site
    · exact (Repeats.report _ _).finished site
  | .call method args pos =>
    (repeats_declOf ctx site.target method).bind fun d =>
      (repeats_checkArgs ctx site 0 args).bind fun types =>
        (repeats_checkCall ctx d method pos types).bind fun _ => .finish site
  | .ret value pos => (repeats_checkReturn ctx site pos value).finished site
  | .ifThen cond body _ =>
    (repeats_checkCondition ctx site.cond "if" cond).bind fun _ =>
      (repeats_checkStmt site.thenBranch body).finished site
  | .ifElse cond body other _ =>
    (repeats_checkCondition ctx site.cond "if" cond).bind fun _ =>
      (repeats_checkStmt site.thenBranch body).bind fun _ =>
        (repeats_checkStmt site.elseBranch other).finished site
  | .loop cond body _ =>
    (repeats_checkCondition ctx site.cond "while" cond).bind fun _ =>
      (repeats_checkStmt site.thenBranch body).finished site
  | .unknown _ pos => .fatal _ pos

theorem repeats_checkStmts (block : Site) (k : Nat) (stmts : List Stmt) :
    Repeats (checkStmts ctx block k stmts) :=
  match stmts with
  | [] => .pure ()
  | s :: rest =>
    (repeats_checkStmt (block.stmt k) s).bind fun _ => repeats_checkStmts block (k + 1) rest

end

theorem repeats_checkBody (method : Site) (k : Nat) (stmts : List Stmt) :
    Repeats (checkBody ctx method k stmts) := by
  induction stmts generalizing k with
  | nil => exact .pure ()
  | cons s rest ih => exact (repeats_checkStmt ctx (method.body k) s).bind fun _ => ih (k + 1)

end Checks

theorem repeats_check (bound : Site → Option Decl) (p : Program) : Repeats (check bound p) :=
  .forM (fun _ => repeats_checkBody _ _ 0 _) _

end Typing

/-- The check is run again on what it has left, with a new log: it ends as it did, leaves everything
as it is, and records what it had added to its log. -/
theorem Compilation.check_again (c : Compilation) :
    ∃ found, c.check.1.log = c.log.append found ∧
      (c.check.1.onLog { failFast := c.log.failFast }).check =
        (c.check.1.onLog found, c.check.2) := by
  have onOld := (Typing.plain_check c.bindings.get? c.program).run_append c.log c.types
  have repeats := Typing.repeats_check c.bindings.get? c.program
  cases first : EStateM.run (Typing.check c.bindings.get? c.program)
      ⟨{ failFast := c.log.failFast }, c.types⟩ with
  | ok a w | error stop w =>
    have second := repeats.again (n := w.own) (by rw [first]; exact .refl w.own)
    rw [first] at onOld second
    simp only [withOwn] at second
    refine ⟨w.log, ?_, ?_⟩
    · simp only [check, Pass.run, onOld]
    · simp only [check, Pass.run, onLog, onOld, second]

end JamCompiler
