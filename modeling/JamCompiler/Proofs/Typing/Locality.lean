import JamCompiler.Proofs.Rechecking

/-!
# Where a check reads and writes types

A check of a node reads and writes the types of that node and of what lies below it, and no others.
So two checks of it that find the same types there answer the same and report the same, whatever
else is known, and what is known elsewhere they leave alone.
-/

namespace JamCompiler

open Pass

namespace Pass

variable {σ α : Type}

/-- What a run leaves, whether or not it came to its end. -/
def leftBy : EStateM.Result Stop (Work σ) α → Work σ
  | .ok _ w | .error _ w => w

theorem leftBy_of_run {x : Pass σ α} {log : Log} {s : σ} {w : Work σ} {answer : Except Stop α}
    (run : x.run log s = (w, answer)) : leftBy (EStateM.run x ⟨log, s⟩) = w := by
  unfold Pass.run at run
  split at run
  · rename_i ended
    cases run
    rw [ended]
    rfl
  · rename_i stopped
    cases run
    rw [stopped]
    rfl

end Pass

namespace Typing

variable {α β : Type} {a b region : Region} {x : Typing α} {f : α → Typing β}

/-- The steps of a check that read and write no types but those of a region. -/
inductive Local (region : Region) : {α : Type} → Typing α → Prop
  | pure {α : Type} (a : α) : Local region (Pure.pure a)
  | bind {α β : Type} {x : Typing α} {f : α → Typing β} :
      Local region x → (∀ a, Local region (f a)) → Local region (x >>= f)
  | fatal {α : Type} (fault : Fault) (pos : Nat) : Local region (Pass.fatal fault pos : Typing α)
  | report (fault : TypeFault) (pos : Nat) : Local region (reportType fault pos)
  | record {site : Site} (type : ValueType) : region site → Local region (Typing.record site type)

section Beside

variable (region : Region) (alike : Diagnostic → Diagnostic → Prop) (front : List Diagnostic)

/-- Two states that know the same types in a region. Their errors are the same at the front, and
after it alike one by one. -/
structure Beside (w w' : Work (SiteMap ValueType)) : Prop where
  failFast : w'.log.failFast = w.log.failFast
  notes : w'.log.notes = w.log.notes
  errors : ∃ more more', w.log.errors = front ++ more ∧ w'.log.errors = front ++ more' ∧
    List.Forall₂ alike more more'
  types : ∀ t, region t → w'.own.get? t = w.own.get? t

inductive StopAlike : Stop → Stop → Prop
  | aborted {d d' : Diagnostic} : alike d d' → StopAlike (.aborted d) (.aborted d')
  | missing : StopAlike .missingArgument .missingArgument

/-- Two runs that end alike. -/
inductive Related : EStateM.Result Stop (Work (SiteMap ValueType)) α →
    EStateM.Result Stop (Work (SiteMap ValueType)) α → Prop
  | ok (a : α) {w w' : Work (SiteMap ValueType)} : Beside region alike front w w' →
      Related (.ok a w) (.ok a w')
  | error {stop stop' : Stop} {w w' : Work (SiteMap ValueType)} : StopAlike alike stop stop' →
      Beside region alike front w w' → Related (.error stop w) (.error stop' w')

end Beside

variable {alike : Diagnostic → Diagnostic → Prop} {front : List Diagnostic}
  {w w' : Work (SiteMap ValueType)}

theorem Beside.refl (w : Work (SiteMap ValueType)) : Beside region alike w.log.errors w w where
  failFast := rfl
  notes := rfl
  errors := ⟨[], [], (List.append_nil _).symm, (List.append_nil _).symm, .nil⟩
  types _ _ := rfl

theorem Beside.addError {fault fault' : Fault} {pos pos' : Nat} (h : Beside region alike front w w')
    (same : alike ⟨.error, fault, pos⟩ ⟨.error, fault', pos'⟩) :
    Beside region alike front { w with log := w.log.addError fault pos }
      { w' with log := w'.log.addError fault' pos' } := by
  obtain ⟨more, more', errors, errors', all⟩ := h.errors
  refine ⟨h.failFast, h.notes,
    ⟨more ++ [⟨.error, fault, pos⟩], more' ++ [⟨.error, fault', pos'⟩], ?_, ?_, ?_⟩,
    h.types⟩
  · simp only [Log.addError, errors, List.append_assoc]
  · simp only [Log.addError, errors', List.append_assoc]
  · exact List.rel_append all (.cons same .nil)

namespace Related

theorem report {fault fault' : TypeFault} {pos pos' : Nat} (h : Beside region alike front w w')
    (same : alike ⟨.error, .typing fault, pos⟩ ⟨.error, .typing fault', pos'⟩) :
    Related region alike front (EStateM.run (reportType fault pos) w)
      (EStateM.run (reportType fault' pos') w') := by
  rw [reportType, reportType, run_report, run_report, h.failFast]
  split
  · exact .error (.aborted same) (h.addError same)
  · exact .ok () (h.addError same)

theorem record {site : Site} (type : ValueType) (h : Beside region alike front w w')
    (inside : region site) :
    Related region alike front (EStateM.run (Typing.record site type) w)
      (EStateM.run (Typing.record site type) w') := by
  rw [run_record, run_record, h.types site inside]
  refine .ok _ ⟨h.failFast, h.notes, h.errors, fun t ht => ?_⟩
  by_cases here : t = site
  · subst here
    rw [SiteMap.get?_fill_self, SiteMap.get?_fill_self, h.types t ht]
  · rw [SiteMap.get?_fill_of_ne _ _ here, SiteMap.get?_fill_of_ne _ _ here, h.types t ht]

theorem bind {y : Typing α} {g : α → Typing β}
    (first : Related region alike front (EStateM.run x w) (EStateM.run y w'))
    (next : ∀ {a v v'}, EStateM.run x w = .ok a v → EStateM.run y w' = .ok a v' →
      Beside region alike front v v' →
        Related region alike front (EStateM.run (f a) v) (EStateM.run (g a) v')) :
    Related region alike front (EStateM.run (x >>= f) w) (EStateM.run (y >>= g) w') := by
  rw [EStateM.run_bind, EStateM.run_bind]
  cases run : EStateM.run x w with
  | ok a v =>
    cases run' : EStateM.run y w' with
    | ok a' v' =>
      rw [run, run'] at first
      cases first with
      | ok _ beside => exact next run run' beside
    | error stop v' =>
      rw [run, run'] at first
      cases first
  | error stop v =>
    cases run' : EStateM.run y w' with
    | ok a' v' =>
      rw [run, run'] at first
      cases first
    | error stop' v' =>
      rw [run, run'] at first
      cases first with
      | error stops beside => exact .error stops beside

end Related

namespace Local

/-- Local steps do the same beside each other. -/
theorem related (h : Local region x) (same : ∀ d, alike d d)
    (beside : Beside region alike front w w') :
    Related region alike front (EStateM.run x w) (EStateM.run x w') := by
  induction h generalizing w w' with
  | pure a => exact .ok a beside
  | bind _ _ ihx ihf => exact (ihx beside).bind fun _ _ beside' => ihf _ beside'
  | fatal fault pos =>
    rw [run_fatal, run_fatal]
    exact .error (.aborted (same _)) (beside.addError (same _))
  | report fault pos => exact .report beside (same _)
  | record type inside => exact .record type beside inside

/-- What is known outside the region stays as it is. -/
theorem frame (h : Local region x) {t : Site} (outside : ¬ region t)
    (w : Work (SiteMap ValueType)) : (leftBy (EStateM.run x w)).own.get? t = w.own.get? t := by
  induction h generalizing w with
  | pure a => rfl
  | @bind _ _ x f _ _ ihx ihf =>
    rw [EStateM.run_bind]
    have first := ihx w
    cases run : EStateM.run x w with
    | ok a v =>
      rw [run] at first
      exact (ihf a v).trans first
    | error stop v =>
      rw [run] at first
      exact first
  | fatal => rfl
  | report fault pos =>
    rw [reportType, run_report]
    split <;> rfl
  | record type inside =>
    rw [run_record]
    exact SiteMap.get?_fill_of_ne _ _ fun same => outside (same ▸ inside)

theorem failFast (h : Local region x) (w : Work (SiteMap ValueType)) :
    (leftBy (EStateM.run x w)).log.failFast = w.log.failFast := by
  induction h generalizing w with
  | pure a => rfl
  | @bind _ _ x f _ _ ihx ihf =>
    rw [EStateM.run_bind]
    have first := ihx w
    cases run : EStateM.run x w with
    | ok a v =>
      rw [run] at first
      exact (ihf a v).trans first
    | error stop v =>
      rw [run] at first
      exact first
  | fatal => rfl
  | report fault pos =>
    rw [reportType, run_report]
    split <;> rfl
  | record type inside =>
    rw [run_record]
    rfl

theorem up (h : Local a x) (sub : a.Sub b) : Local b x := by
  induction h with
  | pure a => exact .pure a
  | bind _ _ ihx ihf => exact .bind ihx ihf
  | fatal fault pos => exact .fatal fault pos
  | report fault pos => exact .report fault pos
  | record type inside => exact .record type (sub _ inside)

theorem faulty (fault : TypeFault) (pos : Nat) : Local region (faulty fault pos) :=
  (report fault pos).bind fun _ => .pure _

/-- A fault that is reported unless a condition holds, before a step goes on. -/
theorem reported_unless {c : Bool} {fault : TypeFault} {pos : Nat} {next : Unit → Typing α}
    (after : Local region (next ())) :
    Local region (if (!c) = true then reportType fault pos >>= next else next ()) := by
  split
  · exact (report fault pos).bind fun _ => after
  · exact after

theorem finish {site : Site} (inside : region site) : Local region (finish site) :=
  (record _ inside).bind fun _ => .pure _

theorem forM {γ : Type} {g : γ → Typing Unit} {l : List γ} (each : ∀ a ∈ l, Local region (g a)) :
    Local region (l.forM g) := by
  induction l with
  | nil => exact .pure ()
  | cons a rest ih =>
    obtain ⟨first, later⟩ := List.forall_mem_cons.mp each
    exact first.bind fun _ => ih later

end Local

section Checks

variable (ctx : Context)

theorem local_declOf (site : Site) (r : Reference) : Local region (declOf ctx site r) := by
  unfold declOf
  cases ctx.bound site with
  | some d => exact .pure d
  | none => exact .fatal _ _

theorem local_checkValue (site : Site) (r : Reference) : Local region (checkValue ctx site r) := by
  refine (local_declOf ctx site r).bind fun d => ?_
  split
  · exact .pure _
  · exact .faulty _ _
  · exact .faulty _ _
  · split
    · exact .faulty _ _
    · exact .pure _

theorem local_checkTarget (site : Site) (r : Reference) :
    Local region (checkTarget ctx site r) := by
  refine (local_declOf ctx site r).bind fun d => ?_
  split
  · exact .faulty _ _
  · exact .faulty _ _
  · exact .faulty _ _
  · split
    · exact .faulty _ _
    · split
      · exact .faulty _ _
      · exact .pure _

theorem local_checkUnary (op : UnaryOp) (pos : Nat) (given : ValueType) :
    Local region (checkUnary op pos given) := by
  unfold checkUnary
  cases op with
  | neg | not =>
    dsimp only
    split
    · exact .pure _
    · exact .faulty _ _
  | other text => exact .fatal _ _

theorem local_checkBinary (op : BinaryOp) (pos : Nat) (left right : ValueType) :
    Local region (checkBinary op pos left right) := by
  unfold checkBinary
  cases op with
  | other text => exact .fatal _ _
  | or | and | eq | ne | lt | le | gt | ge | add | sub | mul | div =>
    dsimp only
    split
    · exact .pure _
    · exact .faulty _ _

theorem local_matchArgs (method : String) (args : List (Nat × ValueType))
    (params : List (ParamDecl × ValueType)) : Local region (matchArgs method args params) := by
  induction args generalizing params with
  | nil => exact .pure ()
  | cons arg rest ih =>
    cases params with
    | nil => exact .pure ()
    | cons p params =>
      unfold matchArgs
      dsimp only
      split
      · exact (Local.report _ _).bind fun _ => ih params
      · exact ih params

theorem local_checkCall (d : Decl) (r : Reference) (pos : Nat) (args : List (Nat × ValueType)) :
    Local region (checkCall ctx d r pos args) := by
  unfold checkCall
  split
  · split
    · exact .faulty _ _
    · exact (local_matchArgs _ _ _).bind fun _ => .pure _
  · exact .faulty _ _

theorem local_record_self (site : Site) (type : ValueType) : Local site.below (record site type) :=
  .record type (List.suffix_refl site)

mutual

theorem local_checkExpr (site : Site) (e : Expr) : Local site.below (checkExpr ctx site e) := by
  have self := local_record_self site
  match e with
  | .int .. | .bool .. | .null .. => exact self _
  | .unary op operand pos =>
    exact ((local_checkExpr site.operand operand).up (site.child_sub 0)).bind fun given =>
      (local_checkUnary op pos given).bind self
  | .binary op left right pos =>
    exact ((local_checkExpr site.left left).up (site.child_sub 0)).bind fun l =>
      ((local_checkExpr site.right right).up (site.child_sub 1)).bind fun r =>
        (local_checkBinary op pos l r).bind self
  | .ref r pos => exact (local_checkValue ctx site.target r).bind self
  | .index r i pos =>
    refine (local_checkValue ctx site.target r).bind fun type =>
      ((local_checkExpr site.index i).up (site.child_sub 1)).bind fun given => .reported_unless ?_
    split
    · exact self _
    · exact self _
    · exact (Local.faulty _ _).bind self
  | .call method args pos =>
    exact (local_declOf ctx site.target method).bind fun d =>
      ((local_checkArgs site 0 args).up (site.itemsFrom_sub 1 0)).bind fun types =>
        (local_checkCall ctx d method pos types).bind self
  | .newObject type pos => exact self _
  | .newArray element size pos =>
    exact ((local_checkExpr site.size size).up (site.child_sub 1)).bind fun given =>
      .reported_unless (self _)
  | .unknown kind pos => exact .fatal _ pos

theorem local_checkArgs (call : Site) (k : Nat) (args : List Expr) :
    Local (call.itemsFrom 1 k) (checkArgs ctx call k args) := by
  match args with
  | [] => exact .pure []
  | e :: rest =>
    exact ((local_checkExpr (call.arg k) e).up (call.item_sub_itemsFrom 1 k)).bind fun _ =>
      ((local_checkArgs call (k + 1) rest).up (call.itemsFrom_succ_sub 1 k)).bind fun _ => .pure _

end

theorem local_checkCondition (site : Site) (statement : String) (cond : Expr) :
    Local site.below (checkCondition ctx site statement cond) :=
  (local_checkExpr ctx site cond).bind fun _ => by
    split
    · exact .report _ _
    · exact .pure ()

theorem local_checkReturn (site : Site) (pos : Nat) (value : Option Expr) :
    Local site.below (checkReturn ctx site pos value) := by
  unfold checkReturn
  cases value with
  | none =>
    dsimp only
    split
    · exact .report _ _
    · exact .pure ()
  | some value =>
    refine ((local_checkExpr ctx site.value value).up (site.child_sub 2)).bind fun given => ?_
    split
    · exact .report _ _
    · split
      · exact .report _ _
      · exact .pure ()

mutual

theorem local_checkStmt (site : Site) (s : Stmt) : Local site.below (checkStmt ctx site s) := by
  have self : Local site.below (finish site) := .finish (List.suffix_refl site)
  match s with
  | .block stmts pos =>
    exact ((local_checkStmts site 0 stmts).up (site.itemsFrom_sub 0 0)).bind fun _ => self
  | .declare var init pos =>
    exact ((local_checkExpr ctx site.init init).up (site.child_sub 1)).bind fun _ =>
      .reported_unless self
  | .assign target value pos =>
    exact (local_checkTarget ctx site.target target).bind fun _ =>
      ((local_checkExpr ctx site.value value).up (site.child_sub 2)).bind fun _ =>
        .reported_unless self
  | .assignIndex target index value pos =>
    refine (local_checkTarget ctx site.target target).bind fun type =>
      ((local_checkExpr ctx site.index index).up (site.child_sub 1)).bind fun _ =>
        ((local_checkExpr ctx site.value value).up (site.child_sub 2)).bind fun given =>
          .reported_unless ?_
    split
    · exact .reported_unless self
    · exact self
    · exact (Local.report _ _).bind fun _ => self
  | .call method args pos =>
    exact (local_declOf ctx site.target method).bind fun d =>
      ((local_checkArgs ctx site 0 args).up (site.itemsFrom_sub 1 0)).bind fun types =>
        (local_checkCall ctx d method pos types).bind fun _ => self
  | .ret value pos => exact (local_checkReturn ctx site pos value).bind fun _ => self
  | .ifThen cond body pos | .loop cond body pos =>
    exact ((local_checkCondition ctx site.cond _ cond).up (site.child_sub 0)).bind fun _ =>
      ((local_checkStmt site.thenBranch body).up (site.child_sub 1)).bind fun _ => self
  | .ifElse cond body other pos =>
    exact ((local_checkCondition ctx site.cond _ cond).up (site.child_sub 0)).bind fun _ =>
      ((local_checkStmt site.thenBranch body).up (site.child_sub 1)).bind fun _ =>
        ((local_checkStmt site.elseBranch other).up (site.child_sub 2)).bind fun _ => self
  | .unknown kind pos => exact .fatal _ pos

theorem local_checkStmts (block : Site) (k : Nat) (stmts : List Stmt) :
    Local (block.itemsFrom 0 k) (checkStmts ctx block k stmts) := by
  match stmts with
  | [] => exact .pure ()
  | s :: rest =>
    exact ((local_checkStmt (block.stmt k) s).up (block.item_sub_itemsFrom 0 k)).bind fun _ =>
      (local_checkStmts block (k + 1) rest).up (block.itemsFrom_succ_sub 0 k)

end

theorem local_checkBody (method : Site) (k : Nat) (stmts : List Stmt) :
    Local (method.itemsFrom 2 k) (checkBody ctx method k stmts) := by
  induction stmts generalizing k with
  | nil => exact .pure ()
  | cons s rest ih =>
    exact ((local_checkStmt ctx (method.body k) s).up (method.item_sub_itemsFrom 2 k)).bind fun _ =>
      (ih (k + 1)).up (method.itemsFrom_succ_sub 2 k)

end Checks

end Typing

end JamCompiler
