import JamCompiler.Proofs.Checking
import JamCompiler.Proofs.Typing.Absorption

/-!
# Errors are contained

An erroneous expression causes no faults but its own. Wherever it stands in a program, there is a
type such that the check reports the same around it, up to the words of the faults, where it has
that type instead.
-/

namespace JamCompiler

open Pass Typing ValueType

section Places

variable {site : Site} {n : Site × Expr}

theorem Expr.below_of_nodes {e : Expr} (parts : n ∈ e.parts site → site.below n.1)
    (hn : n ∈ e.nodes site) : site.below n.1 := by
  rcases List.mem_cons.mp hn with rfl | inside
  · exact List.suffix_refl _
  · exact parts inside

mutual

theorem Expr.below_of_mem_parts {site : Site} (e : Expr) (hn : n ∈ e.parts site) :
    site.below n.1 := by
  match e with
  | .int .. | .bool .. | .null .. | .ref .. | .newObject .. | .unknown .. => cases hn
  | .unary op operand pos => exact site.child_sub 0 _ (below_of_nodes operand.below_of_mem_parts hn)
  | .binary op left right pos =>
    rcases List.mem_append.mp hn with inLeft | inRight
    · exact site.child_sub 0 _ (below_of_nodes left.below_of_mem_parts inLeft)
    · exact site.child_sub 1 _ (below_of_nodes right.below_of_mem_parts inRight)
  | .index r i pos => exact site.child_sub 1 _ (below_of_nodes i.below_of_mem_parts hn)
  | .call method args pos => exact site.itemsFrom_sub 1 0 _ (Expr.itemsFrom_of_mem_argNodes args hn)
  | .newArray element size pos =>
    exact site.child_sub 1 _ (below_of_nodes size.below_of_mem_parts hn)

theorem Expr.itemsFrom_of_mem_argNodes {call : Site} {k : Nat} (args : List Expr)
    (hn : n ∈ Expr.argNodes call k args) : call.itemsFrom 1 k n.1 := by
  match args with
  | [] => cases hn
  | e :: rest =>
    rcases List.mem_append.mp hn with here | later
    · exact call.item_sub_itemsFrom 1 k _ (below_of_nodes e.below_of_mem_parts here)
    · exact call.itemsFrom_succ_sub 1 k _ (Expr.itemsFrom_of_mem_argNodes rest later)

end

theorem Expr.below_of_mem_nodes {e : Expr} (hn : n ∈ e.nodes site) : site.below n.1 :=
  below_of_nodes e.below_of_mem_parts hn

mutual

theorem Stmt.below_of_mem_exprNodes {site : Site} (s : Stmt) (hn : n ∈ s.exprNodes site) :
    site.below n.1 := by
  match s with
  | .block stmts pos =>
    obtain ⟨k, -, below⟩ := Stmt.below_of_mem_exprNodesFrom stmts hn
    exact (site.suffix_item 0 k).trans below
  | .declare var init pos => exact site.child_sub 1 _ (Expr.below_of_mem_nodes hn)
  | .assign target value pos => exact site.child_sub 2 _ (Expr.below_of_mem_nodes hn)
  | .assignIndex target index value pos =>
    rcases List.mem_append.mp hn with inIndex | inValue
    · exact site.child_sub 1 _ (Expr.below_of_mem_nodes inIndex)
    · exact site.child_sub 2 _ (Expr.below_of_mem_nodes inValue)
  | .call method args pos => exact site.itemsFrom_sub 1 0 _ (Expr.itemsFrom_of_mem_argNodes args hn)
  | .ret none pos => cases hn
  | .ret (some value) pos => exact site.child_sub 2 _ (Expr.below_of_mem_nodes hn)
  | .ifThen cond body pos | .loop cond body pos =>
    rcases List.mem_append.mp hn with inCond | inBody
    · exact site.child_sub 0 _ (Expr.below_of_mem_nodes inCond)
    · exact site.child_sub 1 _ (body.below_of_mem_exprNodes inBody)
  | .ifElse cond body other pos =>
    rcases List.mem_append.mp hn with inCond | inBranches
    · exact site.child_sub 0 _ (Expr.below_of_mem_nodes inCond)
    · rcases List.mem_append.mp inBranches with inBody | inOther
      · exact site.child_sub 1 _ (body.below_of_mem_exprNodes inBody)
      · exact site.child_sub 2 _ (other.below_of_mem_exprNodes inOther)
  | .unknown kind pos => cases hn

theorem Stmt.below_of_mem_exprNodesFrom {sites : Nat → Site} {k : Nat} (stmts : List Stmt)
    (hn : n ∈ Stmt.exprNodesFrom sites k stmts) : ∃ j, k ≤ j ∧ (sites j).below n.1 := by
  match stmts with
  | [] => cases hn
  | s :: rest =>
    rcases List.mem_append.mp hn with here | later
    · exact ⟨k, Nat.le_refl k, s.below_of_mem_exprNodes here⟩
    · obtain ⟨j, le, below⟩ := Stmt.below_of_mem_exprNodesFrom rest later
      exact ⟨j, Nat.le_of_succ_le le, below⟩

end

end Places

namespace Typing

variable {α β : Type} {x : Typing α} {f : α → Typing β} {g : ValueType → Typing α} {a b : Region}
variable {ctx : Context} {site : Site} {n : Site × Expr} {w v : Work (SiteMap ValueType)}

theorem Local.away (h : Local a x) (apart : a.Apart b) (inside : b n.1) : Local (elsewhere n.1) x :=
  h.up (sub_elsewhere fun here => apart _ here inside)

theorem local_record_above {k : Nat} (inside : (site.child k).below n.1) (type : ValueType) :
    Local (elsewhere n.1) (record site type) := by
  refine .record type ?_
  rintro rfl
  exact not_below_child _ k inside

theorem local_finish_above {k : Nat} (inside : (site.child k).below n.1) :
    Local (elsewhere n.1) (finish site) :=
  (local_record_above inside _).bind fun _ => .pure _

theorem local_sibling {j k : Nat} (other : j ≠ k) (inside : (site.child k).below n.1) (e : Expr) :
    Local (elsewhere n.1) (checkExpr ctx (site.child j) e) :=
  (local_checkExpr ctx _ e).away (Site.children_apart other) inside

/-- A step leaves a region apart from it free. -/
theorem Local.leaves_free (h : Local a x) (apart : b.Apart a) (free : w.own.Free b) {r : α}
    (run : EStateM.run x w = .ok r v) : v.own.Free b := by
  intro t ht
  have kept := h.frame (apart t ht) w
  rw [run] at kept
  exact kept.trans (free t ht)

/-- An expression that is come to after a step apart from it. -/
theorem Contained.later (first : Local a x) (apart : b.Apart a) (inside : b n.1)
    (free : w.own.Free b)
    (next : ∀ r v, EStateM.run x w = .ok r v → v.own.Free b → Contained ctx n (f r) v) :
    Contained ctx n (x >>= f) w :=
  .before (first.away apart.symm inside) fun r v run =>
    next r v run (first.leaves_free apart free run)

/-- An expression, or one in it, with what its type is used for. -/
theorem Contained.operand {s : Site} {e : Expr} (free : w.own.Free s.below)
    (parts : n ∈ e.parts s → Contained ctx n (checkExpr ctx s e) w) (hn : n ∈ e.nodes s)
    (rest : ∀ type, Local (elsewhere n.1) (g type))
    (absorbs : (∀ type, Local (elsewhere n.1) (g type)) → ∀ v,
      EStateM.run (checkExpr ctx s e) w = .ok .error v → Absorbs n.1 g v) :
    Contained ctx n (checkExpr ctx s e >>= g) w := by
  rcases List.mem_cons.mp hn with rfl | inside
  · exact .hole free rest (absorbs rest)
  · exact .after (parts inside) rest

/-- An argument of a call, whose type is used for the check of the call only. -/
theorem Contained.call {args : List Expr} {method : Reference} (declared : ctx.Declared) (pos : Nat)
    (free : w.own.Free site.below) (hn : n ∈ Expr.argNodes site 0 args)
    (rest : ∀ type, Local (elsewhere n.1) (g type))
    (inArgs : ∀ {f : List (Nat × ValueType) → Typing α} {v}, v.own.Free (site.itemsFrom 1 0) →
      (∀ types, Local (elsewhere n.1) (f types)) → AbsorbsArgument f →
      Contained ctx n (checkArgs ctx site 0 args >>= f) v) :
    Contained ctx n (declOf ctx site.target method >>= fun d => checkArgs ctx site 0 args >>=
      fun types => checkCall ctx d method pos types >>= g) w := by
  refine .later (local_declOf ctx _ method) (Region.empty_apart _).symm
    (Expr.itemsFrom_of_mem_argNodes args hn) (free.down (site.itemsFrom_sub 1 0))
    fun d v ran free' => ?_
  have written := ((ends_declOf declared method).holds ran).1
  exact inArgs free' (fun types => (local_checkCall ctx d method pos types).bind rest)
    ((absorbs_checkCall written method pos).bind _)

mutual

theorem contained_expr {w : Work (SiteMap ValueType)} (declared : ctx.Declared) (site : Site)
    (e : Expr) (written : e.Written) (free : w.own.Free site.below) (hn : n ∈ e.parts site) :
    Contained ctx n (checkExpr ctx site e) w := by
  match e with
  | .int .. | .bool .. | .null .. | .ref .. | .newObject .. | .unknown .. => cases hn
  | .unary op operand pos =>
    have inside : (site.child 0).below n.1 := Expr.below_of_mem_nodes hn
    have operandFree := free.down (site.child_sub 0)
    refine .operand operandFree
      (contained_expr declared site.operand operand written.2 operandFree) hn
      (fun given => (local_checkUnary op pos given).bind (local_record_above inside))
      fun _ v _ => ?_
    obtain ⟨type, plain, same⟩ := exists_checkUnary_eq op pos
    exact .of_eq plain (congrArg (· >>= record site) same)
      ((local_checkUnary op pos type).bind (local_record_above inside))
  | .binary op left right pos =>
    have leftFree := free.down (site.child_sub 0)
    have rightFree := free.down (site.child_sub 1)
    have leftThere := local_checkExpr ctx site.left left
    rcases List.mem_append.mp hn with inLeft | inRight
    · have inside : (site.child 0).below n.1 := Expr.below_of_mem_nodes inLeft
      have rightThere : Local (elsewhere n.1) (checkExpr ctx site.right right) :=
        local_sibling (by decide) inside right
      refine .operand leftFree (contained_expr declared site.left left written.2.1 leftFree) inLeft
        (fun l =>
          rightThere.bind fun r => (local_checkBinary op pos l r).bind (local_record_above inside))
        fun _ v ran => .bind rightThere fun r u ran' => ?_
      -- which type stands in for the left operand is only known when the right one has been checked
      have free' := leftThere.leaves_free (Site.children_apart (by decide)) rightFree ran
      have supported :=
        (ends_checkExpr_supported declared (free_self free') right written.2.2).holds ran'
      obtain ⟨type, plain, alike, -⟩ := exists_checkBinary_alike n.1 op pos supported
      exact .of_alike plain (alike.bind (local_record_above inside))
    · have inside : (site.child 1).below n.1 := Expr.below_of_mem_nodes inRight
      refine .later leftThere (Site.children_apart (by decide)) inside rightFree
        fun l v ran free' => ?_
      refine .operand free' (contained_expr declared site.right right written.2.2 free') inRight
        (fun r => (local_checkBinary op pos l r).bind (local_record_above inside)) fun _ u _ => ?_
      have supported :=
        (ends_checkExpr_supported declared (free_self leftFree) left written.2.1).holds ran
      obtain ⟨type, plain, -, alike⟩ := exists_checkBinary_alike n.1 op pos supported
      exact .of_alike plain (alike.bind (local_record_above inside))
  | .index r i pos =>
    have inside : (site.child 1).below n.1 := Expr.below_of_mem_nodes hn
    refine .later (local_checkValue ctx _ r) (Region.empty_apart _).symm inside
      (free.down (site.child_sub 1))
      fun type v _ free' => ?_
    refine .operand free' (contained_expr declared site.index i written.2 free') hn
      (fun given => .reported_unless ?_) fun rest u _ => .isInt (rest (base .int))
    split
    · exact local_record_above inside _
    · exact local_record_above inside _
    · exact (Local.faulty _ _).bind (local_record_above inside)
  | .call method args pos =>
    have inside := site.itemsFrom_sub_child 1 0 _ (Expr.itemsFrom_of_mem_argNodes args hn)
    exact .call declared pos free hn (local_record_above inside) fun free' rest absorbs =>
      contained_args declared site 0 args written.2 free' rest absorbs hn
  | .newArray element size pos =>
    have inside : (site.child 1).below n.1 := Expr.below_of_mem_nodes hn
    have sizeFree := free.down (site.child_sub 1)
    exact .operand sizeFree (contained_expr declared site.size size written.2 sizeFree) hn
      (fun given => .reported_unless (local_record_above inside _))
      fun rest v _ => .isInt (rest (base .int))

theorem contained_args {α : Type} {f : List (Nat × ValueType) → Typing α}
    {w : Work (SiteMap ValueType)} (declared : ctx.Declared) (call : Site) (k : Nat)
    (args : List Expr) (written : Expr.AllWritten args) (free : w.own.Free (call.itemsFrom 1 k))
    (rest : ∀ types, Local (elsewhere n.1) (f types)) (absorbs : AbsorbsArgument f)
    (hn : n ∈ Expr.argNodes call k args) : Contained ctx n (checkArgs ctx call k args >>= f) w := by
  match args with
  | [] => cases hn
  | e :: later =>
    have step : checkArgs ctx call k (e :: later) >>= f =
        checkExpr ctx (call.arg k) e >>= fun type =>
          checkArgs ctx call (k + 1) later >>= fun types => f ((e.pos, type) :: types) := by
      simp only [checkArgs, bind_assoc, pure_bind]
    rw [step]
    have here := local_checkExpr ctx (call.arg k) e
    have there := local_checkArgs ctx call (k + 1) later
    have apart := call.item_apart_rest 1 k
    have hereFree := free.down (call.item_sub_itemsFrom 1 k)
    rcases List.mem_append.mp hn with inFirst | inLater
    · have inside : (call.arg k).below n.1 := Expr.below_of_mem_nodes inFirst
      have thereAway := there.away apart.symm inside
      refine .operand hereFree (contained_expr declared _ e written.1 hereFree) inFirst
        (fun type => thereAway.bind fun types => rest _) fun _ v _ =>
          .bind thereAway fun types u _ => ?_
      obtain ⟨type, plain, same⟩ := absorbs [] e.pos types
      exact .of_eq plain same (rest _)
    · have inside := Expr.itemsFrom_of_mem_argNodes later inLater
      refine .later here apart.symm inside (free.down (call.itemsFrom_succ_sub 1 k))
        fun type v _ free' => ?_
      exact contained_args declared call (k + 1) later written.2 free' (fun types => rest _)
        (absorbs.cons _) inLater

end

theorem Contained.value {s : Site} {e : Expr} (declared : ctx.Declared) (written : e.Written)
    (free : w.own.Free s.below) (hn : n ∈ e.nodes s) (rest : ∀ type, Local (elsewhere n.1) (g type))
    (absorbs : (∀ type, Local (elsewhere n.1) (g type)) → ∀ v,
      EStateM.run (checkExpr ctx s e) w = .ok .error v → Absorbs n.1 g v) :
    Contained ctx n (checkExpr ctx s e >>= g) w :=
  .operand free (contained_expr declared s e written free) hn rest absorbs

theorem contained_condition (declared : ctx.Declared) (statement : String) {cond : Expr}
    (written : cond.Written) (free : w.own.Free site.below) (hn : n ∈ cond.nodes site) :
    Contained ctx n (checkCondition ctx site statement cond) w := by
  refine .value declared written free hn (fun given => ?_) fun rest _ _ =>
    .of_eq .boolean rfl (rest (base .boolean))
  split
  · exact .report _ _
  · exact .pure ()

theorem contained_return (declared : ctx.Declared) (result : ctx.result.Supported) (pos : Nat)
    {value : Expr} (written : value.Written) (free : w.own.Free site.below)
    (hn : n ∈ value.nodes site.value) :
    Contained ctx n (checkReturn ctx site pos (some value)) w := by
  refine .value declared written (free.down (site.child_sub 2)) hn
    (fun given => ?_) fun rest _ _ => ?_
  · split
    · exact .report _ _
    · split
      · exact .report _ _
      · exact .pure ()
  · have goes := compatible_error_right ctx.result
    have goes' := compatible_standIn result
    refine .of_eq (standIn_plain result) ?_ (rest _)
    simp [goes, goes']

/-- The index is to be a number, and the value is to go with the elements if the target has any. -/
theorem contained_assignIndex (declared : ctx.Declared) (site : Site) (target : Reference)
    (pos : Nat) {index value : Expr} (writtenIndex : index.Written) (writtenValue : value.Written)
    (free : w.own.Free site.below)
    (hn : n ∈ (Stmt.assignIndex target index value pos).exprNodes site) :
    Contained ctx n (checkStmt ctx site (.assignIndex target index value pos)) w := by
  refine .later (local_checkTarget ctx _ target) (Region.empty_apart _).symm
    (Stmt.below_of_mem_exprNodes (.assignIndex target index value pos) hn) free
    fun type v ran free' => ?_
  have supported := ((ends_checkTarget declared target).holds ran).1
  have indexThere := local_checkExpr ctx site.index index
  have valueThere := local_checkExpr ctx site.value value
  have apart : (site.child 1).below.Apart (site.child 2).below := Site.children_apart (by decide)
  rcases List.mem_append.mp hn with inIndex | inValue
  · have inside : (site.child 1).below n.1 := Expr.below_of_mem_nodes inIndex
    have above := local_finish_above inside
    refine .value declared writtenIndex (free'.down (site.child_sub 1)) inIndex (fun indexType =>
      (valueThere.away apart.symm inside).bind fun given => .reported_unless ?_) fun rest _ _ =>
        .of_eq .int rfl (rest (base .int))
    split
    · exact .reported_unless above
    · exact above
    · exact (Local.report _ _).bind fun _ => above
  · have inside : (site.child 2).below n.1 := Expr.below_of_mem_nodes inValue
    have above := local_finish_above inside
    refine .later indexThere apart.symm inside (free'.down (site.child_sub 2))
      fun indexType u _ valueFree => ?_
    refine .value declared writtenValue valueFree inValue (fun given => .reported_unless ?_)
      fun _ _ _ => .reported_unless fun _ => ?_
    · split
      · exact .reported_unless above
      · exact above
      · exact (Local.report _ _).bind fun _ => above
    · split
      · refine .compatible ?_ above
        exact supported
      · exact .of_eq .int rfl above
      · exact .of_eq .int rfl ((Local.report _ _).bind fun _ => above)

mutual

theorem contained_stmt {w : Work (SiteMap ValueType)} (declared : ctx.Declared)
    (result : ctx.result.Supported) (site : Site) (s : Stmt) (written : s.Written)
    (free : w.own.Free site.below) (hn : n ∈ s.exprNodes site) :
    Contained ctx n (checkStmt ctx site s) w := by
  have child (k : Nat) : w.own.Free (site.child k).below := free.down (site.child_sub k)
  match s with
  | .block stmts pos =>
    obtain ⟨k, -, below⟩ := Stmt.below_of_mem_exprNodesFrom stmts hn
    have inside : (site.child 0).below n.1 := (site.child_suffix_item 0 k).trans below
    exact .after
      (contained_stmts declared result site 0 stmts written (free.down (site.itemsFrom_sub 0 0)) hn)
      fun _ => local_finish_above inside
  | .declare var init pos =>
    have inside : (site.child 1).below n.1 := Expr.below_of_mem_nodes hn
    have supported := (written.1.view_proper ctx.bound site.var.type).supported
    exact .value declared written.2 (child 1) hn
      (fun given => .reported_unless (local_finish_above inside))
      fun _ _ _ => .compatible supported (local_finish_above inside)
  | .assign target value pos =>
    have inside : (site.child 2).below n.1 := Expr.below_of_mem_nodes hn
    refine .later (local_checkTarget ctx _ target) (Region.empty_apart _).symm inside (child 2)
      fun expected v ran valueFree => ?_
    have supported := ((ends_checkTarget declared target).holds ran).1
    exact .value declared written.2 valueFree hn
      (fun given => .reported_unless (local_finish_above inside))
      fun _ _ _ => .compatible supported (local_finish_above inside)
  | .assignIndex target index value pos =>
    exact contained_assignIndex declared site target pos written.2.1 written.2.2 free hn
  | .call method args pos =>
    have inside := site.itemsFrom_sub_child 1 0 _ (Expr.itemsFrom_of_mem_argNodes args hn)
    exact .call declared pos free hn (fun _ => local_finish_above inside) fun free' rest absorbs =>
      contained_args declared site 0 args written.2 free' rest absorbs hn
  | .ret none pos => cases hn
  | .ret (some value) pos =>
    have inside : (site.child 2).below n.1 := Expr.below_of_mem_nodes hn
    exact .after (contained_return declared result pos written free hn) fun _ =>
      local_finish_above inside
  | .ifThen cond body pos | .loop cond body pos =>
    have condition (word : String) := local_checkCondition ctx site.cond word cond
    have branch := local_checkStmt ctx site.thenBranch body
    have apart : (site.child 1).below.Apart (site.child 0).below := Site.children_apart (by decide)
    rcases List.mem_append.mp hn with inCond | inBody
    · have inside : (site.child 0).below n.1 := Expr.below_of_mem_nodes inCond
      exact .after (contained_condition declared _ written.1 (child 0) inCond) fun _ =>
        (branch.away apart inside).bind fun _ => local_finish_above inside
    · have inside : (site.child 1).below n.1 := body.below_of_mem_exprNodes inBody
      refine .later (condition _) apart inside (child 1) fun _ v _ bodyFree => ?_
      exact .after (contained_stmt declared result site.thenBranch body written.2 bodyFree inBody)
        fun _ => local_finish_above inside
  | .ifElse cond body other pos =>
    have condition := local_checkCondition ctx site.cond "if" cond
    have branch := local_checkStmt ctx site.thenBranch body
    have branch' := local_checkStmt ctx site.elseBranch other
    have apart {j k : Nat} (different : j ≠ k) : (site.child j).below.Apart (site.child k).below :=
      Site.children_apart different
    rcases List.mem_append.mp hn with inCond | inBranches
    · have inside : (site.child 0).below n.1 := Expr.below_of_mem_nodes inCond
      exact .after (contained_condition declared _ written.1 (child 0) inCond) fun _ =>
        (branch.away (apart (by decide)) inside).bind fun _ =>
          (branch'.away (apart (by decide)) inside).bind fun _ => local_finish_above inside
    · rcases List.mem_append.mp inBranches with inBody | inOther
      · have inside : (site.child 1).below n.1 := body.below_of_mem_exprNodes inBody
        refine .later condition (apart (by decide)) inside (child 1) fun _ v _ bodyFree => ?_
        exact .after
          (contained_stmt declared result site.thenBranch body written.2.1 bodyFree inBody)
          fun _ =>
            (branch'.away (apart (by decide)) inside).bind fun _ => local_finish_above inside
      · have inside : (site.child 2).below n.1 := other.below_of_mem_exprNodes inOther
        refine .later condition (apart (by decide)) inside (child 2) fun _ v _ otherFree => ?_
        refine .later branch (apart (by decide)) inside otherFree fun _ u _ otherFree' => ?_
        exact .after
          (contained_stmt declared result site.elseBranch other written.2.2 otherFree' inOther)
          fun _ => local_finish_above inside
  | .unknown kind pos => cases hn

theorem contained_stmts {w : Work (SiteMap ValueType)} (declared : ctx.Declared)
    (result : ctx.result.Supported) (block : Site) (k : Nat) (stmts : List Stmt)
    (written : Stmt.AllWritten stmts) (free : w.own.Free (block.itemsFrom 0 k))
    (hn : n ∈ Stmt.exprNodesFrom block.stmt k stmts) :
    Contained ctx n (checkStmts ctx block k stmts) w := by
  match stmts with
  | [] => cases hn
  | s :: rest =>
    have here := local_checkStmt ctx (block.stmt k) s
    have there := local_checkStmts ctx block (k + 1) rest
    have apart := block.item_apart_rest 0 k
    rcases List.mem_append.mp hn with inFirst | inLater
    · have inside := s.below_of_mem_exprNodes inFirst
      have hereFree := free.down (block.item_sub_itemsFrom 0 k)
      exact .after (contained_stmt declared result _ s written.1 hereFree inFirst) fun _ =>
        there.away apart.symm inside
    · have inside := Stmt.below_of_mem_exprNodesFrom rest inLater
      refine .later here apart.symm inside (free.down (block.itemsFrom_succ_sub 0 k))
        fun _ v _ restFree => ?_
      exact contained_stmts declared result block (k + 1) rest written.2 restFree inLater

end

theorem contained_body {w : Work (SiteMap ValueType)} (declared : ctx.Declared)
    (result : ctx.result.Supported) (method : Site) (k : Nat) (stmts : List Stmt)
    (written : Stmt.AllWritten stmts) (free : w.own.Free (method.itemsFrom 2 k))
    (hn : n ∈ Stmt.exprNodesFrom method.body k stmts) :
    Contained ctx n (checkBody ctx method k stmts) w := by
  induction stmts generalizing k w with
  | nil => cases hn
  | cons s rest ih =>
    have here := local_checkStmt ctx (method.body k) s
    have there := local_checkBody ctx method (k + 1) rest
    have apart := method.item_apart_rest 2 k
    rcases List.mem_append.mp hn with inFirst | inLater
    · have inside := s.below_of_mem_exprNodes inFirst
      have hereFree := free.down (method.item_sub_itemsFrom 2 k)
      exact .after (contained_stmt declared result _ s written.1 hereFree inFirst) fun _ =>
        there.away apart.symm inside
    · have inside := Stmt.below_of_mem_exprNodesFrom rest inLater
      refine .later here apart.symm inside (free.down (method.itemsFrom_succ_sub 2 k))
        fun _ v _ restFree => ?_
      exact ih (k + 1) written.2 restFree inLater

/-- What the body of a method is checked against. -/
abbrev inMethod (bound : Site → Option Decl) (site : Site) (m : MethodDecl) : Context :=
  { bound := bound, home := .user site, method := m.head }

theorem local_checkMethod (bound : Site → Option Decl) (site : Site) (m : MethodDecl) :
    Local site.below (checkMethod bound site m) :=
  (local_checkBody (inMethod bound site m) site 0 m.body).up (site.itemsFrom_sub 2 0)

variable {bound : Site → Option Decl} {site : Site} {m : MethodDecl}

theorem contained_checkMethod {w : Work (SiteMap ValueType)}
    (declared : ∀ s d, bound s = some d → d.Written) (written : m.Written)
    (free : w.own.Free site.below) (hn : n ∈ Stmt.exprNodesFrom site.body 0 m.body) :
    Contained (inMethod bound site m) n (checkMethod bound site m) w := by
  have result : (inMethod bound site m).result.Supported :=
    written.result.viewAt_supported bound (.user site)
  exact contained_body declared result site 0 m.body written.body
    (free.down (site.itemsFrom_sub 2 0)) hn

theorem contained_methods {w : Work (SiteMap ValueType)} {methods : List (Site × MethodDecl)}
    (declared : ∀ s d, bound s = some d → d.Written) (written : m.Written)
    (apart : methods.Pairwise fun a b => a.1.below.Apart b.1.below)
    (free : ∀ s ∈ methods, w.own.Free s.1.below) (hm : (site, m) ∈ methods)
    (hn : n ∈ Stmt.exprNodesFrom site.body 0 m.body) :
    Contained (inMethod bound site m) n (methods.forM fun (site, d) =>
      checkMethod bound site d) w := by
  have inside : site.below n.1 := by
    obtain ⟨k, -, below⟩ := Stmt.below_of_mem_exprNodesFrom m.body hn
    exact (site.suffix_item 2 k).trans below
  induction methods generalizing w with
  | nil => cases hm
  | cons first rest ih =>
    obtain ⟨apartFirst, apartRest⟩ := List.pairwise_cons.mp apart
    obtain ⟨freeFirst, freeRest⟩ := List.forall_mem_cons.mp free
    have here := local_checkMethod bound first.1 first.2
    rcases List.mem_cons.mp hm with rfl | later
    · exact .after (contained_checkMethod declared written freeFirst hn) fun _ =>
        .forM fun other ho =>
        (local_checkMethod bound other.1 other.2).away (apartFirst other ho).symm inside
    · have apart' := apartFirst _ later
      refine .before (here.away apart' inside) fun _ v ran => ?_
      exact ih apartRest
        (fun s hs => here.leaves_free (apartFirst s hs).symm (freeRest s hs) ran) later

/-- Answers of runs that end alike. -/
inductive AnswersAlike : Except Stop Unit → Except Stop Unit → Prop
  | ok : AnswersAlike (.ok ()) (.ok ())
  | error {stop stop' : Stop} :
    StopAlike SamePlace stop stop' → AnswersAlike (.error stop) (.error stop')

/-- What a run leaves and answers beside another. -/
theorem Related.runs {region : Region} {front : List Diagnostic} {x y : Typing Unit}
    {w w' : Work (SiteMap ValueType)}
    (h : Related region SamePlace front (EStateM.run x w) (EStateM.run y w')) :
    Beside region SamePlace front (x.run w.log w.own).1 (y.run w'.log w'.own).1 ∧
      AnswersAlike (x.run w.log w.own).2 (y.run w'.log w'.own).2 := by
  obtain ⟨log, own⟩ := w
  obtain ⟨log', own'⟩ := w'
  unfold Pass.run
  dsimp only
  generalize EStateM.run x ⟨log, own⟩ = r at h
  generalize EStateM.run y ⟨log', own'⟩ = r' at h
  cases h with
  | ok _ beside => exact ⟨beside, .ok⟩
  | error stops beside => exact ⟨beside, .error stops⟩

end Typing

section Contained

variable {text : List Char} {failFast : Bool} {p : Program} {c : Compilation}
  {t : ScopeTable} {log : Log}
  {w : Work (SiteMap ValueType)} {resolution answer : Except Stop Unit}

/-- Let an expression in a method be found erroneous by a check of a program whose names were
resolved. Then there is a type, that of a literal or of a call without a result, such that a check
goes on as follows if the expression has that type already. A check of the expression by itself
finds it to have that type, and reports what it does otherwise. Before it the check of the program
reports the same, and after it the same number of faults, in the same order and at the same
positions. All other nodes get the same types. -/
theorem error_contained {site : Site} {m : MethodDecl} {n : Site × Expr}
    (parsed : Program.ofText? text = .ok p)
    (resolved : (p.start failFast).resolve = (c, t, resolution))
    (checked : (check c.bindings.get? p).run log {} = (w, answer))
    (hm : (site, m) ∈ p.sitedMethods) (hn : n ∈ Stmt.exprNodesFrom site.body 0 m.body)
    (erroneous : w.own.get? n.1 = some .error) :
    ∃ type, type ≠ .error ∧ type.Plain ∧ ∃ inside before after after' w' answer',
      FindsError (inMethod c.bindings.get? site m) n type log.failFast inside ∧
      (check c.bindings.get? p).run log (SiteMap.fill {} n.1 type) = (w', answer') ∧
      w.log.errors = log.errors ++ before ++ inside ++ after ∧
      w'.log.errors = log.errors ++ before ++ inside ++ after' ∧
      List.Forall₂ SamePlace after after' ∧ w'.log.notes = w.log.notes ∧
      (∀ s, s ≠ n.1 → w'.own.get? s = w.own.get? s) ∧ AnswersAlike answer answer' := by
  have written := Program.written_of_ofText parsed
  have declared := Program.declared_of_resolve written resolved
  have writtenMethod : m.Written := by
    obtain ⟨k, cls, hk, hs⟩ := Program.mem_sitedMethods.mp hm
    exact (written cls (List.mem_of_getElem? hk)).methods m (ClassDecl.mem_of_mem_sitedMethods hs)
  have contained :
      Contained (inMethod c.bindings.get? site m) n (check c.bindings.get? p) ⟨log, {}⟩ :=
    contained_methods declared writtenMethod p.sitedMethods_apart (fun _ _ _ _ => rfl) hm hn
  have left := leftBy_of_run checked
  obtain ⟨type, plain, before, inside, found, others⟩ := contained rfl (left ▸ erroneous)
  obtain ⟨beside, answers⟩ := (others _ (seeded_fill rfl type)).runs
  rw [checked] at beside answers
  obtain ⟨after, after', errors, errors', all⟩ := beside.errors
  exact ⟨type, plain.ne_error, plain, inside, before, after, after', _, _, found,
    rfl, errors, errors', all,
    beside.notes, beside.types, answers⟩

end Contained

/-- An operand that is erroneous, in an expression whose value is at fault where it is used. -/
def faultyOperandText : List Char :=
  "class A \x7b static void f() \x7b int x = 1; x = true; boolean b = -true * 2; \x7d \x7d".toList

theorem faultyOperandText_contained : ∃ p c t w n, Program.ofText? faultyOperandText = .ok p ∧
    (p.start false).resolve = (c, t, .ok ()) ∧ (check c.bindings.get? p).run {} {} = (w, .ok ()) ∧
      n ∈ p.exprNodes ∧ w.own.get? n.1 = some .error ∧ ∃ type w' answer', type ≠ .error ∧
        (check c.bindings.get? p).run {} (SiteMap.fill {} n.1 type) = (w', answer') ∧
          w'.log.errors.length = w.log.errors.length := by
  obtain ⟨p, c, t, parsed, resolved, -, h⟩ := exists_resolved_of_check faultyOperandText
    (P := fun p c => ((check c.bindings.get? p).run {} {}).2.isOk &&
      p.sitedMethods.any fun s => (Stmt.exprNodesFrom s.1.body 0 s.2.body).any fun n =>
        ((check c.bindings.get? p).run {} {}).1.own.get? n.1 == some .error) (by decide +kernel)
  simp only [Bool.and_eq_true, List.any_eq_true, beq_iff_eq] at h
  obtain ⟨finished, ⟨site, m⟩, hm, n, hn, erroneous⟩ := h
  obtain ⟨w, checked⟩ := exists_ended_of_isOk finished
  rw [checked] at erroneous
  obtain ⟨type, proper, -, _, _, _, _, w', answer', -, seeded, errors, errors', all, -⟩ :=
    error_contained parsed resolved checked hm hn erroneous
  refine ⟨p, c, t, w, n, parsed, resolved, checked,
    List.mem_flatMap.mpr ⟨(site, m), hm, hn⟩, erroneous,
    type, w', answer', proper, seeded, ?_⟩
  rw [errors, errors']
  simp only [List.length_append, all.length_eq]

end JamCompiler
