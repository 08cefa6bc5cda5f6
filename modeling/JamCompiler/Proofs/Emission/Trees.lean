import JamCompiler.Emission
import JamCompiler.Proofs.CleanRun
import JamCompiler.Proofs.Frame

/-!
# Code as trees

Emitted code as a tree, in which jumps have no addresses yet and every piece is marked with what it
is the code of. `Expr.tree` and `Stmt.tree` make the tree of a piece of source from what is known
when everything has its place; `Tree.code` gives the jumps their addresses. Emission makes just this
code, `emitExpr_eq` and `emitBody_tree`, so what is to be known of code can be shown of trees, by
induction on a few forms.
-/

namespace JamCompiler

open Machine Pass

namespace Emission

/-- What a piece of code is the code of: an expression, a reference whose value is loaded, or a
statement in which the next local gets a slot. -/
inductive Mark
  | value (site : Site) (e : Expr)
  | load
  | stmt (slot : Nat)

/-- Code whose jumps have no addresses yet. -/
inductive Tree
  | straight (items : Code)
  | seq (first second : Tree)
  | shortCut (decides : Bool) (first second : Tree) (p : Primitive)
  | ifThen (test body : Tree)
  | ifElse (test body other : Tree)
  | loop (test body : Tree)
  | marked (mark : Mark) (code : Tree)

namespace Tree

def size : Tree → Nat
  | straight items => items.length
  | seq first second => first.size + second.size
  | shortCut _ first second _ => first.size + 2 + second.size + 1
  | ifThen test body => test.size + 1 + body.size + 1
  | ifElse test body other => test.size + 1 + body.size + 1 + other.size
  | loop test body => 1 + body.size + test.size + 1
  | marked _ code => code.size

/-- The code that a tree is at an address. -/
def code (base : Nat) : Tree → Code
  | straight items => items
  | seq first second => first.code base ++ second.code (base + first.size)
  | shortCut decides first second p =>
    first.code base
      ++ [.instr { op := .load, r := .st, d := -1 },
          .instr { op := .jumpif, n := boolWord decides, r := .cb
                   d := (base + first.size + 2 + second.size + 1 : Nat) }]
      ++ second.code (base + first.size + 2) ++ [prim p]
  | ifThen test body =>
    test.code base ++ [jumpIf false (base + test.size + 1 + body.size + 1)]
      ++ body.code (base + test.size + 1) ++ [jump (base + test.size + 1 + body.size + 1)]
  | ifElse test body other =>
    test.code base ++ [jumpIf false (base + test.size + 1 + body.size + 1)]
      ++ body.code (base + test.size + 1)
      ++ [jump (base + test.size + 1 + body.size + 1 + other.size)]
      ++ other.code (base + test.size + 1 + body.size + 1)
  | loop test body =>
    [jump (base + 1 + body.size)] ++ body.code (base + 1) ++ test.code (base + 1 + body.size)
      ++ [jumpIf true (base + 1)]
  | marked _ code => code.code base

@[simp]
theorem length_code (t : Tree) (base : Nat) : (t.code base).length = t.size := by
  induction t generalizing base with
  | straight items => rfl
  | seq first second ih ih' => simp [code, size, ih, ih']
  | shortCut decides first second p ih ih' => simp [code, size, ih, ih']; omega
  | ifThen test body ih ih' => simp [code, size, ih, ih']; omega
  | ifElse test body other ih ih' ih'' => simp [code, size, ih, ih', ih'']; omega
  | loop test body ih ih' => simp [code, size, ih, ih']; omega
  | marked mark code ih => exact ih base

/-- Whether all items of a tree but those of its forms have a property. -/
def All (P : Item → Prop) : Tree → Prop
  | straight items => ∀ item ∈ items, P item
  | seq first second | shortCut _ first second _ => first.All P ∧ second.All P
  | ifThen test body | loop test body => test.All P ∧ body.All P
  | ifElse test body other => test.All P ∧ body.All P ∧ other.All P
  | marked _ code => code.All P

theorem All.imp {P Q : Item → Prop} {t : Tree} (h : t.All P) (imp : ∀ item, P item → Q item) :
    t.All Q := by
  induction t with
  | straight items => exact fun item hi => imp item (h item hi)
  | seq _ _ ih ih' | shortCut _ _ _ _ ih ih' | ifThen _ _ ih ih' | loop _ _ ih ih' =>
    exact ⟨ih h.1, ih' h.2⟩
  | ifElse _ _ _ ih ih' ih'' => exact ⟨ih h.1, ih' h.2.1, ih'' h.2.2⟩
  | marked _ _ ih => exact ih h

end Tree

/-- The call of a method after the code of its arguments. -/
def invocationTree (env : Env) (target : Site) (ref : Reference) (method : Home × MethodHead)
    (given : Nat) (args : Tree) : Emitted Tree :=
  let d := Decl.method method.1 method.2
  if isPrintln method then
    if given = 0 then .error .missingArgument else .ok (.seq args (.straight [prim .putintnl]))
  else if d.isStatic then .ok (.seq args (.straight [.call false d]))
  else do
    let receiver ← match ref with
      | .qualified qualifier _ _ => emitRef env target.qualifier qualifier
      | _ => .ok [self]
    return .seq args (.seq (.marked .load (.straight receiver)) (.straight [.call true d]))

end Emission

open Emission

mutual

/-- The code of an expression. -/
def Expr.tree (env : Env) (site : Site) (e : Expr) : Emitted Tree :=
  Except.map (.marked (.value site e)) <| match e with
    | .int value _ => .ok (.straight [literal value])
    | .bool value _ => .ok (.straight [literal (boolWord value)])
    | .null _ => .ok (.straight [literal nullWord])
    | .unary op operand pos =>
      match unaryPrim? op with
      | none => .error (.fault (.unknownUnary op.text) pos)
      | some p => do
        let inner ← operand.tree env site.operand
        return .seq inner (.straight [prim p])
    | .binary op left right pos =>
      match binaryPrim? op with
      | none => .error (.fault (.unknownBinary op.text) pos)
      | some p => do
        let first ← left.tree env site.left
        let second ← right.tree env site.right
        return match decisive? op with
          | none => .seq first (.seq second (.straight [prim p]))
          | some decides => .shortCut decides first second p
    | .ref r _ => do
      let value ← emitRef env site.target r
      return .straight value
    | .index r i _ => do
      let array ← emitRef env site.target r
      let inner ← i.tree env site.index
      return .seq (.marked .load (.straight array)) (.seq inner (.straight [prim .arrayref]))
    | .call r args pos => do
      let method ← callee env site.target pos
      let given ← Expr.argTrees env site 0 (argsTaken method args.length) args
      invocationTree env site.target r method args.length given
    | .newObject type pos => do
      let code ← emitNew env site.type type pos
      return .straight code
    | .newArray _ size _ => do
      let inner ← size.tree env site.size
      return .seq inner (.straight [prim .newarr])
    | .unknown kind pos => .error (.fault (.foreign .expression kind) pos)

/-- The code of the first `taken` arguments of a call from the `k`th on. -/
def Expr.argTrees (env : Env) (call : Site) (k taken : Nat) : List Expr → Emitted Tree
  | [] => .ok (.straight [])
  | e :: rest =>
    match taken with
    | 0 => .ok (.straight [])
    | taken + 1 => do
      let first ← e.tree env (call.arg k)
      let more ← Expr.argTrees env call (k + 1) taken rest
      return .seq first more

end

namespace Emission

variable (env : Env)

theorem emitInvocation_eq (target : Site) (r : Reference) (method : Home × MethodHead)
    (given : Nat) (args : Tree) (base : Nat) :
    emitInvocation env target r method given (args.code base) =
      (invocationTree env target r method given args).map (Tree.code base) := by
  unfold emitInvocation invocationTree
  dsimp only
  split
  · split
    · rfl
    · rfl
  · split
    · rfl
    · cases r with
      | qualified qualifier name pos =>
        dsimp only
        cases emitRef env target.qualifier qualifier with
        | error e => rfl
        | ok receiver => simp [Except.map, bind, Except.bind, pure, Except.pure, Tree.code]
      | this | ident | unknown =>
        simp [Except.map, bind, Except.bind, pure, Except.pure, Tree.code]

mutual

/-- The code of an expression is that of its tree. -/
theorem emitExpr_eq (base : Nat) (site : Site) (e : Expr) :
    emitExpr env base site e = (e.tree env site).map (Tree.code base) := by
  match e with
  | .int .. | .bool .. | .null .. | .unknown .. => rfl
  | .unary op operand pos =>
    simp only [emitExpr, Expr.tree]
    cases unaryPrim? op with
    | none => rfl
    | some p =>
      dsimp only
      rw [emitExpr_eq base site.operand operand]
      cases operand.tree env site.operand <;> rfl
  | .binary op left right pos =>
    simp only [emitExpr, Expr.tree]
    cases binaryPrim? op with
    | none => rfl
    | some p =>
      dsimp only
      rw [emitExpr_eq base site.left left]
      cases left.tree env site.left with
      | error e => rfl
      | ok first =>
        cases decisive? op with
        | none | some decides =>
          simp only [Except.map, bind, Except.bind, emitExpr_eq _ site.right right,
            Tree.length_code]
          cases right.tree env site.right <;> simp [Except.pure, pure, Tree.code]
  | .ref r pos =>
    simp only [emitExpr, Expr.tree]
    cases emitRef env site.target r <;> rfl
  | .index r i pos =>
    simp only [emitExpr, Expr.tree]
    cases emitRef env site.target r with
    | error e => rfl
    | ok array =>
      simp only [Except.map, bind, Except.bind, emitExpr_eq _ site.index i]
      cases i.tree env site.index <;> simp [Except.pure, pure, Tree.code, Tree.size]
  | .call r args pos =>
    simp only [emitExpr, Expr.tree]
    cases callee env site.target pos with
    | error e => rfl
    | ok method =>
      simp only [Except.map, bind, Except.bind, emitArgs_eq base site 0 _ args]
      cases Expr.argTrees env site 0 (argsTaken method args.length) args with
      | error e => rfl
      | ok given =>
        simp only [emitInvocation_eq]
        cases invocationTree env site.target r method args.length given <;> rfl
  | .newObject type pos =>
    simp only [emitExpr, Expr.tree]
    cases emitNew env site.type type pos <;> rfl
  | .newArray element size pos =>
    simp only [emitExpr, Expr.tree]
    rw [emitExpr_eq base site.size size]
    cases size.tree env site.size <;> rfl

theorem emitArgs_eq (base : Nat) (call : Site) (k taken : Nat) (args : List Expr) :
    emitArgs env base call k taken args =
      (Expr.argTrees env call k taken args).map (Tree.code base) := by
  match args, taken with
  | [], taken => cases taken <;> rfl
  | e :: rest, 0 => rfl
  | e :: rest, taken + 1 =>
    simp only [emitArgs, Expr.argTrees]
    rw [emitExpr_eq base (call.arg k) e]
    cases e.tree env (call.arg k) with
    | error e => rfl
    | ok first =>
      simp only [Except.map, bind, Except.bind, emitArgs_eq _ call (k + 1) taken rest,
        Tree.length_code]
      cases Expr.argTrees env call (k + 1) taken rest <;> rfl

end

/-- Stores the value that some code leaves where a reference says. -/
def storeTree (env : Env) (site : Site) (ref : Reference) (value : Emitted Tree) :
    Emitted Tree := do
  let d ← targetDecl env site ref
  let direct (r : Register) (k : Int) : Emitted Tree := do
    return .seq (← value) (.straight [.instr { op := .store, r := r, d := k }])
  match ← locationOf env d, ref with
  | .object k, .qualified qualifier _ _ =>
    let object ← emitRef env site.qualifier qualifier
    let inner ← value
    return .seq (.marked .load (.straight object))
      (.seq (.straight [literal k]) (.seq inner (.straight [prim .fieldupd])))
  | .object k, _ => direct .ob k
  | .static k, _ => direct .sb k
  | .frame k, _ => direct .lb k
  | .code _, _ => .error (.fault .notVariable ref.pos)

theorem emitStore_eq (base : Nat) (site : Site) (r : Reference) {value : Nat → Emitted Code}
    {tree : Emitted Tree} (same : ∀ base, value base = tree.map (Tree.code base)) :
    emitStore env base site r value = (storeTree env site r tree).map (Tree.code base) := by
  unfold emitStore storeTree
  cases targetDecl env site r with
  | error e => rfl
  | ok d =>
    simp only [bind, Except.bind]
    cases locationOf env d with
    | error e => rfl
    | ok l =>
      cases l with
      | static k | frame k | code k =>
        simp only [same]
        cases tree <;> rfl
      | object k =>
        cases r with
        | this | ident | unknown =>
          simp only [same]
          cases tree <;> rfl
        | qualified qualifier name pos =>
          dsimp only
          cases emitRef env site.qualifier qualifier with
          | error e => rfl
          | ok object =>
            simp only [same]
            cases tree <;> simp [Except.map, Except.pure, pure, Tree.code, Tree.size, Nat.add_assoc]

def callTree (env : Env) (site : Site) (ref : Reference) (args : List Expr) (pos : Nat) :
    Emitted Tree := do
  let method ← callee env site.target pos
  let given ← Expr.argTrees env site 0 (argsTaken method args.length) args
  let call ← invocationTree env site.target ref method args.length given
  return if method.2.result.isVoid then call else .seq call (.straight [pop 1])

theorem emitCallStmt_eq (base : Nat) (site : Site) (r : Reference) (args : List Expr) (pos : Nat) :
    emitCallStmt env base site r args pos =
      (callTree env site r args pos).map (Tree.code base) := by
  unfold emitCallStmt callTree
  cases callee env site.target pos with
  | error e => rfl
  | ok method =>
    simp only [bind, Except.bind, emitArgs_eq env base site 0 _ args]
    cases Expr.argTrees env site 0 (argsTaken method args.length) args with
    | error e => rfl
    | ok given =>
      simp only [Except.map, emitInvocation_eq]
      cases invocationTree env site.target r method args.length given with
      | error e => rfl
      | ok call =>
        simp only [Except.pure, pure]
        split <;> rfl

def elementStoreTree (env : Env) (site : Site) (target : Reference) (index value : Expr) :
    Emitted Tree := do
  let array ← emitRef env site.target target
  let i ← index.tree env site.index
  let inner ← value.tree env site.value
  return .seq (.marked .load (.straight array)) (.seq i (.seq inner (.straight [prim .arrayupd])))

theorem emitElementStore_eq (base : Nat) (site : Site) (target : Reference) (index value : Expr) :
    emitElementStore env base site target index value =
      (elementStoreTree env site target index value).map (Tree.code base) := by
  unfold emitElementStore elementStoreTree
  cases emitRef env site.target target with
  | error e => rfl
  | ok array =>
    simp only [bind, Except.bind, emitExpr_eq env _ site.index index]
    cases index.tree env site.index with
    | error e => rfl
    | ok i =>
      simp only [Except.map, emitExpr_eq env _ site.value value]
      cases value.tree env site.value <;>
        simp [Except.pure, pure, Tree.code, Tree.size, Nat.add_assoc]

end Emission

mutual

/-- The code of a statement in a method with so many parameters, where the next local gets a slot,
and how many locals it declares in the block that it is in. -/
def Stmt.tree (env : Env) (arity slot : Nat) (site : Site) (s : Stmt) : Emitted (Tree × Nat) :=
  Except.map (fun t => (.marked (.stmt slot) t.1, t.2)) <| match s with
    | .block stmts _ => do
      let inner ← Stmt.trees env arity slot site.stmt 0 stmts
      return (if inner.2 = 0 then inner.1 else .seq inner.1 (.straight [pop inner.2]), 0)
    | .declare _ init _ => do
      let code ← init.tree env site.init
      return (code, 1)
    | .assign target value _ => do
      let code ← storeTree env site.target target (value.tree env site.value)
      return (code, 0)
    | .assignIndex target index value _ => do
      let code ← elementStoreTree env site target index value
      return (code, 0)
    | .call r args pos => do
      let code ← callTree env site r args pos
      return (code, 0)
    | .ret none _ => return (.straight [.instr { op := .ret, n := 0, d := arity }], 0)
    | .ret (some value) _ => do
      let code ← value.tree env site.value
      return (.seq code (.straight [.instr { op := .ret, n := 1, d := arity }]), 0)
    | .ifThen cond body _ => do
      let test ← cond.tree env site.cond
      let code ← body.tree env arity slot site.thenBranch
      return (.ifThen test code.1, code.2)
    | .ifElse cond body other _ => do
      let test ← cond.tree env site.cond
      let code ← body.tree env arity slot site.thenBranch
      let otherCode ← other.tree env arity (slot + code.2) site.elseBranch
      return (.ifElse test code.1 otherCode.1, code.2 + otherCode.2)
    | .loop cond body _ => do
      let code ← body.tree env arity slot site.thenBranch
      let test ← cond.tree env site.cond
      return (.loop test code.1, code.2)
    | .unknown kind pos => .error (.fault (.foreign .statement kind) pos)

/-- The code of the statements of a list from the `k`th on, whose sites are given. -/
def Stmt.trees (env : Env) (arity slot : Nat) (sites : Nat → Site) (k : Nat) :
    List Stmt → Emitted (Tree × Nat)
  | [] => .ok (.straight [], 0)
  | s :: rest => do
    let first ← s.tree env arity slot (sites k)
    let more ← Stmt.trees env arity (slot + first.2) sites (k + 1) rest
    return (.seq first.1 more.1, first.2 + more.2)

end

/-- The code of the body of a method. -/
def MethodDecl.tree (env : Env) (site : Site) (m : MethodDecl) : Emitted Tree :=
  (Stmt.trees env m.head.params.length linkageSize site.body 0 m.body).map Prod.fst

namespace Emission

variable {α β : Type} {x : Emitted α} {b : β}

theorem bind_eq_ok {f : α → Emitted β} : (x >>= f) = .ok b ↔ ∃ a, x = .ok a ∧ f a = .ok b := by
  constructor
  · intro h
    cases x with
    | error e => cases h
    | ok a => exact ⟨a, rfl, h⟩
  · rintro ⟨a, rfl, h⟩
    exact h

theorem map_eq_ok {f : α → β} : x.map f = .ok b ↔ ∃ a, x = .ok a ∧ f a = b := by
  constructor
  · intro h
    cases x with
    | error e => cases h
    | ok a => exact ⟨a, rfl, Except.ok.inj h⟩
  · rintro ⟨a, rfl, rfl⟩
    rfl

end Emission

/-- The code of a list of statements is that of its parts. -/
theorem Stmt.trees_append {env : Env} {arity slot : Nat} {sites : Nat → Site} {k : Nat}
    {xs ys : List Stmt} {t : Tree × Nat}
    (h : Stmt.trees env arity slot sites k (xs ++ ys) = .ok t) :
    ∃ u v, Stmt.trees env arity slot sites k xs = .ok u ∧
      Stmt.trees env arity (slot + u.2) sites (k + xs.length) ys = .ok v ∧
      t.2 = u.2 + v.2 ∧ t.1.size = u.1.size + v.1.size ∧
      (∀ P, t.1.All P → u.1.All P ∧ v.1.All P) ∧
      ∀ base, t.1.code base = u.1.code base ++ v.1.code (base + u.1.size) := by
  induction xs generalizing slot k t with
  | nil =>
    exact ⟨_, t, rfl, h, by simp, by simp [Tree.size], fun P all => ⟨nofun, all⟩,
      by simp [Tree.size, Tree.code]⟩
  | cons s rest ih =>
    obtain ⟨first, made, h⟩ := bind_eq_ok.mp h
    obtain ⟨more, made', h⟩ := bind_eq_ok.mp h
    cases h
    obtain ⟨u, v, hu, hv, declared, size, all, code⟩ := ih made'
    refine ⟨(.seq first.1 u.1, first.2 + u.2), v, ?_, ?_, ?_, ?_, fun P h => ?_, fun base => ?_⟩
    · exact bind_eq_ok.mpr ⟨first, made, bind_eq_ok.mpr ⟨u, hu, rfl⟩⟩
    · rw [← Nat.add_assoc, List.length_cons, Nat.add_comm rest.length, ← Nat.add_assoc]
      exact hv
    · simp only [declared, Nat.add_assoc]
    · simp only [Tree.size, size, Nat.add_assoc]
    · obtain ⟨left, right⟩ := all P h.2
      exact ⟨⟨h.1, left⟩, right⟩
    · simp only [Tree.code, Tree.size, code, List.append_assoc, Nat.add_assoc]

end JamCompiler
