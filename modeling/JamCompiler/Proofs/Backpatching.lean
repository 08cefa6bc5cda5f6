import JamCompiler.Backpatching
import JamCompiler.Proofs.Stages

/-!
# Backpatching makes the code made for known addresses

A sweep that adds placeholders to a buffer and patches them later gives the same object code, log
and places as making each piece for the address at which it will stand.

Each step of the sweep adds to the draft the piece of code that emission makes for the address where
the draft ends: its jumps have their targets, its calls are entered in the table and have the
operand zero. At the end the calls of the table are patched one after the other, which is linking.
-/

namespace JamCompiler

open Machine Emission Generation

theorem Generation.callsFrom_append (base : Nat) (front back : Code) :
    callsFrom base (front ++ back) =
      callsFrom base front ++ callsFrom (base + front.length) back := by
  induction front generalizing base with
  | nil => simp [callsFrom]
  | cons item rest ih =>
    cases item <;> simp [callsFrom, ih, Nat.add_right_comm, Nat.add_assoc]

namespace Pass

variable {σ α β γ : Type}

/-- A pass that leaves everything as it was, if it comes to its end. -/
def Reads (x : Pass σ α) : Prop := ∀ w a w', x w = .ok a w' → w' = w

theorem Reads.pure (a : α) : (pure a : Pass σ α).Reads := by
  rintro w a _ ⟨⟩
  rfl

theorem Reads.getOwn : (getOwn : Pass σ σ).Reads := by
  rintro w a _ ⟨⟩
  rfl

theorem Reads.fatal {fault : Fault} {pos : Nat} : (fatal fault pos : Pass σ α).Reads := by
  rintro w a _ ⟨⟩

theorem Reads.bind {x : Pass σ α} {f : α → Pass σ β} (hx : x.Reads) (hf : ∀ a, (f a).Reads) :
    (x >>= f).Reads := by
  intro w b w' run
  change EStateM.bind x f w = _ at run
  unfold EStateM.bind at run
  split at run
  · rename_i ran
    rw [hf _ _ _ _ run, hx _ _ _ ran]
  · cases run

/-- What has been read once is read again. -/
theorem Reads.again {x : Pass σ α} {y : Pass σ β} (hx : x.Reads) (hy : y.Reads)
    (f : α → β → α → Pass σ γ) :
    (do let a ← x; let b ← y; f a b (← x)) = (do let a ← x; let b ← y; f a b a) := by
  funext w
  change EStateM.bind x _ w = EStateM.bind x _ w
  cases first : x w with
  | error => simp only [EStateM.bind, first]
  | ok a w' =>
    obtain rfl := hx _ _ _ first
    simp only [EStateM.bind, first]
    change EStateM.bind y _ _ = EStateM.bind y _ _
    cases second : y w' with
    | error => simp only [EStateM.bind, second]
    | ok b w'' =>
      obtain rfl := hy _ _ _ second
      simp only [EStateM.bind, second]
      change EStateM.bind x _ _ = _
      simp only [EStateM.bind, first]

end Pass

/-- An item as it is added to a draft: a call without the address of what it calls. -/
def Item.drafted : Item → Instruction
  | instr i => i
  | call receiver _ => { op := if receiver then .calli else .call, r := .cb }

namespace Draft

/-- The address of the next instruction. -/
def next (t : Draft) : Nat := t.buffer.next

/-- A draft with more code, whose calls are entered in the table. -/
def add (t : Draft) (code : Code) : Draft :=
  ⟨⟨t.buffer.code ++ code.map Item.drafted⟩, t.calls ++ callsFrom t.next code⟩

variable (t : Draft)

@[simp]
theorem add_nil : t.add [] = t := by
  simp [add, callsFrom]

@[simp]
theorem next_add (code : Code) : (t.add code).next = t.next + code.length := by
  simp [add, next, Buffer.next]

@[simp]
theorem add_add (front back : Code) : (t.add front).add back = t.add (front ++ back) := by
  simp [add, next, Buffer.next, callsFrom_append]

end Draft

namespace Drafting

variable {σ α β : Type} {t : Draft} {bound : Site → Option Decl} {ctx : Context}

@[simp]
theorem run_bind (x : Drafting σ α) (f : α → Drafting σ β) (t : Draft) :
    ((x >>= f) t).run = do
      match ← (x t).run with
      | some (a, t') => (f a t').run
      | none => return none := by
  change (x t >>= fun r => f r.1 r.2).run = _
  rw [OptionT.run_bind]
  refine bind_congr fun r => ?_
  cases r <;> rfl

@[simp]
theorem run_pure (a : α) (t : Draft) :
    ((pure a : Drafting σ α) t).run = pure (some (a, t)) := rfl

@[simp]
theorem run_pass (x : Pass σ α) (t : Draft) : (pass x t).run = do return some (← x, t) := rfl

@[simp]
theorem run_get (t : Draft) : ((get : Drafting σ Draft) t).run = pure (some (t, t)) := rfl

@[simp]
theorem run_next (t : Draft) : ((next : Drafting σ Nat) t).run = pure (some (t.next, t)) := rfl

@[simp]
theorem run_enterCall (addr : Nat) (method : Decl) (t : Draft) :
    ((enterCall addr method : Drafting σ Unit) t).run =
      pure (some ((), { t with calls := t.calls ++ [(addr, method)] })) := rfl

@[simp]
theorem run_emit (i : Instruction) (t : Draft) :
    ((emit i : Drafting σ Nat) t).run = pure (some (t.next, t.add [.instr i])) := by
  have added : t.add [.instr i] = ⟨t.buffer.emit i, t.calls⟩ := by
    simp [Draft.add, Item.drafted, callsFrom, Buffer.emit]
  rw [added]
  rfl

@[simp]
theorem run_emitCall (receiver : Bool) (method : Decl) (t : Draft) :
    ((emitCall receiver method : Drafting σ Unit) t).run =
      pure (some ((), t.add [.call receiver method])) := by
  have added : t.add [.call receiver method] =
      ⟨t.buffer.emit { op := if receiver then .calli else .call, r := .cb },
        t.calls ++ [(t.next, method)]⟩ := by
    simp [Draft.add, Item.drafted, callsFrom, Buffer.emit]
  rw [added]
  rfl

@[simp]
theorem run_write (code : Code) (t : Draft) :
    ((write code : Drafting σ Unit) t).run = pure (some ((), t.add code)) := by
  induction code generalizing t with
  | nil => simp [write]
  | cons item rest ih => cases item <;> simp [write, ih]

theorem run_patch_of_some {addr d : Nat} {b : Buffer} (h : t.buffer.patch? addr d = some b) :
    ((patch addr d : Drafting σ Unit) t).run = pure (some ((), { t with buffer := b })) := by
  simp only [patch, run_bind, run_get, pure_bind, h]
  rfl

/-- A jump that was added gets its target. -/
theorem run_patch (front back : Code) {code : Code} {i : Instruction} {addr d : Nat}
    (added : code = front ++ .instr i :: back) (stands : addr = t.next + front.length) :
    ((patch addr d : Drafting σ Unit) (t.add code)).run =
      pure (some ((), t.add (front ++ .instr { i with d := d } :: back))) := by
  subst added
  have patched : (t.add (front ++ .instr i :: back)).buffer.patch? addr d =
      some (t.add (front ++ .instr { i with d := d } :: back)).buffer := by
    have := Buffer.patch?_append (t.buffer.code ++ front.map Item.drafted)
      (back.map Item.drafted) i d
    simpa [Draft.add, Item.drafted, stands, Draft.next, Buffer.next] using this
  have calls : (t.add (front ++ .instr i :: back)).calls =
      (t.add (front ++ .instr { i with d := d } :: back)).calls := by
    simp [Draft.add, callsFrom_append, callsFrom]
  rw [run_patch_of_some patched, calls]

@[simp]
theorem run_ask (x : Env → Emitted α) (t : Draft) :
    (ask bound x t).run = do return some (← emitted bound x, t) := rfl

@[simp]
theorem emitted_ok (a : α) : (emitted bound fun _ => .ok a) = pure a := rfl

@[simp]
theorem emitted_pure (a : α) : (emitted bound fun _ => pure a) = pure a := rfl

/-- Emission only reads where things live, so a piece of code can be made in parts. -/
@[simp]
theorem emitted_bind (x : Env → Emitted α) (f : α → Env → Emitted β) :
    (emitted bound fun env => x env >>= fun a => f a env) =
      emitted bound x >>= fun a => emitted bound (f a) := by
  funext w
  change EStateM.run _ w = EStateM.run _ w
  simp only [emitted, EStateM.run_bind, Pass.run_getOwn]
  cases x ⟨bound, w.own.locations.get?, w.own.layouts.get?⟩ with
  | error fault => cases fault <;> rfl
  | ok a => rfl

/-- The code of a call is that of its arguments with the call after it. -/
theorem emitInvocation_append (env : Env) (target : Site) (ref : Reference)
    (method : Home × MethodHead) (given : Nat) (args : Code) :
    emitInvocation env target ref method given args = do
      let call ← emitInvocation env target ref method given []
      return args ++ call := by
  simp only [emitInvocation]
  split
  · split <;> rfl
  · split
    · rfl
    · cases ref <;> simp

variable (bound) in
mutual

theorem run_draftExpr (site : Site) (t : Draft) : ∀ e : Expr,
    (draftExpr bound site e t).run = do
      let code ← emitted bound (emitExpr · t.next site e)
      return some ((), t.add code)
  | .int .. | .bool .. | .null _ | .ref .. | .newObject .. => by simp [draftExpr, emitExpr]
  | .unary op operand pos => by
    cases known : unaryPrim? op with
    | none => simp only [draftExpr, emitExpr, known]; rfl
    | some p => simp [draftExpr, emitExpr, known, run_draftExpr, -bind_pure_comp]
  | .binary op left right pos => by
    cases known : binaryPrim? op with
    | none => simp only [draftExpr, emitExpr, known]; rfl
    | some p =>
      cases decisive : decisive? op with
      | none => simp [draftExpr, emitExpr, known, decisive, run_draftExpr, -bind_pure_comp]
      | some decides =>
        simp only [draftExpr, emitExpr, known, decisive, run_bind, run_draftExpr, run_write,
          run_emit, run_next, bind_assoc, pure_bind, Draft.add_add, Draft.next_add, emitted_bind,
          emitted_pure]
        refine bind_congr fun first => bind_congr fun second => ?_
        have there : (t.next + first.length + 1 + 1 : Int) = t.next + first.length + 2 := by omega
        rw [run_patch (first ++ [.instr { op := .load, r := .st, d := -1 }]) (second ++ [prim p])
          (i := { op := .jumpif, n := boolWord decides, r := .cb }) (by simp) (by simp; omega)]
        simp [there]
  | .index ref index _ => by simp [draftExpr, emitExpr, run_draftExpr, -bind_pure_comp]
  | .call ref args pos => by
    simp only [draftExpr, emitExpr, run_bind, run_ask, run_draftArgs, run_write, bind_assoc,
      pure_bind, Draft.add_add, emitted_bind]
    refine bind_congr fun method => bind_congr fun code => ?_
    simp [emitInvocation_append _ _ _ _ _ code, -bind_pure_comp]
  | .newArray _ size _ => by simp [draftExpr, emitExpr, run_draftExpr, -bind_pure_comp]
  | .unknown kind pos => rfl

theorem run_draftArgs (call : Site) (k taken : Nat) (t : Draft) : ∀ args : List Expr,
    (draftArgs bound call k taken args t).run = do
      let code ← emitted bound (emitArgs · t.next call k taken args)
      return some ((), t.add code)
  | [] => by simp [draftArgs, emitArgs]
  | e :: rest => by
    cases taken with
    | zero => simp [draftArgs, emitArgs]
    | succ taken => simp [draftArgs, emitArgs, run_draftExpr, run_draftArgs, -bind_pure_comp]

end

theorem run_draftStore (bound : Site → Option Decl) (site : Site) (ref : Reference) (t : Draft)
    (value : Drafting Placing Unit) (code : Env → Nat → Emitted Code)
    (valued : ∀ t, (value t).run = do
      let c ← emitted bound (code · t.next)
      return some ((), t.add c)) :
    (draftStore bound site ref value t).run = do
      let c ← emitted bound fun env => emitStore env t.next site ref (code env)
      return some ((), t.add c) := by
  simp only [draftStore, emitStore, run_bind, run_ask, bind_assoc, pure_bind, emitted_bind]
  refine bind_congr fun d => bind_congr fun location => ?_
  cases location <;> cases ref <;> simp [valued, -bind_pure_comp] <;> rfl

/-- A branch as it is added to a draft that ends at `base`: a test, what is done if it holds, and a
jump without its target. -/
def branchCode (base : Nat) (test code : Code) : Code :=
  test ++ jumpIf false (base + test.length + 1 + code.length + 1) :: (code ++ [jump 0])

@[simp]
theorem length_branchCode (base : Nat) (test code : Code) :
    (branchCode base test code).length = test.length + 1 + code.length + 1 := by
  simp [branchCode]
  omega

theorem run_draftBranch (slot : Nat) (site : Site) (t : Draft) (cond : Expr) {body : Stmt}
    (drafted : ∀ t, (draftStmt ctx slot site.thenBranch body t).run = do
      let (code, declared) ← emitStmt ctx t.next slot site.thenBranch body
      return some (declared, t.add code)) :
    (draftBranch (draftExpr ctx.bound site.cond cond) (draftStmt ctx slot site.thenBranch body)
      t).run = do
      let test ← emitted ctx.bound (emitExpr · t.next site.cond cond)
      let (code, declared) ← emitStmt ctx (t.next + test.length + 1) slot site.thenBranch body
      return some ((t.next + test.length + 1 + code.length, declared),
        t.add (branchCode t.next test code)) := by
  simp only [draftBranch, run_bind, run_draftExpr, drafted, run_emit, run_next, run_pure,
    bind_assoc, pure_bind, Draft.add_add, Draft.next_add]
  refine bind_congr fun test => bind_congr fun (code, declared) => ?_
  rw [run_patch test (code ++ [jump 0]) (i := { op := .jumpif, n := boolWord false, r := .cb })
    (by simp [jump]) rfl]
  simp [branchCode, jumpIf]

/-- The jump at the end of a branch gets its target. -/
theorem run_patch_branch (t : Draft) (test code more : Code) (d : Nat) :
    ((patch (t.next + test.length + 1 + code.length) d : Drafting σ Unit)
      (t.add (branchCode t.next test code ++ more))).run =
      pure (some ((), t.add (test ++
        [jumpIf false (t.next + test.length + 1 + code.length + 1)] ++ code ++ [jump d] ++
        more))) := by
  let second := t.next + test.length + 1 + code.length + 1
  rw [run_patch (test ++ jumpIf false second :: code) more (i := { op := .jump, r := .cb })
    (by simp [branchCode, jump, second]) (by simp; omega)]
  simp [jump, second]

mutual

theorem run_draftStmt (slot : Nat) (site : Site) (t : Draft) : ∀ s : Stmt,
    (draftStmt ctx slot site s t).run = do
      let (code, declared) ← emitStmt ctx t.next slot site s
      return some (declared, t.add code)
  | .block stmts _ => by
    simp only [draftStmt, emitStmt, run_bind, run_draftStmts, bind_assoc, pure_bind]
    refine bind_congr fun (code, declared) => ?_
    by_cases none : declared = 0 <;> simp [none, pop, -bind_pure_comp]
  | .declare var init _ => by simp [draftStmt, emitStmt, run_draftExpr, -bind_pure_comp]
  | .assign target value _ => by
    have stored := run_draftStore ctx.bound site.target target t _
      (emitExpr · · site.value value) (run_draftExpr ctx.bound site.value · value)
    simp [draftStmt, emitStmt, stored, -bind_pure_comp]
  | .assignIndex target index value _ => by
    simp [draftStmt, emitStmt, emitElementStore, run_draftExpr, -bind_pure_comp]
  | .call ref args pos => by
    simp only [draftStmt, emitStmt, emitCallStmt, run_bind, run_ask, run_draftArgs, run_write,
      bind_assoc, pure_bind, Draft.add_add, emitted_bind, emitted_pure]
    refine bind_congr fun method => bind_congr fun code => ?_
    simp only [emitInvocation_append _ _ _ _ _ code, emitted_bind, emitted_pure, bind_assoc,
      pure_bind]
    refine bind_congr fun call => ?_
    cases method.2.result.isVoid <;> simp [-bind_pure_comp]
  | .ret none _ => by simp [draftStmt, emitStmt, -bind_pure_comp]
  | .ret (some value) _ => by simp [draftStmt, emitStmt, run_draftExpr, -bind_pure_comp]
  | .ifThen cond body _ => by
    have branch := run_draftBranch slot site t cond (run_draftStmt slot site.thenBranch · body)
    simp only [draftStmt, emitStmt, run_bind, branch, bind_assoc, pure_bind]
    refine bind_congr fun test => bind_congr fun (code, declared) => ?_
    rw [← (branchCode t.next test code).append_nil, run_next, pure_bind]
    dsimp only
    rw [run_patch_branch]
    simp [Nat.add_assoc]
  | .ifElse cond body other _ => by
    have branch := run_draftBranch slot site t cond (run_draftStmt slot site.thenBranch · body)
    simp only [draftStmt, emitStmt, run_bind, branch, run_draftStmt, bind_assoc, pure_bind]
    refine bind_congr fun test => bind_congr fun (code, declared) => ?_
    simp only [run_next, pure_bind, Draft.next_add, Draft.add_add, length_branchCode,
      ← Nat.add_assoc]
    refine bind_congr fun (otherCode, otherDeclared) => ?_
    dsimp only
    rw [run_patch_branch]
    simp [Nat.add_assoc]
  | .loop cond body _ => by
    simp only [draftStmt, emitStmt, run_bind, run_emit, run_next, run_draftStmt, bind_assoc,
      pure_bind, Draft.add_add, Draft.next_add]
    refine bind_congr fun (code, declared) => ?_
    rw [run_patch [] code (i := { op := .jump, r := .cb }) (by simp) (by simp)]
    have here : t.next + (code.length + 1) = t.next + 1 + code.length := by omega
    simp [here, run_draftExpr, jump, jumpIf, -bind_pure_comp]
  | .unknown kind pos => rfl

theorem run_draftStmts (slot : Nat) (block : Site) (k : Nat) (t : Draft) : ∀ stmts : List Stmt,
    (draftStmts ctx slot block k stmts t).run = do
      let (code, declared) ← emitStmts ctx t.next slot block k stmts
      return some (declared, t.add code)
  | [] => by simp [draftStmts, emitStmts]
  | s :: rest => by
    simp [draftStmts, emitStmts, run_draftStmt, run_draftStmts, -bind_pure_comp]

end

theorem run_draftBody (slot : Nat) (method : Site) (k : Nat) (t : Draft) (stmts : List Stmt) :
    (draftBody ctx slot method k stmts t).run = do
      let code ← emitBody ctx t.next slot method k stmts
      return some ((), t.add code) := by
  induction stmts generalizing slot k t with
  | nil => simp [draftBody, emitBody]
  | cons s rest ih => simp [draftBody, emitBody, run_draftStmt, ih, -bind_pure_comp]

theorem run_draftMethods (t : Draft) (methods : List (Site × MethodDecl)) :
    (draftMethods bound methods t).run = do
      let code ← emitMethods bound t.next methods
      return some ((), t.add code) := by
  induction methods generalizing t with
  | nil => simp [draftMethods, emitMethods]
  | cons m rest ih =>
    simp [draftMethods, emitMethods, draftMethod, emitMethod, run_draftBody, ih, -bind_pure_comp]

theorem reads_addressOf (method : Decl) : (addressOf method).Reads := by
  refine Pass.Reads.bind .getOwn fun s => ?_
  dsimp only
  split
  · exact .pure _
  · exact .fatal

theorem reads_link (code : Code) : (link code).Reads := by
  induction code with
  | nil => exact .pure _
  | cons item rest ih =>
    cases item with
    | instr i => exact ih.bind fun _ => .pure _
    | call receiver method =>
      exact (reads_addressOf method).bind fun _ => ih.bind fun _ => .pure _

/-- To patch the calls of a piece of code is to link it. -/
theorem run_patchCalls (front : List Instruction) (calls : List (Nat × Decl)) (code : Code) :
    (patchCalls (callsFrom front.length code) ⟨⟨front ++ code.map Item.drafted⟩, calls⟩).run = do
      let body ← link code
      return some ((), ⟨⟨front ++ body⟩, calls⟩) := by
  induction code generalizing front with
  | nil => simp [callsFrom, patchCalls, link]
  | cons item rest ih =>
    cases item with
    | instr i => simpa [callsFrom, link, Item.drafted] using ih (front ++ [i])
    | call receiver method =>
      simp only [callsFrom, patchCalls, link, List.map_cons, Item.drafted, run_bind, run_pass,
        bind_assoc, pure_bind]
      refine bind_congr fun address => ?_
      rw [run_patch_of_some (Buffer.patch?_append _ _ _ _)]
      let call : Instruction :=
        { op := if receiver then .calli else .call, r := .cb, d := address }
      simpa [call] using ih (front ++ [call])

@[simp]
theorem run_placing (x : Drafting Placing α) (t : Draft) :
    (placing x t).run = Generation.placing (x t).run := rfl

theorem placing_bind_pure (f : α → β) (step : Emitting α) :
    Generation.placing (do return f (← step)) = do return f (← Generation.placing step) := by
  funext w
  change EStateM.run (Generation.placing (do return f (← step))) w =
    EStateM.run (do return f (← Generation.placing step)) w
  rw [EStateM.run_bind, placing_eq, placing_eq, Pass.run_within, Pass.run_within, EStateM.run_bind]
  cases EStateM.run step ⟨w.log, w.own.placing⟩ <;> rfl

/-- The draft of a whole program, with what the prelude is patched with so far. -/
def whole (staticSize entry : Nat) (main : Decl) (code : Code) : Draft :=
  ⟨⟨prelude staticSize entry ++ code.map Item.drafted⟩,
    (entryCall, main) :: callsFrom codeStart code⟩

theorem run_patch_staticSize (staticSize : Nat) (main : Decl) (code : Code) :
    ((patch 0 staticSize : Drafting σ Unit) (whole 0 0 main code)).run =
      pure (some ((), whole staticSize 0 main code)) :=
  run_patch_of_some (Buffer.patch?_append [] _ _ _)

theorem run_patch_entry (staticSize address : Nat) (main : Decl) (code : Code) :
    ((patch entryCall address : Drafting σ Unit) (whole staticSize 0 main code)).run =
      pure (some ((), whole staticSize address main code)) :=
  run_patch_of_some (Buffer.patch?_append (List.take entryCall (prelude staticSize 0)) _ _ _)

/-- The calls of a whole program are patched: that of the entry, and then those of the methods. -/
theorem run_patchCalls_whole (staticSize : Nat) (main : Decl) (code : Code) :
    (patchCalls (whole staticSize 0 main code).calls (whole staticSize 0 main code)).run = do
      let address ← addressOf main
      let body ← link code
      return some ((), ⟨⟨prelude staticSize address ++ body⟩,
        (entryCall, main) :: callsFrom codeStart code⟩) := by
  simp only [whole, patchCalls, run_bind, run_pass, bind_assoc, pure_bind]
  refine bind_congr fun address => ?_
  change (patch _ _ (whole staticSize 0 main code)).run >>= _ = _
  rw [run_patch_entry, pure_bind]
  exact run_patchCalls (prelude staticSize address) _ code

/-- Generation by backpatching is generation for known addresses: it never patches where there is
no instruction, and it comes to the same end, with the same object code, log and places. The code
and the table in the draft are those of the object code. -/
theorem run_generate : (Drafting.generate bound {}).run = do
    let o ← Generation.generate bound
    return some (o, ⟨⟨o.code⟩, o.patches⟩) := by
  simp only [Drafting.generate, Generation.generate, run_bind, run_emit, run_write, run_pass,
    bind_assoc, pure_bind, Draft.add_add]
  refine bind_congr fun s => bind_congr fun staticSize => ?_
  cases entry : s.program.entry? with
  | error fault => rfl
  | ok main =>
    obtain ⟨mainSite, mainHead⟩ := main
    simp only [run_bind, run_enterCall, run_pass, run_placing, run_draftMethods, run_get, run_pure,
      placing_bind_pure, bind_assoc, pure_bind]
    refine bind_congr fun _ => bind_congr fun s => bind_congr fun code => ?_
    let main := Decl.method (.user mainSite) mainHead
    change (patch 0 staticSize (whole 0 0 main code)).run >>= _ = _
    rw [run_patch_staticSize, pure_bind]
    dsimp only
    rw [run_patchCalls_whole]
    simp only [bind_assoc, pure_bind]
    exact (reads_addressOf main).again (reads_link code) fun address body entry => _

end Drafting

end JamCompiler
