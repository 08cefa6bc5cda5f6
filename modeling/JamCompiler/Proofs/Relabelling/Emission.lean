import JamCompiler.Emission
import JamCompiler.Proofs.Relabelling.Passes

/-!
# Emission from relabelled programs

Names and positions leave no trace in code but in the calls of methods, whose declarations stand in
it until all methods have addresses. So the code of a relabelled program has the same length, and
the same instructions at the same addresses.
-/

namespace JamCompiler

open Machine Pass

def Item.relabel (ρ : Relabelling) : Item → Item
  | instr i => instr i
  | call receiver method => call receiver (method.relabel ρ)

def relabelCode (ρ : Relabelling) : Code → Code := List.map (Item.relabel ρ)

@[simp] theorem length_relabelCode (ρ : Relabelling) (code : Code) :
    (relabelCode ρ code).length = code.length :=
  List.length_map _

@[simp] theorem relabelCode_append (ρ : Relabelling) (code more : Code) :
    relabelCode ρ (code ++ more) = relabelCode ρ code ++ relabelCode ρ more :=
  List.map_append

@[simp] theorem relabelCode_cons (ρ : Relabelling) (item : Item) (code : Code) :
    relabelCode ρ (item :: code) = item.relabel ρ :: relabelCode ρ code := rfl

@[simp] theorem relabelCode_nil (ρ : Relabelling) : relabelCode ρ [] = [] := rfl

@[simp] theorem Item.relabel_instr (ρ : Relabelling) (i : Instruction) :
    (Item.instr i).relabel ρ = .instr i := rfl

namespace Emission

@[simp] theorem relabel_prim (ρ : Relabelling) (p : Primitive) : (prim p).relabel ρ = prim p := rfl

@[simp] theorem relabel_literal (ρ : Relabelling) (value : Int) :
    (literal value).relabel ρ = literal value := rfl

@[simp] theorem relabel_pop (ρ : Relabelling) (n : Nat) : (pop n).relabel ρ = pop n := rfl

@[simp] theorem relabel_jump (ρ : Relabelling) (target : Nat) :
    (jump target).relabel ρ = jump target := rfl

@[simp] theorem relabel_jumpIf (ρ : Relabelling) (value : Bool) (target : Nat) :
    (jumpIf value target).relabel ρ = jumpIf value target := rfl

section Alike

variable (ρ ρ' : Relabelling)

/-- Failures that show the same fault after both relabellings. -/
inductive Failure.Alike : Failure → Failure → Prop
  | fault {fault fault' : CodeFault} {pos pos' : Nat} (places : Places ρ ρ' pos pos')
    (shown : ρ.name = ρ'.name → (Fault.code fault).shown = (Fault.code fault').shown) :
    Alike (.fault fault pos) (.fault fault' pos')
  | missingArgument : Alike .missingArgument .missingArgument

/-- Two results that are the same one relabelled in both ways, or failures alike. -/
inductive Emitted.Mirrors {α γ : Type} (answer : Relabelling → γ → α) :
    Emitted α → Emitted α → Prop
  | ok (c : γ) {a b : α} (ha : a = answer ρ c) (hb : b = answer ρ' c) :
    Mirrors answer (.ok a) (.ok b)
  | error {failure failure' : Failure} (alike : failure.Alike ρ ρ' failure') :
    Mirrors answer (.error failure) (.error failure')

end Alike

variable {ρ ρ' : Relabelling}

theorem Emitted.Mirrors.bind {α β γ δ : Type} {answer : Relabelling → γ → α}
    {after : Relabelling → δ → β} {x y : Emitted α} {f g : α → Emitted β}
    (first : Mirrors ρ ρ' answer x y)
    (next : ∀ c, Mirrors ρ ρ' after (f (answer ρ c)) (g (answer ρ' c))) :
    Mirrors ρ ρ' after (x >>= f) (y >>= g) := by
  cases first with
  | ok c ha hb =>
    subst ha hb
    exact next c
  | error alike => exact .error alike

theorem Emitted.Mirrors.fault {α γ : Type} {answer : Relabelling → γ → α}
    {fault fault' : CodeFault} {pos pos' : Nat} (places : Places ρ ρ' pos pos')
    (shown : ρ.name = ρ'.name → (Fault.code fault).shown = (Fault.code fault').shown) :
    Mirrors ρ ρ' answer (.error (.fault fault pos)) (.error (.fault fault' pos')) :=
  .error (.fault places shown)

open Emitted (Mirrors)

def Env.relabel (ρ : Relabelling) (env : Env) : Env :=
  { env with bound := relabelBound ρ env.bound }

theorem mirrors_locationOf (env : Env) (d : Decl) :
    Mirrors ρ ρ' unchanged (locationOf (env.relabel ρ) (d.relabel ρ))
      (locationOf (env.relabel ρ') (d.relabel ρ')) := by
  have refused : Mirrors (α := Location) (γ := Location) ρ ρ' unchanged
      (.error (.fault (.notPlaced (d.relabel ρ).name) (d.relabel ρ).pos))
      (.error (.fault (.notPlaced (d.relabel ρ').name) (d.relabel ρ').pos)) :=
    .fault d.places fun names => by rw [Decl.relabel_name, Decl.relabel_name, names]
  simp only [locationOf, Decl.relabel_home]
  cases d.home with
  | predefined => exact refused
  | user site =>
    simp only [Env.relabel]
    cases env.located site with
    | none => exact refused
    | some location => exact .ok location rfl rfl

theorem mirrors_valueDecl (env : Env) (site : Site) (pos : Nat) :
    Mirrors ρ ρ' Decl.relabel (valueDecl (env.relabel ρ) site (ρ.place pos))
      (valueDecl (env.relabel ρ') site (ρ'.place pos)) := by
  have refused : Mirrors (α := Decl) ρ ρ' Decl.relabel (.error (.fault .notValue (ρ.place pos)))
      (.error (.fault .notValue (ρ'.place pos))) := .fault (.place pos) fun _ => rfl
  have value : ∀ d : Decl, Mirrors ρ ρ' Decl.relabel
      (if d.relabel ρ = Predefined.out then .error (.fault .notValue (ρ.place pos))
        else .ok (d.relabel ρ))
      (if d.relabel ρ' = Predefined.out then .error (.fault .notValue (ρ'.place pos))
        else .ok (d.relabel ρ')) := by
    intro d
    simp only [Decl.relabel_eq_out]
    split
    · exact refused
    · exact .ok d rfl rfl
  simp only [valueDecl, Env.relabel, relabelBound]
  cases env.bound site with
  | none => exact refused
  | some d =>
    cases d with
    | cls | method => exact refused
    | field home d => exact value (.field home d)
    | param site d => exact value (.param site d)
    | var site d => exact value (.var site d)

theorem mirrors_emitRef (env : Env) (site : Site) (ref : Reference) :
    Mirrors ρ ρ' relabelCode (emitRef (env.relabel ρ) site (ref.relabel ρ.written))
      (emitRef (env.relabel ρ') site (ref.relabel ρ'.written)) := by
  have refused : ∀ pos, Mirrors (α := Code) ρ ρ' relabelCode
      (.error (.fault .notValue (ρ.place pos))) (.error (.fault .notValue (ρ'.place pos))) :=
    fun pos => .fault (.place pos) fun _ => rfl
  match ref with
  | .this pos => exact .ok [self] rfl rfl
  | .ident name pos =>
    refine (mirrors_valueDecl env site pos).bind fun d => ?_
    refine (mirrors_locationOf env d).bind fun location => ?_
    cases location with
    | static k => exact .ok [.instr { op := .load, r := .sb, d := k }] rfl rfl
    | frame k => exact .ok [.instr { op := .load, r := .lb, d := k }] rfl rfl
    | object k => exact .ok [.instr { op := .load, r := .ob, d := k }] rfl rfl
    | code k => exact refused pos
  | .qualified qualifier name pos =>
    have loaded := mirrors_emitRef env site.qualifier qualifier
    refine (mirrors_valueDecl env site pos).bind fun d => ?_
    simp only [Decl.relabel_eq_length]
    split
    · exact loaded.bind fun array => .ok (array ++ [prim .arraylen]) (by simp) (by simp)
    · refine (mirrors_locationOf env d).bind fun location => ?_
      cases location with
      | static k => exact .ok [.instr { op := .load, r := .sb, d := k }] rfl rfl
      | frame k => exact .ok [.instr { op := .load, r := .lb, d := k }] rfl rfl
      | object k =>
        exact loaded.bind fun object =>
          .ok (object ++ [literal k, prim .fieldref]) (by simp) (by simp)
      | code k => exact refused pos
  | .unknown kind pos => exact refused pos

theorem mirrors_targetDecl (env : Env) (site : Site) (ref : Reference) :
    Mirrors ρ ρ' Decl.relabel (targetDecl (env.relabel ρ) site (ref.relabel ρ.written))
      (targetDecl (env.relabel ρ') site (ref.relabel ρ'.written)) := by
  have refused : Mirrors (α := Decl) ρ ρ' Decl.relabel
      (.error (.fault .notVariable (ref.relabel ρ.written).pos))
      (.error (.fault .notVariable (ref.relabel ρ'.written).pos)) := by
    rw [Reference.pos_relabel, Reference.pos_relabel]
    exact .fault (.place ref.pos) fun _ => rfl
  have target : ∀ d : Decl, Mirrors ρ ρ' Decl.relabel
      (if d.relabel ρ = Predefined.length || d.relabel ρ = Predefined.out then
          .error (.fault .notVariable (ref.relabel ρ.written).pos)
        else .ok (d.relabel ρ))
      (if d.relabel ρ' = Predefined.length || d.relabel ρ' = Predefined.out then
          .error (.fault .notVariable (ref.relabel ρ'.written).pos)
        else .ok (d.relabel ρ')) := by
    intro d
    simp only [Decl.relabel_eq_out, Decl.relabel_eq_length]
    split
    · exact refused
    · exact .ok d rfl rfl
  simp only [targetDecl, Env.relabel, relabelBound]
  cases ref with
  | this pos => exact refused
  | ident | qualified | unknown =>
    cases env.bound site with
    | none => exact refused
    | some d =>
      cases d with
      | cls | method => exact refused
      | field home d => exact target (.field home d)
      | param site d => exact target (.param site d)
      | var site d => exact target (.var site d)

/-- Storing a value, if the code of the value is relabelled wherever it stands. -/
theorem mirrors_emitStore (env : Env) (base : Nat) (site : Site) (ref : Reference)
    {value value' : Nat → Emitted Code}
    (h : ∀ base, Mirrors ρ ρ' relabelCode (value base) (value' base)) :
    Mirrors ρ ρ' relabelCode (emitStore (env.relabel ρ) base site (ref.relabel ρ.written) value)
      (emitStore (env.relabel ρ') base site (ref.relabel ρ'.written) value') := by
  have direct : ∀ (r : Register) (k : Int), Mirrors ρ ρ' relabelCode
      (do return (← value base) ++ [.instr { op := .store, r := r, d := k }])
      (do return (← value' base) ++ [.instr { op := .store, r := r, d := k }]) := fun r k =>
    (h base).bind fun code => .ok (code ++ [.instr { op := .store, r := r, d := k }])
      (by simp) (by simp)
  refine (mirrors_targetDecl env site ref).bind fun d => ?_
  refine (mirrors_locationOf env d).bind fun location => ?_
  cases location with
  | static k => cases ref <;> exact direct .sb k
  | frame k => cases ref <;> exact direct .lb k
  | code k =>
    have here : Places ρ ρ' (ref.relabel ρ.written).pos (ref.relabel ρ'.written).pos := by
      rw [Reference.pos_relabel, Reference.pos_relabel]
      exact .place ref.pos
    cases ref <;> exact .fault here fun _ => rfl
  | object k =>
    cases ref with
    | this | ident | unknown => exact direct .ob k
    | qualified qualifier name pos =>
      refine (mirrors_emitRef env site.qualifier qualifier).bind fun object => ?_
      simp only [List.length_append, length_relabelCode]
      exact (h _).bind fun code => .ok (object ++ [literal k] ++ code ++ [prim .fieldupd])
        (by simp) (by simp)

/-- A method and its home, relabelled. -/
def relabelMethod (ρ : Relabelling) (method : Home × MethodHead) : Home × MethodHead :=
  (method.1, method.2.relabel (ρ.labels method.1))

theorem mirrors_callee (env : Env) (target : Site) (pos : Nat) :
    Mirrors ρ ρ' relabelMethod (callee (env.relabel ρ) target (ρ.place pos))
      (callee (env.relabel ρ') target (ρ'.place pos)) := by
  have refused : Mirrors (α := Home × MethodHead) ρ ρ' relabelMethod
      (.error (.fault .callTarget (ρ.place pos))) (.error (.fault .callTarget (ρ'.place pos))) :=
    .fault (.place pos) fun _ => rfl
  simp only [callee, Env.relabel, relabelBound]
  cases env.bound target with
  | none => exact refused
  | some d =>
    cases d with
    | cls | field | param | var => exact refused
    | method home head => exact .ok (home, head) rfl rfl

theorem isPrintln_relabelMethod (ρ : Relabelling) (method : Home × MethodHead) :
    isPrintln (relabelMethod ρ method) = isPrintln method :=
  decide_eq_decide.mpr (Decl.relabel_eq_println (d := .method method.1 method.2) ρ)

theorem argsTaken_relabelMethod (ρ : Relabelling) (method : Home × MethodHead) (given : Nat) :
    argsTaken (relabelMethod ρ method) given = argsTaken method given := by
  rw [argsTaken, argsTaken, isPrintln_relabelMethod]

theorem mirrors_emitInvocation (env : Env) (target : Site) (ref : Reference)
    (method : Home × MethodHead) (given : Nat) (args : Code) :
    Mirrors ρ ρ' relabelCode
      (emitInvocation (env.relabel ρ) target (ref.relabel ρ.written) (relabelMethod ρ method) given
        (relabelCode ρ args))
      (emitInvocation (env.relabel ρ') target (ref.relabel ρ'.written) (relabelMethod ρ' method)
        given (relabelCode ρ' args)) := by
  have static : ∀ ρ, (Decl.method (relabelMethod ρ method).1 (relabelMethod ρ method).2).isStatic =
      (Decl.method method.1 method.2).isStatic := fun _ => rfl
  simp only [emitInvocation, isPrintln_relabelMethod, static]
  split
  · split
    · exact .error .missingArgument
    · exact .ok (args ++ [prim .putintnl]) (by simp) (by simp)
  · split
    · exact .ok (args ++ [.call false (.method method.1 method.2)])
        (by rw [relabelCode_append]; rfl) (by rw [relabelCode_append]; rfl)
    · have called : ∀ {x y : Emitted Code}, Mirrors ρ ρ' relabelCode x y → Mirrors ρ ρ' relabelCode
          (do return relabelCode ρ args ++ (← x) ++
                [.call true (.method (relabelMethod ρ method).1 (relabelMethod ρ method).2)])
          (do return relabelCode ρ' args ++ (← y) ++
                [.call true (.method (relabelMethod ρ' method).1 (relabelMethod ρ' method).2)]) :=
        fun receiver => receiver.bind fun code =>
          .ok (args ++ code ++ [.call true (.method method.1 method.2)])
            (by rw [relabelCode_append, relabelCode_append]; rfl)
            (by rw [relabelCode_append, relabelCode_append]; rfl)
      cases ref with
      | this | ident | unknown => exact called (.ok [self] rfl rfl)
      | qualified qualifier name pos =>
        exact called (mirrors_emitRef env target.qualifier qualifier)

theorem mirrors_emitNew (env : Env) (site : Site) (type : TypeExpr) (pos : Nat) :
    Mirrors ρ ρ' relabelCode
      (emitNew (env.relabel ρ) site (type.relabel ρ.written) (ρ.place pos))
      (emitNew (env.relabel ρ') site (type.relabel ρ'.written) (ρ'.place pos)) := by
  have refused : Mirrors ρ ρ' relabelCode
      (.error (.fault (.cannotInstantiate (type.relabel ρ.written).text) (ρ.place pos)))
      (.error (.fault (.cannotInstantiate (type.relabel ρ'.written).text) (ρ'.place pos))) := by
    refine .fault (.place pos) fun names => ?_
    have text : (type.relabel ρ.written).text = (type.relabel ρ'.written).text :=
      type.text_relabel names
    rw [text]
  simp only [emitNew, Env.relabel, relabelBound]
  cases type with
  | base | array | unknown => exact refused
  | named name pos =>
    cases env.bound site.className with
    | none => exact refused
    | some d =>
      cases d with
      | method | field | param | var => exact refused
      | cls c =>
        obtain ⟨home, name, pos⟩ := c
        cases home with
        | predefined => exact refused
        | user cls =>
          dsimp only [TypeExpr.relabel, Option.map_some, Decl.relabel, ClassRef.relabel]
          cases env.layout cls with
          | none => exact refused
          | some l => exact .ok [literal l.number, literal l.size, prim .newobj] rfl rfl

mutual

theorem mirrors_emitExpr (env : Env) (base : Nat) (site : Site) (e : Expr) :
    Mirrors ρ ρ' relabelCode (emitExpr (env.relabel ρ) base site (e.relabel ρ.written))
      (emitExpr (env.relabel ρ') base site (e.relabel ρ'.written)) := by
  match e with
  | .int value pos => exact .ok [literal value] rfl rfl
  | .bool value pos => exact .ok [literal (boolWord value)] rfl rfl
  | .null pos => exact .ok [literal nullWord] rfl rfl
  | .unary op operand pos =>
    have first := mirrors_emitExpr env base site.operand operand
    simp only [Expr.relabel, emitExpr]
    cases unaryPrim? op with
    | none => exact .fault (.place pos) fun _ => rfl
    | some p => exact first.bind fun code => .ok (code ++ [prim p]) (by simp) (by simp)
  | .binary op left right pos =>
    have first := mirrors_emitExpr env base site.left left
    have second := fun base => mirrors_emitExpr env base site.right right
    simp only [Expr.relabel, emitExpr]
    cases binaryPrim? op with
    | none => exact .fault (.place pos) fun _ => rfl
    | some p =>
      refine first.bind fun code => ?_
      simp only [length_relabelCode]
      cases decisive? op with
      | none =>
        exact (second _).bind fun more => .ok (code ++ more ++ [prim p]) (by simp) (by simp)
      | some decides =>
        refine (second _).bind fun more => ?_
        simp only [length_relabelCode]
        exact .ok (code ++ [.instr { op := .load, r := .st, d := -1 },
          .instr { op := .jumpif, n := boolWord decides, r := .cb,
                   d := ↑(base + code.length + 2 + more.length + 1) }] ++ more ++ [prim p])
          (by simp) (by simp)
  | .ref ref pos => exact mirrors_emitRef env site.target ref
  | .index ref index pos =>
    refine (mirrors_emitRef env site.target ref).bind fun array => ?_
    simp only [length_relabelCode]
    exact (mirrors_emitExpr env _ site.index index).bind fun code =>
      .ok (array ++ code ++ [prim .arrayref]) (by simp) (by simp)
  | .call ref args pos =>
    refine (mirrors_callee env site.target pos).bind fun method => ?_
    simp only [argsTaken_relabelMethod, Expr.length_relabelAll]
    exact (mirrors_emitArgs env base site 0 _ args).bind fun code =>
      mirrors_emitInvocation env site.target ref method args.length code
  | .newObject type pos => exact mirrors_emitNew env site.type type pos
  | .newArray element size pos =>
    exact (mirrors_emitExpr env base site.size size).bind fun code =>
      .ok (code ++ [prim .newarr]) (by simp) (by simp)
  | .unknown kind pos => exact .fault (.place pos) fun _ => rfl

theorem mirrors_emitArgs (env : Env) (base : Nat) (call : Site) (k taken : Nat) (args : List Expr) :
    Mirrors ρ ρ' relabelCode
      (emitArgs (env.relabel ρ) base call k taken (Expr.relabelAll ρ.written args))
      (emitArgs (env.relabel ρ') base call k taken (Expr.relabelAll ρ'.written args)) := by
  match args, taken with
  | [], _ => exact .ok [] rfl rfl
  | e :: rest, 0 => exact .ok [] rfl rfl
  | e :: rest, taken + 1 =>
    refine (mirrors_emitExpr env base (call.arg k) e).bind fun code => ?_
    simp only [length_relabelCode]
    exact (mirrors_emitArgs env _ call (k + 1) taken rest).bind fun more =>
      .ok (code ++ more) (by simp) (by simp)

end

/-- Code and a number of locals. -/
def relabelCounted (ρ : Relabelling) (c : Code × Nat) : Code × Nat := (relabelCode ρ c.1, c.2)

def Context.relabel (ρ : Relabelling) (ctx : Context) : Context :=
  { ctx with bound := relabelBound ρ ctx.bound }

theorem mirrors_fatal {α γ : Type} {answer : Relabelling → γ → α} {fault fault' : CodeFault}
    {pos pos' : Nat} (places : Places ρ ρ' pos pos')
    (shown : ρ.name = ρ'.name → (Fault.code fault).shown = (Fault.code fault').shown) :
    Pass.Mirrors ρ ρ' (unchanged (α := Placing)) answer (fatal fault pos) (fatal fault' pos') :=
  .fatal places shown

theorem mirrors_place (site : Site) (location : Location) (name : String) (pos : Nat) :
    Pass.Mirrors ρ ρ' unchanged unchanged (place site location (ρ.name name) (ρ.place pos))
      (place site location (ρ'.name name) (ρ'.place pos)) := by
  refine Pass.Mirrors.getOwn.bind fun placing => ?_
  simp only [unchanged]
  cases placing.locations.get? site with
  | some _ => exact mirrors_fatal (.place pos) fun names => by rw [names]
  | none =>
    exact .modifyOwn (fun p => { p with locations := p.locations.fill site location })
      (fun _ => rfl) fun _ => rfl

theorem mirrors_emitted {α γ : Type} {answer : Relabelling → γ → α} (bound : Site → Option Decl)
    {code code' : Env → Emitted α}
    (h : ∀ env : Env, Mirrors ρ ρ' answer (code (env.relabel ρ)) (code' (env.relabel ρ'))) :
    Pass.Mirrors ρ ρ' unchanged answer (emitted (relabelBound ρ bound) code)
      (emitted (relabelBound ρ' bound) code') := by
  refine Pass.Mirrors.getOwn.bind fun placing => ?_
  have same := h ⟨bound, placing.locations.get?, placing.layouts.get?⟩
  simp only [Env.relabel] at same
  simp only [unchanged]
  generalize code _ = x at same ⊢
  generalize code' _ = y at same ⊢
  cases same with
  | ok c ha hb => exact .pure c ha hb
  | error alike =>
    cases alike with
    | fault places shown => exact mirrors_fatal places shown
    | missingArgument => exact .missing

theorem mirrors_emitCallStmt (env : Env) (base : Nat) (site : Site) (ref : Reference)
    (args : List Expr) (pos : Nat) :
    Mirrors ρ ρ' relabelCode
      (emitCallStmt (env.relabel ρ) base site (ref.relabel ρ.written)
        (Expr.relabelAll ρ.written args) (ρ.place pos))
      (emitCallStmt (env.relabel ρ') base site (ref.relabel ρ'.written)
        (Expr.relabelAll ρ'.written args) (ρ'.place pos)) := by
  refine (mirrors_callee env site.target pos).bind fun method => ?_
  simp only [argsTaken_relabelMethod, Expr.length_relabelAll]
  refine (mirrors_emitArgs env base site 0 _ args).bind fun code => ?_
  refine (mirrors_emitInvocation env site.target ref method args.length code).bind fun call => ?_
  simp only [relabelMethod, MethodHead.relabel, TypeExpr.isVoid_relabel]
  split
  · exact .ok call rfl rfl
  · exact .ok (call ++ [pop 1]) (by simp) (by simp)

theorem mirrors_emitElementStore (env : Env) (base : Nat) (site : Site) (target : Reference)
    (index value : Expr) :
    Mirrors ρ ρ' relabelCode
      (emitElementStore (env.relabel ρ) base site (target.relabel ρ.written)
        (index.relabel ρ.written) (value.relabel ρ.written))
      (emitElementStore (env.relabel ρ') base site (target.relabel ρ'.written)
        (index.relabel ρ'.written) (value.relabel ρ'.written)) := by
  refine (mirrors_emitRef env site.target target).bind fun array => ?_
  simp only [length_relabelCode]
  refine (mirrors_emitExpr env _ site.index index).bind fun indexCode => ?_
  simp only [length_relabelCode]
  exact (mirrors_emitExpr env _ site.value value).bind fun valueCode =>
    .ok (array ++ indexCode ++ valueCode ++ [prim .arrayupd]) (by simp) (by simp)

mutual

theorem mirrors_emitStmt (ctx : Context) (base slot : Nat) (site : Site) (s : Stmt) :
    Pass.Mirrors ρ ρ' unchanged relabelCounted
      (emitStmt (ctx.relabel ρ) base slot site (s.relabel ρ.written))
      (emitStmt (ctx.relabel ρ') base slot site (s.relabel ρ'.written)) := by
  match s with
  | .block stmts pos =>
    refine (mirrors_emitStmts ctx base slot site 0 stmts).bind fun block => ?_
    refine .pure (if block.2 = 0 then block.1 else block.1 ++ [pop block.2], 0) ?_ ?_
    · simp only [relabelCounted]
      split <;> simp
    · simp only [relabelCounted]
      split <;> simp
  | .declare var init pos =>
    exact (mirrors_place site.var (.frame slot) var.name var.pos).bind fun _ =>
      (mirrors_emitted ctx.bound (mirrors_emitExpr · base site.init init)).bind fun code =>
        .pure (code, 1) rfl rfl
  | .assign target value pos =>
    exact (mirrors_emitted ctx.bound fun env => mirrors_emitStore env base site.target target
      (mirrors_emitExpr env · site.value value)).bind fun code => .pure (code, 0) rfl rfl
  | .assignIndex target index value pos =>
    exact (mirrors_emitted ctx.bound
      (mirrors_emitElementStore · base site target index value)).bind fun code =>
        .pure (code, 0) rfl rfl
  | .call ref args pos =>
    exact (mirrors_emitted ctx.bound (mirrors_emitCallStmt · base site ref args pos)).bind
      fun code => .pure (code, 0) rfl rfl
  | .ret none pos => exact .pure ([.instr { op := .ret, n := 0, d := ctx.arity }], 0) rfl rfl
  | .ret (some value) pos =>
    exact (mirrors_emitted ctx.bound (mirrors_emitExpr · base site.value value)).bind fun code =>
      .pure (code ++ [.instr { op := .ret, n := 1, d := ctx.arity }], 0)
        (by simp [relabelCounted]; rfl) (by simp [relabelCounted]; rfl)
  -- Addresses are counted from the lengths of the code before them, which no relabelling changes.
  | .ifThen cond body pos =>
    refine (mirrors_emitted ctx.bound (mirrors_emitExpr · base site.cond cond)).bind fun test => ?_
    simp only [length_relabelCode]
    refine (mirrors_emitStmt ctx _ slot site.thenBranch body).bind fun first => ?_
    simp only [relabelCounted, length_relabelCode]
    exact .pure (test ++ [jumpIf false (base + test.length + 1 + first.1.length + 1)] ++ first.1 ++
      [jump (base + test.length + 1 + first.1.length + 1)], first.2)
      (by simp [relabelCounted]) (by simp [relabelCounted])
  | .ifElse cond body other pos =>
    refine (mirrors_emitted ctx.bound (mirrors_emitExpr · base site.cond cond)).bind fun test => ?_
    simp only [length_relabelCode]
    refine (mirrors_emitStmt ctx _ slot site.thenBranch body).bind fun first => ?_
    simp only [relabelCounted, length_relabelCode]
    refine (mirrors_emitStmt ctx _ (slot + first.2) site.elseBranch other).bind fun second => ?_
    simp only [relabelCounted, length_relabelCode]
    exact .pure (test ++ [jumpIf false (base + test.length + 1 + first.1.length + 1)] ++ first.1 ++
      [jump (base + test.length + 1 + first.1.length + 1 + second.1.length)] ++ second.1,
      first.2 + second.2) (by simp [relabelCounted]) (by simp [relabelCounted])
  | .loop cond body pos =>
    refine (mirrors_emitStmt ctx (base + 1) slot site.thenBranch body).bind fun first => ?_
    simp only [relabelCounted, length_relabelCode]
    refine (mirrors_emitted ctx.bound (mirrors_emitExpr · _ site.cond cond)).bind fun test => ?_
    exact .pure ([jump (base + 1 + first.1.length)] ++ first.1 ++ test ++ [jumpIf true (base + 1)],
      first.2) (by simp [relabelCounted]) (by simp [relabelCounted])
  | .unknown kind pos => exact mirrors_fatal (.place pos) fun _ => rfl

theorem mirrors_emitStmts (ctx : Context) (base slot : Nat) (block : Site) (k : Nat)
    (stmts : List Stmt) :
    Pass.Mirrors ρ ρ' unchanged relabelCounted
      (emitStmts (ctx.relabel ρ) base slot block k (Stmt.relabelAll ρ.written stmts))
      (emitStmts (ctx.relabel ρ') base slot block k (Stmt.relabelAll ρ'.written stmts)) := by
  match stmts with
  | [] => exact .pure ([], 0) rfl rfl
  | s :: rest =>
    refine (mirrors_emitStmt ctx base slot (block.stmt k) s).bind fun first => ?_
    simp only [relabelCounted, length_relabelCode]
    exact (mirrors_emitStmts ctx _ _ block (k + 1) rest).bind fun more =>
      .pure (first.1 ++ more.1, first.2 + more.2) (by simp [relabelCounted])
        (by simp [relabelCounted])

end

theorem mirrors_emitBody (ctx : Context) (base slot : Nat) (method : Site) (k : Nat)
    (stmts : List Stmt) :
    Pass.Mirrors ρ ρ' unchanged relabelCode
      (emitBody (ctx.relabel ρ) base slot method k (Stmt.relabelAll ρ.written stmts))
      (emitBody (ctx.relabel ρ') base slot method k (Stmt.relabelAll ρ'.written stmts)) := by
  induction stmts generalizing base slot k with
  | nil => exact .pure [] rfl rfl
  | cons s rest ih =>
    refine (mirrors_emitStmt ctx base slot (method.body k) s).bind fun first => ?_
    simp only [relabelCounted, length_relabelCode]
    exact (ih _ _ (k + 1)).bind fun more => .pure (first.1 ++ more) (by simp) (by simp)

theorem mirrors_placeParams (method : Site) (arity k : Nat) (params : List ParamDecl) :
    Pass.Mirrors ρ ρ' unchanged unchanged
      (placeParams method arity k (params.map (·.relabel ρ.written)))
      (placeParams method arity k (params.map (·.relabel ρ'.written))) := by
  induction params generalizing k with
  | nil => exact .done
  | cons p rest ih =>
    exact (mirrors_place (method.param k) (.frame (k - arity)) p.name p.pos).bind fun _ =>
      ih (k + 1)

theorem mirrors_emitMethod (bound : Site → Option Decl) (base : Nat) (site : Site)
    (m : MethodDecl) :
    Pass.Mirrors ρ ρ' unchanged relabelCode
      (emitMethod (relabelBound ρ bound) base site (m.relabel ρ.written))
      (emitMethod (relabelBound ρ' bound) base site (m.relabel ρ'.written)) := by
  have arity : ∀ ρ : Relabelling, (m.relabel ρ.written).head.params.length = m.head.params.length :=
    fun ρ => List.length_map _
  simp only [emitMethod, arity]
  exact (mirrors_placeParams site _ 0 m.head.params).bind fun _ =>
    (mirrors_place site (.code base) m.head.name m.head.pos).bind fun _ =>
      mirrors_emitBody ⟨bound, m.head.params.length⟩ base linkageSize site 0 m.body

/-- The code of the methods is the same whichever way they are relabelled, but for what their calls
refer to. -/
theorem mirrors_emitMethods (bound : Site → Option Decl) (base : Nat)
    (methods : List (Site × MethodDecl)) :
    Pass.Mirrors ρ ρ' unchanged relabelCode
      (emitMethods (relabelBound ρ bound) base (methods.map fun m => (m.1, m.2.relabel ρ.written)))
      (emitMethods (relabelBound ρ' bound) base
        (methods.map fun m => (m.1, m.2.relabel ρ'.written))) := by
  induction methods generalizing base with
  | nil => exact .pure [] rfl rfl
  | cons m rest ih =>
    refine (mirrors_emitMethod bound base m.1 m.2).bind fun code => ?_
    simp only [length_relabelCode]
    exact (ih _).bind fun more => .pure (code ++ more) (by simp) (by simp)

end Emission

end JamCompiler
