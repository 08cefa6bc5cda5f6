import JamCompiler.Proofs.Relabelling.Resolution
import JamCompiler.Typing

/-!
# Typing of relabelled programs

A rule of typing asks whether types go together, and whether a declaration is one of those that are
predefined. Relabelling changes neither, so the nodes have the same types, relabelled. A message
shows types by their texts, which are made of names only.
-/

namespace JamCompiler

open Pass

/-- The types of nodes, relabelled. -/
def relabelTypes (ρ : Relabelling) : SiteMap ValueType → SiteMap ValueType :=
  SiteMap.map (ValueType.relabel ρ)

namespace TypeFault

/-- A fault with the names and types that it shows relabelled, but for the parameter of an
argument, which may be predefined. -/
def relabel (ρ : Relabelling) : TypeFault → TypeFault
  | cannotInitialize name declared given =>
    cannotInitialize (ρ.name name) (declared.relabel ρ) (given.relabel ρ)
  | cannotAssign given target => cannotAssign (given.relabel ρ) (target.relabel ρ)
  | indexNotInt given => indexNotInt (given.relabel ρ)
  | cannotStore given element => cannotStore (given.relabel ρ) (element.relabel ρ)
  | notIndexable type => notIndexable (type.relabel ρ)
  | missingValue method result => missingValue (ρ.name method) (result.relabel ρ)
  | valueFromVoid method => valueFromVoid (ρ.name method)
  | wrongReturn given result => wrongReturn (given.relabel ρ) (result.relabel ρ)
  | condition statement given => condition statement (given.relabel ρ)
  | assignToThis => assignToThis
  | assignToClass name => assignToClass (ρ.name name)
  | assignToMethod name => assignToMethod (ρ.name name)
  | lengthReadOnly => lengthReadOnly
  | outReadOnly => outReadOnly
  | notMethod name => notMethod (ρ.name name)
  | argumentCount method expected given => argumentCount (ρ.name method) expected given
  | argument param method expected given =>
    argument param (ρ.name method) (expected.relabel ρ) (given.relabel ρ)
  | unresolved => unresolved
  | negation given => negation (given.relabel ρ)
  | complement given => complement (given.relabel ρ)
  | unknownUnary op => unknownUnary op
  | intOperands op left right => intOperands op (left.relabel ρ) (right.relabel ρ)
  | incomparable left right => incomparable (left.relabel ρ) (right.relabel ρ)
  | booleanOperands op left right => booleanOperands op (left.relabel ρ) (right.relabel ρ)
  | unknownBinary op => unknownBinary op
  | sizeNotInt given => sizeNotInt (given.relabel ρ)
  | classAsValue name => classAsValue (ρ.name name)
  | methodAsValue name => methodAsValue (ρ.name name)
  | outAsValue => outAsValue
  | foreign sort kind => foreign sort kind

variable {ρ ρ' : Relabelling}

/-- Types have the same texts where the names are the same, so faults have the same messages. -/
theorem message_relabel (names : ρ.name = ρ'.name) (fault : TypeFault) :
    (fault.relabel ρ).message = (fault.relabel ρ').message := by
  unfold message
  cases fault <;> simp only [relabel, ValueType.text_relabel names, names]

theorem hint_relabel (fault : TypeFault) : (fault.relabel ρ).hint = (fault.relabel ρ').hint := by
  cases fault <;> rfl

theorem shown_relabel (names : ρ.name = ρ'.name) (fault : TypeFault) :
    (Fault.typing (fault.relabel ρ)).shown = (Fault.typing (fault.relabel ρ')).shown :=
  Prod.ext (fault.message_relabel names) fault.hint_relabel

end TypeFault

namespace Typing

def Context.relabel (ρ : Relabelling) (ctx : Context) : Context where
  bound := relabelBound ρ ctx.bound
  home := ctx.home
  method := ctx.method.relabel (ρ.labels ctx.home)

theorem Context.result_relabel (ρ : Relabelling) (ctx : Context) :
    (ctx.relabel ρ).result = ctx.result.relabel ρ :=
  ctx.method.result.viewAt_relabel (ρ.labels_name ctx.home) ctx.bound ctx.home

/-- The positions and types of arguments, relabelled. -/
def relabelArgs (ρ : Relabelling) : List (Nat × ValueType) → List (Nat × ValueType) :=
  List.map fun a => (ρ.place a.1, a.2.relabel ρ)

variable {ρ ρ' : Relabelling}

theorem mirrors_reportType (fault : TypeFault) {pos pos' : Nat} (places : Places ρ ρ' pos pos') :
    Mirrors ρ ρ' relabelTypes unchanged (reportType (fault.relabel ρ) pos)
      (reportType (fault.relabel ρ') pos') :=
  .report places fun names => fault.shown_relabel names

/-- A report on a condition, which is the same for both, and what is done after it. -/
theorem mirrors_reportIf {α γ : Type} {answer : Relabelling → γ → α} {x y : Typing α} (wrong : Bool)
    (fault : TypeFault) {pos pos' : Nat} (places : Places ρ ρ' pos pos')
    (rest : Mirrors ρ ρ' relabelTypes answer x y) :
    Mirrors ρ ρ' relabelTypes answer
      (if wrong then do reportType (fault.relabel ρ) pos; x else x)
      (if wrong then do reportType (fault.relabel ρ') pos'; y else y) := by
  cases wrong with
  | true => exact (mirrors_reportType fault places).bind fun _ => rest
  | false => exact rest

theorem mirrors_faulty (fault : TypeFault) {pos pos' : Nat} (places : Places ρ ρ' pos pos') :
    Mirrors ρ ρ' relabelTypes ValueType.relabel (faulty (fault.relabel ρ) pos)
      (faulty (fault.relabel ρ') pos') :=
  (mirrors_reportType fault places).bind fun _ => .pure .error rfl rfl

theorem mirrors_record (site : Site) (type : ValueType) :
    Mirrors ρ ρ' relabelTypes ValueType.relabel (record site (type.relabel ρ))
      (record site (type.relabel ρ')) := by
  have filled : ∀ (ρ : Relabelling) (types : SiteMap ValueType),
      (relabelTypes ρ types).fill site (type.relabel ρ) = relabelTypes ρ (types.fill site type) :=
    fun ρ types => types.fill_map (ValueType.relabel ρ) site type
  have answer : ∀ (ρ : Relabelling) (types : SiteMap ValueType),
      ((relabelTypes ρ types).get? site).getD (type.relabel ρ) =
        ((types.get? site).getD type).relabel ρ := by
    intro ρ types
    rw [relabelTypes, SiteMap.get?_map, Option.getD_map]
  refine (Mirrors.modifyOwn (SiteMap.fill · site type) (filled ρ) (filled ρ')).bind fun _ => ?_
  exact Mirrors.getOwn.answers (fun types => (types.get? site).getD type) (answer ρ) (answer ρ')

theorem mirrors_declOf (ctx : Context) (site : Site) (ref : Reference) :
    Mirrors ρ ρ' relabelTypes Decl.relabel (declOf (ctx.relabel ρ) site (ref.relabel ρ.written))
      (declOf (ctx.relabel ρ') site (ref.relabel ρ'.written)) := by
  simp only [declOf, Context.relabel, relabelBound, Reference.pos_relabel]
  cases ctx.bound site with
  | some d => exact .pure d rfl rfl
  | none => exact .fatal (.place ref.pos) fun _ => rfl

/-- The answer with the type of a declaration. -/
theorem mirrors_declType (ctx : Context) (d : Decl) :
    Mirrors ρ ρ' relabelTypes ValueType.relabel
      (pure ((d.relabel ρ).type (ctx.relabel ρ).bound))
      (pure ((d.relabel ρ').type (ctx.relabel ρ').bound)) :=
  .pure (d.type ctx.bound) (d.type_relabel ρ ctx.bound) (d.type_relabel ρ' ctx.bound)

theorem mirrors_checkValue (ctx : Context) (site : Site) (ref : Reference) :
    Mirrors ρ ρ' relabelTypes ValueType.relabel
      (checkValue (ctx.relabel ρ) site (ref.relabel ρ.written))
      (checkValue (ctx.relabel ρ') site (ref.relabel ρ'.written)) := by
  refine (mirrors_declOf ctx site ref).bind fun d => ?_
  have here : Places ρ ρ' (ref.relabel ρ.written).pos (ref.relabel ρ'.written).pos := by
    rw [Reference.pos_relabel, Reference.pos_relabel]
    exact .place ref.pos
  have value : Mirrors ρ ρ' relabelTypes ValueType.relabel
      (if d.relabel ρ = Predefined.out then faulty .outAsValue (ref.relabel ρ.written).pos
        else pure ((d.relabel ρ).type (ctx.relabel ρ).bound))
      (if d.relabel ρ' = Predefined.out then faulty .outAsValue (ref.relabel ρ'.written).pos
        else pure ((d.relabel ρ').type (ctx.relabel ρ').bound)) := by
    simp only [Decl.relabel_eq_out]
    split
    · exact mirrors_faulty .outAsValue here
    · exact mirrors_declType ctx d
  cases ref with
  | this pos => exact mirrors_declType ctx d
  | ident | qualified | unknown =>
    cases d with
    | cls c => exact mirrors_faulty (.classAsValue c.name) here
    | method home head =>
      cases home <;> exact mirrors_faulty (.methodAsValue head.name) here
    | field | param | var => exact value

theorem mirrors_checkTarget (ctx : Context) (site : Site) (ref : Reference) :
    Mirrors ρ ρ' relabelTypes ValueType.relabel
      (checkTarget (ctx.relabel ρ) site (ref.relabel ρ.written))
      (checkTarget (ctx.relabel ρ') site (ref.relabel ρ'.written)) := by
  refine (mirrors_declOf ctx site ref).bind fun d => ?_
  have here : Places ρ ρ' (ref.relabel ρ.written).pos (ref.relabel ρ'.written).pos := by
    rw [Reference.pos_relabel, Reference.pos_relabel]
    exact .place ref.pos
  have target : Mirrors ρ ρ' relabelTypes ValueType.relabel
      (if d.relabel ρ = Predefined.length then
          faulty .lengthReadOnly (ref.relabel ρ.written).pos
        else if d.relabel ρ = Predefined.out then faulty .outReadOnly (ref.relabel ρ.written).pos
        else pure ((d.relabel ρ).type (ctx.relabel ρ).bound))
      (if d.relabel ρ' = Predefined.length then
          faulty .lengthReadOnly (ref.relabel ρ'.written).pos
        else if d.relabel ρ' = Predefined.out then faulty .outReadOnly (ref.relabel ρ'.written).pos
        else pure ((d.relabel ρ').type (ctx.relabel ρ').bound)) := by
    simp only [Decl.relabel_eq_length, Decl.relabel_eq_out]
    split
    · exact mirrors_faulty .lengthReadOnly here
    · split
      · exact mirrors_faulty .outReadOnly here
      · exact mirrors_declType ctx d
  cases ref with
  | this pos => exact mirrors_faulty .assignToThis (.place pos)
  | ident | qualified | unknown =>
    cases d with
    | cls c => exact mirrors_faulty (.assignToClass c.name) here
    | method home head =>
      cases home <;> exact mirrors_faulty (.assignToMethod head.name) here
    | field | param | var => exact target

theorem mirrors_checkUnary (op : UnaryOp) (pos : Nat) (given : ValueType) :
    Mirrors ρ ρ' relabelTypes ValueType.relabel (checkUnary op (ρ.place pos) (given.relabel ρ))
      (checkUnary op (ρ'.place pos) (given.relabel ρ')) := by
  cases op with
  | neg =>
    simp only [checkUnary, ValueType.isBase_relabel]
    split
    · exact .pure (.base .int) rfl rfl
    · exact mirrors_faulty (.negation given) (.place pos)
  | not =>
    simp only [checkUnary, ValueType.isBase_relabel]
    split
    · exact .pure (.base .boolean) rfl rfl
    · exact mirrors_faulty (.complement given) (.place pos)
  | other text => exact .fatal (.place pos) fun _ => rfl

theorem mirrors_checkBinary (op : BinaryOp) (pos : Nat) (left right : ValueType) :
    Mirrors ρ ρ' relabelTypes ValueType.relabel
      (checkBinary op (ρ.place pos) (left.relabel ρ) (right.relabel ρ))
      (checkBinary op (ρ'.place pos) (left.relabel ρ') (right.relabel ρ')) := by
  have ints : ∀ result, Mirrors ρ ρ' relabelTypes ValueType.relabel
      (if (left.relabel ρ).isBase .int && (right.relabel ρ).isBase .int then
          pure (.base result)
        else faulty (.intOperands op.text (left.relabel ρ) (right.relabel ρ)) (ρ.place pos))
      (if (left.relabel ρ').isBase .int && (right.relabel ρ').isBase .int then
          pure (.base result)
        else faulty (.intOperands op.text (left.relabel ρ') (right.relabel ρ'))
          (ρ'.place pos)) := by
    intro result
    simp only [ValueType.isBase_relabel]
    split
    · exact .pure (.base result) rfl rfl
    · exact mirrors_faulty (.intOperands op.text left right) (.place pos)
  cases op with
  | add | sub | mul | div => exact ints .int
  | lt | le | gt | ge => exact ints .boolean
  | eq | ne =>
    simp only [checkBinary, ValueType.compatible_relabel]
    split
    · exact .pure (.base .boolean) rfl rfl
    · exact mirrors_faulty (.incomparable left right) (.place pos)
  | and | or =>
    simp only [checkBinary, ValueType.isBase_relabel]
    split
    · exact .pure (.base .boolean) rfl rfl
    · exact mirrors_faulty (.booleanOperands _ left right) (.place pos)
  | other text => exact .fatal (.place pos) fun _ => rfl

theorem mirrors_matchArgs (home : Home) (method : String) (args : List (Nat × ValueType))
    (params : List (ParamDecl × ValueType)) :
    Mirrors ρ ρ' relabelTypes unchanged
      (matchArgs (ρ.name method) (relabelArgs ρ args)
        (params.map fun p => (p.1.relabel (ρ.labels home), p.2.relabel ρ)))
      (matchArgs (ρ'.name method) (relabelArgs ρ' args)
        (params.map fun p => (p.1.relabel (ρ'.labels home), p.2.relabel ρ'))) := by
  induction args generalizing params with
  | nil => exact .done
  | cons a args ih =>
    cases params with
    | nil => exact .done
    | cons p params =>
      obtain ⟨pos, given⟩ := a
      obtain ⟨p, expected⟩ := p
      have rest := ih params
      simp only [relabelArgs, List.map_cons, matchArgs, ValueType.compatible_relabel]
      cases home with
      | predefined =>
        exact mirrors_reportIf _ (.argument p.name method expected given) (.place pos) rest
      | user site =>
        split
        · refine (Mirrors.report (.place pos) fun names => ?_).bind fun _ => rest
          have param : (p.relabel ρ.written).name = (p.relabel ρ'.written).name :=
            congrFun names p.name
          rw [Relabelling.labels, Relabelling.labels, param]
          exact (TypeFault.argument _ method expected given).shown_relabel names
        · exact rest

theorem mirrors_checkCall (ctx : Context) (d : Decl) (ref : Reference) (pos : Nat)
    (args : List (Nat × ValueType)) :
    Mirrors ρ ρ' relabelTypes ValueType.relabel
      (checkCall (ctx.relabel ρ) (d.relabel ρ) (ref.relabel ρ.written) (ρ.place pos)
        (relabelArgs ρ args))
      (checkCall (ctx.relabel ρ') (d.relabel ρ') (ref.relabel ρ'.written) (ρ'.place pos)
        (relabelArgs ρ' args)) := by
  have here : Places ρ ρ' (ref.relabel ρ.written).pos (ref.relabel ρ'.written).pos := by
    rw [Reference.pos_relabel, Reference.pos_relabel]
    exact .place ref.pos
  have noMethod : Mirrors ρ ρ' relabelTypes ValueType.relabel
      (faulty (.notMethod (d.relabel ρ).name) (ref.relabel ρ.written).pos)
      (faulty (.notMethod (d.relabel ρ').name) (ref.relabel ρ'.written).pos) := by
    rw [Decl.relabel_name, Decl.relabel_name]
    exact mirrors_faulty (.notMethod d.name) here
  cases d with
  | method home head =>
    have args_length : ∀ ρ : Relabelling, (relabelArgs ρ args).length = args.length :=
      fun ρ => List.length_map _
    have params_length : ∀ ρ : Relabelling,
        (head.relabel (ρ.labels home)).params.length = head.params.length :=
      fun ρ => List.length_map _
    have name : ∀ ρ : Relabelling, (head.relabel (ρ.labels home)).name = ρ.name head.name :=
      fun ρ => congrFun (ρ.labels_name home) head.name
    simp only [checkCall, Decl.relabel, args_length, params_length, name]
    split
    · exact mirrors_faulty (.argumentCount head.name head.params.length args.length) (.place pos)
    · have params : ∀ ρ : Relabelling,
          (head.relabel (ρ.labels home)).paramTypes (ctx.relabel ρ).bound home =
            (head.paramTypes ctx.bound home).map
              fun p => (p.1.relabel (ρ.labels home), p.2.relabel ρ) :=
        fun ρ => head.paramTypes_relabel ρ ctx.bound home
      rw [params, params]
      exact (mirrors_matchArgs home head.name args _).bind fun _ =>
        mirrors_declType ctx (.method home head)
  | cls | field | param | var => exact noMethod

mutual

theorem mirrors_checkExpr (ctx : Context) (site : Site) (e : Expr) :
    Mirrors ρ ρ' relabelTypes ValueType.relabel
      (checkExpr (ctx.relabel ρ) site (e.relabel ρ.written))
      (checkExpr (ctx.relabel ρ') site (e.relabel ρ'.written)) := by
  match e with
  | .int value pos => exact mirrors_record site (.base .int)
  | .bool value pos => exact mirrors_record site (.base .boolean)
  | .null pos => exact mirrors_record site (.base .null)
  | .unary op operand pos =>
    exact (mirrors_checkExpr ctx site.operand operand).bind fun given =>
      (mirrors_checkUnary op pos given).bind fun type => mirrors_record site type
  | .binary op left right pos =>
    exact (mirrors_checkExpr ctx site.left left).bind fun leftType =>
      (mirrors_checkExpr ctx site.right right).bind fun rightType =>
        (mirrors_checkBinary op pos leftType rightType).bind fun type => mirrors_record site type
  | .ref ref pos =>
    exact (mirrors_checkValue ctx site.target ref).bind fun type => mirrors_record site type
  | .index ref index pos =>
    refine (mirrors_checkValue ctx site.target ref).bind fun type => ?_
    refine (mirrors_checkExpr ctx site.index index).bind fun given => ?_
    -- What is no array is refused only after its index has been checked.
    have refused : Mirrors ρ ρ' relabelTypes ValueType.relabel
        (do record site (← faulty ((TypeFault.notIndexable type).relabel ρ) (ρ.place ref.pos)))
        (do record site (← faulty ((TypeFault.notIndexable type).relabel ρ') (ρ'.place ref.pos))) :=
      (mirrors_faulty _ (.place ref.pos)).bind fun type => mirrors_record site type
    simp only [ValueType.isBase_relabel, Expr.pos_relabel, Reference.pos_relabel]
    cases type with
    | array element =>
      exact mirrors_reportIf _ (.indexNotInt given) (.place index.pos) (mirrors_record site element)
    | cls name c => exact mirrors_reportIf _ (.indexNotInt given) (.place index.pos) refused
    | base type =>
      cases type with
      | error =>
        exact mirrors_reportIf _ (.indexNotInt given) (.place index.pos)
          (mirrors_record site .error)
      | int | boolean | void | null | unsupported =>
        exact mirrors_reportIf _ (.indexNotInt given) (.place index.pos) refused
  | .call method args pos =>
    exact (mirrors_declOf ctx site.target method).bind fun d =>
      (mirrors_checkArgs ctx site 0 args).bind fun types =>
        (mirrors_checkCall ctx d method pos types).bind fun type => mirrors_record site type
  | .newObject type pos =>
    have viewed : ∀ ρ : Relabelling, (type.relabel ρ.written).view (relabelBound ρ ctx.bound)
        site.type = (type.view ctx.bound site.type).relabel ρ :=
      fun ρ => type.view_relabel rfl ctx.bound site.type
    simp only [Expr.relabel, checkExpr, Context.relabel, viewed]
    exact (mirrors_record site _).bind fun _ => .pure _ rfl rfl
  | .newArray element size pos =>
    have viewed : ∀ ρ : Relabelling, ValueType.array ((element.relabel ρ.written).view
        (relabelBound ρ ctx.bound) site.type) =
          (ValueType.array (element.view ctx.bound site.type)).relabel ρ :=
      fun ρ => congrArg ValueType.array (element.view_relabel rfl ctx.bound site.type)
    refine (mirrors_checkExpr ctx site.size size).bind fun given => ?_
    simp only [ValueType.isBase_relabel, Expr.pos_relabel, Context.relabel, viewed]
    exact mirrors_reportIf _ (.sizeNotInt given) (.place size.pos)
      ((mirrors_record site _).bind fun _ => .pure _ rfl rfl)
  | .unknown kind pos => exact .fatal (.place pos) fun _ => rfl

theorem mirrors_checkArgs (ctx : Context) (call : Site) (k : Nat) (args : List Expr) :
    Mirrors ρ ρ' relabelTypes relabelArgs
      (checkArgs (ctx.relabel ρ) call k (Expr.relabelAll ρ.written args))
      (checkArgs (ctx.relabel ρ') call k (Expr.relabelAll ρ'.written args)) := by
  match args with
  | [] => exact .pure [] rfl rfl
  | e :: rest =>
    refine (mirrors_checkExpr ctx (call.arg k) e).bind fun type => ?_
    refine (mirrors_checkArgs ctx call (k + 1) rest).answers ((e.pos, type) :: ·) (fun types => ?_)
      fun types => ?_
    · rw [Expr.pos_relabel]; rfl
    · rw [Expr.pos_relabel]; rfl

end

theorem mirrors_checkCondition (ctx : Context) (site : Site) (statement : String) (cond : Expr) :
    Mirrors ρ ρ' relabelTypes unchanged
      (checkCondition (ctx.relabel ρ) site statement (cond.relabel ρ.written))
      (checkCondition (ctx.relabel ρ') site statement (cond.relabel ρ'.written)) := by
  refine (mirrors_checkExpr ctx site cond).bind fun given => ?_
  simp only [ValueType.isBase_relabel, Expr.pos_relabel]
  cases given.isBase .boolean with
  | true => exact .done
  | false => exact mirrors_reportType (.condition statement given) (.place cond.pos)

theorem mirrors_checkReturn (ctx : Context) (site : Site) (pos : Nat) (value : Option Expr) :
    Mirrors ρ ρ' relabelTypes unchanged
      (checkReturn (ctx.relabel ρ) site (ρ.place pos) (value.map (·.relabel ρ.written)))
      (checkReturn (ctx.relabel ρ') site (ρ'.place pos) (value.map (·.relabel ρ'.written))) := by
  have method : ∀ ρ : Relabelling, (ctx.relabel ρ).method.name = ρ.name ctx.method.name :=
    fun ρ => congrFun (ρ.labels_name ctx.home) ctx.method.name
  cases value with
  | none =>
    simp only [Option.map_none, checkReturn, Context.result_relabel, method, ne_eq,
      ValueType.relabel_eq_base]
    by_cases void : ctx.result = .base .void
    · simp only [void, not_true_eq_false, if_false]
      exact .done
    · simp only [void, not_false_eq_true, if_true]
      exact mirrors_reportType (.missingValue ctx.method.name ctx.result) (.place pos)
  | some value =>
    refine (mirrors_checkExpr ctx site.value value).bind fun given => ?_
    simp only [Context.result_relabel, method, ValueType.relabel_eq_base,
      ValueType.compatible_relabel, Expr.pos_relabel]
    split
    · exact mirrors_reportType (.valueFromVoid ctx.method.name) (.place value.pos)
    · cases ctx.result.compatible given with
      | true => exact .done
      | false => exact mirrors_reportType (.wrongReturn given ctx.result) (.place value.pos)

theorem mirrors_finish (site : Site) :
    Mirrors ρ ρ' relabelTypes unchanged (finish site) (finish site) :=
  (mirrors_record site (.base .unsupported)).bind fun _ => .done

mutual

theorem mirrors_checkStmt (ctx : Context) (site : Site) (s : Stmt) :
    Mirrors ρ ρ' relabelTypes unchanged
      (checkStmt (ctx.relabel ρ) site (s.relabel ρ.written))
      (checkStmt (ctx.relabel ρ') site (s.relabel ρ'.written)) := by
  match s with
  | .block stmts pos =>
    exact (mirrors_checkStmts ctx site 0 stmts).bind fun _ => mirrors_finish site
  | .declare var init pos =>
    refine (mirrors_checkExpr ctx site.init init).bind fun given => ?_
    have viewed : ∀ ρ : Relabelling, (var.relabel ρ.written).type.view (ctx.relabel ρ).bound
        site.var.type = (var.type.view ctx.bound site.var.type).relabel ρ :=
      fun ρ => var.type.view_relabel rfl ctx.bound site.var.type
    simp only [viewed, ValueType.compatible_relabel, Expr.pos_relabel]
    exact mirrors_reportIf _ (.cannotInitialize var.name _ given) (.place init.pos)
      (mirrors_finish site)
  | .assign target value pos =>
    refine (mirrors_checkTarget ctx site.target target).bind fun expected => ?_
    refine (mirrors_checkExpr ctx site.value value).bind fun given => ?_
    simp only [ValueType.compatible_relabel, Expr.pos_relabel]
    exact mirrors_reportIf _ (.cannotAssign given expected) (.place value.pos) (mirrors_finish site)
  | .assignIndex target index value pos =>
    refine (mirrors_checkTarget ctx site.target target).bind fun type => ?_
    refine (mirrors_checkExpr ctx site.index index).bind fun indexType => ?_
    refine (mirrors_checkExpr ctx site.value value).bind fun given => ?_
    have refused : Mirrors ρ ρ' relabelTypes unchanged
        (do reportType ((TypeFault.notIndexable type).relabel ρ) (ρ.place target.pos); finish site)
        (do reportType ((TypeFault.notIndexable type).relabel ρ') (ρ'.place target.pos)
            finish site) :=
      (mirrors_reportType _ (.place target.pos)).bind fun _ => mirrors_finish site
    simp only [ValueType.isBase_relabel, Expr.pos_relabel, Reference.pos_relabel]
    cases type with
    | array element =>
      simp only [ValueType.relabel, ValueType.compatible_relabel]
      exact mirrors_reportIf _ (.indexNotInt indexType) (.place index.pos)
        (mirrors_reportIf _ (.cannotStore given element) (.place value.pos) (mirrors_finish site))
    | cls name c => exact mirrors_reportIf _ (.indexNotInt indexType) (.place index.pos) refused
    | base type =>
      cases type with
      | error =>
        exact mirrors_reportIf _ (.indexNotInt indexType) (.place index.pos) (mirrors_finish site)
      | int | boolean | void | null | unsupported =>
        exact mirrors_reportIf _ (.indexNotInt indexType) (.place index.pos) refused
  | .call method args pos =>
    exact (mirrors_declOf ctx site.target method).bind fun d =>
      (mirrors_checkArgs ctx site 0 args).bind fun types =>
        (mirrors_checkCall ctx d method pos types).bind fun _ => mirrors_finish site
  | .ret none pos =>
    exact (mirrors_checkReturn ctx site pos none).bind fun _ => mirrors_finish site
  | .ret (some value) pos =>
    exact (mirrors_checkReturn ctx site pos (some value)).bind fun _ => mirrors_finish site
  | .ifThen cond body pos =>
    exact (mirrors_checkCondition ctx site.cond "if" cond).bind fun _ =>
      (mirrors_checkStmt ctx site.thenBranch body).bind fun _ => mirrors_finish site
  | .ifElse cond body other pos =>
    exact (mirrors_checkCondition ctx site.cond "if" cond).bind fun _ =>
      (mirrors_checkStmt ctx site.thenBranch body).bind fun _ =>
        (mirrors_checkStmt ctx site.elseBranch other).bind fun _ => mirrors_finish site
  | .loop cond body pos =>
    exact (mirrors_checkCondition ctx site.cond "while" cond).bind fun _ =>
      (mirrors_checkStmt ctx site.thenBranch body).bind fun _ => mirrors_finish site
  | .unknown kind pos => exact .fatal (.place pos) fun _ => rfl

theorem mirrors_checkStmts (ctx : Context) (block : Site) (k : Nat) (stmts : List Stmt) :
    Mirrors ρ ρ' relabelTypes unchanged
      (checkStmts (ctx.relabel ρ) block k (Stmt.relabelAll ρ.written stmts))
      (checkStmts (ctx.relabel ρ') block k (Stmt.relabelAll ρ'.written stmts)) := by
  match stmts with
  | [] => exact .done
  | s :: rest =>
    exact (mirrors_checkStmt ctx (block.stmt k) s).bind fun _ =>
      mirrors_checkStmts ctx block (k + 1) rest

end

theorem mirrors_checkBody (ctx : Context) (method : Site) (k : Nat) (stmts : List Stmt) :
    Mirrors ρ ρ' relabelTypes unchanged
      (checkBody (ctx.relabel ρ) method k (Stmt.relabelAll ρ.written stmts))
      (checkBody (ctx.relabel ρ') method k (Stmt.relabelAll ρ'.written stmts)) := by
  induction stmts generalizing k with
  | nil => exact .done
  | cons s rest ih =>
    exact (mirrors_checkStmt ctx (method.body k) s).bind fun _ => ih (k + 1)

theorem mirrors_checkMethod (bound : Site → Option Decl) (site : Site) (m : MethodDecl) :
    Mirrors ρ ρ' relabelTypes unchanged
      (checkMethod (relabelBound ρ bound) site (m.relabel ρ.written))
      (checkMethod (relabelBound ρ' bound) site (m.relabel ρ'.written)) :=
  mirrors_checkBody { bound := bound, home := .user site, method := m.head } site 0 m.body

/-- Typing finds the same faults in a program, whichever way it is relabelled. -/
theorem mirrors_check (bound : Site → Option Decl) (p : Program) :
    Mirrors ρ ρ' relabelTypes unchanged (check (relabelBound ρ bound) (p.relabel ρ.written))
      (check (relabelBound ρ' bound) (p.relabel ρ'.written)) := by
  rw [check, check, Program.sitedMethods_relabel, Program.sitedMethods_relabel]
  exact .forM _ _ p.sitedMethods fun m _ => mirrors_checkMethod bound m.1 m.2

end Typing

end JamCompiler
