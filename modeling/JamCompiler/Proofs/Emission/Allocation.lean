import JamCompiler.Proofs.Emission.Control
import JamCompiler.Proofs.Emission.Pieces

/-!
# Operands of code

What the code of any program that has some says about the static segment and about new objects,
whether the program was checked or not. An item reads or writes the static segment only where a
field lives, and the primitive that makes objects stands only at the end of the code of an instance.
-/

namespace JamCompiler

open Machine

namespace Emission

/-- Whether an item uses the static segment only below a size, and makes no object. -/
def Item.Inside (size : Nat) : Item → Prop
  | .instr i => (i.r = .sb → 0 ≤ i.d ∧ i.d < size) ∧ i ≠ .prim .newobj
  | .call .. => True

/-- Whether the items of a tree lie inside, apart from the code of instances. -/
def Tree.Inside (env : Env) (size : Nat) : Tree → Prop
  | straight items => ∀ item ∈ items, Item.Inside size item
  | seq first second => first.Inside env size ∧ second.Inside env size
  | shortCut _ first second p => first.Inside env size ∧ second.Inside env size ∧ p ≠ .newobj
  | ifThen test body | loop test body => test.Inside env size ∧ body.Inside env size
  | ifElse test body other =>
    test.Inside env size ∧ body.Inside env size ∧ other.Inside env size
  | marked (.value site (.newObject type pos)) code =>
    ∃ items, emitNew env site.type type pos = .ok items ∧ code = .straight items
  | marked _ code => code.Inside env size

section Items

variable {size : Nat}

theorem inside_of_ne {i : Instruction} (r : i.r ≠ .sb) (p : i ≠ .prim .newobj) :
    Item.Inside size (.instr i) :=
  ⟨fun same => absurd same r, p⟩

theorem inside_prim {p : Primitive} (h : p ≠ .newobj) : Item.Inside size (prim p) := by
  refine inside_of_ne nofun fun same => h ?_
  have number : Primitive.ofNumber? p.number = Primitive.ofNumber? Primitive.newobj.number :=
    congrArg (fun i => Primitive.ofNumber? i.d) same
  rw [Primitive.ofNumber?_number, Primitive.ofNumber?_number] at number
  exact Option.some.inj number

/-- A location gives an item that lies inside if those of static fields are below the size. -/
theorem inside_at {op : Opcode} {r : Register} {k : Int} (other : op ≠ .call)
    (bound : r = .sb → 0 ≤ k ∧ k < size) : Item.Inside size (.instr { op := op, r := r, d := k }) :=
  ⟨bound, fun same => other (congrArg Instruction.op same)⟩

end Items

/-- Whether the static fields live below a size. -/
def Env.Bounded (env : Env) (size : Nat) : Prop :=
  ∀ {s k}, env.located s = some (.static k) → k < size

section Trees

variable {env : Env} {size : Nat}

theorem bounded_locationOf (h : env.Bounded size) (d : Decl) :
    Only (locationOf env d) fun l => ∀ k, l = .static k → k < size := by
  refine ⟨fun {l} found k same => ?_⟩
  unfold locationOf at found
  subst same
  dsimp only at found
  split at found
  · rename_i place located
    cases found
    split at located
    · exact h located
    · cases located
  · cases found

theorem insideTree_singleton {item : Item} (h : Item.Inside size item) :
    (Tree.straight [item]).Inside env size :=
  List.forall_mem_singleton.mpr h

theorem inside_emitRef (h : env.Bounded size) (site : Site) (r : Reference) :
    Only (emitRef env site r) fun items => ∀ item ∈ items, Item.Inside size item := by
  have static {k : Nat} (below : k < size) :
      ∀ item ∈ [Item.instr { op := .load, r := .sb, d := k }],
      Item.Inside size item :=
    List.forall_mem_singleton.mpr (inside_at nofun fun _ =>
      ⟨Int.natCast_nonneg k, Int.ofNat_lt.mpr below⟩)
  have other {r : Register} {k : Int} (ne : r ≠ .sb) :
      ∀ item ∈ [Item.instr { op := .load, r := r, d := k }], Item.Inside size item :=
    List.forall_mem_singleton.mpr (inside_at nofun fun same => absurd same ne)
  induction r generalizing site with
  | this => exact .ok (List.forall_mem_singleton.mpr (inside_of_ne nofun nofun))
  | unknown => exact .error _
  | ident name pos =>
    refine (Only.any _).bind fun d _ => (bounded_locationOf h d).bind fun l below => ?_
    cases l with
    | static k => exact .ok (static (below k rfl))
    | frame | object => exact .ok (other nofun)
    | code => exact .error _
  | qualified qualifier name pos ih =>
    refine (Only.any _).bind fun d _ => ?_
    split
    · refine (ih _).bind fun array inside => .ok ?_
      exact List.forall_mem_append.mpr ⟨inside, List.forall_mem_singleton.mpr (inside_prim nofun)⟩
    · refine (bounded_locationOf h d).bind fun l below => ?_
      cases l with
      | static k => exact .ok (static (below k rfl))
      | frame => exact .ok (other nofun)
      | object k =>
        refine (ih _).bind fun object inside => .ok (List.forall_mem_append.mpr ⟨inside, ?_⟩)
        exact List.forall_mem_cons.mpr
          ⟨inside_of_ne nofun nofun, List.forall_mem_singleton.mpr (inside_prim nofun)⟩
      | code => exact .error _

theorem inside_invocationTree (h : env.Bounded size) (target : Site) (r : Reference)
    (method : Home × MethodHead) (given : Nat) {args : Tree} (inside : args.Inside env size) :
    Only (invocationTree env target r method given args) (Tree.Inside env size) := by
  have call {receiver : Bool} {d : Decl} : (Tree.straight [.call receiver d]).Inside env size :=
    insideTree_singleton trivial
  unfold invocationTree
  dsimp only
  split
  · split
    · exact .error _
    · exact .ok ⟨inside, insideTree_singleton (inside_prim nofun)⟩
  · split
    · exact .ok ⟨inside, call⟩
    · cases r with
      | qualified qualifier =>
        exact (inside_emitRef h _ qualifier).bind fun _ all => .ok ⟨inside, all, call⟩
      | this | ident | unknown =>
        exact .ok ⟨inside, List.forall_mem_singleton.mpr (inside_of_ne nofun nofun), call⟩

theorem unaryPrim?_ne {op : UnaryOp} {p : Primitive} (h : unaryPrim? op = some p) :
    p ≠ .newobj := by
  cases op <;> cases h <;> nofun

theorem binaryPrim?_ne {op : BinaryOp} {p : Primitive} (h : binaryPrim? op = some p) :
    p ≠ .newobj := by
  cases op <;> cases h <;> nofun

mutual

theorem inside_tree (h : env.Bounded size) (site : Site) (e : Expr) :
    Only (e.tree env site) (Tree.Inside env size) := by
  match e with
  | .int .. | .bool .. | .null .. =>
    exact .ok (List.forall_mem_singleton.mpr (inside_of_ne nofun nofun))
  | .unknown .. => exact .error _
  | .unary op operand pos =>
    refine Only.map (P := Tree.Inside env size) ?_ fun _ all => all
    split
    · exact .error _
    · rename_i p found
      exact (inside_tree h site.operand operand).bind fun _ all =>
        .ok ⟨all, insideTree_singleton (inside_prim (unaryPrim?_ne found))⟩
  | .binary op left right pos =>
    refine Only.map (P := Tree.Inside env size) ?_ fun _ all => all
    split
    · exact .error _
    · rename_i p found
      have other := binaryPrim?_ne found
      refine (inside_tree h site.left left).bind fun _ all =>
        (inside_tree h site.right right).bind fun _ all' => .ok ?_
      split
      · exact ⟨all, all', insideTree_singleton (inside_prim other)⟩
      · exact ⟨all, all', other⟩
  | .ref r pos =>
    exact Only.map (P := Tree.Inside env size)
      ((inside_emitRef h site.target r).bind fun _ all => .ok all) fun _ all => all
  | .index r i pos =>
    exact Only.map (P := Tree.Inside env size) ((inside_emitRef h site.target r).bind fun _ all =>
      (inside_tree h site.index i).bind fun _ all' =>
        .ok ⟨all, all', insideTree_singleton (inside_prim nofun)⟩) fun _ all => all
  | .call r args pos =>
    exact Only.map (P := Tree.Inside env size) ((Only.any _).bind fun method _ =>
      (inside_argTrees h site 0 _ args).bind fun _ all =>
        inside_invocationTree h site.target r method args.length all) fun _ all => all
  | .newObject type pos =>
    refine ⟨fun made => ?_⟩
    obtain ⟨_, inside, rfl⟩ := map_eq_ok.mp made
    obtain ⟨items, found, rest⟩ := bind_eq_ok.mp inside
    cases rest
    exact ⟨items, found, rfl⟩
  | .newArray element n pos =>
    exact Only.map (P := Tree.Inside env size) ((inside_tree h site.size n).bind fun _ all =>
      .ok ⟨all, insideTree_singleton (inside_prim nofun)⟩) fun _ all => all

theorem inside_argTrees (h : env.Bounded size) (call : Site) (k taken : Nat) (args : List Expr) :
    Only (Expr.argTrees env call k taken args) (Tree.Inside env size) := by
  match args, taken with
  | [], taken => cases taken <;> exact .ok (by simp [Tree.Inside])
  | e :: rest, 0 => exact .ok (by simp [Tree.Inside])
  | e :: rest, taken + 1 =>
    exact (inside_tree h (call.arg k) e).bind fun _ all =>
      (inside_argTrees h call (k + 1) taken rest).bind fun _ all' => .ok ⟨all, all'⟩

end

theorem inside_storeTree (h : env.Bounded size) (site : Site) (r : Reference) {value : Emitted Tree}
    (inside : Only value (Tree.Inside env size)) :
    Only (storeTree env site r value) (Tree.Inside env size) := by
  have direct (reg : Register) (k : Int) (bound : reg = .sb → 0 ≤ k ∧ k < size) : Only (do
      return Tree.seq (← value) (.straight [.instr { op := .store, r := reg, d := k }]))
      (Tree.Inside env size) :=
    inside.bind fun _ all => .ok ⟨all, insideTree_singleton (inside_at nofun bound)⟩
  refine (Only.any _).bind fun d _ => (bounded_locationOf h d).bind fun l below => ?_
  cases l with
  | static k =>
    exact direct _ _ fun _ => ⟨Int.natCast_nonneg k, Int.ofNat_lt.mpr (below k rfl)⟩
  | frame => exact direct _ _ nofun
  | code => exact .error _
  | object k =>
    cases r with
    | this | ident | unknown => exact direct _ _ nofun
    | qualified qualifier name pos =>
      refine (inside_emitRef h _ qualifier).bind fun object all =>
        inside.bind fun inner all' => .ok ?_
      exact ⟨all, insideTree_singleton (inside_of_ne nofun nofun), all',
        insideTree_singleton (inside_prim nofun)⟩

theorem inside_elementStoreTree (h : env.Bounded size) (site : Site) (target : Reference)
    (index value : Expr) :
    Only (elementStoreTree env site target index value) (Tree.Inside env size) :=
  (inside_emitRef h _ target).bind fun _ all => (inside_tree h _ index).bind fun _ all' =>
    (inside_tree h _ value).bind fun _ all'' =>
      .ok ⟨all, all', all'', insideTree_singleton (inside_prim nofun)⟩

theorem inside_callTree (h : env.Bounded size) (site : Site) (r : Reference) (args : List Expr)
    (pos : Nat) : Only (callTree env site r args pos) (Tree.Inside env size) := by
  refine (Only.any _).bind fun method _ => (inside_argTrees h site 0 _ args).bind fun given all =>
    (inside_invocationTree h site.target r method args.length all).bind fun call all' => .ok ?_
  split
  · exact all'
  · exact ⟨all', insideTree_singleton (inside_of_ne nofun nofun)⟩

mutual

/-- Statements of any program have code that lies inside. -/
theorem inside_stmtTree (h : env.Bounded size) (arity slot : Nat) (site : Site) (s : Stmt) :
    Only (s.tree env arity slot site) fun t => t.1.Inside env size := by
  have marked {x : Emitted (Tree × Nat)} (all : Only x fun t => t.1.Inside env size) :
      Only (x.map fun t => (Tree.marked (.stmt slot) t.1, t.2))
        fun t : Tree × Nat => t.1.Inside env size := all.map fun _ all => all
  have ret (words : Int) :
      (Tree.straight [.instr { op := .ret, n := words, d := arity }]).Inside env size :=
    insideTree_singleton (inside_of_ne nofun nofun)
  match s with
  | .unknown .. => exact .error _
  | .block stmts pos =>
    refine marked ((inside_stmtTrees h arity slot site.stmt 0 stmts).bind fun inner all => .ok ?_)
    dsimp only
    split
    · exact all
    · exact ⟨all, insideTree_singleton (inside_of_ne nofun nofun)⟩
  | .declare var init pos =>
    exact marked ((inside_tree h site.init init).bind fun _ all => .ok all)
  | .assign target value pos =>
    exact marked ((inside_storeTree h _ target (inside_tree h site.value value)).bind
      fun _ all => .ok all)
  | .assignIndex target index value pos =>
    exact marked ((inside_elementStoreTree h site target index value).bind fun _ all => .ok all)
  | .call r args pos => exact marked ((inside_callTree h site r args pos).bind fun _ all => .ok all)
  | .ret none pos => exact marked (.ok (ret 0))
  | .ret (some value) pos =>
    exact marked ((inside_tree h site.value value).bind fun _ all => .ok ⟨all, ret 1⟩)
  | .ifThen cond body pos =>
    exact marked ((inside_tree h site.cond cond).bind fun _ all =>
      (inside_stmtTree h arity slot site.thenBranch body).bind fun _ all' => .ok ⟨all, all'⟩)
  | .ifElse cond body other pos =>
    exact marked ((inside_tree h site.cond cond).bind fun _ all =>
      (inside_stmtTree h arity slot site.thenBranch body).bind fun code all' =>
        (inside_stmtTree h arity (slot + code.2) site.elseBranch other).bind fun _ all'' =>
          .ok ⟨all, all', all''⟩)
  | .loop cond body pos =>
    exact marked ((inside_stmtTree h arity slot site.thenBranch body).bind fun _ all' =>
      (inside_tree h site.cond cond).bind fun _ all => .ok ⟨all, all'⟩)

theorem inside_stmtTrees (h : env.Bounded size) (arity slot : Nat) (sites : Nat → Site) (k : Nat)
    (stmts : List Stmt) :
    Only (Stmt.trees env arity slot sites k stmts) fun t => t.1.Inside env size := by
  match stmts with
  | [] => exact .ok (by simp [Tree.Inside])
  | s :: rest =>
    exact (inside_stmtTree h arity slot (sites k) s).bind fun first all =>
      (inside_stmtTrees h arity (slot + first.2) sites (k + 1) rest).bind fun _ all' =>
        .ok ⟨all, all'⟩

end

theorem inside_methodTree (h : env.Bounded size) (site : Site) (m : MethodDecl) :
    Only (m.tree env site) (Tree.Inside env size) :=
  (inside_stmtTrees h _ _ _ 0 m.body).map fun _ all => all

end Trees

/-- The code of an instance: the number of its class, its size, and the primitive that makes it. -/
theorem only_emitNew_layout {env : Env} {site : Site} {type : TypeExpr} {pos : Nat} :
    Only (emitNew env site type pos) fun items => ∃ cls name at' l,
      env.bound site.className = some (.cls ⟨.user cls, name, at'⟩) ∧ env.layout cls = some l ∧
        items = [literal l.number, literal l.size, prim .newobj] := by
  unfold emitNew
  dsimp only
  split
  · rename_i l found
    split at found
    · rename_i cls name at' bound
      exact .ok ⟨cls, name, at', l, bound, found, rfl⟩
    · cases found
  · exact .error _

/-- Marked code is that of an instance or lies inside. -/
theorem Tree.Inside.mark {env : Env} {size : Nat} {mark : Mark} {code : Tree}
    (h : (Tree.marked mark code).Inside env size) :
    (∃ site type pos, mark = .value site (.newObject type pos)) ∨ code.Inside env size := by
  cases mark with
  | value site e =>
    cases e with
    | newObject type pos => exact .inl ⟨site, type, pos, rfl⟩
    | _ => exact .inr h
  | _ => exact .inr h

/-- The pieces of a tree that are code of instances. -/
theorem Tree.Inside.instance {env : Env} {size : Nat} {t : Tree} (h : t.Inside env size)
    {base a : Nat} {site : Site} {type : TypeExpr} {pos : Nat} {u : Tree}
    (piece : (a, .value site (.newObject type pos), u) ∈ t.pieces base) :
    ∃ items, emitNew env site.type type pos = .ok items ∧ u = .straight items := by
  induction t generalizing base with
  | straight items => cases piece
  | seq first second ih ih' | ifThen test body ih ih' =>
    rcases List.mem_append.mp piece with piece | piece
    · exact ih h.1 piece
    · exact ih' h.2 piece
  | shortCut decides first second p ih ih' =>
    rcases List.mem_append.mp piece with piece | piece
    · exact ih h.1 piece
    · exact ih' h.2.1 piece
  | ifElse test body other ih ih' ih'' =>
    rcases List.mem_append.mp piece with piece | piece
    · rcases List.mem_append.mp piece with piece | piece
      · exact ih h.1 piece
      · exact ih' h.2.1 piece
    · exact ih'' h.2.2 piece
  | loop test body ih ih' =>
    rcases List.mem_append.mp piece with piece | piece
    · exact ih' h.2 piece
    · exact ih h.1 piece
  | marked mark code ih =>
    rcases List.mem_cons.mp piece with here | later
    · cases here
      exact h
    · rcases h.mark with ⟨site', type', pos', rfl⟩ | inside
      · obtain ⟨items, -, rfl⟩ := h
        exact absurd later List.not_mem_nil
      · exact ih inside later

/-- An item of a tree lies inside or is one of the code of an instance. -/
theorem Tree.Inside.at {env : Env} {size : Nat} {t : Tree} (h : t.Inside env size) {base a : Nat}
    {item : Item} (here : At (t.code base) base a item) : Item.Inside size item ∨
      ∃ b site type pos u, (b, .value site (.newObject type pos), u) ∈ t.pieces base ∧
        At (u.code b) b a item := by
  -- A piece of a part is a piece of the whole.
  have widen {l l' : List (Nat × Mark × Tree)} (sub : l ⊆ l')
      (inner : Item.Inside size item ∨ ∃ b site type pos u,
        (b, .value site (.newObject type pos), u) ∈ l ∧ At (u.code b) b a item) :
      Item.Inside size item ∨ ∃ b site type pos u,
        (b, .value site (.newObject type pos), u) ∈ l' ∧ At (u.code b) b a item :=
    inner.imp_right fun ⟨b, site, type, pos, u, mem, found⟩ =>
      ⟨b, site, type, pos, u, sub mem, found⟩
  induction t generalizing base with
  | straight items => exact .inl (h item (List.mem_of_getElem? here.2))
  | seq first second ih ih' =>
    rcases Tree.at_seq.mp here with here | here
    · exact widen (List.subset_append_left _ _) (ih h.1 here)
    · exact widen (List.subset_append_right _ _) (ih' h.2 here)
  | shortCut decides first second p ih ih' =>
    rcases Tree.at_shortCut.mp here with here | ⟨-, rfl⟩ | ⟨-, rfl⟩ | here | ⟨-, rfl⟩
    · exact widen (List.subset_append_left _ _) (ih h.1 here)
    · exact .inl (inside_of_ne nofun nofun)
    · exact .inl (inside_of_ne nofun nofun)
    · exact widen (List.subset_append_right _ _) (ih' h.2.1 here)
    · exact .inl (inside_prim h.2.2)
  | ifThen test body ih ih' =>
    rcases Tree.at_ifThen.mp here with here | ⟨-, rfl⟩ | here | ⟨-, rfl⟩
    · exact widen (List.subset_append_left _ _) (ih h.1 here)
    · exact .inl (inside_of_ne nofun nofun)
    · exact widen (List.subset_append_right _ _) (ih' h.2 here)
    · exact .inl (inside_of_ne nofun nofun)
  | ifElse test body other ih ih' ih'' =>
    rcases Tree.at_ifElse.mp here with here | ⟨-, rfl⟩ | here | ⟨-, rfl⟩ | here
    · exact widen (List.subset_append_of_subset_left _ (List.subset_append_left _ _)) (ih h.1 here)
    · exact .inl (inside_of_ne nofun nofun)
    · exact widen (List.subset_append_of_subset_left _ (List.subset_append_right _ _))
        (ih' h.2.1 here)
    · exact .inl (inside_of_ne nofun nofun)
    · exact widen (List.subset_append_right _ _) (ih'' h.2.2 here)
  | loop test body ih ih' =>
    rcases Tree.at_loop.mp here with ⟨-, rfl⟩ | here | here | ⟨-, rfl⟩
    · exact .inl (inside_of_ne nofun nofun)
    · exact widen (List.subset_append_left _ _) (ih' h.2 here)
    · exact widen (List.subset_append_right _ _) (ih h.1 here)
    · exact .inl (inside_of_ne nofun nofun)
  | marked mark code ih =>
    rcases h.mark with ⟨site, type, pos, rfl⟩ | inside
    · exact .inr ⟨base, site, type, pos, code, List.mem_cons_self, here⟩
    · exact widen (List.subset_cons_self _ _) (ih inside here)

end Emission

end JamCompiler
