import JamCompiler.Proofs.Emission.Trees
import JamCompiler.Proofs.Naming.Use
import JamCompiler.Proofs.Typing.Types

/-!
# The items of code

Which items stand in code. Apart from what their form asks for, the trees of expressions have only
items after which control goes on, and those of statements returns besides; a well-typed statement
returns as many words as its method has results.
-/

namespace JamCompiler

open Machine

/-- Whether the methods that the references at a use are bound to have a property. -/
def Use.Calls (bound : Site → Option Decl) (Q : Home → MethodHead → Prop) (u : Use) : Prop :=
  ∀ l ∈ u.references, ∀ home head, bound l.1 = some (.method home head) → Q home head

theorem Use.Calls.callee {bound : Site → Option Decl} {Q : Home → MethodHead → Prop}
    {ctx : Resolving.Context} {locals : Scope} {site : Site} {r : Reference}
    (h : (Use.callee ctx locals site r).Calls bound Q) {home : Home} {head : MethodHead}
    (found : bound site = some (.method home head)) : Q home head :=
  h (site, r) (List.mem_singleton_self _) home head found

namespace Emission

/-- Whatever is made has a property. -/
structure Only {α : Type} (x : Emitted α) (P : α → Prop) : Prop where
  holds : ∀ {a}, x = .ok a → P a

namespace Only

variable {α β : Type} {x : Emitted α} {P : α → Prop} {Q : β → Prop}

theorem ok {a : α} (h : P a) : Only (.ok a) P := by
  refine ⟨fun made => ?_⟩
  cases made
  exact h

theorem error (e : Failure) : Only (.error e) P := ⟨nofun⟩

theorem bind {f : α → Emitted β} (h : Only x P) (next : ∀ a, P a → Only (f a) Q) :
    Only (x >>= f) Q := by
  refine ⟨fun made => ?_⟩
  obtain ⟨a, first, rest⟩ := bind_eq_ok.mp made
  exact (next a (h.holds first)).holds rest

theorem map {f : α → β} (h : Only x P) (next : ∀ a, P a → Q (f a)) : Only (x.map f) Q := by
  refine ⟨fun made => ?_⟩
  obtain ⟨a, first, rfl⟩ := map_eq_ok.mp made
  exact next a (h.holds first)

theorem any (x : Emitted α) : Only x fun _ => True := ⟨fun _ => trivial⟩

end Only

/-- The items that the code of values consists of, apart from what the forms of trees ask for. A
call is one of a method with code of its own, and has a receiver exactly if the method is not
static. -/
inductive Simple (Q : Home → MethodHead → Prop) : Item → Prop
  | prim (p : Primitive) : Simple Q (prim p)
  | literal (value : Int) : Simple Q (literal value)
  | load (r : Register) (k : Int) : Simple Q (.instr { op := .load, r := r, d := k })
  | self : Simple Q self
  | call {home : Home} {head : MethodHead} (known : Q home head)
      (h : Decl.method home head ≠ Predefined.println) :
      Simple Q (.call (!head.isStatic) (.method home head))

namespace Tree

/-- Whether an item is one that a form asks for. -/
inductive Formal : Item → Prop
  | copy : Formal (.instr { op := .load, r := .st, d := -1 })
  | jump (target : Nat) : Formal (jump target)
  | jumpIf (value : Bool) (target : Nat) : Formal (jumpIf value target)
  | prim (p : Primitive) : Formal (prim p)

/-- The items of the code of a tree are those of the tree and those of its forms. -/
theorem All.code {P : Item → Prop} {t : Tree} (h : t.All P) (base : Nat) :
    ∀ item ∈ t.code base, P item ∨ Formal item := by
  induction t generalizing base with
  | straight items => exact fun item hi => .inl (h item hi)
  | seq first second ih ih' =>
    simp only [Tree.code, List.forall_mem_append]
    exact ⟨ih h.1 _, ih' h.2 _⟩
  | shortCut decides first second p ih ih' =>
    simp only [Tree.code, List.forall_mem_append, List.forall_mem_cons]
    exact ⟨⟨⟨ih h.1 _, .inr .copy, .inr (.jumpIf _ _), nofun⟩, ih' h.2 _⟩, .inr (.prim p), nofun⟩
  | ifThen test body ih ih' =>
    simp only [Tree.code, List.forall_mem_append, List.forall_mem_singleton]
    exact ⟨⟨⟨ih h.1 _, .inr (.jumpIf _ _)⟩, ih' h.2 _⟩, .inr (.jump _)⟩
  | ifElse test body other ih ih' ih'' =>
    simp only [Tree.code, List.forall_mem_append, List.forall_mem_singleton]
    exact ⟨⟨⟨⟨ih h.1 _, .inr (.jumpIf _ _)⟩, ih' h.2.1 _⟩, .inr (.jump _)⟩, ih'' h.2.2 _⟩
  | loop test body ih ih' =>
    simp only [Tree.code, List.forall_mem_append, List.forall_mem_singleton]
    exact ⟨⟨⟨.inr (.jump _), ih' h.2 _⟩, ih h.1 _⟩, .inr (.jumpIf _ _)⟩
  | marked mark code ih => exact ih h base

end Tree

section Values

variable {env : Env} {Q : Home → MethodHead → Prop}

/-- A list of simple items. -/
abbrev AllSimple (Q : Home → MethodHead → Prop) (items : Code) : Prop :=
  ∀ item ∈ items, Simple Q item

theorem allSimple_singleton {item : Item} (h : Simple Q item) : AllSimple Q [item] :=
  List.forall_mem_singleton.mpr h

theorem only_emitRef (site : Site) (r : Reference) : Only (emitRef env site r) (AllSimple Q) := by
  induction r generalizing site with
  | this => exact .ok (allSimple_singleton .self)
  | unknown => exact .error _
  | ident name pos =>
    refine (Only.any _).bind fun d _ => (Only.any _).bind fun l _ => ?_
    cases l with
    | static | frame | object => exact .ok (allSimple_singleton (.load _ _))
    | code => exact .error _
  | qualified qualifier name pos ih =>
    refine (Only.any _).bind fun d _ => ?_
    split
    · refine (ih _).bind fun array all => .ok ?_
      exact List.forall_mem_append.mpr ⟨all, List.forall_mem_singleton.mpr (.prim _)⟩
    · refine (Only.any _).bind fun l _ => ?_
      cases l with
      | static | frame => exact .ok (allSimple_singleton (.load _ _))
      | object k =>
        refine (ih _).bind fun object all => .ok ?_
        exact List.forall_mem_append.mpr ⟨all, List.forall_mem_cons.mpr
          ⟨.literal _, List.forall_mem_singleton.mpr (.prim _)⟩⟩
      | code => exact .error _

theorem only_emitNew (site : Site) (type : TypeExpr) (pos : Nat) :
    Only (emitNew env site type pos) (AllSimple Q) := by
  unfold emitNew
  dsimp only
  split
  · exact .ok (List.forall_mem_cons.mpr ⟨.literal _, List.forall_mem_cons.mpr
      ⟨.literal _, allSimple_singleton (.prim _)⟩⟩)
  · exact .error _

theorem all_singleton {item : Item} (h : Simple Q item) : (Tree.straight [item]).All (Simple Q) :=
  List.forall_mem_singleton.mpr h

theorem only_callee (target : Site) (pos : Nat) : Only (callee env target pos) fun method =>
    env.bound target = some (.method method.1 method.2) := by
  unfold callee
  split
  · rename_i home head found
    exact .ok found
  · exact .error _

theorem isPrintln_iff {method : Home × MethodHead} :
    isPrintln method ↔ Decl.method method.1 method.2 = Predefined.println := by
  simp [isPrintln]

theorem only_invocationTree (target : Site) (r : Reference) (method : Home × MethodHead)
    (given : Nat) {args : Tree} (known : Q method.1 method.2) (h : args.All (Simple Q)) :
    Only (invocationTree env target r method given args) (Tree.All (Simple Q)) := by
  unfold invocationTree
  dsimp only
  split
  · split
    · exact .error _
    · exact .ok ⟨h, all_singleton (.prim _)⟩
  · rename_i own
    have call : Simple Q (.call (!method.2.isStatic) (.method method.1 method.2)) :=
      .call known fun println => own (isPrintln_iff.mpr println)
    change Only (if method.2.isStatic = true then _ else _) _
    split
    · rename_i static
      rw [static] at call
      exact .ok ⟨h, all_singleton call⟩
    · rename_i instanceMethod
      rw [Bool.eq_false_iff.mpr instanceMethod] at call
      cases r with
      | qualified qualifier =>
        exact (only_emitRef _ qualifier).bind fun _ all => .ok ⟨h, all, all_singleton call⟩
      | this | ident | unknown =>
        exact .ok ⟨h, allSimple_singleton .self, all_singleton call⟩

mutual

/-- The items of the tree of an expression are simple. -/
theorem only_tree {names : Resolving.Context} {locals : Scope} (site : Site) (e : Expr)
    (calls : ∀ u ∈ e.uses names locals site, u.Calls env.bound Q) :
    Only (e.tree env site) (Tree.All (Simple Q)) := by
  have marked {x : Emitted Tree} (h : Only x (Tree.All (Simple Q))) :
      Only (x.map (.marked (.value site e))) (Tree.All (Simple Q)) := h.map fun _ all => all
  match e with
  | .int .. | .bool .. | .null .. => exact marked (.ok (all_singleton (.literal _)))
  | .unknown .. => exact .error _
  | .unary op operand pos =>
    refine marked ?_
    split
    · exact .error _
    · exact (only_tree site.operand operand calls).bind fun _ all =>
        .ok ⟨all, all_singleton (.prim _)⟩
  | .binary op left right pos =>
    refine marked ?_
    split
    · exact .error _
    · have ⟨inLeft, inRight⟩ := List.forall_mem_append.mp calls
      refine (only_tree site.left left inLeft).bind fun _ all =>
        (only_tree site.right right inRight).bind fun _ all' => .ok ?_
      split
      · exact ⟨all, all', all_singleton (.prim _)⟩
      · exact ⟨all, all'⟩
  | .ref r pos => exact marked ((only_emitRef site.target r).bind fun _ all => .ok all)
  | .index r i pos =>
    have ⟨_, inIndex⟩ := List.forall_mem_cons.mp calls
    exact marked ((only_emitRef site.target r).bind fun _ all =>
      (only_tree site.index i inIndex).bind fun _ all' => .ok ⟨all, all', all_singleton (.prim _)⟩)
  | .call r args pos =>
    have ⟨here, inArgs⟩ := List.forall_mem_cons.mp calls
    exact marked ((only_callee site.target pos).bind fun method found =>
      (only_argTrees site 0 _ args inArgs).bind fun _ all =>
        only_invocationTree site.target r method args.length (here.callee found) all)
  | .newObject type pos =>
    exact marked ((only_emitNew site.type type pos).bind fun _ all => .ok all)
  | .newArray element size pos =>
    have ⟨_, inSize⟩ := List.forall_mem_cons.mp calls
    exact marked ((only_tree site.size size inSize).bind fun _ all =>
      .ok ⟨all, all_singleton (.prim _)⟩)

theorem only_argTrees {names : Resolving.Context} {locals : Scope} (call : Site) (k taken : Nat)
    (args : List Expr) (calls : ∀ u ∈ Expr.argUses names locals call k args, u.Calls env.bound Q) :
    Only (Expr.argTrees env call k taken args) (Tree.All (Simple Q)) := by
  match args, taken with
  | [], taken => cases taken <;> exact .ok (by simp [Tree.All])
  | e :: rest, 0 => exact .ok (by simp [Tree.All])
  | e :: rest, taken + 1 =>
    have ⟨here, later⟩ := List.forall_mem_append.mp calls
    exact (only_tree (call.arg k) e here).bind fun _ all =>
      (only_argTrees call (k + 1) taken rest later).bind fun _ all' => .ok ⟨all, all'⟩

end

end Values

/-- The return of so many words from a method with so many parameters. -/
def returnOf (words : Int) (arity : Nat) : Item := .instr { op := .ret, n := words, d := arity }

/-- The items that the code of statements consists of, apart from what the forms of trees ask for,
in a method whose returns are all alike. -/
inductive Ordinary (Q : Home → MethodHead → Prop) (words : Int) (arity : Nat) : Item → Prop
  | simple {item : Item} (h : Simple Q item) : Ordinary Q words arity item
  | store (r : Register) (k : Int) :
    Ordinary Q words arity (.instr { op := .store, r := r, d := k })
  | pop (k : Nat) : Ordinary Q words arity (pop k)
  | ret : Ordinary Q words arity (returnOf words arity)

end Emission

/-- A written type stands for no values exactly if it is written so. -/
theorem TypeExpr.viewAt_eq_void (bound : Site → Option Decl) (home : Home) (type : TypeExpr) :
    type.viewAt bound home = .base .void ↔ type.isVoid := by
  cases type with
  | base b pos => cases home <;> cases b <;> simp [viewAt, predefinedView, view, isVoid]
  | named | array | unknown => cases home <;> simp [viewAt, predefinedView, view, isVoid]

/-- How many words a method with a result type returns. -/
def TypeExpr.words (result : TypeExpr) : Int := if result.isVoid then 0 else 1

namespace Emission

section Statements

variable {env : Env} (ctx : Typing.Context) {arity : Nat} {Q : Home → MethodHead → Prop}

theorem all_store (words : Int) (r : Register) (k : Int) :
    (Tree.straight [.instr { op := .store, r := r, d := k }]).All (Ordinary Q words arity) :=
  List.forall_mem_singleton.mpr (.store r k)

theorem all_pop (words : Int) (k : Nat) : (Tree.straight [pop k]).All (Ordinary Q words arity) :=
  List.forall_mem_singleton.mpr (.pop k)

theorem only_storeTree (words : Int) (site : Site) (r : Reference) {value : Emitted Tree}
    (h : Only value (Tree.All (Simple Q))) :
    Only (storeTree env site r value) (Tree.All (Ordinary Q words arity)) := by
  have direct (reg : Register) (k : Int) : Only (do
      return Tree.seq (← value) (.straight [.instr { op := .store, r := reg, d := k }]))
      (Tree.All (Ordinary Q words arity)) :=
    h.bind fun _ all => .ok ⟨all.imp fun _ => .simple, all_store _ _ _⟩
  refine (Only.any _).bind fun d _ => (Only.any _).bind fun l _ => ?_
  cases l with
  | static | frame => exact direct _ _
  | code => exact .error _
  | object k =>
    cases r with
    | this | ident | unknown => exact direct _ _
    | qualified qualifier name pos =>
      refine (only_emitRef (Q := Q) _ qualifier).bind fun object all =>
        h.bind fun inner all' => .ok ?_
      refine Tree.All.imp (P := Simple Q) ?_ fun _ => .simple
      exact ⟨all, all_singleton (.literal _), all', all_singleton (.prim _)⟩

theorem only_elementStoreTree {names : Resolving.Context} {locals : Scope} (site : Site)
    (target : Reference) (index value : Expr)
    (calls : ∀ u ∈ index.uses names locals site.index, u.Calls env.bound Q)
    (calls' : ∀ u ∈ value.uses names locals site.value, u.Calls env.bound Q) :
    Only (elementStoreTree env site target index value) (Tree.All (Simple Q)) :=
  (only_emitRef _ target).bind fun _ all => (only_tree _ index calls).bind fun _ all' =>
    (only_tree _ value calls').bind fun _ all'' => .ok ⟨all, all', all'', all_singleton (.prim _)⟩

theorem only_callTree {names : Resolving.Context} {locals : Scope} (words : Int) (site : Site)
    (r : Reference) (args : List Expr) (pos : Nat)
    (here : (Use.callee names locals site.target r).Calls env.bound Q)
    (calls : ∀ u ∈ Expr.argUses names locals site 0 args, u.Calls env.bound Q) :
    Only (callTree env site r args pos) (Tree.All (Ordinary Q words arity)) := by
  refine (only_callee site.target pos).bind fun method found =>
    (only_argTrees site 0 _ args calls).bind fun given all => ?_
  refine (only_invocationTree site.target r method args.length (here.callee found) all).bind
    fun call all' => .ok ?_
  split
  · exact all'.imp fun _ => .simple
  · exact ⟨all'.imp fun _ => .simple, all_pop _ _⟩

mutual

/-- The returns in a well-typed statement return what the method should. -/
theorem only_stmtTree {names : Resolving.Context} {locals : Scope} (slot : Nat) (site : Site)
    (s : Stmt) (calls : ∀ u ∈ s.uses names locals site, u.Calls env.bound Q)
    (typed : s.WellTyped ctx site) :
    Only (s.tree env arity slot site)
      fun t => t.1.All (Ordinary Q ctx.method.result.words arity) := by
  have marked {x : Emitted (Tree × Nat)}
      (h : Only x fun t => t.1.All (Ordinary Q ctx.method.result.words arity)) :
      Only (x.map fun t => (Tree.marked (.stmt slot) t.1, t.2))
        fun t : Tree × Nat =>
          t.1.All (Ordinary Q ctx.method.result.words arity) := h.map fun _ all => all
  match s with
  | .unknown .. => exact .error _
  | .block stmts pos =>
    refine marked ((only_stmtTrees slot site.stmt 0 stmts calls typed).bind fun inner all => .ok ?_)
    split
    · exact all
    · exact ⟨all, all_pop _ _⟩
  | .declare var init pos =>
    have inInit := (List.forall_mem_cons.mp (List.forall_mem_cons.mp calls).2).2
    exact marked ((only_tree site.init init inInit).bind fun _ all =>
      .ok (all.imp fun _ => .simple))
  | .assign target value pos =>
    have ⟨_, inValue⟩ := List.forall_mem_cons.mp calls
    exact marked ((only_storeTree _ _ target (only_tree site.value value inValue)).bind
      fun _ all => .ok all)
  | .assignIndex target index value pos =>
    have ⟨inIndex, inValue⟩ := List.forall_mem_append.mp (List.forall_mem_cons.mp calls).2
    exact marked ((only_elementStoreTree site target index value inIndex inValue).bind fun _ all =>
      .ok (all.imp fun _ => .simple))
  | .call r args pos =>
    have ⟨here, inArgs⟩ := List.forall_mem_cons.mp calls
    exact marked ((only_callTree _ site r args pos here inArgs).bind fun _ all => .ok all)
  | .ret none pos =>
    have void := (TypeExpr.viewAt_eq_void ctx.bound ctx.home ctx.method.result).mp typed
    refine marked (.ok (List.forall_mem_singleton.mpr ?_))
    rw [TypeExpr.words, if_pos void]
    exact .ret
  | .ret (some value) pos =>
    obtain ⟨given, -, notVoid, -⟩ := typed
    have value' : ¬ ctx.method.result.isVoid := fun void =>
      notVoid ((TypeExpr.viewAt_eq_void ctx.bound ctx.home ctx.method.result).mpr void)
    refine marked ((only_tree site.value value calls).bind fun _ all =>
      .ok ⟨all.imp fun _ => .simple, ?_⟩)
    refine List.forall_mem_singleton.mpr ?_
    rw [TypeExpr.words, if_neg value']
    exact .ret
  | .ifThen cond body pos =>
    have ⟨inCond, inRest⟩ := List.forall_mem_append.mp calls
    have ⟨_, inBody⟩ := List.forall_mem_cons.mp inRest
    exact marked ((only_tree site.cond cond inCond).bind fun _ all =>
      (only_stmtTree slot site.thenBranch body inBody typed.2).bind fun _ all' =>
        .ok ⟨all.imp fun _ => .simple, all'⟩)
  | .ifElse cond body other pos =>
    have ⟨inCond, inRest⟩ := List.forall_mem_append.mp calls
    have ⟨inBody, inOther⟩ := List.forall_mem_append.mp (List.forall_mem_cons.mp inRest).2
    have ⟨_, inOther⟩ := List.forall_mem_cons.mp inOther
    exact marked ((only_tree site.cond cond inCond).bind fun _ all =>
      (only_stmtTree slot site.thenBranch body inBody typed.2.1).bind fun code all' =>
        (only_stmtTree (slot + code.2) site.elseBranch other inOther typed.2.2).bind fun _ all'' =>
          .ok ⟨all.imp fun _ => .simple, all', all''⟩)
  | .loop cond body pos =>
    have ⟨inCond, inRest⟩ := List.forall_mem_append.mp calls
    have ⟨_, inBody⟩ := List.forall_mem_cons.mp inRest
    exact marked ((only_stmtTree slot site.thenBranch body inBody typed.2).bind fun _ all' =>
      (only_tree site.cond cond inCond).bind fun _ all => .ok ⟨all.imp fun _ => .simple, all'⟩)

theorem only_stmtTrees {names : Resolving.Context} {locals : Scope} (slot : Nat)
    (sites : Nat → Site) (k : Nat) (stmts : List Stmt)
    (calls : ∀ u ∈ Stmt.usesFrom names locals sites k stmts, u.Calls env.bound Q)
    (typed : Stmt.AllWellTyped ctx sites k stmts) : Only (Stmt.trees env arity slot sites k stmts)
      fun t => t.1.All (Ordinary Q ctx.method.result.words arity) := by
  match stmts with
  | [] => exact .ok (by simp [Tree.All])
  | s :: rest =>
    have ⟨here, later⟩ := List.forall_mem_append.mp calls
    exact (only_stmtTree slot (sites k) s here typed.1).bind fun first all =>
      (only_stmtTrees (slot + first.2) sites (k + 1) rest later typed.2).bind fun _ all' =>
        .ok ⟨all, all'⟩

end

end Statements

end Emission

end JamCompiler
