import JamCompiler.Proofs.Execution.Expressions

/-!
# Running the code of statements

The machine carries out the code of a statement as the statement says: `Yields.runsTo` runs the code
of whatever comes to something, by induction on how it does, and `yields_stmt` says that something
comes of a statement whose code the machine gets through, by induction on the steps that are left.
In between, a state has to have in each variable in force what the store says; `Standing` is this
invariant.
-/

namespace JamCompiler

open Machine Machine.State Emission

/-- The variables in force: those of a scope, and others that are given. -/
def Visible (F : Decl → Prop) (scope : Scope) (d : Decl) : Prop := (∃ q ∈ scope, q.2 = d) ∨ F d

mutual

/-- What a statement consists of in a scope, where the next local gets a slot: its expressions have
values of the kinds that they should have, and its variables live in the slots from this one on. -/
def Stmt.Ready (env : Env) (F : Decl → Prop) (scope : Scope) (slot : Nat)
    (site : Site) : Stmt → Prop
  | .block stmts _ => Stmt.AllReady env F scope slot site.stmt 0 stmts
  | .declare var init _ => ∃ k : Kind, (Decl.var site.var var).type env.bound = k.type ∧
      init.Has env.bound (Visible F scope) site.init k ∧
      locationOf env (.var site.var var) = .ok (.frame slot)
  | .assign target value _ => ∃ (d : Decl) (k : Kind),
      target.variableAt? env.bound site.target = some d ∧ Visible F scope d ∧
      d.type env.bound = k.type ∧ value.Has env.bound (Visible F scope) site.value k
  | .ret none _ => True
  | .ret (some value) _ => ∃ k, value.Has env.bound (Visible F scope) site.value k
  | .ifThen cond body _ | .loop cond body _ =>
    cond.Has env.bound (Visible F scope) site.cond .bool ∧ body.isDeclaration = false ∧
      body.Ready env F scope slot site.thenBranch
  | .ifElse cond body other _ => cond.Has env.bound (Visible F scope) site.cond .bool ∧
      (body.isDeclaration = false ∧ body.Ready env F scope slot site.thenBranch) ∧
      other.isDeclaration = false ∧ other.Ready env F scope slot site.elseBranch
  | .assignIndex .. | .call .. | .unknown .. => False

/-- The statements of a list from the `k`th on, whose sites are given. -/
def Stmt.AllReady (env : Env) (F : Decl → Prop) (scope : Scope) (slot : Nat) (sites : Nat → Site)
    (k : Nat) : List Stmt → Prop
  | [] => True
  | s :: rest => s.Ready env F scope slot (sites k) ∧ Stmt.AllReady env F
      (s.localsAfter scope (sites k)) (slot + s.isDeclaration.toNat) sites (k + 1) rest

end

namespace Part

/-- The same for what is carried out. -/
def Ready (env : Env) (F : Decl → Prop) (scope : Scope) (slot : Nat) : Part → Prop
  | stmt site s => s.Ready env F scope slot site
  | stmts sites k list => Stmt.AllReady env F scope slot sites k list
  | test site cond body => cond.Has env.bound (Visible F scope) site.cond .bool ∧
      body.isDeclaration = false ∧ body.Ready env F scope slot site.thenBranch

/-- The scope after what is carried out. -/
def scopeAfter (scope : Scope) : Part → Scope
  | stmt site s => s.localsAfter scope site
  | _ => scope

/-- Where the code of what is carried out stands, from its first address to the one after it, and
how many locals it declares. A loop is entered where its condition is. -/
def Stands (env : Env) (arity : Nat) (code : List Instruction) (slot : Nat) :
    Part → Nat → Nat → Nat → Prop
  | stmt site s, entry, exit, n => ∃ t, s.tree env arity slot site = .ok (t, n) ∧
      Installed code entry (t.code entry) ∧ exit = entry + t.size
  | stmts sites k list, entry, exit, n => ∃ t, Stmt.trees env arity slot sites k list = .ok (t, n) ∧
      Installed code entry (t.code entry) ∧ exit = entry + t.size
  | test site cond body, entry, exit, n => ∃ u t base, cond.tree env site.cond = .ok u ∧
      body.tree env arity slot site.thenBranch = .ok (t, n) ∧
      Installed code base ((Tree.loop u t).code base) ∧ entry = base + 1 + t.size ∧
      exit = base + (Tree.loop u t).size

end Part

/-- A statement that is ready declares a variable only if it is a declaration. -/
theorem Stmt.Ready.declared {env : Env} {F : Decl → Prop} {scope : Scope} {slot slot' arity n : Nat}
    {site : Site} {t : Tree} {s : Stmt} (ready : s.Ready env F scope slot site)
    (made : s.tree env arity slot' site = .ok (t, n)) : n = s.isDeclaration.toNat := by
  match s with
  | .block stmts pos | .declare var init pos | .assign target value pos =>
    obtain ⟨_, inside, same⟩ := map_eq_ok.mp made
    obtain ⟨_, -, rest⟩ := bind_eq_ok.mp inside
    cases rest
    cases same
    rfl
  | .ret none pos =>
    cases made
    rfl
  | .ret (some value) pos =>
    obtain ⟨_, inside, same⟩ := map_eq_ok.mp made
    obtain ⟨_, -, rest⟩ := bind_eq_ok.mp inside
    cases rest
    cases same
    rfl
  | .ifThen cond body pos =>
    obtain ⟨_, inside, same⟩ := map_eq_ok.mp made
    obtain ⟨_, -, inside⟩ := bind_eq_ok.mp inside
    obtain ⟨code, inBody, rest⟩ := bind_eq_ok.mp inside
    cases rest
    cases same
    have none := Stmt.Ready.declared ready.2.2 inBody
    rwa [ready.2.1] at none
  | .loop cond body pos =>
    obtain ⟨_, inside, same⟩ := map_eq_ok.mp made
    obtain ⟨code, inBody, inside⟩ := bind_eq_ok.mp inside
    obtain ⟨_, -, rest⟩ := bind_eq_ok.mp inside
    cases rest
    cases same
    have none := Stmt.Ready.declared ready.2.2 inBody
    rwa [ready.2.1] at none
  | .ifElse cond body other pos =>
    obtain ⟨_, inside, same⟩ := map_eq_ok.mp made
    obtain ⟨_, -, inside⟩ := bind_eq_ok.mp inside
    obtain ⟨code, inBody, inside⟩ := bind_eq_ok.mp inside
    obtain ⟨code', inOther, rest⟩ := bind_eq_ok.mp inside
    cases rest
    cases same
    have none := Stmt.Ready.declared ready.2.1.2 inBody
    have none' := Stmt.Ready.declared ready.2.2.2 inOther
    rw [ready.2.1.1] at none
    rw [ready.2.2.1] at none'
    dsimp only
    rw [none, none']
    rfl
  | .assignIndex .. | .call .. | .unknown .. => exact ready.elim

theorem Stmt.localsAfter_of_not_declaration {s : Stmt} (h : s.isDeclaration = false) (scope : Scope)
    (site : Site) : s.localsAfter scope site = scope := by
  cases s with
  | declare => cases h
  | block | assign | assignIndex | call | ret | ifThen | ifElse | loop | unknown => rfl

section Stands

variable {env : Env} {arity slot entry exit n : Nat} {code : List Instruction}
  {site : Site} {pos : Nat}

theorem stands_block {stmts : List Stmt}
    (h : (Part.stmt site (.block stmts pos)).Stands env arity code slot entry exit n) :
    n = 0 ∧ ∃ m k, (Part.stmts site.stmt 0 stmts).Stands env arity code slot entry m k ∧
      (k = 0 ∧ m = exit ∨ code[m]? = some { op := .pop, d := k } ∧ m + 1 = exit) := by
  obtain ⟨t, made, installed, rfl⟩ := h
  obtain ⟨_, inside, same⟩ := map_eq_ok.mp made
  obtain ⟨inner, inList, rest⟩ := bind_eq_ok.mp inside
  obtain ⟨u, k⟩ := inner
  cases rest
  cases same
  refine ⟨rfl, entry + u.size, k, ?_⟩
  simp only [Tree.code, Tree.size] at installed ⊢
  split at installed
  · rename_i none
    rw [if_pos none]
    exact ⟨⟨u, inList, installed, rfl⟩, .inl ⟨none, rfl⟩⟩
  · rename_i some
    rw [if_neg some]
    obtain ⟨first, last⟩ := installed_seq.mp installed
    exact ⟨⟨u, inList, first, rfl⟩, .inr ⟨installed_singleton.mp last, Nat.add_assoc _ _ _⟩⟩

theorem stands_ifThen {cond : Expr} {body : Stmt}
    (h : (Part.stmt site (.ifThen cond body pos)).Stands env arity code slot entry exit n) :
    ∃ u m, cond.tree env site.cond = .ok u ∧ Installed code entry (u.code entry) ∧
      code[entry + u.size]? = some { op := .jumpif, n := boolWord false, r := .cb, d := exit } ∧
      (Part.stmt site.thenBranch body).Stands env arity code slot (entry + u.size + 1) m n ∧
      code[m]? = some { op := .jump, r := .cb, d := exit } := by
  obtain ⟨t, made, installed, rfl⟩ := h
  obtain ⟨_, inside, same⟩ := map_eq_ok.mp made
  obtain ⟨u, inCond, inside⟩ := bind_eq_ok.mp inside
  obtain ⟨v, inBody, rest⟩ := bind_eq_ok.mp inside
  cases rest
  cases same
  simp only [Tree.code, Tree.size, jumpIf, jump, installed_append, installed_cons, installed_nil,
    and_true, and_assoc, Tree.length_code, List.length_append, List.length_singleton,
    ← Nat.add_assoc] at installed ⊢
  obtain ⟨test, jumps, inner, last⟩ := installed
  exact ⟨u, _, inCond, test, jumps, ⟨v.1, inBody, inner, rfl⟩, last⟩

theorem stands_ifElse {cond : Expr} {body other : Stmt}
    (h : (Part.stmt site (.ifElse cond body other pos)).Stands env arity code slot entry exit n) :
    ∃ u m k k', cond.tree env site.cond = .ok u ∧ Installed code entry (u.code entry) ∧
      code[entry + u.size]? =
        some { op := .jumpif, n := boolWord false, r := .cb, d := (m + 1 : Nat) } ∧
      (Part.stmt site.thenBranch body).Stands env arity code slot (entry + u.size + 1) m k ∧
      code[m]? = some { op := .jump, r := .cb, d := exit } ∧
      (Part.stmt site.elseBranch other).Stands env arity code (slot + k) (m + 1) exit k' ∧
      n = k + k' := by
  obtain ⟨t, made, installed, rfl⟩ := h
  obtain ⟨_, inside, same⟩ := map_eq_ok.mp made
  obtain ⟨u, inCond, inside⟩ := bind_eq_ok.mp inside
  obtain ⟨v, inBody, inside⟩ := bind_eq_ok.mp inside
  obtain ⟨w, inOther, rest⟩ := bind_eq_ok.mp inside
  cases rest
  cases same
  simp only [Tree.code, Tree.size, jumpIf, jump, installed_append, installed_cons, installed_nil,
    and_true, and_assoc, Tree.length_code, List.length_append, List.length_singleton,
    ← Nat.add_assoc] at installed ⊢
  obtain ⟨test, jumps, inner, last, inner'⟩ := installed
  exact ⟨u, _, v.2, w.2, inCond, test, jumps, ⟨v.1, inBody, inner, rfl⟩, last,
    ⟨w.1, inOther, inner', rfl⟩, rfl⟩

theorem stands_loop {cond : Expr} {body : Stmt}
    (h : (Part.stmt site (.loop cond body pos)).Stands env arity code slot entry exit n) :
    ∃ m : Nat, code[entry]? = some { op := .jump, r := .cb, d := m } ∧
      (Part.test site cond body).Stands env arity code slot m exit n := by
  obtain ⟨t, made, installed, rfl⟩ := h
  obtain ⟨_, inside, same⟩ := map_eq_ok.mp made
  obtain ⟨v, inBody, inside⟩ := bind_eq_ok.mp inside
  obtain ⟨u, inCond, rest⟩ := bind_eq_ok.mp inside
  cases rest
  cases same
  have first := installed
  simp only [Tree.code, jump, List.cons_append, installed_cons] at first
  exact ⟨entry + 1 + v.1.size, first.1, u, v.1, entry, inCond, inBody, installed, rfl, rfl⟩

theorem stands_test {cond : Expr} {body : Stmt}
    (h : (Part.test site cond body).Stands env arity code slot entry exit n) :
    ∃ (u : Tree) (first : Nat), cond.tree env site.cond = .ok u ∧
      Installed code entry (u.code entry) ∧
      code[entry + u.size]? = some { op := .jumpif, n := boolWord true, r := .cb, d := first } ∧
      entry + u.size + 1 = exit ∧
      (Part.stmt site.thenBranch body).Stands env arity code slot first entry n := by
  obtain ⟨u, t, base, inCond, inBody, installed, rfl, rfl⟩ := h
  simp only [Tree.code, Tree.size, jumpIf, jump, installed_append, installed_cons, installed_nil,
    and_true, and_assoc, Tree.length_code, List.length_append, List.length_singleton,
    ← Nat.add_assoc] at installed ⊢
  obtain ⟨-, inner, test, last⟩ := installed
  exact ⟨u, base + 1, inCond, test, last, rfl, t, inBody, inner, rfl⟩

theorem stands_cons {sites : Nat → Site} {k : Nat} {s : Stmt} {rest : List Stmt}
    (h : (Part.stmts sites k (s :: rest)).Stands env arity code slot entry exit n) :
    ∃ m i j, (Part.stmt (sites k) s).Stands env arity code slot entry m i ∧
      (Part.stmts sites (k + 1) rest).Stands env arity code (slot + i) m exit j ∧ n = i + j := by
  obtain ⟨t, made, installed, rfl⟩ := h
  obtain ⟨u, first, made⟩ := bind_eq_ok.mp made
  obtain ⟨v, later, rest⟩ := bind_eq_ok.mp made
  cases rest
  obtain ⟨here, there⟩ := installed_seq.mp installed
  exact ⟨_, u.2, v.2, ⟨u.1, first, here, rfl⟩, ⟨v.1, later, there, Nat.add_assoc _ _ _ ▸ rfl⟩, rfl⟩

theorem stands_declare {var : VarDecl} {init : Expr}
    (h : (Part.stmt site (.declare var init pos)).Stands env arity code slot entry exit n) :
    ∃ u, init.tree env site.init = .ok u ∧ Installed code entry (u.code entry) ∧
      exit = entry + u.size ∧ n = 1 := by
  obtain ⟨t, made, installed, rfl⟩ := h
  obtain ⟨_, inside, same⟩ := map_eq_ok.mp made
  obtain ⟨u, inInit, rest⟩ := bind_eq_ok.mp inside
  cases rest
  cases same
  exact ⟨u, inInit, installed, rfl, rfl⟩

theorem stands_assign {target : Reference} {value : Expr}
    (h : (Part.stmt site (.assign target value pos)).Stands env arity code slot entry exit n) :
    ∃ u, storeTree env site.target target (value.tree env site.value) = .ok u ∧
      Installed code entry (u.code entry) ∧ exit = entry + u.size ∧ n = 0 := by
  obtain ⟨t, made, installed, rfl⟩ := h
  obtain ⟨_, inside, same⟩ := map_eq_ok.mp made
  obtain ⟨u, stores, rest⟩ := bind_eq_ok.mp inside
  cases rest
  cases same
  exact ⟨u, stores, installed, rfl, rfl⟩

theorem stands_ret (h : (Part.stmt site (.ret none pos)).Stands env arity code slot entry exit n) :
    code[entry]? = some { op := .ret, n := 0, d := arity } := by
  obtain ⟨t, made, installed, -⟩ := h
  cases made
  exact installed_singleton.mp installed

theorem stands_retValue {value : Expr}
    (h : (Part.stmt site (.ret (some value) pos)).Stands env arity code slot entry exit n) :
    ∃ u, value.tree env site.value = .ok u ∧ Installed code entry (u.code entry) ∧
      code[entry + u.size]? = some { op := .ret, n := 1, d := arity } := by
  obtain ⟨t, made, installed, -⟩ := h
  obtain ⟨_, inside, same⟩ := map_eq_ok.mp made
  obtain ⟨u, inValue, rest⟩ := bind_eq_ok.mp inside
  cases rest
  cases same
  obtain ⟨first, last⟩ := installed_seq.mp installed
  exact ⟨u, inValue, first, installed_singleton.mp last⟩

/-- A branch leaves no variable. -/
theorem stands_branch {F : Decl → Prop} {scope : Scope} {s : Stmt}
    (h : (Part.stmt site s).Stands env arity code slot entry exit n)
    (none : s.isDeclaration = false) (ready : s.Ready env F scope slot site) : n = 0 := by
  obtain ⟨t, made, -⟩ := h
  rw [ready.declared made, none]
  rfl

end Stands

theorem Kind.type_inj {k k' : Kind} (h : k.type = k'.type) : k = k' := by
  cases k <;> cases k' <;> first | rfl | cases h

theorem Value.HasKind.ofType {v : Value} {k : Kind} (h : v.HasKind k) : v.OfType k.type :=
  fun _ same => Kind.type_inj same ▸ h

section Storing

variable {s s' : State} {l l' : Location} {q : Register × Int} {w x : Int}

/-- A location with a word can be stored to. -/
theorem exists_store (address : l.address? = some q) (word : s.wordAt? l = some x) (w : Int) :
    ∃ s', s.store? q.1 q.2 w = some s' ∧ s'.pc = s.pc ∧ s'.stack.length = s.stack.length := by
  cases l with
  | code => cases address
  | static | object =>
    cases address
    exact ⟨_, rfl, rfl, rfl⟩
  | frame k =>
    cases address
    obtain ⟨le, word⟩ := wordAt?_frame_eq_some_iff.mp word
    obtain ⟨stack, put⟩ := exists_putWord (lt_of_word word) w
    simp only [store?, if_pos le, put, Option.map_some]
    exact ⟨_, rfl, rfl, length_putWord put⟩

/-- What a location holds after a word was stored. -/
theorem wordAt_store (address : l.address? = some q) (stored : s.store? q.1 q.2 w = some s') :
    s'.wordAt? l = some w ∧ ∀ l', l' ≠ l → s'.wordAt? l' = s.wordAt? l' := by
  cases l with
  | code => cases address
  | static k =>
    cases address
    cases stored
    refine ⟨by simp, fun l' other => ?_⟩
    cases l' with
    | object | frame | code => rfl
    | static k' =>
      have different : (k' : Int) ≠ k := fun same => other (by rw [Int.ofNat_inj.mp same])
      simp [Function.update_of_ne different]
  | object k =>
    cases address
    cases stored
    refine ⟨by simp, fun l' other => ?_⟩
    cases l' with
    | static | frame | code => rfl
    | object k' =>
      have different : s.object + (k' : Int) ≠ s.object + k :=
        fun same => other (by rw [Int.ofNat_inj.mp (Int.add_left_cancel same)])
      simp [Function.update_of_ne different]
  | frame k =>
    cases address
    simp only [store?] at stored
    split at stored
    · rename_i le
      obtain ⟨stack, put, rfl⟩ := Option.map_eq_some_iff.mp stored
      refine ⟨by simp [wordAt?_frame, le, word_putWord put], fun l' other => ?_⟩
      cases l' with
      | static | object | code => rfl
      | frame k' =>
        have different : k' ≠ k := fun same => other (by rw [same])
        simp only [wordAt?_frame]
        split
        · rw [word_putWord put, if_neg (by omega)]
        · rfl
    · cases stored

end Storing

/-- Where the variables of some kind live, as far as it matters: no two at one place, and those of
the frame between the first argument and the slot of the next local. -/
structure Frames (env : Env) (V : Decl → Prop) (arity slot : Nat) : Prop where
  bounds : ∀ d, V d → ∀ k, locationOf env d = .ok (.frame k) → -(arity : Int) ≤ k ∧ k < slot
  injective : ∀ d d' l, V d → V d' → locationOf env d = .ok l → locationOf env d' = .ok l → d = d'

/-- A state before or after a statement: at an address, with a stack up to the slot of the next
local, and with what the store says in the variables. -/
structure Standing (env : Env) (V : Decl → Prop) (arity slot : Nat) (σ : Store) (s : State)
    (entry : Nat) : Prop where
  pc : s.pc = entry
  height : s.stack.length = s.lb + slot
  below : arity ≤ s.lb
  holds : Holds env V σ s
  frames : Frames env V arity slot

section Standing

variable {env : Env} {V V' F : Decl → Prop} {arity slot slot' entry n : Nat}
  {σ : Store} {s s' : State}
variable {code : List Instruction} {e : Expr} {site : Site} {k : Kind} {t : Tree}

theorem Frames.sub (h : Frames env V arity slot) (sub : ∀ d, V' d → V d) (le : slot ≤ slot') :
    Frames env V' arity slot' where
  bounds d hd k located := by
    have within := h.bounds d (sub d hd) k located
    omega
  injective d d' l hd hd' := h.injective d d' l (sub d hd) (sub d' hd')

theorem Standing.goto (h : Standing env V arity slot σ s entry) (pc : Nat) :
    Standing env V arity slot σ { s with pc := pc } pc :=
  ⟨rfl, h.height, h.below, h.holds, h.frames⟩

/-- The code of an expression is run from a state as it should be. -/
theorem Standing.evaluates (h : Standing env V arity slot σ s entry)
    (has : e.Has env.bound V site k) (made : e.tree env site = .ok t)
    (installed : Installed code entry (t.code entry)) :
    Evaluates code s t.size k (e.eval? env.bound σ site) := by
  obtain rfl := h.pc
  exact has.evaluates h.holds made installed

/-- An expression has a value if the machine gets through its code. -/
theorem Standing.exists_eval (h : Standing env V arity slot σ s entry)
    (has : e.Has env.bound V site k) (made : e.tree env site = .ok t)
    (installed : Installed code entry (t.code entry)) (halts : Halts code n s) :
    ∃ v, e.eval? env.bound σ site = some v ∧ v.HasKind k := by
  have evaluates := h.evaluates has made installed
  cases value : e.eval? env.bound σ site with
  | none =>
    rw [value] at evaluates
    obtain ⟨s', runs, stuck⟩ := evaluates
    exact absurd halts (not_halts_of_stuck runs stuck)
  | some v =>
    rw [value] at evaluates
    exact ⟨v, rfl, evaluates.1⟩

/-- The code of a condition with the jump after it. -/
theorem Standing.branches (h : Standing env V arity slot σ s entry)
    (has : e.Has env.bound V site .bool) (made : e.tree env site = .ok t)
    (installed : Installed code entry (t.code entry)) {value b : Bool} {target : Nat}
    (jumps : code[entry + t.size]? =
      some { op := .jumpif, n := boolWord value, r := .cb, d := target })
    (test : e.eval? env.bound σ site = some (.bool b)) :
    RunsTo code s { s with pc := if b = value then target else entry + t.size + 1 } := by
  have evaluates := h.evaluates has made installed
  rw [test] at evaluates
  obtain rfl := h.pc
  exact evaluates.2.trans (.step (exec_jumpIf rfl jumps))

/-- What is visible after a declaration. -/
theorem visible_cons {scope : Scope} {q : String × Decl} {d : Decl} :
    Visible F (q :: scope) d ↔ q.2 = d ∨ Visible F scope d := by
  simp only [Visible, List.mem_cons, exists_eq_or_imp, or_assoc]

/-- A word that is pushed is a new variable, if it lives in the next slot. -/
theorem Standing.declare {scope : Scope} (h : Standing env (Visible F scope) arity slot σ s entry)
    {v : Value} {q : String × Decl} (located : locationOf env q.2 = .ok (.frame slot))
    (fits : (Location.frame slot).Fits q.2) (type : v.OfType (q.2.type env.bound)) (pc : Nat) :
    Standing env (Visible F (q :: scope)) arity (slot + 1) (Function.update σ q.2 v)
      { s with pc := pc, stack := v.word :: s.stack } pc := by
  have fresh {d : Decl} (hd : Visible F scope d) : d ≠ q.2 := by
    rintro rfl
    have within := h.frames.bounds _ hd slot located
    omega
  refine ⟨rfl, ?_, h.below,
    fun d hd => ?_, ⟨fun d hd k there => ?_, fun d d' l hd hd' there there' => ?_⟩⟩
  · simp only [List.length_cons, h.height]
    omega
  · rcases visible_cons.mp hd with rfl | hd
    · refine ⟨_, located, fits, ?_, by rw [Function.update_self]; exact type⟩
      have top : (s.lb + (slot : Int)).toNat = s.stack.length := by
        rw [h.height]
        omega
      rw [Function.update_self]
      have inside : 0 ≤ s.lb + (slot : Int) := by omega
      refine wordAt?_frame_eq_some_iff.mpr ⟨inside, ?_⟩
      rw [top, word_cons_self]
    · rw [Function.update_of_ne (fresh hd)]
      exact (h.holds.push pc v.word) d hd
  · rcases visible_cons.mp hd with rfl | hd
    · cases located.symm.trans there
      omega
    · have within := h.frames.bounds d hd k there
      omega
  · have apart {d : Decl} (hd : Visible F scope d) (there : locationOf env d = .ok l)
        (top : locationOf env q.2 = .ok l) : False := by
      cases located.symm.trans top
      have within := h.frames.bounds d hd slot there
      omega
    rcases visible_cons.mp hd with rfl | hd
    · rcases visible_cons.mp hd' with rfl | hd'
      · rfl
      · exact (apart hd' there' there).elim
    · rcases visible_cons.mp hd' with rfl | hd'
      · exact (apart hd there there').elim
      · exact h.frames.injective d d' l hd hd' there there'

/-- The machine gets on from a condition to where the condition says, and has fewer steps left. -/
theorem Standing.tests (h : Standing env V arity slot σ s entry)
    (has : e.Has env.bound V site .bool)
    (made : e.tree env site = .ok t) (installed : Installed code entry (t.code entry))
    {value : Bool} {target : Nat}
    (jumps : code[entry + t.size]? =
      some { op := .jumpif, n := boolWord value, r := .cb, d := target })
    (halts : Halts code n s) : ∃ b, e.eval? env.bound σ site = some (.bool b) ∧
      ∃ m < n, Halts code m { s with pc := if b = value then target else entry + t.size + 1 } := by
  obtain ⟨v, test, kind⟩ := h.exists_eval has made installed halts
  obtain ⟨b, rfl⟩ := exists_bool kind
  have evaluates := h.evaluates has made installed
  rw [test] at evaluates
  obtain rfl := h.pc
  obtain ⟨m, fewer, later⟩ := (halts.after evaluates.2).next (exec_jumpIf rfl jumps)
  exact ⟨b, test, m, fewer, later⟩

/-- The variables that were there before some were declared are as they were once those are
popped. -/
theorem Standing.pop {slot n : Nat} (h : Standing env V arity (slot + n) σ s entry)
    (frames : Frames env V arity slot) (pc : Nat) :
    Standing env V arity slot σ { s with pc := pc, stack := s.stack.drop n } pc := by
  refine ⟨rfl, ?_, h.below, fun d hd => ?_, frames⟩
  · simp only [List.length_drop, h.height]
    omega
  · obtain ⟨l, located, fits, word, type⟩ := h.holds d hd
    refine ⟨l, located, fits, ?_, type⟩
    cases l with
    | static | object | code => exact word
    | frame k =>
      have within := frames.bounds d hd k located
      have height := h.height
      have below := h.below
      obtain ⟨le, word⟩ := wordAt?_frame_eq_some_iff.mp word
      have kept : (s.lb + k).toNat < s.stack.length - n := by omega
      exact wordAt?_frame_eq_some_iff.mpr ⟨le, (word_drop n kept).trans word⟩

/-- A word that is stored in a variable is what it holds. -/
theorem Standing.store (h : Standing env V arity slot σ s entry) {d : Decl} {v : Value}
    {l : Location} {q : Register × Int} (known : V d) (located : locationOf env d = .ok l)
    (address : l.address? = some q) (type : v.OfType (d.type env.bound)) :
    ∃ s', s.store? q.1 q.2 v.word = some s' ∧
      Standing env V arity slot (Function.update σ d v) s' entry := by
  obtain ⟨l', located', fits, word, -⟩ := h.holds d known
  cases located.symm.trans located'
  obtain ⟨s', stored, pc, height⟩ := exists_store address word v.word
  have lb : s'.lb = s.lb := by
    obtain ⟨r, k⟩ := q
    unfold store? at stored
    split at stored
    · cases stored
      rfl
    · cases stored
      rfl
    · split at stored
      · obtain ⟨stack, -, rfl⟩ := Option.map_eq_some_iff.mp stored
        rfl
      · cases stored
    · cases stored
  obtain ⟨here, others⟩ := wordAt_store address stored
  refine ⟨s', stored, pc.trans h.pc, by rw [height, lb, h.height], lb ▸ h.below, fun d' hd' => ?_,
    h.frames⟩
  by_cases same : d' = d
  · subst same
    rw [Function.update_self]
    exact ⟨l, located, fits, here, type⟩
  · obtain ⟨l', there, fits', word', type'⟩ := h.holds d' hd'
    rw [Function.update_of_ne same]
    refine ⟨l', there, fits', (others l' ?_).trans word', type'⟩
    rintro rfl
    exact same (h.frames.injective d' d l' hd' known there located)

end Standing

end JamCompiler
