import JamCompiler.Proofs.Emission.Pieces
import JamCompiler.Proofs.Emission.Slots

/-!
# Slots of frames

Where parameters and variables live in the frame of their method. A variable gets the slot above
those of the variables declared before it in the blocks around it, and the slots of a block are free
again after it. So what is visible at some point of a body lives at different offsets, and none of
it in the linkage.

The branches of statements must be no declarations for this: a variable declared by a branch would
keep its slot after it. Resolution sees to that.
-/

namespace JamCompiler

open Machine Emission Generation

/-- A statement in a body with its site, and the variables that are declared before it in the blocks
around it, the last one first. -/
structure Point where
  vars : Scope
  site : Site
  stmt : Stmt

namespace Point

/-- The slot of the next variable. -/
def slot (q : Point) : Nat := linkageSize + q.vars.length

end Point

mutual

/-- The points of a statement, when some variables are declared before it. -/
def Stmt.points (vars : Scope) (site : Site) (s : Stmt) : List Point :=
  ⟨vars, site, s⟩ :: match s with
    | .block stmts _ => Stmt.pointsFrom vars site.stmt 0 stmts
    | .ifThen _ body _ | .loop _ body _ => body.points vars site.thenBranch
    | .ifElse _ body other _ =>
      body.points vars site.thenBranch ++ other.points vars site.elseBranch
    | .declare .. | .assign .. | .assignIndex .. | .call .. | .ret .. | .unknown .. => []

/-- The points of the statements of a list from the `k`th on, whose sites are given. -/
def Stmt.pointsFrom (vars : Scope) (sites : Nat → Site) (k : Nat) : List Stmt → List Point
  | [] => []
  | s :: rest =>
    s.points vars (sites k) ++ Stmt.pointsFrom (s.localsAfter vars (sites k)) sites (k + 1) rest

end

namespace MethodDecl

/-- The points of the body of a method. -/
def points (site : Site) (m : MethodDecl) : List Point := Stmt.pointsFrom [] site.body 0 m.body

/-- What is visible at a point: the variables declared before it, one that it declares itself, and
the parameters of the method. -/
def visible (site : Site) (m : MethodDecl) (q : Point) : Scope :=
  q.stmt.localsAfter q.vars q.site ++ m.scope site

end MethodDecl

mutual

/-- Whether no branch in a statement is a declaration by itself. -/
def Stmt.Scoped : Stmt → Prop
  | .block stmts _ => Stmt.AllScoped stmts
  | .ifThen _ body _ | .loop _ body _ => body.isDeclaration = false ∧ body.Scoped
  | .ifElse _ body other _ =>
    (body.isDeclaration = false ∧ body.Scoped) ∧ other.isDeclaration = false ∧ other.Scoped
  | .declare .. | .assign .. | .assignIndex .. | .call .. | .ret .. | .unknown .. => True

def Stmt.AllScoped : List Stmt → Prop
  | [] => True
  | s :: rest => s.Scoped ∧ Stmt.AllScoped rest

end

section Branches

variable {names : Resolving.Context}

mutual

theorem Stmt.scoped_of_uses (locals : Scope) (site : Site) (s : Stmt)
    (whole : ∀ body, .branch body ∈ s.uses names locals site → body.isDeclaration = false) :
    s.Scoped := by
  match s with
  | .block stmts pos => exact Stmt.allScoped_of_uses locals site.stmt 0 stmts whole
  | .ifThen cond body pos | .loop cond body pos =>
    have inBranch : ∀ u ∈ .branch body :: body.uses names locals site.thenBranch,
        u ∈ cond.uses names locals site.cond ++
          .branch body :: body.uses names locals site.thenBranch :=
      fun u hu => List.mem_append_right _ hu
    refine ⟨whole body (inBranch _ List.mem_cons_self),
      Stmt.scoped_of_uses locals site.thenBranch body fun b hb => ?_⟩
    exact whole b (inBranch _ (List.mem_cons_of_mem _ hb))
  | .ifElse cond body other pos =>
    have inRest : ∀ u ∈ .branch body :: (body.uses names locals site.thenBranch ++
        .branch other :: other.uses names locals site.elseBranch),
        u ∈ (Stmt.ifElse cond body other pos).uses names locals site :=
      fun u hu => List.mem_append_right _ hu
    refine ⟨⟨whole body (inRest _ List.mem_cons_self),
      Stmt.scoped_of_uses locals site.thenBranch body fun b hb => ?_⟩,
      whole other (inRest _ ?_), Stmt.scoped_of_uses locals site.elseBranch other fun b hb => ?_⟩
    · exact whole b (inRest _ (List.mem_cons_of_mem _ (List.mem_append_left _ hb)))
    · exact List.mem_cons_of_mem _ (List.mem_append_right _ List.mem_cons_self)
    · exact whole b (inRest _ (List.mem_cons_of_mem _ (List.mem_append_right _
        (List.mem_cons_of_mem _ hb))))
  | .declare .. | .assign .. | .assignIndex .. | .call .. | .ret .. | .unknown .. => trivial

theorem Stmt.allScoped_of_uses (locals : Scope) (sites : Nat → Site) (k : Nat) (stmts : List Stmt)
    (whole : ∀ body, .branch body ∈ Stmt.usesFrom names locals sites k stmts →
      body.isDeclaration = false) : Stmt.AllScoped stmts := by
  match stmts with
  | [] => trivial
  | s :: rest =>
    exact ⟨Stmt.scoped_of_uses locals (sites k) s fun b hb => whole b (List.mem_append_left _ hb),
      Stmt.allScoped_of_uses _ sites (k + 1) rest fun b hb => whole b (List.mem_append_right _ hb)⟩

end

end Branches

/-- A statement declares a variable in the block that it is in only if it is a declaration. -/
theorem Stmt.Scoped.declares {s : Stmt} (h : s.Scoped) : s.declares = s.isDeclaration.toNat := by
  match s with
  | .ifThen cond body pos | .loop cond body pos =>
    have inner := Stmt.Scoped.declares h.2
    rwa [h.1] at inner
  | .ifElse cond body other pos =>
    have inner := Stmt.Scoped.declares h.1.2
    have inner' := Stmt.Scoped.declares h.2.2
    rw [h.1.1] at inner
    rw [h.2.1] at inner'
    simp only [Stmt.declares, inner, inner']
    rfl
  | .block .. | .declare .. | .assign .. | .assignIndex .. | .call .. | .ret .. | .unknown .. => rfl

theorem Stmt.length_localsAfter (s : Stmt) (vars : Scope) (site : Site) :
    (s.localsAfter vars site).length = vars.length + s.isDeclaration.toNat := by
  cases s <;> rfl

/-- Whether the variables before a point live in the slots above the linkage, in their order. -/
def Framed (located : Site → Option Location) : Scope → Prop
  | [] => True
  | q :: rest => (∃ site, q.2.home = .user site ∧
      located site = some (.frame (linkageSize + rest.length : Nat))) ∧ Framed located rest

/-- Whether what is declared before a point, and at it, lives where it should. -/
structure Point.Housed (located : Site → Option Location) (q : Point) : Prop where
  branches : q.stmt.Scoped
  framed : Framed located (q.stmt.localsAfter q.vars q.site)

section Places

variable {located : Site → Option Location}

/-- A declaration adds the slot that it is given. -/
theorem framed_localsAfter {s : Stmt} {vars : Scope} {site : Site} (framed : Framed located vars)
    (placed : s.Placed located (linkageSize + vars.length) site) :
    Framed located (s.localsAfter vars site) := by
  cases s with
  | declare var init pos => exact ⟨⟨site.var, rfl, placed⟩, framed⟩
  | block | assign | assignIndex | call | ret | ifThen | ifElse | loop | unknown => exact framed

mutual

theorem Stmt.housed_of_placed {vars : Scope} {site : Site} (s : Stmt) (branches : s.Scoped)
    (framed : Framed located vars) (placed : s.Placed located (linkageSize + vars.length) site) :
    ∀ q ∈ s.points vars site, q.Housed located := by
  have here : Point.Housed located ⟨vars, site, s⟩ := ⟨branches, framed_localsAfter framed placed⟩
  match s with
  | .block stmts pos =>
    exact List.forall_mem_cons.mpr ⟨here, Stmt.housed_of_allPlaced stmts branches framed placed⟩
  | .ifThen cond body pos | .loop cond body pos =>
    exact List.forall_mem_cons.mpr ⟨here, Stmt.housed_of_placed body branches.2 framed placed⟩
  | .ifElse cond body other pos =>
    -- The second branch is placed after the variables that the first one declares. As that is no
    -- declaration there are none, and both branches start at the same slot.
    have placed' := placed.2
    rw [branches.1.2.declares, branches.1.1] at placed'
    exact List.forall_mem_cons.mpr ⟨here, List.forall_mem_append.mpr
      ⟨Stmt.housed_of_placed body branches.1.2 framed placed.1,
        Stmt.housed_of_placed other branches.2.2 framed placed'⟩⟩
  | .declare .. | .assign .. | .assignIndex .. | .call .. | .ret .. | .unknown .. =>
    exact List.forall_mem_singleton.mpr here

theorem Stmt.housed_of_allPlaced {vars : Scope} {sites : Nat → Site} {k : Nat} (stmts : List Stmt)
    (branches : Stmt.AllScoped stmts) (framed : Framed located vars)
    (placed : Stmt.AllPlaced located (linkageSize + vars.length) sites k stmts) :
    ∀ q ∈ Stmt.pointsFrom vars sites k stmts, q.Housed located := by
  match stmts with
  | [] => exact nofun
  | s :: rest =>
    have later := placed.2
    rw [branches.1.declares, Nat.add_assoc, ← s.length_localsAfter vars (sites k)] at later
    exact List.forall_mem_append.mpr ⟨Stmt.housed_of_placed s branches.1 framed placed.1,
      Stmt.housed_of_allPlaced rest branches.2 (framed_localsAfter framed placed.1) later⟩

end

end Places

/-- The offset in the frame at which a parameter or local variable lives. -/
def Compilation.frameOffset? (c : Compilation) (d : Decl) : Option Int :=
  match d.home with
  | .predefined => none
  | .user site =>
    match c.locations.get? site with
    | some (.frame k) => some k
    | _ => none

/-- The offsets of what is in force, which fall from the last declared one on. -/
structure Compilation.Descends (c : Compilation) (scope : Scope) (offsets : List Int) : Prop where
  located : scope.map (fun q => c.frameOffset? q.2) = offsets.map some
  falls : offsets.Pairwise (· > ·)

section Offsets

variable {c : Compilation} {scope : Scope} {offsets : List Int}

theorem Compilation.frameOffset?_eq {d : Decl} {site : Site} {k : Int} (home : d.home = .user site)
    (located : c.locations.get? site = some (.frame k)) : c.frameOffset? d = some k := by
  simp only [frameOffset?, home, located]

theorem Compilation.Descends.empty (c : Compilation) : c.Descends [] [] := ⟨rfl, .nil⟩

theorem Compilation.Descends.cons (h : c.Descends scope offsets) {q : String × Decl} {k : Int}
    (here : c.frameOffset? q.2 = some k) (above : ∀ x ∈ offsets, x < k) :
    c.Descends (q :: scope) (k :: offsets) where
  located := by rw [List.map_cons, List.map_cons, here, h.located]
  falls := List.pairwise_cons.mpr ⟨above, h.falls⟩

theorem Compilation.Descends.append {scope' : Scope} {offsets' : List Int}
    (h : c.Descends scope offsets) (h' : c.Descends scope' offsets')
    (above : ∀ x ∈ offsets, ∀ y ∈ offsets', x > y) :
    c.Descends (scope ++ scope') (offsets ++ offsets') where
  located := by rw [List.map_append, List.map_append, h.located, h'.located]
  falls := List.pairwise_append.mpr ⟨h.falls, h'.falls, above⟩

/-- The variables before a point live above the linkage. -/
theorem Framed.descends (h : Framed c.locations.get? scope) : ∃ offsets, c.Descends scope offsets ∧
    ∀ k ∈ offsets, (linkageSize : Int) ≤ k ∧ k < (linkageSize + scope.length : Nat) := by
  induction scope with
  | nil => exact ⟨[], ⟨rfl, .nil⟩, nofun⟩
  | cons q rest ih =>
    obtain ⟨⟨site, home, located⟩, framed⟩ := h
    obtain ⟨offsets, descends, bounds⟩ := ih framed
    refine ⟨_, descends.cons (c.frameOffset?_eq home located) fun x hx => (bounds x hx).2, ?_⟩
    intro k hk
    rw [List.length_cons]
    rcases List.mem_cons.mp hk with rfl | hk
    · omega
    · have bound := bounds k hk
      omega

/-- Parameters live below the frame. -/
theorem descends_paramScope {method : Site} {arity k : Nat} {params : List ParamDecl}
    (h : c.Descends scope offsets) (below : ∀ x ∈ offsets, x < (k - arity : Int))
    (placed : ∀ (i : Nat) (prm : ParamDecl), params[i]? = some prm →
      c.locations.get? (method.param (k + i)) = some (.frame ((k + i : Nat) - arity))) :
    ∃ offsets', c.Descends (MethodDecl.paramScope method k scope params) offsets' ∧
      ∀ x ∈ offsets', x < (k + params.length : Int) - arity := by
  induction params generalizing k scope offsets with
  | nil => exact ⟨offsets, h, fun x hx => by simpa using below x hx⟩
  | cons q rest ih =>
    have here : c.frameOffset? (.param (method.param k) q) = some ((k : Int) - arity) :=
      c.frameOffset?_eq rfl (placed 0 q rfl)
    have below' : ∀ x ∈ (k - arity : Int) :: offsets, x < ((k + 1 : Nat) - arity : Int) := by
      intro x hx
      rcases List.mem_cons.mp hx with rfl | hx
      · omega
      · have bound := below x hx
        omega
    have later : ∀ (i : Nat) (prm : ParamDecl), rest[i]? = some prm →
        c.locations.get? (method.param (k + 1 + i)) =
          some (.frame ((k + 1 + i : Nat) - arity)) := by
      intro i prm hi
      rw [Nat.add_assoc, Nat.add_comm 1 i]
      exact placed (i + 1) prm hi
    obtain ⟨offsets', descends, bounds⟩ := ih (h.cons (q := (q.name, _)) here below) below' later
    refine ⟨offsets', descends, fun x hx => ?_⟩
    have bound := bounds x hx
    rw [List.length_cons]
    omega

theorem descends_visible {site : Site} {m : MethodDecl} {q : Point}
    (placed : m.Placed c.locations.get? site) (housed : q.Housed c.locations.get?) :
    ∃ offsets, c.Descends (m.visible site q) offsets ∧
      ∀ k ∈ offsets, k < 0 ∨ (linkageSize : Int) ≤ k := by
  obtain ⟨own, descends, above⟩ := housed.framed.descends
  obtain ⟨params, descends', below⟩ :=
    descends_paramScope (k := 0) (.empty c) nofun
      fun i prm hi => by simpa using placed.params i prm hi
  have below : ∀ y ∈ params, y < 0 := fun y hy => by simpa using below y hy
  refine ⟨own ++ params, descends.append descends' fun x hx y hy => ?_, ?_⟩
  · have low := below y hy
    have high := (above x hx).1
    simp only [linkageSize] at high
    omega
  · intro k hk
    rcases List.mem_append.mp hk with hk | hk
    · exact .inr (above k hk).1
    · exact .inl (below k hk)

end Offsets

/-- Whether the code of a statement is among some pieces of code, made with the slot of its
point. -/
def Point.EmittedIn (env : Env) (arity : Nat) (pieces : List (Nat × Mark × Tree))
    (q : Point) : Prop :=
  ∃ a u, q.stmt.tree env arity q.slot q.site =
      .ok (.marked (.stmt q.slot) u, q.stmt.isDeclaration.toNat) ∧ (a, .stmt q.slot, u) ∈ pieces

section Pieces

variable {env : Env} {arity : Nat}

theorem Point.EmittedIn.mono {pieces pieces' : List (Nat × Mark × Tree)} {q : Point}
    (h : q.EmittedIn env arity pieces) (sub : pieces ⊆ pieces') :
    q.EmittedIn env arity pieces' := by
  obtain ⟨a, u, made, mem⟩ := h
  exact ⟨a, u, made, sub mem⟩

/-- The code of a statement is marked with the slot that it is made with; it takes that slot only if
the statement is a declaration. -/
theorem Stmt.Scoped.only_marked {slot : Nat} {site : Site} {s : Stmt} (h : s.Scoped) :
    Only (s.tree env arity slot site) fun t =>
      t.2 = s.isDeclaration.toNat ∧ ∃ u, t.1 = .marked (.stmt slot) u := by
  have marked {x : Emitted (Tree × Nat)} {n : Nat} (h : Only x fun t => t.2 = n) :
      Only (x.map fun t => (Tree.marked (.stmt slot) t.1, t.2)) fun t : Tree × Nat =>
        t.2 = n ∧ ∃ u, t.1 = .marked (.stmt slot) u :=
    h.map fun t same => ⟨same, t.1, rfl⟩
  match s with
  | .unknown .. => exact .error _
  | .block .. => exact marked ((Only.any _).bind fun _ _ => .ok rfl)
  | .declare .. => exact marked ((Only.any _).bind fun _ _ => .ok rfl)
  | .assign .. => exact marked ((Only.any _).bind fun _ _ => .ok rfl)
  | .assignIndex .. => exact marked ((Only.any _).bind fun _ _ => .ok rfl)
  | .call .. => exact marked ((Only.any _).bind fun _ _ => .ok rfl)
  | .ret (some _) _ => exact marked ((Only.any _).bind fun _ _ => .ok rfl)
  | .ret none _ => exact marked (.ok rfl)
  | .ifThen cond body pos =>
    refine marked ((Only.any _).bind fun _ _ =>
      (Stmt.Scoped.only_marked h.2).bind fun t none => .ok ?_)
    rw [none.1, h.1]
    rfl
  | .ifElse cond body other pos =>
    refine marked ((Only.any _).bind fun _ _ => (Stmt.Scoped.only_marked h.1.2).bind fun t none =>
      (Stmt.Scoped.only_marked h.2.2).bind fun t' none' => .ok ?_)
    rw [none.1, none'.1, h.1.1, h.2.1]
    rfl
  | .loop cond body pos =>
    refine marked ((Stmt.Scoped.only_marked h.2).bind fun t none =>
      (Only.any _).bind fun _ _ => .ok ?_)
    rw [none.1, h.1]
    rfl

mutual

theorem Stmt.emittedIn_of_tree {vars : Scope} {site : Site} (s : Stmt) (branches : s.Scoped)
    {t : Tree × Nat} (made : s.tree env arity (linkageSize + vars.length) site = .ok t)
    (base : Nat) : ∀ q ∈ s.points vars site, q.EmittedIn env arity (t.1.pieces base) := by
  obtain ⟨declared, u, code⟩ := branches.only_marked.holds made
  have here : Point.EmittedIn env arity (t.1.pieces base) ⟨vars, site, s⟩ :=
    ⟨base, u, made.trans (congrArg _ (Prod.ext code declared)),
      by rw [code]; exact List.mem_cons_self⟩
  match s with
  | .block stmts pos =>
    obtain ⟨_, inside, rfl⟩ := map_eq_ok.mp made
    obtain ⟨inner, inBlock, rest⟩ := bind_eq_ok.mp inside
    cases rest
    refine List.forall_mem_cons.mpr ⟨here, fun q hq => ?_⟩
    refine (Stmt.emittedIn_of_trees stmts branches inBlock base q hq).mono fun piece hp =>
      List.mem_cons_of_mem _ ?_
    dsimp only
    split
    · exact hp
    · exact List.mem_append_left _ hp
  | .ifThen cond body pos =>
    obtain ⟨_, inside, rfl⟩ := map_eq_ok.mp made
    obtain ⟨test, -, inside⟩ := bind_eq_ok.mp inside
    obtain ⟨code, inBody, rest⟩ := bind_eq_ok.mp inside
    cases rest
    refine List.forall_mem_cons.mpr ⟨here, fun q hq => ?_⟩
    exact (Stmt.emittedIn_of_tree body branches.2 inBody _ q hq).mono fun piece hp =>
      List.mem_cons_of_mem _ (List.mem_append_right _ hp)
  | .ifElse cond body other pos =>
    obtain ⟨_, inside, rfl⟩ := map_eq_ok.mp made
    obtain ⟨test, -, inside⟩ := bind_eq_ok.mp inside
    obtain ⟨code, inBody, inside⟩ := bind_eq_ok.mp inside
    obtain ⟨otherCode, inOther, rest⟩ := bind_eq_ok.mp inside
    have none : code.2 = 0 := by
      rw [(branches.1.2.only_marked.holds inBody).1, branches.1.1]
      rfl
    rw [none, Nat.add_zero] at inOther
    cases rest
    refine List.forall_mem_cons.mpr
      ⟨here, List.forall_mem_append.mpr ⟨fun q hq => ?_, fun q hq => ?_⟩⟩
    · exact (Stmt.emittedIn_of_tree body branches.1.2 inBody _ q hq).mono fun piece hp =>
        List.mem_cons_of_mem _ (List.mem_append_left _ (List.mem_append_right _ hp))
    · exact (Stmt.emittedIn_of_tree other branches.2.2 inOther _ q hq).mono fun piece hp =>
        List.mem_cons_of_mem _ (List.mem_append_right _ hp)
  | .loop cond body pos =>
    obtain ⟨_, inside, rfl⟩ := map_eq_ok.mp made
    obtain ⟨code, inBody, inside⟩ := bind_eq_ok.mp inside
    obtain ⟨test, -, rest⟩ := bind_eq_ok.mp inside
    cases rest
    refine List.forall_mem_cons.mpr ⟨here, fun q hq => ?_⟩
    exact (Stmt.emittedIn_of_tree body branches.2 inBody _ q hq).mono fun piece hp =>
      List.mem_cons_of_mem _ (List.mem_append_left _ hp)
  | .declare .. | .assign .. | .assignIndex .. | .call .. | .ret .. | .unknown .. =>
    exact List.forall_mem_singleton.mpr here

theorem Stmt.emittedIn_of_trees {vars : Scope} {sites : Nat → Site} {k : Nat} (stmts : List Stmt)
    (branches : Stmt.AllScoped stmts) {t : Tree × Nat}
    (made : Stmt.trees env arity (linkageSize + vars.length) sites k stmts = .ok t) (base : Nat) :
    ∀ q ∈ Stmt.pointsFrom vars sites k stmts, q.EmittedIn env arity (t.1.pieces base) := by
  match stmts with
  | [] => exact nofun
  | s :: rest =>
    obtain ⟨first, inFirst, inside⟩ := bind_eq_ok.mp made
    obtain ⟨more, inRest, same⟩ := bind_eq_ok.mp inside
    cases same
    rw [(branches.1.only_marked.holds inFirst).1, Nat.add_assoc,
      ← s.length_localsAfter vars (sites k)] at inRest
    refine List.forall_mem_append.mpr ⟨fun q hq => ?_, fun q hq => ?_⟩
    · exact (Stmt.emittedIn_of_tree s branches.1 inFirst base q hq).mono
        (List.subset_append_left _ _)
    · exact (Stmt.emittedIn_of_trees rest branches.2 inRest _ q hq).mono
        (List.subset_append_right _ _)

end

end Pieces

theorem Stmt.allScoped_append {xs ys : List Stmt} (h : Stmt.AllScoped xs) (h' : Stmt.AllScoped ys) :
    Stmt.AllScoped (xs ++ ys) := by
  induction xs with
  | nil => exact h'
  | cons s rest ih => exact ⟨h.1, ih h.2⟩

theorem Stmt.pointsFrom_append (vars : Scope) (sites : Nat → Site) (k : Nat) (xs ys : List Stmt) :
    Stmt.pointsFrom vars sites k xs ⊆ Stmt.pointsFrom vars sites k (xs ++ ys) := by
  induction xs generalizing vars k with
  | nil => exact List.nil_subset _
  | cons s rest ih =>
    intro q hq
    rcases List.mem_append.mp hq with hq | hq
    · exact List.mem_append_left _ hq
    · exact List.mem_append_right _ (ih _ _ hq)

/-- The code of statements takes as many slots as there are declarations among them. -/
theorem Stmt.declared_of_trees {env : Env} {arity slot k : Nat} {sites : Nat → Site}
    {stmts : List Stmt} (h : Stmt.AllScoped stmts) {t : Tree × Nat}
    (made : Stmt.trees env arity slot sites k stmts = .ok t) :
    t.2 = stmts.countP (·.isDeclaration) := by
  induction stmts generalizing slot k t with
  | nil =>
    cases made
    rfl
  | cons s rest ih =>
    obtain ⟨first, inFirst, inside⟩ := bind_eq_ok.mp made
    obtain ⟨more, inRest, same⟩ := bind_eq_ok.mp inside
    cases same
    rw [List.countP_cons, (h.1.only_marked.holds inFirst).1, ih h.2 inRest, Nat.add_comm]
    cases s.isDeclaration <;> rfl

/-- How the frames of a method are laid out. Parameters end below the frame, a variable follows
those that are declared before it in the blocks around it, and nothing that is visible at one point
shares an offset or lies in the linkage. The code of every statement is made for that slot and
leaves it, unless it is a declaration, to the next statement, and a block drops the variables that
are declared in it. -/
structure Compilation.FrameLaid (c : Compilation) (o : ObjectCode) (site : Site) (m : MethodDecl) :
    Prop where
  params : ∀ (i : Nat) (prm : ParamDecl), m.head.params[i]? = some prm →
    c.locations.get? (site.param i) = some (.frame (i - m.head.params.length))
  locals : ∀ q ∈ m.points site, ∀ var init pos, q.stmt = .declare var init pos →
    c.locations.get? q.site.var = some (.frame (linkageSize + q.vars.length : Nat))
  visible : ∀ q ∈ m.points site, ∃ offsets : List Int,
    (m.visible site q).map (fun v => c.frameOffset? v.2) = offsets.map some ∧ offsets.Nodup ∧
      ∀ k ∈ offsets, k < 0 ∨ (linkageSize : Int) ≤ k
  emitted : ∀ q ∈ m.points site, ∃ a t, q.stmt.tree c.env m.head.params.length q.slot q.site =
      .ok (t, q.stmt.isDeclaration.toNat) ∧ c.Stands o a (t.code a)
  blocks : ∀ q ∈ m.points site, ∀ stmts pos, q.stmt = .block stmts pos →
    ∃ a inner, Stmt.trees c.env m.head.params.length q.slot q.site.stmt 0 stmts =
        .ok (inner, stmts.countP (·.isDeclaration)) ∧
      c.Stands o a (inner.code a ++
        if stmts.countP (·.isDeclaration) = 0 then [] else [pop (stmts.countP (·.isDeclaration))])

section Methods

variable {c : Compilation} {o : ObjectCode} {site : Site} {m m' : MethodDecl}

/-- A block drops what is declared in it. -/
theorem stands_block_of_piece {q : Point} {arity : Nat} {t : Tree} {start : Nat} {stmts : List Stmt}
    {pos : Nat} (branches : Stmt.AllScoped stmts) (block : q.stmt = .block stmts pos)
    (emitted : q.EmittedIn c.env arity (t.pieces start))
    (stands : c.Stands o start (t.code start)) :
    ∃ a inner, Stmt.trees c.env arity q.slot q.site.stmt 0 stmts =
        .ok (inner, stmts.countP (·.isDeclaration)) ∧
      c.Stands o a (inner.code a ++
        if stmts.countP (·.isDeclaration) = 0 then []
        else [pop (stmts.countP (·.isDeclaration))]) := by
  obtain ⟨a, u, made, mem⟩ := emitted
  have here := stands.part (Tree.partOf_of_pieces mem)
  rw [block] at made
  obtain ⟨_, inside, same⟩ := map_eq_ok.mp made
  obtain ⟨inner, inBlock, rest⟩ := bind_eq_ok.mp inside
  cases rest
  have count := Stmt.declared_of_trees branches inBlock
  refine ⟨a, inner.1, by rw [inBlock, ← count], ?_⟩
  have code : u = if inner.2 = 0 then inner.1 else .seq inner.1 (.straight [pop inner.2]) := by
    injection congrArg Prod.fst same with _ code
    exact code.symm
  rw [code, count] at here
  split at here
  · rename_i none
    rw [if_pos none, List.append_nil]
    exact here
  · rename_i some
    rw [if_neg some]
    exact here

/-- The frame of a method whose variables were placed and whose code was emitted. -/
theorem frameLaid_of_placed (branches : Stmt.AllScoped m.body)
    (placed : m.Placed c.locations.get? site) {t : Tree} (made : m.tree c.env site = .ok t)
    {start : Nat} (stands : c.Stands o start (t.code start)) : c.FrameLaid o site m := by
  have housed : ∀ q ∈ m.points site, q.Housed c.locations.get? :=
    Stmt.housed_of_allPlaced m.body branches trivial placed.body
  obtain ⟨inner, inBody, rfl⟩ := map_eq_ok.mp made
  have emitted :
      ∀ q ∈ m.points site, q.EmittedIn c.env m.head.params.length (inner.1.pieces start) :=
    Stmt.emittedIn_of_trees m.body branches inBody start
  refine ⟨placed.params, fun q hq var init pos declares => ?_, fun q hq => ?_, fun q hq => ?_,
    fun q hq stmts pos block => ?_⟩
  · have framed := (housed q hq).framed
    rw [declares] at framed
    obtain ⟨⟨site', home, located⟩, -⟩ := framed
    cases home
    exact located
  · obtain ⟨offsets, descends, bounds⟩ := descends_visible placed (housed q hq)
    exact ⟨offsets, descends.located,
      descends.falls.imp fun falls => (Int.ne_of_lt falls).symm, bounds⟩
  · obtain ⟨a, u, made, mem⟩ := emitted q hq
    have here := stands.part (Tree.partOf_of_pieces mem)
    exact ⟨a, _, made, here⟩
  · have inside := (housed q hq).branches
    rw [block] at inside
    exact stands_block_of_piece inside block (emitted q hq) stands

/-- A return that is added to a body adds a point, and takes none away. -/
theorem MethodDecl.points_of_returning (h : m.returning = .ok m') (site : Site) :
    m.points site ⊆ m'.points site := by
  unfold points
  rcases body_of_returning h with ⟨same, -⟩ | ⟨⟨pos, body⟩, -⟩
  · rw [same]
    exact List.Subset.refl _
  · rw [body]
    exact Stmt.pointsFrom_append _ _ _ _ _

theorem MethodDecl.allScoped_of_returning (h : m.returning = .ok m')
    (branches : Stmt.AllScoped m.body) : Stmt.AllScoped m'.body := by
  rcases body_of_returning h with ⟨same, -⟩ | ⟨⟨pos, body⟩, -⟩
  · rw [same]
    exact branches
  · rw [body]
    exact Stmt.allScoped_append branches ⟨trivial, trivial⟩

theorem Compilation.FrameLaid.of_returning (h : c.FrameLaid o site m')
    (returning : m.returning = .ok m') : c.FrameLaid o site m := by
  have points := MethodDecl.points_of_returning returning site
  obtain ⟨params, locals, visible, emitted, blocks⟩ := h
  simp only [MethodDecl.visible, MethodDecl.scope] at visible
  rw [MethodDecl.head_of_returning returning] at params visible emitted blocks
  exact ⟨params, fun q hq => locals q (points hq), fun q hq => visible q (points hq),
    fun q hq => emitted q (points hq), fun q hq => blocks q (points hq)⟩

/-- Resolution sees to it that no branch is a declaration. -/
theorem Program.Resolvable.allScoped {p : Program} (h : p.Resolvable)
    (hm : (site, m) ∈ p.sitedMethods) : Stmt.AllScoped m.body := by
  obtain ⟨k, cls, hk, hc⟩ := Program.mem_sitedMethods.mp hm
  exact Stmt.allScoped_of_uses _ _ _ m.body fun body hb =>
    h.ok k cls hk _ (ClassDecl.bodyUses_subset hc hb)

end Methods

/-- If code is generated for a program that was resolved without errors and checked, then no two
variables that are visible at some point share a slot of the frame, and every block leaves the next
slot as it was before it. -/
theorem frames_laid_out {p : Program} {failFast : Bool} {c c₁ c₂ : Compilation} {t : ScopeTable}
    {o : ObjectCode} (resolved : (p.start failFast).resolve = (c, t, .ok ()))
    (clean : c.log.isClean) (checked : c.check = (c₁, .ok ()))
    (generated : c₁.generate = (c₂, .ok o)) : ∀ s ∈ p.sitedMethods, c₂.FrameLaid o s.1 s.2 := by
  rintro ⟨site, m⟩ hm
  obtain ⟨resolvable, -, program, -⟩ := Program.settled_of_resolve resolved clean
  have program₁ : c₁.program = p := by
    rw [Compilation.check_keeps checked]
    exact program
  obtain ⟨-, main, code, made⟩ := Compilation.generated_of_generate generated
  obtain ⟨-, -, -, placed⟩ :=
    Compilation.placed_of_generate (P := fun _ _ => True) generated ⟨fun _ => trivial⟩
  rw [program₁] at made
  obtain ⟨m', t', start, methodCode⟩ := made.methodCode hm
  obtain ⟨m'', hm', returning⟩ := made.returned hm
  cases methodCode.returning.symm.trans returning
  have branches := MethodDecl.allScoped_of_returning returning (resolvable.allScoped hm)
  have laid := frameLaid_of_placed branches (placed _ hm') methodCode.tree methodCode.linked
  exact laid.of_returning returning

/-- Two blocks beside each other, one with a loop in it, and variables before, in and after them. -/
def nestedBlocksText : List Char :=
  ("class A \x7b static void f(int a) \x7b int x = a; " ++
    "\x7b int y = x; while (y < a) \x7b int z = y; y = z; \x7d \x7d " ++
    "\x7b int y = x; \x7d int v = x; \x7d " ++
    "public static void main(String[] s) \x7b \x7d \x7d").toList

theorem nestedBlocksText_laid : ∃ p c c₁ c₂ t o, Program.ofText? nestedBlocksText = .ok p ∧
    (p.start false).resolve = (c, t, .ok ()) ∧ c.log.isClean ∧ c.check = (c₁, .ok ()) ∧
    c₁.log.isClean ∧ c₁.generate = (c₂, .ok o) ∧ (∀ s ∈ p.sitedMethods, c₂.FrameLaid o s.1 s.2) ∧
    p.sitedMethods.map (fun s => (s.2.points s.1).map Point.slot) =
      [[3, 4, 4, 5, 5, 5, 6, 4, 4, 4], []] := by
  obtain ⟨r, compiled, ok, p', -, -, parsed', -, -, slots⟩ :=
    exists_compiled_of_any nestedBlocksText
      (P := fun p _ _ => p.sitedMethods.map (fun s => (s.2.points s.1).map Point.slot) =
        [[3, 4, 4, 5, 5, 5, 6, 4, 4, 4], []]) (by decide +kernel)
  obtain ⟨p, c, c₁, c₂, t, o, parsed, resolved, clean, checked, clean₁, generated, -, -⟩ :=
    stages_of_compile compiled ok
  cases parsed.symm.trans parsed'
  exact ⟨p', c, c₁, c₂, t, o, parsed, resolved, clean, checked, clean₁, generated,
    frames_laid_out resolved clean checked generated, of_decide_eq_true slots⟩

end JamCompiler
