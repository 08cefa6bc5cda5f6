import JamCompiler.Proofs.Emission.Fields
import JamCompiler.Proofs.Accepted

/-!
# Slots

What emission places when it comes to its end, in any program and whatever was placed before. A
place that is taken stops it, so its end says where everything lives: parameters and variables in
their frames, and methods in the code. Fields have their places by then and get no others.
-/

namespace JamCompiler

open Pass

/-- Whether a location is one that emission gives. -/
def Location.OfMethod : Location → Prop
  | frame _ | code _ => True
  | static _ | object _ => False

/-- What stands in a map after it was filled at a site stood there before or is new there. -/
theorem SiteMap.get?_fill_cases {α : Type} {m : SiteMap α} {s t : Site} {a b : α}
    (h : (m.fill s a).get? t = some b) : m.get? t = some b ∨ (t = s ∧ b = a) := by
  by_cases same : t = s
  · subst same
    rw [get?_fill_self] at h
    cases before : m.get? t with
    | some b' =>
      rw [before] at h
      exact .inl h
    | none =>
      rw [before] at h
      exact .inr ⟨rfl, (Option.some.inj h).symm⟩
  · rw [get?_fill_of_ne _ _ same] at h
    exact .inl h

namespace Emission

variable {p p' p'' : Placing} {site : Site} {l : Location}

/-- Parts of methods were placed, and nothing else. -/
structure Placing.Later (p p' : Placing) : Prop where
  kept : ∀ {s l}, p.locations.get? s = some l → p'.locations.get? s = some l
  added : ∀ {s l}, p'.locations.get? s = some l → p.locations.get? s = some l ∨ l.OfMethod
  layouts : p'.layouts = p.layouts

theorem Placing.Later.refl (p : Placing) : p.Later p := ⟨id, .inl, rfl⟩

theorem Placing.Later.trans (h : p.Later p') (h' : p'.Later p'') : p.Later p'' where
  kept found := h'.kept (h.kept found)
  added found := (h'.added found).elim h.added .inr
  layouts := h'.layouts.trans h.layouts

/-- A part of a method gets its place. -/
theorem ends_placePart (ofMethod : l.OfMethod) (name : String) (pos : Nat) :
    Ends (place site l name pos) p fun _ p' => p.Later p' ∧ p'.locations.get? site = some l := by
  refine (ends_place site l name pos p).imp ?_
  rintro _ _ ⟨free, rfl⟩
  refine ⟨⟨SiteMap.get?_fill_of_some, fun {s l'} found => ?_, rfl⟩, SiteMap.get?_fill_free free l⟩
  rcases SiteMap.get?_fill_cases found with before | ⟨-, rfl⟩
  · exact .inl before
  · exact .inr ofMethod

/-- Making code places nothing. -/
theorem ends_emitted {α : Type} {bound : Site → Option Decl} {made : Env → Emitted α} :
    Ends (emitted bound made) p fun _ p' => p' = p := by
  refine Ends.bind (Ends.getOwn (P := fun q p' => p = q ∧ p = p') ⟨rfl, rfl⟩) ?_
  rintro _ _ ⟨rfl, rfl⟩
  split
  · exact .pure rfl
  · exact .fatal
  · exact .throw

section Statements

variable (ctx : Context)

/-- A statement that only has code. -/
theorem ends_plain {x : Emitting Code} {f : Code → Code} {s : Stmt} {slot : Nat}
    (h : Ends x p fun _ p' => p' = p) (none : s.declares = 0)
    (placed : ∀ located, s.Placed located slot site) :
    Ends (x >>= fun code => pure (f code, 0)) p fun r p' =>
      p.Later p' ∧ r.2 = s.declares ∧ s.Placed p'.locations.get? slot site := by
  refine Ends.bind h ?_
  rintro code _ rfl
  exact .pure ⟨.refl _, none.symm, placed _⟩

mutual

/-- The variables of a statement live in the slots from the one that is given to it, and it takes as
many as it declares. -/
theorem ends_emitStmt (base slot : Nat) (site : Site) (s : Stmt) (p : Placing) :
    Ends (emitStmt ctx base slot site s) p fun r p' =>
      p.Later p' ∧ r.2 = s.declares ∧ s.Placed p'.locations.get? slot site := by
  match s with
  | .unknown .. => exact .fatal
  | .block stmts pos =>
    refine Ends.bind (ends_emitStmts base slot site 0 stmts p) ?_
    rintro r p' ⟨later, -, placed⟩
    exact .pure ⟨later, rfl, placed⟩
  | .declare var init pos =>
    refine Ends.bind (ends_placePart (l := .frame slot) trivial var.name var.pos) ?_
    rintro _ p' ⟨later, located⟩
    refine Ends.bind ends_emitted ?_
    rintro code _ rfl
    exact .pure ⟨later, rfl, located⟩
  | .assign target value pos => exact ends_plain ends_emitted rfl fun _ => trivial
  | .assignIndex target index value pos => exact ends_plain ends_emitted rfl fun _ => trivial
  | .call r args pos => exact ends_plain ends_emitted rfl fun _ => trivial
  | .ret none pos => exact .pure ⟨.refl _, rfl, trivial⟩
  | .ret (some value) pos => exact ends_plain ends_emitted rfl fun _ => trivial
  | .ifThen cond body pos =>
    refine Ends.bind ends_emitted ?_
    rintro test _ rfl
    refine Ends.bind (ends_emitStmt _ slot site.thenBranch body _) ?_
    rintro r p' ⟨later, declared, placed⟩
    exact .pure ⟨later, declared, placed⟩
  | .ifElse cond body other pos =>
    refine Ends.bind ends_emitted ?_
    rintro test _ rfl
    refine Ends.bind (ends_emitStmt _ slot site.thenBranch body _) ?_
    rintro r p₁ ⟨later, declared, placed⟩
    refine Ends.bind (ends_emitStmt _ (slot + r.2) site.elseBranch other p₁) ?_
    rintro r' p₂ ⟨later', declared', placed'⟩
    rw [declared] at placed'
    refine .pure ⟨later.trans later', ?_, placed.mono later'.kept, placed'⟩
    simp only [declared, declared', Stmt.declares]
  | .loop cond body pos =>
    refine Ends.bind (ends_emitStmt _ slot site.thenBranch body p) ?_
    rintro r p' ⟨later, declared, placed⟩
    refine Ends.bind ends_emitted ?_
    rintro test _ rfl
    exact .pure ⟨later, declared, placed⟩

theorem ends_emitStmts (base slot : Nat) (block : Site) (k : Nat) (stmts : List Stmt)
    (p : Placing) :
    Ends (emitStmts ctx base slot block k stmts) p fun r p' => p.Later p' ∧
      r.2 = Stmt.allDeclare stmts ∧ Stmt.AllPlaced p'.locations.get? slot block.stmt k stmts := by
  match stmts with
  | [] => exact .pure ⟨.refl _, rfl, trivial⟩
  | s :: rest =>
    refine Ends.bind (ends_emitStmt base slot (block.stmt k) s p) ?_
    rintro r p₁ ⟨later, declared, placed⟩
    refine Ends.bind (ends_emitStmts _ (slot + r.2) block (k + 1) rest p₁) ?_
    rintro r' p₂ ⟨later', declared', placed'⟩
    rw [declared] at placed'
    refine .pure ⟨later.trans later', ?_, placed.mono later'.kept, placed'⟩
    simp only [declared, declared', Stmt.allDeclare]

end

theorem ends_emitBody (base slot : Nat) (method : Site) (k : Nat) (stmts : List Stmt)
    (p : Placing) :
    Ends (emitBody ctx base slot method k stmts) p fun _ p' => p.Later p' ∧
      Stmt.AllPlaced p'.locations.get? slot method.body k stmts := by
  induction stmts generalizing base slot k p with
  | nil => exact .pure ⟨.refl _, trivial⟩
  | cons s rest ih =>
    refine Ends.bind (ends_emitStmt ctx base slot (method.body k) s p) ?_
    rintro r p₁ ⟨later, declared, placed⟩
    refine Ends.bind (ih _ (slot + r.2) (k + 1) p₁) ?_
    rintro more p₂ ⟨later', placed'⟩
    rw [declared] at placed'
    exact .pure ⟨later.trans later', placed.mono later'.kept, placed'⟩

end Statements

theorem ends_placeParams (method : Site) (arity k : Nat) (params : List ParamDecl) (p : Placing) :
    Ends (placeParams method arity k params) p fun _ p' => p.Later p' ∧
      ∀ (i : Nat) (prm : ParamDecl), params[i]? = some prm →
        p'.locations.get? (method.param (k + i)) = some (.frame ((k + i : Nat) - arity)) := by
  induction params generalizing k p with
  | nil => exact .pure ⟨.refl _, nofun⟩
  | cons q rest ih =>
    refine Ends.bind (ends_placePart (l := .frame (k - arity)) trivial q.name q.pos) ?_
    rintro _ p₁ ⟨later, here⟩
    refine (ih (k + 1) p₁).imp ?_
    rintro _ p₂ ⟨later', placed⟩
    refine ⟨later.trans later', fun i prm hi => ?_⟩
    cases i with
    | zero => exact later'.kept here
    | succ i =>
      have there := placed i prm hi
      rwa [Nat.add_assoc, Nat.add_comm 1 i] at there

end Emission

theorem MethodDecl.Placed.later {p p' : Emission.Placing} {site : Site} {m : MethodDecl}
    (h : m.Placed p.locations.get? site) (later : p.Later p') : m.Placed p'.locations.get? site :=
  ⟨fun i prm hi => later.kept (h.params i prm hi), h.body.mono later.kept⟩

namespace Emission

variable {p : Placing} (bound : Site → Option Decl)

theorem ends_emitMethod_placed (base : Nat) (site : Site) (m : MethodDecl) (p : Placing) :
    Ends (emitMethod bound base site m) p fun _ p' =>
      p.Later p' ∧ m.Placed p'.locations.get? site := by
  refine Ends.bind (ends_placeParams site m.head.params.length 0 m.head.params p) ?_
  rintro _ p₁ ⟨later, params⟩
  refine Ends.bind (ends_placePart (l := .code base) trivial m.head.name m.head.pos) ?_
  rintro _ p₂ ⟨later', -⟩
  refine (ends_emitBody ⟨bound, m.head.params.length⟩ base linkageSize site 0 m.body p₂).imp ?_
  rintro _ p₃ ⟨later'', body⟩
  refine ⟨(later.trans later').trans later'', fun i prm hi => ?_, body⟩
  have there := params i prm hi
  rw [Nat.zero_add] at there
  exact (later'.trans later'').kept there

/-- Every method that is emitted has its parameters and variables placed. -/
theorem ends_emitMethods_placed (base : Nat) (methods : List (Site × MethodDecl)) (p : Placing) :
    Ends (emitMethods bound base methods) p fun _ p' =>
      p.Later p' ∧ ∀ s ∈ methods, s.2.Placed p'.locations.get? s.1 := by
  induction methods generalizing base p with
  | nil => exact .pure ⟨.refl _, nofun⟩
  | cons s rest ih =>
    refine Ends.bind (ends_emitMethod_placed bound base s.1 s.2 p) ?_
    rintro code p₁ ⟨later, placed⟩
    refine Ends.bind (ih (base + code.length) p₁) ?_
    rintro more p₂ ⟨later', placed'⟩
    exact .pure ⟨later.trans later', List.forall_mem_cons.mpr ⟨placed.later later', placed'⟩⟩

end Emission

namespace Generation

open Emission

variable {s : State} (bound : Site → Option Decl)

/-- Generation places the fields first; all that is placed later are the parts of the methods. The
answer and the prelude tell the size of the static segment that the fields have. -/
theorem ends_generate_placed {P : Nat → Placing → Prop}
    (fields : Ends (placeClasses 0 0 s.program.classes) s.placing P) :
    Ends (generate bound) s fun o s' => ∃ p₁, P o.staticSize p₁ ∧ p₁.Later s'.placing ∧
      ∀ m ∈ s'.program.sitedMethods, m.2.Placed s'.placing.locations.get? m.1 := by
  refine Ends.bind (Ends.getOwn (P := fun t s' => s = t ∧ s = s') ⟨rfl, rfl⟩) ?_
  rintro _ _ ⟨rfl, rfl⟩
  dsimp only
  refine Ends.bind (ends_placing fields) ?_
  rintro staticSize s₁ ⟨-, placed⟩
  cases s.program.entry? with
  | error fault => exact .fatal
  | ok main =>
    dsimp only
    refine Ends.bind ends_addReturns ?_
    rintro _ s₂ ⟨placing, -⟩
    refine Ends.bind (Ends.getOwn (P := fun t s' => s₂ = t ∧ s₂ = s') ⟨rfl, rfl⟩) ?_
    rintro _ _ ⟨rfl, rfl⟩
    refine Ends.bind (ends_placing (ends_emitMethods_placed bound codeStart _ _)) ?_
    rintro code s₃ ⟨program, later, methods⟩
    refine Ends.bind (ends_addressOf bound _) ?_
    rintro address _ ⟨rfl, -⟩
    refine Ends.bind (ends_link bound code) ?_
    rintro body _ ⟨rfl, -⟩
    refine .pure ⟨s₁.placing, placed, placing ▸ later, ?_⟩
    rw [program]
    exact methods

end Generation

/-- What a generation that came to its end has placed. -/
theorem Compilation.placed_of_generate {c c' : Compilation} {o : ObjectCode}
    {P : Nat → Emission.Placing → Prop} (generated : c.generate = (c', .ok o))
    (fields : Ends (Generation.placeClasses 0 0 c.program.classes) ⟨c.locations, c.layouts⟩ P) :
    ∃ p₁, P o.staticSize p₁ ∧ p₁.Later ⟨c'.locations, c'.layouts⟩ ∧
      ∀ m ∈ c'.program.sitedMethods, m.2.Placed c'.locations.get? m.1 := by
  obtain ⟨w, run, rfl⟩ := run_of_generate generated
  exact (Generation.ends_generate_placed c.bindings.get? fields).holds (run_eq_ok run)

end JamCompiler
