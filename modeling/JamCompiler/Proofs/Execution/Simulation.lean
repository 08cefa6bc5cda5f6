import JamCompiler.Proofs.Execution.Statements

/-!
# Simulation

What comes of a statement is what its code does: `Yields.runsTo` runs the code of a statement of
which something comes, and `yields_stmt` finds what comes of a statement from the run of its code.
The second is not the first read backwards; it goes by induction on the steps that are left, since a
loop that does not end comes to nothing, and uses the first to know where the parts of a statement
leave the machine.
-/

namespace JamCompiler

open Machine Machine.State Emission

theorem bound_of_targetDecl {env : Env} {site : Site} {r : Reference} {d : Decl}
    (h : targetDecl env site r = .ok d) : env.bound site = some d := by
  unfold targetDecl at h
  dsimp only at h
  split at h
  · cases h
  · cases h
  · cases h
  · cases h
  · split at h
    · cases h
    · cases h
      assumption

/-- The code that stores to a variable stores to where it lives, or, in an object, by the object and
the offset. -/
theorem storeTree_variable {env : Env} {site : Site} {r : Reference} {d : Decl}
    {value : Emitted Tree} {t : Tree} {l : Location}
    (denotes : r.variableAt? env.bound site = some d) (made : storeTree env site r value = .ok t)
    (located : locationOf env d = .ok l) (fits : l.Fits d) :
    ∃ q u, l.address? = some q ∧ value = .ok u ∧
      (t = .seq u (.straight [.instr { op := .store, r := q.1, d := q.2 }]) ∨
        q.1 = .ob ∧ t = .seq (.marked .load (.straight [self]))
          (.seq (.straight [literal q.2]) (.seq u (.straight [prim .fieldupd])))) := by
  obtain ⟨bound, -⟩ := bound_of_variable denotes
  obtain ⟨d', found, made⟩ := bind_eq_ok.mp made
  cases bound.symm.trans (bound_of_targetDecl found)
  obtain ⟨l', located', made⟩ := bind_eq_ok.mp made
  cases located.symm.trans located'
  cases l with
  | code => cases made
  | static | frame =>
    obtain ⟨u, inner, rest⟩ := bind_eq_ok.mp made
    cases rest
    exact ⟨_, u, rfl, inner, .inl rfl⟩
  | object k =>
    cases r with
    | this | unknown => cases denotes
    | ident =>
      obtain ⟨u, inner, rest⟩ := bind_eq_ok.mp made
      cases rest
      exact ⟨_, u, rfl, inner, .inl rfl⟩
    | qualified qualifier name pos =>
      obtain ⟨object, loads, made⟩ := bind_eq_ok.mp made
      obtain ⟨u, inner, rest⟩ := bind_eq_ok.mp made
      cases rest
      obtain ⟨pos', rfl⟩ := exists_this_of_variable denotes fits.2
      cases loads
      exact ⟨_, u, rfl, inner, .inr ⟨rfl, rfl⟩⟩

section Runs

variable {env : Env} {V F : Decl → Prop} {arity slot entry n : Nat} {σ : Store} {s : State}
variable {code : List Instruction} {site site' : Site} {k : Kind}

/-- The code of an assignment stores the value if there is one. -/
theorem Standing.assigns {target : Reference} {value : Expr} {d : Decl} {t : Tree}
    (h : Standing env V arity slot σ s entry) (denotes : target.variableAt? env.bound site = some d)
    (known : V d) (type : d.type env.bound = k.type) (has : value.Has env.bound V site' k)
    (made : storeTree env site target (value.tree env site') = .ok t)
    (installed : Installed code entry (t.code entry)) :
    match value.eval? env.bound σ site' with
    | some v => ∃ s', RunsTo code s s' ∧
        Standing env V arity slot (Function.update σ d v) s' (entry + t.size)
    | none => ∃ s', RunsTo code s s' ∧ Stuck code s' := by
  obtain ⟨l, located, fits, -⟩ := h.holds d known
  obtain ⟨⟨r, i⟩, u, address, inner, direct | ⟨rfl, inObject⟩⟩ :=
    storeTree_variable denotes made located fits
  · subst direct
    obtain ⟨first, last⟩ := installed_seq.mp installed
    have evaluates := h.evaluates has inner first
    cases eval : value.eval? env.bound σ site' with
    | none =>
      rw [eval] at evaluates
      exact evaluates
    | some v =>
      rw [eval] at evaluates
      obtain ⟨kind, runs⟩ := evaluates
      obtain ⟨s', stored, standing⟩ :=
        (h.goto (entry + u.size + 1)).store known located address (type ▸ kind.ofType)
      obtain rfl := h.pc
      refine ⟨s', runs.trans (.step ?_), standing⟩
      rw [exec_eq (installed_singleton.mp last)]
      exact stored
  · subst inObject
    obtain ⟨first, later⟩ := installed_seq.mp installed
    obtain ⟨second, later⟩ := installed_seq.mp later
    obtain ⟨third, last⟩ := installed_seq.mp later
    obtain rfl := h.pc
    have pushed := RunsTo.head (exec_self (installed_singleton.mp first))
      (.step (exec_literal (s := s.next (s.object :: s.stack)) (installed_singleton.mp second)))
    have holds := (h.holds.push (s.pc + 1) s.object).push (s.pc + 1 + 1) i
    have evaluates := has.evaluates holds inner third
    cases eval : value.eval? env.bound σ site' with
    | none =>
      rw [eval] at evaluates
      obtain ⟨s', runs, stuck⟩ := evaluates
      exact ⟨s', pushed.trans runs, stuck⟩
    | some v =>
      rw [eval] at evaluates
      obtain ⟨kind, runs⟩ := evaluates
      obtain ⟨s', stored, standing⟩ :=
        (h.goto (s.pc + 1 + 1 + u.size + 1)).store known located address (type ▸ kind.ofType)
      have field : code[s.pc + 1 + 1 + u.size]? = some (.prim .fieldupd) := installed_prim.mp last
      refine ⟨s', pushed.trans (runs.trans (.step ?_)), ?_⟩
      · exact (exec_update rfl field).trans stored
      · simp only [Tree.size, List.length_singleton, ← Nat.add_assoc]
        exact standing

/-- Where the machine gets to if something comes of a part: after the part, or to a return. -/
def Arrives (env : Env) (F : Decl → Prop) (arity : Nat) (code : List Instruction) (scope : Scope)
    (slot exit : Nat) (s : State) : Outcome → Prop
  | .done σ => ∃ s', RunsTo code s s' ∧ Standing env (Visible F scope) arity slot σ s' exit
  | .returned v σ => ∃ s', RunsTo code s s' ∧ returned? code s' = some (v.map Value.word) ∧
      Holds env F σ s'

theorem Arrives.head {scope : Scope} {exit : Nat} {s' : State} {o : Outcome}
    (h : Arrives env F arity code scope slot exit s' o) (runs : RunsTo code s s') :
    Arrives env F arity code scope slot exit s o := by
  cases o with
  | done σ =>
    obtain ⟨t, runs', standing⟩ := h
    exact ⟨t, runs.trans runs', standing⟩
  | returned v σ =>
    obtain ⟨t, runs', returns⟩ := h
    exact ⟨t, runs.trans runs', returns⟩

/-- Code after which the same variables are in force goes on where it jumps to. -/
theorem Arrives.jump {scope scope' : Scope} {exit : Nat} {o : Outcome} {m : Nat}
    (h : Arrives env F arity code scope' slot m s o) (same : scope' = scope)
    (here : code[m]? = some { op := .jump, r := .cb, d := exit }) :
    Arrives env F arity code scope slot exit s o := by
  subst same
  cases o with
  | returned v σ => exact h
  | done σ =>
    obtain ⟨s', runs, after⟩ := h
    obtain rfl := after.pc
    exact ⟨_, runs.trans (.step (exec_jump here)), after.goto exit⟩

/-- The variables of the part's own scopes are not to be seen after it. -/
theorem Arrives.outer {scope scope' : Scope} {exit : Nat} {o : Outcome}
    (h : Arrives env F arity code scope' slot exit s o) (sub : ∀ q ∈ scope, q ∈ scope') :
    Arrives env F arity code scope slot exit s o := by
  cases o with
  | done σ =>
    obtain ⟨t, runs, standing⟩ := h
    have seen (d : Decl) (hd : Visible F scope d) : Visible F scope' d :=
      hd.imp_left fun ⟨q, hq, same⟩ => ⟨q, sub q hq, same⟩
    exact ⟨t, runs, standing.pc, standing.height, standing.below, standing.holds.sub seen,
      standing.frames.sub seen (Nat.le_refl _)⟩
  | returned v σ => exact h

theorem Stmt.mem_localsAfter {stmt : Stmt} {scope : Scope} {q : String × Decl} (h : q ∈ scope) :
    q ∈ stmt.localsAfter scope site := by
  cases stmt with
  | declare => exact List.mem_cons_of_mem _ h
  | block | assign | assignIndex | call | ret | ifThen | ifElse | loop | unknown => exact h

theorem returned_ret {n : Nat} (here : code[s.pc]? = some { op := .ret, n := 0, d := n }) :
    returned? code s = some none := by
  rw [returned?, here]
  rfl

theorem returned_retValue {n : Nat} {w : Int} {rest : List Int} (stack : s.stack = w :: rest)
    (here : code[s.pc]? = some { op := .ret, n := 1, d := n }) :
    returned? code s = some (some w) := by
  rw [returned?, here, stack]
  rfl

/-- The code of what comes to something is run to there. The induction is on how it comes to that,
so that each round of a loop has its hypothesis. -/
theorem Yields.runsTo {part : Part} {o : Outcome} (h : Yields env.bound part σ o) {scope : Scope}
    {exit : Nat} (ready : part.Ready env F scope slot)
    (stands : part.Stands env arity code slot entry exit n)
    (standing : Standing env (Visible F scope) arity slot σ s entry) :
    Arrives env F arity code (part.scopeAfter scope) (slot + n) exit s o := by
  induction h generalizing scope slot entry exit n s with
  | @block _ _ _ _ o _ ih =>
    obtain ⟨rfl, m, k, inList, last⟩ := stands_block stands
    have arrives := ih ready inList standing
    cases o with
    | returned v σ' => exact arrives
    | done σ' =>
      obtain ⟨s', runs, inside⟩ := arrives
      obtain ⟨rfl, rfl⟩ | ⟨pops, rfl⟩ := last
      · exact ⟨s', runs, inside⟩
      · obtain rfl := inside.pc
        have le : k ≤ s'.stack.length := by
          rw [inside.height]
          omega
        exact ⟨_, runs.trans (.step (exec_pop pops le)), inside.pop standing.frames _⟩
  | declare value =>
    obtain ⟨u, made, installed, rfl, rfl⟩ := stands_declare stands
    obtain ⟨k, type, has, located⟩ := ready
    have evaluates := standing.evaluates has made installed
    rw [value] at evaluates
    obtain rfl := standing.pc
    exact ⟨_, evaluates.2, standing.declare (q := (_, .var _ _)) located nofun
      (type ▸ evaluates.1.ofType) _⟩
  | assign denotes value =>
    obtain ⟨u, made, installed, rfl, rfl⟩ := stands_assign stands
    obtain ⟨d, k, denotes', known, type, has⟩ := ready
    cases denotes.symm.trans denotes'
    have assigns := standing.assigns denotes known type has made installed
    rw [value] at assigns
    exact assigns
  | ret =>
    obtain rfl := standing.pc
    exact ⟨s, .refl s, returned_ret (stands_ret stands), standing.holds.sub fun d => .inr⟩
  | retValue value =>
    obtain ⟨u, made, installed, last⟩ := stands_retValue stands
    obtain ⟨k, has⟩ := ready
    have evaluates := standing.evaluates has made installed
    rw [value] at evaluates
    obtain rfl := standing.pc
    exact ⟨_, evaluates.2, returned_retValue rfl last, (standing.holds.push _ _).sub fun d => .inr⟩
  | @thenTrue _ _ _ _ _ o test _ ih =>
    obtain ⟨u, m, made, installed, jumps, inside, last⟩ := stands_ifThen stands
    obtain ⟨has, none, readyBody⟩ := ready
    exact ((ih readyBody inside (standing.goto _)).head
      (standing.branches has made installed jumps test)).jump
        (Stmt.localsAfter_of_not_declaration none ..) last
  | thenFalse test =>
    obtain ⟨u, m, made, installed, jumps, inside, -⟩ := stands_ifThen stands
    obtain ⟨has, none, readyBody⟩ := ready
    obtain rfl := stands_branch inside none readyBody
    exact ⟨_, standing.branches has made installed jumps test, standing.goto _⟩
  | @elseTrue _ _ _ _ _ _ o test _ ih =>
    obtain ⟨u, m, i, j, made, installed, jumps, inside, last, inOther, rfl⟩ := stands_ifElse stands
    obtain ⟨has, ⟨none, readyBody⟩, none', readyOther⟩ := ready
    obtain rfl := stands_branch inside none readyBody
    obtain rfl := stands_branch inOther none' readyOther
    exact ((ih readyBody inside (standing.goto _)).head
      (standing.branches has made installed jumps test)).jump
        (Stmt.localsAfter_of_not_declaration none ..) last
  | @elseFalse _ _ _ _ _ _ o test _ ih =>
    obtain ⟨u, m, i, j, made, installed, jumps, inside, -, inOther, rfl⟩ := stands_ifElse stands
    obtain ⟨has, ⟨none, readyBody⟩, none', readyOther⟩ := ready
    obtain rfl := stands_branch inside none readyBody
    have arrives := (ih readyOther inOther (standing.goto _)).head
      (standing.branches has made installed jumps test)
    rw [Part.scopeAfter, Stmt.localsAfter_of_not_declaration none'] at arrives
    rwa [Nat.zero_add]
  | loop _ ih =>
    obtain ⟨m, jumps, inside⟩ := stands_loop stands
    obtain rfl := standing.pc
    exact (ih ready inside (standing.goto m)).head (.step (exec_jump jumps))
  | stop test =>
    obtain ⟨u, first, made, installed, jumps, rfl, inside⟩ := stands_test stands
    obtain ⟨has, none, readyBody⟩ := ready
    obtain rfl := stands_branch inside none readyBody
    exact ⟨_, standing.branches has made installed jumps test, standing.goto _⟩
  | again test _ _ ih ih' =>
    obtain ⟨u, first, made, installed, jumps, rfl, inside⟩ := stands_test stands
    have readyTest := ready
    obtain ⟨has, none, readyBody⟩ := ready
    obtain rfl := stands_branch inside none readyBody
    obtain ⟨s', runs, after⟩ := (ih readyBody inside (standing.goto _)).head
      (standing.branches has made installed jumps test)
    rw [Part.scopeAfter, Stmt.localsAfter_of_not_declaration none] at after
    exact (ih' readyTest stands after).head runs
  | leave test _ ih =>
    obtain ⟨u, first, made, installed, jumps, rfl, inside⟩ := stands_test stands
    obtain ⟨has, none, readyBody⟩ := ready
    exact (ih readyBody inside (standing.goto _)).head
      (standing.branches has made installed jumps test)
  | nil =>
    obtain ⟨t, made, -, rfl⟩ := stands
    cases made
    exact ⟨s, .refl s, standing⟩
  | cons _ _ ih ih' =>
    obtain ⟨m, i, j, here, later, rfl⟩ := stands_cons stands
    obtain ⟨readyFirst, readyRest⟩ := ready
    obtain ⟨s', runs, after⟩ := ih readyFirst here standing
    obtain ⟨t, made, -⟩ := here
    rw [← readyFirst.declared made] at readyRest
    rw [← Nat.add_assoc]
    exact ((ih' readyRest later after).head runs).outer fun q => Stmt.mem_localsAfter
  | consReturned _ ih =>
    obtain ⟨m, i, j, here, -⟩ := stands_cons stands
    exact ih ready.1 here standing

mutual

/-- Something comes of a statement whose code the machine gets through. -/
theorem yields_stmt (stmt : Stmt) {site : Site} {scope : Scope} {slot entry exit n steps : Nat}
    {σ : Store} {s : State} (ready : stmt.Ready env F scope slot site)
    (stands : (Part.stmt site stmt).Stands env arity code slot entry exit n)
    (standing : Standing env (Visible F scope) arity slot σ s entry) (halts : Halts code steps s) :
    ∃ o, Yields env.bound (.stmt site stmt) σ o := by
  match stmt with
  | .block stmts pos =>
    obtain ⟨-, m, k, inside, -⟩ := stands_block stands
    obtain ⟨o, inner⟩ := yields_stmts stmts ready inside standing halts
    exact ⟨o, .block inner⟩
  | .declare var init pos =>
    obtain ⟨u, made, installed, -⟩ := stands_declare stands
    obtain ⟨k, -, has, -⟩ := ready
    obtain ⟨v, value, -⟩ := standing.exists_eval has made installed halts
    exact ⟨_, .declare value⟩
  | .assign target value pos =>
    obtain ⟨u, made, installed, -⟩ := stands_assign stands
    obtain ⟨d, k, denotes, known, type, has⟩ := ready
    have assigns := standing.assigns denotes known type has made installed
    cases eval : value.eval? env.bound σ site.value with
    | some v => exact ⟨_, .assign denotes eval⟩
    | none =>
      rw [eval] at assigns
      obtain ⟨s', runs, stuck⟩ := assigns
      exact absurd halts (not_halts_of_stuck runs stuck)
  | .ret none pos => exact ⟨_, .ret⟩
  | .ret (some value) pos =>
    obtain ⟨u, made, installed, -⟩ := stands_retValue stands
    obtain ⟨k, has⟩ := ready
    obtain ⟨v, value, -⟩ := standing.exists_eval has made installed halts
    exact ⟨_, .retValue value⟩
  | .ifThen cond body pos =>
    obtain ⟨u, m, made, installed, jumps, inside, -⟩ := stands_ifThen stands
    obtain ⟨has, none, readyBody⟩ := ready
    obtain ⟨b, test, steps', fewer, later⟩ := standing.tests has made installed jumps halts
    cases b with
    | false => exact ⟨_, .thenFalse test⟩
    | true =>
      obtain ⟨o, inner⟩ := yields_stmt body readyBody inside (standing.goto _) later
      exact ⟨o, .thenTrue test inner⟩
  | .ifElse cond body other pos =>
    obtain ⟨u, m, i, j, made, installed, jumps, inside, -, inOther, rfl⟩ := stands_ifElse stands
    obtain ⟨has, ⟨none, readyBody⟩, none', readyOther⟩ := ready
    obtain ⟨b, test, steps', fewer, later⟩ := standing.tests has made installed jumps halts
    obtain rfl := stands_branch inside none readyBody
    cases b with
    | true =>
      obtain ⟨o, inner⟩ := yields_stmt body readyBody inside (standing.goto _) later
      exact ⟨o, .elseTrue test inner⟩
    | false =>
      obtain ⟨o, inner⟩ := yields_stmt other readyOther inOther (standing.goto _) later
      exact ⟨o, .elseFalse test inner⟩
  | .loop cond body pos =>
    obtain ⟨m, jumps, inside⟩ := stands_loop stands
    obtain rfl := standing.pc
    obtain ⟨steps', fewer, later⟩ := halts.next (exec_jump jumps)
    obtain ⟨o, inner⟩ := yields_test cond body ready inside (standing.goto m) later
    exact ⟨o, .loop inner⟩
  | .assignIndex .. | .call .. | .unknown .. => exact ready.elim
  termination_by (steps, sizeOf stmt)

/-- Something comes of a loop that the machine leaves: each round takes some of the steps. -/
theorem yields_test (cond : Expr) (body : Stmt) {site : Site} {scope : Scope}
    {slot entry exit n steps : Nat} {σ : Store} {s : State}
    (ready : (Part.test site cond body).Ready env F scope slot)
    (stands : (Part.test site cond body).Stands env arity code slot entry exit n)
    (standing : Standing env (Visible F scope) arity slot σ s entry) (halts : Halts code steps s) :
    ∃ o, Yields env.bound (.test site cond body) σ o := by
  obtain ⟨u, first, made, installed, jumps, rfl, inside⟩ := stands_test stands
  obtain ⟨has, none, readyBody⟩ := ready
  obtain ⟨b, test, steps', fewer, later⟩ := standing.tests has made installed jumps halts
  obtain rfl := stands_branch inside none readyBody
  cases b with
  | false => exact ⟨_, .stop test⟩
  | true =>
    obtain ⟨o, inner⟩ := yields_stmt body readyBody inside (standing.goto _) later
    cases o with
    | returned v σ' => exact ⟨_, .leave test inner⟩
    | done σ' =>
      obtain ⟨s', runs, after⟩ := inner.runsTo readyBody inside (standing.goto _)
      rw [Part.scopeAfter, Stmt.localsAfter_of_not_declaration none] at after
      obtain ⟨o, more⟩ :=
        yields_test cond body ⟨has, none, readyBody⟩ stands after (later.after runs)
      exact ⟨o, .again test inner more⟩
  termination_by (steps, sizeOf body + 1)

/-- Something comes of statements whose code the machine gets through. -/
theorem yields_stmts (stmts : List Stmt) {sites : Nat → Site} {k : Nat} {scope : Scope}
    {slot entry exit n steps : Nat} {σ : Store} {s : State}
    (ready : Stmt.AllReady env F scope slot sites k stmts)
    (stands : (Part.stmts sites k stmts).Stands env arity code slot entry exit n)
    (standing : Standing env (Visible F scope) arity slot σ s entry) (halts : Halts code steps s) :
    ∃ o, Yields env.bound (.stmts sites k stmts) σ o := by
  match stmts with
  | [] => exact ⟨_, .nil⟩
  | stmt :: rest =>
    obtain ⟨m, i, j, here, there, rfl⟩ := stands_cons stands
    obtain ⟨readyFirst, readyRest⟩ := ready
    obtain ⟨o, first⟩ := yields_stmt stmt readyFirst here standing halts
    cases o with
    | returned v σ' => exact ⟨_, .consReturned first⟩
    | done σ' =>
      obtain ⟨s', runs, after⟩ := first.runsTo readyFirst here standing
      obtain ⟨t, made, -⟩ := here
      rw [← readyFirst.declared made] at readyRest
      obtain ⟨o, more⟩ := yields_stmts rest readyRest there after (halts.after runs)
      exact ⟨o, .cons first more⟩
  termination_by (steps, sizeOf stmts)

end

/-- The word of a variable. -/
def Machine.State.wordOf? (s : State) (env : Env) (d : Decl) : Option Int :=
  (locationOf env d).toOption.bind s.wordAt?

theorem wordOf_eq {d : Decl} {l : Location} (located : locationOf env d = .ok l) :
    s.wordOf? env d = s.wordAt? l := by
  rw [wordOf?, located]
  rfl

/-- The code of statements that always return is run to a return exactly if they come to one. -/
theorem returns_iff_yields {stmts : List Stmt} {sites : Nat → Site} {j : Nat} {scope : Scope}
    {exit : Nat} (ready : Stmt.AllReady env F scope slot sites j stmts)
    (stands : (Part.stmts sites j stmts).Stands env arity code slot entry exit n)
    (standing : Standing env (Visible F scope) arity slot σ s entry)
    (returns : ∀ o, Yields env.bound (.stmts sites j stmts) σ o → ∃ w σ', o = .returned w σ')
    (v : Option Int) (contents : Decl → Int) :
    (∃ s', RunsTo code s s' ∧ returned? code s' = some v ∧
      ∀ d, F d → s'.wordOf? env d = some (contents d)) ↔
    ∃ w σ', Yields env.bound (.stmts sites j stmts) σ (.returned w σ') ∧ w.map Value.word = v ∧
      ∀ d, F d → (σ' d).word = contents d := by
  constructor
  · rintro ⟨s', runs, ends, same⟩
    have ended : (returned? code s').isSome := by rw [ends]; rfl
    obtain ⟨steps, run⟩ := runs
    have halts : Halts code steps s := ⟨steps, Nat.le_refl _, s', run, ended⟩
    obtain ⟨o, yields⟩ := yields_stmts stmts ready stands standing halts
    obtain ⟨w, σ', rfl⟩ := returns o yields
    obtain ⟨s'', runs', ends', holds⟩ := yields.runsTo ready stands standing
    obtain rfl := eq_of_returned ⟨steps, run⟩ runs' ended (by rw [ends']; rfl)
    refine ⟨w, σ', yields, Option.some.inj (ends'.symm.trans ends), fun d hd => ?_⟩
    obtain ⟨l, located, -, word, -⟩ := holds d hd
    exact Option.some.inj (word.symm.trans ((wordOf_eq located).symm.trans (same d hd)))
  · rintro ⟨w, σ', yields, rfl, same⟩
    obtain ⟨s', runs, ends, holds⟩ := yields.runsTo ready stands standing
    refine ⟨s', runs, ends, fun d hd => ?_⟩
    obtain ⟨l, located, -, word, -⟩ := holds d hd
    rw [wordOf_eq located, word, same d hd]

end Runs

end JamCompiler
