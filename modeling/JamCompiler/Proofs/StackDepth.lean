import JamCompiler.Proofs.ControlFlow
import JamCompiler.Proofs.Emission.Calls
import JamCompiler.Proofs.Emission.Effects

/-!
# Stack depths

Each address in the code of a method has its depth of the stack: on all ways there are as many words
above the start of the frame, no instruction takes words below the linkage and the locals in force,
and every statement begins where the next local gets its slot. This holds of every method in which
only values are compared; two calls without results can be compared as well, and then words are
taken that nothing has left.
-/

namespace JamCompiler

open Machine Emission Generation Typing

/-- The method whose code begins at an address. -/
def Compilation.callee? (c : Compilation) (p : Program) : Int → Option MethodHead
  | .ofNat a => (p.sitedMethods.find? fun s => c.locations.get? s.1 = some (.code a)).map (·.2.head)
  | .negSucc _ => none

namespace Emission

/-- No two methods have one address if all have code. -/
theorem MadeOf.injective {env : Env} {base : Nat} {methods : List (Site × MethodDecl)} {code : Code}
    (h : MadeOf env base methods code)
    (pos : ∀ s ∈ methods, ∀ t, s.2.tree env s.1 = .ok t → 0 < t.size) {s s' : Site × MethodDecl}
    (hs : s ∈ methods) (hs' : s' ∈ methods)
    (same : env.located s.1 = env.located s'.1) : s = s' := by
  induction methods generalizing base code with
  | nil => cases hs
  | cons first rest ih =>
    obtain ⟨t, more, made, here, -, later⟩ := h
    have size := pos first List.mem_cons_self t made
    have apart {s : Site × MethodDecl} (hs : s ∈ rest) : env.located s.1 ≠ some (.code base) := by
      obtain ⟨a, found, le⟩ := later.located_le hs
      rw [found]
      intro same
      cases same
      omega
    rcases List.mem_cons.mp hs with rfl | inRest
    · rcases List.mem_cons.mp hs' with rfl | inRest'
      · rfl
      · exact absurd (same.symm.trans here) (apart inRest')
    · rcases List.mem_cons.mp hs' with rfl | inRest'
      · exact absurd (same.trans here) (apart inRest)
      · exact ih later (fun s hs => pos s (List.mem_cons_of_mem _ hs)) inRest inRest'

end Emission

variable {p : Program} {c : Compilation} {o : ObjectCode}

/-- The method at the address of a method is this one. -/
theorem Accepted.callee_eq (h : Accepted p c o) {site : Site} {m : MethodDecl} {a : Nat}
    (hm : (site, m) ∈ p.sitedMethods) (located : c.locations.get? site = some (.code a)) :
    c.callee? p a = some m.head := by
  obtain ⟨main, code, generated⟩ := h.generated
  have pos : ∀ s ∈ c.program.sitedMethods, ∀ t, s.2.tree c.env s.1 = .ok t → 0 < t.size := by
    rintro ⟨site, m'⟩ hm' t made
    obtain ⟨m, -, returning⟩ := generated.original hm'
    exact size_pos_of_returning returning made
  have same : ∀ s ∈ p.sitedMethods, c.locations.get? s.1 = some (.code a) → s.2.head = m.head := by
    rintro ⟨site', n⟩ hn located'
    obtain ⟨m', hm', returning⟩ := generated.returned hm
    obtain ⟨n', hn', returning'⟩ := generated.returned hn
    cases generated.methods.injective pos hm' hn' (located.trans located'.symm)
    exact (MethodDecl.head_of_returning returning').symm.trans
      (MethodDecl.head_of_returning returning)
  change (p.sitedMethods.find? fun s => decide (c.locations.get? s.1 = some (.code a))).map
    (fun s => s.2.head) = some m.head
  cases found : p.sitedMethods.find? fun s => decide (c.locations.get? s.1 = some (.code a)) with
  | none =>
    have none := List.find?_eq_none.mp found _ hm
    simp [located] at none
  | some s =>
    have here := List.find?_some found
    rw [Option.map_some, same s (List.mem_of_find?_eq_some found) (of_decide_eq_true here)]

/-- The addresses that control gets to from the beginning of a method. -/
inductive Compilation.Reached (c : Compilation) (o : ObjectCode) (site : Site) : Nat → Prop
  | start {a : Nat} (located : c.locations.get? site = some (.code a)) : Reached c o site a
  | next {a x : Nat} {i : Instruction} (before : Reached c o site a) (hi : o.code[a]? = some i)
      (leads : i.LeadsTo a x) : Reached c o site x

/-- Whether depths are right for the addresses that control gets to in a method: it begins with the
linkage, every instruction finds what it takes above the linkage, and leaves what it should to all
that come next, which are in the method. -/
structure Compilation.Disciplined (c : Compilation) (p : Program) (o : ObjectCode) (site : Site)
    (depth : Nat → Nat) : Prop where
  start : ∀ a, c.locations.get? site = some (.code a) → depth a = linkageSize
  steps : ∀ a, c.Reached o site a → c.InCode o site a ∧
    ∃ i pops pushes, o.code[a]? = some i ∧ i.effect? (c.callee? p) = some (pops, pushes) ∧
      linkageSize + pops ≤ depth a ∧ ∀ x, i.LeadsTo a x → depth x + pops = depth a + pushes

namespace Emission

/-- An instruction has the effect of its item. -/
theorem effect_of_linked {item : Item} {i : Instruction} (h : Accepted p c o)
    (linked : Linked c.env item i) (calling : Calling p item) {effect : Nat × Nat}
    (known : item.effect? = some effect) : i.effect? (c.callee? p) = some effect := by
  cases item with
  | instr j =>
    cases linked
    rw [← known, Item.effect?]
    unfold Instruction.effect?
    split <;> first
      | rfl
      | (rename_i op r; exact absurd ⟨by simp [op], r⟩ calling)
  | call receiver method =>
    obtain ⟨⟨site, m⟩, hm, rfl, rfl⟩ := calling
    obtain ⟨site', a, home, located, rfl⟩ := linked
    cases home
    cases known
    have callee := h.callee_eq hm located
    unfold Instruction.effect?
    cases m.head.isStatic <;> simp only [Bool.not_true, Bool.not_false, if_true, if_false,
      Bool.false_eq_true, callee] <;> rfl

end Emission

namespace Program

variable {bound : Site → Option Decl}

/-- Where a value is used in a program that has passed all checks, it has the type of one. -/
theorem Checked.firm (h : p.Checked bound) {u : Use} (hu : u ∈ p.uses) (written : u.Written) :
    u.Firm bound := by
  cases u with
  | declare | foreign => trivial
  | type site t => exact TypeExpr.Written.view_proper written _ _
  | branch body =>
    obtain ⟨⟨cls, c⟩, hc, hu⟩ := List.mem_flatMap.mp hu
    obtain ⟨k, hk, rfl⟩ := mem_sitedClasses.mp hc
    exact h.resolvable.ok k c hk _ hu
  | ref ctx locals site r =>
    exact (h.settled.sound h.resolvable h.written hu (l := (site, r))
      (List.mem_singleton_self _)).value
  | callee ctx locals site r =>
    intro home head found q hq
    have sound := h.settled.sound h.resolvable h.written hu (l := (site, r))
      (List.mem_singleton_self _)
    obtain ⟨k, hk⟩ := List.mem_iff_getElem?.mp hq
    simp only [MethodHead.paramTypes, List.getElem?_mapIdx, Option.map_eq_some_iff] at hk
    obtain ⟨prm, there, rfl⟩ := hk
    rcases sound.method home head found with println | ⟨⟨method, m⟩, hm, rfl, rfl⟩
    · cases println
      cases List.mem_singleton.mp (List.mem_of_getElem? there)
      trivial
    · obtain ⟨j, cls, hj, hc⟩ := mem_sitedMethods.mp hm
      have types := (h.written cls (List.mem_of_getElem? hj)).methods m
        (ClassDecl.mem_of_mem_sitedMethods hc)
      exact (types.params prm (List.mem_of_getElem? there)).view_proper _ _

/-- The code of a method in which only values are compared takes nothing from below its locals. -/
theorem Checked.takes {env : Env} (h : p.Checked env.bound) {site : Site} {m m' : MethodDecl}
    {t : Tree} (hm : (site, m) ∈ p.sitedMethods) (returning : m.returning = .ok m')
    (made : m'.tree env site = .ok t) (compares : m.ComparesValues env.bound site) :
    ∃ d, t.Takes linkageSize linkageSize d := by
  obtain ⟨k, cls, hk, hc, uses⟩ := exists_bodyUses_subset hm
  have types := (h.written cls (List.mem_of_getElem? hk)).methods m
    (ClassDecl.mem_of_mem_sitedMethods hc)
  obtain ⟨head, -, result, typed⟩ := MethodDecl.wellTyped_of_returning (h.typed _ hm) returning
  have firm : ∀ u ∈ m.bodyUses (cls.ref (.classAt k)) site, u.Firm env.bound :=
    fun u hu => h.firm (uses hu) (Stmt.written_usesFrom m.body types.body u hu)
  rw [← MethodDecl.uses_of_returning returning] at firm
  have proper : head.result.viewAt env.bound (.user site) ≠ .base .void →
      (head.result.viewAt env.bound (.user site)).Proper := by
    intro value
    have notVoid : ¬ head.result.isVoid :=
      fun void => value ((TypeExpr.viewAt_eq_void _ _ _).mpr void)
    have same := result.resolve_right notVoid
    have written := types.result.resolve_right fun void => notVoid (same ▸ void)
    exact TypeExpr.Written.view_proper (same ▸ written) _ _
  have compares' : Stmt.AllCompareValues env.bound site.body 0 m'.body := by
    rcases MethodDecl.body_of_returning returning with ⟨same, -⟩ | ⟨⟨pos, body⟩, -⟩
    · rw [same]
      exact compares
    · rw [body]
      exact Stmt.allCompareValues_append_ret compares
  obtain ⟨t, inner, rfl⟩ := map_eq_ok.mp made
  exact ⟨_, (declares_trees ⟨env.bound, .user site, head⟩ linkageSize site.body 0 m'.body rfl proper
    firm typed compares').holds inner linkageSize (Nat.le_refl _)⟩

end Program

section Code

variable {site : Site} {m : MethodDecl}

/-- A method in which only values are compared has depths that are right, in its code and for the
statements and expressions that it is made of. -/
theorem Accepted.disciplined (h : Accepted p c o) (hm : (site, m) ∈ p.sitedMethods)
    (compares : m.ComparesValues c.bindings.get? site) :
    ∃ depth m' t start, c.Disciplined p o site depth ∧ MethodCode c o site m m' t start ∧
      t.Keeps depth linkageSize start := by
  obtain ⟨m', t, start, code⟩ := h.methodCode hm
  have ordinary := h.ordinary hm code.returning code.tree
  have checked : p.Checked c.env.bound := h.toChecked
  obtain ⟨d, takes⟩ := checked.takes hm code.returning code.tree compares
  obtain ⟨depth, first, -, keeps⟩ :=
    takes.keeps (ordinary.imp fun _ => Tree.onward_of_ordinary) start
  obtain ⟨u, words, size, all, ends⟩ := code_of_returning code.returning code.tree
  have returns : Returning t := ⟨u, _, _, words, _, _, all _ ordinary, size, ends⟩
  have inside : ∀ a, c.Reached o site a → start ≤ a ∧ a < start + t.size := by
    intro a reached
    induction reached with
    | start located =>
      cases code.located.symm.trans located
      exact ⟨Nat.le_refl _, by omega⟩
    | next _ hi leads ih =>
      obtain ⟨item, found, linked⟩ := code.item ((code.inCode _).mpr ih) hi
      rcases returns.stays ⟨ih.1, found⟩ with ⟨_, _, rfl⟩ | stays
      · cases linked
        exact leads.elim
      · have bounds := stays.stays _ ((linked_leadsTo linked).mp leads)
        omega
  refine ⟨depth, m', t, start, ⟨fun a located => ?_, fun a reached => ?_⟩, code, keeps⟩
  · cases code.located.symm.trans located
    exact first
  · have within := inside a reached
    have short : a - start < (t.code start).length := by
      rw [Tree.length_code]
      omega
    have found := List.getElem?_eq_getElem short
    generalize (t.code start)[a - start] = item at found
    obtain ⟨i, hi, linked⟩ := code.linked _ item found
    rw [Nat.add_sub_cancel' within.1] at hi
    obtain ⟨pops, pushes, effect, enough, leads⟩ := keeps.step ⟨within.1, found⟩
    have calling : Calling p item := by
      rcases ordinary.code start item (List.mem_of_getElem? found) with ordinary | formal
      · exact calling_ordinary ordinary
      · exact calling_formal formal
    exact ⟨(code.inCode a).mpr within, i, pops, pushes, hi,
      effect_of_linked h linked calling effect,
      enough, fun x next => leads x ((linked_leadsTo linked).mp next)⟩

end Code

/-- In a text that compiles, every method in which only values are compared has depths of the stack
that are right at all addresses that control gets to, and for all statements and expressions in
it. -/
theorem stack_disciplined_unless_void_compared {text : List Char} {failFast : Bool}
    {r : CompileResult} (compiled : compile text failFast = .ok r) (ok : r.status = .success) :
    ∃ p c o, Program.ofText? text = .ok p ∧ r.compilation = some c ∧ r.object = some o ∧
      ∀ s ∈ p.sitedMethods, s.2.ComparesValues c.bindings.get? s.1 →
        ∃ depth m' t start, c.Disciplined p o s.1 depth ∧ MethodCode c o s.1 s.2 m' t start ∧
          t.Keeps depth linkageSize start := by
  obtain ⟨p, c, o, parsed, compilation, object, accepted⟩ := accepted_of_compile compiled ok
  exact ⟨p, c, o, parsed, compilation, object, fun s hs => accepted.disciplined hs⟩

/-- Two methods compare: one of them values, the other what calls without results do not leave. -/
def comparingText : List Char :=
  ("class A \x7b int g(int n) \x7b while (n > 0 && n != 7) \x7b int k = n; n = k - 1; \x7d " ++
    "if (n == g(n)) A.f(); else \x7b int k = -n; \x7d return n; \x7d static void f() \x7b \x7d " ++
    "public static void main(String[] a) \x7b boolean b = f() == f(); \x7d \x7d").toList

/-- The first instructions of a method with what they take and leave. -/
def Compilation.firstEffects (c : Compilation) (p : Program) (o : ObjectCode) (site : Site)
    (n : Nat) : List (Option (Opcode × Nat × Nat)) :=
  match c.locations.get? site with
  | some (.code a) => ((o.code.drop a).take n).map fun i => (i.effect? (c.callee? p)).map (i.op, ·)
  | _ => []

theorem Compilation.exists_of_firstEffects {site : Site} {n : Nat}
    {effects : List (Option (Opcode × Nat × Nat))} (known : c.firstEffects p o site n = effects)
    (k : Nat) {op : Opcode} {effect : Nat × Nat} (h : effects[k]? = some (some (op, effect))) :
    ∃ a i, c.locations.get? site = some (.code a) ∧ o.code[a + k]? = some i ∧ i.op = op ∧
      i.effect? (c.callee? p) = some effect := by
  subst known
  unfold firstEffects at h
  split at h
  · rename_i a located
    obtain ⟨i, hi, known⟩ := Option.map_eq_some_iff.mp (List.getElem?_map ▸ h)
    obtain ⟨known, found, same⟩ := Option.map_eq_some_iff.mp known
    cases same
    rw [List.getElem?_take] at hi
    split at hi
    · exact ⟨a, i, located, List.getElem?_drop ▸ hi, rfl, found⟩
    · cases hi
  · cases h

theorem comparingText_accepted : ∃ r, compile comparingText false = .ok r ∧ r.status = .success ∧
    ∃ p c o, Program.ofText? comparingText = .ok p ∧ r.compilation = some c ∧ r.object = some o ∧
      (∃ s ∈ p.sitedMethods, s.2.ComparesValues c.bindings.get? s.1 ∧ s.2.body.length = 3) ∧
      ∃ s ∈ p.sitedMethods, c.firstEffects p o s.1 3 =
        [some (Opcode.call, 0, 0), some (Opcode.call, 0, 0), some (Opcode.call, 2, 1)] := by
  obtain ⟨r, compiled, success, p, c, o, parsed, compilation, object, known⟩ :=
    exists_compiled_of_any comparingText
      (P := fun p c o =>
        (p.sitedMethods.any fun s =>
          s.2.ComparesValues c.bindings.get? s.1 && s.2.body.length = 3) &&
          p.sitedMethods.any fun s => c.firstEffects p o s.1 3 =
            [some (Opcode.call, 0, 0), some (Opcode.call, 0, 0), some (Opcode.call, 2, 1)])
      (by decide +kernel)
  simp only [Bool.and_eq_true, decide_eq_true_eq, List.any_eq_true] at known
  exact ⟨r, compiled, success, p, c, o, parsed, compilation, object, known⟩

/-- There are no depths that are right for the method that compares what is not there. -/
theorem comparingText_undisciplined :
    ∃ r, compile comparingText false = .ok r ∧ r.status = .success ∧
    ∃ p c o, Program.ofText? comparingText = .ok p ∧ r.compilation = some c ∧ r.object = some o ∧
      ∃ s ∈ p.sitedMethods, ¬ ∃ depth, c.Disciplined p o s.1 depth := by
  obtain ⟨r, compiled, ok, p, c, o, parsed, compilation, object, -, s, hs, effects⟩ :=
    comparingText_accepted
  refine ⟨r, compiled, ok, p, c, o, parsed, compilation, object, s, hs, ?_⟩
  rintro ⟨depth, disciplined⟩
  obtain ⟨a, first, located, here, call, effect⟩ := Compilation.exists_of_firstEffects effects 0 rfl
  obtain ⟨_, second, located', here', call', effect'⟩ :=
    Compilation.exists_of_firstEffects effects 1 rfl
  cases located.symm.trans located'
  obtain ⟨_, third, located', here'', -, effect''⟩ :=
    Compilation.exists_of_firstEffects effects 2 rfl
  cases located.symm.trans located'
  have next {i : Instruction} (call : i.op = .call) (a : Nat) : i.LeadsTo a (a + 1) := by
    rw [Instruction.LeadsTo, call]
  have reached : c.Reached o s.1 a := .start located
  have reached' := reached.next here (next call a)
  have reached'' := reached'.next here' (next call' _)
  obtain ⟨-, i, pops, pushes, hi, known, -, leads⟩ := disciplined.steps _ reached
  cases here.symm.trans hi
  cases effect.symm.trans known
  have depth₁ := leads _ (next call a)
  obtain ⟨-, i, pops, pushes, hi, known, -, leads⟩ := disciplined.steps _ reached'
  cases here'.symm.trans hi
  cases effect'.symm.trans known
  have depth₂ := leads _ (next call' _)
  obtain ⟨-, i, pops, pushes, hi, known, enough, -⟩ := disciplined.steps _ reached''
  cases here''.symm.trans hi
  cases effect''.symm.trans known
  have start := disciplined.start a located
  omega

/-- The other one has depths that are right. -/
theorem comparingText_disciplined : ∃ r, compile comparingText false = .ok r ∧ r.status = .success ∧
    ∃ p c o, Program.ofText? comparingText = .ok p ∧ r.compilation = some c ∧ r.object = some o ∧
      ∃ s ∈ p.sitedMethods, s.2.body.length = 3 ∧
        ∃ depth m' t start, c.Disciplined p o s.1 depth ∧ MethodCode c o s.1 s.2 m' t start ∧
          t.Keeps depth linkageSize start := by
  obtain ⟨r, compiled, ok, p, c, o, parsed, compilation, object, ⟨s, hs, compares, body⟩, -⟩ :=
    comparingText_accepted
  obtain ⟨p', c', o', parsed', compilation', object', disciplined⟩ :=
    stack_disciplined_unless_void_compared compiled ok
  cases parsed.symm.trans parsed'
  cases compilation.symm.trans compilation'
  cases object.symm.trans object'
  exact ⟨r, compiled, ok, p, c, o, parsed, compilation, object, s, hs, body,
    disciplined s hs compares⟩

end JamCompiler
