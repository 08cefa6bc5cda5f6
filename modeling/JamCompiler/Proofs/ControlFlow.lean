import JamCompiler.Proofs.Emission.Control
import JamCompiler.Proofs.Emission.Ranges

/-!
# Control flow

The object code after the prelude is the code of the methods, one after the other, and control does
not get from the code of one method into that of another but by a call or a return. A jump to the
end of a statement can go one past all the code there is when the jump is made; it stays within the
method since every body is made to end with a return.
-/

namespace JamCompiler

open Machine Emission Generation

/-- Code that stands from an address on and which control does not leave but by calls and returns:
it ends with a return, control goes on from every other instruction, and only within the code. -/
structure Machine.Closed (start : Nat) (range : List Instruction) : Prop where
  ending : ∃ (front : List Instruction) (i : Instruction), range = front ++ [i] ∧ i.op = .ret
  goes : ∀ (k : Nat) (i : Instruction), range[k]? = some i →
    i.op = .ret ∨ ∃ x, i.LeadsTo (start + k) x
  stays : ∀ (k : Nat) (i : Instruction), range[k]? = some i → ∀ x, i.LeadsTo (start + k) x →
    start ≤ x ∧ x < start + range.length
  jumps : ∀ i ∈ range, ∀ d, i.target? = some d →
    ∃ x : Nat, d = x ∧ start ≤ x ∧ x < start + range.length

/-- Ranges of code that stand one after the other from an address on, each at the address at which
what has a site lives, and each closed. -/
def Laid (located : Site → Option Location) : Nat → List Site → List (List Instruction) → Prop
  | _, [], [] => True
  | a, site :: sites, range :: ranges =>
    located site = some (.code a) ∧ Closed a range ∧ Laid located (a + range.length) sites ranges
  | _, _, _ => False

/-- What is related to a list of two parts has two such parts itself. -/
theorem forall₂_append_split {α β : Type} {R : α → β → Prop} {as as' : List α} {bs : List β}
    (h : List.Forall₂ R (as ++ as') bs) :
    ∃ front back, bs = front ++ back ∧ List.Forall₂ R as front ∧ List.Forall₂ R as' back :=
  ⟨bs.take as.length, bs.drop as.length, (List.take_append_drop _ _).symm,
    (List.forall₂_take_append _ _ _ h.flip).flip, (List.forall₂_drop_append _ _ _ h.flip).flip⟩

namespace Emission

/-- A tree whose code consists of ordinary items and ends with a return. -/
def Returning (t : Tree) : Prop :=
  ∃ (u : Tree) (Q : Home → MethodHead → Prop) (words words' : Int) (arity arity' : Nat),
    u.All (Ordinary Q words arity) ∧ t.size = u.size + 1 ∧
      ∀ base, t.code base = u.code base ++ [returnOf words' arity']

variable {env : Env} {t : Tree} {start : Nat} {range : List Instruction}

theorem linked_target {item : Item} {i : Instruction} (h : Linked env item i) :
    i.target? = item.target? := by
  cases item with
  | instr j =>
    cases h
    rfl
  | call receiver method =>
    obtain ⟨_, _, -, -, rfl⟩ := h
    cases receiver <;> rfl

/-- Linking an item changes nothing about where control goes from it. -/
theorem linked_leadsTo {item : Item} {i : Instruction} (h : Linked env item i) {a x : Nat} :
    i.LeadsTo a x ↔ item.LeadsTo a x := by
  cases item with
  | instr j =>
    cases h
    exact Iff.rfl
  | call receiver method =>
    obtain ⟨_, _, -, -, rfl⟩ := h
    cases receiver <;> exact Iff.rfl

/-- Each item of such code is a return, or control stays before the return at its end. -/
theorem Returning.stays (h : Returning t) {a : Nat} {item : Item}
    (found : At (t.code start) start a item) :
    (∃ words arity, item = returnOf words arity) ∨ Stays start (start + (t.size - 1)) a item := by
  obtain ⟨u, Q, words, words', arity, arity', all, size, code⟩ := h
  rw [code, at_append] at found
  rcases found with found | found
  · exact (Tree.stays all found).imp_right fun stays => stays.mono (Nat.le_refl _) (by omega)
  · exact .inl ⟨_, _, (at_singleton.mp found).2⟩

theorem Returning.cases (h : Returning t)
    (linked : List.Forall₂ (Linked env) (t.code start) range) {k : Nat} {i : Instruction}
    (hi : range[k]? = some i) : i.op = .ret ∨ ∃ item, Linked env item i ∧
      Stays start (start + (t.size - 1)) (start + k) item := by
  obtain ⟨item, hk, both⟩ := forall₂_getElem? linked.flip k hi
  rcases h.stays ⟨Nat.le_add_right _ _, by rw [Nat.add_sub_cancel_left]; exact hk⟩ with
    ⟨_, _, rfl⟩ | stays
  · cases both
    exact .inl rfl
  · exact .inr ⟨item, both, stays⟩

theorem Returning.closed (h : Returning t)
    (linked : List.Forall₂ (Linked env) (t.code start) range) : Closed start range := by
  have length : range.length = t.size := by rw [← linked.length_eq, Tree.length_code]
  have pos : 0 < t.size := by
    obtain ⟨u, _, _, _, _, _, -, size, -⟩ := h
    omega
  constructor
  · obtain ⟨u, _, _, words, _, arity, -, -, code⟩ := h
    rw [code] at linked
    obtain ⟨front, back, rfl, -, ending⟩ := forall₂_append_split linked
    cases ending with
    | cons last rest =>
      cases rest
      cases last
      exact ⟨front, _, rfl, rfl⟩
  · intro k i hi
    rcases h.cases linked hi with ret | ⟨item, both, stays⟩
    · exact .inl ret
    · obtain ⟨x, leads⟩ := stays.goes
      exact .inr ⟨x, (linked_leadsTo both).mpr leads⟩
  · intro k i hi x leads
    rcases h.cases linked hi with ret | ⟨item, both, stays⟩
    · simp [Instruction.LeadsTo, ret] at leads
    · have bounds := stays.stays x ((linked_leadsTo both).mp leads)
      omega
  · intro i hi d jumps
    obtain ⟨k, hk⟩ := List.mem_iff_getElem?.mp hi
    rcases h.cases linked hk with ret | ⟨item, both, stays⟩
    · simp [Instruction.target?, ret] at jumps
    · obtain ⟨x, rfl, bounds⟩ := stays.target d ((linked_target both).symm.trans jumps)
      exact ⟨x, rfl, by omega⟩

/-- The code of methods that return is laid out one after the other. -/
theorem MadeOf.laid {methods : List (Site × MethodDecl)} {base : Nat} {code : Code}
    {body : List Instruction} (h : MadeOf env base methods code)
    (returning : ∀ s ∈ methods, ∀ t, s.2.tree env s.1 = .ok t → Returning t)
    (linked : List.Forall₂ (Linked env) code body) :
    ∃ ranges, Laid env.located base (methods.map Prod.fst) ranges ∧ body = ranges.flatten := by
  induction methods generalizing base code body with
  | nil =>
    cases h
    cases linked
    exact ⟨[], trivial, rfl⟩
  | cons s rest ih =>
    obtain ⟨t, more, made, here, rfl, later⟩ := h
    obtain ⟨range, back, rfl, linkedHere, linkedLater⟩ := forall₂_append_split linked
    obtain ⟨ranges, laid, rfl⟩ :=
      ih later (fun s hs => returning s (List.mem_cons_of_mem _ hs)) linkedLater
    have closed := (returning s List.mem_cons_self t made).closed linkedHere
    refine ⟨range :: ranges, ⟨here, closed, ?_⟩, rfl⟩
    rwa [← linkedHere.length_eq, Tree.length_code]

end Emission

namespace Generation

variable {p p' : Program} {env : Env} {main : Site × MethodHead} {code : Code} {o : ObjectCode}

/-- Adding returns moves no method. -/
theorem Generated.sites (h : Generated p p' env main code o) :
    p'.sitedMethods.map Prod.fst = p.sitedMethods.map Prod.fst := by
  rw [← List.forall₂_eq_eq_eq]
  refine List.forall₂_map_left_iff.mpr (List.forall₂_map_right_iff.mpr ?_)
  exact (forall₂_sitedMethods h.returning).flip.imp fun _ _ both => both.1

end Generation

section Code

variable {p : Program} {c : Compilation} {o : ObjectCode}

theorem Accepted.laid (h : Accepted p c o) :
    ∃ ranges, Laid c.locations.get? codeStart (p.sitedMethods.map Prod.fst) ranges ∧
      o.code.drop codeStart = ranges.flatten ∧ ∀ i ∈ o.code.take codeStart, i.target? = none := by
  obtain ⟨main, code, generated⟩ := h.generated
  obtain ⟨body, linked, whole⟩ := generated.linked
  have returning : ∀ s ∈ c.program.sitedMethods, ∀ t, s.2.tree c.env s.1 = .ok t →
      Returning t := by
    rintro ⟨site, m'⟩ hm' t made
    obtain ⟨m, hm, returning⟩ := generated.original hm'
    obtain ⟨u, words, size, all, code⟩ := code_of_returning returning made
    exact ⟨u, _, _, words, _, _, all _ (h.ordinary hm returning made), size, code⟩
  obtain ⟨ranges, laid, rfl⟩ := generated.methods.laid returning linked
  rw [generated.sites] at laid
  refine ⟨ranges, laid, by rw [whole]; rfl, ?_⟩
  rw [whole]
  simp [prelude, codeStart, Instruction.target?, Instruction.literal, Instruction.prim]

end Code

/-- In a text that compiles, the code after the prelude is laid out in ranges, one for each method,
which control leaves only by calls and returns; no jump is elsewhere. -/
theorem control_stays_in_methods {text : List Char} {failFast : Bool} {r : CompileResult}
    (compiled : compile text failFast = .ok r) (ok : r.status = .success) :
    ∃ p c o, Program.ofText? text = .ok p ∧ r.compilation = some c ∧ r.object = some o ∧
      ∃ ranges, Laid c.locations.get? codeStart (p.sitedMethods.map Prod.fst) ranges ∧
        o.code.drop codeStart = ranges.flatten ∧
        ∀ i ∈ o.code.take codeStart, i.target? = none := by
  obtain ⟨p, c, o, parsed, compilation, object, accepted⟩ := accepted_of_compile compiled ok
  exact ⟨p, c, o, parsed, compilation, object, accepted.laid⟩

/-- Jumps over jumps, the last of them to the return that is added. -/
def branchingText : List Char :=
  ("class A \x7b static int f(int n) \x7b while (n > 0 && n != 7) \x7b if (n > 3) n = n - 2; " ++
    "else n = n - 1; \x7d return n; \x7d " ++
    "public static void main(String[] a) " ++
    "\x7b if (f(9) < 1 || a == null) \x7b \x7d \x7d \x7d").toList

theorem branchingText_stays : ∃ r, compile branchingText false = .ok r ∧ r.status = .success ∧
    ∃ p c o, Program.ofText? branchingText = .ok p ∧ r.compilation = some c ∧ r.object = some o ∧
      (∃ i ∈ o.code, i.target? = some 43) ∧
      ∃ ranges, Laid c.locations.get? codeStart (p.sitedMethods.map Prod.fst) ranges ∧
        o.code.drop codeStart = ranges.flatten ∧
        ∀ i ∈ o.code.take codeStart, i.target? = none := by
  obtain ⟨r, compiled, ok⟩ := exists_ok_of_any (x := compile branchingText false)
    (P := fun r => r.status = .success &&
      r.object.any fun o => o.code.any fun i => i.target? = some 43) (by decide +kernel)
  simp only [Bool.and_eq_true, decide_eq_true_eq, Option.any_eq_true, List.any_eq_true] at ok
  obtain ⟨ok, o, object, jumps⟩ := ok
  obtain ⟨p, c, o', parsed, compilation, object', stays⟩ := control_stays_in_methods compiled ok
  cases object.symm.trans object'
  exact ⟨r, compiled, ok, p, c, o, parsed, compilation, object, jumps, stays⟩

end JamCompiler
