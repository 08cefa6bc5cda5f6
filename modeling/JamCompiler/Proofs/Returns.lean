import JamCompiler.Proofs.Emission.Items
import JamCompiler.Proofs.Emission.Ranges

/-!
# Returns

What callers rely on when a method returns: that it takes its parameters off the stack and leaves as
many words as it has results. It does, unless it has a result and no body. To a body without
statements a return is added that has no result, where one is missing that would have been asked for
after any statement but a return.
-/

namespace JamCompiler

open Machine Emission Generation

namespace MethodDecl

variable {m m' : MethodDecl} {bound : Site → Option Decl} {env : Env} {site : Site}

/-- A method without a body returns at once. -/
theorem code_of_empty (empty : m.body = []) (h : m.returning = .ok m') {t : Tree}
    (made : m'.tree env site = .ok t) (base : Nat) :
    t.code base = [returnOf 0 m.head.params.length] := by
  rcases body_of_returning h with ⟨-, front, last, body, -⟩ | ⟨⟨pos, body⟩, -⟩
  · rw [empty] at body
    simp at body
  · unfold MethodDecl.tree at made
    rw [head_of_returning h, body, empty] at made
    cases made
    rfl

end MethodDecl

section Code

variable {p : Program} {c : Compilation} {o : ObjectCode} {site : Site} {m : MethodDecl}

/-- Whether all returns in the code of a method take its parameters off the stack and leave its
result. -/
def Compilation.ReturnsFit (c : Compilation) (o : ObjectCode) (site : Site) (head : MethodHead) :
    Prop :=
  ∀ a i, c.InCode o site a → o.code[a]? = some i → i.op = .ret →
    i.d = head.params.length ∧ i.n = head.result.words

/-- All returns in the code of a method are alike. -/
theorem Accepted.returns (h : Accepted p c o) (hm : (site, m) ∈ p.sitedMethods) {a : Nat}
    {i : Instruction} (inside : c.InCode o site a) (hi : o.code[a]? = some i) (ret : i.op = .ret) :
    i.d = m.head.params.length ∧ i.n = m.wordsReturned := by
  obtain ⟨m', t, start, code⟩ := h.methodCode hm
  have all := h.ordinary hm code.returning code.tree
  obtain ⟨item, found, linked⟩ := code.item inside hi
  rcases all.code start item (List.mem_of_getElem? found) with ordinary | formal
  · cases ordinary with
    | ret =>
      cases linked
      exact ⟨rfl, rfl⟩
    | store | pop =>
      cases linked
      cases ret
    | simple simple =>
      cases simple with
      | call =>
        obtain ⟨_, _, -, -, rfl⟩ := linked
        dsimp only at ret
        split at ret <;> cases ret
      | prim | literal | load | self =>
        cases linked
        cases ret
  · cases formal <;> cases linked <;> cases ret

/-- The returns of a method do what callers rely on, unless it has a result and no body. -/
theorem Accepted.returnsFit_iff (h : Accepted p c o) (hm : (site, m) ∈ p.sitedMethods) :
    c.ReturnsFit o site m.head ↔ (m.body = [] → m.head.result.isVoid) := by
  constructor
  · intro fit empty
    obtain ⟨m', t, start, code⟩ := h.methodCode hm
    have items := m.code_of_empty empty code.returning code.tree start
    obtain ⟨i, hi, linked⟩ := code.linked 0 (returnOf 0 m.head.params.length) (by rw [items]; rfl)
    cases linked
    have size : t.size = 1 := by rw [← t.length_code start, items]; rfl
    have inside := (code.inCode start).mpr ⟨Nat.le_refl _, by omega⟩
    have words := (fit start _ inside hi rfl).2
    by_contra value
    rw [TypeExpr.words, if_neg value] at words
    cases words
  · intro void a i inside hi ret
    obtain ⟨params, words⟩ := h.returns hm inside hi ret
    refine ⟨params, ?_⟩
    rw [words, MethodDecl.wordsReturned]
    split
    · rename_i empty
      rw [TypeExpr.words, if_pos (void empty)]
    · rfl

end Code

/-- In a text that compiles, the returns of a method take its parameters off the stack and leave one
word if it has a result and none if it has not, exactly if it has no result or a body that is not
empty. -/
theorem returns_fit_unless_empty {text : List Char} {failFast : Bool} {r : CompileResult}
    (compiled : compile text failFast = .ok r) (ok : r.status = .success) :
    ∃ p c o, Program.ofText? text = .ok p ∧ r.compilation = some c ∧ r.object = some o ∧
      ∀ s ∈ p.sitedMethods,
        c.ReturnsFit o s.1 s.2.head ↔ (s.2.body = [] → s.2.head.result.isVoid) := by
  obtain ⟨p, c, o, parsed, compilation, object, accepted⟩ := accepted_of_compile compiled ok
  exact ⟨p, c, o, parsed, compilation, object, fun s hs => accepted.returnsFit_iff hs⟩

/-- Two methods have a result, but one of them has no body. -/
def emptyBodyText : List Char :=
  ("class A \x7b int f() \x7b \x7d int g() \x7b return 1; \x7d " ++
    "public static void main(String[] a) \x7b \x7d \x7d").toList

theorem emptyBodyText_accepted : ∃ r, compile emptyBodyText false = .ok r ∧ r.status = .success ∧
    ∃ p, Program.ofText? emptyBodyText = .ok p ∧
      (∃ s ∈ p.sitedMethods, s.2.body = [] ∧ ¬ s.2.head.result.isVoid) ∧
      ∃ s ∈ p.sitedMethods, s.2.body ≠ [] ∧ ¬ s.2.head.result.isVoid := by
  obtain ⟨r, compiled, ok⟩ := exists_ok_of_any (x := compile emptyBodyText false)
    (P := fun r => r.status = .success) (by decide +kernel)
  obtain ⟨p, parsed, h⟩ := exists_ok_of_any (x := Program.ofText? emptyBodyText)
    (P := fun p => (p.sitedMethods.any fun s => s.2.body.isEmpty && !s.2.head.result.isVoid) &&
      p.sitedMethods.any fun s => !s.2.body.isEmpty && !s.2.head.result.isVoid) (by decide +kernel)
  simp only [Bool.and_eq_true, List.any_eq_true, List.isEmpty_iff, Bool.not_eq_true',
    ← Bool.not_eq_true] at h
  exact ⟨r, compiled, of_decide_eq_true ok, p, parsed, h⟩

/-- A return that leaves no result where one is relied on. -/
theorem emptyBodyText_unfit : ∃ r, compile emptyBodyText false = .ok r ∧ r.status = .success ∧
    ∃ p c o, Program.ofText? emptyBodyText = .ok p ∧ r.compilation = some c ∧ r.object = some o ∧
      ∃ s ∈ p.sitedMethods, ¬ c.ReturnsFit o s.1 s.2.head := by
  obtain ⟨r, compiled, ok, p, parsed, ⟨s, hs, empty, value⟩, -⟩ := emptyBodyText_accepted
  obtain ⟨p', c, o, parsed', compilation, object, accepted⟩ := accepted_of_compile compiled ok
  cases parsed.symm.trans parsed'
  exact ⟨r, compiled, ok, p, c, o, parsed, compilation, object, s, hs,
    fun fit => value ((accepted.returnsFit_iff hs).mp fit empty)⟩

/-- The returns of the method with a body fit. -/
theorem emptyBodyText_fit : ∃ r, compile emptyBodyText false = .ok r ∧ r.status = .success ∧
    ∃ p c o, Program.ofText? emptyBodyText = .ok p ∧ r.compilation = some c ∧ r.object = some o ∧
      ∃ s ∈ p.sitedMethods, ¬ s.2.head.result.isVoid ∧ c.ReturnsFit o s.1 s.2.head := by
  obtain ⟨r, compiled, ok, p, parsed, -, s, hs, body, value⟩ := emptyBodyText_accepted
  obtain ⟨p', c, o, parsed', compilation, object, fit⟩ := returns_fit_unless_empty compiled ok
  cases parsed.symm.trans parsed'
  exact ⟨r, compiled, ok, p, c, o, parsed, compilation, object, s, hs, value,
    (fit s hs).mpr fun empty => absurd empty body⟩

end JamCompiler
