import JamCompiler.Proofs.Order.Compiled
import JamCompiler.Proofs.Order.Texts

/-!
# The order of classes

Classes may be declared in any order, and what a text means does not hang on it: wherever references
are bound in two orders they are bound to declarations that correspond. What hangs on the order is
only which links are forward, and a text that compiles in one order compiles in another exactly if
no link is forward there.
-/

namespace JamCompiler

open Text (IsClass unlines)

/-- Texts of one class each are put together in two orders. Both give programs in which the same
classes are arranged. If one compiles, the other is resolved without an error and compiles exactly
if no link is forward. If both are resolved without an error, a reference is bound in each exactly
if no link of it is forward there, and what is bound in both corresponds. -/
theorem order_matters_only_for_forward_links {texts texts' : List (List Char)}
    {classes : List ClassDecl} (reads : List.Forall₂ IsClass texts classes)
    (perm : texts'.Perm texts) (failFast : Bool) :
    ∃ (g g' : Arrangement) (p p' : Program),
      Program.ofText? (unlines texts) = .ok p ∧ g.Arranges classes p ∧
      Program.ofText? (unlines texts') = .ok p' ∧ g'.Arranges classes p' ∧
      (Compiles (unlines texts) failFast → (∃ bound', p'.ResolvesTo failFast bound') ∧
        (Compiles (unlines texts') failFast ↔ ¬ p'.LeavesForward failFast)) ∧
      (Compiles (unlines texts') failFast → (∃ bound, p.ResolvesTo failFast bound) ∧
        (Compiles (unlines texts) failFast ↔ ¬ p.LeavesForward failFast)) ∧
      ∀ bound bound', p.ResolvesTo failFast bound → p'.ResolvesTo failFast bound' →
        ∀ l ∈ (Program.mk classes 0).links,
          (g.Binds bound l ↔ ∀ l' ∈ l.2.links l.1, ¬ Forward bound (g.movedLink l')) ∧
          (g'.Binds bound' l ↔ ∀ l' ∈ l.2.links l.1, ¬ Forward bound' (g'.movedLink l')) ∧
          ∀ slot ∈ l.2.slots l.1, ∀ d d', bound (slot.moved g) = some d →
            bound' (slot.moved g') = some d' → ∃ e : Decl, d = e.moved g ∧ d' = e.moved g' := by
  obtain ⟨g, p, parsed, arranged⟩ := Text.exists_arranges reads (.refl texts)
  obtain ⟨g', p', parsed', arranged'⟩ := Text.exists_arranges reads perm
  refine ⟨g, g', p, p', parsed, arranged, parsed', arranged',
    arranged.compiles_iff arranged' parsed parsed',
    arranged'.compiles_iff arranged parsed' parsed, fun bound bound' resolves resolves' l hl => ?_⟩
  obtain ⟨resolvable, settled⟩ := resolves.settled
  obtain ⟨resolvable', settled'⟩ := resolves'.settled
  exact ⟨arranged.bound_iff settled resolvable hl, arranged'.bound_iff settled' resolvable' hl,
    fun slot hs d d' found found' =>
      arranged.bound_correspond arranged' resolves resolves' hl hs found found'⟩

/-- Three classes. In the first a field of the second is used through which a field of the third
is. -/
def chainedClasses : List (List Char) :=
  ["class A \x7b B b; void m() \x7b int x = b.c.d; \x7d \x7d".toList,
    "class B \x7b C c; \x7d".toList,
    "class C \x7b int d; public static void main(String[] a) \x7b \x7d \x7d".toList]

theorem exists_class (text : List Char) (name : String)
    (h : ((Program.ofText? text).toOption.any fun p =>
      p.classes.map ClassDecl.name == [name]) = true) :
    ∃ c, IsClass text c ∧ c.name = name := by
  obtain ⟨p, parsed, named⟩ := exists_ok_of_any h
  obtain ⟨c, only, rfl⟩ := List.map_eq_singleton_iff.mp (eq_of_beq named)
  obtain ⟨classes, pos⟩ := p
  obtain ⟨-, rfl, -⟩ := Program.ReadAs.ok_iff.mp parsed
  cases only
  exact ⟨c, parsed, rfl⟩

theorem chainedClasses_read : ∃ classes, List.Forall₂ IsClass chainedClasses classes ∧
    classes.map ClassDecl.name = ["A", "B", "C"] := by
  obtain ⟨a, isA, nameA⟩ := exists_class chainedClasses[0] "A" (by decide +kernel)
  obtain ⟨b, isB, nameB⟩ := exists_class chainedClasses[1] "B" (by decide +kernel)
  obtain ⟨c, isC, nameC⟩ := exists_class chainedClasses[2] "C" (by decide +kernel)
  exact ⟨[a, b, c], .cons isA (.cons isB (.cons isC .nil)), by simp [nameA, nameB, nameC]⟩

theorem chainedClasses_compile : Compiles (unlines chainedClasses.reverse) false ∧
    ¬ Compiles (unlines chainedClasses) false := by
  constructor
  · obtain ⟨r, compiled, success⟩ :=
      exists_ok_of_any (x := compile (unlines chainedClasses.reverse) false)
        (P := fun r => r.status = .success) (by decide +kernel)
    exact ⟨r, compiled, of_decide_eq_true success⟩
  · obtain ⟨r, compiled, failure⟩ := exists_ok_of_any (x := compile (unlines chainedClasses) false)
      (P := fun r => r.status ≠ .success) (by decide +kernel)
    rintro ⟨r', compiled', success⟩
    cases compiled.symm.trans compiled'
    exact of_decide_eq_true failure success

/-- The classes compile in one order and not in another. -/
theorem chainedClasses_ordered : chainedClasses.reverse.Perm chainedClasses ∧
    (∃ classes, List.Forall₂ IsClass chainedClasses classes ∧ (classes.map ClassDecl.name).Nodup) ∧
    ¬ (Compiles (unlines chainedClasses.reverse) false ↔
      Compiles (unlines chainedClasses) false) := by
  obtain ⟨classes, reads, names⟩ := chainedClasses_read
  obtain ⟨compiles, fails⟩ := chainedClasses_compile
  exact ⟨chainedClasses.reverse_perm, ⟨classes, reads, by rw [names]; decide⟩,
    fun same => fails (same.mp compiles)⟩

/-- In the order in which they do not, a link is forward. -/
theorem chainedClasses_forward : ∃ classes, List.Forall₂ IsClass chainedClasses classes ∧
    chainedClasses.reverse.Perm chainedClasses ∧ Compiles (unlines chainedClasses.reverse) false ∧
    ∃ (g : Arrangement) (p : Program), Program.ofText? (unlines chainedClasses) = .ok p ∧
      g.Arranges classes p ∧ p.LeavesForward false := by
  obtain ⟨classes, reads, -⟩ := chainedClasses_read
  obtain ⟨compiles, fails⟩ := chainedClasses_compile
  obtain ⟨g, -, p, -, parsed, arranged, -, -, -, back, -⟩ :=
    order_matters_only_for_forward_links reads chainedClasses.reverse_perm false
  exact ⟨classes, reads, chainedClasses.reverse_perm, compiles, g, p, parsed, arranged,
    not_not.mp fun none => fails ((back compiles).2.mpr none)⟩

end JamCompiler
