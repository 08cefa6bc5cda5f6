import JamCompiler.Proofs.Running.Runs

/-!
# Endings of runs

Whatever the arguments and the files are, a run ends with a status, whose meaning is given by
`Ends`, or without one in the ways that `Escapes` names: a path that holds the null character, a
number with too many digits where one is read, and an output path that leads to no place for a file.

These are the ways of the runs that are modelled here. Arguments are strings of Unicode scalar
values, so none holds a lone surrogate, and what is printed is text: the encoding of standard
output, which may refuse some of it, is not modelled.
-/

namespace JamCompiler.CommandLine

/-- A run ends with a status in just the ways in which it should. Of arguments that are strings of
Unicode scalar values, and where standard output takes all that is printed, it ends without one in
just the ways that `Escapes` names. A text has a result in every case but that of a number with too
many digits. -/
theorem ends_iff (tree : FileTree) (args : List String) :
    (∀ status, (run tree args).result = .ok status ↔ ∃ after, Ends tree args status after) ∧
      ((∃ failure, (run tree args).result = .error failure) ↔ Escapes tree args) ∧
      ∀ text failFast, (∃ r, compile text failFast = .ok r) ↔ ¬ Overlong text := by
  have one := ends_or_escapes tree args
  refine ⟨fun status => ⟨fun ended => ?_, ?_⟩, ⟨?_, ?_⟩, fun _ _ => exists_compile_iff⟩
  · rcases one with ⟨status', after, ends⟩ | escapes
    · obtain ⟨message, gives⟩ := ends.run_eq
      rw [gives] at ended
      cases ended
      exact ⟨after, ends⟩
    · obtain ⟨failure, gives⟩ := escapes.run_eq
      rw [gives] at ended
      cases ended
  · rintro ⟨after, ends⟩
    obtain ⟨message, gives⟩ := ends.run_eq
    rw [gives]
  · rintro ⟨failure, failed⟩
    refine one.resolve_left ?_
    rintro ⟨status, after, ends⟩
    obtain ⟨message, gives⟩ := ends.run_eq
    rw [gives] at failed
    cases failed
  · intro escapes
    obtain ⟨failure, gives⟩ := escapes.run_eq
    exact ⟨failure, by rw [gives]⟩

/-- A method that returns a number of one digit more than are taken for one. -/
def overlongText : List Char :=
  "class A \x7b int f() \x7b return ".toList ++
    List.replicate (Piece.maxDigits + 1) '1' ++ "; \x7d \x7d".toList

def overlongTree : FileTree where
  files := [(["A.java".toList], plainBytes overlongText)]

theorem mem_overlongText {P : Char → Bool}
    (front : "class A \x7b int f() \x7b return ".toList.all P = true) (digit : P '1' = true)
    (back : "; \x7d \x7d".toList.all P = true) : ∀ c ∈ overlongText, P c = true := by
  refine List.forall_mem_append.mpr ⟨List.forall_mem_append.mpr ⟨?_, fun c hc => ?_⟩, ?_⟩
  · exact List.all_eq_true.mp front
  · rwa [List.eq_of_mem_replicate hc]
  · exact List.all_eq_true.mp back

theorem holds_overlongText : Holds overlongTree "A.java" overlongText := by
  have plain := mem_overlongText (P := fun c => c.toNat < 128 && c ≠ '\r')
    (by decide +kernel) rfl (by decide +kernel)
  simp only [Bool.and_eq_true, decide_eq_true_eq] at plain
  have read (bytes : List UInt8) :
      FileTree.read { files := [(["A.java".toList], bytes)] } "A.java".toList = .ok bytes := rfl
  exact holds_plainBytes (read _) (fun c hc => (plain c hc).1) fun found => (plain _ found).2 rfl

/-- It has no result, and a run on a file that holds it ends without a status. -/
theorem overlongText_escapes : (¬ ∃ r, compile overlongText false = .ok r) ∧
    ∃ failure, (run overlongTree ["A.java"]).result = .error failure := by
  have failed : (compile overlongText false).toOption = none := by decide +kernel
  have none : ¬ ∃ r, compile overlongText false = .ok r := by
    rintro ⟨r, compiled⟩
    rw [compiled] at failed
    cases failed
  have overlong : Overlong overlongText := not_not.mp (mt exists_compile_iff.mpr none)
  have means : Means false ["A.java"] (.compile "A.java" _) :=
    .compile [.file "A.java" (by decide +kernel)] rfl
  obtain ⟨failure, gives⟩ :=
    (Escapes.longNumber ⟨means, by decide, holds_overlongText⟩ overlong).run_eq
  exact ⟨none, failure, by rw [gives]⟩

end JamCompiler.CommandLine
