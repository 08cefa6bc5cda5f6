import JamCompiler.Proofs.Scanning.Lexemes
import JamCompiler.Text.Lines

/-!
# Line counting

Lines are counted in two ways. The rules of the scan count as they go: a run of line feeds is one
piece and moves the counter by its length, a block comment by the line feeds in it, and no other
rule moves it. And the line of a position is counted from the beginning of the text. A line feed is
passed by one of the two rules only, since no token, line comment or other blank has one in it, so
the two agree.
-/

namespace JamCompiler

namespace Scan

/-- Reads on at position `pos` with the counter at `line`, one rule at a time. -/
def byRules (pos line : Nat) : List Char → Scan
  | [] => ⟨[], none, line⟩
  | c :: rest =>
    if c = '\n' then
      let run := rest.takeWhile (· = '\n')
      byRules (pos + run.length + 1) (line + run.length + 1) (rest.dropWhile (· = '\n'))
    else match Piece.first c rest with
      | .blank n =>
        let counted := if ['/', '*'] <+: c :: rest then ((c :: rest).take n).count '\n' else 0
        byRules (pos + n) (line + counted) (rest.drop (n - 1))
      | .token kind n =>
        let scan := byRules (pos + n) line (rest.drop (n - 1))
        { scan with tokens := ⟨kind, pos, line⟩ :: scan.tokens }
      | .fault fault => ⟨[], some (fault, pos), line⟩
termination_by text => text.length
decreasing_by
  · exact Nat.lt_succ_of_le (List.dropWhile_suffix _).length_le
  all_goals
    simp only [List.length_drop, List.length_cons]
    omega

/-- A run of line feeds is passed at once. -/
theorem ofTextFrom_feeds {run : List Char} (feeds : ∀ d ∈ run, d = '\n') (after : List Char)
    (pos line : Nat) :
    ofTextFrom pos line 0 (run ++ after) =
      ofTextFrom (pos + run.length) (line + run.length) 0 after := by
  induction run generalizing pos line with
  | nil => rfl
  | cons c run ih =>
    obtain ⟨rfl, others⟩ := List.forall_mem_cons.mp feeds
    have feed : Space ['\n'] (run ++ after) := .blank rfl
    have passed : ofTextFrom pos line 0 ('\n' :: (run ++ after)) =
        ofTextFrom (pos + 1) (line + 1) 0 (run ++ after) := ofTextFrom_space feed pos line
    rw [List.cons_append, passed, ih others, List.length_cons, Nat.add_assoc,
      Nat.add_assoc, Nat.add_comm 1]

/-- Of the spaces that begin with no line feed, only block comments have line feeds in them. -/
theorem count_of_space {c : Char} {used after : List Char} (h : Space (c :: used) after)
    (other : c ≠ '\n') :
    (if ['/', '*'] <+: c :: (used ++ after) then
      ((c :: (used ++ after)).take (used.length + 1)).count '\n' else 0) =
        (c :: used).count '\n' := by
  rw [← List.cons_append, ← List.length_cons, List.take_left]
  split
  · rfl
  rename_i noBlock
  symm
  rw [List.count_eq_zero]
  cases h with
  | blank _ => simpa using other.symm
  | line within _ => simpa using within
  | block _ => exact absurd (List.prefix_append ['/', '*'] _) noBlock

/-- The rules count what passing every character counts. -/
theorem byRules_eq (pos line : Nat) (text : List Char) :
    byRules pos line text = ofTextFrom pos line 0 text := by
  fun_induction byRules pos line text with
  | case1 => rfl
  | case2 pos line rest run ih =>
    have feeds : ∀ d ∈ '\n' :: run, d = '\n' :=
      List.forall_mem_cons.mpr
        ⟨rfl, fun d hd => by simpa using List.all_eq_true.mp List.all_takeWhile d hd⟩
    have whole : '\n' :: rest = ('\n' :: run) ++ rest.dropWhile (· = '\n') := by simp [run]
    rw [ih, whole, ofTextFrom_feeds feeds]
    rfl
  | case3 pos line c rest other n piece counted ih =>
    obtain ⟨used, after, rfl, rfl, space⟩ := Piece.exists_space piece
    have all : counted = (c :: used).count '\n' := count_of_space space other
    rw [ih, all, ← List.cons_append, ofTextFrom_space space, Nat.add_sub_cancel, List.drop_left]
    rfl
  | case4 pos line c rest other k n piece scan ih =>
    obtain ⟨used, after, rfl, rfl, lexeme⟩ := Piece.exists_lexeme piece
    have none : (c :: used).count '\n' = 0 :=
      List.count_eq_zero.mpr fun inside => by cases lexeme.written.not_isBlank _ inside
    rw [Nat.add_sub_cancel, List.drop_left] at ih
    rw [← List.cons_append, ofTextFrom_lexeme lexeme, none]
    simp only [scan, ih, Nat.add_sub_cancel, List.drop_left]
    rfl
  | case5 pos line c rest other f piece =>
    exact (ofTextFrom_faulty (Piece.faulty_of_first piece) pos line).symm

/-- The line of every token, and of the place where the scan stops, is that of its position. -/
theorem ofTextFrom_lines (before text : List Char) :
    let scan := ofTextFrom before.length (before.count '\n' + 1) 0 text
    (∀ t ∈ scan.tokens, t.line = ((before ++ text).take t.pos).count '\n' + 1) ∧
      (∀ f pos, scan.fault = some (f, pos) →
        scan.line = ((before ++ text).take pos).count '\n' + 1) ∧
      (scan.fault = none → scan.line = (before ++ text).count '\n' + 1) := by
  induction text using Text.induction_pieces generalizing before with
  | nil => exact ⟨nofun, nofun, fun _ => by rw [List.append_nil]; rfl⟩
  | space piece after space ih =>
    have rest := ih (before ++ piece)
    rw [List.length_append, List.count_append, Nat.add_right_comm, List.append_assoc] at rest
    rwa [ofTextFrom_space space]
  | lexeme k piece after lexeme ih =>
    have rest := ih (before ++ piece)
    rw [List.length_append, List.count_append, Nat.add_right_comm, List.append_assoc] at rest
    simp only [ofTextFrom_lexeme lexeme]
    exact ⟨List.forall_mem_cons.mpr ⟨by rw [List.take_left], rest.1⟩, rest.2⟩
  | faulty f text faulty =>
    simp only [ofTextFrom_faulty faulty]
    refine ⟨nofun, ?_, nofun⟩
    rintro _ _ ⟨⟩
    rw [List.take_left]

end Scan

theorem Text.place_line (text : List Char) (pos : Nat) :
    (place text pos).line = (text.take pos).count '\n' + 1 := by
  simp [place, before]

/-- The line that the rules have counted when a token is made is that of its position, and at the
end of the text they have counted one line more than there are line feeds. -/
theorem line_counters_agree (text : List Char) :
    let scan := Scan.byRules 0 1 text
    scan = Scan.ofText text ∧ (∀ t ∈ scan.tokens, t.line = (Text.place text t.pos).line) ∧
      (∀ f pos, scan.fault = some (f, pos) → scan.line = (Text.place text pos).line) ∧
      (scan.fault = none → scan.line = 1 + text.count '\n') := by
  simp only [Scan.byRules_eq, Text.place_line, Nat.add_comm 1]
  exact ⟨rfl, Scan.ofTextFrom_lines [] text⟩

end JamCompiler
