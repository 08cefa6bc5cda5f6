import JamCompiler.Proofs.LastOccurrence
import JamCompiler.Proofs.LineCounting
import JamCompiler.Diagnostic

/-!
# Carets

Where the mark of a diagnostic stands. The number of the line and the column are counted with line
feeds as the only ends of lines, and the line with this number is shown from a list of lines that
end at other breaks too. A break that ends a shown line and no counted one is stray; a carriage
return right before a line feed is part of one break and is not. If no break before a position is
stray, the line that is shown has the character of the position in the column of the mark; after a
stray break an earlier line is shown.
-/

namespace JamCompiler

namespace Text

/-- How many shown lines end in a text at something else than a line feed. -/
def strayBreaks : List Char → Nat
  | [] => 0
  | '\r' :: '\n' :: rest => strayBreaks rest
  | c :: rest => if isBreak c ∧ c ≠ '\n' then strayBreaks rest + 1 else strayBreaks rest

/-- The place of a position among the shown lines. -/
def shownPlace (text : List Char) (pos : Nat) : Place :=
  let passed := lines (text.take (pos + 1))
  { line := passed.length, column := (passed.getLast?.getD []).length }

variable {c : Char} {text : List Char}

theorem lines_cons_char (h : isBreak c = false) :
    lines (c :: text) = (c :: (lines text).headD []) :: (lines text).tail := by
  have other : c ≠ '\r' := by rintro rfl; cases h
  rw [lines, h]
  · cases lines text <;> rfl
  · intro rest eq
    exact absurd eq other

theorem lines_cons_break (h : isBreak c) (single : c = '\r' → text.head? ≠ some '\n') :
    lines (c :: text) = [] :: lines text := by
  rw [lines, if_pos h]
  intro rest isReturn feed
  exact single isReturn (by rw [feed]; rfl)

theorem lineStart_of_not_mem (h : '\n' ∉ text) : lineStart text = 0 := by
  rw [lineStart, dropWhile_reverse_of_not_mem h]
  rfl

/-- A line begins after the last line feed. -/
theorem lineStart_append {before after : List Char} (h : '\n' ∉ after) :
    lineStart (before ++ '\n' :: after) = before.length + 1 := by
  rw [lineStart, dropWhile_reverse h, List.length_cons, List.length_reverse]

theorem lineStart_cons_of_mem (h : '\n' ∈ text) : lineStart (c :: text) = lineStart text + 1 := by
  obtain ⟨before, after, rfl, none⟩ := exists_last h
  rw [← List.cons_append, lineStart_append none, lineStart_append none, List.length_cons]

theorem lineStart_feed : lineStart ('\n' :: text) = lineStart text + 1 := by
  by_cases h : '\n' ∈ text
  · exact lineStart_cons_of_mem h
  · rw [lineStart_of_not_mem h]
    exact @lineStart_append [] text h

/-- A character with what comes before and after it stands on a shown line: with these lines above
it, with this on its left, and as the last one of the text up to it. -/
structure OnLine (c : Char) (passed rest : List Char) (above : List (List Char))
    (left : List Char) : Prop where
  last : lines (passed ++ [c]) = above ++ [left ++ [c]]
  shown : ∃ right below, lines (passed ++ c :: rest) = above ++ (left ++ c :: right) :: below

namespace OnLine

variable {x : Char} {passed rest left : List Char} {above : List (List Char)}

theorem nil (visible : isBreak c = false) : OnLine c [] rest [] [] :=
  ⟨lines_cons_char visible, _, _, lines_cons_char visible⟩

theorem afterReturn (h : OnLine c passed rest above left) :
    OnLine c ('\r' :: '\n' :: passed) rest ([] :: above) left := by
  obtain ⟨last, right, below, shown⟩ := h
  constructor
  · exact congrArg ([] :: ·) last
  · exact ⟨right, below, congrArg ([] :: ·) shown⟩

theorem afterBreak (h : OnLine c passed rest above left) (visible : isBreak c = false)
    (ends : isBreak x) (single : ∀ more, x = '\r' → passed = '\n' :: more → False) :
    OnLine c (x :: passed) rest ([] :: above) left := by
  have apart (rest : List Char) : x = '\r' → (passed ++ c :: rest).head? ≠ some '\n' := by
    intro isReturn feed
    cases passed with
    | nil =>
      cases feed
      cases visible
    | cons y passed =>
      cases feed
      exact single passed isReturn rfl
  obtain ⟨last, right, below, shown⟩ := h
  constructor
  · rw [List.cons_append, lines_cons_break ends (apart []), last]
    rfl
  · refine ⟨right, below, ?_⟩
    rw [List.cons_append, lines_cons_break ends (apart rest), shown]
    rfl

/-- On the first line a character before it is one more on its left. -/
theorem afterFirst (h : OnLine c passed rest [] left) (inside : isBreak x = false) :
    OnLine c (x :: passed) rest [] (x :: left) := by
  obtain ⟨last, right, below, shown⟩ := h
  constructor
  · rw [List.cons_append, lines_cons_char inside, last]
    rfl
  · refine ⟨right, below, ?_⟩
    rw [List.cons_append, lines_cons_char inside, shown]
    rfl

theorem afterLater {first : List Char} (h : OnLine c passed rest (first :: above) left)
    (inside : isBreak x = false) : OnLine c (x :: passed) rest ((x :: first) :: above) left := by
  obtain ⟨last, right, below, shown⟩ := h
  constructor
  · rw [List.cons_append, lines_cons_char inside, last]
    rfl
  · refine ⟨right, below, ?_⟩
    rw [List.cons_append, lines_cons_char inside, shown]
    rfl

end OnLine

/-- Above a character are as many shown lines as there are line feeds and stray breaks before it,
and if there are no stray breaks, its line begins after the last line feed. -/
theorem exists_onLine (visible : isBreak c = false) (passed rest : List Char) :
    ∃ above left, OnLine c passed rest above left ∧
      above.length = passed.count '\n' + strayBreaks passed ∧
      (strayBreaks passed = 0 → left.length + lineStart passed = passed.length) := by
  fun_induction strayBreaks passed with
  | case1 => exact ⟨[], [], .nil visible, rfl, fun _ => rfl⟩
  | case2 passed ih =>
    obtain ⟨above, left, on, count, column⟩ := ih
    refine ⟨_, left, on.afterReturn, ?_, fun none => ?_⟩
    · rw [List.length_cons, count, List.count_cons_of_ne (by decide), List.count_cons_self,
        Nat.add_right_comm]
    · have := column none
      rw [lineStart_cons_of_mem List.mem_cons_self, lineStart_feed,
        List.length_cons, List.length_cons]
      omega
  | case3 x passed single stray ih =>
    obtain ⟨above, left, on, count, -⟩ := ih
    refine ⟨_, left, on.afterBreak visible stray.1 single, ?_, nofun⟩
    rw [List.length_cons, count, List.count_cons_of_ne stray.2]
    rfl
  | case4 x passed single notStray ih =>
    obtain ⟨above, left, on, count, column⟩ := ih
    cases ends : isBreak x with
    | true =>
      obtain rfl : x = '\n' := by simpa [ends] using notStray
      refine ⟨_, left, on.afterBreak visible ends single, ?_, fun none => ?_⟩
      · rw [List.length_cons, count, List.count_cons_self, Nat.add_right_comm]
      · have := column none
        rw [lineStart_feed, List.length_cons]
        omega
    | false =>
      have other : x ≠ '\n' := by rintro rfl; cases ends
      rw [List.count_cons_of_ne other]
      cases above with
      | nil =>
        refine ⟨[], x :: left, on.afterFirst ends, count, fun none => ?_⟩
        have noFeed : '\n' ∉ passed :=
          List.count_eq_zero.mp (by rw [List.length_nil] at count; omega)
        have noFeed' : '\n' ∉ x :: passed := by simp [noFeed, other.symm]
        have := column none
        rw [lineStart_of_not_mem noFeed] at this
        rw [lineStart_of_not_mem noFeed', List.length_cons, List.length_cons, ← this]
      | cons first above =>
        refine ⟨(x :: first) :: above, left, on.afterLater ends, count, fun none => ?_⟩
        have feed : '\n' ∈ passed :=
          List.count_pos_iff.mp (by rw [List.length_cons] at count; omega)
        have := column none
        rw [lineStart_cons_of_mem feed, List.length_cons]
        omega

theorem OnLine.shownPlace_eq {passed rest left : List Char} {above : List (List Char)}
    (h : OnLine c passed rest above left) : shownPlace (passed ++ c :: rest) passed.length =
      { line := above.length + 1, column := left.length + 1 } := by
  have upTo : (passed ++ c :: rest).take (passed.length + 1) = passed ++ [c] := by
    rw [List.append_cons]
    exact List.take_left' (by simp)
  rw [shownPlace, upTo, h.last]
  simp

theorem place_eq (text : List Char) (p : Nat) : place text p =
    { line := (text.take p).count '\n' + 1, column := p - lineStart (text.take p) + 1 } := by
  simp [place, before]

/-- Columns of positions are counted from one. -/
theorem one_le_column (text : List Char) (p : Nat) : 1 ≤ (place text p).column := by
  have start : lineStart (text.take p) ≤ p := by
    have within : lineStart (text.take p) ≤ (text.take p).reverse.length :=
      (List.dropWhile_suffix _).length_le
    have short := List.length_take_le p text
    rw [List.length_reverse] at within
    exact within.trans short
  rw [place_eq]
  dsimp only
  omega

theorem exists_split {p : Nat} (inside : text[p]? = some c) :
    ∃ passed rest, text = passed ++ c :: rest ∧ p = passed.length := by
  obtain ⟨h, rfl⟩ := List.getElem?_eq_some_iff.mp inside
  exact ⟨text.take p, text.drop (p + 1), by simp, by simp [Nat.le_of_lt h]⟩

variable {p : Nat} (inside : text[p]? = some c) (visible : isBreak c = false)
include inside visible

/-- A character that is no break is on a shown line, at its place there. -/
theorem shown_at_shownPlace : ∃ cs, (lines text)[(shownPlace text p).line - 1]? = some cs ∧
    cs[((shownPlace text p).column - 1).toNat]? = some c := by
  obtain ⟨passed, rest, rfl, rfl⟩ := exists_split inside
  obtain ⟨above, left, on, -⟩ := exists_onLine visible passed rest
  obtain ⟨right, below, shown⟩ := on.shown
  rw [on.shownPlace_eq, shown]
  simp

/-- The counted line of a character and the number of its shown line differ by the stray breaks
before it. -/
theorem shownPlace_line :
    (shownPlace text p).line = (place text p).line + strayBreaks (text.take p) := by
  obtain ⟨passed, rest, rfl, rfl⟩ := exists_split inside
  obtain ⟨above, left, on, count, -⟩ := exists_onLine visible passed rest
  rw [on.shownPlace_eq, place_eq, List.take_left, count, Nat.add_right_comm]

theorem shownPlace_eq_place_iff :
    shownPlace text p = place text p ↔ strayBreaks (text.take p) = 0 := by
  constructor
  · intro same
    have line := shownPlace_line inside visible
    rw [same] at line
    omega
  · intro none
    obtain ⟨passed, rest, rfl, rfl⟩ := exists_split inside
    obtain ⟨above, left, on, count, column⟩ := exists_onLine visible passed rest
    rw [List.take_left] at none
    have start := column none
    rw [on.shownPlace_eq, place_eq, List.take_left, count, none]
    simp only [Place.mk.injEq, Nat.add_zero, true_and]
    omega

end Text

namespace Diagnostic

/-- Whether a diagnostic is drawn with its place, a line, and below it a mark in the column of the
place: the line and the mark have gutters of the same width before them, and before the mark there
are only blanks. -/
def Draws (d : Diagnostic) (source : Source) (place : Text.Place) (line : List Char) : Prop :=
  ∃ gutter margin indent ending : String,
    d.render .plain (some source) = d.header .plain ++ "\n" ++
      ("-->" ++ " " ++ source.path ++ ":" ++ toString place.line ++ ":" ++ toString place.column) ++
      "\n" ++
      margin ++ "\n" ++ (gutter ++ " " ++ String.ofList line) ++ "\n" ++
      (margin ++ " " ++ indent ++ "^~~~") ++ ending ∧
    gutter = toString place.line ++ " |" ∧ margin.length = gutter.length ∧
    indent = spaces indent.length ∧ (indent.length : Int) + 1 = place.column ∧
    (ending = "" ∨ ∃ hint,
      ending = "\n" ++ margin ++ "\n" ++ margin ++ " " ++ "help:" ++ " " ++ hint)

theorem length_spaces (n : Nat) : (spaces n).length = n := by
  rw [spaces, ← String.length_toList, String.toList_ofList, List.length_replicate]

theorem render_plain (d : Diagnostic) (source : Source) :
    let place := Text.place source.text d.pos
    let margin := spaces (toString place.line).length ++ " |"
    d.render .plain (some source) = d.header .plain ++ "\n" ++
      ("-->" ++ " " ++ source.path ++ ":" ++ toString place.line ++ ":" ++ toString place.column) ++
      "\n" ++
      margin ++ "\n" ++ (toString place.line ++ " |" ++ " " ++
        String.ofList (source.shownLine place.line)) ++ "\n" ++
      (margin ++ " " ++ spaces (place.column - 1).toNat ++ "^~~~") ++
      d.shownHint.elim "" fun hint => "\n" ++ margin ++ "\n" ++ margin ++ " " ++
        "help:" ++ " " ++ hint := by
  have join (a b c d e : String) : String.intercalate "\n" [a, b, c, d, e] =
    a ++ "\n" ++ b ++ "\n" ++ c ++ "\n" ++ d ++ "\n" ++ e := rfl
  have reset : Palette.plain.reset = "" := rfl
  have bold : Palette.plain.bold = "" := rfl
  have blue : Palette.plain.blue = "" := rfl
  have cyan : Palette.plain.cyan = "" := rfl
  have severity : Palette.plain.forSeverity d.severity = "" := by
    cases d.severity <;> rfl
  rw [render]
  cases d.shownHint <;>
    simp only [join, reset, bold, blue, cyan, severity, String.empty_append, String.append_empty,
      String.append_assoc, Option.elim]

theorem draws (d : Diagnostic) (source : Source)
    (column : 1 ≤ (Text.place source.text d.pos).column) :
    d.Draws source (Text.place source.text d.pos)
      (source.shownLine (Text.place source.text d.pos).line) := by
  refine ⟨_, _, _, _, d.render_plain source, rfl, ?_, ?_, ?_, ?_⟩
  · rw [String.length_append, length_spaces, String.length_append]
  · rw [length_spaces]
  · rw [length_spaces]
    omega
  · cases d.shownHint with
    | none => exact .inl rfl
    | some hint => exact .inr ⟨hint, rfl⟩

end Diagnostic

/-- A diagnostic at a character that is no break is drawn with its mark in the column counted for
it. The character is on a shown line, as many lines below the line drawn as there are stray breaks
before it, and if there are none, it is the character under the mark. -/
theorem marks_unless_stray {source : Source} {d : Diagnostic} {p : Nat} {c : Char}
    (inside : source.text[p]? = some c) (visible : Text.isBreak c = false) (pos : d.pos = p) :
    let place := Text.place source.text p
    let shown := Text.shownPlace source.text p
    d.Draws source place (source.shownLine place.line) ∧
      (source.shownLine shown.line)[(shown.column - 1).toNat]? = some c ∧
      shown.line = place.line + Text.strayBreaks (source.text.take p) ∧
      (place = shown ↔ Text.strayBreaks (source.text.take p) = 0) ∧
      (Text.strayBreaks (source.text.take p) = 0 →
        (source.shownLine place.line)[(place.column - 1).toNat]? = some c) := by
  intro place shown
  have drawn := d.draws source
  obtain ⟨line, found, here⟩ := Text.shown_at_shownPlace inside visible
  have iff := Text.shownPlace_eq_place_iff inside visible
  have there : (source.shownLine shown.line)[(shown.column - 1).toNat]? = some c := by
    rw [Source.shownLine, found]
    exact here
  rw [pos] at drawn
  refine ⟨drawn (Text.one_le_column _ _), there, Text.shownPlace_line inside visible,
    eq_comm.trans iff, fun none => ?_⟩
  have same : shown = place := iff.mpr none
  rwa [← same]

/-- A carriage return before a line feed is not stray. -/
theorem marks_after_carriage_return :
    let source : Source := ⟨"<input>", ['a', '\r', '\n', 'b', 'c']⟩
    let d : Diagnostic := ⟨.error, .worded "boom" none, 4⟩
    d.Draws source ⟨2, 2⟩ ['b', 'c'] ∧ (source.shownLine 2)[1]? = some 'c' := by
  obtain ⟨drawn, -, -, -, under⟩ := @marks_unless_stray ⟨"<input>", ['a', '\r', '\n', 'b', 'c']⟩
    ⟨.error, .worded "boom" none, 4⟩ 4 'c' rfl rfl rfl
  exact ⟨drawn, under (by decide)⟩

/-- After a form feed the column is one of another line. -/
theorem not_marks_after_form_feed : ¬ ∀ (source : Source) (p : Nat) (c : Char),
    source.text[p]? = some c → Text.isBreak c = false →
    (source.shownLine (Text.place source.text p).line)[
      ((Text.place source.text p).column - 1).toNat]? = some c := by
  intro marks
  have under := marks ⟨"<input>", ['a', '\x0c', 'b']⟩ 2 'b' rfl rfl
  exact absurd under (by decide)

end JamCompiler
