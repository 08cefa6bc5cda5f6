import JamCompiler.Proofs.Carets

/-!
# Places

The line and the column of a position come from two searches that know nothing of each other: the
line feeds before the position are counted, and the last one of them is looked for. Both tell of one
place. Among the lines that end at line feeds, the line so numbered begins where the column is
counted from, and there is no line feed from there to the position. So no two positions have one
place, and places come in the order of their positions.
-/

namespace JamCompiler.Text

variable {text : List Char} {line p q : Nat}

/-- The lines of a text that end at line feeds alone, without these. -/
def countedLines (text : List Char) : List (List Char) := text.splitOn '\n'

/-- The position at which a counted line begins. Each line above it has its characters and a line
feed. -/
def lineOffset (text : List Char) (line : Nat) : Nat :=
  (((countedLines text).take (line - 1)).map fun l => l.length + 1).sum

theorem countedLines_append (before after : List Char) :
    countedLines (before ++ '\n' :: after) = countedLines before ++ countedLines after :=
  List.splitOn_append_cons_self ..

theorem countedLines_feed (text : List Char) :
    countedLines ('\n' :: text) = [] :: countedLines text :=
  countedLines_append [] text

/-- Another character stands at the front of the first line. -/
theorem countedLines_cons (text : List Char) {c : Char} (other : c ≠ '\n') :
    ∃ first rest, countedLines text = first :: rest ∧
      countedLines (c :: text) = (c :: first) :: rest := by
  obtain ⟨first, rest, lines⟩ := List.exists_cons_of_ne_nil (List.splitOn_ne_nil '\n' text)
  refine ⟨first, rest, lines, ?_⟩
  rw [countedLines, List.splitOn_cons_eq_if_modifyHead, if_neg (by simpa using other), lines]
  rfl

theorem length_countedLines (text : List Char) :
    (countedLines text).length = text.count '\n' + 1 := by
  induction text with
  | nil => rfl
  | cons c text ih =>
    by_cases feed : c = '\n'
    · subst feed
      rw [countedLines_feed, List.length_cons, ih, List.count_cons_self]
    · obtain ⟨first, rest, lines, lines'⟩ := countedLines_cons text feed
      rw [lines] at ih
      rw [lines', List.count_cons_of_ne feed, ← ih, List.length_cons, List.length_cons]

/-- With a line feed after each the lines are as long as the text with a line feed after it. -/
theorem sum_countedLines (text : List Char) :
    ((countedLines text).map fun l => l.length + 1).sum = text.length + 1 := by
  induction text with
  | nil => rfl
  | cons c text ih =>
    by_cases feed : c = '\n'
    · subst feed
      rw [countedLines_feed, List.map_cons, List.sum_cons, ih, List.length_cons, List.length_nil]
      omega
    · obtain ⟨first, rest, lines, lines'⟩ := countedLines_cons text feed
      rw [lines, List.map_cons, List.sum_cons] at ih
      rw [lines', List.map_cons, List.sum_cons, List.length_cons, List.length_cons]
      omega

/-- A line begins after the line feed that ends the line above it. -/
theorem lineOffset_append (before after : List Char) :
    lineOffset (before ++ '\n' :: after) (before.count '\n' + 2) = before.length + 1 := by
  have above : (countedLines (before ++ '\n' :: after)).take (before.count '\n' + 1) =
      countedLines before := by
    rw [countedLines_append]
    exact List.take_left' (length_countedLines before)
  have line : before.count '\n' + 2 - 1 = before.count '\n' + 1 := rfl
  rw [lineOffset, line, above, sum_countedLines]

/-- The last line feed before a position ends the line above that of the position. -/
theorem lineOffset_count (text : List Char) (p : Nat) :
    lineOffset text ((text.take p).count '\n' + 1) = lineStart (text.take p) := by
  by_cases feed : '\n' ∈ text.take p
  · obtain ⟨before, after, split, none⟩ := exists_last feed
    have whole : text = before ++ '\n' :: (after ++ text.drop p) := by
      rw [← List.cons_append, ← List.append_assoc, ← split, List.take_append_drop]
    have offset := lineOffset_append before (after ++ text.drop p)
    rw [← whole] at offset
    rw [split, lineStart_append none, List.count_append, List.count_cons_self,
      List.count_eq_zero.mpr none]
    exact offset
  · rw [List.count_eq_zero.mpr feed, lineStart_of_not_mem feed]
    rfl

theorem not_mem_drop_lineStart (text : List Char) : '\n' ∉ text.drop (lineStart text) := by
  by_cases feed : '\n' ∈ text
  · obtain ⟨before, after, rfl, none⟩ := exists_last feed
    have behind : (before ++ '\n' :: after).drop (before.length + 1) = after := by
      rw [List.append_cons]
      exact List.drop_left' (by simp)
    rw [lineStart_append none, behind]
    exact none
  · exact fun inside => feed (List.mem_of_mem_drop inside)

/-- As many line feeds as asked for, with another one after them. -/
theorem exists_feed {k : Nat} (more : k < text.count '\n') :
    ∃ before after, text = before ++ '\n' :: after ∧ before.count '\n' = k := by
  induction text generalizing k with
  | nil => cases more
  | cons c text ih =>
    by_cases feed : c = '\n'
    · subst feed
      rw [List.count_cons_self] at more
      cases k with
      | zero => exact ⟨[], text, rfl, rfl⟩
      | succ k =>
        obtain ⟨before, after, rfl, count⟩ := ih (Nat.lt_of_succ_lt_succ more)
        exact ⟨'\n' :: before, after, rfl, by rw [List.count_cons_self, count]⟩
    · rw [List.count_cons_of_ne feed] at more
      obtain ⟨before, after, rfl, count⟩ := ih more
      exact ⟨c :: before, after, rfl, by rw [List.count_cons_of_ne feed, count]⟩

/-- Before a line are as many line feeds as there are lines above it. -/
theorem count_take_lineOffset (inside : line ≤ (countedLines text).length) :
    (text.take (lineOffset text line)).count '\n' = line - 1 := by
  rw [length_countedLines] at inside
  match line with
  | 0 | 1 => rfl
  | k + 2 =>
    have more : k < text.count '\n' := by omega
    obtain ⟨before, after, rfl, rfl⟩ := exists_feed more
    have upTo : (before ++ '\n' :: after).take (before.length + 1) = before ++ ['\n'] := by
      rw [List.append_cons]
      exact List.take_left' (by simp)
    rw [lineOffset_append, upTo, List.count_append]
    rfl

/-- Whether a place is that of a position: on a line of the text, so far behind its start as the
column says, and with no line feed in between. -/
structure Place.Locates (place : Place) (text : List Char) (p : Nat) : Prop where
  line : 1 ≤ place.line ∧ place.line ≤ (countedLines text).length
  column : 1 ≤ place.column
  position : (p : Int) = lineOffset text place.line + (place.column - 1)
  unbroken : '\n' ∉ (text.take p).drop (lineOffset text place.line)

/-- Whether a place comes before another one: on an earlier line, or earlier on the same line. -/
def Place.Before (a b : Place) : Prop := a.line < b.line ∨ a.line = b.line ∧ a.column < b.column

theorem place_locates (text : List Char) (p : Nat) : (place text p).Locates text p := by
  have column := one_le_column text p
  rw [place_eq] at column ⊢
  constructor
  · have passed : (text.take p).count '\n' ≤ text.count '\n' :=
      (List.take_sublist p text).count_le _
    rw [length_countedLines]
    exact ⟨Nat.succ_pos _, Nat.succ_le_succ passed⟩
  · exact column
  · rw [lineOffset_count]
    dsimp only
    omega
  · rw [lineOffset_count]
    exact not_mem_drop_lineStart _

namespace Place.Locates

variable {place : Place}

/-- The line that begins before a position, with no line feed in between, is the one that is
counted. -/
theorem line_eq (h : place.Locates text p) : place.line = (text.take p).count '\n' + 1 := by
  have column := h.column
  have position := h.position
  have start : lineOffset text place.line ≤ p := by omega
  have split : text.take p =
      text.take (lineOffset text place.line) ++
      (text.take p).drop (lineOffset text place.line) := by
    have front := List.take_take (i := lineOffset text place.line) (j := p) (l := text)
    rw [Nat.min_eq_left start] at front
    rw [← front, List.take_append_drop]
  have count := congrArg (List.count '\n') split
  rw [List.count_append, count_take_lineOffset h.line.2, List.count_eq_zero.mpr h.unbroken] at count
  have first := h.line.1
  omega

theorem eq_place (h : place.Locates text p) : place = Text.place text p := by
  have line : place.line = (Text.place text p).line := by
    rw [h.line_eq, place_eq]
  have here := h.position
  have there := (place_locates text p).position
  rw [← line] at there
  cases place
  cases other : Text.place text p
  rw [other] at line there
  simp only at line here there
  rw [Place.mk.injEq]
  exact ⟨line, by omega⟩

/-- A place is that of one position only. -/
theorem unique (h : place.Locates text p) (h' : place.Locates text q) : p = q := by
  have here := h.position
  have there := h'.position
  omega

end Place.Locates

theorem before_of_lt (less : p < q) : (place text p).Before (place text q) := by
  have here := (place_locates text p).position
  have there := (place_locates text q).position
  have lines : (place text p).line ≤ (place text q).line := by
    rw [place_eq, place_eq]
    exact Nat.succ_le_succ ((List.take_sublist_take_left (Nat.le_of_lt less)).count_le _)
  by_cases same : (place text p).line = (place text q).line
  · rw [← same] at there
    exact .inr ⟨same, by omega⟩
  · exact .inl (Nat.lt_of_le_of_ne lines same)

theorem Place.Before.asymm {a b : Place} (h : a.Before b) : ¬ b.Before a := by
  unfold Before at h ⊢
  omega

/-- The line and the column of a position are those of its place, and of no other; positions are as
different as their places, and in the same order. -/
theorem places_invertible (text : List Char) (p : Nat) :
    (place text p).Locates text p ∧
    (∀ other : Place, other.Locates text p → other = place text p) ∧
    ∀ q : Nat, (place text p = place text q ↔ p = q) ∧
      ((place text p).Before (place text q) ↔ p < q) := by
  refine ⟨place_locates text p, fun other h => h.eq_place, fun q => ⟨⟨fun same => ?_, ?_⟩,
    fun before => ?_, before_of_lt⟩⟩
  · exact (place_locates text p).unique (same ▸ place_locates text q)
  · rintro rfl
    rfl
  · rcases Nat.lt_trichotomy p q with less | rfl | more
    · exact less
    · exact absurd before before.asymm
    · exact absurd (before_of_lt more) before.asymm

/-- A line feed is the last character of its own line, and the end of the text is on the line after
it. -/
example :
    place ['a', '\n', 'b', '\n'] 1 = ⟨1, 2⟩ ∧ place ['a', '\n', 'b', '\n'] 4 = ⟨3, 1⟩ := by decide

end JamCompiler.Text
