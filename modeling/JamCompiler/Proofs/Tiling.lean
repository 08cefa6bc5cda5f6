import JamCompiler.Proofs.Scanning.Lexemes

/-!
# Tiling

The tokens of a text are slices of it, one after the other. Between them, before the first and after
the last is nothing but blanks and complete comments, up to the end of the text or to the place
where the scan stops, and there something is wrong. No other tokens tile the text.
-/

namespace JamCompiler

/-- A token with its position in a text and the part of the text that it is. -/
structure Slice where
  kind : TokenKind
  pos : Nat
  text : List Char

namespace Slice

/-- The position after a slice. -/
def stop (s : Slice) : Nat := s.pos + s.text.length

end Slice

/-- How a text from a position on is made up of slices and what stands between them, and where
something is wrong with it. -/
inductive Tiles : Nat → List Char → List Slice → Option (ScanFault × Nat) → Prop
  | done {pos : Nat} : Tiles pos [] [] none
  | fault {pos : Nat} {text : List Char} {f : ScanFault} (faulty : Faulty f text) :
    Tiles pos text [] (some (f, pos))
  | space {pos : Nat} {piece after : List Char} {slices : List Slice}
      {fault : Option (ScanFault × Nat)}
      (space : Space piece after) (rest : Tiles (pos + piece.length) after slices fault) :
    Tiles pos (piece ++ after) slices fault
  | token {pos : Nat} {piece after : List Char} {k : TokenKind} {slices : List Slice}
      {fault : Option (ScanFault × Nat)} (lexeme : Lexeme k piece after)
      (rest : Tiles (pos + piece.length) after slices fault) :
    Tiles pos (piece ++ after) (⟨k, pos, piece⟩ :: slices) fault

/-- Slices of a text, each after the one before it, up to the place where something is wrong with
it. -/
structure Sliced (text : List Char) (slices : List Slice) (fault : Option (ScanFault × Nat)) :
    Prop where
  increasing : slices.Pairwise fun s s' => s.stop ≤ s'.pos
  tokens : ∀ s ∈ slices, s.text ≠ [] ∧ text.drop s.pos = s.text ++ text.drop s.stop ∧
    Lexeme s.kind s.text (text.drop s.stop)
  stops : ∀ f pos, fault = some (f, pos) → Faulty f (text.drop pos) ∧ ∀ s ∈ slices, s.stop ≤ pos

namespace Tiles

variable {pos : Nat} {text : List Char} {slices : List Slice} {fault : Option (ScanFault × Nat)}

theorem beyond (h : Tiles pos text slices fault) :
    (∀ s ∈ slices, pos ≤ s.pos) ∧ ∀ f stop, fault = some (f, stop) → pos ≤ stop := by
  induction h with
  | done => exact ⟨nofun, nofun⟩
  | fault _ =>
    refine ⟨nofun, ?_⟩
    rintro f stop ⟨⟩
    exact Nat.le_refl _
  | space _ _ ih =>
    exact ⟨fun s hs => Nat.le_of_add_right_le (ih.1 s hs),
      fun f stop same => Nat.le_of_add_right_le (ih.2 f stop same)⟩
  | token _ _ ih =>
    exact ⟨List.forall_mem_cons.mpr ⟨Nat.le_refl _, fun s hs => Nat.le_of_add_right_le (ih.1 s hs)⟩,
      fun f stop same => Nat.le_of_add_right_le (ih.2 f stop same)⟩

/-- The slices of a tiled text behind another text are slices of both. -/
theorem sliced (h : Tiles pos text slices fault) (before : List Char)
    (length : before.length = pos) : Sliced (before ++ text) slices fault := by
  induction h generalizing before with
  | done => exact ⟨.nil, nofun, nofun⟩
  | fault faulty =>
    refine ⟨.nil, nofun, ?_⟩
    rintro f stop ⟨⟩
    rw [← length, List.drop_left]
    exact ⟨faulty, nofun⟩
  | @space pos piece after slices fault _ _ ih =>
    rw [← List.append_assoc]
    exact ih (before ++ piece) (by rw [List.length_append, length])
  | @token pos piece after k slices fault lexeme rest ih =>
    have past : (before ++ piece).length = pos + piece.length := by rw [List.length_append, length]
    have whole : before ++ (piece ++ after) = before ++ piece ++ after :=
      (List.append_assoc ..).symm
    obtain ⟨increasing, tokens, stops⟩ := ih (before ++ piece) past
    obtain ⟨after_slices, after_stop⟩ := rest.beyond
    have here : (before ++ (piece ++ after)).drop pos = piece ++ after := by
      rw [← length, List.drop_left]
    have next : (before ++ (piece ++ after)).drop (pos + piece.length) = after := by
      rw [whole, ← past, List.drop_left]
    obtain ⟨c, used, cons⟩ := lexeme.written.exists_cons
    rw [← whole] at tokens stops
    refine ⟨List.pairwise_cons.mpr ⟨after_slices, increasing⟩,
      List.forall_mem_cons.mpr ⟨⟨?_, ?_, ?_⟩, tokens⟩,
      fun f stop same => ⟨(stops f stop same).1, ?_⟩⟩
    · exact cons ▸ List.cons_ne_nil c used
    · exact here.trans (congrArg _ next.symm)
    · exact next.symm ▸ lexeme
    · exact List.forall_mem_cons.mpr ⟨after_stop f stop same, (stops f stop same).2⟩

/-- What tiles a text is scanned. -/
theorem scanned (h : Tiles pos text slices fault) (line : Nat) :
    let scan := Scan.ofTextFrom pos line 0 text
    scan.tokens.map (fun t => (t.kind, t.pos)) = slices.map (fun s => (s.kind, s.pos)) ∧
      scan.fault = fault := by
  induction h generalizing line with
  | done => exact ⟨rfl, rfl⟩
  | fault faulty => simp [Scan.ofTextFrom_faulty faulty]
  | space space _ ih =>
    rw [Scan.ofTextFrom_space space]
    exact ih _
  | token lexeme _ ih =>
    obtain ⟨tokens, stops⟩ := ih _
    simp only [Scan.ofTextFrom_lexeme lexeme]
    exact ⟨congrArg _ tokens, stops⟩

end Tiles

/-- Every text is tiled, up to its end or to a fault. -/
theorem exists_tiles (text : List Char) (pos : Nat) :
    ∃ slices fault, Tiles pos text slices fault := by
  induction text using Text.induction_pieces generalizing pos with
  | nil => exact ⟨[], none, .done⟩
  | space piece after space ih =>
    obtain ⟨slices, fault, rest⟩ := ih (pos + piece.length)
    exact ⟨slices, fault, .space space rest⟩
  | lexeme k piece after lexeme ih =>
    obtain ⟨slices, fault, rest⟩ := ih (pos + piece.length)
    exact ⟨_, fault, .token lexeme rest⟩
  | faulty f text faulty => exact ⟨[], some (f, pos), .fault faulty⟩

/-- The tokens of a text are slices of it, in order, which with blanks and complete comments make up
the text as far as nothing is wrong with it; and no others do. -/
theorem tokens_tile_text (text : List Char) :
    let scan := Scan.ofText text
    let placed := scan.tokens.map fun t => (t.kind, t.pos)
    (∃ slices : List Slice, placed = slices.map (fun s => (s.kind, s.pos)) ∧
      Tiles 0 text slices scan.fault ∧
      Sliced text slices scan.fault) ∧
    ∀ slices fault, Tiles 0 text slices fault →
      placed = slices.map (fun s => (s.kind, s.pos)) ∧ scan.fault = fault := by
  refine ⟨?_, fun slices fault tiles => tiles.scanned 1⟩
  obtain ⟨slices, fault, tiles⟩ := exists_tiles text 0
  obtain ⟨tokens, rfl⟩ := tiles.scanned 1
  exact ⟨slices, tokens, tiles, tiles.sliced [] rfl⟩

end JamCompiler
