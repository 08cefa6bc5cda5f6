import JamCompiler.Proofs.Language
import JamCompiler.Proofs.Reading.Writing

/-!
# Printing and reading

A tree of the grammar's shape, written as text, is read back up to positions, unless it has a number
of more digits than are taken for one. A text that is read differs from what its tree is printed
with only by tokens that leave no trace: each of them can be left out without another tree being
read, and from the printed tokens none can.
-/

namespace JamCompiler

open Reading
open Relation (ReflTransGen)

/-- One `public` or one pair of parentheses less, and the same tree is read up to positions. -/
def Redundant (ks ks' : List TokenKind) : Prop :=
  Drops ks ks' ∧ ∃ p, Program.ofScan? ⟨unplaced ks, none, 1⟩ = .ok p ∧
    Program.ofScan? ⟨unplaced ks', none, 1⟩ = .ok p

namespace Program

theorem Spelled.unique {p q : Program} {ts : List Token} (h : p.Spelled ts)
    (h' : q.Spelled ts) : p = q := by
  obtain ⟨classes, pos⟩ := p
  obtain ⟨classes', pos'⟩ := q
  obtain ⟨zero, spelled⟩ := h
  obtain ⟨zero', spelled'⟩ := h'
  cases zero
  cases zero'
  cases spelledAll_unique spelled spelled'
  rfl

/-- Tokens of the kinds that spell a tree without positions spell it when positions are put in. -/
theorem Spelled.of_kinds {q : Program} {ts : List Token} (h : q.Spelled (unplaced (kinds ts)))
    (sorted : (ts.map Token.pos).Pairwise (· < ·)) :
    ∃ p : Program, p.Spelled ts ∧ p.bare = q := by
  have parsed : Parsed [.phrase .program] ts :=
    (parsed_iff_spelledAll.mpr ⟨q.classes, h.2⟩).of_kinds (kinds_unplaced (kinds ts)).symm
  obtain ⟨cs, spelled⟩ := parsed_iff_spelledAll.mp parsed
  have whole : Program.Spelled ⟨cs, 0⟩ ts := ⟨rfl, spelled⟩
  exact ⟨⟨cs, 0⟩, whole, (whole.reduces sorted).start.unique h⟩

/-- A text with the tokens that a tree is printed with is read as that tree up to positions. -/
theorem read_of_print {p : Program} (shaped : p.Shaped) {text : List Char}
    (whole : (Scan.ofText text).fault = none)
    (printed : kinds (Scan.ofText text).tokens = p.print) :
    ∃ q, ofText? text = .ok q ∧ q.bare = p.bare := by
  have spelled := spelled_print shaped
  rw [← printed] at spelled
  obtain ⟨q, read, same⟩ := Spelled.of_kinds spelled (Scan.sorted_tokens text)
  exact ⟨q, ReadAs.ok_iff.mpr ⟨whole, read⟩, same⟩

/-- A tree that is written without too long a number is read back, and only such a tree. -/
theorem read_write {p : Program} (shaped : p.Shaped) (writable : ∀ k ∈ p.print, k.Writable) :
    (∃ q, ofText? (write p.print) = .ok q ∧ q.bare = p.bare) ↔ ∀ k ∈ p.print, k.Short := by
  obtain ⟨tokens, whole⟩ := Scan.ofText_write writable
  constructor
  · rintro ⟨q, ok, -⟩
    exact whole.mp (ReadAs.ok_iff.mp ok).1
  · intro short
    exact read_of_print shaped (whole.mpr short) (tokens short)

theorem read_place {p : Program} {ks : List TokenKind} :
    ofScan? ⟨unplaced ks, none, 1⟩ = .ok p ↔ p.Spelled (unplaced ks) := by
  simp [ReadAs.ok_iff]

theorem redundant_of_reduces {q : Program} {ks ks' : List TokenKind}
    (h : Reduces (fun ks => q.Spelled (unplaced ks)) ks ks') : ReflTransGen Redundant ks ks' := by
  obtain ⟨start, steps⟩ := h
  have both : ReflTransGen Redundant ks ks' ∧ q.Spelled (unplaced ks') := by
    induction steps with
    | refl => exact ⟨.refl, start⟩
    | tail _ last ih =>
      have step : Redundant _ _ := ⟨last.1, q, read_place.mpr ih.2, read_place.mpr last.2⟩
      exact ⟨ih.1.tail step, last.2⟩
  exact both.1

/-- Tokens of given kinds, each at its own place. -/
def numbered (ks : List TokenKind) : List Token := ks.zipIdx.map fun entry => ⟨entry.1, entry.2, 0⟩

theorem kinds_numbered (ks : List TokenKind) : kinds (numbered ks) = ks := by
  rw [numbered, kinds, List.map_map]
  exact List.zipIdx_map_fst 0 ks

theorem sorted_numbered (ks : List TokenKind) : ((numbered ks).map Token.pos).Pairwise (· < ·) := by
  have positions : (numbered ks).map Token.pos = List.range' 0 ks.length := by
    rw [numbered, List.map_map]
    exact List.zipIdx_map_snd 0 ks
  rw [positions]
  exact List.pairwise_lt_range'

/-- No tokens that spell a tree are fewer than those it is printed with. -/
theorem length_print_le {p : Program} {ks : List TokenKind} (h : p.bare.Spelled (unplaced ks)) :
    p.print.length ≤ ks.length := by
  have spelled := h
  rw [← kinds_numbered ks] at spelled
  obtain ⟨q, read, same⟩ := Spelled.of_kinds spelled (sorted_numbered ks)
  have shorter := (read.reduces (sorted_numbered ks)).sublist.length_le
  rwa [kinds_numbered, ← q.length_print_bare, same, p.length_print_bare] at shorter

/-- From the printed tokens nothing can be left out. -/
theorem print_minimal {p : Program} (shaped : p.Shaped) (ks : List TokenKind) :
    ¬ Redundant p.print ks := by
  rintro ⟨drops, q, read, read'⟩
  obtain rfl := (read_place.mp read).unique (spelled_print shaped)
  exact absurd (length_print_le (read_place.mp read')) (Nat.not_le.mpr drops.length_lt)

/-- A text that is read becomes what its tree is printed with, by leaving out redundant tokens. -/
theorem print_of_read {text : List Char} {p : Program} (ok : ofText? text = .ok p) :
    ReflTransGen Redundant (kinds (Scan.ofText text).tokens) p.print :=
  redundant_of_reduces ((ReadAs.ok_iff.mp ok).2.reduces (Scan.sorted_tokens text))

/-- What a tree that is read is printed with was in the text. -/
theorem mem_of_print {text : List Char} {p : Program} (ok : ofText? text = .ok p) {k : TokenKind}
    (hk : k ∈ p.print) : k.Writable ∧ k.Short := by
  have kept := ((ReadAs.ok_iff.mp ok).2.reduces (Scan.sorted_tokens text)).sublist.subset hk
  obtain ⟨t, ht, rfl⟩ := List.mem_map.mp kept
  exact Scan.writable_of_mem ht

end Program

/-- A tree of the grammar's shape is printed without redundant tokens, and writing it and reading it
gives it back up to positions exactly if its numbers are not too long; and a tree that is read has
that shape, names for its names and no longer numbers, and is printed with the tokens of the text
that are left without the redundant ones. -/
theorem round_trip :
    (∀ p : Program, p.Shaped → (∀ ks, ¬ Redundant p.print ks) ∧
      ((∀ k ∈ p.print, k.Writable) →
        ((∃ q, Program.ofText? (write p.print) = .ok q ∧ q.bare = p.bare) ↔
          ∀ k ∈ p.print, k.Short))) ∧
    (∀ text p, Program.ofText? text = .ok p →
      p.Shaped ∧ (∀ k ∈ p.print, k.Writable ∧ k.Short) ∧
        ReflTransGen Redundant (kinds (Scan.ofText text).tokens) p.print) := by
  constructor
  · intro p shaped
    exact ⟨fun ks => Program.print_minimal shaped ks,
      fun writable => Program.read_write shaped writable⟩
  · intro text p ok
    have shaped := (Program.ReadAs.ok_iff.mp ok).2.shaped
    exact ⟨shaped, fun k hk => Program.mem_of_print ok hk, Program.print_of_read ok⟩

/-- A text with a `public` and a pair of parentheses that its tree does not record. -/
def parenthesizedText : List Char := "class A { public int f() { return (1); } }".toList

def parenthesizedTokens : List Token := [
  ⟨.keyword .classWord, 0, 1⟩, ⟨.ident "A", 6, 1⟩, ⟨.symbol .lbrace, 8, 1⟩,
  ⟨.keyword .publicWord, 10, 1⟩, ⟨.keyword .intWord, 17, 1⟩, ⟨.ident "f", 21, 1⟩,
  ⟨.symbol .lparen, 22, 1⟩, ⟨.symbol .rparen, 23, 1⟩, ⟨.symbol .lbrace, 25, 1⟩,
  ⟨.keyword .returnWord, 27, 1⟩, ⟨.symbol .lparen, 34, 1⟩, ⟨.number 1, 35, 1⟩,
  ⟨.symbol .rparen, 36, 1⟩, ⟨.symbol .semicolon, 37, 1⟩, ⟨.symbol .rbrace, 39, 1⟩,
  ⟨.symbol .rbrace, 41, 1⟩]

def parenthesizedProgram : Program where
  classes := [{
    name := "A"
    fields := []
    methods := [{
      head := {
        name := "f"
        result := .base .int 17
        isPrivate := false
        isStatic := false
        params := []
        pos := 21 }
      body := [.ret (some (.int 1 35)) 27] }]
    pos := 6 }]

theorem parenthesizedText_read :
    Program.ofText? parenthesizedText = .ok parenthesizedProgram := by
  have tokens : (Scan.ofText parenthesizedText).tokens = parenthesizedTokens := by decide +kernel
  have read : Program.ofScan? ⟨parenthesizedTokens, none, 1⟩ = .ok parenthesizedProgram := rfl
  refine Program.ReadAs.ok_iff.mpr ⟨by decide +kernel, ?_⟩
  rw [tokens]
  exact (Program.ReadAs.ok_iff.mp read).2

/-- What it is printed with is what is left without them, and is read back. -/
theorem parenthesizedText_round_trip :
    Program.ofText? parenthesizedText = .ok parenthesizedProgram ∧
      ReflTransGen Redundant (kinds (Scan.ofText parenthesizedText).tokens)
        parenthesizedProgram.print ∧
      (∀ ks, ¬ Redundant parenthesizedProgram.print ks) ∧
      ∃ q, Program.ofText? (write parenthesizedProgram.print) = .ok q ∧
        q.bare = parenthesizedProgram.bare := by
  obtain ⟨shaped, writable, leaves⟩ := round_trip.2 _ _ parenthesizedText_read
  obtain ⟨minimal, back⟩ := round_trip.1 parenthesizedProgram shaped
  have read := (back fun k hk => (writable k hk).1).mpr fun k hk => (writable k hk).2
  exact ⟨parenthesizedText_read, leaves, minimal, read⟩

/-- A program that returns a number of one digit more than are taken for one. -/
def longNumberProgram : Program where
  classes := [{
    name := "A"
    fields := []
    methods := [{
      head := {
        name := "f"
        result := .base .int 0
        isPrivate := false
        isStatic := false
        params := []
        pos := 0 }
      body := [.ret (some (.int (10 ^ Piece.maxDigits : Nat) 0)) 0] }]
    pos := 0 }]

/-- It has the grammar's shape and is not read back. -/
theorem longNumberProgram_refused :
    longNumberProgram.Shaped ∧ (∀ k ∈ longNumberProgram.print, k.Writable) ∧
      ¬ ∃ q, Program.ofText? (write longNumberProgram.print) = .ok q ∧
        q.bare = longNumberProgram.bare := by
  have print : longNumberProgram.print = [.keyword .classWord, .ident "A", .symbol .lbrace,
      .keyword .intWord, .ident "f", .symbol .lparen, .symbol .rparen, .symbol .lbrace,
      .keyword .returnWord,
      .number (10 ^ Piece.maxDigits), .symbol .semicolon, .symbol .rbrace, .symbol .rbrace] := by
    simp only [longNumberProgram, Program.print, ClassDecl.printAll, List.flatMap_singleton,
      ClassDecl.print, ClassDecl.inOrder, List.map_nil, List.nil_merge, List.map_singleton]
    rfl
  have shaped : longNumberProgram.Shaped := by
    refine List.forall_mem_singleton.mpr ⟨List.forall_mem_nil _,
      List.forall_mem_singleton.mpr ⟨?_, ?_, ?_⟩⟩
    · exact .inl trivial
    · exact List.forall_mem_nil _
    · exact ⟨Int.natCast_nonneg _, trivial⟩
  have writable : ∀ k ∈ longNumberProgram.print, k.Writable := by
    rw [print]
    simp only [List.forall_mem_cons, TokenKind.Writable, List.not_mem_nil, false_implies,
      implies_true, true_and, and_true]
    exact ⟨⟨by decide, by decide⟩, ⟨by decide, by decide⟩⟩
  refine ⟨shaped, writable, fun read => ?_⟩
  have short :=
    (Program.read_write shaped writable).mp read (.number (10 ^ Piece.maxDigits)) (by simp [print])
  exact absurd short (Nat.lt_irrefl _)

end JamCompiler
