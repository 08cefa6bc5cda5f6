import JamCompiler.Proofs.Tiling

/-!
# Separation

Tokens can be written in a row if a blank stands behind each, with any more blanks and comments
after it: no token goes on with a blank, whatever the next one is and whatever the comments hold. So
the text is scanned as these tokens, each where it was written.
-/

namespace JamCompiler

open Piece (Stops isWordPart)

/-- Blanks and complete comments, each line comment with the line feed that closes it. -/
inductive Spaces : List Char → Prop
  | done : Spaces []
  | blank {c : Char} {more : List Char} (blank : isBlank c) (spaces : Spaces more) :
    Spaces (c :: more)
  | line {body more : List Char} (within : '\n' ∉ body) (spaces : Spaces more) :
    Spaces ('/' :: '/' :: (body ++ '\n' :: more))
  | block {body more : List Char} (within : ¬ ['*', '/'] <:+: body) (spaces : Spaces more) :
    Spaces ('/' :: '*' :: (body ++ '*' :: '/' :: more))

/-- What can stand between two tokens: a blank, and then any blanks and comments. -/
structure Separator where
  first : Char
  rest : List Char
  blank : isBlank first
  spaces : Spaces rest

/-- A token with what it is written as. -/
structure Written where
  kind : TokenKind
  text : List Char
  writes : kind.WrittenAs text

namespace Written

/-- The text of tokens with separators between them. -/
def join (sep : Nat → Separator) : List Written → List Char
  | [] => []
  | [w] => w.text
  | w :: next :: ws =>
    w.text ++ (sep 0).first :: ((sep 0).rest ++ join (fun n => sep (n + 1)) (next :: ws))

/-- The slices that tokens are in the text that they are joined to, from a position on: each comes
after the one before it and the separator between them. -/
def slices (sep : Nat → Separator) (pos : Nat) : List Written → List Slice
  | [] => []
  | w :: ws => ⟨w.kind, pos, w.text⟩ ::
    slices (fun n => sep (n + 1)) (pos + w.text.length + 1 + (sep 0).rest.length) ws

end Written

/-- No token goes on with a blank. -/
theorem TokenKind.ends_blank {c : Char} (blank : isBlank c) (k : TokenKind) (rest : List Char) :
    k.Ends (c :: rest) := by
  cases k with
  | number _ =>
    rintro d ⟨⟩
    exact (not_part_of_isBlank blank).2
  | ident _ | keyword _ =>
    rintro d ⟨⟩
    exact (not_part_of_isBlank blank).1
  | symbol s =>
    rintro d ⟨⟩
    have other {cs : List Char} (all : ∀ e ∈ cs, isBlank e = false) :
        cs ≠ s.spelling.toList ++ [c] := by
      rintro rfl
      rw [all c (by simp)] at blank
      cases blank
    exact ⟨fun longer => other (TokenKind.WrittenAs.symbol longer).not_isBlank,
      (other (not_isBlank_of_any rfl)).symm, (other (not_isBlank_of_any rfl)).symm⟩

namespace Tiles

variable {cs piece more after : List Char} {pos : Nat} {slices : List Slice}
  {fault : Option (ScanFault × Nat)}

/-- A space is passed in front of what is passed already. -/
theorem before (space : Space piece (more ++ after))
    (passes : ∀ pos, Tiles (pos + more.length) after slices fault →
      Tiles pos (more ++ after) slices fault)
    (rest : Tiles (pos + (piece ++ more).length) after slices fault) :
    Tiles pos (piece ++ more ++ after) slices fault := by
  rw [List.length_append, ← Nat.add_assoc] at rest
  rw [List.append_assoc]
  exact .space space (passes _ rest)

/-- Blanks and comments are passed one after the other. -/
theorem spaces (h : Spaces cs) (rest : Tiles (pos + cs.length) after slices fault) :
    Tiles pos (cs ++ after) slices fault := by
  induction h generalizing pos with
  | done => exact rest
  | @blank c more blank _ ih =>
    have space : Space [c] (more ++ after) := .blank blank
    exact before space (fun _ => ih) rest
  | @line body more within _ ih =>
    have comment : Space ('/' :: '/' :: body) ('\n' :: (more ++ after)) :=
      .line within (by rintro _ ⟨⟩; rfl)
    have feed : Space ['\n'] (more ++ after) := .blank rfl
    exact before comment (fun _ => before feed fun _ => ih) rest
  | @block body more within _ ih =>
    have comment : Space ('/' :: '*' :: (body ++ ['*', '/'])) (more ++ after) := .block within
    have whole : '/' :: '*' :: (body ++ '*' :: '/' :: more) =
        '/' :: '*' :: (body ++ ['*', '/']) ++ more := by
      simp
    rw [whole] at rest ⊢
    exact before comment (fun _ => ih) rest

end Tiles

namespace Written

theorem tiles_join (sep : Nat → Separator) (pos : Nat) (ws : List Written) :
    Tiles pos (join sep ws) (slices sep pos ws) none := by
  induction sep, ws using join.induct generalizing pos with
  | case1 => exact .done
  | case2 sep w =>
    have lexeme : Lexeme w.kind w.text [] := ⟨w.writes, by cases w.kind <;> exact nofun⟩
    have alone : Tiles pos (w.text ++ []) [⟨w.kind, pos, w.text⟩] none := .token lexeme .done
    rwa [List.append_nil] at alone
  | case3 sep w next ws ih =>
    have lexeme : Lexeme w.kind w.text
        ((sep 0).first :: ((sep 0).rest ++ join (fun n => sep (n + 1)) (next :: ws))) :=
      ⟨w.writes, TokenKind.ends_blank (sep 0).blank ..⟩
    have blank : Space [(sep 0).first] ((sep 0).rest ++ join (fun n => sep (n + 1)) (next :: ws)) :=
      .blank (sep 0).blank
    exact .token lexeme (.space blank (.spaces (sep 0).spaces (ih _)))

/-- Tokens that are joined by separators are scanned again, each where it was written. -/
theorem scan_join (sep : Nat → Separator) (ws : List Written) :
    let text := join sep ws
    let scan := Scan.ofText text
    scan.fault = none ∧
      scan.tokens.map (fun t => (t.kind, t.pos)) =
        (slices sep 0 ws).map (fun s => (s.kind, s.pos)) ∧
      ∀ s ∈ slices sep 0 ws, text.drop s.pos = s.text ++ text.drop s.stop := by
  have tiles := tiles_join sep 0 ws
  obtain ⟨tokens, whole⟩ := tiles.scanned 1
  exact ⟨whole, tokens, fun s hs => ((tiles.sliced [] rfl).tokens s hs).2.1⟩

end Written

end JamCompiler
