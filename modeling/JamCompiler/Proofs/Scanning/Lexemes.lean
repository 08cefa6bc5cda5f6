import JamCompiler.Proofs.Reading.Writing
import Mathlib.Data.Nat.Digits.Defs

/-!
# Lexemes

What can stand at the front of a text, said without the scan: a blank or a complete comment, a token
that is as long as it can be, or something that is none of them. At the front of every text there is
exactly one of these, and it is the piece that the scan finds there.
-/

namespace JamCompiler

open Piece (Stops commentRest isWordPart isWordStart maxDigits symbol?)

/-- Spaces, tabs, carriage returns and line feeds. -/
def isBlank (c : Char) : Bool := c = ' ' || c = '\t' || c = '\r' || c = '\n'

/-- A text that is a blank or a complete comment in front of another text. A line comment goes on to
the end of its line, a block comment to the first place where it can end. -/
inductive Space : List Char → List Char → Prop
  | blank {c : Char} {after : List Char} (blank : isBlank c) : Space [c] after
  | line {body after : List Char} (within : '\n' ∉ body) (stops : Stops (· != '\n') after) :
    Space ('/' :: '/' :: body) after
  | block {body after : List Char} (within : ¬ ['*', '/'] <:+: body) :
    Space ('/' :: '*' :: (body ++ ['*', '/'])) after

/-- What a token can be written as. A number is written in the digits of any scripts, with any zeros
in front; every other token has one spelling. -/
inductive TokenKind.WrittenAs : TokenKind → List Char → Prop
  | number {digits : List Char} {values : List Nat}
      (valued : digits.map Text.digitValue? = values.map some)
      (any : digits ≠ []) (few : digits.length ≤ maxDigits) :
    WrittenAs (.number (Nat.ofDigits 10 values.reverse)) digits
  | keyword (word : Keyword) : WrittenAs (.keyword word) word.spelling.toList
  | ident {name : String} (isName : IsName name) : WrittenAs (.ident name) name.toList
  | symbol (s : Symbol) : WrittenAs (.symbol s) s.spelling.toList

/-- Whether a symbol does not go on in a text: with the next character it is no other symbol, and
begins no comment. -/
def Symbol.Ends (s : Symbol) (after : List Char) : Prop :=
  ∀ d ∈ after.head?, (∀ longer : Symbol, longer.spelling.toList ≠ s.spelling.toList ++ [d]) ∧
    s.spelling.toList ++ [d] ≠ ['/', '/'] ∧ s.spelling.toList ++ [d] ≠ ['/', '*']

/-- Whether a token does not go on in a text. -/
def TokenKind.Ends : TokenKind → List Char → Prop
  | number _, after => Stops Text.isDigit after
  | ident _, after | keyword _, after => Stops isWordPart after
  | symbol s, after => s.Ends after

/-- A text that is a token in front of another text, in which it does not go on. -/
structure Lexeme (k : TokenKind) (piece after : List Char) : Prop where
  written : k.WrittenAs piece
  ends : k.Ends after

/-- What is wrong with a text from its first character on: a block comment that is never closed, a
whole run of digits that is too long for a number, or a character with which nothing begins. -/
inductive Faulty : ScanFault → List Char → Prop
  | openComment {rest : List Char} (unclosed : ¬ ['*', '/'] <:+: rest) :
    Faulty .openComment ('/' :: '*' :: rest)
  | longNumber {digits after : List Char} (all : ∀ d ∈ digits, Text.isDigit d)
      (stops : Stops Text.isDigit after) (many : maxDigits < digits.length) :
    Faulty .longNumber (digits ++ after)
  | illegalCharacter {c : Char} {rest : List Char} (blank : isBlank c = false)
      (digit : Text.isDigit c = false) (letter : isWordStart c = false)
      (symbol : ∀ s : Symbol, ¬ s.spelling.toList <+: c :: rest) :
    Faulty (.illegalCharacter c) (c :: rest)

/-- Whether a piece is what stands at the front of a text. -/
inductive Piece.Fronts : Piece → List Char → Prop
  | blank {piece after : List Char} (space : Space piece after) :
    Fronts (.blank piece.length) (piece ++ after)
  | token {k : TokenKind} {piece after : List Char} (lexeme : Lexeme k piece after) :
    Fronts (.token k piece.length) (piece ++ after)
  | fault {f : ScanFault} {text : List Char} (faulty : Faulty f text) : Fronts (.fault f) text

/-- A blank is no part of a word or a number. -/
theorem not_part_of_isBlank {c : Char} (blank : isBlank c) :
    isWordPart c = false ∧ Text.isDigit c = false := by
  simp only [isBlank, Bool.or_eq_true, decide_eq_true_eq] at blank
  obtain ((rfl | rfl) | rfl) | rfl := blank <;> exact ⟨rfl, rfl⟩

namespace Piece

section Comments

variable {body after cs : List Char} {n : Nat}

theorem commentRest_of_body (within : ¬ ['*', '/'] <:+: body) :
    commentRest (body ++ '*' :: '/' :: after) = some (body.length + 2) := by
  induction body with
  | nil => rfl
  | cons c body ih =>
    have notHere : ∀ rest, c = '*' → body ++ '*' :: '/' :: after = '/' :: rest → False := by
      rintro rest rfl meet
      cases body with
      | nil => cases meet
      | cons d body =>
        cases meet
        exact within (List.prefix_append ['*', '/'] body).isInfix
    have notLater : ¬ ['*', '/'] <:+: body := fun later => within (List.infix_cons later)
    rw [List.cons_append, commentRest.eq_3 _ _ notHere, ih notLater]
    rfl

theorem exists_body (h : commentRest cs = some n) :
    ∃ body after, cs = body ++ '*' :: '/' :: after ∧ n = body.length + 2 ∧
      ¬ ['*', '/'] <:+: body := by
  induction cs using commentRest.induct generalizing n with
  | case1 => cases h
  | case2 after =>
    cases h
    exact ⟨[], after, rfl, rfl, by decide⟩
  | case3 c rest other ih =>
    rw [commentRest.eq_3 _ _ other] at h
    obtain ⟨m, found, rfl⟩ := Option.map_eq_some_iff.mp h
    obtain ⟨body, after, rfl, rfl, within⟩ := ih found
    refine ⟨c :: body, after, rfl, rfl, fun inside => ?_⟩
    rcases List.infix_cons_iff.mp inside with front | later
    · obtain ⟨tail, meet⟩ := front
      obtain ⟨rfl, rest⟩ := List.cons.inj meet
      exact other (tail ++ '*' :: '/' :: after) rfl (by rw [← rest]; rfl)
    · exact within later

/-- A block comment has no end exactly if its closing mark occurs nowhere: the first such mark ends
it. -/
theorem commentRest_eq_none_iff : commentRest cs = none ↔ ¬ ['*', '/'] <:+: cs := by
  constructor
  · rintro none ⟨before, after, rfl⟩
    induction before with
    | nil => cases none
    | cons c before ih =>
      rw [List.cons_append, List.cons_append] at none
      unfold commentRest at none
      split at none
      · rename_i same
        cases same
      · cases none
      · rename_i same
        cases same
        exact ih (Option.map_eq_none_iff.mp none)
  · intro unclosed
    cases found : commentRest cs with
    | none => rfl
    | some n =>
      obtain ⟨body, after, rfl, -, -⟩ := exists_body found
      exact absurd ⟨body, after, by simp⟩ unclosed

end Comments

theorem stops_dropWhile (p : Char → Bool) (cs : List Char) : Stops p (cs.dropWhile p) := by
  intro d front
  have first := List.head?_dropWhile_not p cs
  rwa [Option.mem_def.mp front] at first

end Piece

namespace Text

variable {c : Char} {digits : List Char} {values : List Nat}

theorem numeral_eq (valued : digits.map digitValue? = values.map some) :
    numeral digits = Nat.ofDigits 10 values.reverse := by
  have byValue :
      numeral digits = (digits.map digitValue?).foldl (fun n v => 10 * n + v.getD 0) 0 := by
    rw [List.foldl_map]
    rfl
  rw [byValue, valued, List.foldl_map, Nat.ofDigits_eq_foldr, List.foldr_reverse]
  simp only [Option.getD_some, Nat.cast_id, Nat.add_comm]

theorem exists_values (all : ∀ d ∈ digits, isDigit d) :
    ∃ values : List Nat, digits.map digitValue? = values.map some := by
  refine ⟨digits.map fun d => (digitValue? d).getD 0, ?_⟩
  rw [List.map_map]
  refine List.map_congr_left fun d hd => ?_
  obtain ⟨v, value⟩ := Option.isSome_iff_exists.mp (all d hd)
  simp [value]

theorem isDigit_of_valued (valued : digits.map digitValue? = values.map some) :
    ∀ d ∈ digits, isDigit d := by
  intro d hd
  obtain ⟨v, -, value⟩ := List.mem_map.mp (valued ▸ List.mem_map_of_mem hd)
  rw [isDigit, ← value]
  rfl

theorem isDigit_only (h : isDigit c) : isBlank c = false ∧ c ≠ '/' := by
  refine ⟨?_, ?_⟩
  · by_contra blank
    rw [(not_part_of_isBlank (Bool.not_eq_false _ ▸ blank)).2] at h
    cases h
  · rintro rfl
    cases h

end Text

namespace Symbol

variable {c d : Char} {used rest : List Char} {s : Symbol} {n : Nat}

theorem spelling_cases (s : Symbol) :
    (∃ c, s.spelling.toList = [c]) ∨ ∃ c d, s.spelling.toList = [c, d] := by
  cases s <;> first | exact .inl ⟨_, rfl⟩ | exact .inr ⟨_, _, rfl⟩

/-- A symbol of two characters ends wherever it stands. -/
theorem ends_of_two (two : s.spelling.toList = [c, d]) (after : List Char) : s.Ends after := by
  refine fun e _ => ⟨fun longer same => ?_, ?_, ?_⟩
  · rw [two] at same
    obtain ⟨_, one⟩ | ⟨_, _, two⟩ := longer.spelling_cases
    · cases one.symm.trans same
    · cases two.symm.trans same
  all_goals
    rw [two]
    exact nofun

theorem front_of_symbol? (h : symbol? c rest = some (s, n)) :
    ∃ used after, rest = used ++ after ∧ n = used.length + 1 ∧ s.spelling.toList = c :: used := by
  unfold symbol? at h
  split at h <;> cases h
  all_goals first | exact ⟨[], _, rfl, rfl, rfl⟩ | exact ⟨[_], _, rfl, rfl, rfl⟩

theorem symbol?_of_two (two : s.spelling.toList = [c, d]) (rest : List Char) :
    symbol? c (d :: rest) = some (s, 2) := by
  cases s <;> cases two <;> rfl

theorem symbol?_of_one (one : s.spelling.toList = [c])
    (alone : ∀ d ∈ rest.head?, ∀ longer : Symbol, longer.spelling.toList ≠ [c, d]) :
    symbol? c rest = some (s, 1) := by
  cases rest with
  | nil => cases s <;> cases one <;> rfl
  | cons d rest =>
    -- Four symbols go on with an equality sign.
    have single (longer : Symbol) (same : longer.spelling.toList = [c, '=']) : d ≠ '=' := by
      rintro rfl
      exact alone '=' rfl longer same
    cases s
    case assign =>
      obtain ⟨⟩ : ['='] = [c] := one
      simp [symbol?, single .eq rfl]
    case not =>
      obtain ⟨⟩ : ['!'] = [c] := one
      simp [symbol?, single .ne rfl]
    case lt =>
      obtain ⟨⟩ : ['<'] = [c] := one
      simp [symbol?, single .le rfl]
    case gt =>
      obtain ⟨⟩ : ['>'] = [c] := one
      simp [symbol?, single .ge rfl]
    all_goals cases one <;> rfl

/-- A symbol is found where it is spelled and does not go on. -/
theorem symbol?_of_ends {after : List Char} (spelled : s.spelling.toList = c :: used)
    (ends : s.Ends after) : symbol? c (used ++ after) = some (s, used.length + 1) := by
  obtain ⟨_, one⟩ | ⟨_, _, two⟩ := s.spelling_cases
  · obtain ⟨rfl, rfl⟩ := List.cons.inj (one.symm.trans spelled)
    exact symbol?_of_one one fun d next longer => by simpa [one] using (ends d next).1 longer
  · obtain ⟨rfl, rfl⟩ := List.cons.inj (two.symm.trans spelled)
    exact symbol?_of_two two after

/-- A symbol that is found in place of a slash does not go on. -/
theorem ends_of_symbol? {after : List Char}
    (h : symbol? c (used ++ after) = some (s, used.length + 1))
    (spelled : s.spelling.toList = c :: used) (noSlash : c ≠ '/') : s.Ends after := by
  obtain ⟨_, one⟩ | ⟨_, _, two⟩ := s.spelling_cases
  · obtain ⟨rfl, rfl⟩ := List.cons.inj (one.symm.trans spelled)
    intro d next
    obtain ⟨rest, rfl⟩ : ∃ rest, after = d :: rest := List.head?_eq_some_iff.mp next
    rw [one]
    refine ⟨fun longer same => ?_, ?_, ?_⟩
    · cases (symbol?_of_two same rest).symm.trans h
    all_goals
      rintro ⟨⟩
      exact noSlash rfl
  · exact ends_of_two two after

theorem isSome_symbol? (front : s.spelling.toList <+: c :: rest) : (symbol? c rest).isSome := by
  by_cases goesOn : ∃ d after, rest = d :: after ∧ ∃ longer : Symbol,
    longer.spelling.toList = [c, d]
  · obtain ⟨d, after, rfl, longer, two⟩ := goesOn
    rw [symbol?_of_two two]
    rfl
  obtain ⟨after, meet⟩ := front
  obtain ⟨_, one⟩ | ⟨_, d, two⟩ := s.spelling_cases
  · rw [one] at meet
    obtain ⟨rfl, rfl⟩ := List.cons.inj meet
    rw [symbol?_of_one one fun d next longer same => ?_]
    · rfl
    · obtain ⟨rest, meet⟩ := List.head?_eq_some_iff.mp next
      exact goesOn ⟨d, rest, meet, longer, same⟩
  · rw [two] at meet
    obtain ⟨rfl, rfl⟩ := List.cons.inj meet
    exact absurd ⟨d, after, rfl, s, two⟩ goesOn

/-- No symbol but the slash begins where a blank, a comment, a number or a word could. -/
theorem first_symbol? (spelled : s.spelling.toList = c :: used) (other : s ≠ .divide)
    (rest : List Char) :
    Piece.first c rest = match symbol? c rest with
      | some (s, n) => .token (.symbol s) n
      | none => .fault (.illegalCharacter c) := by
  cases s <;> first | exact absurd rfl other | (cases spelled; rfl)

end Symbol

theorem TokenKind.WrittenAs.exists_cons {k : TokenKind} {piece : List Char}
    (h : k.WrittenAs piece) : ∃ c used, piece = c :: used := by
  cases h with
  | number _ any => exact List.exists_cons_of_ne_nil any
  | keyword word => cases word <;> exact ⟨_, _, rfl⟩
  | ident isName =>
    obtain ⟨d, ds, spelled, -⟩ := isName.exists_cons
    exact ⟨d, ds, spelled⟩
  | symbol s => cases s <;> exact ⟨_, _, rfl⟩

theorem Space.exists_cons {piece after : List Char} (h : Space piece after) :
    ∃ c used, piece = c :: used := by
  cases h <;> exact ⟨_, _, rfl⟩

theorem not_isBlank_of_any {cs : List Char} (h : cs.any isBlank = false) :
    ∀ d ∈ cs, isBlank d = false :=
  fun d hd => Bool.eq_false_iff.mpr (List.any_eq_false.mp h d hd)

/-- No token has a blank in it. -/
theorem TokenKind.WrittenAs.not_isBlank {k : TokenKind} {piece : List Char}
    (h : k.WrittenAs piece) : ∀ d ∈ piece, isBlank d = false := by
  cases h with
  | number valued => exact fun d hd => (Text.isDigit_only (Text.isDigit_of_valued valued d hd)).1
  | keyword word => exact not_isBlank_of_any (by cases word <;> rfl)
  | ident isName =>
    obtain ⟨c, cs, spelled, word⟩ := isName.exists_cons
    obtain ⟨start, parts⟩ := Bool.and_eq_true_iff.mp word
    rw [spelled]
    refine List.forall_mem_cons.mpr ⟨(isWordStart_only start).1, fun d hd => ?_⟩
    by_contra blank
    have noPart := (not_part_of_isBlank (Bool.not_eq_false _ ▸ blank)).1
    rw [List.all_eq_true.mp parts d hd] at noPart
    cases noPart
  | symbol s => exact not_isBlank_of_any (by cases s <;> rfl)

namespace Piece

variable {c : Char} {used after rest : List Char}

theorem first_slash (rest : List Char) : first '/' rest = slash rest := rfl

/-- What stands at the front of a text that begins with no blank and no slash. -/
theorem first_other (blank : isBlank c = false) (noSlash : c ≠ '/') (rest : List Char) :
    first c rest = if Text.isDigit c then number c rest
      else if isWordStart c then word c rest
      else match symbol? c rest with
        | some (s, n) => .token (.symbol s) n
        | none => .fault (.illegalCharacter c) :=
  (if_neg (Bool.eq_false_iff.mp blank)).trans (if_neg noSlash)

theorem first_digit (digit : Text.isDigit c) (rest : List Char) : first c rest = number c rest := by
  obtain ⟨blank, noSlash⟩ := Text.isDigit_only digit
  rw [first_other blank noSlash, if_pos digit]

theorem first_of_space (h : Space (c :: used) after) :
    first c (used ++ after) = .blank (used.length + 1) := by
  cases h with
  | blank blank => exact if_pos blank
  | @line body _ within stops =>
    have run : (body ++ after).takeWhile (· != '\n') = body :=
      takeWhile_of_stops (fun d hd => bne_iff_ne.mpr fun same => within (same ▸ hd)) stops
    rw [first_slash, List.cons_append, slash_line, run]
    rfl
  | @block body _ within =>
    rw [first_slash, List.cons_append, slash_block, List.append_assoc]
    simp only [List.cons_append, List.nil_append, commentRest_of_body within]
    simp

theorem first_of_lexeme {k : TokenKind} (h : Lexeme k (c :: used) after) :
    first c (used ++ after) = .token k (used.length + 1) := by
  obtain ⟨written, ends⟩ := h
  generalize text : c :: used = piece at written
  cases written with
  | @number digits values valued any few =>
    subst text
    obtain ⟨digit, others⟩ := List.forall_mem_cons.mp (Text.isDigit_of_valued valued)
    rw [first_digit digit, number, takeWhile_of_stops others ends,
      Text.numeral_eq valued, if_pos few]
    rfl
  | keyword word =>
    have isWord : isWord (c :: used) := by
      rw [text]
      cases word <;> decide
    rw [first_word isWord ends, text, String.ofList_toList, Keyword.ofSpelling?_spelling]
  | ident isName => exact first_name isName text.symm ends
  | symbol s =>
    by_cases divide : s = .divide
    · subst divide
      obtain ⟨rfl, rfl⟩ := List.cons.inj text
      cases after with
      | nil => rfl
      | cons d after =>
        obtain ⟨-, line, block⟩ := ends d rfl
        exact slash_other (fun same => line (by rw [same]; rfl))
          (fun same => block (by rw [same]; rfl)) after
    · rw [Symbol.first_symbol? text.symm divide, Symbol.symbol?_of_ends text.symm ends]

theorem first_of_faulty {f : ScanFault} (h : Faulty f (c :: rest)) : first c rest = .fault f := by
  generalize text : c :: rest = cs at h
  cases h with
  | openComment unclosed =>
    obtain ⟨rfl, rfl⟩ := List.cons.inj text
    rw [first_slash, slash_block, commentRest_eq_none_iff.mpr unclosed]
  | @longNumber digits after all stops many =>
    cases digits with
    | nil => cases many
    | cons d digits =>
      rw [List.cons_append] at text
      obtain ⟨rfl, rfl⟩ := List.cons.inj text
      obtain ⟨digit, others⟩ := List.forall_mem_cons.mp all
      rw [first_digit digit, number, takeWhile_of_stops others stops, if_neg (Nat.not_le.mpr many)]
  | illegalCharacter blank digit letter symbol =>
    obtain ⟨rfl, rfl⟩ := List.cons.inj text
    have noSlash : c ≠ '/' := by
      rintro rfl
      exact symbol .divide (List.prefix_append ['/'] rest)
    have none : symbol? c rest = none := by
      cases found : symbol? c rest with
      | none => rfl
      | some pair =>
        obtain ⟨s, n⟩ := pair
        obtain ⟨used, after, rfl, -, spelled⟩ := Symbol.front_of_symbol? found
        exact absurd (spelled ▸ List.prefix_append (c :: used) after) (symbol s)
    rw [first_other blank noSlash, if_neg (Bool.eq_false_iff.mp digit),
      if_neg (Bool.eq_false_iff.mp letter), none]

theorem fronts_slash (rest : List Char) : (slash rest).Fronts ('/' :: rest) := by
  have divide {after : List Char} (ends : Symbol.divide.Ends after) :
      (token (.symbol .divide) 1).Fronts ('/' :: after) :=
    have lexeme : Lexeme (.symbol .divide) ['/'] after := ⟨.symbol .divide, ends⟩
    .token lexeme
  cases rest with
  | nil => exact divide nofun
  | cons d rest =>
    by_cases line : d = '/'
    · subst line
      have whole : rest.takeWhile (· != '\n') ++ rest.dropWhile (· != '\n') = rest :=
        List.takeWhile_append_dropWhile
      have space : Space ('/' :: '/' :: rest.takeWhile (· != '\n')) (rest.dropWhile (· != '\n')) :=
        .line (fun inside => by simpa using List.all_eq_true.mp List.all_takeWhile _ inside)
          (stops_dropWhile _ rest)
      have front := Fronts.blank space
      rwa [List.cons_append, List.cons_append, whole] at front
    by_cases block : d = '*'
    · subst block
      rw [slash_block]
      cases ended : commentRest rest with
      | none => exact .fault (.openComment (commentRest_eq_none_iff.mp ended))
      | some n =>
        obtain ⟨body, after, rfl, rfl, within⟩ := exists_body ended
        have space : Space ('/' :: '*' :: (body ++ ['*', '/'])) after := .block within
        simpa using Fronts.blank space
    · rw [slash_other line block]
      refine divide fun d' next => ?_
      obtain rfl : d = d' := Option.some.inj next
      have two : Symbol.divide.spelling.toList ++ [d] = ['/', d] := rfl
      rw [two]
      refine ⟨fun longer same => ?_, fun same => line (by simpa using same),
        fun same => block (by simpa using same)⟩
      cases longer <;> cases same

/-- A run of characters is split off at the front of a text. -/
theorem fronts_run {p : Char → Bool} {piece : Piece}
    (front : piece.Fronts ((c :: rest.takeWhile p) ++ rest.dropWhile p)) :
    piece.Fronts (c :: rest) := by
  rwa [List.cons_append, List.takeWhile_append_dropWhile] at front

theorem fronts_number (digit : Text.isDigit c) (rest : List Char) :
    (number c rest).Fronts (c :: rest) := by
  have all : ∀ d ∈ c :: rest.takeWhile Text.isDigit, Text.isDigit d :=
    List.forall_mem_cons.mpr ⟨digit, List.all_eq_true.mp List.all_takeWhile⟩
  have stops := stops_dropWhile Text.isDigit rest
  simp only [number]
  split
  · rename_i few
    obtain ⟨values, valued⟩ := Text.exists_values all
    rw [Text.numeral_eq valued]
    exact fronts_run (.token ⟨.number valued (List.cons_ne_nil _ _) few, stops⟩)
  · rename_i many
    exact fronts_run (.fault (.longNumber all stops (Nat.not_le.mp many)))

theorem fronts_word (start : isWordStart c) (rest : List Char) :
    (word c rest).Fronts (c :: rest) := by
  have stops := stops_dropWhile isWordPart rest
  have isWord : isWord (c :: rest.takeWhile isWordPart) :=
    Bool.and_eq_true_iff.mpr ⟨start, List.all_takeWhile⟩
  simp only [word]
  cases reserved : Keyword.ofSpelling? (String.ofList (c :: rest.takeWhile isWordPart)) with
  | some keyword =>
    have written := TokenKind.WrittenAs.keyword keyword
    rw [Keyword.spelling_of_ofSpelling? reserved, String.toList_ofList] at written
    exact fronts_run (.token ⟨written, stops⟩)
  | none =>
    have isName : IsName (String.ofList (c :: rest.takeWhile isWordPart)) :=
      ⟨by rwa [String.toList_ofList], reserved⟩
    have written := TokenKind.WrittenAs.ident isName
    rw [String.toList_ofList] at written
    exact fronts_run (.token ⟨written, stops⟩)

/-- What is scanned at the front of a text stands there. -/
theorem fronts_first (c : Char) (rest : List Char) : (first c rest).Fronts (c :: rest) := by
  cases blank : isBlank c with
  | true =>
    have blankPiece : first c rest = .blank 1 := if_pos blank
    rw [blankPiece]
    have space : Space [c] rest := .blank blank
    exact .blank space
  | false =>
    by_cases isSlash : c = '/'
    · subst isSlash
      exact fronts_slash rest
    rw [first_other blank isSlash]
    by_cases digit : Text.isDigit c
    · rw [if_pos digit]
      exact fronts_number digit rest
    by_cases start : isWordStart c
    · rw [if_neg digit, if_pos start]
      exact fronts_word start rest
    rw [if_neg digit, if_neg start]
    cases found : symbol? c rest with
    | none =>
      refine .fault
        (.illegalCharacter blank (Bool.eq_false_iff.mpr digit) (Bool.eq_false_iff.mpr start)
        fun s front => ?_)
      have some := Symbol.isSome_symbol? front
      rw [found] at some
      cases some
    | some pair =>
      obtain ⟨s, n⟩ := pair
      obtain ⟨used, after, rfl, rfl, spelled⟩ := Symbol.front_of_symbol? found
      have written := TokenKind.WrittenAs.symbol s
      rw [spelled] at written
      exact .token ⟨written, Symbol.ends_of_symbol? found spelled isSlash⟩

end Piece

namespace Piece

variable {c : Char} {rest : List Char} {n : Nat}

theorem exists_space (h : first c rest = .blank n) :
    ∃ used after, rest = used ++ after ∧ n = used.length + 1 ∧ Space (c :: used) after := by
  have front := fronts_first c rest
  rw [h] at front
  generalize whole : c :: rest = text at front
  cases front with
  | blank space =>
    obtain ⟨d, used, rfl⟩ := space.exists_cons
    obtain ⟨rfl, rfl⟩ := List.cons.inj whole
    exact ⟨used, _, rfl, rfl, space⟩

theorem exists_lexeme {k : TokenKind} (h : first c rest = .token k n) :
    ∃ used after, rest = used ++ after ∧ n = used.length + 1 ∧ Lexeme k (c :: used) after := by
  have front := fronts_first c rest
  rw [h] at front
  generalize whole : c :: rest = text at front
  cases front with
  | token lexeme =>
    obtain ⟨d, used, rfl⟩ := lexeme.written.exists_cons
    obtain ⟨rfl, rfl⟩ := List.cons.inj whole
    exact ⟨used, _, rfl, rfl, lexeme⟩

theorem faulty_of_first {f : ScanFault} (h : first c rest = .fault f) : Faulty f (c :: rest) := by
  have front := fronts_first c rest
  rw [h] at front
  cases front with
  | fault faulty => exact faulty

end Piece

/-- A text is read piece by piece: it is empty, it begins with a space or a token, or something is
wrong at its front. -/
theorem Text.induction_pieces {motive : List Char → Prop} (nil : motive [])
    (space : ∀ piece after, Space piece after → motive after → motive (piece ++ after))
    (lexeme : ∀ k piece after, Lexeme k piece after → motive after → motive (piece ++ after))
    (faulty : ∀ f text, Faulty f text → motive text) (text : List Char) : motive text := by
  induction length : text.length using Nat.strongRecOn generalizing text with
  | ind n ih =>
    cases text with
    | nil => exact nil
    | cons c rest =>
      subst length
      have shorter {used after : List Char} (whole : rest = used ++ after) : motive after := by
        refine ih after.length ?_ after rfl
        rw [whole, List.length_cons, List.length_append]
        omega
      cases piece : Piece.first c rest with
      | blank n =>
        obtain ⟨used, after, whole, -, h⟩ := Piece.exists_space piece
        exact whole ▸ space (c :: used) after h (shorter whole)
      | token k n =>
        obtain ⟨used, after, whole, -, h⟩ := Piece.exists_lexeme piece
        exact whole ▸ lexeme k (c :: used) after h (shorter whole)
      | fault f => exact faulty f _ (Piece.faulty_of_first piece)

namespace Scan

variable {piece after : List Char}

theorem ofTextFrom_space (h : Space piece after) (pos line : Nat) :
    ofTextFrom pos line 0 (piece ++ after) =
      ofTextFrom (pos + piece.length) (line + piece.count '\n') 0 after := by
  obtain ⟨c, used, rfl⟩ := h.exists_cons
  simp only [List.cons_append, ofTextFrom, Piece.first_of_space h, Nat.add_sub_cancel,
    ofTextFrom_skip, count_head, List.length_cons, Nat.add_assoc, Nat.add_comm 1]

theorem ofTextFrom_lexeme {k : TokenKind} (h : Lexeme k piece after) (pos line : Nat) :
    let next := ofTextFrom (pos + piece.length) (line + piece.count '\n') 0 after
    ofTextFrom pos line 0 (piece ++ after) =
      { next with tokens := ⟨k, pos, line⟩ :: next.tokens } := by
  obtain ⟨c, used, rfl⟩ := h.written.exists_cons
  simp only [List.cons_append, ofTextFrom, Piece.first_of_lexeme h, Nat.add_sub_cancel,
    ofTextFrom_skip, count_head, List.length_cons, Nat.add_assoc, Nat.add_comm 1]

theorem ofTextFrom_faulty {f : ScanFault} {text : List Char} (h : Faulty f text) (pos line : Nat) :
    ofTextFrom pos line 0 text = ⟨[], some (f, pos), line⟩ := by
  cases text with
  | nil =>
    generalize empty : [] = text at h
    cases h with
    | openComment | illegalCharacter => cases empty
    | longNumber _ _ many =>
      rw [(List.append_eq_nil_iff.mp empty.symm).1] at many
      cases many
  | cons c rest => simp only [ofTextFrom, Piece.first_of_faulty h]

end Scan

end JamCompiler
