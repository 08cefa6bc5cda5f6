import JamCompiler.Proofs.Order.Texts
import JamCompiler.Proofs.Reading.Writing
import JamCompiler.Proofs.Relabelling.Reading

/-!
# Names in a text

Other names are put into a text for its identifiers, and everything between them is left as it
stands. Where a piece ends is seen from no more than the character after it, and if that is a
letter, then from no more than that. Names begin with letters, so no piece ends elsewhere when other
names are put in.
-/

namespace JamCompiler

open Piece (commentRest isWordStart isWordPart number slash Stops symbol? word)

/-- A text with other names for its identifiers. -/
def Text.rename (f : String → String) : List Char → List Char
  | [] => []
  | c :: rest => match Piece.first c rest with
    | .token (.ident name) n => (f name).toList ++ rename f (rest.drop (n - 1))
    | .token _ n | .blank n => c :: rest.take (n - 1) ++ rename f (rest.drop (n - 1))
    | .fault _ => c :: rest
termination_by text => text.length

/-- Whether two characters are the same to a piece that stands before them. -/
def LooksLike (d d' : Char) : Prop := d = d' ∨ isWordStart d ∧ isWordStart d'

theorem LooksLike.ne {c d d' : Char} (like : LooksLike d d') (other : isWordStart c = false)
    (h : d ≠ c) : d' ≠ c := by
  rintro rfl
  obtain rfl | ⟨-, letter⟩ := like
  · exact h rfl
  · exact absurd (other.symm.trans letter) Bool.false_ne_true

/-- Whether two texts are the same to a piece that stands before them. -/
inductive StartsLike : List Char → List Char → Prop
  | nil : StartsLike [] []
  | cons {d d' : Char} {rest rest' : List Char} (like : LooksLike d d') :
    StartsLike (d :: rest) (d' :: rest')

theorem isWordPart_of_isWordStart {c : Char} (h : isWordStart c) : isWordPart c := by
  have letter : c.isAlpha = true := h
  simp [isWordPart, Char.isAlphanum, letter]

namespace Piece

variable {p : Char → Bool} {c : Char} {used after after' : List Char}

theorem Stops.of_startsLike (letters : ∀ d d', isWordStart d → isWordStart d' → p d = p d')
    (like : StartsLike after after') (stops : Stops p after) : Stops p after' := by
  cases like with
  | nil => exact stops
  | @cons d d' rest rest' like =>
    rintro _ ⟨⟩
    obtain rfl | ⟨letter, letter'⟩ := like
    · exact stops d rfl
    · rw [← letters d d' letter letter', stops d rfl]

/-- A run that is as long as what stands before a text is that and does not go on. -/
theorem run_of_length (run : ((used ++ after).takeWhile p).length = used.length) :
    (∀ d ∈ used, p d) ∧ Stops p after := by
  have whole : (used ++ after).takeWhile p = used :=
    (List.prefix_of_prefix_length_le (List.takeWhile_prefix p) (List.prefix_append used after)
      run.le).eq_of_length run
  have all : ∀ d ∈ used, p d := List.all_eq_true.mp (whole ▸ List.all_takeWhile)
  refine ⟨all, ?_⟩
  rw [List.takeWhile_append_of_pos all] at whole
  cases after with
  | nil => exact nofun
  | cons d rest =>
    rintro _ ⟨⟩
    by_contra goes
    rw [List.takeWhile_cons_of_pos (by simpa using goes)] at whole
    simp at whole

theorem takeWhile_startsLike (letters : ∀ d d', isWordStart d → isWordStart d' → p d = p d')
    (like : StartsLike after after') (run : ((used ++ after).takeWhile p).length = used.length) :
    (used ++ after').takeWhile p = (used ++ after).takeWhile p := by
  obtain ⟨all, stops⟩ := run_of_length run
  rw [takeWhile_of_stops all stops, takeWhile_of_stops all (stops.of_startsLike letters like)]

/-- Whether the rest of a block comment ends is seen before its end. -/
theorem commentRest_of_append (h : commentRest (used ++ after) = some used.length) :
    commentRest used = some used.length := by
  induction used using commentRest.induct with
  | case1 =>
    unfold commentRest at h
    split at h <;> simp at h
  | case2 tail => exact h
  | case3 c tail other ih =>
    -- The comment does not end with a star from what is used and a slash from what stands after it:
    -- then it would be one character longer than what is used.
    have other' : ∀ rest, c = '*' → tail ++ after = '/' :: rest → False := by
      rintro rest rfl meet
      cases tail with
      | nil =>
        rw [List.cons_append, meet] at h
        cases h
      | cons d tail => exact other tail rfl (by rw [(List.cons.inj meet).1])
    rw [List.cons_append, commentRest.eq_3 _ _ other'] at h
    rw [commentRest.eq_3 _ _ other, ih (by simpa using h)]
    rfl

/-- Whether a piece is no fault and has so many characters after its first. -/
def GoesOn (n : Nat) : Piece → Prop
  | blank length => length - 1 = n
  | token _ length => length - 1 = n
  | fault _ => False

/-- A slash that stands alone begins no comment with what is put after it. -/
theorem slash_alone (like : StartsLike after after') (h : (slash after).GoesOn 0) :
    slash after' = slash after := by
  cases like with
  | nil => rfl
  | @cons d d' rest rest' like =>
    have line : d ≠ '/' := by
      rintro rfl
      cases h
    have block : d ≠ '*' := by
      rintro rfl
      rw [slash_block] at h
      split at h <;> cases h
    rw [slash_other line block, slash_other (like.ne (by decide) line) (like.ne (by decide) block)]

theorem slash_startsLike (like : StartsLike after after')
    (h : (slash (used ++ after)).GoesOn used.length) :
    slash (used ++ after') = slash (used ++ after) := by
  cases used with
  | nil => exact slash_alone like h
  | cons d used =>
    by_cases line : d = '/'
    · subst line
      rw [List.cons_append, slash_line] at h ⊢
      rw [List.cons_append, slash_line, takeWhile_startsLike (p := (· != '\n')) _ like
        (Nat.add_right_cancel (m := 1) h)]
      have noBreak (d : Char) (letter : isWordStart d) : (d != '\n') = true := by
        rw [bne_iff_ne]
        rintro rfl
        cases letter
      exact fun d d' letter letter' => (noBreak d letter).trans (noBreak d' letter').symm
    by_cases block : d = '*'
    · subst block
      rw [List.cons_append, slash_block] at h ⊢
      cases ended : commentRest (used ++ after) with
      | none => rw [ended] at h; cases h
      | some n =>
        rw [ended] at h
        obtain rfl : n = used.length := Nat.add_right_cancel (m := 1) h
        rw [List.cons_append, slash_block,
          (commentRest_append after' (commentRest_of_append ended)).1, ended]
    · rw [List.cons_append, slash_other line block] at h
      cases h

theorem number_startsLike (like : StartsLike after after')
    (h : (number c (used ++ after)).GoesOn used.length) :
    number c (used ++ after') = number c (used ++ after) := by
  simp only [number] at h ⊢
  split at h
  · rw [takeWhile_startsLike _ like h]
    intro d d' letter letter'
    rw [(isWordStart_only letter).2.2, (isWordStart_only letter').2.2]
  · cases h

theorem word_startsLike (like : StartsLike after after')
    (h : (word c (used ++ after)).GoesOn used.length) :
    word c (used ++ after') = word c (used ++ after) := by
  simp only [word] at h ⊢
  have run : ((used ++ after).takeWhile isWordPart).length = used.length := by
    split at h <;> exact h
  rw [takeWhile_startsLike _ like run]
  intro d d' letter letter'
  rw [isWordPart_of_isWordStart letter, isWordPart_of_isWordStart letter']

/-- A symbol hangs on no more than the next character. -/
theorem symbol?_cons (d : Char) (rest : List Char) : symbol? c (d :: rest) = symbol? c [d] := by
  unfold symbol?
  split <;> simp_all

/-- No symbol goes on with a letter. -/
theorem symbol?_letter {d : Char} (letter : isWordStart d) (rest : List Char) :
    symbol? c (d :: rest) = symbol? c [] := by
  have other (e : Char) (noLetter : isWordStart e = false) : d ≠ e := by
    rintro rfl
    exact absurd (noLetter.symm.trans letter) Bool.false_ne_true
  have noAnd := other '&' rfl
  have noOr := other '|' rfl
  have noEq := other '=' rfl
  unfold symbol?
  split <;> simp_all

/-- A symbol is there whatever stands after it, if that looks the same. -/
theorem symbol?_startsLike {s : Symbol} {n : Nat} (like : StartsLike after after')
    (h : symbol? c (used ++ after) = some (s, n)) : symbol? c (used ++ after') = some (s, n) := by
  cases used with
  | nil =>
    cases like with
    | nil => exact h
    | @cons d d' rest rest' like =>
      rw [List.nil_append] at h ⊢
      obtain rfl | ⟨letter, letter'⟩ := like
      · rw [symbol?_cons, ← symbol?_cons d rest, h]
      · rw [symbol?_letter letter', ← symbol?_letter letter rest, h]
  | cons d used => rw [List.cons_append, symbol?_cons, ← symbol?_cons d (used ++ after), ← h]; rfl

/-- What a text begins with is the same when what stands after it is changed, but looks the same. -/
theorem first_startsLike (like : StartsLike after after')
    (h : (first c (used ++ after)).GoesOn used.length) :
    first c (used ++ after') = first c (used ++ after) := by
  unfold first at h ⊢
  split
  · rfl
  rename_i noBlank
  rw [if_neg noBlank] at h
  split
  · rename_i isSlash
    rw [if_pos isSlash] at h
    exact slash_startsLike like h
  rename_i noSlash
  rw [if_neg noSlash] at h
  split
  · rename_i isDigit
    rw [if_pos isDigit] at h
    exact number_startsLike like h
  rename_i noDigit
  rw [if_neg noDigit] at h
  split
  · rename_i isLetter
    rw [if_pos isLetter] at h
    exact word_startsLike like h
  rename_i noLetter
  rw [if_neg noLetter] at h
  cases found : symbol? c (used ++ after) with
  | none => rw [found] at h; cases h
  | some symbol => rw [symbol?_startsLike like found]

/-- A piece that is no fault ends within its text. -/
theorem exists_goesOn {text : List Char} (h : ∀ f, first c text ≠ .fault f) :
    ∃ used after, text = used ++ after ∧ (first c text).GoesOn used.length := by
  have ends := (first_newline [] h).2
  cases piece : first c text with
  | blank n | token k n =>
    rw [piece] at ends
    refine ⟨_, _, (List.take_append_drop (n - 1) text).symm, ?_⟩
    exact (List.length_take_of_le (Nat.sub_le_of_le_add ends)).symm
  | fault f => exact absurd piece (h f)

/-- An identifier begins with a letter and is as long as it can be. -/
theorem ident_of_first {rest : List Char} {name : String} {n : Nat}
    (h : first c rest = .token (.ident name) n) :
    isWordStart c ∧ (rest.takeWhile isWordPart).length = n - 1 ∧
      name.toList = c :: rest.take (n - 1) := by
  unfold first at h
  split at h
  · cases h
  split at h
  · unfold slash at h
    split at h
    · cases h
    · split at h <;> cases h
    · cases h
  split at h
  · simp only [number] at h
    split at h <;> cases h
  split at h
  · rename_i letter
    simp only [word] at h
    split at h
    · cases h
    · cases h
      refine ⟨letter, rfl, ?_⟩
      rw [String.toList_ofList, List.length_cons, Nat.add_sub_cancel,
        ← List.prefix_iff_eq_take.mp (List.takeWhile_prefix _)]
  split at h <;> cases h

end Piece

/-- The token that a piece is, if it is one. -/
def Piece.kinds : Piece → List TokenKind
  | token k _ => [k]
  | blank _ | fault _ => []

/-- A scan goes on after a piece. -/
theorem Scan.ofTextFrom_piece {c : Char} {used after : List Char}
    (h : (Piece.first c (used ++ after)).GoesOn used.length) (pos line : Nat) :
    ∃ pos' line', (ofTextFrom pos line 0 (c :: (used ++ after))).fault =
        (ofTextFrom pos' line' 0 after).fault ∧
      kinds (ofTextFrom pos line 0 (c :: (used ++ after))).tokens =
        (Piece.first c (used ++ after)).kinds ++ kinds (ofTextFrom pos' line' 0 after).tokens := by
  have passed := ofTextFrom_skip used after (pos + 1) (if c = '\n' then line + 1 else line)
  refine ⟨pos + 1 + used.length, (if c = '\n' then line + 1 else line) + used.count '\n', ?_⟩
  rw [ofTextFrom]
  cases piece : Piece.first c (used ++ after) with
  | blank n | token k n =>
    rw [piece] at h
    have length : n - 1 = used.length := h
    simp [length, passed, Piece.kinds]
  | fault f => rw [piece] at h; cases h

namespace Text

variable {f : String → String} {c : Char} {used after : List Char}

theorem rename_ident {name : String} {n : Nat}
    (piece : Piece.first c (used ++ after) = .token (.ident name) n)
    (length : n - 1 = used.length) :
    rename f (c :: (used ++ after)) = (f name).toList ++ rename f after := by
  simp only [rename, piece, length, List.drop_left]

theorem rename_other (h : (Piece.first c (used ++ after)).GoesOn used.length)
    (other : ∀ name n, Piece.first c (used ++ after) ≠ .token (.ident name) n) :
    rename f (c :: (used ++ after)) = c :: (used ++ rename f after) := by
  cases piece : Piece.first c (used ++ after) with
  | blank n =>
    rw [piece] at h
    have length : n - 1 = used.length := h
    simp only [rename, piece, length, List.take_left, List.drop_left, List.cons_append]
  | token k n =>
    rw [piece] at h
    have length : n - 1 = used.length := h
    cases k with
    | ident name => exact absurd piece (other name n)
    | number | keyword | symbol =>
      simp only [rename, piece, length, List.take_left, List.drop_left, List.cons_append]
  | fault f => rw [piece] at h; cases h

/-- A text begins with another name where it begins with a name. -/
theorem rename_startsLike {text : List Char} {pos line : Nat}
    (names : ∀ name, .ident name ∈ kinds (Scan.ofTextFrom pos line 0 text).tokens →
      IsName (f name)) :
    StartsLike text (rename f text) := by
  cases text with
  | nil =>
    rw [rename]
    exact .nil
  | cons c rest =>
    cases piece : Piece.first c rest with
    | fault | blank =>
      simp only [rename, piece]
      exact .cons (.inl rfl)
    | token k n =>
      cases k with
      | number | keyword | symbol =>
        simp only [rename, piece]
        exact .cons (.inl rfl)
      | ident name =>
        have isName := names name (by simp [Scan.ofTextFrom, piece])
        obtain ⟨d, ds, spelled, word⟩ := isName.exists_cons
        simp only [rename, piece, spelled]
        exact .cons (.inr ⟨(Piece.ident_of_first piece).1, (Bool.and_eq_true_iff.mp word).1⟩)

/-- The first piece of a text with other names is that of the text, but for its name. -/
theorem rename_piece (goesOn : (Piece.first c (used ++ after)).GoesOn used.length)
    (like : StartsLike after (rename f after))
    (names : ∀ name, .ident name ∈ (Piece.first c (used ++ after)).kinds → IsName (f name)) :
    ∃ c' used', rename f (c :: (used ++ after)) = c' :: (used' ++ rename f after) ∧
      (Piece.first c' (used' ++ rename f after)).GoesOn used'.length ∧
      (Piece.first c' (used' ++ rename f after)).kinds =
        (Piece.first c (used ++ after)).kinds.map (TokenKind.rename f) := by
  by_cases isName : ∃ name n, Piece.first c (used ++ after) = .token (.ident name) n
  · obtain ⟨name, n, piece⟩ := isName
    rw [piece] at goesOn names ⊢
    have length : n - 1 = used.length := goesOn
    have stops : Stops isWordPart after :=
      (Piece.run_of_length ((Piece.ident_of_first piece).2.1.trans length)).2
    have stops' : Stops isWordPart (rename f after) := by
      refine stops.of_startsLike (fun d d' letter letter' => ?_) like
      rw [isWordPart_of_isWordStart letter, isWordPart_of_isWordStart letter']
    have isName := names name (List.mem_singleton.mpr rfl)
    obtain ⟨d, ds, spelled, -⟩ := isName.exists_cons
    have other := Piece.first_name isName spelled stops'
    refine ⟨d, ds, ?_, ?_, ?_⟩
    · rw [rename_ident piece length, spelled, List.cons_append]
    · rw [other]
      rfl
    · rw [other]
      rfl
  · have same := Piece.first_startsLike like goesOn
    refine ⟨c, used, rename_other goesOn fun name n piece => isName ⟨name, n, piece⟩, ?_, ?_⟩
    · rwa [same]
    · rw [same]
      cases piece : Piece.first c (used ++ after) with
      | blank | fault => rfl
      | token k n =>
        cases k with
        | ident name => exact absurd ⟨name, n, piece⟩ isName
        | number | keyword | symbol => rfl

/-- A text with other names is scanned as the text is, but for the names. -/
theorem scan_rename (text : List Char) {pos line : Nat} (pos' line' : Nat)
    (whole : (Scan.ofTextFrom pos line 0 text).fault = none)
    (names : ∀ name, .ident name ∈ kinds (Scan.ofTextFrom pos line 0 text).tokens →
      IsName (f name)) :
    (Scan.ofTextFrom pos' line' 0 (rename f text)).fault = none ∧
      kinds (Scan.ofTextFrom pos' line' 0 (rename f text)).tokens =
        (kinds (Scan.ofTextFrom pos line 0 text).tokens).map (TokenKind.rename f) := by
  match text with
  | [] =>
    rw [rename]
    exact ⟨rfl, rfl⟩
  | c :: rest =>
    have noFault : ∀ fault, Piece.first c rest ≠ .fault fault := by
      intro fault same
      simp [Scan.ofTextFrom, same] at whole
    obtain ⟨used, after, rfl, goesOn⟩ := Piece.exists_goesOn noFault
    obtain ⟨_, _, fault, tokens⟩ := Scan.ofTextFrom_piece goesOn pos line
    rw [fault] at whole
    rw [tokens] at names ⊢
    have later := fun name mem => names name (List.mem_append_right _ mem)
    -- The first piece may hang on how the rest begins, so that is settled before the rest is
    -- scanned.
    obtain ⟨c', used', renamed, goesOn', first⟩ := rename_piece goesOn (rename_startsLike later)
      fun name mem => names name (List.mem_append_left _ mem)
    obtain ⟨further, line₁, fault', tokens'⟩ := Scan.ofTextFrom_piece goesOn' pos' line'
    obtain ⟨whole', rest'⟩ := scan_rename after further line₁ whole later
    rw [renamed, fault', tokens', first, rest', List.map_append]
    exact ⟨whole', rfl⟩
termination_by text.length

end Text

end JamCompiler
