import JamCompiler.Token.Scan
import JamCompiler.Proofs.Reading.Redundant
import Mathlib.Algebra.GroupWithZero.Nat

/-!
# Tokens as text

Tokens are written as they are shown, each with a blank after it. What is written is scanned back
token by token up to the first number that has too many digits, if the names among the tokens are
names; and whatever text is scanned, the names in it are names and no number in it has too many
digits.
-/

namespace JamCompiler

open Piece (isWordStart isWordPart maxDigits)

/-- The text of tokens. -/
def write (ks : List TokenKind) : List Char := ks.flatMap fun k => k.text.toList ++ [' ']

/-- A letter with letters, digits and underscores after it. -/
def isWord (text : List Char) : Bool :=
  match text with
  | [] => false
  | c :: rest => isWordStart c && rest.all isWordPart

/-- A word that is not reserved. -/
structure IsName (name : String) : Prop where
  word : isWord name.toList
  free : Keyword.ofSpelling? name = none

theorem IsName.exists_cons {name : String} (h : IsName name) :
    ∃ d ds, name.toList = d :: ds ∧ isWord (d :: ds) := by
  have word := h.word
  cases spelled : name.toList with
  | nil => rw [spelled] at word; cases word
  | cons d ds => exact ⟨d, ds, rfl, spelled ▸ word⟩

instance (name : String) : Decidable (IsName name) :=
  decidable_of_iff (isWord name.toList ∧ Keyword.ofSpelling? name = none)
    ⟨fun ⟨word, free⟩ => ⟨word, free⟩, fun ⟨word, free⟩ => ⟨word, free⟩⟩

namespace TokenKind

/-- Whether a token is written so that it can be one: names are names. -/
def Writable : TokenKind → Prop
  | ident name => IsName name
  | _ => True

/-- Whether a number has no more digits than are taken for one. -/
def Short : TokenKind → Prop
  | number value => value < 10 ^ maxDigits
  | _ => True

end TokenKind

theorem Text.digitValue?_of_isDigit {c : Char} (h : c.isDigit) :
    digitValue? c = some (c.toNat - 48) := by
  have bounds : 48 ≤ c.toNat ∧ c.toNat ≤ 57 := by
    simpa [Char.isDigit, UInt32.le_iff_toNat_le] using h
  have found : (decide (0x30 ≤ c.toNat) && decide (c.toNat < 0x30 + 10)) = true := by
    simp only [Bool.and_eq_true, decide_eq_true_eq]
    omega
  have table : digitZeros = 0x30 :: digitZeros.tail := rfl
  rw [digitValue?, table, List.find?_cons, found]
  rfl

theorem Text.isDigit_of_isDigit {c : Char} (h : c.isDigit) : Text.isDigit c := by
  rw [isDigit, digitValue?_of_isDigit h, Option.isSome_some]

/-- A number is written in digits that denote it. -/
theorem Text.numeral_toDigits (n : Nat) : numeral (Nat.toDigits 10 n) = n := by
  have same : ∀ (ds : List Char) (m : Nat), (∀ d ∈ ds, d.isDigit) →
      ds.foldl (fun n c => 10 * n + (digitValue? c).getD 0) m = Nat.ofDigitChars 10 ds m := by
    intro ds
    induction ds with
    | nil => exact fun _ _ => rfl
    | cons d ds ih =>
      intro m digits
      obtain ⟨digit, rest⟩ := List.forall_mem_cons.mp digits
      rw [List.foldl_cons, ih _ rest, digitValue?_of_isDigit digit, Nat.ofDigitChars_cons]
      rfl
  have digits : ∀ d ∈ Nat.toDigits 10 n, d.isDigit := fun _ hd =>
    Nat.isDigit_of_mem_toDigits (by decide) (by decide) hd
  exact (same _ 0 digits).trans Nat.ofDigitChars_ten_toDigits

/-- The value of a run of digits is bounded by its length. -/
theorem Text.numeral_lt (ds : List Char) : numeral ds < 10 ^ ds.length := by
  have bound : ∀ (ds : List Char) (n m : Nat), n < m →
      ds.foldl (fun n c => 10 * n + (digitValue? c).getD 0) n < m * 10 ^ ds.length := by
    intro ds
    induction ds with
    | nil => exact fun n m h => by simpa using h
    | cons d ds ih =>
      intro n m h
      have digit : (digitValue? d).getD 0 < 10 := by
        cases value : digitValue? d with
        | none => decide
        | some v => exact digitValue?_lt value
      have next := ih (10 * n + (digitValue? d).getD 0) (m * 10) (by omega)
      rwa [List.foldl_cons, List.length_cons, Nat.pow_succ', ← Nat.mul_assoc]
  simpa [numeral] using bound ds 0 1 (by decide)

/-- A letter begins no blank, comment or number. -/
theorem isWordStart_only {c : Char} (h : isWordStart c) :
    (c = ' ' || c = '\t' || c = '\r' || c = '\n') = false ∧ c ≠ '/' ∧ Text.isDigit c = false := by
  have small : c.toNat < 128 := by
    have upper : c.isUpper → c.toNat ≤ 90 := fun upper =>
      UInt32.le_iff_toNat_le.mp (of_decide_eq_true upper).2
    have lower : c.isLower → c.toNat ≤ 122 := fun lower =>
      UInt32.le_iff_toNat_le.mp (of_decide_eq_true (Bool.and_eq_true_iff.mp lower).2)
    rcases Bool.or_eq_true_iff.mp h with h | h
    · exact Nat.lt_of_le_of_lt (upper h) (by decide)
    · exact Nat.lt_of_le_of_lt (lower h) (by decide)
  have all : ∀ n < 128, isWordStart (Char.ofNat n) →
      (Char.ofNat n = ' ' || Char.ofNat n = '\t' || Char.ofNat n = '\r' || Char.ofNat n = '\n') =
          false ∧
        Char.ofNat n ≠ '/' ∧ Text.isDigit (Char.ofNat n) = false := by decide +kernel
  simpa [Char.ofNat_toNat] using all c.toNat small (by rwa [Char.ofNat_toNat])

namespace Piece

/-- Whether a run of characters does not go on in a text. -/
def Stops (p : Char → Bool) (text : List Char) : Prop := ∀ d ∈ text.head?, p d = false

theorem stops_blank {p : Char → Bool} (blank : p ' ' = false) (rest : List Char) :
    Stops p (' ' :: rest) := by
  rintro _ ⟨⟩
  exact blank

theorem takeWhile_of_stops {p : Char → Bool} {cs rest : List Char} (all : ∀ c ∈ cs, p c)
    (stops : Stops p rest) : (cs ++ rest).takeWhile p = cs := by
  rw [List.takeWhile_append_of_pos all]
  cases rest with
  | nil => exact List.append_nil cs
  | cons d rest => rw [List.takeWhile_cons_of_neg (by simp [stops d rfl]), List.append_nil]

theorem first_word {c : Char} {cs rest : List Char} (h : isWord (c :: cs))
    (stops : Stops isWordPart rest) :
    first c (cs ++ rest) = .token (match Keyword.ofSpelling? (String.ofList (c :: cs)) with
      | some keyword => .keyword keyword
      | none => .ident (String.ofList (c :: cs))) (cs.length + 1) := by
  obtain ⟨start, parts⟩ := Bool.and_eq_true_iff.mp h
  obtain ⟨blank, slash, digit⟩ := isWordStart_only start
  have letters := takeWhile_of_stops (List.all_eq_true.mp parts) stops
  rw [first, if_neg (by simp [blank]), if_neg slash, if_neg (by simp [digit]),
    if_pos start, word, letters]
  cases Keyword.ofSpelling? (String.ofList (c :: cs)) <;> rfl

/-- A name is scanned as an identifier where it does not go on. -/
theorem first_name {name : String} {c : Char} {cs rest : List Char} (h : IsName name)
    (spelled : name.toList = c :: cs) (stops : Stops isWordPart rest) :
    first c (cs ++ rest) = .token (.ident name) (cs.length + 1) := by
  rw [first_word (spelled ▸ h.word) stops, ← spelled, String.ofList_toList, h.free]

theorem first_number (n : Nat) : ∃ c cs, Nat.toDigits 10 n = c :: cs ∧ ∀ rest,
    (n < 10 ^ maxDigits → first c (cs ++ ' ' :: rest) = .token (.number n) (cs.length + 1)) ∧
      (¬ n < 10 ^ maxDigits → first c (cs ++ ' ' :: rest) = .fault .longNumber) := by
  have digits : ∀ d ∈ Nat.toDigits 10 n, d.isDigit := fun _ hd =>
    Nat.isDigit_of_mem_toDigits (by decide) (by decide) hd
  have value := Text.numeral_toDigits n
  have length :=
    Nat.length_toDigits_le_iff (b := 10) (n := n) (k := maxDigits) (by decide) (by decide)
  cases written : Nat.toDigits 10 n with
  | nil => exact absurd written Nat.toDigits_ne_nil
  | cons c cs =>
    rw [written] at digits value length
    obtain ⟨digit, others⟩ := List.forall_mem_cons.mp digits
    refine ⟨c, cs, rfl, fun rest => ?_⟩
    have run := takeWhile_of_stops (fun d hd => Text.isDigit_of_isDigit (others d hd))
      (stops_blank (p := Text.isDigit) rfl rest)
    have piece : first c (cs ++ ' ' :: rest) = number c (cs ++ ' ' :: rest) := by
      have bounds : 48 ≤ c.toNat ∧ c.toNat ≤ 57 := by
        simpa [Char.isDigit, UInt32.le_iff_toNat_le] using digit
      have other (d : Char) (h : d.toNat < 48) : c ≠ d := by
        rintro rfl
        omega
      have blank := other ' ' (by decide)
      have tab := other '\t' (by decide)
      have feed := other '\r' (by decide)
      have newline := other '\n' (by decide)
      have slash := other '/' (by decide)
      simp [first, blank, tab, feed, newline, slash, Text.isDigit_of_isDigit digit]
    rw [piece, number, run, value]
    constructor
    · intro short
      rw [if_pos (length.mpr short)]
      rfl
    · intro long
      rw [if_neg fun le => long (length.mp le)]

theorem first_symbol (s : Symbol) : ∃ c cs, s.spelling.toList = c :: cs ∧ ∀ rest,
    first c (cs ++ ' ' :: rest) = .token (.symbol s) (cs.length + 1) := by
  cases s <;> exact ⟨_, _, rfl, fun _ => rfl⟩

/-- What is written for a token is a piece again, unless it is too long a number. -/
theorem first_text {k : TokenKind} (h : k.Writable) : ∃ c cs, k.text.toList = c :: cs ∧ ∀ rest,
    (k.Short → first c (cs ++ ' ' :: rest) = .token k (cs.length + 1)) ∧
      (¬ k.Short → first c (cs ++ ' ' :: rest) = .fault .longNumber) := by
  cases k with
  | number n =>
    have text : (TokenKind.number n).text.toList = Nat.toDigits 10 n := by
      rw [TokenKind.text, Nat.toString_eq_ofList_toDigits, String.toList_ofList]
    rw [text]
    exact first_number n
  | ident name =>
    obtain ⟨c, cs, spelled, -⟩ := h.exists_cons
    exact ⟨c, cs, spelled, fun rest => ⟨fun _ => first_name h spelled (stops_blank rfl rest),
      fun long => absurd trivial long⟩⟩
  | keyword keyword =>
    have word : isWord keyword.spelling.toList := by cases keyword <;> rfl
    cases spelled : keyword.spelling.toList with
    | nil => rw [spelled] at word; cases word
    | cons c cs =>
      rw [spelled] at word
      refine ⟨c, cs, spelled, fun rest => ⟨fun _ => ?_, fun long => absurd trivial long⟩⟩
      rw [first_word word (stops_blank rfl rest), ← spelled, String.ofList_toList,
        Keyword.ofSpelling?_spelling]
  | symbol s =>
    obtain ⟨c, cs, spelled, token⟩ := first_symbol s
    exact ⟨c, cs, spelled, fun rest => ⟨fun _ => token rest, fun long => absurd trivial long⟩⟩

end Piece

namespace Scan

theorem count_head (c : Char) (used : List Char) (line : Nat) :
    (if c = '\n' then line + 1 else line) + used.count '\n' = line + (c :: used).count '\n' := by
  simp only [List.count_cons, beq_iff_eq]
  split <;> omega

/-- The rest of a piece is passed, and the line feeds in it are counted. -/
theorem ofTextFrom_skip (cs rest : List Char) (pos line : Nat) :
    ofTextFrom pos line cs.length (cs ++ rest) =
      ofTextFrom (pos + cs.length) (line + cs.count '\n') 0 rest := by
  induction cs generalizing pos line with
  | nil => rfl
  | cons c cs ih =>
    rw [List.length_cons, List.cons_append, ofTextFrom, ih, count_head,
      Nat.add_assoc, Nat.add_comm 1]

/-- Written tokens are scanned back exactly if no number among them is too long. -/
theorem ofTextFrom_write {ks : List TokenKind} (h : ∀ k ∈ ks, k.Writable) (pos line : Nat) :
    let scan := ofTextFrom pos line 0 (write ks)
    ((∀ k ∈ ks, k.Short) → kinds scan.tokens = ks) ∧ (scan.fault = none ↔ ∀ k ∈ ks, k.Short) := by
  induction ks generalizing pos line with
  | nil => simp [write, ofTextFrom]
  | cons k ks ih =>
    obtain ⟨writable, others⟩ := List.forall_mem_cons.mp h
    obtain ⟨c, cs, text, piece⟩ := Piece.first_text writable
    have front : write (k :: ks) = c :: (cs ++ ' ' :: write ks) := by simp [write, text]
    obtain ⟨token, long⟩ := piece (write ks)
    rw [front, List.forall_mem_cons, ofTextFrom]
    by_cases short : k.Short
    · have passed :=
        ofTextFrom_skip cs (' ' :: write ks) (pos + 1) (if c = '\n' then line + 1 else line)
      have blank : Piece.first ' ' (write ks) = .blank 1 := rfl
      simp only [token short, Nat.add_sub_cancel, passed, ofTextFrom, blank,
        kinds_cons, List.cons.injEq]
      obtain ⟨tokens, whole⟩ := ih others (pos + 1 + cs.length + 1) _
      exact ⟨fun ⟨_, all⟩ => ⟨trivial, tokens all⟩,
        whole.trans ⟨fun all => ⟨short, all⟩, And.right⟩⟩
    · simp [long short, short]

theorem ofText_write {ks : List TokenKind} (h : ∀ k ∈ ks, k.Writable) :
    ((∀ k ∈ ks, k.Short) → kinds (ofText (write ks)).tokens = ks) ∧
      ((ofText (write ks)).fault = none ↔ ∀ k ∈ ks, k.Short) :=
  ofTextFrom_write h 0 1

end Scan

namespace Piece

/-- A token at the front of a text is a name if it is an identifier, and a number only if it is
not too long. -/
theorem token_of_first {c : Char} {rest : List Char} {k : TokenKind} {n : Nat}
    (h : first c rest = .token k n) : k.Writable ∧ k.Short := by
  unfold first at h
  split at h
  · cases h
  split at h
  · unfold slash at h
    split at h
    · cases h
    · split at h <;> cases h
    · cases h
      exact ⟨trivial, trivial⟩
  split at h
  · simp only [number] at h
    split at h
    · cases h
      rename_i few
      exact ⟨trivial, Nat.lt_of_lt_of_le (Text.numeral_lt _) (Nat.pow_le_pow_right (by decide) few)⟩
    · cases h
  split at h
  · rename_i start
    simp only [word] at h
    split at h
    · cases h
      exact ⟨trivial, trivial⟩
    · cases h
      rename_i free
      refine ⟨⟨?_, free⟩, trivial⟩
      rw [String.toList_ofList]
      exact Bool.and_eq_true_iff.mpr ⟨start, List.all_takeWhile⟩
  split at h
  · cases h
    exact ⟨trivial, trivial⟩
  · cases h

end Piece

namespace Scan

/-- The tokens of a text can be written, and they stand in order. -/
theorem ofTextFrom_tokens (text : List Char) (pos line skip : Nat) :
    let tokens := (ofTextFrom pos line skip text).tokens
    (∀ t ∈ tokens, t.kind.Writable ∧ t.kind.Short) ∧ (tokens.map Token.pos).Pairwise (· < ·) ∧
      ∀ t ∈ tokens, pos ≤ t.pos := by
  induction text generalizing pos line skip with
  | nil => simp [ofTextFrom]
  | cons c rest ih =>
    have later (line skip : Nat) := ih (pos + 1) line skip
    have passed (line skip : Nat) :
        ∀ t ∈ (ofTextFrom (pos + 1) line skip rest).tokens, pos ≤ t.pos :=
      fun t ht => Nat.le_of_succ_le ((later line skip).2.2 t ht)
    cases skip with
    | succ skip =>
      simp only [ofTextFrom]
      exact ⟨(later _ skip).1, (later _ skip).2.1, passed _ skip⟩
    | zero =>
      simp only [ofTextFrom]
      cases piece : Piece.first c rest with
      | blank n => exact ⟨(later _ _).1, (later _ _).2.1, passed _ _⟩
      | token k n =>
        obtain ⟨writable, sorted, beyond⟩ := later (if c = '\n' then line + 1 else line) (n - 1)
        refine ⟨List.forall_mem_cons.mpr ⟨Piece.token_of_first piece, writable⟩, ?_,
          List.forall_mem_cons.mpr ⟨Nat.le_refl _, passed _ _⟩⟩
        refine List.pairwise_cons.mpr ⟨fun q hq => ?_, sorted⟩
        obtain ⟨t, ht, rfl⟩ := List.mem_map.mp hq
        exact beyond t ht
      | fault f => simp

theorem writable_of_mem {text : List Char} {t : Token} (h : t ∈ (ofText text).tokens) :
    t.kind.Writable ∧ t.kind.Short :=
  (ofTextFrom_tokens text 0 1 0).1 t h

theorem sorted_tokens (text : List Char) : ((ofText text).tokens.map Token.pos).Pairwise (· < ·) :=
  (ofTextFrom_tokens text 0 1 0).2.1

end Scan

end JamCompiler
