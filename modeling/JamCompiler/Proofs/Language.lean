import JamCompiler.Proofs.Reading.Documented

/-!
# The language and its faults

Which texts are programs, and what is said of those that are not. A token is at fault if the tokens
up to it begin no program while those before it do, whatever comes after it in the text; a text that
cannot be scanned to its end is at fault there if nothing is before that; and a text without such
faults that is no program ends too early.
-/

namespace JamCompiler

open Reading

namespace Program

/-- Whether tokens begin some program. -/
def Begins (ts : List Token) : Prop := ∃ ws, Parsed [.phrase .program] (ts ++ ws)

theorem Begins.of_append {ts us : List Token} (h : Begins (ts ++ us)) : Begins ts := by
  obtain ⟨ws, h⟩ := h
  exact ⟨us ++ ws, by rwa [← List.append_assoc]⟩

theorem Begins.take {ts : List Token} (h : Begins ts) (k : Nat) : Begins (ts.take k) := by
  rw [← List.take_append_drop k ts] at h
  exact h.of_append

/-- What a scan is read as. -/
inductive ReadAs (scan : Scan) : Except ReadFault Program → Prop
  | unexpected {before after : List Token} {t : Token} (split : scan.tokens = before ++ t :: after)
      (begins : Begins before) (stuck : ¬ Begins (before ++ [t])) :
    ReadAs scan (.error (.fault (.unexpected t.kind) (some t.pos)))
  | unscanned {fault : ScanFault × Nat} (begins : Begins scan.tokens)
      (faulty : scan.fault = some fault) :
    ReadAs scan (.error (.ofScanFault (some fault)))
  | incomplete (begins : Begins scan.tokens) (whole : scan.fault = none)
      (incomplete : ¬ Parsed [.phrase .program] scan.tokens) :
    ReadAs scan (.error (.fault .endOfFile none))
  | program {p : Program} (whole : scan.fault = none) (spelled : p.Spelled scan.tokens) :
    ReadAs scan (.ok p)

theorem readAs_ofScan (scan : Scan) : ReadAs scan (ofScan? scan) := by
  unfold ofScan?
  cases run : Reading.classes (fuelFor scan.tokens) scan.tokens with
  | ok cs rest =>
    obtain ⟨rfl, spelled⟩ := run_classes_ok run
    have parsed := parsed_iff_spelledAll.mpr ⟨cs, spelled⟩
    cases whole : scan.fault with
    | none => exact .program whole ⟨rfl, spelled⟩
    | some fault => exact .unscanned ⟨[], by rwa [List.append_nil]⟩ whole
  | error u rest =>
    obtain ⟨used, split, ⟨ws, cs, spelled⟩, stuck⟩ := run_classes_error run
    have begins : Begins used := ⟨ws, parsed_iff_spelledAll.mpr ⟨cs, spelled⟩⟩
    cases rest with
    | cons t rest =>
      refine .unexpected split begins ?_
      rintro ⟨ws, parsed⟩
      obtain ⟨cs, spelled⟩ := parsed_iff_spelledAll.mp parsed
      exact stuck (t :: ws) cs rfl (by simpa using spelled)
    | nil =>
      rw [List.append_nil] at split
      subst split
      cases whole : scan.fault with
      | some fault => exact .unscanned begins whole
      | none =>
        refine .incomplete begins whole fun parsed => ?_
        obtain ⟨cs, spelled⟩ := parsed_iff_spelledAll.mp parsed
        exact stuck [] cs rfl (by rwa [List.append_nil])

theorem ReadAs.ok_iff {scan : Scan} {p : Program} :
    ofScan? scan = .ok p ↔ scan.fault = none ∧ p.Spelled scan.tokens := by
  have read := readAs_ofScan scan
  constructor
  · intro ok
    rw [ok] at read
    cases read with
    | program whole spelled => exact ⟨whole, spelled⟩
  · rintro ⟨whole, zero, spelled⟩
    have parsed := parsed_iff_spelledAll.mpr ⟨p.classes, spelled⟩
    cases result : ofScan? scan with
    | ok p' =>
      rw [result] at read
      cases read with
      | program _ spelled' =>
        obtain ⟨classes, pos⟩ := p
        obtain ⟨classes', pos'⟩ := p'
        obtain ⟨zero', spelled'⟩ := spelled'
        cases zero
        cases zero'
        cases spelledAll_unique spelled spelled'
        rfl
    | error fault =>
      rw [result] at read
      cases read with
      | @unexpected before after t split begins stuck =>
        exact absurd ⟨after, by rw [List.append_assoc]; rwa [split] at parsed⟩ stuck
      | unscanned begins faulty => cases whole.symm.trans faulty
      | incomplete begins _ incomplete => exact absurd parsed incomplete

/-- Whether some program is read from tokens that are all there is. -/
def Accepts (ts : List Token) : Prop := ∀ line, ∃ p, ofScan? ⟨ts, none, line⟩ = .ok p

theorem accepts_iff {ts : List Token} : Accepts ts ↔ Parsed [.phrase .program] ts := by
  rw [parsed_iff_spelledAll]
  constructor
  · intro h
    obtain ⟨p, ok⟩ := h 0
    exact ⟨p.classes, (ReadAs.ok_iff.mp ok).2.2⟩
  · rintro ⟨cs, spelled⟩ line
    exact ⟨⟨cs, 0⟩, ReadAs.ok_iff.mpr ⟨rfl, rfl, spelled⟩⟩

end Program

/-- The tokens that are accepted are those that the documented grammar derives when its rule for
assigning elements is kept to references that end in a name, and the documented grammar derives
them too. -/
theorem accepts_iff_documented (ts : List Token) :
    (Program.Accepts ts ↔ (documented false).Derives [.phrase .classDecls] ts) ∧
      (Program.Accepts ts → (documented true).Derives [.phrase .classDecls] ts) := by
  have iff : Program.Accepts ts ↔ (documented false).Derives [.phrase .classDecls] ts :=
    Program.accepts_iff.trans documented_iff_parsed.symm
  exact ⟨iff, fun accepts => documented_mono (iff.mp accepts)⟩

/-- A text that assigns an element of `this`. -/
def ownElementText : List Char := "class A { void f() { this[0] = 1; } }".toList

theorem ownElementText_tokens : (Scan.ofText ownElementText).tokens =
    [⟨.keyword .classWord, 0, 1⟩, ⟨.ident "A", 6, 1⟩, ⟨.symbol .lbrace, 8, 1⟩,
     ⟨.keyword .voidWord, 10, 1⟩, ⟨.ident "f", 15, 1⟩, ⟨.symbol .lparen, 16, 1⟩,
     ⟨.symbol .rparen, 17, 1⟩, ⟨.symbol .lbrace, 19, 1⟩, ⟨.keyword .thisWord, 21, 1⟩,
     ⟨.symbol .lbracket, 25, 1⟩, ⟨.number 0, 26, 1⟩, ⟨.symbol .rbracket, 27, 1⟩,
     ⟨.symbol .assign, 29, 1⟩, ⟨.number 1, 31, 1⟩, ⟨.symbol .semicolon, 32, 1⟩,
     ⟨.symbol .rbrace, 34, 1⟩, ⟨.symbol .rbrace, 36, 1⟩] := by
  decide +kernel

/-- The documented grammar derives it, and it is not accepted. -/
theorem ownElementText_refused :
    (documented true).Derives [.phrase .classDecls] (Scan.ofText ownElementText).tokens ∧
      ¬ Program.Accepts (Scan.ofText ownElementText).tokens := by
  rw [ownElementText_tokens]
  constructor
  · have none (n : DocumentedPhrase) (rule : [] ∈ documented true n) :
      (documented true).Derives [.phrase n] [] := .asPhrase n .nil rule
    have digit (v pos : Nat) : (documented true).Derives [.phrase .expr] [⟨.number v, pos, 1⟩] :=
      .asPhrase DocumentedPhrase.expr (.number rfl .nil) (by decide)
    have this : (documented true).Derives [.phrase .ref] [⟨.keyword .thisWord, 21, 1⟩] :=
      .asPhrase DocumentedPhrase.ref (.keyword rfl .nil) (by decide)
    have stmt : (documented true).Derives [.phrase .stmt] [⟨.keyword .thisWord, 21, 1⟩,
        ⟨.symbol .lbracket, 25, 1⟩, ⟨.number 0, 26, 1⟩, ⟨.symbol .rbracket, 27, 1⟩,
        ⟨.symbol .assign, 29, 1⟩, ⟨.number 1, 31, 1⟩, ⟨.symbol .semicolon, 32, 1⟩] :=
      .asPhrase DocumentedPhrase.stmt
        (this.part (.symbol rfl ((digit 0 26).part (.symbol rfl (.symbol rfl
          ((digit 1 31).part (.symbol rfl .nil))))))) (by decide)
    have stmts := Grammar.Derives.asPhrase DocumentedPhrase.stmts
      ((none .stmts (by decide)).part stmt) (by decide)
    have member : (documented true).Derives [.phrase .member] (⟨.keyword .voidWord, 10, 1⟩ ::
        ⟨.ident "f", 15, 1⟩ :: ⟨.symbol .lparen, 16, 1⟩ :: ⟨.symbol .rparen, 17, 1⟩ ::
        ⟨.symbol .lbrace, 19, 1⟩ :: (_ ++ [⟨.symbol .rbrace, 34, 1⟩])) :=
      .asPhrase DocumentedPhrase.member
        ((none .visibility (by decide)).part ((none .access (by decide)).part
          (.keyword rfl (.ident rfl (.symbol rfl ((none .params? (by decide)).part (.symbol rfl
          (.symbol rfl (stmts.part (.symbol rfl .nil)))))))))) (by decide)
    have members := Grammar.Derives.asPhrase DocumentedPhrase.members
      ((none .members (by decide)).part member) (by decide)
    have cls : (documented true).Derives [.phrase .classDecl] (⟨.keyword .classWord, 0, 1⟩ ::
        ⟨.ident "A", 6, 1⟩ :: ⟨.symbol .lbrace, 8, 1⟩ :: (_ ++ [⟨.symbol .rbrace, 36, 1⟩])) :=
      .asPhrase DocumentedPhrase.classDecl (.keyword rfl (.ident rfl (.symbol rfl
        (members.part (.symbol rfl .nil))))) (by decide)
    exact .asPhrase DocumentedPhrase.classDecls
      ((none .classDecls (by decide)).part cls) (by decide)
  · intro accepts
    obtain ⟨p, ok⟩ := accepts 1
    cases ok

/-- What a text is read as: the first token that no program has after those before it is reported
wherever scanning ends, then the place where scanning ends before the end of the text, then an end
that comes too early; and a text without these faults is a program. -/
theorem first_fault_reported (text : List Char) :
    let scan := Scan.ofText text
    (∀ k (h : k < scan.tokens.length), ¬ Program.Begins (scan.tokens.take (k + 1)) →
      (∀ j < k, Program.Begins (scan.tokens.take (j + 1))) →
      Program.ofText? text =
        .error (.fault (.unexpected scan.tokens[k].kind) (some scan.tokens[k].pos))) ∧
    ((∀ k < scan.tokens.length, Program.Begins (scan.tokens.take (k + 1))) →
      (∀ fault, scan.fault = some fault →
        Program.ofText? text = .error (.ofScanFault (some fault))) ∧
      (scan.fault = none → ¬ Parsed [.phrase .program] scan.tokens →
        Program.ofText? text = .error (.fault .endOfFile none)) ∧
      (scan.fault = none → Parsed [.phrase .program] scan.tokens →
        ∃ p, Program.ofText? text = .ok p ∧ p.Spelled scan.tokens)) := by
  intro scan
  have read : Program.ReadAs scan (Program.ofText? text) := Program.readAs_ofScan scan
  generalize Program.ofText? text = result at read ⊢
  clear_value scan
  -- no token is at fault if all of them begin a program
  have clean (begins : Program.Begins scan.tokens) {k : Nat}
      (stuck : ¬ Program.Begins (scan.tokens.take (k + 1))) : False := stuck (begins.take _)
  cases read with
  | @unexpected before after t split begins stuck =>
    have at_fault : scan.tokens.take (before.length + 1) = before ++ [t] := by
      rw [split, List.append_cons, List.take_left' (by simp)]
    constructor
    · intro k h stuck' earlier
      have not_before : before.length ≤ k := by
        refine Nat.le_of_not_lt fun lt => stuck' ?_
        rw [split, List.take_append_of_le_length lt]
        exact begins.take _
      obtain rfl : k = before.length := by
        refine Nat.le_antisymm (Nat.le_of_not_lt fun lt => stuck ?_) not_before
        rw [← at_fault]
        exact earlier _ lt
      simp [split]
    · intro all
      refine absurd (all before.length ?_) (by rwa [at_fault])
      simp [split]
  | @unscanned fault begins faulty =>
    refine ⟨fun k _ stuck _ => (clean begins stuck).elim, fun _ => ⟨?_, ?_, ?_⟩⟩
    · intro fault' faulty'
      cases faulty.symm.trans faulty'
      rfl
    · exact fun whole => by cases faulty.symm.trans whole
    · exact fun whole => by cases faulty.symm.trans whole
  | incomplete begins whole incomplete =>
    refine ⟨fun k _ stuck _ => (clean begins stuck).elim, fun _ => ⟨?_, ?_, ?_⟩⟩
    · exact fun fault faulty => by cases whole.symm.trans faulty
    · exact fun _ _ => rfl
    · exact fun _ parsed => absurd parsed incomplete
  | @program p whole spelled =>
    have parsed := parsed_iff_spelledAll.mpr ⟨p.classes, spelled.2⟩
    have begins : Program.Begins scan.tokens := ⟨[], by rwa [List.append_nil]⟩
    refine ⟨fun k _ stuck _ => (clean begins stuck).elim, fun _ => ⟨?_, ?_, ?_⟩⟩
    · exact fun fault faulty => by cases whole.symm.trans faulty
    · exact fun _ incomplete => absurd parsed incomplete
    · exact fun _ _ => ⟨p, rfl, spelled⟩

/-- The tokens of a class without members. -/
def emptyClass : List Token :=
  [⟨.keyword .classWord, 0, 1⟩, ⟨.ident "A", 6, 1⟩, ⟨.symbol .lbrace, 8, 1⟩,
   ⟨.symbol .rbrace, 10, 1⟩]

theorem parsed_emptyClass : Parsed [.phrase .program] emptyClass :=
  parsed_iff_spelledAll.mpr ⟨_, .more (.mk rfl rfl rfl (.done rfl)) .done⟩

theorem begins_emptyClass (k : Nat) : Program.Begins (emptyClass.take k) :=
  Program.Begins.take ⟨[], by simpa using parsed_emptyClass⟩ k

/-- A class without braces is no program. -/
theorem not_parsed_headOfClass : ¬ Parsed [.phrase .program] (emptyClass.take 2) := by
  intro parsed
  obtain ⟨cs, spelled⟩ := parsed_iff_spelledAll.mp parsed
  generalize written : emptyClass.take 2 = ts at spelled
  cases spelled with
  | done => cases written
  | more first rest =>
    cases first with
    | mk word cls left members => cases written

/-- A class whose brace is closed without having been opened begins no program. -/
theorem not_begins_strayBrace : ¬ Program.Begins
    [⟨.keyword .classWord, 0, 1⟩, ⟨.ident "A", 6, 1⟩, ⟨.symbol .rbrace, 8, 1⟩] := by
  rintro ⟨ws, parsed⟩
  obtain ⟨cs, spelled⟩ := parsed_iff_spelledAll.mp parsed
  generalize written : [_, _, _] ++ ws = ts at spelled
  cases spelled with
  | done => cases written
  | more first rest =>
    cases first with
    | mk word cls left members =>
      cases written
      cases left

/-- A stray brace is reported before the place where scanning ends, and without it that place is
reported; a class without braces ends too early, and one with braces is read. -/
theorem first_fault_of_class :
    Program.ofText? "class A \x7d #".toList =
      .error (.fault (.unexpected (.symbol .rbrace)) (some 8)) ∧
    Program.ofText? "class A { } #".toList =
      .error (.ofScanFault (some (.illegalCharacter '#', 12))) ∧
    Program.ofText? "class A".toList = .error (.fault .endOfFile none) ∧
    ∃ p, Program.ofText? "class A { }".toList = .ok p ∧ p.Spelled emptyClass := by
  refine ⟨?_, ?_, ?_, ?_⟩
  · have tokens : (Scan.ofText "class A \x7d #".toList).tokens =
        [⟨.keyword .classWord, 0, 1⟩, ⟨.ident "A", 6, 1⟩, ⟨.symbol .rbrace, 8, 1⟩] := by
      decide +kernel
    have reported := (first_fault_reported "class A \x7d #".toList).1 2
    simp only [tokens] at reported
    refine reported (by decide) not_begins_strayBrace fun j before => ?_
    match j with
    | 0 => exact begins_emptyClass 1
    | 1 => exact begins_emptyClass 2
  · have tokens : (Scan.ofText "class A { } #".toList).tokens = emptyClass := by decide +kernel
    have reported := (first_fault_reported "class A { } #".toList).2
    simp only [tokens] at reported
    exact (reported fun k _ => begins_emptyClass _).1 _ (by decide +kernel)
  · have tokens : (Scan.ofText "class A".toList).tokens = emptyClass.take 2 := by decide +kernel
    have reported := (first_fault_reported "class A".toList).2
    simp only [tokens] at reported
    exact (reported fun k _ => (begins_emptyClass 2).take _).2.1 (by decide +kernel)
      not_parsed_headOfClass
  · have tokens : (Scan.ofText "class A { }".toList).tokens = emptyClass := by decide +kernel
    have reported := (first_fault_reported "class A { }".toList).2
    simp only [tokens] at reported
    exact (reported fun k _ => begins_emptyClass _).2.2 (by decide +kernel) parsed_emptyClass

end JamCompiler
