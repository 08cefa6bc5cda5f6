import JamCompiler.Proofs.Relabelling.Texts

/-!
# Layout

Blanks, line breaks, comments and leading zeros leave no trace in the tokens of a text but in their
positions and lines. Two texts with tokens of the same kinds compile to the same, whether they are
programs or not: the same status, the same messages and hints, and the same code.
-/

namespace JamCompiler

open Program (numbered)

/-- Tokens of a whole text that are no program are so because of the tokens themselves. -/
theorem Program.fault_of_whole {ts : List Token} {n : Nat} {e : ReadFault}
    (h : ofScan? ⟨ts, none, n⟩ = .error e) : ∃ f pos, e = .fault f pos := by
  unfold ofScan? at h
  split at h
  · cases h
    exact ⟨_, _, rfl⟩
  · cases h
    exact ⟨_, _, rfl⟩
  · cases h

/-- New places do not change what is wrong. -/
theorem ReadFault.relabel_fault {ρ : Relabelling} (named : ρ.name = id) (f : SourceFault)
    (pos : Option Nat) : (fault f pos).relabel ρ = fault f (pos.map ρ.place) := by
  cases f with
  | unexpected kind => rw [relabel, named, kind.rename_id]
  | illegalCharacter | openComment | endOfFile => rfl

theorem compile_of_fault {text : List Char} {f : SourceFault} {pos : Option Nat}
    (read : Program.ofText? text = .error (.fault f pos)) (failFast : Bool) :
    compile text failFast = .ok { status := .unparsable
                                  log := Log.addError { failFast := failFast } (.source f)
                                    (pos.getD text.length) } := by
  simp only [compile, read]

/-- Texts with the same tokens are the same program in other places, or both are none for the same
reason. -/
theorem read_of_same_kinds {text text' : List Char} (whole : (Scan.ofText text).fault = none)
    (whole' : (Scan.ofText text').fault = none)
    (same : kinds (Scan.ofText text).tokens = kinds (Scan.ofText text').tokens) :
    (∃ p, Program.ofText? text = .ok p) ∨
      ∃ f pos pos', Program.ofText? text = .error (.fault f pos) ∧
      Program.ofText? text' = .error (.fault f pos') := by
  have renamed := fun ks => (TokenKind.map_rename_id ks).symm
  have read := Program.ofText?_numbered whole
    (ρ := .ofText keepsApart_id text _ (Nat.le_refl _)) rfl (renamed _)
  have read' := Program.ofText?_numbered whole'
    (ρ := .ofText keepsApart_id text' _ (Nat.le_refl _)) rfl (same.symm.trans (renamed _))
  cases common : Program.ofScan? ⟨numbered (kinds (Scan.ofText text).tokens), none, 0⟩ with
  | ok p =>
    rw [common] at read
    exact .inl ⟨_, read⟩
  | error e =>
    obtain ⟨f, pos, rfl⟩ := Program.fault_of_whole common
    rw [common] at read read'
    have kept := fun ρ named => congrArg (Except.error (α := Program))
      (ReadFault.relabel_fault (ρ := ρ) named f pos)
    exact .inr ⟨f, _, _, read.trans (kept _ rfl), read'.trans (kept _ rfl)⟩

/-- Texts that are scanned without a fault to the same tokens compile to results with the same
status, the same messages and hints in the same order and, if there is code, the same code. -/
theorem layout_irrelevant {text text' : List Char} (whole : (Scan.ofText text).fault = none)
    (whole' : (Scan.ofText text').fault = none)
    (same : (Scan.ofText text).tokens.map Token.kind = (Scan.ofText text').tokens.map Token.kind)
    (failFast : Bool) :
    ∃ r r', compile text failFast = .ok r ∧ compile text' failFast = .ok r' ∧
      r.status = r'.status ∧
      r.log.errors.map (fun d => (d.fault.message, d.fault.hint)) =
        r'.log.errors.map (fun d => (d.fault.message, d.fault.hint)) ∧
      r.log.notes.map (fun d => (d.fault.message, d.fault.hint)) =
        r'.log.notes.map (fun d => (d.fault.message, d.fault.hint)) ∧
      (r.status = .success → ∃ o o', r.object = some o ∧ r'.object = some o' ∧ o.code = o'.code ∧
        o.staticSize = o'.staticSize ∧ o.entry = o'.entry ∧ o.listing = o'.listing) := by
  rcases read_of_same_kinds whole whole' same with ⟨p, parsed⟩ | ⟨f, pos, pos', read, read'⟩
  · have renamed : kinds (Scan.ofText text').tokens =
        (kinds (Scan.ofText text).tokens).map (TokenKind.rename id) :=
      same.symm.trans (TokenKind.map_rename_id _).symm
    obtain ⟨r, r', result, result', together, shown⟩ :=
      goTogether_of_renamed keepsApart_id whole whole' renamed parsed failFast
    obtain ⟨errors, notes⟩ := shown rfl
    refine ⟨r, r', result, result', together.status, errors, notes, fun ok => ?_⟩
    obtain ⟨-, -, o, -, -, object, -⟩ := accepted_of_compile result ok
    obtain ⟨o', object', code, size, entry⟩ := together.same_code object
    refine ⟨o, o', object, object', code, size, entry, ?_⟩
    rw [ObjectCode.listing, ObjectCode.listing, code, size, entry]
  · exact ⟨_, _, compile_of_fault read failFast, compile_of_fault read' failFast,
      rfl, rfl, rfl, nofun⟩

/-- A program on one line. -/
def tightText : List Char :=
  "class A\x7bpublic static void main(String[] a)\x7bint x=7;\x7d\x7d".toList

/-- The same tokens on several lines, with comments and leading zeros. -/
def looseText : List Char :=
  ("class A \x7b /**/\n public static void main(String[] a)\x7b\n" ++
    "int x = 007; // x\n\x7d\x7d").toList

/-- Different texts that compile to the same code. -/
theorem looseText_same :
    (Scan.ofText tightText).fault = none ∧ (Scan.ofText looseText).fault = none ∧
    (Scan.ofText tightText).tokens.map Token.kind =
      (Scan.ofText looseText).tokens.map Token.kind ∧ tightText ≠ looseText ∧
    ∃ r r', compile tightText false = .ok r ∧ compile looseText false = .ok r' ∧
      r.status = .success ∧ r.status = r'.status ∧
      r.log.errors.map (fun d => (d.fault.message, d.fault.hint)) =
        r'.log.errors.map (fun d => (d.fault.message, d.fault.hint)) ∧
      r.log.notes.map (fun d => (d.fault.message, d.fault.hint)) =
        r'.log.notes.map (fun d => (d.fault.message, d.fault.hint)) ∧
      ∃ o o', r.object = some o ∧ r'.object = some o' ∧ o.code = o'.code ∧
        o.staticSize = o'.staticSize ∧ o.entry = o'.entry ∧ o.listing = o'.listing := by
  have ⟨whole, whole', same⟩ : (Scan.ofText tightText).fault = none ∧
      (Scan.ofText looseText).fault = none ∧ (Scan.ofText tightText).tokens.map Token.kind =
        (Scan.ofText looseText).tokens.map Token.kind := by decide +kernel
  obtain ⟨r, compiled, ok⟩ := exists_ok_of_any (x := compile tightText false)
    (P := fun r => decide (r.status = .success)) (by decide +kernel)
  obtain ⟨r₀, r', compiled₀, compiled', status, errors, notes, code⟩ :=
    layout_irrelevant whole whole' same false
  cases compiled.symm.trans compiled₀
  exact ⟨whole, whole', same, by decide +kernel, r, r', compiled, compiled', of_decide_eq_true ok,
    status, errors, notes, code (of_decide_eq_true ok)⟩

end JamCompiler
