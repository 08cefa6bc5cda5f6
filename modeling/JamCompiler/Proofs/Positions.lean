import JamCompiler.Proofs.Language
import JamCompiler.Proofs.Positions.Generation
import JamCompiler.Proofs.Positions.Resolution
import JamCompiler.Proofs.Positions.Typing
import JamCompiler.Proofs.Results
import JamCompiler.Proofs.Tiling

/-!
# Positions

The tokens of a text are whole pieces of it. In a program that is read from them the landmarks stand
where they do: names, declarations and operators at the token that is the word, and all other nodes
at the first of their tokens. All that is reported about a text is about one of its tokens, but for
what no token can stand for: that the text cannot be scanned any further, that it ends too early,
and that there is no entry.
-/

namespace JamCompiler

open Pass
open Landmark (AllAt)

/-- Whether a token is a whole piece of a text, at its position. -/
def Token.Cuts (t : Token) (piece text : List Char) : Prop :=
  ∃ before after, text = before ++ piece ++ after ∧ before.length = t.pos ∧
    Lexeme t.kind piece after

theorem Faulty.ne_nil {f : ScanFault} {text : List Char} (h : Faulty f text) : text ≠ [] := by
  cases h with
  | openComment | illegalCharacter => exact List.cons_ne_nil _ _
  | longNumber all stops many =>
    intro empty
    rw [(List.append_eq_nil_iff.mp empty).1] at many
    exact Nat.not_lt_zero _ many

section Text

variable {text : List Char} {t : Token}

theorem exists_cuts (h : t ∈ (Scan.ofText text).tokens) : ∃ piece, t.Cuts piece text := by
  obtain ⟨slices, fault, tiles⟩ := exists_tiles text 0
  have placed : (t.kind, t.pos) ∈ slices.map fun s => (s.kind, s.pos) :=
    (tiles.scanned 1).1 ▸ List.mem_map_of_mem h
  obtain ⟨s, hs, same⟩ := List.mem_map.mp placed
  obtain ⟨kind, pos⟩ : s.kind = t.kind ∧ s.pos = t.pos := Prod.ext_iff.mp same
  have sliced : Sliced text slices fault := tiles.sliced [] rfl
  obtain ⟨any, here, lexeme⟩ := sliced.tokens s hs
  have inside : s.pos < text.length := by
    refine Nat.lt_of_not_le fun beyond => any ?_
    rw [List.drop_eq_nil_of_le beyond] at here
    exact (List.append_eq_nil_iff.mp here.symm).1
  refine ⟨s.text, text.take s.pos, text.drop s.stop, ?_, ?_, kind ▸ lexeme⟩
  · rw [List.append_assoc, ← here, List.take_append_drop]
  · rw [List.length_take_of_le (Nat.le_of_lt inside), pos]

theorem Token.Cuts.pos_lt {piece : List Char} (h : t.Cuts piece text) : t.pos < text.length := by
  obtain ⟨before, after, rfl, here, lexeme⟩ := h
  obtain ⟨c, rest, rfl⟩ := lexeme.written.exists_cons
  simp only [List.length_append, List.length_cons]
  omega

theorem faulty_of_scan {f : ScanFault} {pos : Nat} (h : (Scan.ofText text).fault = some (f, pos)) :
    Faulty f (text.drop pos) := by
  obtain ⟨slices, fault, tiles⟩ := exists_tiles text 0
  obtain rfl : (Scan.ofText text).fault = fault := (tiles.scanned 1).2
  exact ((tiles.sliced [] rfl).stops f pos h).1

end Text

/-- The word that stands where a landmark does: a name that is used or declared, or an operator. -/
def Landmark.word? : Landmark → Option String
  | name id => some id.spelling
  | declared n _ => some n
  | expr (.unary op _ _) => some op.text
  | expr (.binary op _ _ _) => some op.text
  | type _ | ref _ | expr _ | stmt _ => none

theorem Token.Cuts.ident {t : Token} {piece text : List Char} {n : String} (h : t.Cuts piece text)
    (kind : t.kind = .ident n) : t.Cuts n.toList text := by
  obtain ⟨before, after, whole, here, lexeme⟩ := h
  have written := kind ▸ lexeme.written
  cases written with
  | ident => exact ⟨before, after, whole, here, lexeme⟩

theorem Token.Cuts.operator {t : Token} {piece text : List Char} {w : String} {pos : Nat}
    (h : t.Cuts piece text) (operator : t.IsOperator w pos) : t.Cuts w.toList text := by
  obtain ⟨before, after, whole, here, lexeme⟩ := h
  obtain ⟨s, kind, rfl⟩ := operator.symbol
  have written := kind ▸ lexeme.written
  cases written with
  | symbol => exact ⟨before, after, whole, here, lexeme⟩

/-- A landmark that stands where it does among the tokens of a text stands at its word. -/
theorem Landmark.PlacedIn.word {text : List Char} {l : Landmark} {w : String}
    (h : l.PlacedIn (Scan.ofText text).tokens) (word : l.word? = some w) :
    ∃ t ∈ (Scan.ofText text).tokens, t.pos = l.pos ∧ t.Cuts w.toList text := by
  cases l with
  | name | declared =>
    cases word
    obtain ⟨t, ht, kind, here⟩ := h
    obtain ⟨piece, cuts⟩ := exists_cuts ht
    exact ⟨t, ht, here, cuts.ident kind⟩
  | type | ref | stmt => cases word
  | expr e =>
    cases e with
    | unary =>
      cases word
      obtain ⟨t, us, inside, operator, -⟩ := h
      have ht := inside.subset List.mem_cons_self
      obtain ⟨piece, cuts⟩ := exists_cuts ht
      exact ⟨t, ht, operator.here, cuts.operator operator⟩
    | binary =>
      cases word
      obtain ⟨us, t, vs, inside, -, operator, -⟩ := h
      have ht := inside.subset (List.mem_append_right _ List.mem_cons_self)
      obtain ⟨piece, cuts⟩ := exists_cuts ht
      exact ⟨t, ht, operator.here, cuts.operator operator⟩
    | int | bool | null | ref | index | call | newObject | newArray | unknown => cases word

/-- Where a diagnostic stands that a stage records for a program whose landmarks stand at some
positions: at one of these, or at the beginning if there is no entry. -/
def Diagnostic.AtOrNoMain (P : Nat → Prop) (d : Diagnostic) : Prop :=
  d.At P ∨ d.fault = .code .noMain ∧ d.pos = 0

namespace Compilation

variable {P : Nat → Prop} {c c' : Compilation}

theorem resolve_log {t : ScopeTable} {answer : Except Stop Unit} (h : AllAt P c.program.landmarks)
    (logged : c.log.All (Diagnostic.At P)) (resolved : c.resolve = (c', t, answer)) :
    c'.log.All (Diagnostic.At P) := by
  obtain ⟨w, run, -, rfl⟩ := run_of_resolve resolved
  exact (Resolving.logs_resolve h c.bindings).log_of_run run rfl logged

theorem check_log {answer : Except Stop Unit} (h : AllAt P c.program.landmarks)
    (logged : c.log.All (Diagnostic.At P)) (checked : c.check = (c', answer)) :
    c'.log.All (Diagnostic.At P) := by
  obtain ⟨w, run, rfl⟩ := run_of_check checked
  exact (Typing.stays_check c.bindings.get? h).log_of_run run trivial logged

/-- Where all checks are passed, generation adds nothing but what is left for it to report. -/
theorem generate_log (passed : c.program.Checked c.bindings.get?) (locations : c.locations = {})
    (layouts : c.layouts = {}) (h : AllAt P c.program.landmarks)
    (logged : c.log.All (Diagnostic.At P)) {answer : Except Stop ObjectCode}
    (generated : c.generate = (c', answer)) : c'.log.All (Diagnostic.AtOrNoMain P) := by
  have old : c.log.All (Diagnostic.AtOrNoMain P) := fun d hd => .inl (logged d hd)
  have left : c'.log.All (Diagnostic.Left P) := by
    obtain ⟨w, run, rfl⟩ := run_of_generate generated
    exact (Generation.logs_generate _ h).log_of_run run rfl fun d hd _ => .inl (logged d hd)
  -- Either nothing is added, or one fault that may be left, and it is known where that one stands.
  rcases generate_records passed locations layouts generated with
      ⟨-, same⟩ | ⟨f, pos, expected, -, one⟩
  · exact same ▸ old
  · rw [one] at left ⊢
    refine old.addError (left ⟨.error, .code f, pos⟩ ?_ ⟨f, rfl, expected⟩)
    exact List.mem_append_left _ (List.mem_append_right _ List.mem_cons_self)

end Compilation

/-- All that is recorded when a program is compiled stands at its landmarks, or there is no
entry. -/
theorem Stage.Leaves.log {text : List Char} {p : Program} {failFast : Bool} {stage : Stage}
    {c : Compilation} {P : Nat → Prop} (parsed : Program.ofText? text = .ok p)
    (h : AllAt P p.landmarks) (leaves : stage.Leaves p failFast c) :
    c.log.All (Diagnostic.AtOrNoMain P) := by
  have afterResolve {c : Compilation} {t : ScopeTable} {answer : Except Stop Unit}
      (resolved : (p.start failFast).resolve = (c, t, answer)) : c.log.All (Diagnostic.At P) :=
    Compilation.resolve_log (c := p.start failFast) h Log.All.empty resolved
  have afterCheck {c c₁ : Compilation} {t : ScopeTable} {answer : Except Stop Unit}
      (resolved : (p.start failFast).resolve = (c, t, .ok ())) (checked : c.check = (c₁, answer)) :
      c₁.log.All (Diagnostic.At P) := by
    have program : c.program = p := by rw [Compilation.resolve_keeps resolved]; rfl
    exact Compilation.check_log (program.symm ▸ h) (afterResolve resolved) checked
  cases leaves with
  | resolution resolved => exact fun d hd => .inl (afterResolve resolved d hd)
  | typing resolved clean checked => exact fun d hd => .inl (afterCheck resolved checked d hd)
  | generation resolved clean checked clean₁ generated =>
    obtain ⟨passed, program, locations, layouts⟩ :=
      Program.checked_of_stages parsed resolved clean checked clean₁
    exact Compilation.generate_log (program.symm ▸ passed) locations layouts (program.symm ▸ h)
      (afterCheck resolved checked) generated

/-- Where a diagnostic about a text stands: at a token, where the text cannot be scanned any
further, at its end if that comes too early, or at its beginning if there is no entry. -/
inductive Diagnostic.PointsInto (d : Diagnostic) (text : List Char) : Prop
  | token {t : Token} (scanned : t ∈ (Scan.ofText text).tokens) (here : d.pos = t.pos)
  | unscanned {f : ScanFault} {pos : Nat} {fault : SourceFault}
    (stops : (Scan.ofText text).fault = some (f, pos)) (faulty : Faulty f (text.drop pos))
    (said : ReadFault.ofScanFault (some (f, pos)) = .fault fault (some pos))
    (fault : d.fault = .source fault) (here : d.pos = pos)
  | endOfFile (fault : d.fault = .source .endOfFile) (here : d.pos = text.length)
  | noMain (fault : d.fault = .code .noMain) (here : d.pos = 0)

section Texts

variable {text : List Char} {p : Program} {failFast : Bool} {r : CompileResult}

/-- A diagnostic about a text is inside the text or at its end. -/
theorem Diagnostic.PointsInto.bounds {d : Diagnostic} (h : d.PointsInto text) :
    0 ≤ d.pos ∧ d.pos ≤ text.length := by
  cases h with
  | token scanned here =>
    obtain ⟨piece, cuts⟩ := exists_cuts scanned
    have := cuts.pos_lt
    omega
  | unscanned stops faulty said fault here =>
    have : ¬ text.length ≤ _ := fun beyond => faulty.ne_nil (List.drop_eq_nil_of_le beyond)
    omega
  | endOfFile fault here => omega
  | noMain fault here => omega

/-- In a program that is read from a text, all landmarks stand where they do. -/
theorem Program.placed_of_ofText (parsed : ofText? text = .ok p) :
    ∀ l ∈ p.landmarks, l.PlacedIn (Scan.ofText text).tokens :=
  (ReadAs.ok_iff.mp parsed).2.placed

/-- The one diagnostic about a text that is no program points into it. -/
theorem pointsInto_of_fault {fault : SourceFault} {pos : Option Nat}
    (refused : Program.ofText? text = .error (.fault fault pos)) (severity : Severity) :
    Diagnostic.PointsInto ⟨severity, .source fault, (pos.getD text.length : Nat)⟩ text := by
  have read : Program.ReadAs (Scan.ofText text) (Program.ofText? text) := Program.readAs_ofScan _
  rw [refused] at read
  generalize said : Except.error (ReadFault.fault fault pos) = result at read
  cases read with
  | @unexpected before after t split =>
    cases said
    refine .token (t := t) ?_ rfl
    rw [split]
    exact List.mem_append_right _ List.mem_cons_self
  | @unscanned stop begins faulty =>
    obtain ⟨f, at_⟩ := stop
    cases f with
    | longNumber => cases said
    | illegalCharacter | openComment =>
      cases said
      exact .unscanned faulty (faulty_of_scan faulty) rfl rfl rfl
  | incomplete =>
    cases said
    exact .endOfFile rfl rfl
  | program => cases said

theorem pointsInto_of_compile (compiled : compile text failFast = .ok r) :
    ∀ d ∈ r.log.errors ++ r.log.notes, d.PointsInto text := by
  unfold compile at compiled
  split at compiled
  · cases compiled
  · rename_i fault pos refused
    cases compiled
    exact List.forall_mem_singleton.mpr (pointsInto_of_fault refused _)
  · rename_i p parsed
    have atToken : AllAt (fun pos => ∃ t ∈ (Scan.ofText text).tokens, t.pos = pos) p.landmarks :=
      fun l hl => (Program.placed_of_ofText parsed l hl).exists_token
    have pointing {d : Diagnostic}
        (h : d.AtOrNoMain fun pos => ∃ t ∈ (Scan.ofText text).tokens, t.pos = pos) :
      d.PointsInto text := by
      obtain ⟨_, here, t, ht, rfl⟩ | ⟨fault, here⟩ := h
      · exact .token ht here
      · exact .noMain fault here
    cases Program.compilesTo_of_compile parsed compiled with
    | incorrect leaves => exact fun d hd => pointing (leaves.log parsed atToken d hd)
    | success o leaves => exact fun d hd => pointing (leaves.log parsed atToken d hd)

end Texts

/-- Positions point at what they are about: the tokens of a text are whole pieces of it, a program
that is read from it has its landmarks at these tokens, and all that is reported about it points
into it. -/
theorem positions_point (text : List Char) :
    let ts := (Scan.ofText text).tokens
    (∀ t ∈ ts, ∃ piece, t.Cuts piece text) ∧
    (∀ p, Program.ofText? text = .ok p → ∀ l ∈ p.landmarks, l.PlacedIn ts ∧
      ∀ w, l.word? = some w → ∃ t ∈ ts, t.pos = l.pos ∧ t.Cuts w.toList text) ∧
    ∀ failFast r, compile text failFast = .ok r → ∀ d ∈ r.log.errors ++ r.log.notes,
      d.PointsInto text ∧ 0 ≤ d.pos ∧ d.pos ≤ text.length := by
  refine ⟨fun t ht => exists_cuts ht, fun p parsed l hl => ?_, fun failFast r compiled d hd => ?_⟩
  · have placed := Program.placed_of_ofText parsed l hl
    exact ⟨placed, fun w word => placed.word word⟩
  · have points := pointsInto_of_compile compiled d hd
    exact ⟨points, points.bounds⟩

/-- A text in which an operand is not declared. -/
def undeclaredOperandText : List Char :=
  "class A { int n; int f(A a) { return -a.n + (b); } }".toList

/-- The sum stands at its operator, the negation at the sign, what is negated at its first name, and
the operand that is reported inside its parentheses. -/
theorem undeclaredOperandText_points :
    (∃ p, Program.ofText? undeclaredOperandText = .ok p ∧
      p.landmarks.map Landmark.pos =
        [6, 14, 10, 21, 17, 25, 23, 23, 30, 42, 37, 38, 38, 40, 38, 38, 45, 45, 45] ∧
      ∀ l ∈ p.landmarks, l.PlacedIn (Scan.ofText undeclaredOperandText).tokens) ∧
    ∃ r, compile undeclaredOperandText false = .ok r ∧ r.log.errors.map (·.pos) = [45] ∧
      ∀ d ∈ r.log.errors ++ r.log.notes, d.PointsInto undeclaredOperandText := by
  obtain ⟨-, program, reported⟩ := positions_point undeclaredOperandText
  obtain ⟨p, parsed, marks⟩ := exists_ok_of_any (x := Program.ofText? undeclaredOperandText)
    (P := fun p => p.landmarks.map Landmark.pos =
      [6, 14, 10, 21, 17, 25, 23, 23, 30, 42, 37, 38, 38, 40, 38, 38, 45, 45, 45])
    (by decide +kernel)
  obtain ⟨r, compiled, errors⟩ := exists_ok_of_any (x := compile undeclaredOperandText false)
    (P := fun r => r.log.errors.map (·.pos) = [45]) (by decide +kernel)
  refine ⟨⟨p, parsed, of_decide_eq_true marks, fun l hl => (program p parsed l hl).1⟩,
    r, compiled, of_decide_eq_true errors, fun d hd => (reported false r compiled d hd).1⟩

end JamCompiler
