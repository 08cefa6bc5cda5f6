import JamCompiler.Proofs.Emission.Ready
import JamCompiler.Proofs.Execution.Machine
import JamCompiler.Proofs.Execution.Source

/-!
# Running the code of expressions

The code of an expression whose variables are where the stack and the segments have them leaves the
word of its value on the stack and changes nothing else, or gets stuck if the expression has no
value.
-/

namespace JamCompiler

open Machine Machine.State Emission Typing

/-- Whether the instructions among some items stand from an address on. -/
def Installed (code : List Instruction) (base : Nat) (items : Code) : Prop :=
  ∀ k i, items[k]? = some (.instr i) → code[base + k]? = some i

section Installed

variable {code : List Instruction} {base : Nat} {items items' : Code} {item : Item}
variable {i : Instruction} {t first second body other : Tree}

theorem installed_append : Installed code base (items ++ items') ↔
    Installed code base items ∧ Installed code (base + items.length) items' := by
  constructor
  · refine fun h => ⟨fun k i hk => h k i ?_, fun k i hk => ?_⟩
    · rw [List.getElem?_append_left (List.getElem?_eq_some_iff.mp hk).1, hk]
    · rw [Nat.add_assoc]
      refine h _ i ?_
      rw [List.getElem?_append_right (Nat.le_add_right _ _), Nat.add_sub_cancel_left, hk]
  · rintro ⟨h, h'⟩ k i hk
    rw [List.getElem?_append] at hk
    split at hk
    · exact h k i hk
    · have there := h' _ i hk
      rwa [Nat.add_assoc, Nat.add_sub_cancel' (by omega)] at there

theorem installed_cons : Installed code base (.instr i :: items) ↔
    code[base]? = some i ∧ Installed code (base + 1) items := by
  constructor
  · refine fun h => ⟨h 0 i rfl, fun k j hk => ?_⟩
    rw [Nat.add_assoc, Nat.add_comm 1]
    exact h (k + 1) j hk
  · rintro ⟨here, h⟩ k j hk
    cases k with
    | zero =>
      cases hk
      exact here
    | succ k =>
      have there := h k j hk
      rwa [Nat.add_assoc, Nat.add_comm 1] at there

theorem installed_nil : Installed code base [] := fun k i hk => by simp at hk

theorem installed_singleton : Installed code base [.instr i] ↔ code[base]? = some i := by
  rw [installed_cons, and_iff_left installed_nil]

theorem installed_shortCut {decides : Bool} {p : Primitive} :
    Installed code base ((Tree.shortCut decides first second p).code base) ↔
      Installed code base (first.code base) ∧
      code[base + first.size]? = some { op := .load, r := .st, d := -1 } ∧
      code[base + first.size + 1]? = some { op := .jumpif, n := boolWord decides, r := .cb
                                            d := (base + first.size + 2 + second.size + 1 : Nat) } ∧
      Installed code (base + first.size + 2) (second.code (base + first.size + 2)) ∧
      code[base + first.size + 2 + second.size]? = some (.prim p) := by
  simp only [Tree.code, installed_append, installed_cons, installed_nil, prim, Tree.length_code,
    List.length_append, List.length_cons, List.length_nil, and_true, and_assoc, ← Nat.add_assoc]

theorem installed_prim {p : Primitive} :
    Installed code base [prim p] ↔ code[base]? = some (.prim p) := installed_singleton

theorem installed_seq : Installed code base ((Tree.seq first second).code base) ↔
    Installed code base (first.code base) ∧
      Installed code (base + first.size) (second.code (base + first.size)) := by
  rw [Tree.code, installed_append, Tree.length_code]

end Installed

section Steps

variable {code : List Instruction} {s : State}

theorem exec_eq {i : Instruction} (here : code[s.pc]? = some i) : s.step? code = s.execute? i := by
  rw [step?, here, Option.bind_some]

theorem exec_literal {v : Int} (here : code[s.pc]? = some (.literal v)) :
    s.step? code = some (s.next (v :: s.stack)) := exec_eq here

theorem exec_load {r : Register} {d w : Int}
    (here : code[s.pc]? = some { op := .load, r := r, d := d })
    (found : s.load? r d = some w) : s.step? code = some (s.next (w :: s.stack)) := by
  rw [exec_eq here]
  simp only [execute?, found, Option.map_some]

theorem exec_self (here : code[s.pc]? = some { op := .loada, r := .ob }) :
    s.step? code = some (s.next (s.object :: s.stack)) := by
  rw [exec_eq here, execute?, Int.add_zero]

theorem exec_prim {p : Primitive} (here : code[s.pc]? = some (.prim p)) :
    s.step? code = s.call? p := by
  rw [exec_eq here]
  simp only [execute?, Instruction.prim, Primitive.ofNumber?_number, Option.bind_some]

theorem exec_update {v offset object : Int} {rest : List Int}
    (stack : s.stack = v :: offset :: object :: rest)
    (here : code[s.pc]? = some (.prim .fieldupd)) :
    s.step? code =
      some { s.next rest with heap := Function.update s.heap (object + offset) v } := by
  rw [exec_prim here]
  simp only [call?, stack]

/-- A primitive that is not one of objects. -/
theorem exec_compute {p : Primitive} {stack : List Int} (here : code[s.pc]? = some (.prim p))
    (computed : p.compute? s.stack = some stack) : s.step? code = some (s.next stack) := by
  rw [exec_prim here]
  unfold call?
  split
  · simp [Primitive.compute?] at computed
  · simp [Primitive.compute?] at computed
  · rw [computed]
    rfl

theorem stuck_of_compute {p : Primitive} (here : code[s.pc]? = some (.prim p))
    (failed : p.compute? s.stack = none) (other : p ≠ .fieldref ∧ p ≠ .fieldupd) :
    Stuck code s := by
  constructor
  · rw [exec_prim here]
    unfold call?
    split
    · exact absurd rfl other.1
    · exact absurd rfl other.2
    · rw [failed]
      rfl
  · rw [returned?, here]
    rfl

/-- A copy of the topmost word. -/
theorem exec_copy {v : Int} {rest : List Int} (stack : s.stack = v :: rest)
    (here : code[s.pc]? = some { op := .load, r := .st, d := -1 }) :
    s.step? code = some (s.next (v :: s.stack)) := by
  refine exec_load here ?_
  have le : (0 : Int) ≤ s.stack.length + -1 := by
    rw [stack, List.length_cons]
    omega
  have top : ((s.stack.length : Int) + -1).toNat = rest.length := by
    rw [stack, List.length_cons]
    omega
  rw [load?, if_pos le, top, stack, word_cons_self]

theorem exec_pop {n : Nat} (here : code[s.pc]? = some { op := .pop, d := n })
    (le : n ≤ s.stack.length) : s.step? code = some (s.next (s.stack.drop n)) := by
  rw [exec_eq here, execute?]
  exact if_pos ⟨rfl, le⟩

theorem exec_jump {target : Nat}
    (here : code[s.pc]? = some { op := .jump, r := .cb, d := target }) :
    s.step? code = some { s with pc := target } := by
  rw [exec_eq here]
  rfl

theorem exec_jumpIf {value b : Bool} {target : Nat} {rest : List Int}
    (stack : s.stack = boolWord b :: rest)
    (here : code[s.pc]? = some { op := .jumpif, n := boolWord value, r := .cb, d := target }) :
    s.step? code = some { s with pc := if b = value then target else s.pc + 1, stack := rest } := by
  rw [exec_eq here, execute?, stack]
  cases b <;> cases value <;> rfl

end Steps

/-- The register and the offset from it by which a location is addressed. -/
def Location.address? : Location → Option (Register × Int)
  | static k => some (.sb, k)
  | object k => some (.ob, k)
  | frame k => some (.lb, k)
  | code _ => none

/-- The word at a location. -/
def Machine.State.wordAt? (s : State) (l : Location) : Option Int :=
  l.address?.bind fun address => s.load? address.1 address.2

namespace Machine.State

@[simp] theorem wordAt?_static (s : State) (k : Nat) :
    s.wordAt? (.static k) = some (s.statics k) := rfl

@[simp] theorem wordAt?_object (s : State) (k : Nat) :
    s.wordAt? (.object k) = some (s.heap (s.object + k)) := rfl

theorem wordAt?_frame (s : State) (k : Int) : s.wordAt? (.frame k) =
    if 0 ≤ s.lb + k then word? s.stack (s.lb + k).toNat else none := rfl

theorem wordAt?_frame_eq_some_iff {s : State} {k w : Int} : s.wordAt? (.frame k) = some w ↔
    0 ≤ s.lb + k ∧ word? s.stack (s.lb + k).toNat = some w := by
  rw [wordAt?_frame, Option.ite_none_right_eq_some]

end Machine.State

/-- Whether a value is one of a kind. -/
def Value.HasKind : Value → Kind → Prop
  | int _, .int | bool _, .bool => True
  | _, _ => False

/-- Whether a value may be held by a variable of a type. -/
def Value.OfType (v : Value) (type : ValueType) : Prop := ∀ k : Kind, type = k.type → v.HasKind k

/-- Whether the variables of some kind have in a state what a store says that they hold, in
locations that fit them. -/
def Holds (env : Env) (V : Decl → Prop) (σ : Store) (s : State) : Prop :=
  ∀ d, V d → ∃ l, locationOf env d = .ok l ∧ l.Fits d ∧ s.wordAt? l = some (σ d).word ∧
    (σ d).OfType (d.type env.bound)

section Holds

variable {env : Env} {V V' : Decl → Prop} {σ : Store} {s : State} {pc : Nat} {w : Int}

/-- One more word on the stack hides none. -/
theorem wordAt_push {l : Location} (h : s.wordAt? l = some w) (pc : Nat) (v : Int) :
    wordAt? { s with pc := pc, stack := v :: s.stack } l = some w := by
  cases l with
  | static | object | code => exact h
  | frame k =>
    obtain ⟨le, word⟩ := wordAt?_frame_eq_some_iff.mp h
    refine wordAt?_frame_eq_some_iff.mpr ⟨le, ?_⟩
    rw [word_cons (lt_of_word word), word]

theorem Holds.push (h : Holds env V σ s) (pc : Nat) (v : Int) :
    Holds env V σ { s with pc := pc, stack := v :: s.stack } := fun d hd => by
  obtain ⟨l, located, fits, word, type⟩ := h d hd
  exact ⟨l, located, fits, wordAt_push word pc v, type⟩

theorem Holds.sub (h : Holds env V σ s) (sub : ∀ d, V' d → V d) : Holds env V' σ s :=
  fun d hd => h d (sub d hd)

end Holds

namespace Emission

variable {env : Env} {site : Site} {r : Reference} {d : Decl} {pos : Nat}

theorem bound_of_variable {bound : Site → Option Decl} (h : r.variableAt? bound site = some d) :
    bound site = some d ∧ d.IsValue ∧ ∃ home, d.home = .user home := by
  unfold Reference.variableAt? at h
  split at h
  · obtain ⟨d', found, h⟩ := Option.bind_eq_some_iff.mp h
    split at h
    · cases h
      exact ⟨found, ⟨nofun, rfl, nofun⟩, _, rfl⟩
    · cases h
      exact ⟨found, ⟨nofun, rfl, nofun⟩, _, rfl⟩
    · cases h
      exact ⟨found, ⟨nofun, rfl, nofun⟩, _, rfl⟩
    · cases h
  · obtain ⟨d', found, h⟩ := Option.bind_eq_some_iff.mp h
    split at h
    · split at h
      · cases h
        exact ⟨found, ⟨nofun, rfl, nofun⟩, _, rfl⟩
      · cases h
    · cases h
  · cases h

/-- A member that is not static is one of `this`. -/
theorem exists_this_of_variable {bound : Site → Option Decl} {qualifier : Reference}
    {name : Identifier}
    (h : (Reference.qualified qualifier name pos).variableAt? bound site = some d)
    (inInstance : ¬ d.isStatic) : ∃ pos', qualifier = .this pos' := by
  obtain ⟨d', found, h⟩ := Option.bind_eq_some_iff.mp h
  split at h
  · split at h
    · rename_i this
      cases h
      cases qualifier with
      | this pos' => exact ⟨pos', rfl⟩
      | ident | qualified | unknown => exact absurd this inInstance
    · cases h
  · cases h

theorem bound_of_valueDecl (h : valueDecl env site pos = .ok d) : env.bound site = some d := by
  unfold valueDecl at h
  split at h
  · cases h
  · cases h
  · cases h
  · split at h
    · cases h
    · cases h
      assumption

/-- The code of a variable loads it from where it lives, or, in an object, from the object and the
offset. -/
theorem emitRef_variable {items : Code} {l : Location}
    (denotes : r.variableAt? env.bound site = some d) (made : emitRef env site r = .ok items)
    (located : locationOf env d = .ok l) (fits : l.Fits d) :
    ∃ q, l.address? = some q ∧ (items = [.instr { op := .load, r := q.1, d := q.2 }] ∨
      q.1 = .ob ∧ items = [self, literal q.2, prim .fieldref]) := by
  obtain ⟨bound, -, home, user⟩ := bound_of_variable denotes
  have notLength : d ≠ Predefined.length := by
    rintro rfl
    cases user
  cases r with
  | this | unknown => cases denotes
  | ident name pos =>
    obtain ⟨d', found, made⟩ := bind_eq_ok.mp made
    cases bound.symm.trans (bound_of_valueDecl found)
    obtain ⟨l', located', made⟩ := bind_eq_ok.mp made
    cases located.symm.trans located'
    cases l with
    | code => cases made
    | static | frame | object =>
      cases made
      exact ⟨_, rfl, .inl rfl⟩
  | qualified qualifier name pos =>
    obtain ⟨d', found, made⟩ := bind_eq_ok.mp made
    cases bound.symm.trans (bound_of_valueDecl found)
    rw [if_neg notLength] at made
    obtain ⟨l', located', made⟩ := bind_eq_ok.mp made
    cases located.symm.trans located'
    cases l with
    | code => cases made
    | static | frame =>
      cases made
      exact ⟨_, rfl, .inl rfl⟩
    | object k =>
      obtain ⟨object, inner, made⟩ := bind_eq_ok.mp made
      cases made
      obtain ⟨pos', rfl⟩ := exists_this_of_variable denotes fits.2
      cases inner
      exact ⟨_, rfl, .inr ⟨rfl, rfl⟩⟩

end Emission

/-- The code of a variable leaves its word. -/
theorem runsTo_variable {env : Env} {code : List Instruction} {s : State} {site : Site}
    {r : Reference} {d : Decl} {items : Code} {l : Location} {w : Int}
    (denotes : r.variableAt? env.bound site = some d) (made : emitRef env site r = .ok items)
    (installed : Installed code s.pc items) (located : locationOf env d = .ok l) (fits : l.Fits d)
    (word : s.wordAt? l = some w) :
    RunsTo code s { s with pc := s.pc + items.length, stack := w :: s.stack } := by
  obtain ⟨⟨reg, k⟩, address, direct | ⟨rfl, inObject⟩⟩ := emitRef_variable denotes made located fits
  · rw [wordAt?, address, Option.bind_some] at word
    subst direct
    exact .step (exec_load (installed_singleton.mp installed) word)
  · rw [wordAt?, address, Option.bind_some] at word
    cases word
    subst inObject
    obtain ⟨first, later⟩ := installed_cons.mp installed
    obtain ⟨second, third⟩ := installed_cons.mp later
    refine .head (exec_self first) (.head (exec_literal second) (.step ?_))
    have field : code[s.pc + 1 + 1]? = some (.prim .fieldref) := installed_prim.mp third
    exact (exec_prim field).trans rfl

/-- Whether an operator takes two operands of a kind to a value of a kind. -/
def BinaryOp.Takes : BinaryOp → Kind → Kind → Prop
  | add, k, k' | sub, k, k' | mul, k, k' | div, k, k' => k = .int ∧ k' = .int
  | lt, k, k' | le, k, k' | gt, k, k' | ge, k, k' => k = .int ∧ k' = .bool
  | eq, _, k' | ne, _, k' => k' = .bool
  | and, k, k' | or, k, k' => k = .bool ∧ k' = .bool
  | other _, _, _ => False

/-- What an expression is made of, where the variables that may occur in it are given, and of which
kind its values are. -/
inductive Expr.Has (bound : Site → Option Decl) (V : Decl → Prop) : Site → Expr → Kind → Prop
  | int {site : Site} {n : Int} {pos : Nat} : Has bound V site (.int n pos) .int
  | bool {site : Site} {b : Bool} {pos : Nat} : Has bound V site (.bool b pos) .bool
  | neg {site : Site} {operand : Expr} {pos : Nat} (inner : Has bound V site.operand operand .int) :
      Has bound V site (.unary .neg operand pos) .int
  | not {site : Site} {operand : Expr} {pos : Nat}
      (inner : Has bound V site.operand operand .bool) :
      Has bound V site (.unary .not operand pos) .bool
  | binary {site : Site} {op : BinaryOp} {left right : Expr} {pos : Nat} {k k' : Kind}
      (takes : op.Takes k k') (first : Has bound V site.left left k)
      (second : Has bound V site.right right k) : Has bound V site (.binary op left right pos) k'
  | ref {site : Site} {r : Reference} {pos : Nat} {d : Decl} {k : Kind}
      (denotes : r.variableAt? bound site.target = some d) (known : V d)
      (type : d.type bound = k.type) :
      Has bound V site (.ref r pos) k

section Operators

variable {k k' : Kind} {a b v : Value} {op : BinaryOp} {p : Primitive} {rest : List Int}

theorem exists_int (h : a.HasKind .int) : ∃ n, a = .int n := by
  cases a with
  | int n => exact ⟨n, rfl⟩
  | bool | other => exact h.elim

theorem exists_bool (h : a.HasKind .bool) : ∃ b, a = .bool b := by
  cases a with
  | bool b => exact ⟨b, rfl⟩
  | int | other => exact h.elim

/-- The primitive of an operator computes the word of what the operator gives, if it gives
something. -/
theorem computes_binary (takes : op.Takes k k') (prim : binaryPrim? op = some p) (ha : a.HasKind k)
    (hb : b.HasKind k) (rest : List Int) : match op.value? a b with
    | some v => v.HasKind k' ∧ p.compute? (b.word :: a.word :: rest) = some (v.word :: rest)
    | none => p.compute? (b.word :: a.word :: rest) = none := by
  have int (h : k = .int) : ∃ m n, a = .int m ∧ b = .int n := by
    subst h
    obtain ⟨m, rfl⟩ := exists_int ha
    obtain ⟨n, rfl⟩ := exists_int hb
    exact ⟨m, n, rfl, rfl⟩
  have bool (h : k = .bool) : ∃ m n, a = .bool m ∧ b = .bool n := by
    subst h
    obtain ⟨m, rfl⟩ := exists_bool ha
    obtain ⟨n, rfl⟩ := exists_bool hb
    exact ⟨m, n, rfl, rfl⟩
  cases op with
  | other text => exact takes.elim
  | add | sub | mul | lt | le | gt | ge =>
    obtain ⟨rfl, rfl⟩ := takes
    obtain ⟨m, n, rfl, rfl⟩ := int rfl
    cases prim
    exact ⟨trivial, rfl⟩
  | div =>
    obtain ⟨rfl, rfl⟩ := takes
    obtain ⟨m, n, rfl, rfl⟩ := int rfl
    cases prim
    by_cases zero : n = 0
    · simp [BinaryOp.value?, Primitive.compute?, Value.word, zero]
    · simp [BinaryOp.value?, Primitive.compute?, Value.word, zero, Value.HasKind]
  | and | or =>
    obtain ⟨rfl, rfl⟩ := takes
    obtain ⟨m, n, rfl, rfl⟩ := bool rfl
    cases prim
    refine ⟨trivial, ?_⟩
    cases m <;> cases n <;> rfl
  | eq | ne =>
    obtain rfl := takes
    cases prim
    cases k with
    | int =>
      obtain ⟨m, n, rfl, rfl⟩ := int rfl
      exact ⟨trivial, rfl⟩
    | bool =>
      obtain ⟨m, n, rfl, rfl⟩ := bool rfl
      refine ⟨trivial, ?_⟩
      cases m <;> cases n <;> rfl

theorem binaryPrim_ne (h : binaryPrim? op = some p) : p ≠ .fieldref ∧ p ≠ .fieldupd := by
  cases op with
  | other text => cases h
  | or | and | eq | ne | lt | le | gt | ge | add | sub | mul | div =>
    cases h
    exact ⟨nofun, nofun⟩

/-- Only the left operands that are jumped over settle an operator. -/
theorem settles_bool (takes : op.Takes k k') (ha : a.HasKind k) :
    match decisive? op with
    | none => op.settles a = false
    | some decides => ∃ b, a = .bool b ∧ op.settles a = (b == decides) := by
  cases op with
  | other text => exact takes.elim
  | and | or =>
    obtain ⟨rfl, rfl⟩ := takes
    obtain ⟨b, rfl⟩ := exists_bool ha
    exact ⟨b, rfl, by cases b <;> rfl⟩
  | eq | ne | lt | le | gt | ge | add | sub | mul | div => rfl

end Operators

/-- Whether the machine goes over so many instructions and leaves the word of a value of a kind, or
gets stuck if there is no value. -/
def Evaluates (code : List Instruction) (s : State) (size : Nat) (k : Kind) : Option Value → Prop
  | some v => v.HasKind k ∧ RunsTo code s { s with pc := s.pc + size, stack := v.word :: s.stack }
  | none => ∃ s', RunsTo code s s' ∧ Stuck code s'

section Runs

variable {env : Env} {code : List Instruction} {V : Decl → Prop} {σ : Store}

theorem unary_eval {s : State} {k k' : Kind} {p : Primitive} {op : UnaryOp} {size : Nat}
    {o : Option Value} (h : Evaluates code s size k o)
    (here : code[s.pc + size]? = some (.prim p))
    (computes : ∀ v, v.HasKind k → ∃ v', op.value? v = some v' ∧ v'.HasKind k' ∧
      ∀ rest, p.compute? (v.word :: rest) = some (v'.word :: rest)) :
    Evaluates code s (size + 1) k' (o.bind op.value?) := by
  cases o with
  | none => exact h
  | some v =>
    obtain ⟨kind, runs⟩ := h
    obtain ⟨v', applied, kind', computed⟩ := computes v kind
    rw [Option.bind_some, applied]
    exact ⟨kind', runs.trans (.step (exec_compute here (computed s.stack)))⟩

section Binary

variable {s : State} {k k' : Kind} {p : Primitive} {op : BinaryOp} {m n : Nat} {o o' : Option Value}

theorem strict_eval (takes : op.Takes k k') (prim : binaryPrim? op = some p)
    (strict : decisive? op = none) (h : Evaluates code s m k o)
    (next : ∀ a : Value,
      Evaluates code { s with pc := s.pc + m, stack := a.word :: s.stack } n k o')
    (here : code[s.pc + m + n]? = some (.prim p)) :
    Evaluates code s (m + (n + 1)) k'
      (o.bind fun a => if op.settles a then some a else o'.bind (op.value? a)) := by
  cases o with
  | none => exact h
  | some a =>
    obtain ⟨kind, runs⟩ := h
    have settles := settles_bool takes kind
    rw [strict] at settles
    have second := next a
    rw [Option.bind_some, settles, if_neg Bool.false_ne_true]
    cases o' with
    | none =>
      obtain ⟨s', runs', stuck⟩ := second
      exact ⟨s', runs.trans runs', stuck⟩
    | some b =>
      obtain ⟨kind', runs'⟩ := second
      have computes := computes_binary takes prim kind kind' s.stack
      rw [Option.bind_some]
      cases applied : op.value? a b with
      | none =>
        rw [applied] at computes
        exact ⟨_, runs.trans runs', stuck_of_compute here computes (binaryPrim_ne prim)⟩
      | some c =>
        rw [applied] at computes
        obtain ⟨kind'', computed⟩ := computes
        refine ⟨kind'', runs.trans (runs'.trans (.step ?_))⟩
        rw [← Nat.add_assoc, ← Nat.add_assoc]
        exact exec_compute here computed

/-- Short-circuit evaluation: the right operand is jumped over if the left one settles the value. -/
theorem shortCut_eval {decides : Bool} (takes : op.Takes k k') (prim : binaryPrim? op = some p)
    (shape : decisive? op = some decides) (h : Evaluates code s m k o)
    (copy : code[s.pc + m]? = some { op := .load, r := .st, d := -1 })
    (jumps : code[s.pc + m + 1]? = some { op := .jumpif, n := boolWord decides, r := .cb
                                          d := (s.pc + m + 2 + n + 1 : Nat) })
    (next : ∀ a : Value,
      Evaluates code { s with pc := s.pc + m + 2, stack := a.word :: s.stack } n k o')
    (here : code[s.pc + m + 2 + n]? = some (.prim p)) :
    Evaluates code s (m + 2 + n + 1) k'
      (o.bind fun a => if op.settles a then some a else o'.bind (op.value? a)) := by
  cases o with
  | none => exact h
  | some a =>
    obtain ⟨kind, runs⟩ := h
    have settles := settles_bool takes kind
    rw [shape] at settles
    obtain ⟨x, rfl, settles⟩ := settles
    rw [Option.bind_some, settles]
    have copied := runs.trans (.step (exec_copy rfl copy))
    have jumped := copied.trans (.step (exec_jumpIf rfl jumps))
    have result : k' = k := by
      cases op with
      | and | or => exact takes.2.trans takes.1.symm
      | eq | ne | lt | le | gt | ge | add | sub | mul | div | other => cases shape
    subst result
    by_cases same : x = decides
    · rw [if_pos same] at jumped
      rw [if_pos (by simpa using same)]
      refine ⟨kind, ?_⟩
      simp only [← Nat.add_assoc]
      exact jumped
    · rw [if_neg same] at jumped
      rw [if_neg (by simpa using same)]
      have second := next (.bool x)
      cases o' with
      | none =>
        obtain ⟨s', runs', stuck⟩ := second
        exact ⟨s', jumped.trans runs', stuck⟩
      | some b =>
        obtain ⟨kind', runs'⟩ := second
        have computes := computes_binary takes prim kind kind' s.stack
        rw [Option.bind_some]
        cases applied : op.value? (.bool x) b with
        | none =>
          rw [applied] at computes
          exact ⟨_, jumped.trans runs', stuck_of_compute here computes (binaryPrim_ne prim)⟩
        | some c =>
          rw [applied] at computes
          obtain ⟨kind'', computed⟩ := computes
          refine ⟨kind'', jumped.trans (runs'.trans (.step ?_))⟩
          simp only [← Nat.add_assoc]
          exact exec_compute here computed

end Binary

theorem tree_unary {site : Site} {op : UnaryOp} {operand : Expr} {pos : Nat} {t : Tree}
    (made : (Expr.unary op operand pos).tree env site = .ok t) : ∃ p u, unaryPrim? op = some p ∧
      operand.tree env site.operand = .ok u ∧
      t = .marked (.value site (.unary op operand pos)) (.seq u (.straight [prim p])) := by
  obtain ⟨t, inside, rfl⟩ := map_eq_ok.mp made
  split at inside
  · cases inside
  · rename_i p known
    obtain ⟨u, inner, rest⟩ := bind_eq_ok.mp inside
    cases rest
    exact ⟨p, u, known, inner, rfl⟩

theorem tree_binary {site : Site} {op : BinaryOp} {left right : Expr} {pos : Nat} {t : Tree}
    (made : (Expr.binary op left right pos).tree env site = .ok t) : ∃ p u v,
      binaryPrim? op = some p ∧ left.tree env site.left = .ok u ∧
      right.tree env site.right = .ok v ∧
      t = .marked (.value site (.binary op left right pos)) (match decisive? op with
        | none => .seq u (.seq v (.straight [prim p]))
        | some decides => .shortCut decides u v p) := by
  obtain ⟨t, inside, rfl⟩ := map_eq_ok.mp made
  split at inside
  · cases inside
  · rename_i p known
    obtain ⟨u, inLeft, later⟩ := bind_eq_ok.mp inside
    obtain ⟨v, inRight, rest⟩ := bind_eq_ok.mp later
    cases rest
    exact ⟨p, u, v, known, inLeft, inRight, rfl⟩

/-- The code of an expression leaves the word of its value. -/
theorem Expr.Has.evaluates {site : Site} {e : Expr} {k : Kind} (has : e.Has env.bound V site k)
    {s : State} {t : Tree} (holds : Holds env V σ s) (made : e.tree env site = .ok t)
    (installed : Installed code s.pc (t.code s.pc)) :
    Evaluates code s t.size k (e.eval? env.bound σ site) := by
  induction has generalizing s t with
  | int | bool =>
    cases made
    exact ⟨trivial, .step (exec_literal (installed_singleton.mp installed))⟩
  | neg inner ih =>
    obtain ⟨p, u, prim, inside, rfl⟩ := tree_unary made
    cases prim
    obtain ⟨first, last⟩ := installed_seq.mp installed
    refine unary_eval (ih holds inside first) (installed_prim.mp last) fun v kind => ?_
    obtain ⟨n, rfl⟩ := exists_int kind
    exact ⟨_, rfl, trivial, fun rest => rfl⟩
  | not inner ih =>
    obtain ⟨p, u, prim, inside, rfl⟩ := tree_unary made
    cases prim
    obtain ⟨first, last⟩ := installed_seq.mp installed
    refine unary_eval (ih holds inside first) (installed_prim.mp last) fun v kind => ?_
    obtain ⟨b, rfl⟩ := exists_bool kind
    exact ⟨_, rfl, trivial, fun rest => by cases b <;> rfl⟩
  | ref denotes known type =>
    obtain ⟨t, inside, rfl⟩ := map_eq_ok.mp made
    obtain ⟨items, loads, rest⟩ := bind_eq_ok.mp inside
    cases rest
    obtain ⟨l, located, fits, word, ofType⟩ := holds _ known
    rw [Expr.eval?, denotes, Option.map_some]
    exact ⟨ofType _ type, runsTo_variable denotes loads installed located fits word⟩
  | @binary _ op _ _ _ _ _ takes first second ih ih' =>
    obtain ⟨p, u, v, prim, inLeft, inRight, rfl⟩ := tree_binary made
    rw [Expr.eval?]
    cases shape : decisive? op with
    | none =>
      simp only [shape] at installed ⊢
      obtain ⟨here, later⟩ := installed_seq.mp installed
      obtain ⟨there, last⟩ := installed_seq.mp later
      exact strict_eval takes prim shape (ih holds inLeft here)
        (fun a => ih' (holds.push _ a.word) inRight there) (installed_prim.mp last)
    | some decides =>
      simp only [shape] at installed ⊢
      obtain ⟨here, copy, jumps, there, last⟩ := installed_shortCut.mp installed
      exact shortCut_eval takes prim shape (ih holds inLeft here) copy jumps
        (fun a => ih' (holds.push _ a.word) inRight there) last

end Runs

end JamCompiler
