import JamCompiler.Proofs.Reading.Sound

/-!
# Lookahead and depth

What a reading step does with tokens depends on those that it takes and on the one after them, and
not on the depth that is left once it is more than the tokens need. `Follows` says both at once of
a step at a depth and of the same step at another: the second one does, on any tokens that begin
like those of the first one, what the first one does. With one rule for each way in which steps are
put together, it goes through the mutually recursive steps by induction on the depth.
-/

namespace JamCompiler

namespace Reading

variable {α β : Type} {n k j : Nat}

theorem front_eq_some {ts : List Token} {kind : TokenKind} :
    front ts = some kind ↔ ∃ pos line rest, ts = ⟨kind, pos, line⟩ :: rest := by
  constructor
  · intro h
    cases ts with
    | nil => cases h
    | cons t ts => exact ⟨t.pos, t.line, ts, by rw [← Option.some.inj h]⟩
  · rintro ⟨pos, line, rest, rfl⟩
    rfl

theorem front_append {used rest rest' : List Token} (same : front rest' = front rest) :
    front (used ++ rest') = front (used ++ rest) := by
  cases used with
  | nil => exact same
  | cons t used => rfl

/-- On at most `n` tokens, `y` does what `x` does, also in front of other tokens as long as the
first of them is of the kind of the first token left; and `x` takes at least `k` tokens unless it is
stuck. -/
structure Follows (n k : Nat) (x y : Reading α) : Prop where
  ok : ∀ {ts a rest}, ts.length ≤ n → EStateM.run x ts = .ok a rest →
    ∃ used, ts = used ++ rest ∧ k ≤ used.length ∧
      ∀ rest', front rest' = front rest → EStateM.run y (used ++ rest') = .ok a rest'
  stuck : ∀ {ts rest}, ts.length ≤ n → EStateM.run x ts = .error () rest →
    ∃ used, ts = used ++ rest ∧
      ∀ rest', front rest' = front rest → EStateM.run y (used ++ rest') = .error () rest'

namespace Follows

variable {x y : Reading α} {f g : α → Reading β}

theorem pure (a : α) : Follows n 0 (Pure.pure a) (Pure.pure a) where
  ok := by
    intro ts b rest _ run
    cases run
    exact ⟨[], rfl, Nat.le_refl 0, fun _ _ => rfl⟩
  stuck := by
    intro ts rest _ run
    cases run

theorem fail : Follows n k (Reading.stuck : Reading α) Reading.stuck where
  ok := by
    intro ts a rest _ run
    cases run
  stuck := by
    intro ts rest _ run
    cases run
    exact ⟨[], rfl, fun _ _ => rfl⟩

theorem fewer (h : Follows n k x y) (le : j ≤ k) : Follows n j x y where
  ok := fun len run =>
    have ⟨used, split, taken, same⟩ := h.ok len run
    ⟨used, split, Nat.le_trans le taken, same⟩
  stuck := h.stuck

theorem bind (first : Follows n k x y) (next : ∀ a, k ≤ n → Follows (n - k) j (f a) (g a)) :
    Follows n (k + j) (x >>= f) (y >>= g) where
  ok := by
    intro ts b rest len run
    rw [EStateM.run_bind] at run
    split at run
    · rename_i a middle run'
      obtain ⟨used, rfl, taken, same⟩ := first.ok len run'
      rw [List.length_append] at len
      obtain ⟨used', rfl, taken', same'⟩ := (next a (by omega)).ok (by omega) run
      refine ⟨used ++ used', by simp, by simp; omega, fun rest' at' => ?_⟩
      rw [EStateM.run_bind, List.append_assoc, same _ (front_append at')]
      exact same' rest' at'
    · cases run
  stuck := by
    intro ts rest len run
    rw [EStateM.run_bind] at run
    split at run
    · rename_i a middle run'
      obtain ⟨used, rfl, taken, same⟩ := first.ok len run'
      rw [List.length_append] at len
      obtain ⟨used', rfl, same'⟩ := (next a (by omega)).stuck (by omega) run
      refine ⟨used ++ used', by simp, fun rest' at' => ?_⟩
      rw [EStateM.run_bind, List.append_assoc, same _ (front_append at')]
      exact same' rest' at'
    · rename_i u middle run'
      cases run
      obtain ⟨used, rfl, same⟩ := first.stuck len run'
      refine ⟨used, rfl, fun rest' at' => ?_⟩
      rw [EStateM.run_bind, same rest' at']

/-- A first step that takes at least one token. -/
theorem after (first : Follows n 1 x y) (next : ∀ a, 1 ≤ n → Follows (n - 1) 0 (f a) (g a)) :
    Follows n 1 (x >>= f) (y >>= g) :=
  first.bind next

/-- Such a step where no token has to be taken. -/
theorem andThen (first : Follows n 1 x y) (next : ∀ a, 1 ≤ n → Follows (n - 1) 0 (f a) (g a)) :
    Follows n 0 (x >>= f) (y >>= g) :=
  (first.after next).fewer (Nat.zero_le 1)

theorem peek {f g : Option TokenKind → Reading β} (h : ∀ o, Follows n k (f o) (g o)) :
    Follows n k (Reading.peek >>= f) (Reading.peek >>= g) where
  ok := by
    intro ts b rest len run
    obtain ⟨used, rfl, taken, same⟩ := (h (front ts)).ok len run
    refine ⟨used, rfl, taken, fun rest' at' => ?_⟩
    have := same rest' at'
    rw [← front_append at'] at this
    exact this
  stuck := by
    intro ts rest len run
    obtain ⟨used, rfl, same⟩ := (h (front ts)).stuck len run
    refine ⟨used, rfl, fun rest' at' => ?_⟩
    have := same rest' at'
    rw [← front_append at'] at this
    exact this

theorem expect (kind : TokenKind) : Follows n 1 (Reading.expect kind) (Reading.expect kind) where
  ok := by
    intro ts pos rest _ run
    cases ts with
    | nil => cases run
    | cons t ts =>
      rw [run_expect] at run
      split at run
      · rename_i known
        cases run
        exact ⟨[t], rfl, Nat.le_refl 1, fun rest' _ => by simp [run_expect, known]⟩
      · cases run
  stuck := by
    intro ts rest _ run
    cases ts with
    | nil =>
      cases run
      refine ⟨[], rfl, fun rest' at' => ?_⟩
      cases rest' with
      | nil => rfl
      | cons t rest' => cases at'
    | cons t ts =>
      rw [run_expect] at run
      split at run
      · cases run
      · rename_i known
        cases run
        refine ⟨[], rfl, fun rest' at' => ?_⟩
        cases rest' with
        | nil => cases at'
        | cons t' rest' =>
          have same : t'.kind = t.kind := Option.some.inj at'
          simp [run_expect, same, known]

theorem identifier : Follows n 1 Reading.identifier Reading.identifier where
  ok := by
    intro ts id rest _ run
    simp only [Reading.identifier, EStateM.run_bind, EStateM.run_get] at run
    split at run
    · cases run
      exact ⟨[_], rfl, Nat.le_refl 1, fun rest' _ => rfl⟩
    · cases run
  stuck := by
    intro ts rest _ run
    simp only [Reading.identifier, EStateM.run_bind, EStateM.run_get] at run
    split at run
    · cases run
    · rename_i other
      cases run
      refine ⟨[], rfl, fun rest' at' => ?_⟩
      simp only [Reading.identifier, EStateM.run_bind, EStateM.run_get, List.nil_append]
      split
      · obtain ⟨pos, line, rest, rfl⟩ := front_eq_some.mp at'.symm
        exact absurd rfl (other _ pos line rest)
      · rfl

theorem takes {kind : TokenKind} {f g : Bool → Reading β}
    (taken : 1 ≤ n → Follows (n - 1) (k - 1) (f true) (g true))
    (left : Follows n k (f false) (g false)) :
    Follows n k (Reading.takes kind >>= f) (Reading.takes kind >>= g) := by
  unfold Reading.takes
  rw [bind_assoc, bind_assoc]
  refine peek fun o => ?_
  split
  · rw [bind_assoc, bind_assoc]
    exact ((expect kind).bind fun _ le => taken le).fewer (by omega)
  · exact left

end Follows

theorem follows_arrayOr (t : TypeExpr) : Follows n 0 (arrayOr t) (arrayOr t) :=
  .takes (fun _ => (Follows.expect _).andThen fun _ _ => .pure _) (.pure _)

theorem follows_primitiveType : Follows n 1 primitiveType primitiveType := by
  refine .peek fun o => ?_
  split
  · exact (Follows.expect _).after fun _ _ => .pure _
  · exact (Follows.expect _).after fun _ _ => follows_arrayOr _

theorem follows_typeExpr : Follows n 1 typeExpr typeExpr := by
  refine .peek fun o => ?_
  split
  · exact Follows.identifier.after fun _ _ => follows_arrayOr _
  · exact follows_primitiveType

theorem qualifiers_end {r : Reference} {ts : List Token} (h : front ts ≠ some (.symbol .dot)) :
    qualifiers r ts = .ok r ts := by
  fun_cases qualifiers r ts with
  | case1 => exact absurd rfl h
  | case2 => exact absurd rfl h
  | case3 => rfl

theorem qualifiers_stuck {r : Reference} {ts : List Token} {pos line : Nat}
    (h : ∀ name, front ts ≠ some (.ident name)) :
    qualifiers r (⟨.symbol .dot, pos, line⟩ :: ts) = .error () ts := by
  cases ts with
  | nil => rfl
  | cons t ts =>
    obtain ⟨kind, _, _⟩ := t
    cases kind with
    | ident name => exact absurd rfl (h name)
    | number | symbol | keyword => rfl

theorem follows_qualifiers (r : Reference) : Follows n 0 (qualifiers r) (qualifiers r) where
  ok := by
    intro ts q rest len run
    clear len
    change qualifiers r ts = _ at run
    fun_induction qualifiers r ts with
    | case1 r dp dl name pos line ts ih =>
      obtain ⟨used, rfl, -, same⟩ := ih run
      exact ⟨_ :: _ :: used, rfl, Nat.zero_le _, same⟩
    | case2 => cases run
    | case3 r ts _ other =>
      cases run
      refine ⟨[], rfl, Nat.le_refl 0, fun rest' at' => qualifiers_end fun dot => ?_⟩
      obtain ⟨pos, line, rest, rfl⟩ := front_eq_some.mp (at'.symm.trans dot)
      exact other pos line rest rfl
  stuck := by
    intro ts rest len run
    clear len
    change qualifiers r ts = _ at run
    fun_induction qualifiers r ts with
    | case1 r dp dl name pos line ts ih =>
      obtain ⟨used, rfl, same⟩ := ih run
      exact ⟨_ :: _ :: used, rfl, same⟩
    | case2 r dp dl ts other =>
      cases run
      refine ⟨[_], rfl, fun rest' at' => qualifiers_stuck fun name ident => ?_⟩
      obtain ⟨pos, line, rest, rfl⟩ := front_eq_some.mp (at'.symm.trans ident)
      exact other name pos line rest rfl
    | case3 => cases run

theorem follows_reference : Follows n 1 reference reference := by
  refine .peek fun o => ?_
  split
  · exact Follows.identifier.after fun _ _ => follows_qualifiers _
  · exact (Follows.expect _).after fun _ _ => follows_qualifiers _

theorem follows_nextOp {least : Nat} {f g : Option (Symbol × BinaryOp) → Reading β}
    (h : ∀ op, Follows n k (f op) (g op)) :
    Follows n k (nextOp least >>= f) (nextOp least >>= g) := by
  unfold nextOp
  rw [bind_assoc, bind_assoc]
  refine .peek fun o => ?_
  split
  · split
    · exact h _
    · exact h _
  · exact h _

/-- At depths that are enough for the tokens, the steps for expressions do the same. -/
structure ExprsFollow (fuel fuel' : Nat) : Prop where
  exprFrom : ∀ {n}, 4 * n + 2 ≤ fuel → ∀ least,
    Follows n 1 (exprFrom fuel least) (exprFrom fuel' least)
  operators : ∀ {n}, 4 * n + 1 ≤ fuel → ∀ least left,
    Follows n 0 (operators fuel least left) (operators fuel' least left)
  operand : ∀ {n}, 4 * n + 1 ≤ fuel → Follows n 1 (operand fuel) (operand fuel')
  referenceOperand : ∀ {n}, 4 * n + 2 ≤ fuel → ∀ r,
    Follows n 0 (referenceOperand fuel r) (referenceOperand fuel' r)
  creation : ∀ {n}, 4 * n + 1 ≤ fuel → ∀ pos, Follows n 1 (creation fuel pos) (creation fuel' pos)
  bracketed : ∀ {n}, 4 * n + 1 ≤ fuel → Follows n 1 (bracketed fuel) (bracketed fuel')
  arguments : ∀ {n}, 4 * n + 1 ≤ fuel → Follows n 1 (arguments fuel) (arguments fuel')
  moreArguments : ∀ {n}, 4 * n + 1 ≤ fuel → Follows n 1 (moreArguments fuel) (moreArguments fuel')

theorem exprsFollow {fuel fuel' : Nat} (le : fuel ≤ fuel') : ExprsFollow fuel fuel' := by
  induction fuel generalizing fuel' with
  | zero => constructor <;> intro n enough <;> omega
  | succ fuel ih =>
    obtain ⟨fuel', rfl⟩ := Nat.exists_eq_succ_of_ne_zero (Nat.ne_zero_of_lt le)
    replace ih := ih (Nat.le_of_succ_le_succ le)
    constructor <;> intro n enough
    case exprFrom =>
      intro least
      exact (ih.operand (by omega)).after fun _ _ => ih.operators (by omega) _ _
    case operators =>
      intro least left
      refine follows_nextOp fun found => ?_
      split
      · exact .pure _
      · refine (Follows.expect _).andThen fun _ _ => ?_
        refine (ih.exprFrom (by omega) _).andThen fun _ _ => ?_
        exact ih.operators (by omega) _ _
    case operand =>
      refine .peek fun o => ?_
      split
      · exact (Follows.expect _).after fun _ _ => .pure _
      · exact (Follows.expect _).after fun _ _ => .pure _
      · exact (Follows.expect _).after fun _ _ => .pure _
      · exact (Follows.expect _).after fun _ _ => .pure _
      · refine (Follows.expect _).after fun _ _ => ?_
        exact (ih.operand (by omega)).andThen fun _ _ => .pure _
      · refine (Follows.expect _).after fun _ _ => ?_
        exact (ih.operand (by omega)).andThen fun _ _ => .pure _
      · refine (Follows.expect _).after fun _ _ => ?_
        refine (ih.exprFrom (by omega) _).andThen fun _ _ => ?_
        exact (Follows.expect _).andThen fun _ _ => .pure _
      · exact (Follows.expect _).after fun _ _ => (ih.creation (by omega) _).fewer (Nat.zero_le _)
      · exact follows_reference.after fun _ _ => ih.referenceOperand (by omega) _
    case referenceOperand =>
      intro r
      refine .peek fun o => ?_
      split
      · refine (Follows.expect _).andThen fun _ _ => ?_
        refine (ih.exprFrom (by omega) _).andThen fun _ _ => ?_
        exact (Follows.expect _).andThen fun _ _ => .pure _
      · exact (ih.arguments (by omega)).andThen fun _ _ => .pure _
      · exact .pure _
    case creation =>
      intro pos
      refine .peek fun o => ?_
      split
      · refine Follows.identifier.after fun _ _ => .takes (fun _ => ?_) ?_
        · exact (Follows.expect _).andThen fun _ _ => .pure _
        · exact (ih.bracketed (by omega)).andThen fun _ _ => .pure _
      · refine (Follows.expect _).after fun _ _ => ?_
        exact (ih.bracketed (by omega)).andThen fun _ _ => .pure _
    case bracketed =>
      refine (Follows.expect _).after fun _ _ => ?_
      refine (ih.exprFrom (by omega) _).andThen fun _ _ => ?_
      exact (Follows.expect _).andThen fun _ _ => .pure _
    case arguments =>
      refine (Follows.expect _).after fun _ _ => .takes (fun _ => .pure _) ?_
      refine (ih.exprFrom (by omega) _).andThen fun _ _ => ?_
      exact (ih.moreArguments (by omega)).andThen fun _ _ => .pure _
    case moreArguments =>
      refine .takes (fun _ => ?_) ((Follows.expect _).after fun _ _ => .pure _)
      refine (ih.exprFrom (by omega) _).andThen fun _ _ => ?_
      exact (ih.moreArguments (by omega)).andThen fun _ _ => .pure _

section

variable {fuel fuel' : Nat}

theorem follows_initializer (le : fuel ≤ fuel') (enough : 4 * n + 1 ≤ fuel) :
    Follows n 1 (initializer fuel) (initializer fuel') := by
  refine (Follows.expect _).after fun _ _ => ?_
  refine ((exprsFollow le).exprFrom (by omega) _).andThen fun _ _ => ?_
  exact (Follows.expect _).andThen fun _ _ => .pure _

theorem follows_condition (le : fuel ≤ fuel') (enough : 4 * n + 1 ≤ fuel) :
    Follows n 1 (condition fuel) (condition fuel') := by
  refine (Follows.expect _).after fun _ _ => ?_
  refine ((exprsFollow le).exprFrom (by omega) _).andThen fun _ _ => ?_
  exact (Follows.expect _).andThen fun _ _ => .pure _

theorem follows_declaration (le : fuel ≤ fuel') (enough : 4 * n + 1 ≤ fuel) (type : TypeExpr) :
    Follows n 1 (declaration fuel type) (declaration fuel' type) := by
  refine Follows.identifier.after fun _ _ => ?_
  exact (follows_initializer le (by omega)).andThen fun _ _ => .pure _

theorem follows_elementAssignment (le : fuel ≤ fuel') (enough : 4 * n + 2 ≤ fuel) (r : Reference) :
    Follows n 1 (elementAssignment fuel r) (elementAssignment fuel' r) := by
  refine ((exprsFollow le).exprFrom (by omega) _).after fun _ _ => ?_
  refine (Follows.expect _).andThen fun _ _ => ?_
  exact (follows_initializer le (by omega)).andThen fun _ _ => .pure _

theorem follows_referenceStmt (le : fuel ≤ fuel') (enough : 4 * n + 1 ≤ fuel) (r : Reference) :
    Follows n 1 (referenceStmt fuel r) (referenceStmt fuel' r) := by
  refine .peek fun o => ?_
  split
  · refine ((exprsFollow le).arguments (by omega)).after fun _ _ => ?_
    exact (Follows.expect _).andThen fun _ _ => .pure _
  · split
    · refine (Follows.expect _).after fun _ _ => ?_
      exact (follows_elementAssignment le (by omega) _).fewer (Nat.zero_le _)
    · exact .fail
  · exact (follows_initializer le (by omega)).after fun _ _ => .pure _

theorem follows_namedStmt (le : fuel ≤ fuel') (enough : 4 * n + 1 ≤ fuel) (name : Identifier) :
    Follows n 1 (namedStmt fuel name) (namedStmt fuel' name) := by
  refine .peek fun o => ?_
  split
  · exact follows_declaration le enough _
  · refine (Follows.expect _).after fun _ _ => .takes (fun _ => ?_) ?_
    · exact (follows_declaration le (by omega) _).fewer (Nat.zero_le _)
    · exact (follows_elementAssignment le (by omega) _).fewer (Nat.zero_le _)
  · exact (follows_qualifiers _).bind fun _ _ => follows_referenceStmt le (by omega) _

theorem follows_returnStmt (le : fuel ≤ fuel') (enough : 4 * n + 2 ≤ fuel) (pos : Nat) :
    Follows n 1 (returnStmt fuel pos) (returnStmt fuel' pos) := by
  refine .takes (fun _ => .pure _) (((exprsFollow le).exprFrom (by omega) _).after fun _ _ => ?_)
  exact (Follows.expect _).andThen fun _ _ => .pure _

/-- At depths that are enough for the tokens, the steps for statements do the same. -/
structure StmtsFollow (fuel fuel' : Nat) : Prop where
  stmtFrom : ∀ {n}, 4 * n + 1 ≤ fuel → Follows n 1 (stmtFrom fuel) (stmtFrom fuel')
  stmtsFrom : ∀ {n}, 4 * n + 2 ≤ fuel → Follows n 1 (stmtsFrom fuel) (stmtsFrom fuel')

theorem stmtsFollow (le : fuel ≤ fuel') : StmtsFollow fuel fuel' := by
  induction fuel generalizing fuel' with
  | zero => constructor <;> intro n enough <;> omega
  | succ fuel ih =>
    obtain ⟨fuel', rfl⟩ := Nat.exists_eq_succ_of_ne_zero (Nat.ne_zero_of_lt le)
    replace le := Nat.le_of_succ_le_succ le
    replace ih := ih le
    constructor <;> intro n enough
    case stmtFrom =>
      refine .peek fun o => ?_
      split
      · refine (Follows.expect _).after fun _ _ => ?_
        exact (ih.stmtsFrom (by omega)).andThen fun _ _ => .pure _
      · exact follows_primitiveType.after fun _ _ =>
          (follows_declaration le (by omega) _).fewer (Nat.zero_le _)
      · exact follows_primitiveType.after fun _ _ =>
          (follows_declaration le (by omega) _).fewer (Nat.zero_le _)
      · exact Follows.identifier.after fun _ _ =>
          (follows_namedStmt le (by omega) _).fewer (Nat.zero_le _)
      · exact follows_reference.after fun _ _ =>
          (follows_referenceStmt le (by omega) _).fewer (Nat.zero_le _)
      · exact (Follows.expect _).after fun _ _ =>
          (follows_returnStmt le (by omega) _).fewer (Nat.zero_le _)
      · refine (Follows.expect _).after fun _ _ => ?_
        refine (follows_condition le (by omega)).andThen fun _ _ => ?_
        refine (ih.stmtFrom (by omega)).andThen fun _ _ => ?_
        refine .takes (fun _ => ?_) (.pure _)
        exact (ih.stmtFrom (by omega)).andThen fun _ _ => .pure _
      · refine (Follows.expect _).after fun _ _ => ?_
        refine (follows_condition le (by omega)).andThen fun _ _ => ?_
        exact (ih.stmtFrom (by omega)).andThen fun _ _ => .pure _
      · exact .fail
    case stmtsFrom =>
      refine .takes (fun _ => .pure _) ((ih.stmtFrom (by omega)).after fun _ _ => ?_)
      exact (ih.stmtsFrom (by omega)).andThen fun _ _ => .pure _

theorem follows_parameter : Follows n 1 parameter parameter :=
  follows_typeExpr.after fun _ _ =>
    Follows.identifier.andThen fun _ _ => .pure _

theorem follows_moreParameters (le : fuel ≤ fuel') (enough : 4 * n + 1 ≤ fuel) :
    Follows n 1 (moreParameters fuel) (moreParameters fuel') := by
  induction fuel generalizing fuel' n with
  | zero => omega
  | succ fuel ih =>
    obtain ⟨fuel', rfl⟩ := Nat.exists_eq_succ_of_ne_zero (Nat.ne_zero_of_lt le)
    refine .takes (fun _ => ?_) ((Follows.expect _).after fun _ _ => .pure _)
    refine follows_parameter.andThen fun _ _ => ?_
    refine (ih (Nat.le_of_succ_le_succ le) (by omega)).andThen fun _ _ => ?_
    exact .pure _

theorem follows_parameters (le : fuel ≤ fuel') (enough : 4 * n + 1 ≤ fuel) :
    Follows n 1 (parameters fuel) (parameters fuel') := by
  refine (Follows.expect _).after fun _ _ => .takes (fun _ => .pure _) ?_
  refine follows_parameter.andThen fun _ _ => ?_
  exact (follows_moreParameters le (by omega)).andThen fun _ _ => .pure _

theorem follows_methodRest (le : fuel ≤ fuel') (enough : 4 * n + 1 ≤ fuel)
    (isPrivate isStatic : Bool) (result : TypeExpr) (name : Identifier) :
    Follows n 1 (methodRest fuel isPrivate isStatic result name)
      (methodRest fuel' isPrivate isStatic result name) := by
  refine (follows_parameters le (by omega)).after fun _ _ => ?_
  refine (Follows.expect _).andThen fun _ _ => ?_
  exact ((stmtsFollow le).stmtsFrom (by omega)).andThen fun _ _ => .pure _

theorem follows_visibility : Follows n 0 visibility visibility := by
  refine .takes (fun _ => .pure _) ?_
  rw [← bind_pure (Reading.takes _)]
  exact .takes (fun _ => .pure _) (.pure _)

theorem follows_access :
    Follows n 0 (takes (.keyword .staticWord)) (takes (.keyword .staticWord)) := by
  rw [← bind_pure (Reading.takes _)]
  exact .takes (fun _ => .pure _) (.pure _)

theorem follows_member (le : fuel ≤ fuel') (enough : 4 * n + 1 ≤ fuel) :
    Follows n 1 (member fuel) (member fuel') := by
  refine (follows_visibility.bind fun isPrivate _ => ?_).fewer (Nat.le_add_left 1 0)
  refine (follows_access.bind fun isStatic _ => ?_).fewer (Nat.le_add_left 1 0)
  refine .peek fun o => ?_
  split
  · refine (Follows.expect _).after fun _ _ => ?_
    refine Follows.identifier.andThen fun _ _ => ?_
    refine (follows_methodRest le (by omega) _ _ _ _).andThen fun _ _ => ?_
    exact .pure _
  · refine follows_typeExpr.after fun _ _ => ?_
    refine Follows.identifier.andThen fun _ _ => ?_
    refine .takes (fun _ => .pure _) ?_
    refine (follows_methodRest le (by omega) _ _ _ _).andThen fun _ _ => ?_
    exact .pure _

theorem follows_members (le : fuel ≤ fuel') (enough : 4 * n + 2 ≤ fuel) :
    Follows n 1 (members fuel) (members fuel') := by
  induction fuel generalizing fuel' n with
  | zero => omega
  | succ fuel ih =>
    obtain ⟨fuel', rfl⟩ := Nat.exists_eq_succ_of_ne_zero (Nat.ne_zero_of_lt le)
    replace le := Nat.le_of_succ_le_succ le
    refine .takes (fun _ => .pure _) ((follows_member le (by omega)).after fun _ _ => ?_)
    exact (ih le (by omega)).andThen fun _ _ => .pure _

theorem follows_classDecl (le : fuel ≤ fuel') (enough : 4 * n + 1 ≤ fuel) :
    Follows n 1 (classDecl fuel) (classDecl fuel') := by
  refine (Follows.expect _).after fun _ _ => ?_
  refine Follows.identifier.andThen fun _ _ => ?_
  refine (Follows.expect _).andThen fun _ _ => ?_
  exact (follows_members le (by omega)).andThen fun _ _ => .pure _

theorem follows_classes (le : fuel ≤ fuel') (enough : 4 * n + 2 ≤ fuel) :
    Follows n 0 (classes fuel) (classes fuel') := by
  induction fuel generalizing fuel' n with
  | zero => omega
  | succ fuel ih =>
    obtain ⟨fuel', rfl⟩ := Nat.exists_eq_succ_of_ne_zero (Nat.ne_zero_of_lt le)
    replace le := Nat.le_of_succ_le_succ le
    refine .peek fun o => ?_
    split
    · exact .pure _
    · refine (follows_classDecl le (by omega)).andThen fun _ _ => ?_
      exact (ih le (by omega)).bind fun _ _ => .pure _

end

/-- What the bounded steps do with the tokens of a text, they do at every greater depth and in front
of all tokens that begin alike. -/
theorem follows_fuelFor (ts : List Token) (fuel : Nat) (le : Program.fuelFor ts ≤ fuel) :
    Follows ts.length 0 (classes (Program.fuelFor ts)) (classes fuel) :=
  follows_classes le (by unfold Program.fuelFor; omega)

end Reading

end JamCompiler
