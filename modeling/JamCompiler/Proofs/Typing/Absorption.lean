import JamCompiler.Proofs.Typing.Holes

/-!
# What follows an erroneous expression

In each place where an expression can stand, the check of what it stands in goes on after an
erroneous expression as it does after one of some other type: the type that an operator, an index or
a condition asks for, or one that goes with the type that is declared there.
-/

namespace JamCompiler

open Pass ValueType

namespace Typing

variable {α β : Type} {x y : Typing α} {f : α → Typing β} {g : ValueType → Typing α}
variable {s : Site} {type : ValueType} {v : Work (SiteMap ValueType)} {ctx : Context}

/-- Steps that do the same away from a site but for the words of faults. -/
def Alike (s : Site) (x y : Typing α) : Prop :=
  ∀ front v v', Beside (elsewhere s) SamePlace front v v' →
    Related (elsewhere s) SamePlace front (EStateM.run x v) (EStateM.run y v')

theorem Local.alike (h : Local (elsewhere s) x) :
    Alike s x x := fun _ _ _ => h.related SamePlace.refl

theorem Alike.bind (first : Alike s x y) (next : ∀ a, Local (elsewhere s) (f a)) :
    Alike s (x >>= f) (y >>= f) :=
  fun _ _ _ beside => (first _ _ _ beside).bind fun _ _ => (next _).alike _ _ _

/-- The same type where the same condition holds, and a fault at the same place where it does
not. -/
theorem alike_unless {c c' : Bool} (same : c' = c) (type : ValueType) (fault fault' : TypeFault)
    (pos : Nat) :
    Alike s (if c = true then Pure.pure type else faulty fault pos)
      (if c' = true then Pure.pure type else faulty fault' pos) := by
  intro front v v' beside
  subst same
  split
  · exact .ok _ beside
  · refine Related.bind (.report beside ⟨rfl, rfl⟩) fun _ _ beside' => ?_
    exact .ok _ beside'

namespace Absorbs

theorem of_alike (plain : type.Plain) (alike : Alike s (g .error) (g type)) : Absorbs s g v :=
  ⟨type, plain, fun front => alike front v⟩

theorem of_eq (plain : type.Plain) (same : g .error = g type)
    (local' : Local (elsewhere s) (g type)) : Absorbs s g v := by
  refine of_alike plain ?_
  rw [same]
  exact local'.alike

/-- A step between the expression and what its type is used for. -/
theorem bind {y : Typing β} {h : ValueType → β → Typing α} (first : Local (elsewhere s) y)
    (next : ∀ b u, EStateM.run y v = .ok b u → Absorbs s (fun a => h a b) u) :
    Absorbs s (fun a => y >>= h a) v := by
  cases run : EStateM.run y v with
  | error stop u =>
    refine ⟨.base .int, .int, fun _ _ beside => (first.alike _ _ _ beside).bind fun run' _ _ => ?_⟩
    rw [run] at run'
    cases run'
  | ok b u =>
    obtain ⟨type, plain, others⟩ := next b u run
    refine ⟨type, plain, fun _ _ beside => (first.alike _ _ _ beside).bind fun run' _ beside' => ?_⟩
    rw [run] at run'
    cases run'
    exact others _ _ beside'

/-- A value that is asked to go with a type. -/
theorem compatible {expected : ValueType} (supported : expected.Supported)
    {fault : ValueType → TypeFault} {pos : Nat} {next : Unit → Typing α}
    (after : Local (elsewhere s) (next ())) :
    Absorbs s (fun given =>
      if (!expected.compatible given) = true then reportType (fault given) pos >>= next
      else next ()) v := by
  have goes := compatible_error_right expected
  have goes' := compatible_standIn supported
  refine of_eq (standIn_plain supported) ?_ (.reported_unless after)
  simp [goes, goes']

/-- A number that is asked for. -/
theorem isInt {fault : ValueType → TypeFault} {pos : Nat} {next : Unit → Typing α}
    (after : Local (elsewhere s) (next ())) :
    Absorbs s
      (fun given => if (!given.isBase .int) = true then reportType (fault given) pos >>= next
      else next ()) v :=
  of_eq .int rfl (.reported_unless after)

theorem reported_unless {c : Bool} {fault : TypeFault} {pos : Nat}
    {next : ValueType → Unit → Typing α} (after : ∀ v, Absorbs s (fun given => next given ()) v) :
    Absorbs s (fun given => if (!c) = true then reportType fault pos >>= next given
      else next given ()) v := by
  cases c with
  | true => exact after v
  | false => exact .bind (.report fault pos) fun _ u _ => after u

end Absorbs

theorem exists_checkUnary_eq (op : UnaryOp) (pos : Nat) :
    ∃ type, type.Plain ∧ checkUnary op pos error = checkUnary op pos type := by
  cases op with
  | neg => exact ⟨base .int, .int, rfl⟩
  | not => exact ⟨base .boolean, .boolean, rfl⟩
  | other text => exact ⟨base .int, .int, rfl⟩

/-- Some type goes with the other operand just as the erroneous one does, on either side. -/
theorem exists_checkBinary_alike (s : Site) (op : BinaryOp) (pos : Nat) {t : ValueType}
    (supported : t.Supported) :
    ∃ type, type.Plain ∧ Alike s (checkBinary op pos error t) (checkBinary op pos type t) ∧
      Alike s (checkBinary op pos t error) (checkBinary op pos t type) := by
  cases op with
  | add | sub | mul | div | lt | le | gt | ge =>
    exact ⟨base .int, .int, alike_unless rfl _ _ _ _, alike_unless rfl _ _ _ _⟩
  | and | or => exact ⟨base .boolean, .boolean, alike_unless rfl _ _ _ _, alike_unless rfl _ _ _ _⟩
  | eq | ne =>
    have goes := compatible_standIn supported
    have left : t.standIn.compatible t = error.compatible t := by
      rw [compatible_comm, goes, compatible_error]
    have right : t.compatible t.standIn = t.compatible error := by rw [goes, compatible_error_right]
    unfold checkBinary
    exact ⟨t.standIn, standIn_plain supported, alike_unless left _ (.incomparable error t) _ _,
      alike_unless right _ (.incomparable t error) _ _⟩
  | other text => exact ⟨base .int, .int, (Local.fatal _ _).alike, (Local.fatal _ _).alike⟩

/-- What a list is used for is the same after an erroneous argument as after one of some other
type. -/
def AbsorbsArgument (f : List (Nat × ValueType) → Typing α) : Prop :=
  ∀ front pos back, ∃ type, type.Plain ∧
    f (front ++ (pos, error) :: back) = f (front ++ (pos, type) :: back)

theorem AbsorbsArgument.cons {f : List (Nat × ValueType) → Typing α} (h : AbsorbsArgument f)
    (arg : Nat × ValueType) : AbsorbsArgument fun rest => f (arg :: rest) :=
  fun front => h (arg :: front)

theorem AbsorbsArgument.bind {f : List (Nat × ValueType) → Typing α} (h : AbsorbsArgument f)
    (next : α → Typing β) : AbsorbsArgument fun args => f args >>= next := by
  intro front pos back
  obtain ⟨type, plain, same⟩ := h front pos back
  exact ⟨type, plain, congrArg (· >>= next) same⟩

theorem absorbs_matchArgs (method : String) {params : List (ParamDecl × ValueType)}
    (supported : ∀ p ∈ params, p.2.Supported) :
    AbsorbsArgument fun args => matchArgs method args params := by
  intro front pos back
  induction front generalizing params with
  | nil =>
    cases params with
    | nil => exact ⟨base .int, .int, rfl⟩
    | cons p params =>
      obtain ⟨param, expected⟩ := p
      have goes := compatible_error_right expected
      have first : expected.Supported := supported _ List.mem_cons_self
      have goes' := compatible_standIn first
      refine ⟨expected.standIn, standIn_plain first, ?_⟩
      simp [matchArgs, goes, goes']
  | cons arg front ih =>
    cases params with
    | nil => exact ⟨base .int, .int, rfl⟩
    | cons p params =>
      obtain ⟨type, plain, same⟩ := ih (List.forall_mem_cons.mp supported).2
      refine ⟨type, plain, ?_⟩
      simp only [List.cons_append, matchArgs, same]

theorem absorbs_checkCall {d : Decl} (written : d.Written) (r : Reference) (pos : Nat) :
    AbsorbsArgument (checkCall ctx d r pos) := by
  intro front p back
  cases d with
  | method home head =>
    have supported := MethodHead.paramTypes_supported written.2 ctx.bound home
    obtain ⟨type, plain, same⟩ := absorbs_matchArgs head.name supported front p back
    refine ⟨type, plain, ?_⟩
    simp only [checkCall, same, List.length_append, List.length_cons]
  | cls | field | param | var => exact ⟨base .int, .int, rfl⟩

end Typing

end JamCompiler
