import JamCompiler.Proofs.Execution.Simulation
import JamCompiler.Proofs.Execution.Variables

/-!
# Compiled methods do what they say

A method that calls no other and is about numbers and truth values is run as it is read: from every
state in which it is entered, its code comes to a return with a result and with some contents of the
fields exactly if the evaluation of its body comes to the same. In particular the code runs for
ever, or gets stuck, exactly if the body has no outcome.
-/

namespace JamCompiler

open Machine Emission
open Generation (FieldsPlaced)

section Returns

variable {bound : Site → Option Decl} {sites : Nat → Site} {k : Nat} {stmts : List Stmt} {σ : Store}
variable {o : Outcome}

theorem Stmt.allScalar_append_ret {pos : Nat} (h : Stmt.allScalar bound sites k stmts) :
    Stmt.allScalar bound sites k (stmts ++ [.ret none pos]) := by
  induction stmts generalizing k with
  | nil => rfl
  | cons s rest ih =>
    obtain ⟨first, later⟩ := Bool.and_eq_true_iff.mp h
    exact Bool.and_eq_true_iff.mpr ⟨first, ih later⟩

/-- After statements with a return at the end nothing is carried out. -/
theorem returned_of_last {last : Stmt} (isReturn : last.isReturn)
    (h : Yields bound (.stmts sites k (stmts ++ [last])) σ o) : ∃ v σ', o = .returned v σ' := by
  induction stmts generalizing k σ with
  | nil =>
    cases h with
    | consReturned first => exact ⟨_, _, rfl⟩
    | cons first more =>
      cases last with
      | ret value pos => cases value <;> cases first
      | block | declare | assign | assignIndex | call | ifThen | ifElse | loop | unknown =>
        cases isReturn
  | cons s rest ih =>
    cases h with
    | consReturned first => exact ⟨_, _, rfl⟩
    | cons first more => exact ih more

/-- A return that is added at the end returns nothing. -/
theorem yields_append_ret {pos : Nat} {v : Option Value} {σ' : Store} :
    Yields bound (.stmts sites k (stmts ++ [.ret none pos])) σ (.returned v σ') ↔
      Yields bound (.stmts sites k stmts) σ (.returned v σ') ∨
        v = none ∧ Yields bound (.stmts sites k stmts) σ (.done σ') := by
  induction stmts generalizing k σ with
  | nil =>
    constructor
    · intro h
      cases h with
      | consReturned first =>
        cases first
        exact .inr ⟨rfl, .nil⟩
      | cons first more => cases first
    · rintro (h | ⟨rfl, h⟩)
      · cases h
      · cases h
        exact .consReturned .ret
  | cons s rest ih =>
    constructor
    · intro h
      cases h with
      | consReturned first => exact .inl (.consReturned first)
      | cons first more =>
        rcases ih.mp more with returned | ⟨rfl, done⟩
        · exact .inl (.cons first returned)
        · exact .inr ⟨rfl, .cons first done⟩
    · rintro (h | ⟨rfl, h⟩)
      · cases h with
        | consReturned first => exact .consReturned first
        | cons first more => exact .cons first (ih.mpr (.inl more))
      · cases h with
        | cons first more => exact .cons first (ih.mpr (.inr ⟨rfl, more⟩))

namespace MethodDecl

variable {site : Site} {m m' : MethodDecl} {v : Option Value} {σ' : Store}

theorem scalar_of_returning (h : m.returning = .ok m') (scalar : m.isScalar bound site) :
    m'.isScalar bound site := by
  unfold isScalar at scalar ⊢
  rcases body_of_returning h with ⟨same, -⟩ | ⟨⟨pos, body⟩, -⟩
  · rw [same]
    exact scalar
  · rw [body]
    exact Stmt.allScalar_append_ret scalar

/-- With its returns, a body comes to what the method does, and to nothing else. -/
theorem yields_of_returning (h : m.returning = .ok m') : m.Yields bound site σ v σ' ↔
    JamCompiler.Yields bound (.stmts site.body 0 m'.body) σ (.returned v σ') := by
  rcases body_of_returning h with ⟨same, front, last, body, isReturn⟩ | ⟨⟨pos, body⟩, -⟩
  · rw [MethodDecl.Yields, same, or_iff_left]
    rintro ⟨-, done⟩
    rw [body] at done
    obtain ⟨_, _, contra⟩ := returned_of_last isReturn done
    cases contra
  · rw [body, yields_append_ret]
    rfl

end MethodDecl

end Returns

/-- What the variables hold in a state. -/
def Compilation.storeAt (c : Compilation) (s : State) : Store :=
  fun d => (d.type c.bindings.get?).read ((s.wordOf? c.env d).getD 0)

/-- Whether a method of the class with a number is entered in a state: it has its arguments and the
linkage on the stack, and its boolean variables hold words of truth values. -/
structure Compilation.Enters (c : Compilation) (p : Program) (k : Nat)
    (site : Site) (m : MethodDecl)
    (s : State) : Prop where
  pc : c.locations.get? site = some (.code s.pc)
  linkage : s.stack.length = s.lb + linkageSize
  arguments : m.head.params.length ≤ s.lb
  booleans : ∀ d, Visible (p.HasField k) (m.scope site) d →
    d.type c.bindings.get? = .base .boolean →
    ∀ w, s.wordOf? c.env d = some w → w = 0 ∨ w = 1

/-- What is in force when a method is entered can be gone through. -/
theorem Compilation.enters_iff {c : Compilation} {p : Program} {k : Nat} {site : Site}
    {m : MethodDecl} {s : State} : c.Enters p k site m s ↔
      (c.locations.get? site = some (.code s.pc) ∧ s.stack.length = s.lb + linkageSize ∧
        m.head.params.length ≤ s.lb) ∧
      ∀ d ∈ (m.scope site).map Prod.snd ++ p.fieldsInForce k,
        d.type c.bindings.get? = .base .boolean → ∀ w ∈ s.wordOf? c.env d, w = 0 ∨ w = 1 := by
  have seen (d : Decl) : Visible (p.HasField k) (m.scope site) d ↔
      d ∈ (m.scope site).map Prod.snd ++ p.fieldsInForce k := by
    rw [List.mem_append, List.mem_map, Program.mem_fieldsInForce]
    rfl
  constructor
  · exact fun h => ⟨⟨h.pc, h.linkage, h.arguments⟩, fun d hd => h.booleans d ((seen d).mpr hd)⟩
  · rintro ⟨⟨pc, linkage, arguments⟩, booleans⟩
    exact ⟨pc, linkage, arguments, fun d hd => booleans d ((seen d).mp hd)⟩

instance Compilation.Enters.decidable (c : Compilation) (p : Program) (k : Nat) (site : Site)
    (m : MethodDecl) (s : State) : Decidable (c.Enters p k site m s) :=
  decidable_of_iff _ enters_iff.symm

theorem ValueType.word_read {type : ValueType} {w : Int}
    (boolean : type = .base .boolean → w = 0 ∨ w = 1) : (type.read w).word = w := by
  unfold read
  split
  · rfl
  · rcases boolean rfl with rfl | rfl <;> rfl
  · rfl

theorem ValueType.ofType_read (type : ValueType) (w : Int) : (type.read w).OfType type := by
  intro k same
  subst same
  cases k <;> trivial

section Enters

variable {p : Program} {c : Compilation} {o : ObjectCode} {k : Nat}
  {site : Site} {m m' : MethodDecl}
variable {s : State}

/-- Everything in force has a word when a method is entered. -/
theorem Compilation.Enters.wordAt (h : c.Enters p k site m s)
    (fields : FieldsPlaced 0 0 p.classes ⟨c.locations, c.layouts⟩)
    (params : ∀ (i : Nat) (prm : ParamDecl), m.head.params[i]? = some prm →
      locationOf c.env (.param (site.param i) prm) = .ok (.frame (i - m.head.params.length)))
    {d : Decl} (hd : Visible (p.HasField k) (m.scope site) d) :
    ∃ l w, locationOf c.env d = .ok l ∧ l.Fits d ∧ s.wordAt? l = some w := by
  rcases visible_scope hd with ⟨i, prm, found, rfl⟩ | field
  · have short := (List.getElem?_eq_some_iff.mp found).1
    have linkage := h.linkage
    have arguments := h.arguments
    have within : ((s.lb : Int) + (i - m.head.params.length)).toNat < s.stack.length := by omega
    obtain ⟨w, word⟩ := exists_word within
    refine ⟨_, w, params i prm found, nofun, ?_⟩
    exact State.wordAt?_frame_eq_some_iff.mpr ⟨by omega, word⟩
  · obtain ⟨l, located, fits, notFrame⟩ := field.placed fields
    cases l with
    | frame n => exact absurd rfl (notFrame n)
    | code => cases fits
    | static | object => exact ⟨_, _, located, fits, rfl⟩

theorem Compilation.Enters.standing (h : c.Enters p k site m s)
    (fields : FieldsPlaced 0 0 p.classes ⟨c.locations, c.layouts⟩)
    (params : ∀ (i : Nat) (prm : ParamDecl), m.head.params[i]? = some prm →
      locationOf c.env (.param (site.param i) prm) = .ok (.frame (i - m.head.params.length))) :
    Standing c.env (Visible (p.HasField k) (m.scope site)) m.head.params.length linkageSize
      (c.storeAt s) s s.pc where
  pc := rfl
  height := h.linkage
  below := h.arguments
  holds d hd := by
    obtain ⟨l, w, located, fits, word⟩ := h.wordAt fields params hd
    have known : s.wordOf? c.env d = some w := (wordOf_eq located).trans word
    refine ⟨l, located, fits, ?_, ?_⟩
    · rw [word, Compilation.storeAt, known, Option.getD_some,
        ValueType.word_read fun boolean => h.booleans d hd boolean w known]
    · exact ValueType.ofType_read _ _
  frames := frames_of_placed fields params

end Enters

theorem MethodCode.installed {c : Compilation} {o : ObjectCode} {site : Site} {m m' : MethodDecl}
    {t : Tree} {start : Nat} (h : MethodCode c o site m m' t start) :
    Installed o.code start (t.code start) := by
  intro j i hj
  obtain ⟨i', found, linked⟩ := h.linked j _ hj
  cases linked
  exact found

/-- In a text that compiles, a method that is about numbers and truth values returns a result and
leaves some contents in the fields exactly if its body, as it is read, comes to them. -/
theorem returns_as_read {text : List Char} {failFast : Bool} {r : CompileResult}
    (compiled : compile text failFast = .ok r) (ok : r.status = .success) :
    ∃ p c o, Program.ofText? text = .ok p ∧ r.compilation = some c ∧ r.object = some o ∧
      ∀ (k : Nat) (cls : ClassDecl), p.classes[k]? = some cls →
      ∀ s ∈ cls.sitedMethods (.classAt k), s.2.isScalar c.bindings.get? s.1 →
      ∀ start, c.Enters p k s.1 s.2 start → ∀ (v : Option Int) (contents : Decl → Int),
        (∃ t, RunsTo o.code start t ∧ t.returned? o.code = some v ∧
          ∀ d, p.HasField k d → t.wordOf? c.env d = some (contents d)) ↔
        ∃ w σ, s.2.Yields c.bindings.get? s.1 (c.storeAt start) w σ ∧ w.map Value.word = v ∧
          ∀ d, p.HasField k d → (σ d).word = contents d := by
  obtain ⟨p, c, o, parsed, compilation, object, accepted, fields, methods⟩ :=
    placed_of_compile compiled ok
  refine ⟨p, c, o, parsed, compilation, object, ?_⟩
  rintro k cls hk ⟨site, m⟩ hc scalar start enters v contents
  have hm : (site, m) ∈ p.sitedMethods := Program.mem_sitedMethods.mpr ⟨k, cls, hk, hc⟩
  obtain ⟨m', t, a, code⟩ := accepted.methodCode hm
  obtain ⟨main, items, generated⟩ := accepted.generated
  obtain ⟨m'', hm'', again⟩ := generated.returned hm
  cases code.returning.symm.trans again
  have placed := methods _ hm''
  have head := MethodDecl.head_of_returning code.returning
  obtain ⟨typedHead, -, -, typed⟩ :=
    MethodDecl.wellTyped_of_returning (accepted.typed _ hm) code.returning
  have uses : ∀ u ∈ m'.bodyUses (cls.ref (.classAt k)) site, u.Done p k c.env.bound := by
    rw [MethodDecl.uses_of_returning code.returning]
    intro u hu
    have inClass := ClassDecl.bodyUses_subset hc hu
    exact ⟨accepted.resolvable.ok k cls hk u inClass, accepted.settled.bound k cls hk u inClass⟩
  have ready : Stmt.AllReady c.env (p.HasField k) (m'.scope site) linkageSize site.body 0 m'.body :=
    Stmt.allReady_of_typed accepted.resolvable.collectable hk rfl m'.body
      (MethodDecl.scalar_of_returning code.returning scalar) typed rfl placed.body uses
  obtain ⟨made, trees, rfl⟩ := map_eq_ok.mp code.tree
  have stands :
      (Part.stmts site.body 0 m'.body).Stands c.env m'.head.params.length o.code linkageSize
      a (a + made.1.size) made.2 := ⟨made.1, trees, code.installed, rfl⟩
  cases code.located.symm.trans enters.pc
  have params (i : Nat) (prm : ParamDecl) (found : m'.head.params[i]? = some prm) :
      locationOf c.env (.param (site.param i) prm) = .ok (.frame (i - m'.head.params.length)) :=
    locationOf_eq rfl (placed.params i prm found)
  have scope : m'.scope site = m.scope site := by
    rw [MethodDecl.scope, head]
    rfl
  rw [head] at params stands
  rw [scope] at ready
  have standing := enters.standing fields params
  rw [returns_iff_yields ready stands standing ?_ v contents]
  · simp only [MethodDecl.yields_of_returning code.returning]
    rfl
  · intro o yields
    obtain ⟨front, last, body, isReturn⟩ := MethodDecl.last_of_returning code.returning
    rw [body] at yields
    exact returned_of_last isReturn yields

/-- A loop with a local of its own, fields with and without `this`, and a static field. -/
def summingText : List Char :=
  ("class A \x7b int n; static int s; int f(int k, boolean b) \x7b int i = 0; " ++
    "while (i < k && b) \x7b int t = this.n + i; n = t; i = i + 1; \x7d " ++
    "if (n > 3) A.s = n; else \x7b A.s = -1; \x7d return n * 2; \x7d \x7d " ++
    "class B \x7b boolean c; public static void main(String[] a) \x7b \x7d \x7d").toList

/-- The first method of the text is entered with 3 and `true`. -/
def summingStart : State where
  pc := 5
  stack := [0, 0, 0, 1, 3]
  lb := 2
  statics _ := 0
  heap _ := 0
  object := 100

/-- What its fields hold in the end. -/
def summingContents (d : Decl) : Int := if d.name = "n" then 3 else -1

theorem summingText_runs : ∃ r, compile summingText false = .ok r ∧ r.status = .success ∧
    ∃ p c o, Program.ofText? summingText = .ok p ∧ r.compilation = some c ∧ r.object = some o ∧
      ∃ cls, p.classes[0]? = some cls ∧ ∃ s ∈ cls.sitedMethods (.classAt 0),
        s.2.isScalar c.bindings.get? s.1 ∧ c.Enters p 0 s.1 s.2 summingStart ∧
        ∃ t, RunsTo o.code summingStart t ∧ t.returned? o.code = some (some 6) ∧
          ∀ d, p.HasField 0 d → t.wordOf? c.env d = some (summingContents d) := by
  obtain ⟨r, compiled, success, p, c, o, parsed, compilation, object, known⟩ :=
    exists_compiled_of_any summingText
      (P := fun p c o => p.classes[0]?.any fun cls =>
        ((cls.sitedMethods (.classAt 0)).any fun s =>
          s.2.isScalar c.bindings.get? s.1 && c.Enters p 0 s.1 s.2 summingStart) &&
        (State.run? o.code 78 summingStart).any fun t => t.returned? o.code = some (some 6) &&
          (p.fieldsInForce 0).all fun d => t.wordOf? c.env d = some (summingContents d))
      (by decide +kernel)
  simp only [Bool.and_eq_true, decide_eq_true_eq, List.any_eq_true, List.all_eq_true,
    Option.any_eq_true] at known
  obtain ⟨cls, hcls, ⟨s, hs, scalar, enters⟩, t, run, returned, contents⟩ := known
  exact ⟨r, compiled, success, p, c, o, parsed, compilation, object, cls, hcls,
    s, hs, scalar, enters, t,
    ⟨78, run⟩, returned, fun d hd => contents d (Program.mem_fieldsInForce.mpr hd)⟩

/-- So its body comes to the result and the contents to which its code is run. -/
theorem summingText_returns : ∃ r, compile summingText false = .ok r ∧ r.status = .success ∧
    ∃ p c, Program.ofText? summingText = .ok p ∧ r.compilation = some c ∧
      ∃ s ∈ p.sitedMethods, ∃ w σ,
        s.2.Yields c.bindings.get? s.1 (c.storeAt summingStart) w σ ∧ w.map Value.word = some 6 ∧
          ∀ d, p.HasField 0 d → (σ d).word = summingContents d := by
  obtain ⟨r, compiled, ok, p, c, o, parsed, compilation, object, cls, hcls, s, hs,
      scalar, enters, runs⟩ :=
    summingText_runs
  obtain ⟨p', c', o', parsed', compilation', object', returns⟩ := returns_as_read compiled ok
  cases parsed.symm.trans parsed'
  cases compilation.symm.trans compilation'
  cases object.symm.trans object'
  refine ⟨r, compiled, ok, p, c, parsed, compilation, s,
    Program.mem_sitedMethods.mpr ⟨0, cls, hcls, hs⟩, ?_⟩
  exact (returns 0 cls hcls s hs scalar summingStart enters (some 6) summingContents).mp runs

end JamCompiler
