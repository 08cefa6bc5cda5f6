import JamCompiler.Proofs.Generating
import JamCompiler.Proofs.Positions.Landmarks
import JamCompiler.Proofs.Positions.Logs

/-!
# Positions of what generation reports

What may be left for generation to report is about a landmark, but for a missing entry, which is
reported at the beginning. So it is enough to know of the code of an expression where a class stands
that cannot be instantiated; what else may keep code from being made does not occur in a program
that has passed all checks.
-/

namespace JamCompiler

open Pass Emission
open Landmark (AllAt)

/-- Where a fault may stand that is left for generation to report: at one of some positions, or at
the beginning if the entry is missing. -/
def Diagnostic.Left (P : Nat → Prop) (d : Diagnostic) : Prop :=
  d.fault.Expected → d.At P ∨ d.fault = .code .noMain ∧ d.pos = 0

theorem Diagnostic.left_of_at {P : Nat → Prop} {pos : Nat} (h : P pos) (severity : Severity)
    (fault : Fault) : Left P ⟨severity, fault, pos⟩ :=
  fun _ => .inl ⟨pos, rfl, h⟩

theorem Diagnostic.left_of_unexpected {P : Nat → Prop} {f : CodeFault} (h : ¬ f.Expected)
    (severity : Severity) (pos : Int) : Left P ⟨severity, .code f, pos⟩ := by
  rintro ⟨_, ⟨⟩, expected⟩
  exact absurd expected h

namespace Emission

/-- If code is missing for a reason that may be left, then at one of some positions. -/
def FailsAt (P : Nat → Prop) {α : Type} (x : Emitted α) : Prop :=
  ∀ fault pos, x = .error (.fault fault pos) → fault.Expected → P pos

section Fails

variable {P : Nat → Prop} {α β : Type} {x : Emitted α} {f : α → Emitted β} {env : Env}

theorem failsAt_ok (a : α) : FailsAt P (.ok a) := by
  rintro fault pos ⟨⟩

theorem failsAt_missing : FailsAt P (.error .missingArgument : Emitted α) := by
  rintro fault pos ⟨⟩

theorem failsAt_of_at {pos : Nat} (h : P pos) (fault : CodeFault) :
    FailsAt P (.error (.fault fault pos) : Emitted α) := by
  rintro _ _ ⟨⟩ _
  exact h

theorem failsAt_unexpected {fault : CodeFault} (h : ¬ fault.Expected) (pos : Nat) :
    FailsAt P (.error (.fault fault pos) : Emitted α) := by
  rintro _ _ ⟨⟩ expected
  exact absurd expected h

theorem FailsAt.bind (first : FailsAt P x) (next : ∀ a, FailsAt P (f a)) : FailsAt P (x >>= f) := by
  cases x with
  | ok a => exact next a
  | error failure =>
    rintro fault pos ⟨⟩ expected
    exact first fault pos rfl expected

theorem failsAt_locationOf (d : Decl) : FailsAt P (locationOf env d) := by
  unfold locationOf
  dsimp only
  split
  · exact failsAt_ok _
  · exact failsAt_unexpected id _

theorem failsAt_valueDecl (site : Site) (pos : Nat) : FailsAt P (valueDecl env site pos) := by
  unfold valueDecl
  split
  · exact failsAt_unexpected id _
  · exact failsAt_unexpected id _
  · exact failsAt_unexpected id _
  · split
    · exact failsAt_unexpected id _
    · exact failsAt_ok _

/-- The code of a reference is never missing for a reason that may be left. -/
theorem failsAt_emitRef (site : Site) (r : Reference) : FailsAt P (emitRef env site r) := by
  induction r generalizing site with
  | this pos => exact failsAt_ok _
  | unknown kind pos => exact failsAt_unexpected id _
  | ident name pos =>
    refine (failsAt_valueDecl _ _).bind fun d => (failsAt_locationOf d).bind fun l => ?_
    cases l with
    | static | frame | object => exact failsAt_ok _
    | code => exact failsAt_unexpected id _
  | qualified qualifier name pos ih =>
    refine (failsAt_valueDecl _ _).bind fun d => ?_
    split
    · exact (ih _).bind fun _ => failsAt_ok _
    · refine (failsAt_locationOf d).bind fun l => ?_
      cases l with
      | static | frame => exact failsAt_ok _
      | object => exact (ih _).bind fun _ => failsAt_ok _
      | code => exact failsAt_unexpected id _

theorem failsAt_targetDecl (site : Site) (r : Reference) : FailsAt P (targetDecl env site r) := by
  unfold targetDecl
  dsimp only
  split
  · exact failsAt_unexpected id _
  · exact failsAt_unexpected id _
  · exact failsAt_unexpected id _
  · exact failsAt_unexpected id _
  · split
    · exact failsAt_unexpected id _
    · exact failsAt_ok _

theorem failsAt_emitStore (base : Nat) (site : Site) (r : Reference) {value : Nat → Emitted Code}
    (h : ∀ base, FailsAt P (value base)) : FailsAt P (emitStore env base site r value) := by
  refine (failsAt_targetDecl _ _).bind fun d => (failsAt_locationOf d).bind fun l => ?_
  split
  · exact (failsAt_emitRef _ _).bind fun _ => (h _).bind fun _ => failsAt_ok _
  · exact (h _).bind fun _ => failsAt_ok _
  · exact (h _).bind fun _ => failsAt_ok _
  · exact (h _).bind fun _ => failsAt_ok _
  · exact failsAt_unexpected id _

theorem failsAt_callee (target : Site) (pos : Nat) : FailsAt P (callee env target pos) := by
  unfold callee
  split
  · exact failsAt_ok _
  · exact failsAt_unexpected id _

theorem failsAt_emitInvocation (target : Site) (r : Reference) (method : Home × MethodHead)
    (given : Nat) (args : Code) : FailsAt P (emitInvocation env target r method given args) := by
  unfold emitInvocation
  dsimp only
  split
  · split
    · exact failsAt_missing
    · exact failsAt_ok _
  · split
    · exact failsAt_ok _
    · split
      · exact (failsAt_emitRef _ _).bind fun _ => failsAt_ok _
      · exact (failsAt_ok _).bind fun _ => failsAt_ok _

theorem failsAt_emitNew (site : Site) (type : TypeExpr) {pos : Nat} (h : P pos) :
    FailsAt P (emitNew env site type pos) := by
  unfold emitNew
  dsimp only
  split
  · exact failsAt_ok _
  · exact failsAt_of_at h _

mutual

theorem failsAt_emitExpr (base : Nat) (site : Site) (e : Expr) (h : AllAt P e.landmarks) :
    FailsAt P (emitExpr env base site e) := by
  match e with
  | .int .. | .bool .. | .null .. => exact failsAt_ok _
  | .unary op operand pos =>
    have inside : AllAt P operand.landmarks := h.tail
    unfold emitExpr
    split
    · exact failsAt_unexpected id _
    · exact (failsAt_emitExpr _ _ operand inside).bind fun _ => failsAt_ok _
  | .binary op left right pos =>
    obtain ⟨-, inLeft, inRight⟩ := h.parts
    unfold emitExpr
    split
    · exact failsAt_unexpected id _
    · refine (failsAt_emitExpr _ _ left inLeft).bind fun _ => ?_
      split
      · exact (failsAt_emitExpr _ _ right inRight).bind fun _ => failsAt_ok _
      · exact (failsAt_emitExpr _ _ right inRight).bind fun _ => failsAt_ok _
  | .ref r pos => exact failsAt_emitRef _ _
  | .index r i pos =>
    obtain ⟨-, -, inIndex⟩ := h.parts
    exact (failsAt_emitRef _ _).bind fun _ =>
      (failsAt_emitExpr _ _ i inIndex).bind fun _ => failsAt_ok _
  | .call method args pos =>
    obtain ⟨-, -, inArgs⟩ := h.parts
    exact (failsAt_callee _ _).bind fun _ => (failsAt_emitArgs _ _ _ _ args inArgs).bind fun _ =>
      failsAt_emitInvocation _ _ _ _ _
  | .newObject type pos => exact failsAt_emitNew _ _ (h _ List.mem_cons_self)
  | .newArray element size pos =>
    obtain ⟨-, -, inSize⟩ := h.parts
    exact (failsAt_emitExpr _ _ size inSize).bind fun _ => failsAt_ok _
  | .unknown kind pos => exact failsAt_unexpected id _

theorem failsAt_emitArgs (base : Nat) (call : Site) (k taken : Nat) (args : List Expr)
    (h : AllAt P (Expr.argLandmarks args)) : FailsAt P (emitArgs env base call k taken args) := by
  match args, taken with
  | [], _ => exact failsAt_ok _
  | e :: rest, 0 => exact failsAt_ok _
  | e :: rest, taken + 1 =>
    obtain ⟨here, later⟩ := List.forall_mem_append.mp h
    exact (failsAt_emitExpr _ _ e here).bind fun _ =>
      (failsAt_emitArgs _ _ _ _ rest later).bind fun _ => failsAt_ok _

end

theorem failsAt_emitCallStmt (base : Nat) (site : Site) (r : Reference) (args : List Expr)
    (pos : Nat) (h : AllAt P (Expr.argLandmarks args)) :
    FailsAt P (emitCallStmt env base site r args pos) := by
  refine (failsAt_callee _ _).bind fun method => (failsAt_emitArgs _ _ _ _ args h).bind fun _ => ?_
  refine (failsAt_emitInvocation _ _ _ _ _).bind fun _ => ?_
  split
  · exact failsAt_ok _
  · exact failsAt_ok _

theorem failsAt_emitElementStore (base : Nat) (site : Site) (target : Reference)
    (index value : Expr) (inIndex : AllAt P index.landmarks) (inValue : AllAt P value.landmarks) :
    FailsAt P (emitElementStore env base site target index value) :=
  (failsAt_emitRef _ _).bind fun _ => (failsAt_emitExpr _ _ index inIndex).bind fun _ =>
    (failsAt_emitExpr _ _ value inValue).bind fun _ => failsAt_ok _

end Fails

/-- Whatever is left to report in a step of emission stands at one of some positions. -/
abbrev Leaves {α : Type} (P : Nat → Prop) (x : Emitting α) : Prop :=
  Logs (Diagnostic.Left P) (fun _ => True) x fun _ _ => True

section Statements

variable {P : Nat → Prop} {α β : Type}

theorem leaves_pure (a : α) : Leaves P (pure a : Emitting α) := .pure fun _ => id

theorem leaves_place (site : Site) (l : Location) (name : String) (pos : Nat) :
    Leaves P (place site l name pos) := by
  refine Logs.getOwn.bind fun p => ?_
  split
  · exact .fatal (Diagnostic.left_of_unexpected id _ _)
  · exact .modifyOwn fun _ _ => trivial

theorem leaves_emitted {bound : Site → Option Decl} {code : Env → Emitted α}
    (h : ∀ env, FailsAt P (code env)) : Leaves P (emitted bound code) := by
  refine Logs.getOwn.bind fun p => ?_
  split
  · exact .pure fun _ _ => trivial
  · rename_i fault pos made
    refine .fatal ?_
    rintro ⟨_, ⟨⟩, expected⟩
    exact .inl ⟨pos, rfl, h _ _ _ made expected⟩
  · exact .missing

/-- A step after which nothing is done but to put its code in its place. -/
theorem leaves_one {x : Emitting α} {f : α → β} (h : Leaves P x) :
    Leaves P (x >>= fun a => pure (f a)) :=
  h.bind fun _ => leaves_pure _

mutual

theorem leaves_emitStmt (ctx : Context) (base slot : Nat) (site : Site) (s : Stmt)
    (h : AllAt P s.landmarks) : Leaves P (emitStmt ctx base slot site s) := by
  match s with
  | .block stmts pos =>
    have inside : AllAt P (Stmt.allLandmarks stmts) := h.tail
    exact leaves_one (leaves_emitStmts ctx base slot site 0 stmts inside)
  | .declare var init pos =>
    obtain ⟨-, -, inInit⟩ := h.tail.parts
    exact (leaves_place _ _ _ _).bind fun _ =>
      leaves_one (leaves_emitted fun _ => failsAt_emitExpr _ _ init inInit)
  | .assign target value pos =>
    obtain ⟨-, -, inValue⟩ := h.parts
    exact leaves_one (leaves_emitted fun _ =>
      failsAt_emitStore _ _ _ fun _ => failsAt_emitExpr _ _ value inValue)
  | .assignIndex target index value pos =>
    obtain ⟨-, -, inIndex, inValue⟩ := h.threeParts
    exact leaves_one (leaves_emitted fun _ => failsAt_emitElementStore _ _ _ _ _ inIndex inValue)
  | .call method args pos =>
    obtain ⟨-, -, inArgs⟩ := h.parts
    exact leaves_one (leaves_emitted fun _ => failsAt_emitCallStmt _ _ _ _ _ inArgs)
  | .ret none pos => exact leaves_pure _
  | .ret (some value) pos =>
    have inside : AllAt P value.landmarks := h.tail
    exact leaves_one (leaves_emitted fun _ => failsAt_emitExpr _ _ value inside)
  | .ifThen cond body pos =>
    obtain ⟨-, inCond, inBody⟩ := h.parts
    exact (leaves_emitted fun _ => failsAt_emitExpr _ _ cond inCond).bind fun _ =>
      leaves_one (leaves_emitStmt ctx _ _ _ body inBody)
  | .ifElse cond body other pos =>
    obtain ⟨-, inCond, inBody, inOther⟩ := h.threeParts
    exact (leaves_emitted fun _ => failsAt_emitExpr _ _ cond inCond).bind fun _ =>
      (leaves_emitStmt ctx _ _ _ body inBody).bind fun _ =>
        leaves_one (leaves_emitStmt ctx _ _ _ other inOther)
  | .loop cond body pos =>
    obtain ⟨-, inCond, inBody⟩ := h.parts
    exact (leaves_emitStmt ctx _ _ _ body inBody).bind fun _ =>
      leaves_one (leaves_emitted fun _ => failsAt_emitExpr _ _ cond inCond)
  | .unknown kind pos => exact .fatal (Diagnostic.left_of_unexpected id _ _)

theorem leaves_emitStmts (ctx : Context) (base slot : Nat) (block : Site) (k : Nat)
    (stmts : List Stmt) (h : AllAt P (Stmt.allLandmarks stmts)) :
    Leaves P (emitStmts ctx base slot block k stmts) := by
  match stmts with
  | [] => exact leaves_pure _
  | s :: rest =>
    obtain ⟨here, later⟩ := List.forall_mem_append.mp h
    exact (leaves_emitStmt ctx _ _ _ s here).bind fun _ =>
      leaves_one (leaves_emitStmts ctx _ _ _ _ rest later)

end

theorem leaves_emitBody (ctx : Context) (base slot : Nat) (method : Site) (k : Nat)
    (stmts : List Stmt) (h : AllAt P (Stmt.allLandmarks stmts)) :
    Leaves P (emitBody ctx base slot method k stmts) := by
  induction stmts generalizing base slot k with
  | nil => exact leaves_pure _
  | cons s rest ih =>
    obtain ⟨here, later⟩ := List.forall_mem_append.mp h
    exact (leaves_emitStmt ctx _ _ _ s here).bind fun _ => leaves_one (ih _ _ _ later)

theorem leaves_placeParams (method : Site) (arity k : Nat) (params : List ParamDecl) :
    Leaves P (placeParams method arity k params) := by
  induction params generalizing k with
  | nil => exact leaves_pure _
  | cons p rest ih => exact (leaves_place _ _ _ _).bind fun _ => ih _

theorem leaves_emitMethods (bound : Site → Option Decl) (base : Nat)
    (methods : List (Site × MethodDecl)) (h : ∀ m ∈ methods, AllAt P (Stmt.allLandmarks m.2.body)) :
    Leaves P (emitMethods bound base methods) := by
  induction methods generalizing base with
  | nil => exact leaves_pure _
  | cons m rest ih =>
    obtain ⟨here, later⟩ := List.forall_mem_cons.mp h
    refine Logs.bind (J := fun _ _ => True) ?_ fun _ => leaves_one (ih _ later)
    exact (leaves_placeParams _ _ _ _).bind fun _ => (leaves_place _ _ _ _).bind fun _ =>
      leaves_emitBody _ _ _ _ _ _ here

end Statements

end Emission

section Returns

variable {P : Nat → Prop}

theorem Stmt.landmarks_subset {s : Stmt} {stmts : List Stmt} (h : s ∈ stmts) :
    s.landmarks ⊆ Stmt.allLandmarks stmts := by
  induction stmts with
  | nil => cases h
  | cons s' rest ih =>
    rcases List.mem_cons.mp h with rfl | later
    · exact List.subset_append_left _ _
    · exact List.subset_append_of_subset_right _ (ih later)

/-- A return that is added stands at the last statement or at the method's name, and so does the
fault if none may be added. -/
theorem MethodDecl.allAt_returning {m : MethodDecl} (h : AllAt P m.landmarks) :
    (∀ m', m.returning = .ok m' → AllAt P (Stmt.allLandmarks m'.body)) ∧
      ∀ fault, m.returning = .error fault → P fault.2 := by
  have body := m.allAt_body h
  unfold returning
  cases found : m.body.getLast? with
  | none =>
    refine ⟨?_, by rintro _ ⟨⟩⟩
    rintro _ ⟨⟩
    have here : P m.head.pos := h (.declared m.head.name m.head.pos) List.mem_cons_self
    exact List.forall_mem_singleton.mpr here
  | some last =>
    have inside : last ∈ m.body := List.mem_of_getLast? found
    have lastAt : P last.pos := body _ (Stmt.landmarks_subset inside last.mem_landmarks)
    dsimp only
    split
    · refine ⟨?_, by rintro _ ⟨⟩⟩
      rintro _ ⟨⟩
      exact body
    · split
      · refine ⟨?_, by rintro _ ⟨⟩⟩
        rintro _ ⟨⟩
        rw [Stmt.allLandmarks_append]
        exact List.forall_mem_append.mpr ⟨body, List.forall_mem_singleton.mpr lastAt⟩
      · refine ⟨by rintro _ ⟨⟩, ?_⟩
        rintro _ ⟨⟩
        exact lastAt

theorem pos_of_returningMethods {methods : List MethodDecl}
    (h : ∀ m ∈ methods, AllAt P m.landmarks) :
    ∀ fault ∈ (returningMethods methods).2, P fault.2 := by
  induction methods with
  | nil => rintro _ ⟨⟩
  | cons m rest ih =>
    obtain ⟨here, later⟩ := List.forall_mem_cons.mp h
    unfold returningMethods
    cases made : m.returning with
    | error fault =>
      rintro _ ⟨⟩
      exact (m.allAt_returning here).2 _ made
    | ok m' => exact ih later

theorem pos_of_returningClasses {classes : List ClassDecl}
    (h : ∀ c ∈ classes, AllAt P c.landmarks) :
    ∀ fault ∈ (returningClasses classes).2, P fault.2 := by
  induction classes with
  | nil => rintro _ ⟨⟩
  | cons c rest ih =>
    obtain ⟨here, later⟩ := List.forall_mem_cons.mp h
    have inMethods := pos_of_returningMethods fun m hm => c.allAt_method here hm
    unfold returningClasses
    cases made : returningMethods c.methods with
    | mk methods fault =>
      rw [made] at inMethods
      cases fault with
      | some fault => exact inMethods
      | none => exact ih later

/-- What keeps a program from having an entry is that it has none, or it is at a landmark. -/
theorem Program.pos_of_entry {p : Program} (h : AllAt P p.landmarks) {fault : CodeFault × Nat}
    (entry : p.entry? = .error fault) : P fault.2 ∨ fault = (.noMain, 0) := by
  have mains : ∀ main ∈ p.mains, P main.2.pos ∧ ∀ prm ∈ main.2.params, P prm.pos := by
    intro main hm
    obtain ⟨⟨site, m⟩, member, named⟩ := List.mem_filterMap.mp hm
    obtain ⟨here, -, inParams, -⟩ := (p.allAt_method h member).threeParts
    dsimp only at named
    split at named
    · cases named
      exact ⟨here,
        fun prm hprm => List.forall_mem_flatMap.mp inParams prm hprm _ List.mem_cons_self⟩
    · cases named
  unfold entry? at entry
  split at entry
  · cases entry
    exact .inr rfl
  · rename_i same
    cases entry
    exact .inl (mains _ (same ▸ List.mem_cons_of_mem _ List.mem_cons_self)).1
  · rename_i main same
    obtain ⟨here, inParams⟩ := mains main (same ▸ List.mem_cons_self)
    split at entry
    · rename_i found
      cases entry
      refine .inl ?_
      unfold MethodHead.entryFault? at found
      split at found
      · cases found
        exact here
      · split at found
        · cases found
          exact here
        · split at found
          · cases found
            exact here
          · split at found
            · rename_i prm only
              split at found
              · cases found
              · cases found
                exact inParams prm (only ▸ List.mem_cons_self)
            · cases found
              exact here
    · cases entry

end Returns

namespace Generation

section Steps

variable {P : Nat → Prop} {I : State → Prop}

theorem logs_placing {α : Type} {step : Emitting α} (h : Leaves P step)
    (kept : ∀ s p, I s → I { s with placing := p }) :
    Logs (Diagnostic.Left P) I (placing step) fun _ => I :=
  placing_eq step ▸ h.within kept

theorem leaves_placeFields (cls : Site) (k statics instances : Nat) (fields : List FieldDecl) :
    Leaves P (placeFields cls k statics instances fields) := by
  induction fields generalizing k statics instances with
  | nil => exact leaves_pure _
  | cons f rest ih =>
    unfold placeFields
    split
    · exact (leaves_place _ _ _ _).bind fun _ => ih _ _ _
    · exact (leaves_place _ _ _ _).bind fun _ => ih _ _ _

theorem leaves_placeClasses (number statics : Nat) (classes : List ClassDecl) :
    Leaves P (placeClasses number statics classes) := by
  induction classes generalizing number statics with
  | nil => exact leaves_pure _
  | cons c rest ih =>
    refine Logs.bind (leaves_placeFields _ _ _ _ _) fun _ => ?_
    exact Logs.bind (J := fun _ _ => True) (.modifyOwn fun _ => id) fun _ => ih _ _

theorem logs_addressOf (method : Decl) :
    Logs (Diagnostic.Left P) (fun _ => True) (addressOf method) fun _ _ => True := by
  refine Logs.getOwn.bind fun s => ?_
  dsimp only
  split
  · exact .pure fun _ _ => trivial
  · exact .fatal (Diagnostic.left_of_unexpected id _ _)

theorem logs_link (code : Code) :
    Logs (Diagnostic.Left P) (fun _ => True) (link code) fun _ _ => True := by
  induction code with
  | nil => exact .pure fun _ => id
  | cons item rest ih =>
    cases item with
    | instr i => exact ih.bind fun _ => .pure fun _ => id
    | call receiver method =>
      exact (logs_addressOf _).bind fun _ => ih.bind fun _ => .pure fun _ => id

theorem logs_addReturns {p : Program} (h : AllAt P p.landmarks) :
    Logs (Diagnostic.Left P) (fun s => s.program = p) addReturns fun _ s =>
      returningClasses p.classes = (s.program.classes, none) := by
  have faultAt := pos_of_returningClasses fun c hc => List.forall_mem_flatMap.mp h c hc
  refine Logs.getOwn.bind fun s => .fix ?_
  rintro _ ⟨rfl, rfl⟩
  have stored : Logs (Diagnostic.Left P) (s = ·)
      (modifyOwn fun s' =>
        { s' with program := { s.program with classes := (returningClasses s.program.classes).1 } })
      fun _ s' =>
        s'.program.classes = (returningClasses s.program.classes).1 := .modifyOwn fun _ _ => rfl
  refine stored.bind fun _ => ?_
  cases made : returningClasses s.program.classes with
  | mk classes fault =>
    rw [made] at faultAt
    cases fault with
    | some fault => exact .fatal (Diagnostic.left_of_at (faultAt fault rfl) _ _)
    | none =>
      refine .pure fun s' same => ?_
      rw [same]

/-- What generation leaves to be reported stands at a landmark of the program, or nothing is there
to begin with. -/
theorem logs_generate (bound : Site → Option Decl) {p : Program} (h : AllAt P p.landmarks) :
    Logs (Diagnostic.Left P) (fun s => s.program = p) (generate bound) fun _ _ => True := by
  refine Logs.getOwn.bind fun s => .fix ?_
  rintro _ ⟨rfl, rfl⟩
  refine Logs.imp (I := fun s' => s'.program = s.program) ?_ (by rintro _ rfl; rfl) fun _ _ => id
  refine (logs_placing (leaves_placeClasses _ _ _) fun _ _ => id).bind fun size => ?_
  cases entry : s.program.entry? with
  | error fault =>
    refine .fatal ?_
    obtain here | rfl := s.program.pos_of_entry h entry
    · exact Diagnostic.left_of_at here _ _
    · exact fun _ => .inr ⟨rfl, rfl⟩
  | ok main =>
    refine (logs_addReturns h).bind fun _ => Logs.getOwn.bind fun s' => .fix ?_
    rintro _ ⟨rfl, returning⟩
    have bodies : ∀ m ∈ s'.program.sitedMethods, AllAt P (Stmt.allLandmarks m.2.body) := by
      intro m' hm'
      obtain ⟨m, hm, -, made⟩ := exists_of_forall₂ (forall₂_sitedMethods returning).flip hm'
      exact (m.2.allAt_returning (s.program.allAt_method h hm)).1 _ made
    refine Logs.imp (I := fun _ => True) ?_ (fun _ _ => trivial) fun _ _ => id
    refine (logs_placing (leaves_emitMethods _ _ _ bodies) fun _ _ => id).bind fun _ => ?_
    exact (logs_addressOf _).bind fun _ => (logs_link _).bind fun _ => .pure fun _ => id

end Steps

end Generation

end JamCompiler
