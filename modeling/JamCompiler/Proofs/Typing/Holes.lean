import JamCompiler.Proofs.Typing.StandIns

/-!
# Erroneous expressions in a check

A check beside one in which an expression is found to have another type. Since the type of a node is
recorded once and the recorded type is what the check goes on with, a node that has a type before
the check is found to have that one. `Contained` says of a check that comes to an erroneous
expression that it goes on in the same way where the expression is found to have some type that is
no error.
-/

namespace JamCompiler

open Pass

namespace Typing

variable {α β : Type} {x : Typing α} {f : α → Typing β} {g : ValueType → Typing α}
variable {s site : Site} {type : ValueType} {w w' v : Work (SiteMap ValueType)}
variable {ctx : Context} {n : Site × Expr}

/-- The same but for the words of its fault. -/
def SamePlace (d d' : Diagnostic) : Prop := d'.severity = d.severity ∧ d'.pos = d.pos

theorem SamePlace.refl (d : Diagnostic) : SamePlace d d := ⟨rfl, rfl⟩

/-- All sites but one. -/
def elsewhere (s : Site) : Region := fun t => t ≠ s

theorem sub_elsewhere {region : Region} (outside : ¬ region s) : region.Sub (elsewhere s) := by
  rintro t inside rfl
  exact outside inside

/-- The same state, but for a type that a site has before it is checked. -/
structure Seeded (s : Site) (type : ValueType) (w w' : Work (SiteMap ValueType)) : Prop where
  log : w'.log = w.log
  others : ∀ t, t ≠ s → w'.own.get? t = w.own.get? t
  here : w'.own.get? s = some type

theorem seeded_fill (free : w.own.get? s = none) (type : ValueType) :
    Seeded s type w ⟨w.log, w.own.fill s type⟩ where
  log := rfl
  others _ other := SiteMap.get?_fill_of_ne _ _ other
  here := SiteMap.get?_fill_free free type

theorem Seeded.beside (h : Seeded s type w w') (alike : Diagnostic → Diagnostic → Prop) :
    Beside (elsewhere s) alike w.log.errors w w' where
  failFast := by rw [h.log]
  notes := by rw [h.log]
  errors := ⟨[], [], (List.append_nil _).symm, by rw [h.log, List.append_nil], .nil⟩
  types t ht := h.others t ht

theorem Beside.same_log {region : Region} {front : List Diagnostic}
    (h : Beside region Eq front w w') : w'.log = w.log := by
  obtain ⟨more, more', errors, errors', all⟩ := h.errors
  obtain rfl := List.forall₂_eq_eq_eq ▸ all
  have notes := h.notes
  have failFast := h.failFast
  obtain ⟨⟨mode, old, said⟩, own⟩ := w
  obtain ⟨⟨mode', old', said'⟩, own'⟩ := w'
  simp only at errors errors' notes failFast
  rw [errors, errors', notes, failFast]

/-- A local step does the same on a seeded state. -/
theorem Local.run_seeded (h : Local (elsewhere s) x) (seeded : Seeded s type w w') {a : α}
    (run : EStateM.run x w = .ok a v) : ∃ v', EStateM.run x w' = .ok a v' ∧ Seeded s type v v' := by
  have beside := seeded.beside Eq
  have related := h.related (fun _ => rfl) beside
  have kept := h.frame (t := s) (fun inside => inside rfl) w'
  rw [run] at related
  cases run' : EStateM.run x w' with
  | ok a' v' =>
    rw [run'] at related kept
    cases related with
    | ok _ beside => exact ⟨v', rfl, beside.same_log, beside.types, kept.trans seeded.here⟩
  | error stop v' =>
    rw [run'] at related
    cases related

theorem Local.errors_grow {region : Region} (h : Local region x) (w : Work (SiteMap ValueType)) :
    ∃ more, (leftBy (EStateM.run x w)).log.errors = w.log.errors ++ more := by
  have beside : Beside region Eq w.log.errors w w := .refl w
  have related := h.related (fun _ => rfl) beside
  cases run : EStateM.run x w with
  | ok a v =>
    rw [run] at related
    cases related with
    | ok _ beside => exact beside.errors.imp fun _ ⟨_, errors, _⟩ => errors
  | error stop v =>
    rw [run] at related
    cases related with
    | error _ beside => exact beside.errors.imp fun _ ⟨_, errors, _⟩ => errors

/-- A step that ends by recording the type of a site, which it does not use before. -/
def EndsAt (s : Site) (x : Typing ValueType) : Prop :=
  ∃ inner, x = inner >>= record s ∧ Local (elsewhere s) inner

namespace EndsAt

variable {x : Typing ValueType} {h : β → Typing ValueType} {y : Typing β}

theorem record (type : ValueType) : EndsAt s (Typing.record s type) :=
  ⟨Pure.pure type, (pure_bind _ _).symm, .pure _⟩

theorem recorded (local' : Local (elsewhere s) x) :
    EndsAt s (x >>= Typing.record s) := ⟨x, rfl, local'⟩

theorem bind (first : Local (elsewhere s) y) (next : ∀ b, EndsAt s (h b)) : EndsAt s (y >>= h) := by
  choose inner same local' using next
  refine ⟨y >>= inner, ?_, first.bind local'⟩
  rw [bind_assoc]
  exact congrArg (y >>= ·) (funext same)

theorem reported_unless {c : Bool} {fault : TypeFault} {pos : Nat} {next : Unit → Typing ValueType}
    (after : EndsAt s (next ())) :
    EndsAt s (if (!c) = true then reportType fault pos >>= next else next ()) := by
  split
  · exact .bind (.report fault pos) fun _ => after
  · exact after

theorem fatal (fault : Fault) (pos : Nat) : EndsAt s (Pass.fatal fault pos) :=
  ⟨Pass.fatal fault pos, rfl, .fatal _ _⟩

/-- A run that stops has not come to the site. -/
theorem stopped (ends : EndsAt s x) {stop : Stop} (run : EStateM.run x w = .error stop v) :
    v.own.get? s = w.own.get? s := by
  obtain ⟨inner, rfl, local'⟩ := ends
  have kept := local'.frame (t := s) (fun inside => inside rfl) w
  rw [EStateM.run_bind] at run
  split at run
  · rw [run_record] at run
    cases run
  · rename_i stopped
    rw [stopped] at kept
    cases run
    exact kept

/-- Where the site has no type before, the answer is recorded. -/
theorem answered (ends : EndsAt s x) (free : w.own.get? s = none)
    (run : EStateM.run x w = .ok type v) : v.own.get? s = some type := by
  obtain ⟨inner, rfl, local'⟩ := ends
  have kept := local'.frame (t := s) (fun inside => inside rfl) w
  rw [EStateM.run_bind] at run
  split at run
  · rename_i a u ended
    rw [ended] at kept
    have free' : u.own.get? s = none := kept.trans free
    rw [run_record, free'] at run
    cases run
    exact SiteMap.get?_fill_free free' _
  · cases run

/-- Where it has a type, that is the answer, and everything else is as it would be. -/
theorem seeded (ends : EndsAt s x) {given : ValueType}
    (seeded : Seeded s type w w') (run : EStateM.run x w = .ok given v) :
    ∃ v', EStateM.run x w' = .ok type v' ∧ Seeded s type v v' := by
  obtain ⟨inner, rfl, local'⟩ := ends
  rw [EStateM.run_bind] at run
  split at run
  · rename_i a u ended
    obtain ⟨u', ended', known⟩ := local'.run_seeded seeded ended
    rw [run_record] at run
    cases run
    refine ⟨{ u' with own := u'.own.fill s a }, ?_, known.log, ?_, ?_⟩
    · rw [EStateM.run_bind, ended']
      dsimp only
      rw [run_record, known.here]
      rfl
    · intro t other
      rw [SiteMap.get?_fill_of_ne _ _ other, SiteMap.get?_fill_of_ne _ _ other,
        known.others t other]
    · exact SiteMap.get?_fill_of_some known.here
  · cases run

end EndsAt

theorem local_child (k : Nat) (e : Expr) :
    Local (elsewhere site) (checkExpr ctx (site.child k) e) :=
  (local_checkExpr ctx (site.child k) e).up (sub_elsewhere (not_below_child site k))

/-- The type of an expression is recorded last. -/
theorem endsAt_checkExpr (ctx : Context) (site : Site) (e : Expr) :
    EndsAt site (checkExpr ctx site e) := by
  cases e with
  | int | bool | null => exact .record _
  | unknown => exact .fatal _ _
  | unary op operand pos =>
    exact .bind (local_child 0 operand) fun given => .recorded (local_checkUnary op pos given)
  | binary op left right pos =>
    exact .bind (local_child 0 left) fun l => .bind (local_child 1 right) fun r =>
      .recorded (local_checkBinary op pos l r)
  | ref r pos => exact .recorded (local_checkValue ctx site.target r)
  | index r i pos =>
    refine .bind (local_checkValue ctx site.target r) fun type =>
      .bind (local_child 1 i) fun given => .reported_unless ?_
    split
    · exact .record _
    · exact .record _
    · exact .recorded (.faulty _ _)
  | call method args pos =>
    have rest := (local_checkArgs ctx site 0 args).up (sub_elsewhere (not_itemsFrom site 1 0))
    exact .bind (local_declOf ctx site.target method) fun d =>
      .bind rest fun types => .recorded (local_checkCall ctx d method pos types)
  | newObject type pos => exact .record _
  | newArray element size pos =>
    exact .bind (local_child 1 size) fun given => .reported_unless (.record _)

/-- An expression whose type is the erroneous one was checked to its end, and found to have that
type. -/
theorem ended_of_erroneous {e : Expr} (free : w.own.get? site = none)
    (erroneous : (leftBy (EStateM.run (checkExpr ctx site e) w)).own.get? site = some .error) :
    ∃ v, EStateM.run (checkExpr ctx site e) w = .ok .error v := by
  have ends := endsAt_checkExpr ctx site e
  cases run : EStateM.run (checkExpr ctx site e) w with
  | error stop v =>
    rw [run] at erroneous
    have same : some ValueType.error = none :=
      erroneous.symm.trans ((ends.stopped run).trans free)
    cases same
  | ok a v =>
    rw [run] at erroneous
    have same : some ValueType.error = some a := erroneous.symm.trans (ends.answered free run)
    cases same
    exact ⟨v, rfl⟩

/-- A check of an expression by itself finds it erroneous, and it finds it to have the type that is
given where that is recorded for it before. It reports the same either way. -/
def FindsError (ctx : Context) (n : Site × Expr) (type : ValueType) (failFast : Bool)
    (inside : List Diagnostic) : Prop :=
  ∃ v v', EStateM.run (checkExpr ctx n.1 n.2) ⟨{ failFast := failFast }, {}⟩ = .ok .error v ∧
    EStateM.run (checkExpr ctx n.1 n.2) ⟨{ failFast := failFast }, SiteMap.fill {} n.1 type⟩ =
      .ok type v' ∧
    v.log.errors = inside ∧ v'.log.errors = inside

/-- A run that finds an expression erroneous. It reports something before it comes to the expression
and what a check of that by itself reports, and there is a type such that everything after it is the
same but for the words of faults where the expression is found to have that type. -/
def Contained (ctx : Context) (n : Site × Expr) (x : Typing α)
    (w : Work (SiteMap ValueType)) : Prop :=
  w.own.get? n.1 = none → (leftBy (EStateM.run x w)).own.get? n.1 = some .error →
    ∃ type, type.Plain ∧ ∃ before inside, FindsError ctx n type w.log.failFast inside ∧
      ∀ w', Seeded n.1 type w w' →
        Related (elsewhere n.1) SamePlace (w.log.errors ++ before ++ inside)
        (EStateM.run x w) (EStateM.run x w')

/-- An expression that is found erroneous where nothing below its site is known is found so by
itself. -/
theorem findsError_of_run (free : w.own.Free n.1.below)
    (run : EStateM.run (checkExpr ctx n.1 n.2) w = .ok .error v) (type : ValueType) :
    ∃ inside, v.log.errors = w.log.errors ++ inside ∧
      FindsError ctx n type w.log.failFast inside := by
  have same : Beside n.1.below Eq w.log.errors w w := .refl w
  have beside : Beside n.1.below Eq w.log.errors w ⟨w.log, {}⟩ :=
    ⟨same.failFast, same.notes, same.errors, fun t ht => (free t ht).symm⟩
  have related := (local_checkExpr ctx n.1 n.2).related (fun _ => rfl) beside
  have appended := (plain_checkExpr ctx n.1 n.2).run_append w.log {}
  rw [run, appended] at related
  cases byItself : EStateM.run (checkExpr ctx n.1 n.2) ⟨{ failFast := w.log.failFast }, {}⟩ with
  | error stop u =>
    rw [byItself] at related
    cases related
  | ok a u =>
    rw [byItself] at related
    cases related with
    | ok _ beside =>
      have same := congrArg Log.errors beside.same_log
      obtain ⟨u', byItself', known⟩ :=
        (endsAt_checkExpr ctx n.1 n.2).seeded (seeded_fill rfl type) byItself
      exact ⟨u.log.errors, same.symm, u, u', byItself, byItself', rfl,
        congrArg Log.errors known.log⟩

/-- What is known of a site in the end was known before the last step, if that does not use the
site. -/
theorem known_before (next : ∀ a, Local (elsewhere s) (f a)) (w : Work (SiteMap ValueType)) :
    (leftBy (EStateM.run (x >>= f) w)).own.get? s = (leftBy (EStateM.run x w)).own.get? s := by
  rw [EStateM.run_bind]
  cases EStateM.run x w with
  | error stop v => rfl
  | ok a v => exact (next a).frame (fun inside => inside rfl) v

/-- What follows an erroneous expression does the same where that has some other type. -/
def Absorbs (s : Site) (g : ValueType → Typing α) (v : Work (SiteMap ValueType)) : Prop :=
  ∃ type, type.Plain ∧ ∀ front v', Beside (elsewhere s) SamePlace front v v' →
    Related (elsewhere s) SamePlace front (EStateM.run (g .error) v) (EStateM.run (g type) v')

namespace Contained

/-- A step before the expression is come to. -/
theorem before (first : Local (elsewhere n.1) x)
    (next : ∀ a v, EStateM.run x w = .ok a v → Contained ctx n (f a) v) :
    Contained ctx n (x >>= f) w := by
  intro free erroneous
  have kept := first.frame (t := n.1) (fun inside => inside rfl) w
  have mode := first.failFast w
  obtain ⟨more, errors⟩ := first.errors_grow w
  rw [EStateM.run_bind] at erroneous ⊢
  cases run : EStateM.run x w with
  | error stop v =>
    rw [run] at erroneous kept
    have none : v.own.get? n.1 = none := Eq.trans kept free
    have known : v.own.get? n.1 = some .error := erroneous
    rw [none] at known
    cases known
  | ok a v =>
    rw [run] at erroneous kept mode errors
    have errors : v.log.errors = w.log.errors ++ more := errors
    have mode : v.log.failFast = w.log.failFast := mode
    obtain ⟨type, plain, before, inside, found, others⟩ := next a v run (kept.trans free) erroneous
    refine ⟨type, plain, more ++ before, inside, mode ▸ found, fun w' seeded => ?_⟩
    obtain ⟨v', run', seeded'⟩ := first.run_seeded seeded run
    rw [EStateM.run_bind, run', ← List.append_assoc, ← errors]
    exact others v' seeded'

/-- A step after the expression was found erroneous. -/
theorem after (first : Contained ctx n x w) (next : ∀ a, Local (elsewhere n.1) (f a)) :
    Contained ctx n (x >>= f) w := by
  intro free erroneous
  have known := (known_before next w).symm.trans erroneous
  obtain ⟨type, plain, before, inside, found, others⟩ := first free known
  refine ⟨type, plain, before, inside, found, fun w' seeded => ?_⟩
  exact (others w' seeded).bind fun _ _ beside => (next _).related SamePlace.refl beside

/-- A check of the expression itself, with what comes after it. -/
theorem hole (free : w.own.Free n.1.below)
    (local' : ∀ a, Local (elsewhere n.1) (g a))
    (absorbs : ∀ v, EStateM.run (checkExpr ctx n.1 n.2) w = .ok .error v → Absorbs n.1 g v) :
    Contained ctx n (checkExpr ctx n.1 n.2 >>= g) w := by
  intro here erroneous
  have known := (known_before local' w).symm.trans erroneous
  obtain ⟨v, run⟩ := ended_of_erroneous here known
  obtain ⟨type, plain, others⟩ := absorbs v run
  obtain ⟨inside, errors, found⟩ := findsError_of_run free run type
  refine ⟨type, plain, [], inside, found, fun w' seeded => ?_⟩
  obtain ⟨v', run', seeded'⟩ := (endsAt_checkExpr ctx n.1 n.2).seeded seeded run
  rw [List.append_nil, ← errors, EStateM.run_bind, EStateM.run_bind, run, run']
  exact others v.log.errors v' (seeded'.beside SamePlace)

end Contained

end Typing

end JamCompiler
