import JamCompiler.Proofs.Naming.References
import JamCompiler.Proofs.Stages

/-!
# Two runs of resolution

Resolution that is run again on what it has bound, step by step beside the first run. Both runs have
the same table at every step, since the table does not depend on what is bound. The second run finds
bound what the first one binds in a step, `Beside`, and it finds the types of all declarations
bound, while the first run knew those of the classes before it only. A step is followed by the
second run, `Follows`, if that does the same unless it meets a link that the first run missed.
-/

namespace JamCompiler

open Pass

namespace Pass

variable {σ α β : Type} {x : Pass σ α} {f : α → Pass σ β}
  {R : Fault → Prop} {S : Option Fault → Prop}

/-- A run from an empty log that goes on after errors: its answer, what it records, what it
leaves. -/
def Finishes (x : Pass σ α) (s : σ) (a : α) (found : Log) (s' : σ) : Prop :=
  EStateM.run x ⟨{}, s⟩ = .ok a ⟨found, s'⟩

theorem finishes_pure {a b : α} {s s' : σ} {found : Log} :
    Finishes (pure a : Pass σ α) s b found s' ↔ b = a ∧ found = {} ∧ s' = s := by
  constructor
  · intro run
    cases run
    exact ⟨rfl, rfl, rfl⟩
  · rintro ⟨rfl, rfl, rfl⟩
    rfl

theorem finishes_report {fault : Fault} {pos : Nat} {s s' : σ} {u : Unit} {found : Log} :
    Finishes (report fault pos : Pass σ Unit) s u found s' ↔
      found = ({} : Log).addError fault pos ∧ s' = s := by
  unfold Finishes
  rw [run_report]
  constructor
  · intro run
    cases run
    exact ⟨rfl, rfl⟩
  · rintro ⟨rfl, rfl⟩
    rfl

theorem Finishes.det {s s₁ s₂ : σ} {a b : α} {f g : Log} (h : Finishes x s a f s₁)
    (h' : Finishes x s b g s₂) :
    b = a ∧ g = f ∧ s₂ = s₁ := by
  cases h.symm.trans h'
  exact ⟨rfl, rfl, rfl⟩

theorem Finishes.mode (h : Plain R S x) {s s' : σ} {a : α} {found : Log}
    (run : Finishes x s a found s') : found.failFast = false := by
  obtain ⟨-, -, -, -, mode⟩ := h.ended run
  exact mode

theorem append_nothing (log : Log) : log.append {} = log := by
  simp [Log.append]

/-- What a run records on a log that goes on after errors is what it records on an empty one. -/
theorem Plain.run_eq_ok_iff (h : Plain R S x) {log log' : Log} (mode : log.failFast = false)
    {s s' : σ} {a : α} : EStateM.run x ⟨log, s⟩ = .ok a ⟨log', s'⟩ ↔
      ∃ found, Finishes x s a found s' ∧ log' = log.append found := by
  unfold Finishes
  rw [h.run_append, mode]
  cases EStateM.run x ⟨{ failFast := false }, s⟩ with
  | error stop w => simp
  | ok b w =>
    constructor
    · intro run
      cases run
      exact ⟨_, rfl, rfl⟩
    · rintro ⟨found, run, rfl⟩
      cases run
      rfl

/-- One step after another. -/
theorem Plain.seq_iff (h : Plain R S x) (next : ∀ a, Plain R S (f a)) {s s' : σ} {b : β}
    {found : Log} : Finishes (x >>= f) s b found s' ↔ ∃ a f₁ s₁ f₂,
      Finishes x s a f₁ s₁ ∧ Finishes (f a) s₁ b f₂ s' ∧ found = f₁.append f₂ := by
  constructor
  · intro run
    unfold Finishes at run
    rw [EStateM.run_bind] at run
    split at run
    · rename_i a w first
      have finishes : Finishes x s a w.log w.own := first
      have mode := finishes.mode h
      obtain ⟨f₂, second, log⟩ := ((next a).run_eq_ok_iff mode).mp run
      exact ⟨a, w.log, w.own, f₂, first, second, log⟩
    · cases run
  · rintro ⟨a, f₁, s₁, f₂, first, second, rfl⟩
    unfold Finishes at first ⊢
    rw [EStateM.run_bind, first]
    exact ((next a).run_eq_ok_iff (Finishes.mode h first)).mpr ⟨f₂, second, rfl⟩

end Pass

namespace ScopeTable

/-- Whether a declaration stands in one of the scopes of a table, or is a member of a class. -/
def Knows (t : ScopeTable) (d : Decl) : Prop :=
  (∃ name, (name, d) ∈ (t.inner ++ [t.predefined]).flatten) ∨ ∃ key, (key, d) ∈ t.members

variable {t u v : ScopeTable} {d e : Decl} {S S' : Decl → Prop}

/-- A table that keeps the classes of another and knows nothing more than that, except declarations
of some kind. -/
structure Gains (S : Decl → Prop) (t u : ScopeTable) : Prop where
  classes : ∀ {name c}, t.retrieveClass? name = some c → u.retrieveClass? name = some c
  knows : ∀ d, u.Knows d → t.Knows d ∨ S d

theorem Gains.refl (S : Decl → Prop) (t : ScopeTable) : Gains S t t := ⟨id, fun _ => .inl⟩

theorem Gains.imp (h : Gains S t u) (kind : ∀ d, S d → S' d) : Gains S' t u :=
  ⟨h.classes, fun d known => (h.knows d known).imp_right (kind d)⟩

theorem Gains.trans (h : Gains S t u) (h' : Gains S u v) : Gains S t v where
  classes known := h'.classes (h.classes known)
  knows d known := (h'.knows d known).elim (h.knows d) .inr

theorem knows_of_retrieve {name : String} (h : t.retrieve? name = some d) : t.Knows d := by
  unfold retrieve? at h
  rw [← lookup_flatten] at h
  exact .inl ⟨name, mem_of_lookup h⟩

theorem knows_of_retrieveMember {cls name : String} (h : t.retrieveMember? cls name = some d) :
    t.Knows d :=
  .inr ⟨_, mem_of_lookup h⟩

theorem knows_openScope : t.openScope.Knows d ↔ t.Knows d := Iff.rfl

theorem knows_of_closeScope (h : t.closeScope? = .ok u) (known : u.Knows d) : t.Knows d := by
  unfold closeScope? at h
  split at h
  · cases h
  · rename_i scope outer inner
    cases h
    refine known.imp_left fun ⟨name, mem⟩ => ⟨name, ?_⟩
    rw [inner]
    exact List.mem_append_right _ mem

/-- A declaration that is entered stands before all others. -/
theorem entries_of_enter (h : t.enter? e = .ok u) : u.classes = t.classes ∧ u.members = t.members ∧
    (u.inner ++ [u.predefined]).flatten = (e.name, e) :: (t.inner ++ [t.predefined]).flatten := by
  unfold enter? at h
  split at h
  · cases h
  · split at h
    · cases h
    · split at h <;> cases h <;> rename_i inner <;> simp [inner]

theorem gains_enter (h : t.enter? e = .ok u) : Gains (· = e) t u := by
  obtain ⟨classes, members, entries⟩ := entries_of_enter h
  refine ⟨fun known => by rw [retrieveClass?, classes]; exact known, fun d known => ?_⟩
  unfold Knows at known
  rw [members, entries] at known
  rcases known with ⟨name, mem⟩ | member
  · rcases List.mem_cons.mp mem with here | there
    · exact .inr (Prod.mk.inj here).2
    · exact .inl (.inl ⟨name, there⟩)
  · exact .inl (.inr member)

end ScopeTable

namespace Resolving

variable {α β : Type} {t t' : ScopeTable} {m m' n : SiteMap Decl}

/-- The same outcome with other bindings. -/
def withBindings (n : SiteMap Decl) :
    EStateM.Result Stop (Work Naming) α → EStateM.Result Stop (Work Naming) α
  | .ok a w => .ok a { w with own := { w.own with bindings := n } }
  | .error stop w => .error stop { w with own := { w.own with bindings := n } }

/-- A step that takes no notice of what is bound, and binds nothing. -/
structure OfTable (x : Resolving α) : Prop where
  same : ∀ (w : Work Naming) (n : SiteMap Decl),
    EStateM.run x { w with own := { w.own with bindings := n } } = withBindings n (EStateM.run x w)

namespace OfTable

variable {x : Resolving α} {f : α → Resolving β}

theorem pure (a : α) : OfTable (Pure.pure a) := ⟨fun _ _ => rfl⟩

theorem bind (first : OfTable x) (next : ∀ a, OfTable (f a)) : OfTable (x >>= f) := by
  refine ⟨fun w n => ?_⟩
  rw [EStateM.run_bind, EStateM.run_bind, first.same]
  cases EStateM.run x w with
  | ok a v => exact (next a).same v n
  | error stop v => rfl

theorem table : OfTable table := ⟨fun _ _ => rfl⟩

theorem setTable (t : ScopeTable) : OfTable (setTable t) := ⟨fun _ _ => rfl⟩

theorem fatal (fault : Fault) (pos : Nat) : OfTable (Pass.fatal fault pos : Resolving α) :=
  ⟨fun _ _ => rfl⟩

theorem note (fault : Fault) (pos : Nat) : OfTable (Pass.note fault pos) := ⟨fun _ _ => rfl⟩

theorem reportName (fault : NameFault) (pos : Nat) : OfTable (reportName fault pos) := by
  refine ⟨fun w n => ?_⟩
  rw [Resolving.reportName, run_report, run_report]
  dsimp only
  split <;> rfl

theorem refuse (fault : NameFault) (pos : Nat) (a : α) :
    OfTable (do Resolving.reportName fault pos; return a) :=
  (reportName fault pos).bind fun _ => .pure a

theorem forM {γ : Type} {g : γ → Resolving Unit} (each : ∀ a, OfTable (g a)) (l : List γ) :
    OfTable (l.forM g) := by
  induction l with
  | nil => exact .pure ()
  | cons a rest ih => exact (each a).bind fun _ => ih

theorem openScope : OfTable openScope := table.bind fun _ => setTable _

theorem closeScope : OfTable closeScope := by
  refine table.bind fun t => ?_
  split
  · exact setTable _
  · exact fatal _ _

theorem enter (d : Decl) (pos : Nat) : OfTable (enter d pos) := by
  refine table.bind fun t => ?_
  split
  · exact (setTable _).bind fun _ => .pure _
  · exact refuse _ _ _

theorem registerClass (c : ClassRef) : OfTable (registerClass c) := by
  refine table.bind fun t => ?_
  split
  · exact (setTable _).bind fun _ => .pure _
  · exact refuse _ _ _

theorem registerMember (c : ClassRef) (d : Decl) : OfTable (registerMember c d) := by
  refine table.bind fun t => ?_
  split
  · exact (setTable _).bind fun _ => .pure _
  · exact (note _ _).bind fun _ => refuse _ _ _

theorem registerMembers (c : ClassRef) (members : List Decl) :
    OfTable (registerMembers c members) :=
  forM (fun d => (registerMember c d).bind fun _ => .pure _) members

theorem collect (p : Program) : OfTable (collect p) := by
  refine (forM (fun c => ?_) _).bind fun _ => openScope.bind fun _ => forM (fun c => ?_) _
  · exact (enter _ _).bind fun _ => (registerClass c).bind fun _ => registerMembers _ _
  · refine (registerClass _).bind fun registered => ?_
    split
    · exact (enter _ _).bind fun _ => registerMembers _ _
    · exact .pure ()

theorem rejectDeclaration (branch : Stmt) : OfTable (rejectDeclaration branch) := by
  unfold Resolving.rejectDeclaration
  split
  · exact reportName _ _
  · exact .pure ()

theorem ends (h : OfTable x) (n : Naming) : Ends x n fun _ n' => n'.bindings = n.bindings := by
  refine ⟨fun {log _ w} run => ?_⟩
  have other := h.same ⟨log, n⟩ n.bindings
  rw [run] at other
  injection other with _ same
  exact congrArg (fun v => v.own.bindings) same

/-- Such a step runs the same beside any bindings. -/
theorem finishes (h : OfTable x) {a : α} {found : Log} (run : Finishes x ⟨t, m⟩ a found ⟨t', m'⟩) :
    m' = m ∧ ∀ n, Finishes x ⟨t, n⟩ a found ⟨t', n⟩ := by
  refine ⟨(h.ends ⟨t, m⟩).holds run, fun n => ?_⟩
  have other := h.same ⟨{}, ⟨t, m⟩⟩ n
  unfold Finishes at run ⊢
  rw [run] at other
  exact other

end OfTable

end Resolving

/-- A link that a first run passes over: its qualifier is a field of a later class, whose type is a
class that is known when the run has come to its end. -/
def Missed (bound : Site → Option Decl) : Site × Reference → Prop
  | (site, .qualified ..) => ∃ home f name pos cls,
    bound site.qualifier = some (.field (.user home) f) ∧ f.type = .named name pos ∧
      site.classNumber < home.classNumber ∧ bound home.type.className = some (.cls cls)
  | _ => False

/-- Whether there is such a link among some uses. -/
def MissedAmong (bound : Site → Option Decl) (uses : List Use) : Prop :=
  ∃ u ∈ uses, ∃ r ∈ u.references, ∃ l ∈ r.2.links r.1, Missed bound l

section MissedAmong

variable {bound : Site → Option Decl} {u : Use} {us vs : List Use}

theorem not_missedAmong_nil : ¬ MissedAmong bound [] := fun ⟨_, mem, _⟩ => nomatch mem

theorem missedAmong_append :
    MissedAmong bound (us ++ vs) ↔ MissedAmong bound us ∨ MissedAmong bound vs := by
  simp only [MissedAmong, List.mem_append, or_and_right, exists_or]

/-- A use without references. -/
theorem missedAmong_cons (none : u.references = []) :
    MissedAmong bound (u :: us) ↔ MissedAmong bound us := by
  simp [MissedAmong, none]

/-- A use of one reference. -/
theorem missedAmong_ref {site : Site} {r : Reference} (one : u.references = [(site, r)]) :
    MissedAmong bound [u] ↔ ∃ l ∈ r.links site, Missed bound l := by
  simp [MissedAmong, one]

end MissedAmong

/-- Where a field, a parameter or a variable of the program is declared. -/
def Decl.dataHome? : Decl → Option Site
  | field (.user home) _ | param home _ | var home _ => some home
  | field .predefined _ | cls _ | method .. => none

namespace Resolving

section Beside

variable (bound : Site → Option Decl) (k : Nat)

/-- What both runs know of the type of a field, a parameter or a variable where they come to a
region of a class with a number. The second run knows what is bound there in the end; the first one
knows it unless it is a field of a later class. -/
structure TypeKnown (m n : SiteMap Decl) (region : Region) (d : Decl) (home : Site) : Prop where
  apart : home.type.below.Apart region
  first : ∀ s, home.type.below s → m.get? s = if home.classNumber ≤ k then bound s else none
  second : ∀ s, home.type.below s → n.get? s = bound s
  later : k < home.classNumber → ∃ f, d = .field (.user home) f

/-- Where both runs come to a region of a class: the first has bound nothing there, and the second
finds there what is bound in the end. -/
structure Beside (t : ScopeTable) (m n : SiteMap Decl) (region : Region) : Prop where
  free : m.Free region
  waits : ∀ s, region s → n.get? s = bound s
  owners : ∀ d, t.Knows d → ∀ home, d.dataHome? = some home → TypeKnown bound k m n region d home

/-- What the second run does beside the first in a step: what both record, and the bindings of the
second before and after it. It records everything that the first does, and the same unless a link
was missed. -/
structure Adds (missed : Prop) (region : Region) (found found' : Log) (n n' : SiteMap Decl) :
    Prop where
  grown : n.Grown region n'
  errors : found.errors.Sublist found'.errors
  notes : found'.notes = found.notes
  quiet : ¬ missed → found' = found ∧ n' = n
  loud : missed → found.errors.length < found'.errors.length ∨
    ∃ s, bound s = none ∧ (n'.get? s).isSome

/-- A declaration that was made in a region, whose type both runs know. -/
def Declared (n : SiteMap Decl) (region : Region) (d : Decl) : Prop :=
  ∀ home, d.dataHome? = some home → home.type.below.Sub region ∧ Site.classAt k <:+ home ∧
    ∀ s, home.type.below s → n.get? s = bound s

/-- The second run follows the first in a step whose uses stand in a region and that binds only
there. -/
structure Follows {α : Type} (uses : List Use) (region : Region) (x : Resolving α) : Prop where
  names : Names x
  within : ∀ u ∈ uses, ∀ r ∈ u.references, region r.1
  grown : ∀ n, Ends x n fun _ n' => n.bindings.Grown region n'.bindings
  again : ∀ {t t' : ScopeTable} {m m' n : SiteMap Decl} {a : α} {found : Log},
    Beside bound k t m n region → Finishes x ⟨t, m⟩ a found ⟨t', m'⟩ →
    (∀ s, region s → m'.get? s = bound s) → ∃ a' found' n',
      Finishes x ⟨t, n⟩ a' found' ⟨t', n'⟩ ∧
      Adds bound (MissedAmong bound uses) region found found' n n' ∧
      ∀ d, t'.Knows d → t.Knows d ∨ Declared bound k n' region d

end Beside

variable {bound : Site → Option Decl} {k : Nat} {t t' : ScopeTable} {m m' n n' n'' : SiteMap Decl}
variable {a b region : Region} {P Q : Prop} {f f' g g' : Log} {d : Decl}

theorem TypeKnown.down {home : Site} (h : TypeKnown bound k m n b d home) (sub : a.Sub b) :
    TypeKnown bound k m n a d home :=
  { h with apart := h.apart.mono (.refl _) sub }

theorem Beside.down (h : Beside bound k t m n b) (sub : a.Sub b) : Beside bound k t m n a where
  free := h.free.down sub
  waits s hs := h.waits s (sub s hs)
  owners d known home hd := (h.owners d known home hd).down sub

/-- After a step in one region both runs come to a region apart. -/
theorem Beside.after (h : Beside bound k t m n region) (ha : a.Sub region) (hb : b.Sub region)
    (apart : a.Apart b) (first : m.Grown a m') (made : ∀ s, a s → m'.get? s = bound s)
    (second : n.Grown a n') (knows : ∀ d, t'.Knows d → t.Knows d ∨ Declared bound k n' a d) :
    Beside bound k t' m' n' b where
  free := (h.free.down hb).grown first apart.symm
  waits s hs := by
    rw [second.same fun inside => apart s inside hs]
    exact h.waits s (hb s hs)
  owners d known home hd := by
    rcases knows d known with old | new
    · have type := h.owners d old home hd
      have outside : ∀ s, home.type.below s → ¬ a s :=
        fun s hs inside => type.apart s hs (ha s inside)
      refine ⟨type.apart.mono (.refl _) hb, fun s hs => ?_, fun s hs => ?_, type.later⟩
      · rw [first.same (outside s hs)]
        exact type.first s hs
      · rw [second.same (outside s hs)]
        exact type.second s hs
    · obtain ⟨inside, below, known⟩ := new home hd
      have number := Site.classNumber_of_suffix below
      refine ⟨apart.mono inside (.refl _), fun s hs => ?_, known, fun later => by omega⟩
      rw [if_pos (Nat.le_of_eq number)]
      exact made s (inside s hs)

theorem Adds.same (missed : ¬ P) : Adds bound P region f f n n where
  grown := .refl _ _
  errors := List.Sublist.refl _
  notes := rfl
  quiet _ := ⟨rfl, rfl⟩
  loud h := absurd h missed

theorem Adds.up (h : Adds bound P a f f' n n') (sub : a.Sub b) : Adds bound P b f f' n n' :=
  { h with grown := h.grown.up sub }

theorem Adds.congr (h : Adds bound P a f f' n n') (same : P ↔ Q) : Adds bound Q a f f' n n' :=
  { h with
    quiet := fun missed => h.quiet fun holds => missed (same.mp holds)
    loud := fun missed => h.loud (same.mpr missed) }

theorem Adds.append (h : Adds bound P region f f' n n') (h' : Adds bound Q region g g' n' n'') :
    Adds bound (P ∨ Q) region (f.append g) (f'.append g') n n'' where
  grown := h.grown.trans h'.grown
  errors := h.errors.append h'.errors
  notes := by simp only [Log.append, h.notes, h'.notes]
  quiet missed := by
    obtain ⟨rfl, rfl⟩ := h.quiet fun holds => missed (.inl holds)
    obtain ⟨rfl, rfl⟩ := h'.quiet fun holds => missed (.inr holds)
    exact ⟨rfl, rfl⟩
  loud missed := by
    have less := h.errors.length_le
    have less' := h'.errors.length_le
    simp only [Log.append, List.length_append]
    rcases missed with missed | missed
    · rcases h.loud missed with more | ⟨s, free, filled⟩
      · exact .inl (by omega)
      · obtain ⟨d, filled⟩ := Option.isSome_iff_exists.mp filled
        exact .inr ⟨s, free, Option.isSome_iff_exists.mpr ⟨d, h'.grown.kept filled⟩⟩
    · exact (h'.loud missed).imp_left fun more => by omega

namespace Follows

variable {α β : Type} {us vs : List Use} {x : Resolving α} {y : Resolving β}

theorem up (h : Follows bound k us a x) (sub : a.Sub b) : Follows bound k us b x where
  names := h.names
  within u hu r hr := sub r.1 (h.within u hu r hr)
  grown n := (h.grown n).imp fun _ _ grown => grown.up sub
  again beside run made := by
    obtain ⟨a', found', n', run', adds, knows⟩ :=
      h.again (beside.down sub) run fun s hs => made s (sub s hs)
    refine ⟨a', found', n', run', adds.up sub,
      fun d known => (knows d known).imp_right fun new => ?_⟩
    exact fun home hd => ⟨(new home hd).1.trans sub, (new home hd).2⟩

/-- A use without references before the others. -/
theorem cons {u : Use} (none : u.references = []) (h : Follows bound k us region x) :
    Follows bound k (u :: us) region x where
  names := h.names
  within := List.forall_mem_cons.mpr ⟨by simp [none], h.within⟩
  grown := h.grown
  again beside run made := by
    obtain ⟨a', found', n', run', adds, knows⟩ := h.again beside run made
    exact ⟨a', found', n', run', adds.congr (missedAmong_cons none).symm, knows⟩

/-- One step after another, in regions apart. -/
theorem seq (h : Follows bound k us a x) (h' : Follows bound k vs b y) (apart : a.Apart b)
    (ha : a.Sub region) (hb : b.Sub region) :
    Follows bound k (us ++ vs) region (x >>= fun _ => y) where
  names := .bind h.names fun _ => h'.names
  within := List.forall_mem_append.mpr ⟨(h.up ha).within, (h'.up hb).within⟩
  grown n := by
    refine (h.grown n).bind fun _ n₁ grown => (h'.grown n₁).imp fun _ _ grown' => ?_
    exact (grown.up ha).trans (grown'.up hb)
  again {t t' m m' n _ _} beside run made := by
    obtain ⟨u, f₁, ⟨t₁, m₁⟩, f₂, run₁, run₂, rfl⟩ := (h.names.seq_iff fun _ => h'.names).mp run
    have grown₁ : m.Grown a m₁ := (h.grown ⟨t, m⟩).holds run₁
    have grown₂ : m₁.Grown b m' := (h'.grown ⟨t₁, m₁⟩).holds run₂
    -- What is bound in the end is known of the last state only; the second step binds nothing in
    -- the region of the first one, so that had bound it there already.
    have made₁ : ∀ s, a s → m₁.get? s = bound s := fun s hs => by
      rw [← grown₂.same (apart s hs)]
      exact made s (ha s hs)
    obtain ⟨u', f₁', n₁, again₁, adds₁, knows₁⟩ := h.again (beside.down ha) run₁ made₁
    obtain ⟨v', f₂', n₂, again₂, adds₂, knows₂⟩ := h'.again
      (beside.after ha hb apart grown₁ made₁ adds₁.grown knows₁) run₂ fun s hs => made s (hb s hs)
    refine ⟨v', _, n₂, (h.names.seq_iff fun _ => h'.names).mpr
      ⟨u', f₁', ⟨t₁, n₁⟩, f₂', again₁, again₂, rfl⟩, ?_, fun d known => ?_⟩
    · exact ((adds₁.up ha).append (adds₂.up hb)).congr missedAmong_append.symm
    · rcases knows₂ d known with known | new
      · refine (knows₁ d known).imp_right fun new home hd => ?_
        obtain ⟨inside, below, known⟩ := new home hd
        refine ⟨inside.trans ha, below, fun s hs => ?_⟩
        rw [adds₂.grown.same (apart s (inside s hs))]
        exact known s hs
      · exact .inr fun home hd => ⟨(new home hd).1.trans hb, (new home hd).2⟩

/-- A step that takes no notice of what is bound, and declares nothing of use. -/
theorem of_table (names : Names x) (h : OfTable x)
    (knows : ∀ n, Ends x n fun _ n' => ∀ d, n'.table.Knows d → n.table.Knows d) :
    Follows bound k [] Region.empty x where
  names := names
  within := nofun
  grown n := (h.ends n).imp fun _ _ same => by
    rw [same]
    exact .refl _ _
  again {t _ m _ n _ _} _ run _ := by
    have knows := (knows ⟨t, m⟩).holds run
    obtain ⟨rfl, again⟩ := h.finishes run
    exact ⟨_, _, n, again n, .same not_missedAmong_nil, fun d known => .inl (knows d known)⟩

theorem pure (u : α) : Follows bound k [] Region.empty (Pure.pure u : Resolving α) :=
  of_table (.pure u) (.pure u) fun _ => .pure fun _ known => known

end Follows

end Resolving

end JamCompiler
