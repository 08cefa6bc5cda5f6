import JamCompiler.Proofs.Naming.Programs
import JamCompiler.Proofs.Naming.SecondVisit

/-!
# What collecting makes known

Whatever faults the classes of a program have, collecting makes known no parameter and no variable,
and no field but those of the classes that it registers.
-/

namespace JamCompiler

open Pass

namespace ScopeTable

variable {t u : ScopeTable} {d : Decl}

theorem gains_registerClass {c : ClassRef} (h : t.registerClass? c = .ok u) :
    Gains (fun _ => False) t u ∧ u.retrieveClass? c.name = some c := by
  unfold registerClass? at h
  split at h
  · cases h
  · rename_i new
    cases h
    refine ⟨⟨fun {name _} known => ?_, fun _ known => .inl known⟩, List.lookup_cons_self⟩
    have other : name ≠ c.name := by
      rintro rfl
      rw [new] at known
      cases known
    rw [retrieveClass?, lookup_cons_of_ne other]
    exact known

theorem gains_registerMember {c : ClassRef} (h : t.registerMember? c d = .ok u) :
    Gains (· = d) t u := by
  unfold registerMember? at h
  split at h
  · cases h
  · cases h
    refine ⟨id, fun e known => ?_⟩
    rcases known with scope | ⟨key, mem⟩
    · exact .inl (.inl scope)
    · rcases List.mem_cons.mp mem with here | there
      · exact .inr (Prod.mk.inj here).2
      · exact .inl (.inr ⟨key, there⟩)

end ScopeTable

namespace Resolving

/-- A class that is registered keeps its name. -/
theorem ends_registerClass (c : ClassRef) (n : Naming) : Ends (registerClass c) n fun done n' =>
    n.table.Gains (fun _ => False) n'.table ∧
      (done = true → n'.table.retrieveClass? c.name = some c) := by
  refine (TableStep.ends_of_attempts (n.table.registerClass? c).toOption fun log =>
    TableStep.attempts_registerClass c ⟨log, n⟩).imp ?_
  rintro _ _ ⟨rfl, rfl⟩
  cases registered : n.table.registerClass? c with
  | ok u =>
    obtain ⟨gains, known⟩ := ScopeTable.gains_registerClass registered
    exact ⟨gains, fun _ => known⟩
  | error fault => exact ⟨.refl _ _, nofun⟩

theorem ends_registerMember (c : ClassRef) (d : Decl) (n : Naming) :
    Ends (registerMember c d) n fun _ n' => n.table.Gains (· = d) n'.table := by
  refine (TableStep.ends_of_attempts (n.table.registerMember? c d).toOption fun log =>
    TableStep.attempts_registerMember c d ⟨log, n⟩).imp ?_
  rintro _ _ ⟨-, rfl⟩
  cases registered : n.table.registerMember? c d with
  | ok u => exact ScopeTable.gains_registerMember registered
  | error previous => exact .refl _ _

theorem ends_registerMembers (c : ClassRef) (members : List Decl) (n : Naming) :
    Ends (registerMembers c members) n fun _ n' => n.table.Gains (· ∈ members) n'.table := by
  unfold registerMembers
  induction members generalizing n with
  | nil => exact .pure (.refl _ _)
  | cons d rest ih =>
    have first :
        Ends (do let _ ← registerMember c d) n fun _ n' => n.table.Gains (· = d) n'.table :=
      (ends_registerMember c d n).bind fun _ _ h => .pure h
    refine first.bind fun _ n₁ h => (ih n₁).imp fun _ _ h' => ?_
    refine (h.imp ?_).trans (h'.imp fun _ => List.mem_cons_of_mem _)
    rintro _ rfl
    exact List.mem_cons_self

/-- A declaration that collecting makes known: it is without a site of its own, or a member of a
class that was registered. -/
def Collected (cs : List (Site × ClassDecl)) (t : ScopeTable) (d : Decl) : Prop :=
  d.dataHome? = none ∨
    ∃ c ∈ cs, t.retrieveClass? c.2.name = some (c.2.ref c.1) ∧ d ∈ c.2.members c.1

theorem Collected.mono {cs cs' : List (Site × ClassDecl)} {t t' : ScopeTable} {S : Decl → Prop}
    {d : Decl} (h : Collected cs t d) (sub : cs ⊆ cs') (gains : t.Gains S t') :
    Collected cs' t' d :=
  h.imp_right fun ⟨c, hc, known, member⟩ => ⟨c, sub hc, gains.classes known, member⟩

theorem dataHome?_of_predefined {c : ClassRef} {d : Decl} (h : d ∈ Predefined.members c) :
    d.dataHome? = none := by
  unfold Predefined.members at h
  split at h
  · obtain rfl := List.mem_singleton.mp h
    rfl
  · split at h
    · obtain rfl := List.mem_singleton.mp h
      rfl
    · cases h

theorem ends_collectPredefined (c : ClassRef) (n : Naming) :
    Ends (collectPredefined c) n fun _ n' => n.table.Gains (Collected [] n'.table) n'.table := by
  refine (ends_enter _ _ n).bind fun _ n₁ h₁ => (ends_registerClass c n₁).bind fun _ n₂ h₂ =>
    (ends_registerMembers c _ n₂).imp fun _ n₃ h₃ => ?_
  have class' : ∀ d, d = Decl.cls c → Collected [] n₃.table d := by
    rintro _ rfl
    exact .inl rfl
  have members : ∀ d ∈ Predefined.members c, Collected [] n₃.table d :=
    fun _ hd => .inl (dataHome?_of_predefined hd)
  exact ((h₁.2.imp class').trans (h₂.1.imp fun _ => False.elim)).trans (h₃.imp members)

theorem ends_collectClass (site : Site) (c : ClassDecl) (n : Naming) :
    Ends (collectClass site c) n fun _ n' =>
      n.table.Gains (Collected [(site, c)] n'.table) n'.table := by
  refine (ends_registerClass (c.ref site) n).bind fun done n₁ h₁ => ?_
  cases done with
  | false => exact .pure (h₁.1.imp fun _ => False.elim)
  | true =>
    refine (ends_enter _ _ n₁).bind fun _ n₂ h₂ =>
      (ends_registerMembers (c.ref site) _ n₂).imp fun _ n₃ h₃ => ?_
    have known := h₃.classes (h₂.2.classes (h₁.2 rfl))
    refine ((h₁.1.imp fun _ => False.elim).trans (h₂.2.imp ?_)).trans (h₃.imp fun d hd => ?_)
    · rintro _ rfl
      exact .inl rfl
    · exact .inr ⟨_, List.mem_cons_self, known, hd⟩

theorem gains_forM {α : Type} {step : α → Resolving Unit}
    {cs : List (Site × ClassDecl)} (l : List α)
    (each : ∀ a ∈ l, ∀ n, Ends (step a) n fun _ n' =>
      n.table.Gains (Collected cs n'.table) n'.table) (n : Naming) :
    Ends (l.forM step) n fun _ n' => n.table.Gains (Collected cs n'.table) n'.table := by
  induction l generalizing n with
  | nil => exact .pure (.refl _ _)
  | cons a rest ih =>
    refine (each a List.mem_cons_self n).bind fun _ n₁ h =>
      (ih (fun b hb => each b (List.mem_cons_of_mem _ hb)) n₁).imp fun _ n₂ h' => ?_
    exact (h.imp fun _ collected => collected.mono (List.Subset.refl _) h').trans h'

theorem ends_collect (p : Program) (n : Naming) : Ends (collect p) n fun _ n' =>
    n.table.Gains (Collected p.sitedClasses n'.table) n'.table := by
  have weaken {cs : List (Site × ClassDecl)} {x : Resolving Unit} {n : Naming}
      (sub : cs ⊆ p.sitedClasses)
      (h : Ends x n fun _ n' => n.table.Gains (Collected cs n'.table) n'.table) :
      Ends x n fun _ n' => n.table.Gains (Collected p.sitedClasses n'.table) n'.table :=
    h.imp fun _ n' gains => gains.imp fun _ collected =>
      collected.mono sub (ScopeTable.Gains.refl (fun _ => False) _)
  refine (gains_forM Predefined.classes (fun c _ n =>
    weaken (List.nil_subset _) (ends_collectPredefined c n)) n).bind fun _ n₁ h₁ => ?_
  refine (ends_openScope n₁).bind ?_
  rintro _ _ rfl
  have each : ∀ c ∈ p.sitedClasses, ∀ n, Ends (collectClass c.1 c.2) n fun _ n' =>
      n.table.Gains (Collected p.sitedClasses n'.table) n'.table := fun c hc n =>
    weaken (List.cons_subset.mpr ⟨hc, List.nil_subset _⟩) (ends_collectClass c.1 c.2 n)
  refine (gains_forM p.sitedClasses each _).imp fun _ n₂ h₂ => ?_
  have gains : n₁.table.Gains _ n₂.table := ⟨h₂.classes, fun d known => h₂.knows d known⟩
  exact (h₁.imp fun _ collected => collected.mono (List.Subset.refl _) gains).trans gains

/-- What collecting makes known of fields, parameters and variables: fields of registered
classes. -/
theorem field_of_collected {p : Program} {t : ScopeTable} {d : Decl}
    (h : Collected p.sitedClasses t d) {home : Site} (hd : d.dataHome? = some home) :
    ∃ c ∈ p.registered t, ∃ i f, home = c.1.field i ∧ d = .field (.user home) f := by
  rcases h with none | ⟨c, hc, known, member⟩
  · rw [none] at hd
    cases hd
  · have registered : c ∈ p.registered t := List.mem_filter.mpr ⟨hc, decide_eq_true known⟩
    rcases ClassDecl.mem_members.mp member with ⟨i, f, -, rfl⟩ | ⟨i, method, -, rfl⟩
    · cases hd
      exact ⟨c, registered, i, f, rfl, rfl⟩
    · cases hd

end Resolving

end JamCompiler
