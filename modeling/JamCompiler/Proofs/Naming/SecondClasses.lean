import JamCompiler.Proofs.Naming.Collecting
import JamCompiler.Proofs.Naming.Completeness

/-!
# Classes in two runs

How two runs of resolution go from class to class. Both collect the same table, whose fields,
parameters and variables are the fields of the classes that were registered. Where the runs come to
the rest of these classes, `AtClasses`, the first run has bound nothing in them, and the second
finds there what is bound in the end. In a class the types of its fields come first; once they are
bound, both runs stand `Beside` each other for its methods.
-/

namespace JamCompiler

open Pass

namespace Resolving

variable {bound : Site → Option Decl} {k : Nat} {t t' : ScopeTable} {m m' n n' : SiteMap Decl}
variable {found : Log} {site : Site}

theorem binds_resolveFields (cls : Site) (i : Nat) (fields : List FieldDecl) :
    Binds (cls.itemsFrom 0 i) (resolveFields cls i fields) := by
  induction fields generalizing i with
  | nil => exact .pure ()
  | cons f rest ih =>
    have first := (binds_resolveType (cls.field i).type f.type).up
      (((cls.item 0 i).child_sub 0).trans (cls.item_sub_itemsFrom 0 i))
    exact first.bind fun _ => (ih (i + 1)).up (cls.itemsFrom_succ_sub 0 i)

/-- The types of fields that were resolved are resolved again, and nothing changes. -/
theorem again_resolveFields {cls : Site} {i : Nat} (fields : List FieldDecl) {u : Unit}
    (free : m.Free (cls.itemsFrom 0 i))
    (run : Finishes (resolveFields cls i fields) ⟨t, m⟩ u found ⟨t', m'⟩)
    (waits : ∀ s, cls.itemsFrom 0 i s → n.get? s = m'.get? s) :
    t' = t ∧ Finishes (resolveFields cls i fields) ⟨t, n⟩ u found ⟨t, n⟩ := by
  induction fields generalizing i m found with
  | nil =>
    obtain ⟨-, rfl, same⟩ := finishes_pure.mp run
    cases same
    exact ⟨rfl, rfl⟩
  | cons f rest ih =>
    have names := names_resolveType (cls.field i).type f.type
    have names' := names_resolveFields cls (i + 1) rest
    have type : (cls.field i).type.below.Sub (cls.item 0 i).below := (cls.item 0 i).child_sub 0
    have apart := (cls.item_apart_rest 0 i).mono type (.refl _)
    have inside := type.trans (cls.item_sub_itemsFrom 0 i)
    have after := cls.itemsFrom_succ_sub 0 i
    obtain ⟨v, f₁, ⟨t₁, m₁⟩, f₂, run₁, run₂, rfl⟩ := (names.seq_iff fun _ => names').mp run
    have grown₁ := ((binds_resolveType _ f.type ⟨t, m⟩).holds run₁).2
    have grown₂ := ((binds_resolveFields cls (i + 1) rest ⟨t₁, m₁⟩).holds run₂).2
    obtain ⟨rfl, again₁⟩ := again_resolveType f.type (free.down inside) run₁ fun s hs => by
      rw [waits s (inside s hs), grown₂.same (apart s hs)]
    obtain ⟨rfl, again₂⟩ := ih ((free.down after).grown grown₁ apart.symm) run₂ fun s hs =>
      waits s (after s hs)
    exact ⟨rfl, (names.seq_iff fun _ => names').mpr ⟨v, f₁, _, f₂, again₁, again₂, rfl⟩⟩

/-- The types of fields hold no references. -/
theorem missedAmong_fieldUses (cls : Site) (i : Nat) (fields : List FieldDecl) :
    ¬ MissedAmong bound (ClassDecl.fieldUses cls i fields) := by
  induction fields generalizing i with
  | nil => exact not_missedAmong_nil
  | cons f rest ih =>
    unfold ClassDecl.fieldUses
    rw [missedAmong_cons rfl]
    exact ih (i + 1)

theorem follows_methods (cls : ClassRef) (inClass : Site.classAt k <:+ site)
    (methods : List MethodDecl) (i : Nat) : Follows bound k
      ((methods.mapIdx fun j m => (site.method (i + j), m)).flatMap fun m => m.2.uses cls m.1)
      (site.itemsFrom 1 i) ((methods.mapIdx fun j m => (site.method (i + j), m)).forM
        fun (methodSite, m) => resolveMethodDecl cls methodSite m) := by
  induction methods generalizing i with
  | nil => exact (Follows.pure ()).up (Region.empty_sub _)
  | cons m rest ih =>
    rw [mapIdx_cons_from fun i m => (site.method i, m)]
    exact (follows_resolveMethodDecl cls (inClass.trans (site.suffix_item 1 i)) m).seq (ih (i + 1))
      (site.item_apart_rest 1 i) (site.item_sub_itemsFrom 1 i) (site.itemsFrom_succ_sub 1 i)

/-- Opens the scope of a class and enters the members that were registered. -/
def openClass (site : Site) (c : ClassDecl) : Resolving Unit := do
  openScope
  (c.members site).forM fun d => do
    if (← table).retrieveMember? c.name d.name = some d then
      let _ ← enter d d.pos

/-- Resolves the methods of a class and closes its scope. -/
def closeClass (site : Site) (c : ClassDecl) : Resolving Unit := do
  (c.sitedMethods site).forM fun (methodSite, m) => resolveMethodDecl (c.ref site) methodSite m
  closeScope

theorem resolveClass_eq (site : Site) (c : ClassDecl) : resolveClass site c =
    openClass site c >>= fun _ => resolveFields site 0 c.fields >>= fun _ => closeClass site c := by
  simp only [resolveClass, openClass, closeClass, bind_assoc]

theorem names_openClass (site : Site) (c : ClassDecl) : Names (openClass site c) := by
  refine .bind names_openScope fun _ => .forM fun d _ => .bind names_table fun t => ?_
  split
  · exact .bind (names_enter _ _) fun _ => .pure _
  · exact .pure _

theorem names_closeClass (site : Site) (c : ClassDecl) : Names (closeClass site c) :=
  .bind (.forM fun _ _ => names_resolveMethodDecl _ _ _) fun _ => names_closeScope

theorem OfTable.openClass (site : Site) (c : ClassDecl) : OfTable (openClass site c) := by
  refine openScope.bind fun _ => forM (fun d => table.bind fun t => ?_) _
  split
  · exact (enter _ _).bind fun _ => .pure _
  · exact .pure _

/-- A member is entered if it was registered, so it is known already. -/
theorem ends_openClass (site : Site) (c : ClassDecl) (n : Naming) :
    Ends (openClass site c) n fun _ n' => ∀ d, n'.table.Knows d → n.table.Knows d := by
  have enterAll (members : List Decl) (n : Naming) : Ends (members.forM fun d => do
      if (← table).retrieveMember? c.name d.name = some d then
        let _ ← enter d d.pos) n fun _ n' => ∀ d, n'.table.Knows d → n.table.Knows d := by
    induction members generalizing n with
    | nil => exact .pure fun _ => id
    | cons d rest ih =>
      have first : Ends (do
          if (← table).retrieveMember? c.name d.name = some d then
            let _ ← enter d d.pos) n fun _ n' => ∀ d, n'.table.Knows d → n.table.Knows d := by
        refine (ends_table n).bind ?_
        rintro _ _ ⟨rfl, rfl⟩
        split
        · rename_i registered
          refine (ends_enter d d.pos _).bind fun _ n' h => .pure fun d' known => ?_
          rcases h.2.knows d' known with old | rfl
          · exact old
          · exact ScopeTable.knows_of_retrieveMember registered
        · exact .pure fun _ => id
      exact first.bind fun _ n₁ h => (ih n₁).imp fun _ _ h' d' known => h d' (h' d' known)
  refine (ends_openScope n).bind ?_
  rintro _ _ rfl
  refine (enterAll _ _).imp fun _ n' h d known => ?_
  exact ScopeTable.knows_openScope.mp (h d known)

theorem follows_closeClass (c : ClassDecl) : Follows bound k
    ((c.sitedMethods (.classAt k)).flatMap fun m => m.2.uses (c.ref (.classAt k)) m.1)
    ((Site.classAt k).itemsFrom 1 0) (closeClass (.classAt k) c) := by
  have here : Site.classAt k <:+ Site.classAt k := List.suffix_refl _
  have methods : Follows bound k _ _ _ := follows_methods (c.ref (.classAt k)) here c.methods 0
  simp only [Nat.zero_add] at methods
  exact methods.before follows_closeScope

/-- The sites in some classes. -/
def inClasses (cs : List (Site × ClassDecl)) : Region := fun s => ∃ c ∈ cs, c.1.below s

/-- Where the type of a field, a parameter or a variable stands when both runs come to the rest of
the classes: in a class that they have left, with its type bound in the first run as it is in the
end, or it is a field of a class that is still to come. -/
def Standing (bound : Site → Option Decl) (cs : List (Site × ClassDecl)) (m : SiteMap Decl)
    (d : Decl) (home : Site) : Prop :=
  (∃ j, Site.classAt j <:+ home ∧ (∀ c ∈ cs, j < c.1.classNumber) ∧
    ∀ s, home.type.below s → m.get? s = bound s) ∨
  ∃ c ∈ cs, ∃ i f, home = c.1.field i ∧ d = .field (.user home) f

/-- Where both runs come to the rest of the classes. -/
structure AtClasses (bound : Site → Option Decl) (t : ScopeTable) (m n : SiteMap Decl)
    (cs : List (Site × ClassDecl)) : Prop where
  free : m.Free (inClasses cs)
  waits : ∀ s, inClasses cs s → n.get? s = bound s
  types : ∀ d, t.Knows d → ∀ home, d.dataHome? = some home →
    Standing bound cs m d home ∧ ∀ s, home.type.below s → n.get? s = bound s

/-- Classes with their sites, in the order of their numbers. -/
structure Sited (cs : List (Site × ClassDecl)) : Prop where
  sites : ∀ c ∈ cs, ∃ k, c.1 = .classAt k
  sorted : cs.Pairwise fun a b => a.1.classNumber < b.1.classNumber

section AtClasses

variable {c : ClassDecl} {cs : List (Site × ClassDecl)}

theorem classNumber_classAt (k : Nat) : (Site.classAt k).classNumber = k :=
  Site.classNumber_of_suffix (List.suffix_refl _)

theorem Sited.later (h : Sited ((.classAt k, c) :: cs)) :
    ∀ a ∈ cs, k < a.1.classNumber := fun a ha => by
  have less := (List.pairwise_cons.mp h.sorted).1 a ha
  rwa [classNumber_classAt] at less

theorem Sited.apart (h : Sited ((.classAt k, c) :: cs)) :
    (Site.classAt k).below.Apart (inClasses cs) := by
  rintro s here ⟨a, ha, there⟩
  obtain ⟨j, site⟩ := h.sites a (List.mem_cons_of_mem _ ha)
  have less := h.later a ha
  rw [site] at less there
  rw [classNumber_classAt] at less
  exact Site.apart_classAt (Nat.ne_of_lt less) s here there

theorem Sited.tail {a : Site × ClassDecl} (h : Sited (a :: cs)) : Sited cs :=
  ⟨fun c hc => h.sites c (List.mem_cons_of_mem _ hc), (List.pairwise_cons.mp h.sorted).2⟩

theorem first_sub_inClasses (a : Site × ClassDecl) (cs : List (Site × ClassDecl)) :
    a.1.below.Sub (inClasses (a :: cs)) :=
  fun _ hs => ⟨a, List.mem_cons_self, hs⟩

theorem rest_sub_inClasses (a : Site × ClassDecl) (cs : List (Site × ClassDecl)) :
    (inClasses cs).Sub (inClasses (a :: cs)) :=
  fun _ ⟨c, hc, hs⟩ => ⟨c, List.mem_cons_of_mem _ hc, hs⟩

theorem field_type_sub (cls : Site) (i : Nat) : (cls.field i).type.below.Sub (cls.itemsFrom 0 0) :=
  fun _ hs => ⟨i, Nat.zero_le i, ((cls.item 0 i).suffix_child 0).trans hs⟩

theorem fields_apart_methods (cls : Site) : (cls.itemsFrom 0 0).Apart (cls.itemsFrom 1 0) :=
  cls.lists_apart (by decide) 0 0

/-- Where the types stand when both runs come to a class: in a class before it, among the types of
its own fields, or in a class after it. -/
theorem Standing.cases {d : Decl} {home : Site}
    (h : Standing bound ((.classAt k, c) :: cs) m d home) (sited : Sited ((.classAt k, c) :: cs)) :
    (∃ j, j < k ∧ Site.classAt j <:+ home ∧ home.type.below.Apart (Site.classAt k).below ∧
      ∀ s, home.type.below s → m.get? s = bound s) ∨
    (Site.classAt k <:+ home ∧ home.type.below.Sub ((Site.classAt k).itemsFrom 0 0)) ∨
    ((∃ a ∈ cs, ∃ i f, home = a.1.field i ∧ d = .field (.user home) f) ∧ k < home.classNumber ∧
      home.type.below.Sub (inClasses cs)) := by
  rcases h with ⟨j, inside, past, first⟩ | ⟨a, ha, i, f, rfl, rfl⟩
  · have less := past _ List.mem_cons_self
    rw [classNumber_classAt] at less
    refine .inl ⟨j, less, inside, ?_, first⟩
    exact (Site.apart_classAt (Nat.ne_of_lt less)).below.mono
      (Site.below_sub (inside.trans (home.suffix_child 0))) (.refl _)
  · rcases List.mem_cons.mp ha with rfl | ha
    · exact .inr (.inl ⟨Site.suffix_item _ _ _, field_type_sub _ i⟩)
    · obtain ⟨j, site⟩ := sited.sites a (List.mem_cons_of_mem _ ha)
      have number : (a.1.field i).classNumber = a.1.classNumber := by
        rw [site, classNumber_classAt]
        exact Site.classNumber_of_suffix (Site.suffix_item _ _ _)
      refine .inr (.inr ⟨⟨a, ha, i, f, rfl, rfl⟩, number ▸ sited.later a ha, fun s hs => ?_⟩)
      exact ⟨a, ha, a.1.itemsFrom_sub 0 0 s (field_type_sub a.1 i s hs)⟩

/-- Once the types of the fields of a class are bound, the runs stand beside each other in it. -/
theorem AtClasses.beside (at' : AtClasses bound t m n ((.classAt k, c) :: cs))
    (sited : Sited ((.classAt k, c) :: cs)) (knows : ∀ d, t'.Knows d → t.Knows d)
    (grown : m.Grown ((Site.classAt k).itemsFrom 0 0) m')
    (made : ∀ s, (Site.classAt k).itemsFrom 0 0 s → m'.get? s = bound s) :
    Beside bound k t' m' n ((Site.classAt k).itemsFrom 1 0) := by
  have lists := fields_apart_methods (Site.classAt k)
  have methods := (Site.classAt k).itemsFrom_sub 1 0
  have fields := (Site.classAt k).itemsFrom_sub 0 0
  have here := first_sub_inClasses (.classAt k, c) cs
  refine ⟨((at'.free.down here).down methods).grown grown lists.symm,
    fun s hs => at'.waits s (here s (methods s hs)), fun d known home hd => ?_⟩
  obtain ⟨standing, second⟩ := at'.types d (knows d known) home hd
  rcases standing.cases sited with
      ⟨j, less, inside, apart, first⟩ | ⟨inside, type⟩ | ⟨field, less, later⟩
  · have number := Site.classNumber_of_suffix inside
    refine ⟨apart.mono (.refl _) methods, fun s hs => ?_, second, fun later => by omega⟩
    rw [if_pos (by omega), ← first s hs, grown.same fun hs' => apart s hs (fields s hs')]
  · have number := Site.classNumber_of_suffix inside
    refine ⟨lists.mono type (.refl _), fun s hs => ?_, second, fun later => by omega⟩
    rw [if_pos (by omega), made s (type s hs)]
  · have apart := sited.apart.symm.mono later (.refl _)
    obtain ⟨a, -, i, f, -, rfl⟩ := field
    refine ⟨apart.mono (.refl _) methods, fun s hs => ?_, second, fun _ => ⟨f, rfl⟩⟩
    rw [if_neg (by omega), grown.same fun hs' => apart s hs (fields s hs')]
    exact at'.free s (rest_sub_inClasses _ cs s (later s hs))

/-- What both runs did in a class leaves them ready for the next one. -/
theorem AtClasses.next (at' : AtClasses bound t m n ((.classAt k, c) :: cs))
    (sited : Sited ((.classAt k, c) :: cs)) (grown : m.Grown (Site.classAt k).below m')
    (made : ∀ s, (Site.classAt k).below s → m'.get? s = bound s)
    (second : n.Grown ((Site.classAt k).itemsFrom 1 0) n')
    (knows : ∀ d, t'.Knows d → t.Knows d ∨ Declared bound k n' (Site.classAt k).below d) :
    AtClasses bound t' m' n' cs := by
  have apart := sited.apart
  have methods := (Site.classAt k).itemsFrom_sub 1 0
  have later := rest_sub_inClasses (.classAt k, c) cs
  refine ⟨(at'.free.down later).grown grown apart.symm, fun s hs => ?_, fun d known home hd => ?_⟩
  · rw [second.same fun hs' => apart s (methods s hs') hs]
    exact at'.waits s (later s hs)
  rcases knows d known with old | new
  · obtain ⟨standing, type⟩ := at'.types d old home hd
    have kept (outside : home.type.below.Apart ((Site.classAt k).itemsFrom 1 0)) :
        ∀ s, home.type.below s → n'.get? s = bound s := fun s hs => by
      rw [second.same (outside s hs), type s hs]
    rcases standing.cases sited with
      ⟨j, less, inside, outside, first⟩ | ⟨inside, types⟩ | ⟨field, less, types⟩
    · refine ⟨.inl ⟨j, inside, fun a ha => Nat.lt_trans less (sited.later a ha), fun s hs => ?_⟩,
        kept (outside.mono (.refl _) methods)⟩
      rw [grown.same (outside s hs), first s hs]
    · refine ⟨.inl ⟨k, inside, sited.later, fun s hs => ?_⟩,
        kept ((fields_apart_methods _).mono types (.refl _))⟩
      exact made s (Site.itemsFrom_sub _ 0 0 s (types s hs))
    · exact ⟨.inr field, kept (apart.symm.mono types methods)⟩
  · obtain ⟨inside, below, type⟩ := new home hd
    exact ⟨.inl ⟨k, below, sited.later, fun s hs => made s (inside s hs)⟩, type⟩

theorem grown_resolveClass (k : Nat) (c : ClassDecl) (n : Naming) :
    Ends (resolveClass (.classAt k) c) n fun _ n' =>
      n.bindings.Grown (Site.classAt k).below n'.bindings := by
  have follows : Follows (fun _ => none) k _ _ (closeClass (.classAt k) c) := follows_closeClass c
  rw [resolveClass_eq]
  refine ((OfTable.openClass _ c).ends n).bind fun _ n₁ same => ?_
  refine (binds_resolveFields _ 0 c.fields n₁).bind fun _ n₂ h => ?_
  refine (follows.grown n₂).imp fun _ n₃ h' => ?_
  rw [← same]
  exact (h.2.up (Site.itemsFrom_sub _ 0 0)).trans (h'.up (Site.itemsFrom_sub _ 1 0))

theorem grown_resolveClasses (sited : Sited cs) (n : Naming) :
    Ends (cs.forM fun (site, c) => resolveClass site c) n fun _ n' =>
      n.bindings.Grown (inClasses cs) n'.bindings := by
  induction cs generalizing n with
  | nil => exact .pure (.refl _ _)
  | cons a rest ih =>
    obtain ⟨site, c⟩ := a
    obtain ⟨k, rfl⟩ := sited.sites _ List.mem_cons_self
    refine (grown_resolveClass k c n).bind fun _ n₁ h => (ih sited.tail n₁).imp fun _ n₂ h' => ?_
    exact (h.up (first_sub_inClasses (_, c) rest)).trans (h'.up (rest_sub_inClasses _ rest))

/-- The second run follows the first in a class. -/
theorem again_resolveClass (at' : AtClasses bound t m n ((.classAt k, c) :: cs))
    (sited : Sited ((.classAt k, c) :: cs)) {u : Unit}
    (run : Finishes (resolveClass (.classAt k) c) ⟨t, m⟩ u found ⟨t', m'⟩)
    (made : ∀ s, (Site.classAt k).below s → m'.get? s = bound s) :
    ∃ found' n', Finishes (resolveClass (.classAt k) c) ⟨t, n⟩ u found' ⟨t', n'⟩ ∧
      Adds bound (MissedAmong bound (c.uses (.classAt k))) (Site.classAt k).below
        found found' n n' ∧
      AtClasses bound t' m' n' cs := by
  let site := Site.classAt k
  have opens := names_openClass site c
  have fields := names_resolveFields site 0 c.fields
  have closes := names_closeClass site c
  have later : Names (resolveFields site 0 c.fields >>= fun _ => closeClass site c) :=
    .bind fields fun _ => closes
  have lists := fields_apart_methods site
  have grown := (grown_resolveClass k c ⟨t, m⟩).holds run
  rw [resolveClass_eq] at run ⊢
  obtain ⟨u₁, f₁, ⟨t₁, m₁⟩, f₂, run₁, rest, rfl⟩ := (opens.seq_iff fun _ => later).mp run
  obtain ⟨u₂, f₂, ⟨t₂, m₂⟩, f₃, run₂, run₃, rfl⟩ := (fields.seq_iff fun _ => closes).mp rest
  have knows₁ := (ends_openClass site c ⟨t, m⟩).holds run₁
  obtain ⟨rfl, again₁⟩ := (OfTable.openClass site c).finishes run₁
  have grown₂ := ((binds_resolveFields site 0 c.fields ⟨t₁, m₁⟩).holds run₂).2
  have follows : Follows bound k _ _ (closeClass site c) := follows_closeClass c
  have grown₃ := (follows.grown ⟨t₂, m₂⟩).holds run₃
  have made₂ : ∀ s, site.itemsFrom 0 0 s → m₂.get? s = bound s := fun s hs => by
    rw [← made s (site.itemsFrom_sub 0 0 s hs), grown₃.same (lists s hs)]
  have here := first_sub_inClasses (.classAt k, c) cs
  have free : m₁.Free (site.itemsFrom 0 0) := (at'.free.down here).down (site.itemsFrom_sub 0 0)
  -- The fields of the class are in the table while the first run has not bound their types, so the
  -- runs do not stand beside each other yet, and these types are followed by themselves.
  obtain ⟨rfl, again₂⟩ := again_resolveFields c.fields free run₂ fun s hs => by
    rw [at'.waits s (here s (site.itemsFrom_sub 0 0 s hs)), made₂ s hs]
  obtain ⟨u₃, f₃', n', again₃, adds, knows₃⟩ := follows.again
    (at'.beside sited knows₁ grown₂ made₂) run₃ fun s hs => made s (site.itemsFrom_sub 1 0 s hs)
  refine ⟨_, n', (opens.seq_iff fun _ => later).mpr ⟨u₁, f₁, _, _, again₁ n,
    (fields.seq_iff fun _ => closes).mpr ⟨u₂, f₂, _, f₃', again₂, again₃, rfl⟩, rfl⟩, ?_, ?_⟩
  · have none : ¬ MissedAmong bound _ := missedAmong_fieldUses site 0 c.fields
    have after := (Adds.same (f := f₂) none).append adds
    have both := ((Adds.same (P := False) (f := f₁) id).append after).up (site.itemsFrom_sub 1 0)
    exact both.congr ((iff_of_eq (false_or _)).trans missedAmong_append.symm)
  · refine at'.next sited grown made adds.grown fun d known => ?_
    refine (knows₃ d known).imp (knows₁ d) fun new home hd => ?_
    exact ⟨(new home hd).1.trans (site.itemsFrom_sub 1 0), (new home hd).2⟩

/-- It follows the first from class to class. -/
theorem again_resolveClasses (at' : AtClasses bound t m n cs) (sited : Sited cs) {u : Unit}
    (run : Finishes (cs.forM fun (site, c) => resolveClass site c) ⟨t, m⟩ u found ⟨t', m'⟩)
    (made : ∀ s, inClasses cs s → m'.get? s = bound s) :
    ∃ found' n', Finishes (cs.forM fun (site, c) => resolveClass site c) ⟨t, n⟩ u found' ⟨t', n'⟩ ∧
      Adds bound (MissedAmong bound (cs.flatMap fun c => c.2.uses c.1)) (inClasses cs)
        found found' n n' := by
  induction cs generalizing t m n found with
  | nil =>
    obtain ⟨rfl, rfl, same⟩ := finishes_pure.mp run
    cases same
    exact ⟨{}, n, rfl, .same not_missedAmong_nil⟩
  | cons a rest ih =>
    obtain ⟨site, c⟩ := a
    obtain ⟨k, rfl⟩ := sited.sites _ List.mem_cons_self
    have names := names_resolveClass (.classAt k) c
    have names' : Names (rest.forM fun (site, c) => resolveClass site c) :=
      .forM fun _ _ => names_resolveClass _ _
    have here := first_sub_inClasses (.classAt k, c) rest
    have later := rest_sub_inClasses (.classAt k, c) rest
    obtain ⟨v, f₁, ⟨t₁, m₁⟩, f₂, run₁, run₂, rfl⟩ := (names.seq_iff fun _ => names').mp run
    have grown₂ := (grown_resolveClasses sited.tail ⟨t₁, m₁⟩).holds run₂
    obtain ⟨f₁', n₁, again₁, adds₁, at₁⟩ := again_resolveClass at' sited run₁ fun s hs => by
      rw [← made s (here s hs), grown₂.same (sited.apart s hs)]
    obtain ⟨f₂', n₂, again₂, adds₂⟩ := ih at₁ sited.tail run₂ fun s hs => made s (later s hs)
    refine ⟨_, n₂, (names.seq_iff fun _ => names').mpr
      ⟨v, f₁', ⟨t₁, n₁⟩, f₂', again₁, again₂, rfl⟩, ?_⟩
    rw [List.flatMap_cons]
    exact ((adds₁.up here).append (adds₂.up later)).congr missedAmong_append.symm

end AtClasses

theorem sited_registered (p : Program) (t : ScopeTable) : Sited (p.registered t) where
  sites c hc := by
    obtain ⟨k, -, site⟩ := Program.mem_sitedClasses.mp (List.mem_of_mem_filter hc)
    exact ⟨k, site⟩
  sorted := by
    refine List.Pairwise.filter _ ?_
    rw [Program.sitedClasses, List.pairwise_iff_getElem]
    intro i j hi hj less
    simp only [List.getElem_mapIdx, classNumber_classAt]
    exact less

/-- The references of a class stand in it. -/
theorem references_in_class (c : ClassDecl) (k : Nat) {u : Use} (hu : u ∈ c.uses (.classAt k))
    {r : Site × Reference} (hr : r ∈ u.references) : Site.classAt k <:+ r.1 := by
  have follows : Follows (fun _ => none) k _ _ (closeClass (.classAt k) c) := follows_closeClass c
  obtain ⟨site, m, hm, body⟩ := ClassDecl.mem_bodyUses hu hr
  have use : u ∈ m.uses (c.ref (.classAt k)) site :=
    List.mem_cons_of_mem _ (List.mem_append_right _ body)
  exact Site.itemsFrom_sub _ 1 0 _
    (follows.within u (List.mem_flatMap.mpr ⟨(site, m), hm, use⟩) r hr)

/-- Where nothing is bound but in the classes that were registered, no link was missed but in
them. -/
theorem missed_links_iff {p : Program}
    (unbound : ∀ s, ¬ inClasses (p.registered t) s → bound s = none) :
    MissedAmong bound ((p.registered t).flatMap fun c => c.2.uses c.1) ↔
      ∃ l ∈ p.links, Missed bound l := by
  constructor
  · rintro ⟨u, hu, r, hr, l, hl, missed⟩
    obtain ⟨c, hc, hu⟩ := List.mem_flatMap.mp hu
    have use : u ∈ p.uses := List.mem_flatMap.mpr ⟨c, List.mem_of_mem_filter hc, hu⟩
    exact ⟨l, List.mem_flatMap.mpr ⟨u, use, List.mem_flatMap.mpr ⟨r, hr, hl⟩⟩, missed⟩
  · rintro ⟨l, hl, missed⟩
    obtain ⟨u, hu, hl⟩ := List.mem_flatMap.mp hl
    obtain ⟨r, hr, hl⟩ := List.mem_flatMap.mp hl
    obtain ⟨⟨site, c⟩, hc, hu⟩ := List.mem_flatMap.mp hu
    obtain ⟨k, hk, rfl⟩ := Program.mem_sitedClasses.mp hc
    have below := (references_in_class c k hu hr).trans (Reference.links_below l hl)
    -- A class whose name was taken is not resolved. Nothing is bound in it, so none of its links
    -- has a qualifier that is bound, and none was missed.
    have registered : (Site.classAt k, c) ∈ p.registered t := by
      by_contra not
      obtain ⟨site, link⟩ := l
      cases link with
      | this | ident | unknown => exact missed
      | qualified qualifier name pos =>
        obtain ⟨home, f, id, pos', cls, known, -⟩ := missed
        rw [unbound] at known
        · cases known
        · rintro ⟨⟨site', c'⟩, hc', here⟩
          obtain ⟨j, hj, rfl⟩ := Program.mem_sitedClasses.mp (List.mem_of_mem_filter hc')
          have same : j = k := by
            by_contra other
            exact Site.apart_classAt other _ here (below.trans (site.suffix_child 0))
          subst same
          cases hk.symm.trans hj
          exact not hc'
    exact ⟨u, List.mem_flatMap.mpr ⟨_, registered, hu⟩, r, hr, l, hl, missed⟩

/-- The second run follows the first one through the program. -/
theorem again_resolve {p : Program} {u : Unit} (run : Finishes (resolve p) {} u found ⟨t, m⟩) :
    ∃ found' n', Finishes (resolve p) ⟨{}, m⟩ u found' ⟨t, n'⟩ ∧
      Adds m.get? (∃ l ∈ p.links, Missed m.get? l) (fun _ => True) found found' m n' := by
  have collects := names_collect p
  have each (cs : List (Site × ClassDecl)) : Names (cs.forM fun (site, c) => resolveClass site c) :=
    .forM fun _ _ => names_resolveClass _ _
  have rest : Names (do
      let t ← table
      (p.registered t).forM fun (site, c) => resolveClass site c) :=
    .bind names_table fun t => each _
  obtain ⟨v, f₁, ⟨t₁, m₁⟩, f₂, run₁, run₂, rfl⟩ := (collects.seq_iff fun _ => rest).mp run
  obtain ⟨rfl, again₁⟩ := (OfTable.collect p).finishes run₁
  have gains := (ends_collect p {}).holds run₁
  have classes :
      Finishes ((p.registered t₁).forM fun (site, c) => resolveClass site c) ⟨t₁, {}⟩ u f₂
    ⟨t, m⟩ := run₂
  have sited := sited_registered p t₁
  have grown := (grown_resolveClasses sited ⟨t₁, {}⟩).holds classes
  have start : AtClasses m.get? t₁ {} m (p.registered t₁) := by
    refine ⟨fun _ _ => rfl, fun _ _ => rfl, fun d known home hd => ⟨.inr ?_, fun _ _ => rfl⟩⟩
    rcases gains.knows d known with (⟨name, mem⟩ | ⟨key, mem⟩) | collected
    · cases mem
    · cases mem
    · exact field_of_collected collected hd
  obtain ⟨f₂', n', again₂, adds⟩ := again_resolveClasses start sited classes fun _ _ => rfl
  refine ⟨_, n', (collects.seq_iff fun _ => rest).mpr
    ⟨v, f₁, ⟨t₁, m⟩, f₂', again₁ m, again₂, rfl⟩, ?_⟩
  have both := (Adds.same (P := False) (f := f₁) id).append adds
  refine (both.up fun _ _ => trivial).congr ((iff_of_eq (false_or _)).trans (missed_links_iff ?_))
  exact fun s outside => grown.same outside

end Resolving

end JamCompiler
