import JamCompiler.Proofs.Accepted
import JamCompiler.Proofs.Emission.Items
import JamCompiler.Proofs.Typing.Values

/-!
# The code of methods

Where the code of each method stands in the object code: from its address up to that of the next
method, or to the end. Bodies end with a return, so this code is never empty and no two methods have
one address.
-/

namespace JamCompiler

open Machine Emission Generation

namespace MethodDecl

variable {m m' : MethodDecl}

theorem head_of_returning (h : m.returning = .ok m') : m'.head = m.head := by
  unfold returning at h
  split at h
  · cases h
    rfl
  · split at h
    · cases h
      rfl
    · split at h <;> cases h
      rfl

/-- A body to which no return is added has one; one is added to an empty body and to one of a method
without a result. -/
theorem body_of_returning (h : m.returning = .ok m') :
    (m'.body = m.body ∧ ∃ front last, m.body = front ++ [last] ∧ last.isReturn) ∨
      (∃ pos, m'.body = m.body ++ [.ret none pos]) ∧ (m.body = [] ∨ m.head.result.isVoid) := by
  unfold returning at h
  split at h
  · rename_i empty
    cases h
    have none : m.body = [] := List.getLast?_eq_none_iff.mp empty
    exact .inr ⟨⟨m.head.pos, by simp [none]⟩, .inl none⟩
  · rename_i last found
    obtain ⟨front, body⟩ := List.getLast?_eq_some_iff.mp found
    split at h
    · rename_i isReturn
      cases h
      exact .inl ⟨rfl, front, last, body, isReturn⟩
    · split at h
      · rename_i void
        cases h
        exact .inr ⟨⟨last.pos, rfl⟩, .inr void⟩
      · cases h

/-- Every body ends with a return in the end. -/
theorem last_of_returning (h : m.returning = .ok m') :
    ∃ front last, m'.body = front ++ [last] ∧ last.isReturn := by
  rcases body_of_returning h with ⟨same, front, last, body, isReturn⟩ | ⟨⟨pos, body⟩, -⟩
  · exact ⟨front, last, same.trans body, isReturn⟩
  · exact ⟨m.body, .ret none pos, body, rfl⟩

end MethodDecl

namespace Generation

theorem forall₂_returningMethods {ms ms' : List MethodDecl}
    (h : returningMethods ms = (ms', none)) :
    List.Forall₂ (fun m m' => m.returning = .ok m') ms ms' := by
  induction ms generalizing ms' with
  | nil =>
    cases h
    exact .nil
  | cons m rest ih =>
    unfold returningMethods at h
    cases first : m.returning with
    | error fault =>
      simp only [first] at h
      cases h
    | ok m₁ =>
      simp only [first] at h
      cases later : returningMethods rest with
      | mk rest' fault =>
        simp only [later] at h
        cases h
        exact .cons first (ih later)

theorem forall₂_returningClasses {cs cs' : List ClassDecl}
    (h : returningClasses cs = (cs', none)) :
    List.Forall₂ (fun c c' => c' = { c with methods := c'.methods } ∧
      List.Forall₂ (fun m m' => m.returning = .ok m') c.methods c'.methods) cs cs' := by
  induction cs generalizing cs' with
  | nil =>
    cases h
    exact .nil
  | cons c rest ih =>
    unfold returningClasses at h
    cases first : returningMethods c.methods with
    | mk methods fault =>
      cases fault with
      | some fault =>
        simp only [first] at h
        cases h
      | none =>
        simp only [first] at h
        cases later : returningClasses rest with
        | mk rest' fault =>
          simp only [later] at h
          cases h
          exact .cons ⟨rfl, forall₂_returningMethods first⟩ (ih later)

theorem forall₂_mapIdx {α β γ δ : Type} {R : α → β → Prop} {S : γ → δ → Prop}
    {f : Nat → α → γ} {g : Nat → β → δ} {as : List α} {bs : List β} (h : List.Forall₂ R as bs)
    (both : ∀ i a b, R a b → S (f i a) (g i b)) :
    List.Forall₂ S (as.mapIdx f) (bs.mapIdx g) := by
  induction h generalizing f g with
  | nil => exact .nil
  | cons first _ ih =>
    rw [List.mapIdx_cons, List.mapIdx_cons]
    exact .cons (both 0 _ _ first) (ih fun i => both (i + 1))

/-- Methods with returns stand where the methods without them stood. -/
theorem forall₂_sitedMethods {p p' : Program}
    (h : returningClasses p.classes = (p'.classes, none)) :
    List.Forall₂ (fun s s' => s'.1 = s.1 ∧ s.2.returning = .ok s'.2) p.sitedMethods
      p'.sitedMethods := by
  have classes : List.Forall₂ (fun (s s' : Site × ClassDecl) => s'.1 = s.1 ∧
      List.Forall₂ (fun m m' => m.returning = .ok m') s.2.methods s'.2.methods)
      p.sitedClasses p'.sitedClasses :=
    forall₂_mapIdx (forall₂_returningClasses h) fun _ _ _ both => ⟨rfl, both.2⟩
  refine List.rel_flatMap classes ?_
  rintro ⟨site, c⟩ ⟨site', c'⟩ ⟨rfl, methods⟩
  exact forall₂_mapIdx methods fun _ _ _ made => ⟨rfl, made⟩

theorem exists_of_forall₂ {α β : Type} {R : α → β → Prop} {as : List α} {bs : List β}
    (h : List.Forall₂ R as bs) {a : α} (ha : a ∈ as) : ∃ b ∈ bs, R a b := by
  induction h with
  | nil => cases ha
  | cons first _ ih =>
    rcases List.mem_cons.mp ha with rfl | ha
    · exact ⟨_, List.mem_cons_self, first⟩
    · obtain ⟨b, hb, both⟩ := ih ha
      exact ⟨b, List.mem_cons_of_mem _ hb, both⟩

section Generated

variable {p p' : Program} {env : Env} {main : Site × MethodHead} {code : Code} {o : ObjectCode}

theorem Generated.returned (h : Generated p p' env main code o) {site : Site} {m : MethodDecl}
    (hm : (site, m) ∈ p.sitedMethods) :
    ∃ m', (site, m') ∈ p'.sitedMethods ∧ m.returning = .ok m' := by
  obtain ⟨⟨site', m'⟩, hm', rfl, returning⟩ :=
    exists_of_forall₂ (forall₂_sitedMethods h.returning) hm
  exact ⟨m', hm', returning⟩

theorem Generated.original (h : Generated p p' env main code o) {site : Site} {m' : MethodDecl}
    (hm : (site, m') ∈ p'.sitedMethods) :
    ∃ m, (site, m) ∈ p.sitedMethods ∧ m.returning = .ok m' := by
  obtain ⟨⟨site', m⟩, hm', rfl, returning⟩ :=
    exists_of_forall₂ (forall₂_sitedMethods h.returning).flip hm
  exact ⟨m, hm', returning⟩

end Generated

end Generation

namespace Emission

/-- The code of a body with a return ends with one. -/
theorem code_of_returning {m m' : MethodDecl} (h : m.returning = .ok m') {env : Env}
    {site : Site} {t : Tree} (made : m'.tree env site = .ok t) :
    ∃ (u : Tree) (words : Int), t.size = u.size + 1 ∧ (∀ P, t.All P → u.All P) ∧
      ∀ base, t.code base = u.code base ++ [returnOf words m'.head.params.length] := by
  obtain ⟨t, inner, rfl⟩ := map_eq_ok.mp made
  obtain ⟨front, last, body, isReturn⟩ := MethodDecl.last_of_returning h
  rw [body] at inner
  obtain ⟨u, v, -, ending, -, size, all, code⟩ := Stmt.trees_append inner
  obtain ⟨w, made, rest⟩ := bind_eq_ok.mp ending
  cases rest
  cases last with
  | ret value pos =>
    cases value with
    | none =>
      cases made
      refine ⟨u.1, 0, size, fun P h => (all P h).1, fun base => ?_⟩
      rw [code]
      simp [Tree.code, returnOf]
    | some value =>
      obtain ⟨ending, marked, rfl⟩ := map_eq_ok.mp made
      obtain ⟨e, -, ends⟩ := bind_eq_ok.mp marked
      cases ends
      refine ⟨.seq u.1 e, 1, ?_, fun P h => ?_, fun base => ?_⟩
      · rw [size]
        simp only [Tree.size, List.length_singleton, List.length_nil]
        omega
      · obtain ⟨left, right⟩ := all P h
        exact ⟨left, right.1.1⟩
      · rw [code]
        simp [Tree.code, returnOf]
  | block | declare | assign | assignIndex | call | ifThen | ifElse | loop | unknown =>
    cases isReturn

theorem size_pos_of_returning {m m' : MethodDecl} (h : m.returning = .ok m') {env : Env}
    {site : Site} {t : Tree} (made : m'.tree env site = .ok t) : 0 < t.size := by
  obtain ⟨u, words, size, -⟩ := code_of_returning h made
  omega

end Emission

/-- A return without a value uses nothing. -/
theorem Stmt.usesFrom_append_ret {names : Resolving.Context} {locals : Scope} {sites : Nat → Site}
    {k : Nat} {stmts : List Stmt} {pos : Nat} :
    Stmt.usesFrom names locals sites k (stmts ++ [.ret none pos]) =
      Stmt.usesFrom names locals sites k stmts := by
  induction stmts generalizing locals k with
  | nil => simp [usesFrom, uses]
  | cons s rest ih => simp only [List.cons_append, usesFrom, ih]

namespace MethodDecl

variable {m m' : MethodDecl} {bound : Site → Option Decl} {env : Env} {site : Site}
variable {cls : ClassRef} {Q : Home → MethodHead → Prop}

/-- How many words the returns in the code of a method leave. -/
def wordsReturned (m : MethodDecl) : Int := if m.body = [] then 0 else m.head.result.words

/-- A body with returns is well typed in a method that returns so many words. -/
theorem wellTyped_of_returning (typed : m.WellTyped bound site) (h : m.returning = .ok m') :
    ∃ head : MethodHead, head.result.words = m.wordsReturned ∧
      (head.result = m.head.result ∨ head.result.isVoid) ∧
      Stmt.AllWellTyped ⟨bound, .user site, head⟩ site.body 0 m'.body := by
  rcases body_of_returning h with ⟨same, front, last, body, -⟩ | ⟨⟨pos, body⟩, empty | void⟩
  · have some : m.body ≠ [] := by simp [body]
    refine ⟨m.head, by rw [wordsReturned, if_neg some], .inl rfl, ?_⟩
    rw [same]
    exact typed
  · refine ⟨{ m.head with result := .base .void 0 }, by rw [wordsReturned, if_pos empty]; rfl,
      .inr rfl, ?_⟩
    rw [body, empty]
    exact ⟨rfl, trivial⟩
  · refine ⟨m.head, by rw [wordsReturned, TypeExpr.words, if_pos void, ite_self], .inl rfl, ?_⟩
    rw [body]
    exact Stmt.allWellTyped_append.mpr
      ⟨typed, (TypeExpr.viewAt_eq_void bound (.user site) _).mpr void, trivial⟩

/-- A body with returns has the same uses. -/
theorem uses_of_returning (h : m.returning = .ok m') :
    m'.bodyUses cls site = m.bodyUses cls site := by
  unfold bodyUses context scope
  rw [head_of_returning h]
  rcases body_of_returning h with ⟨same, -⟩ | ⟨⟨pos, body⟩, -⟩
  · rw [same]
  · rw [body, Stmt.usesFrom_append_ret]

/-- The code of a method with returns has only returns that leave so many words. -/
theorem only_tree (typed : m.WellTyped bound site) (h : m.returning = .ok m')
    (calls : ∀ u ∈ m.bodyUses cls site, u.Calls env.bound Q) :
    Only (m'.tree env site) (Tree.All (Ordinary Q m.wordsReturned m.head.params.length)) := by
  obtain ⟨head, words, -, typed⟩ := wellTyped_of_returning typed h
  rw [← uses_of_returning h] at calls
  unfold MethodDecl.tree
  rw [head_of_returning h, ← words]
  exact (only_stmtTrees ⟨bound, .user site, head⟩ linkageSize site.body 0 m'.body calls typed).map
    fun _ all => all

end MethodDecl

namespace Emission

/-- Methods live from the base on. -/
theorem MadeOf.located_le {env : Env} {base : Nat} {methods : List (Site × MethodDecl)}
    {code : Code} (h : MadeOf env base methods code) {s : Site × MethodDecl} (hs : s ∈ methods) :
    ∃ a, env.located s.1 = some (.code a) ∧ base ≤ a := by
  induction methods generalizing base code with
  | nil => cases hs
  | cons first rest ih =>
    obtain ⟨t, more, -, here, -, later⟩ := h
    rcases List.mem_cons.mp hs with rfl | hs
    · exact ⟨base, here, Nat.le_refl _⟩
    · obtain ⟨a, found, le⟩ := ih later hs
      exact ⟨a, found, Nat.le_trans (Nat.le_add_right _ _) le⟩

/-- The code of each method stands at its address, and after it comes that of another one or
nothing. -/
theorem MadeOf.split {env : Env} {base : Nat} {methods : List (Site × MethodDecl)} {code : Code}
    (h : MadeOf env base methods code) {site : Site} {m : MethodDecl} (hm : (site, m) ∈ methods) :
    ∃ t front back, m.tree env site = .ok t ∧
      env.located site = some (.code (base + front.length)) ∧
      code = front ++ (t.code (base + front.length) ++ back) ∧
      (back = [] ∨ ∃ s ∈ methods, env.located s.1 = some (.code (base + front.length + t.size))) ∧
      ∀ s ∈ methods, ∃ a, env.located s.1 = some (.code a) ∧
        (a ≤ base + front.length ∨ base + front.length + t.size ≤ a) := by
  induction methods generalizing base code with
  | nil => cases hm
  | cons first rest ih =>
    obtain ⟨t, more, made, here, rfl, later⟩ := h
    rcases List.mem_cons.mp hm with rfl | hm
    · refine ⟨t, [], more, made, here, rfl, ?_, ?_⟩
      · cases rest with
        | nil => exact .inl later
        | cons next rest =>
          obtain ⟨t', more', made', there, -⟩ := later
          exact .inr ⟨next, List.mem_cons_of_mem _ List.mem_cons_self, there⟩
      · intro s hs
        rcases List.mem_cons.mp hs with rfl | hs
        · exact ⟨base, here, .inl (Nat.le_refl _)⟩
        · obtain ⟨a, found, le⟩ := later.located_le hs
          exact ⟨a, found, .inr le⟩
    · obtain ⟨t', front, back, made', there, rfl, next, others⟩ := ih later hm
      have shift : base + (t.code base ++ front).length = base + t.size + front.length := by
        simp [Nat.add_assoc]
      refine ⟨t', t.code base ++ front, back, made', ?_, ?_, ?_, ?_⟩
      · rw [shift]
        exact there
      · rw [shift, List.append_assoc]
      · rw [shift]
        exact next.imp_right fun ⟨s, hs, found⟩ => ⟨s, List.mem_cons_of_mem _ hs, found⟩
      · rw [shift]
        intro s hs
        rcases List.mem_cons.mp hs with rfl | hs
        · exact ⟨base, here, .inl (Nat.le_trans (Nat.le_add_right _ _) (Nat.le_add_right _ _))⟩
        · exact others s hs

end Emission

/-- Whether an address is in the code of a method, which goes from the address of the method up to
the next address of a method or to the end. -/
structure Compilation.InCode (c : Compilation) (o : ObjectCode) (site : Site) (a : Nat) : Prop where
  start : ∃ b, c.locations.get? site = some (.code b) ∧ b ≤ a
  inside : a < o.code.length
  next : ∀ s ∈ c.program.sitedMethods, ∀ b, c.locations.get? s.1 = some (.code b) →
    (∃ b', c.locations.get? site = some (.code b') ∧ b' < b) → a < b

/-- The code of a method in the object code: it is that of the tree of the method with returns, from
its address on, and no other code is in it. -/
structure MethodCode (c : Compilation) (o : ObjectCode) (site : Site) (m m' : MethodDecl) (t : Tree)
    (start : Nat) : Prop where
  returning : m.returning = .ok m'
  tree : m'.tree c.env site = .ok t
  located : c.locations.get? site = some (.code start)
  inCode : ∀ a, c.InCode o site a ↔ start ≤ a ∧ a < start + t.size
  linked : ∀ k item, (t.code start)[k]? = some item →
    ∃ i, o.code[start + k]? = some i ∧ Linked c.env item i

variable {p : Program} {c : Compilation} {o : ObjectCode}

theorem Generation.Generated.methodCode {main : Site × MethodHead} {code : Code}
    (h : Generated p c.program c.env main code o) {site : Site} {m : MethodDecl}
    (hm : (site, m) ∈ p.sitedMethods) : ∃ m' t start, MethodCode c o site m m' t start := by
  obtain ⟨m', hm', returning⟩ := h.returned hm
  obtain ⟨t, front, back, tree, located, split, next, others⟩ := h.methods.split hm'
  have size := size_pos_of_returning returning tree
  have total := h.length_code
  have fits : code.length = front.length + (t.size + back.length) := by
    rw [split]
    simp
  refine ⟨m', t, codeStart + front.length, returning, tree, located, fun a => ⟨fun inside => ?_,
    fun ⟨low, high⟩ => ⟨⟨_, located, low⟩, by omega, ?_⟩⟩, fun k item hk => ?_⟩
  · obtain ⟨b, here, low⟩ := inside.start
    cases located.symm.trans here
    refine ⟨low, ?_⟩
    rcases next with rfl | ⟨s, hs, there⟩
    · have within := inside.inside
      simp only [List.length_nil] at fits
      omega
    · exact inside.next s hs _ there ⟨_, located, by omega⟩
  · rintro s hs b there ⟨b', here, later⟩
    cases located.symm.trans here
    obtain ⟨b', there', apart⟩ := others s hs
    cases there.symm.trans there'
    omega
  · have inCode : code[front.length + k]? = some item := by
      have short : k < (t.code (codeStart + front.length)).length :=
        (List.getElem?_eq_some_iff.mp hk).1
      rw [split, List.getElem?_append_right (Nat.le_add_right _ _), Nat.add_sub_cancel_left,
        List.getElem?_append_left short, hk]
    rw [Nat.add_assoc]
    exact h.linked_at inCode

theorem Accepted.methodCode (h : Accepted p c o) {site : Site} {m : MethodDecl}
    (hm : (site, m) ∈ p.sitedMethods) : ∃ m' t start, MethodCode c o site m m' t start := by
  obtain ⟨main, code, generated⟩ := h.generated
  exact generated.methodCode hm

/-- The uses in the bodies of methods are uses of the program. -/
theorem Program.exists_bodyUses_subset {site : Site} {m : MethodDecl}
    (hm : (site, m) ∈ p.sitedMethods) :
    ∃ (k : Nat) (cls : ClassDecl), p.classes[k]? = some cls ∧
      (site, m) ∈ cls.sitedMethods (.classAt k) ∧
      m.bodyUses (cls.ref (.classAt k)) site ⊆ p.uses := by
  obtain ⟨k, cls, hk, hc⟩ := Program.mem_sitedMethods.mp hm
  refine ⟨k, cls, hk, hc, fun u hu => ?_⟩
  exact List.mem_flatMap.mpr ⟨(.classAt k, cls), Program.mem_sitedClasses.mpr ⟨k, hk, rfl⟩,
    ClassDecl.bodyUses_subset hc hu⟩

/-- The code of a method consists of ordinary items, which call methods of the program. -/
theorem Program.Checked.ordinary {env : Env} (h : p.Checked env.bound) {site : Site}
    {m m' : MethodDecl} {t : Tree} (hm : (site, m) ∈ p.sitedMethods)
    (returning : m.returning = .ok m') (made : m'.tree env site = .ok t) :
    t.All (Ordinary p.HasMethod m.wordsReturned m.head.params.length) := by
  obtain ⟨k, cls, -, -, uses⟩ := Program.exists_bodyUses_subset hm
  have calls : ∀ u ∈ m.bodyUses (cls.ref (.classAt k)) site, u.Calls env.bound p.HasMethod :=
    fun u hu l hl home head found =>
      (h.settled.sound h.resolvable h.written (uses hu) hl).method home head found
  exact (MethodDecl.only_tree (h.typed _ hm) returning calls).holds made

theorem Accepted.ordinary (h : Accepted p c o) {site : Site} {m m' : MethodDecl} {t : Tree}
    (hm : (site, m) ∈ p.sitedMethods) (returning : m.returning = .ok m')
    (made : m'.tree c.env site = .ok t) :
    t.All (Ordinary p.HasMethod m.wordsReturned m.head.params.length) :=
  h.toChecked.ordinary hm returning made

/-- Each instruction of the code of a method is an item of its tree. -/
theorem MethodCode.item {site : Site} {m m' : MethodDecl} {t : Tree} {start a : Nat}
    {i : Instruction} (h : MethodCode c o site m m' t start) (inside : c.InCode o site a)
    (hi : o.code[a]? = some i) :
    ∃ item, (t.code start)[a - start]? = some item ∧ Linked c.env item i := by
  obtain ⟨low, high⟩ := (h.inCode a).mp inside
  have within : a - start < (t.code start).length := by
    rw [Tree.length_code]
    omega
  have found := List.getElem?_eq_getElem within
  obtain ⟨i', hi', linked⟩ := h.linked _ _ found
  rw [Nat.add_sub_cancel' low, hi] at hi'
  cases hi'
  exact ⟨_, found, linked⟩

end JamCompiler
