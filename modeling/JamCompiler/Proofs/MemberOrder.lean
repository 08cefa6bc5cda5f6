import JamCompiler.Proofs.Collection

/-!
# The order of members

A class keeps its fields apart from its methods, so the order in which they were written together is
not in the tree. It can be found again by their positions. Each member stands at its name, and the
names come one after the other in the text, whatever is written before them or in the bodies between
them; so the members sorted by their positions are the members as they were written.
-/

namespace JamCompiler

namespace Member

/-- The declarations of members in the order in which they are written, where so many fields and
methods of the class come before them. -/
def declarations (cls : Site) : (fields methods : Nat) → List Member → List Decl
  | _, _, [] => []
  | i, j, .inl f :: ms => .field (.user (cls.field i)) f :: declarations cls (i + 1) j ms
  | i, j, .inr m :: ms => .method (.user (cls.method j)) m.head :: declarations cls i (j + 1) ms

/-- The same declarations, fields first. -/
theorem declarations_perm (cls : Site) (i j : Nat) (ms : List Member) :
    (declarations cls i j ms).Perm
    (((ms.filterMap Sum.getLeft?).mapIdx fun k f => Decl.field (.user (cls.field (i + k))) f) ++
      (ms.filterMap Sum.getRight?).mapIdx fun k m =>
        Decl.method (.user (cls.method (j + k))) m.head) := by
  induction ms generalizing i j with
  | nil => exact .refl _
  | cons m ms ih =>
    cases m with
    | inl f =>
      have fields : (.inl f :: ms : List Member).filterMap Sum.getLeft? =
          f :: ms.filterMap Sum.getLeft? := rfl
      rw [fields, mapIdx_cons_from fun k (f : FieldDecl) => Decl.field (.user (cls.field k)) f]
      exact (ih (i + 1) j).cons _
    | inr m =>
      have methods : (.inr m :: ms : List Member).filterMap Sum.getRight? =
          m :: ms.filterMap Sum.getRight? := rfl
      rw [methods,
        mapIdx_cons_from fun k (m : MethodDecl) => Decl.method (.user (cls.method k)) m.head]
      exact ((ih i (j + 1)).cons _).trans List.perm_middle.symm

theorem map_pos_declarations (cls : Site) (i j : Nat) (ms : List Member) :
    (declarations cls i j ms).map Decl.pos = ms.map Member.pos := by
  induction ms generalizing i j with
  | nil => rfl
  | cons m ms ih =>
    cases m with
    | inl f => exact congrArg (f.pos :: ·) (ih (i + 1) j)
    | inr m => exact congrArg (m.head.pos :: ·) (ih i (j + 1))

end Member

namespace ClassDecl

/-- A class whose members are written in the order of their positions has them in this order. -/
theorem members_ofMembers (name : String) {ms : List Member} (pos : Nat) (site : Site)
    (order : ms.Pairwise fun m m' => Member.pos m < Member.pos m') :
    (ofMembers name ms pos).members site = Member.declarations site 0 0 ms := by
  have perm : ((ofMembers name ms pos).members site).Perm (Member.declarations site 0 0 ms) := by
    have split := Member.declarations_perm site 0 0 ms
    simp only [Nat.zero_add] at split
    exact ((ofMembers name ms pos).members_perm site).trans split.symm
  have sorted : (Member.declarations site 0 0 ms).Pairwise fun d e => d.pos < e.pos := by
    rw [← List.pairwise_map, Member.map_pos_declarations, List.pairwise_map]
    exact order
  refine perm.eq_of_pairwise ?_ (members_sorted_ofMembers name pos site order) sorted
  exact fun d e _ _ less more => absurd less (Nat.lt_asymm more)

/-- Whether a class is written among some tokens with its members one after the other. -/
structure WrittenWith (c : ClassDecl) (ms : List Member) (tokens : List Token) : Prop where
  parts : c = ofMembers c.name ms c.pos
  spelled : ∃ t n l ts, t :: n :: l :: ts <:+: tokens ∧ t.kind = .keyword .classWord ∧
    n.kind = .ident c.name ∧ n.pos = c.pos ∧ l.kind = .symbol .lbrace ∧ Member.SpelledAll ms ts

theorem WrittenWith.mono {c : ClassDecl} {ms : List Member} {ts us : List Token}
    (h : c.WrittenWith ms us) (part : us <:+: ts) : c.WrittenWith ms ts := by
  obtain ⟨parts, t, n, l, vs, inside, spelled⟩ := h
  exact ⟨parts, t, n, l, vs, inside.trans part, spelled⟩

theorem Spelled.exists_writtenWith {c : ClassDecl} {ts : List Token} (h : c.Spelled ts)
    (sorted : (ts.map Token.pos).Pairwise (· < ·)) :
    ∃ ms, c.WrittenWith ms ts ∧ ms.Pairwise fun m m' => Member.pos m < Member.pos m' := by
  cases h with
  | @mk t n l name ms ts word cls left members =>
    refine ⟨ms, ⟨rfl, t, n, l, ts, List.infix_rfl, word, cls, rfl, left, members⟩,
      members.sorted ?_⟩
    simpa using (((List.pairwise_cons.mp sorted).2).of_cons).of_cons

theorem SpelledAll.exists_writtenWith {cs : List ClassDecl} {ts : List Token}
    (h : ClassDecl.SpelledAll cs ts) (sorted : (ts.map Token.pos).Pairwise (· < ·)) :
    ∀ c ∈ cs, ∃ ms, c.WrittenWith ms ts ∧ ms.Pairwise fun m m' => Member.pos m < Member.pos m' := by
  induction h with
  | done => exact nofun
  | @more c cs us vs first _ ih =>
    rw [List.map_append, List.pairwise_append] at sorted
    refine List.forall_mem_cons.mpr ⟨?_, fun c hc => ?_⟩
    · obtain ⟨ms, written, order⟩ := first.exists_writtenWith sorted.1
      exact ⟨ms, written.mono (List.prefix_append us vs).isInfix, order⟩
    · obtain ⟨ms, written, order⟩ := ih sorted.2.1 c hc
      exact ⟨ms, written.mono (List.suffix_append us vs).isInfix, order⟩

end ClassDecl

/-- The members of a class that is read from a text are those that are written in it, in the order
in which they are written, because their positions increase in this order; and no member comes
twice. -/
theorem members_in_source_order {text : List Char} {p : Program}
    (read : Program.ofText? text = .ok p) :
    ∀ c ∈ p.sitedClasses, ∃ ms, c.2.WrittenWith ms (Scan.ofText text).tokens ∧
      (ms.map Member.pos).Pairwise (· < ·) ∧ c.2.members c.1 = Member.declarations c.1 0 0 ms ∧
      (c.2.members c.1).Nodup := by
  intro c hc
  obtain ⟨k, there, -⟩ := Program.mem_sitedClasses.mp hc
  have spelled := (Program.ReadAs.ok_iff.mp read).2.2
  obtain ⟨ms, written, order⟩ :=
    spelled.exists_writtenWith (Scan.sorted_tokens text) c.2 (List.mem_of_getElem? there)
  refine ⟨ms, written, List.pairwise_map.mpr order, ?_, ?_⟩
  · rw [written.parts]
    exact ClassDecl.members_ofMembers _ _ _ order
  · refine (Program.members_sorted read c hc).imp fun {d e} less => ?_
    rintro rfl
    exact Nat.lt_irrefl _ less

/-- A class that begins with a method, with bodies and modifiers between the names of its
members. -/
def mixedMembersText : List Char :=
  ("class A \x7b void m() \x7b int x = 1; \x7d public static int a; " ++
    "private int f(int n) \x7b return n; \x7d boolean b; \x7d").toList

theorem mixedMembersText_order : ∃ p, Program.ofText? mixedMembersText = .ok p ∧
    p.sitedClasses.map (fun c => (c.2.members c.1).map Decl.name) = [["m", "a", "f", "b"]] ∧
    ∀ c ∈ p.sitedClasses, ∃ ms, c.2.WrittenWith ms (Scan.ofText mixedMembersText).tokens ∧
      (ms.map Member.pos).Pairwise (· < ·) ∧ c.2.members c.1 = Member.declarations c.1 0 0 ms ∧
      (c.2.members c.1).Nodup := by
  obtain ⟨p, parsed, names⟩ := exists_ok_of_any (x := Program.ofText? mixedMembersText)
    (P := fun p => p.sitedClasses.map (fun c => (c.2.members c.1).map Decl.name) =
      [["m", "a", "f", "b"]])
    (by decide +kernel)
  exact ⟨p, parsed, of_decide_eq_true names, members_in_source_order parsed⟩

end JamCompiler
