import JamCompiler.Proofs.Emission.Ranges

/-!
# Pieces of code

The marked pieces of a tree with the addresses at which their code stands. The code of each of them
is a part of the code of the whole, so it stands in the object code as well, with addresses in its
calls.
-/

namespace JamCompiler

open Machine Emission Generation

/-- Whether some code stands in the object code from an address on. -/
def Compilation.Stands (c : Compilation) (o : ObjectCode) (a : Nat) (code : Code) : Prop :=
  ∀ k item, code[k]? = some item → ∃ i, o.code[a + k]? = some i ∧ Linked c.env item i

namespace Emission.Tree

/-- The marked pieces of a tree at an address, each with its own address. -/
def pieces (base : Nat) : Tree → List (Nat × Mark × Tree)
  | straight _ => []
  | seq first second => first.pieces base ++ second.pieces (base + first.size)
  | shortCut _ first second _ => first.pieces base ++ second.pieces (base + first.size + 2)
  | ifThen test body => test.pieces base ++ body.pieces (base + test.size + 1)
  | ifElse test body other =>
    test.pieces base ++ body.pieces (base + test.size + 1)
      ++ other.pieces (base + test.size + 1 + body.size + 1)
  | loop test body => body.pieces (base + 1) ++ test.pieces (base + 1 + body.size)
  | marked mark code => (base, mark, code) :: code.pieces base

/-- Whether some code is a part of other code, as far from its beginning as the addresses are. -/
def PartOf (a : Nat) (code : Code) (base : Nat) (whole : Code) : Prop :=
  ∃ front back, whole = front ++ (code ++ back) ∧ a = base + front.length

section PartOf

variable {a base base' : Nat} {code whole before after : Code}

theorem PartOf.refl (a : Nat) (code : Code) : PartOf a code a code := ⟨[], [], by simp, rfl⟩

/-- A part of what stands between other code. -/
theorem PartOf.within (h : PartOf a code base' whole) (before after : Code)
    (there : base' = base + before.length) : PartOf a code base (before ++ (whole ++ after)) := by
  obtain ⟨front, back, rfl, rfl⟩ := h
  refine ⟨before ++ front, back ++ after, by simp only [List.append_assoc], ?_⟩
  rw [there, List.length_append, Nat.add_assoc]

theorem PartOf.right (h : PartOf a code base' whole) (before : Code)
    (there : base' = base + before.length) : PartOf a code base (before ++ whole) := by
  have within := h.within before [] there
  rwa [List.append_nil] at within

theorem PartOf.left (h : PartOf a code base whole) (after : Code) :
    PartOf a code base (whole ++ after) :=
  h.within [] after rfl

end PartOf

/-- The code of a piece is a part of the code of its tree. -/
theorem partOf_of_pieces {t : Tree} {base a : Nat} {mark : Mark} {u : Tree}
    (h : (a, mark, u) ∈ t.pieces base) : PartOf a (u.code a) base (t.code base) := by
  induction t generalizing base with
  | straight items => cases h
  | seq first second ih ih' =>
    rcases List.mem_append.mp h with h | h
    · exact (ih h).left _
    · exact (ih' h).right _ (by simp)
  | shortCut decides first second p ih ih' | ifThen test body ih ih' =>
    rcases List.mem_append.mp h with h | h
    · exact (((ih h).left _).left _).left _
    · exact ((ih' h).right _ (by simp [Nat.add_assoc])).left _
  | ifElse test body other ih ih' ih'' =>
    rcases List.mem_append.mp h with h | h
    · rcases List.mem_append.mp h with h | h
      · exact ((((ih h).left _).left _).left _).left _
      · exact (((ih' h).right _ (by simp [Nat.add_assoc])).left _).left _
    · exact (ih'' h).right _ (by simp; omega)
  | loop test body ih ih' =>
    rcases List.mem_append.mp h with h | h
    · exact (((ih' h).right _ (by simp)).left _).left _
    · exact ((ih h).right _ (by simp; omega)).left _
  | marked mark' inner ih =>
    rcases List.mem_cons.mp h with h | h
    · cases h
      exact .refl _ _
    · exact ih h

end Emission.Tree

section Stands

variable {c : Compilation} {o : ObjectCode}

theorem Compilation.Stands.part {a base : Nat} {code whole : Code} (h : c.Stands o base whole)
    (part : Tree.PartOf a code base whole) : c.Stands o a code := by
  obtain ⟨front, back, rfl, rfl⟩ := part
  intro k item found
  have short : k < code.length := (List.getElem?_eq_some_iff.mp found).1
  have inWhole : (front ++ (code ++ back))[front.length + k]? = some item := by
    rw [List.getElem?_append_right (Nat.le_add_right _ _), Nat.add_sub_cancel_left,
      List.getElem?_append_left short, found]
  rw [Nat.add_assoc]
  exact h _ _ inWhole

/-- The code of a piece of a method stands in the object code. -/
theorem MethodCode.piece {site : Site} {m m' : MethodDecl} {t : Tree} {start a : Nat} {mark : Mark}
    {u : Tree} (h : MethodCode c o site m m' t start) (piece : (a, mark, u) ∈ t.pieces start) :
    c.Stands o a (u.code a) :=
  Compilation.Stands.part h.linked (Tree.partOf_of_pieces piece)

end Stands

end JamCompiler
