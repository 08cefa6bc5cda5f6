import JamCompiler.Proofs.Emission.Control

/-!
# Stack depths in trees

What instructions take off the stack and leave on it, and when a depth for every address of a tree
is right: each item finds what it takes above a floor, all ways to an address agree, statements
begin where the next local gets its slot, and values leave one word. `Tree.Takes` says the same of a
tree from its ends alone, without addresses; where it holds there are such depths,
`Tree.Takes.keeps`.
-/

namespace JamCompiler

open Machine

/-- How many words a primitive takes and leaves. -/
def Machine.Primitive.effect? : Primitive → Option (Nat × Nat)
  | .neg | .not | .newarr | .arraylen => some (1, 1)
  | .and | .or | .add | .sub | .mult | .div | .mod | .lt | .le | .ge | .gt | .eq | .ne
  | .arrayref | .fieldref | .newobj => some (2, 1)
  | .arrayupd | .fieldupd => some (3, 0)
  | .putintnl => some (1, 0)
  | _ => none

/-- How many words a call of a method takes and leaves: its arguments and the receiver, and a result
exactly if its declared type is not `void`. -/
def MethodHead.effect (head : MethodHead) (receiver : Bool) : Nat × Nat :=
  (head.params.length + receiver.toNat, if head.result.isVoid then 0 else 1)

/-- How many words an instruction takes and leaves, where `callee` knows the methods at
addresses. -/
def Machine.Instruction.effect? (callee : Int → Option MethodHead) (i : Instruction) :
    Option (Nat × Nat) :=
  match i.op, i.r with
  | .load, _ | .loada, _ | .loadl, _ => some (0, 1)
  | .store, _ | .jumpif, _ => some (1, 0)
  | .jump, _ => some (0, 0)
  | .pop, _ => some (i.d.toNat, 0)
  | .ret, _ => some (i.n.toNat, 0)
  | .call, .cb => (callee i.d).map (·.effect false)
  | .call, .pb => (Primitive.ofNumber? i.d).bind Primitive.effect?
  | .calli, .cb => (callee i.d).map (·.effect true)
  | _, _ => none

/-- The same for an item of code, which knows the method that it calls. -/
def Item.effect? : Item → Option (Nat × Nat)
  | .instr i => i.effect? fun _ => none
  | .call receiver (.method _ head) => some (head.effect receiver)
  | .call .. => none

namespace Emission

theorem effect_prim (p : Primitive) : (prim p).effect? = p.effect? := by
  rw [prim, Item.effect?, Instruction.prim, Instruction.effect?, Primitive.ofNumber?_number]
  rfl

section Step

variable {depth depth' : Nat → Nat} {floor floor' a : Nat} {item : Item}

/-- An item at an address takes nothing from below a floor, and the depth is right where control
goes from it. -/
def Step (depth : Nat → Nat) (floor a : Nat) (item : Item) : Prop :=
  ∃ pops pushes, item.effect? = some (pops, pushes) ∧ floor + pops ≤ depth a ∧
    ∀ x, item.LeadsTo a x → depth x + pops = depth a + pushes

theorem Step.mono (h : Step depth floor a item) (le : floor' ≤ floor) :
    Step depth floor' a item := by
  obtain ⟨pops, pushes, effect, enough, leads⟩ := h
  exact ⟨pops, pushes, effect, by omega, leads⟩

theorem Step.congr (h : Step depth floor a item) (here : depth' a = depth a)
    (there : ∀ x, item.LeadsTo a x → depth' x = depth x) : Step depth' floor a item := by
  obtain ⟨pops, pushes, effect, enough, leads⟩ := h
  refine ⟨pops, pushes, effect, by rw [here]; exact enough, fun x hx => ?_⟩
  rw [here, there x hx]
  exact leads x hx

theorem step_copy (enough : floor ≤ depth a) (next : depth (a + 1) = depth a + 1) :
    Step depth floor a (.instr { op := .load, r := .st, d := -1 }) := by
  refine ⟨0, 1, rfl, enough, fun x hx => ?_⟩
  obtain rfl : x = a + 1 := hx
  exact next

theorem step_jump {target : Nat} (enough : floor ≤ depth a) (same : depth target = depth a) :
    Step depth floor a (jump target) := by
  refine ⟨0, 0, rfl, enough, fun x hx => ?_⟩
  obtain rfl := jump_leadsTo.mp hx
  rw [same]

theorem step_jumpIf {value : Bool} {target : Nat} (enough : floor + 1 ≤ depth a)
    (next : depth (a + 1) + 1 = depth a) (same : depth target + 1 = depth a) :
    Step depth floor a (jumpIf value target) := by
  refine ⟨1, 0, rfl, enough, fun x hx => ?_⟩
  rcases jumpIf_leadsTo.mp hx with rfl | rfl
  · exact next
  · exact same

theorem step_prim {p : Primitive} {pops pushes : Nat} (effect : p.effect? = some (pops, pushes))
    (enough : floor + pops ≤ depth a) (next : depth (a + 1) + pops = depth a + pushes) :
    Step depth floor a (prim p) := by
  refine ⟨pops, pushes, (effect_prim p).trans effect, enough, fun x hx => ?_⟩
  obtain rfl := ((next_prim p).leadsTo_iff a x).mp hx
  exact next

end Step

namespace Tree

/-- Whether the depths at the addresses of a tree that stands at an address are right. -/
def Keeps (depth : Nat → Nat) : Nat → Nat → Tree → Prop
  | floor, base, straight items =>
    ∀ k item, items[k]? = some item → Step depth floor (base + k) item
  | floor, base, seq first second =>
    Keeps depth floor base first ∧ Keeps depth floor (base + first.size) second
  | floor, base, shortCut decides first second p =>
    let middle := base + first.size
    Keeps depth floor base first ∧
      Step depth floor middle (.instr { op := .load, r := .st, d := -1 }) ∧
      Step depth floor (middle + 1) (jumpIf decides (middle + 2 + second.size + 1)) ∧
      Keeps depth floor (middle + 2) second ∧ Step depth floor (middle + 2 + second.size) (prim p)
  | floor, base, ifThen test body =>
    let middle := base + test.size
    Keeps depth floor base test ∧
      Step depth floor middle (jumpIf false (middle + 1 + body.size + 1)) ∧
      Keeps depth floor (middle + 1) body ∧
      Step depth floor (middle + 1 + body.size) (jump (middle + 1 + body.size + 1))
  | floor, base, ifElse test body other =>
    let middle := base + test.size
    let last := middle + 1 + body.size
    Keeps depth floor base test ∧ Step depth floor middle (jumpIf false (last + 1)) ∧
      Keeps depth floor (middle + 1) body ∧ Step depth floor last (jump (last + 1 + other.size)) ∧
      Keeps depth floor (last + 1) other
  | floor, base, loop test body =>
    let middle := base + 1 + body.size
    Step depth floor base (jump middle) ∧ Keeps depth floor (base + 1) body ∧
      Keeps depth floor middle test ∧ Step depth floor (middle + test.size) (jumpIf true (base + 1))
  | floor, base, marked (.stmt slot) code =>
    depth base = slot ∧ floor ≤ slot ∧ Keeps depth slot base code
  | floor, base, marked _ code =>
    depth (base + code.size) = depth base + 1 ∧ Keeps depth floor base code

variable {depth depth' : Nat → Nat} {floor base a : Nat} {t : Tree} {item : Item}

/-- The depths are right for all items. -/
theorem Keeps.step (h : t.Keeps depth floor base) (found : At (t.code base) base a item) :
    Step depth floor a item := by
  induction t generalizing base floor with
  | straight items =>
    have here := h (a - base) item found.2
    rwa [Nat.add_sub_cancel' found.1] at here
  | marked mark code ih =>
    cases mark with
    | stmt slot => exact (ih h.2.2 found).mono h.2.1
    | value | load => exact ih h.2 found
  | seq first second ih ih' =>
    rcases at_seq.mp found with found | found
    · exact ih h.1 found
    · exact ih' h.2 found
  | shortCut decides first second p ih ih' =>
    obtain ⟨inFirst, copy, jumps, inSecond, last⟩ := h
    rcases at_shortCut.mp found with found | ⟨rfl, rfl⟩ | ⟨rfl, rfl⟩ | found | ⟨rfl, rfl⟩
    · exact ih inFirst found
    · exact copy
    · exact jumps
    · exact ih' inSecond found
    · exact last
  | ifThen test body ih ih' =>
    obtain ⟨inTest, jumps, inBody, last⟩ := h
    rcases at_ifThen.mp found with found | ⟨rfl, rfl⟩ | found | ⟨rfl, rfl⟩
    · exact ih inTest found
    · exact jumps
    · exact ih' inBody found
    · exact last
  | ifElse test body other ih ih' ih'' =>
    obtain ⟨inTest, jumps, inBody, last, inOther⟩ := h
    rcases at_ifElse.mp found with found | ⟨rfl, rfl⟩ | found | ⟨rfl, rfl⟩ | found
    · exact ih inTest found
    · exact jumps
    · exact ih' inBody found
    · exact last
    · exact ih'' inOther found
  | loop test body ih ih' =>
    obtain ⟨first, inBody, inTest, last⟩ := h
    rcases at_loop.mp found with ⟨rfl, rfl⟩ | found | found | ⟨rfl, rfl⟩
    · exact first
    · exact ih' inBody found
    · exact ih inTest found
    · exact last

/-- Whether control goes from an item to the next one, if anywhere. -/
def Onward (item : Item) : Prop := ∀ a x, item.LeadsTo a x → x = a + 1

theorem onward_of_ordinary {Q : Home → MethodHead → Prop} {words : Int} {arity : Nat}
    (h : Ordinary Q words arity item) : Onward item := by
  rcases h.next with rfl | next
  · exact fun _ _ leads => leads.elim
  · exact fun a x leads => (next.leadsTo_iff a x).mp leads

/-- Only the depths from the address of a tree up to the one after it matter. -/
theorem Keeps.congr (h : t.Keeps depth floor base) (all : t.All Onward)
    (same : ∀ x, base ≤ x → x ≤ base + t.size → depth' x = depth x) :
    t.Keeps depth' floor base := by
  induction t generalizing base floor with
  | straight items =>
    intro k item hk
    have within := (List.getElem?_eq_some_iff.mp hk).1
    simp only [size] at same
    refine (h k item hk).congr (same _ (by omega) (by omega)) fun x leads => ?_
    have next := all item (List.mem_of_getElem? hk) _ x leads
    exact same x (by omega) (by omega)
  | marked mark code ih =>
    simp only [size] at same
    cases mark with
    | stmt slot =>
      exact ⟨(same base (by omega) (by omega)).trans h.1, h.2.1, ih h.2.2 all same⟩
    | value | load =>
      refine ⟨?_, ih h.2 all same⟩
      rw [same base (by omega) (by omega), same _ (by omega) (by omega)]
      exact h.1
  | seq first second ih ih' =>
    simp only [size] at same
    exact ⟨ih h.1 all.1 fun x _ _ => same x (by omega) (by omega),
      ih' h.2 all.2 fun x _ _ => same x (by omega) (by omega)⟩
  | shortCut decides first second p ih ih' =>
    simp only [size] at same
    obtain ⟨inFirst, copy, jumps, inSecond, last⟩ := h
    refine ⟨ih inFirst all.1 fun x _ _ => same x (by omega) (by omega),
      copy.congr (same _ (by omega) (by omega)) fun x leads => ?_,
      jumps.congr (same _ (by omega) (by omega)) fun x leads => ?_,
      ih' inSecond all.2 fun x _ _ => same x (by omega) (by omega),
      last.congr (same _ (by omega) (by omega)) fun x leads => ?_⟩
    · have next := (next_copy.leadsTo_iff _ x).mp leads
      exact same x (by omega) (by omega)
    · have next := jumpIf_leadsTo.mp leads
      exact same x (by omega) (by omega)
    · have next := ((next_prim p).leadsTo_iff _ x).mp leads
      exact same x (by omega) (by omega)
  | ifThen test body ih ih' =>
    simp only [size] at same
    obtain ⟨inTest, jumps, inBody, last⟩ := h
    refine ⟨ih inTest all.1 fun x _ _ => same x (by omega) (by omega),
      jumps.congr (same _ (by omega) (by omega)) fun x leads => ?_,
      ih' inBody all.2 fun x _ _ => same x (by omega) (by omega),
      last.congr (same _ (by omega) (by omega)) fun x leads => ?_⟩
    · have next := jumpIf_leadsTo.mp leads
      exact same x (by omega) (by omega)
    · have next := jump_leadsTo.mp leads
      exact same x (by omega) (by omega)
  | ifElse test body other ih ih' ih'' =>
    simp only [size] at same
    obtain ⟨inTest, jumps, inBody, last, inOther⟩ := h
    refine ⟨ih inTest all.1 fun x _ _ => same x (by omega) (by omega),
      jumps.congr (same _ (by omega) (by omega)) fun x leads => ?_,
      ih' inBody all.2.1 fun x _ _ => same x (by omega) (by omega),
      last.congr (same _ (by omega) (by omega)) fun x leads => ?_,
      ih'' inOther all.2.2 fun x _ _ => same x (by omega) (by omega)⟩
    · have next := jumpIf_leadsTo.mp leads
      exact same x (by omega) (by omega)
    · have next := jump_leadsTo.mp leads
      exact same x (by omega) (by omega)
  | loop test body ih ih' =>
    simp only [size] at same
    obtain ⟨first, inBody, inTest, last⟩ := h
    refine ⟨first.congr (same _ (by omega) (by omega)) fun x leads => ?_,
      ih' inBody all.2 fun x _ _ => same x (by omega) (by omega),
      ih inTest all.1 fun x _ _ => same x (by omega) (by omega),
      last.congr (same _ (by omega) (by omega)) fun x leads => ?_⟩
    · have next := jump_leadsTo.mp leads
      exact same x (by omega) (by omega)
    · have next := jumpIf_leadsTo.mp leads
      exact same x (by omega) (by omega)

/-- Whether items, one after the other, take the stack from one depth to another, and nothing from
below a floor. -/
def RunsFrom (floor : Nat) : Nat → Nat → Code → Prop
  | d, d', [] => d' = d
  | d, d', item :: rest => ∃ pops pushes, item.effect? = some (pops, pushes) ∧ floor + pops ≤ d ∧
      RunsFrom floor (d - pops + pushes) d' rest

/-- Whether a tree takes the stack from one depth to another. -/
def Takes : Nat → Nat → Nat → Tree → Prop
  | floor, d, d', straight items => RunsFrom floor d d' items
  | floor, d, d', seq first second =>
    ∃ middle, Takes floor d middle first ∧ Takes floor middle d' second
  | floor, d, d', shortCut _ first second p => floor ≤ d ∧ Takes floor d (d + 1) first ∧
      Takes floor (d + 1) (d + 2) second ∧ p.effect? = some (2, 1) ∧ d' = d + 1
  | floor, d, d', ifThen test body =>
    floor ≤ d ∧ Takes floor d (d + 1) test ∧ Takes floor d d body ∧ d' = d
  | floor, d, d', ifElse test body other => floor ≤ d ∧ Takes floor d (d + 1) test ∧
      Takes floor d d body ∧ Takes floor d d other ∧ d' = d
  | floor, d, d', loop test body =>
    floor ≤ d ∧ Takes floor d (d + 1) test ∧ Takes floor d d body ∧ d' = d
  | floor, d, d', marked (.stmt slot) code => d = slot ∧ floor ≤ slot ∧ Takes slot d d' code
  | floor, d, d', marked _ code => d' = d + 1 ∧ Takes floor d d' code

/-- Depths up to an address and depths from it on. -/
def glue (m : Nat) (f g : Nat → Nat) (x : Nat) : Nat := if x ≤ m then f x else g x

section Glue

variable {m x : Nat} {f g : Nat → Nat}

theorem glue_of_le (h : x ≤ m) : glue m f g x = f x := if_pos h

theorem glue_of_lt (h : m < x) : glue m f g x = g x := if_neg (Nat.not_le_of_lt h)

/-- The depths from the address on do not matter before it if both say the same of it. -/
theorem glue_of_ge (same : f m = g m) (h : m ≤ x) : glue m f g x = g x := by
  rcases Nat.eq_or_lt_of_le h with rfl | h
  · rw [glue_of_le (Nat.le_refl _), same]
  · exact glue_of_lt h

end Glue

/-- Items that take the stack from one depth to another have depths between. -/
theorem RunsFrom.keeps {items : Code} {d d' : Nat} (h : RunsFrom floor d d' items)
    (all : ∀ item ∈ items, Onward item) (base : Nat) : ∃ depth : Nat → Nat, depth base = d ∧
      depth (base + items.length) = d' ∧ (straight items).Keeps depth floor base := by
  induction items generalizing d base with
  | nil => exact ⟨fun _ => d, rfl, h.symm, nofun⟩
  | cons item rest ih =>
    obtain ⟨pops, pushes, effect, enough, later⟩ := h
    have ⟨here, others⟩ := List.forall_mem_cons.mp all
    obtain ⟨f, first, last, keeps⟩ := ih later others (base + 1)
    have after {x : Nat} (hx : base + 1 ≤ x) : glue base (fun _ => d) f x = f x := glue_of_lt hx
    have atBase : glue base (fun _ => d) f base = d := glue_of_le (Nat.le_refl _)
    refine ⟨glue base (fun _ => d) f, atBase, ?_, ?_⟩
    · rw [List.length_cons, Nat.add_comm rest.length, ← Nat.add_assoc, after (by omega), last]
    · intro k item' hk
      cases k with
      | zero =>
        cases hk
        have step : Step (glue base (fun _ => d) f) floor base item := by
          refine ⟨pops, pushes, effect, by rw [atBase]; exact enough, fun x leads => ?_⟩
          obtain rfl := here _ x leads
          rw [after (Nat.le_refl _), atBase, first]
          omega
        exact step
      | succ k =>
        rw [← Nat.add_assoc, Nat.add_right_comm]
        refine (keeps k item' hk).congr (after (by omega)) fun x leads => after ?_
        have next := others item' (List.mem_of_getElem? hk) _ x leads
        omega

/-- A tree that takes the stack from one depth to another has depths that are right at its
addresses, wherever it stands. -/
theorem Takes.keeps {d d' : Nat} (h : t.Takes floor d d') (all : t.All Onward) (base : Nat) :
    ∃ depth : Nat → Nat, depth base = d ∧ depth (base + t.size) = d' ∧
      t.Keeps depth floor base := by
  induction t generalizing floor d d' base with
  | straight items => exact RunsFrom.keeps h all base
  | marked mark code ih =>
    cases mark with
    | stmt slot =>
      obtain ⟨depth, first, last, keeps⟩ := ih h.2.2 all base
      exact ⟨depth, first, last, first.trans h.1, h.2.1, keeps⟩
    | value | load =>
      obtain ⟨depth, first, last, keeps⟩ := ih h.2 all base
      exact ⟨depth, first, last, by rw [last, first, h.1], keeps⟩
  | seq first second ih ih' =>
    obtain ⟨middle, inFirst, inSecond⟩ := h
    obtain ⟨f, atBase, atMiddle, keeps⟩ := ih inFirst all.1 base
    obtain ⟨g, atMiddle', atEnd, keeps'⟩ := ih' inSecond all.2 (base + first.size)
    have before {x : Nat} (hx : x ≤ base + first.size) : glue (base + first.size) f g x = f x :=
      glue_of_le hx
    have after {x : Nat} (hx : base + first.size ≤ x) : glue (base + first.size) f g x = g x :=
      glue_of_ge (atMiddle.trans atMiddle'.symm) hx
    refine ⟨glue (base + first.size) f g, (before (by omega)).trans atBase, ?_,
      keeps.congr all.1 fun x _ le => before le, keeps'.congr all.2 fun x le _ => after le⟩
    rw [size, ← Nat.add_assoc, after (by omega), atEnd]
  | shortCut decides first second p ih ih' =>
    obtain ⟨enough, inFirst, inSecond, effect, rfl⟩ := h
    obtain ⟨f, atBase, atMiddle, keeps⟩ := ih inFirst all.1 base
    obtain ⟨g, atSecond, atLast, keeps'⟩ := ih' inSecond all.2 (base + first.size + 2)
    simp only [Keeps, size, ← Nat.add_assoc]
    generalize hm : base + first.size = middle at *
    generalize hl : middle + 2 + second.size = last at *
    let depth := glue middle f (glue (middle + 1) (fun _ => d + 2) (glue last g fun _ => d + 1))
    have before {x : Nat} (hx : x ≤ middle) : depth x = f x := glue_of_le hx
    have atCopied : depth (middle + 1) = d + 2 :=
      (glue_of_lt (by omega)).trans (glue_of_le (by omega))
    have within {x : Nat} (hx : middle + 2 ≤ x) (hx' : x ≤ last) : depth x = g x :=
      (glue_of_lt (by omega)).trans ((glue_of_lt (by omega)).trans (glue_of_le hx'))
    have after : depth (last + 1) = d + 1 :=
      (glue_of_lt (by omega)).trans ((glue_of_lt (by omega)).trans (glue_of_lt (by omega)))
    have here : depth middle = d + 1 := (before (Nat.le_refl _)).trans atMiddle
    have there : depth (middle + 2) = d + 1 := (within (Nat.le_refl _) (by omega)).trans atSecond
    have there' : depth last = d + 2 := (within (by omega) (Nat.le_refl _)).trans atLast
    refine ⟨depth, (before (by omega)).trans atBase, after,
      keeps.congr all.1 fun x _ le => before (by omega),
      step_copy ?_ ?_, step_jumpIf ?_ ?_ ?_,
      keeps'.congr all.2 fun x le _ => within (by omega) (by omega),
      step_prim effect ?_ ?_⟩
    all_goals simp only [here, atCopied, there, there', after]; try omega
  | ifThen test body ih ih' =>
    obtain ⟨enough, inTest, inBody, rfl⟩ := h
    obtain ⟨f, atBase, atMiddle, keeps⟩ := ih inTest all.1 base
    obtain ⟨g, atBody, atLast, keeps'⟩ := ih' inBody all.2 (base + test.size + 1)
    simp only [Keeps, size, ← Nat.add_assoc]
    generalize hm : base + test.size = middle at *
    generalize hl : middle + 1 + body.size = last at *
    let depth := glue middle f (glue last g fun _ => d')
    have before {x : Nat} (hx : x ≤ middle) : depth x = f x := glue_of_le hx
    have within {x : Nat} (hx : middle + 1 ≤ x) (hx' : x ≤ last) : depth x = g x :=
      (glue_of_lt (by omega)).trans (glue_of_le hx')
    have after : depth (last + 1) = d' := (glue_of_lt (by omega)).trans (glue_of_lt (by omega))
    have here : depth middle = d' + 1 := (before (Nat.le_refl _)).trans atMiddle
    have there : depth (middle + 1) = d' := (within (Nat.le_refl _) (by omega)).trans atBody
    have there' : depth last = d' := (within (by omega) (Nat.le_refl _)).trans atLast
    refine ⟨depth, (before (by omega)).trans atBase, after,
      keeps.congr all.1 fun x _ le => before (by omega),
      step_jumpIf ?_ ?_ ?_, keeps'.congr all.2 fun x le _ => within (by omega) (by omega),
      step_jump ?_ ?_⟩
    all_goals simp only [here, there, there', after]; try omega
  | ifElse test body other ih ih' ih'' =>
    obtain ⟨enough, inTest, inBody, inOther, rfl⟩ := h
    obtain ⟨f, atBase, atMiddle, keeps⟩ := ih inTest all.1 base
    obtain ⟨g, atBody, atLast, keeps'⟩ := ih' inBody all.2.1 (base + test.size + 1)
    obtain ⟨k, atOther, atEnd, keeps''⟩ :=
      ih'' inOther all.2.2 (base + test.size + 1 + body.size + 1)
    simp only [Keeps, size, ← Nat.add_assoc]
    generalize hm : base + test.size = middle at *
    generalize hl : middle + 1 + body.size = last at *
    let depth := glue middle f (glue last g k)
    have before {x : Nat} (hx : x ≤ middle) : depth x = f x := glue_of_le hx
    have within {x : Nat} (hx : middle + 1 ≤ x) (hx' : x ≤ last) : depth x = g x :=
      (glue_of_lt (by omega)).trans (glue_of_le hx')
    have after {x : Nat} (hx : last + 1 ≤ x) : depth x = k x :=
      (glue_of_lt (by omega)).trans (glue_of_lt (by omega))
    have here : depth middle = d' + 1 := (before (Nat.le_refl _)).trans atMiddle
    have there : depth (middle + 1) = d' := (within (Nat.le_refl _) (by omega)).trans atBody
    have there' : depth last = d' := (within (by omega) (Nat.le_refl _)).trans atLast
    have onward : depth (last + 1) = d' := (after (Nat.le_refl _)).trans atOther
    have atEnd' : depth (last + 1 + other.size) = d' := (after (by omega)).trans atEnd
    refine ⟨depth, (before (by omega)).trans atBase, atEnd',
      keeps.congr all.1 fun x _ le => before (by omega),
      step_jumpIf ?_ ?_ ?_, keeps'.congr all.2.1 fun x le _ => within (by omega) (by omega),
      step_jump ?_ ?_, keeps''.congr all.2.2 fun x le _ => after (by omega)⟩
    all_goals simp only [here, there, there', onward, atEnd']; try omega
  | loop test body ih ih' =>
    obtain ⟨enough, inTest, inBody, rfl⟩ := h
    obtain ⟨f, atTest, atLast, keeps⟩ := ih inTest all.1 (base + 1 + body.size)
    obtain ⟨g, atBody, atMiddle, keeps'⟩ := ih' inBody all.2 (base + 1)
    simp only [Keeps, size, ← Nat.add_assoc]
    generalize hm : base + 1 + body.size = middle at *
    generalize hl : middle + test.size = last at *
    let depth := glue base (fun _ => d') (glue middle g (glue last f fun _ => d'))
    have atBase : depth base = d' := glue_of_le (Nat.le_refl _)
    have within {x : Nat} (hx : base + 1 ≤ x) (hx' : x ≤ middle) : depth x = g x :=
      (glue_of_lt (by omega)).trans (glue_of_le hx')
    have testing {x : Nat} (hx : middle ≤ x) (hx' : x ≤ last) : depth x = f x := by
      have same : g middle = glue last f (fun _ => d') middle := by
        rw [glue_of_le (by omega), atMiddle, atTest]
      exact (glue_of_lt (by omega)).trans ((glue_of_ge same hx).trans (glue_of_le hx'))
    have after : depth (last + 1) = d' :=
      (glue_of_lt (by omega)).trans ((glue_of_lt (by omega)).trans (glue_of_lt (by omega)))
    have here : depth (base + 1) = d' := (within (Nat.le_refl _) (by omega)).trans atBody
    have there : depth middle = d' := (testing (Nat.le_refl _) (by omega)).trans atTest
    have there' : depth last = d' + 1 := (testing (by omega) (Nat.le_refl _)).trans atLast
    refine ⟨depth, atBase, after, step_jump ?_ ?_,
      keeps'.congr all.2 fun x le _ => within (by omega) (by omega),
      keeps.congr all.1 fun x le _ => testing (by omega) (by omega), step_jumpIf ?_ ?_ ?_⟩
    all_goals simp only [atBase, here, there, there', after]; try omega

end Tree

end Emission

end JamCompiler
