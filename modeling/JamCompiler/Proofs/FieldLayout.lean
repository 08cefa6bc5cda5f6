import JamCompiler.Proofs.Emission.Allocation
import JamCompiler.Proofs.Emission.Slots

/-!
# Layout of fields

Where the fields of a program live once it has code, and what the code knows of it. Static fields
share one segment, which the prelude reserves; the fields of instances follow the header of their
object; and what makes an object knows the number of its class and the number of its fields. A
program need not be checked for this.
-/

namespace JamCompiler

open Machine Pass Emission Generation

/-- The place of a static field is below the number of static fields up to it. -/
theorem FieldDecl.lt_of_location (f : FieldDecl) {statics instances d : Nat}
    (h : f.location statics instances = .static d) : d < statics + staticFields [f] := by
  unfold location at h
  split at h
  · rename_i static
    cases h
    have one : staticFields [f] = 1 := by simp [staticFields, static]
    omega
  · cases h

namespace Generation

variable {p : Placing}

/-- Fields have places after those of the fields before them, and nothing else gets a place. -/
theorem ends_placeFields (cls : Site) (k statics instances : Nat) (fields : List FieldDecl)
    (p : Placing) :
    Ends (placeFields cls k statics instances fields) p fun r p' =>
      r = (statics + staticFields fields, instances + instanceFields fields) ∧
      p'.layouts = p.layouts ∧ ∀ s d, p'.locations.get? s = some (.static d) →
        p.locations.get? s = some (.static d) ∨ d < statics + staticFields fields := by
  induction fields generalizing k statics instances p with
  | nil => exact .pure ⟨rfl, rfl, fun _ _ => .inl⟩
  | cons f rest ih =>
    rw [placeFields_cons]
    refine Ends.bind (ends_place _ _ f.name f.pos p) ?_
    rintro _ _ ⟨free, rfl⟩
    refine (ih _ _ _ _).imp ?_
    rintro r p' ⟨rfl, layouts, places⟩
    rw [staticFields_cons f rest, instanceFields_cons f rest, ← Nat.add_assoc, ← Nat.add_assoc]
    refine ⟨rfl, layouts, fun s d found => ?_⟩
    rcases places s d found with before | below
    · rcases SiteMap.get?_fill_cases before with before | ⟨-, here⟩
      · exact .inl before
      · exact .inr (Nat.lt_of_lt_of_le (f.lt_of_location here.symm) (Nat.le_add_right _ _))
    · exact .inr below

/-- The static fields of classes have places in one segment, whose size is the answer, and classes
have their numbers and the numbers of their instance fields. -/
theorem ends_placeClasses (number statics : Nat) (classes : List ClassDecl) (p : Placing) :
    Ends (placeClasses number statics classes) p fun r p' => r = statics + staticsOf classes ∧
      (∀ s d, p'.locations.get? s = some (.static d) →
        p.locations.get? s = some (.static d) ∨ d < statics + staticsOf classes) ∧
      ∀ s l, p'.layouts.get? s = some l → p.layouts.get? s = some l ∨
        ∃ j c, classes[j]? = some c ∧ s = .classAt (number + j) ∧
          l = ⟨number + j, instanceFields c.fields⟩ := by
  induction classes generalizing number statics p with
  | nil => exact .pure ⟨rfl, fun _ _ => .inl, fun _ _ => .inl⟩
  | cons c rest ih =>
    refine Ends.bind (ends_placeFields (.classAt number) 0 statics 0 c.fields p) ?_
    rintro _ p₁ ⟨rfl, layouts, places⟩
    refine Ends.bind (Ends.modifyOwn (P := fun _ p₂ => p₂ = ⟨p₁.locations,
      p₁.layouts.fill (.classAt number) ⟨number, 0 + instanceFields c.fields⟩⟩) rfl) ?_
    rintro _ _ rfl
    refine (ih (number + 1) (statics + staticFields c.fields) _).imp ?_
    rintro r p' ⟨rfl, places', layouts'⟩
    rw [staticsOf_cons c rest, ← Nat.add_assoc]
    refine ⟨rfl, fun s d found => ?_, fun s l found => ?_⟩
    · rcases places' s d found with before | below
      · exact (places s d before).imp_right fun below =>
          Nat.lt_of_lt_of_le below (Nat.le_add_right _ _)
      · exact .inr below
    · rcases layouts' s l found with before | ⟨j, d, hj, there, rfl⟩
      · rcases SiteMap.get?_fill_cases before with before | ⟨rfl, rfl⟩
        · exact .inl (layouts ▸ before)
        · exact .inr ⟨0, c, rfl, rfl, by simp⟩
      · refine .inr ⟨j + 1, d, hj, ?_, ?_⟩
        · rw [there, Nat.add_assoc, Nat.add_comm 1 j]
        · rw [Nat.add_assoc, Nat.add_comm 1 j]

/-- What is placed when the fields of a program are, if nothing was placed before. -/
structure Placed (classes : List ClassDecl) (size : Nat) (p : Placing) : Prop
    extends FieldsPlaced 0 0 classes p where
  total : size = staticsOf classes
  static : ∀ s d, p.locations.get? s = some (.static d) → d < size
  layout : ∀ s l, p.layouts.get? s = some l →
    ∃ k c, classes[k]? = some c ∧ s = .classAt k ∧ l = ⟨k, instanceFields c.fields⟩

theorem ends_placeClasses_placed (classes : List ClassDecl) :
    Ends (placeClasses 0 0 classes) {} (Placed classes) := by
  have known : Concludes Fault.Expected (placeClasses 0 0 classes) {} True _ :=
    concludes_placeClasses (fun _ _ => rfl) fun _ _ => rfl
  refine ((known.to_ends trivial).and (ends_placeClasses 0 0 classes {})).imp ?_
  rintro size p ⟨⟨-, -, fields⟩, total, static, layout⟩
  rw [Nat.zero_add] at total
  refine ⟨fields, total, fun s d found => ?_, fun s l found => ?_⟩
  · rcases static s d found with before | below
    · cases before
    · rwa [Nat.zero_add, ← total] at below
  · rcases layout s l found with before | ⟨j, c, hj, rfl, rfl⟩
    · cases before
    · rw [Nat.zero_add]
      exact ⟨j, c, hj, rfl, rfl⟩

/-- What is placed later are no fields. -/
theorem Placed.later {classes : List ClassDecl} {size : Nat} {p' : Placing}
    (h : Placed classes size p) (later : p.Later p') : Placed classes size p' where
  located j c hj i f hf := later.kept (h.located j c hj i f hf)
  layouts j c hj := by
    rw [later.layouts]
    exact h.layouts j c hj
  total := h.total
  static s d found := by
    rcases later.added found with before | ofMethod
    · exact h.static s d before
    · exact ofMethod.elim
  layout s l found := by
    rw [later.layouts] at found
    exact h.layout s l found

end Generation

namespace Emission

/-- An item of the code of methods is one of the code of some method. -/
theorem MadeOf.at {env : Env} {base a : Nat} {methods : List (Site × MethodDecl)} {code : Code}
    {item : Item} (h : MadeOf env base methods code) (here : At code base a item) :
    ∃ s ∈ methods, ∃ t start, s.2.tree env s.1 = .ok t ∧ env.located s.1 = some (.code start) ∧
      At (t.code start) start a item := by
  induction methods generalizing base code with
  | nil =>
    cases h
    exact absurd here at_nil
  | cons s rest ih =>
    obtain ⟨t, more, made, located, rfl, later⟩ := h
    rcases at_append.mp here with here | there
    · exact ⟨s, List.mem_cons_self, t, base, made, located, here⟩
    · rw [Tree.length_code] at there
      obtain ⟨s', hs', found⟩ := ih later there
      exact ⟨s', List.mem_cons_of_mem _ hs', found⟩

end Emission

/-- Whether the code at an address makes an instance of the class to which a name is bound: it gives
the number of the class and how many fields an instance has. -/
def Compilation.MakesInstance (c : Compilation) (p : Program) (o : ObjectCode) (a : Nat)
    (name : Site) : Prop :=
  ∃ k cls text pos, p.classes[k]? = some cls ∧
    c.bindings.get? name = some (.cls ⟨.user (.classAt k), text, pos⟩) ∧
    o.code[a]? = some (.literal k) ∧
    o.code[a + 1]? = some (.literal (instanceFields cls.fields : Nat)) ∧
    o.code[a + 2]? = some (.prim .newobj)

/-- The layout of the fields of a program, and of the code that uses them. -/
structure Compilation.FieldsLaid (c : Compilation) (p : Program) (o : ObjectCode) : Prop where
  instances : ∀ (k : Nat) (cls : ClassDecl), p.classes[k]? = some cls →
    ∀ (i : Nat) (f : FieldDecl), cls.fields[i]? = some f → f.isStatic = false →
      c.locations.get? ((Site.classAt k).field i) =
        some (.object (headerSize + instanceFields (cls.fields.take i)))
  statics : ∀ (k : Nat) (cls : ClassDecl), p.classes[k]? = some cls →
    ∀ (i : Nat) (f : FieldDecl), cls.fields[i]? = some f → f.isStatic = true →
      c.locations.get? ((Site.classAt k).field i) =
        some (.static (staticsOf (p.classes.take k) + staticFields (cls.fields.take i)))
  layouts : ∀ (k : Nat) (cls : ClassDecl), p.classes[k]? = some cls →
    c.layouts.get? (.classAt k) = some ⟨k, instanceFields cls.fields⟩
  size : o.staticSize = staticsOf p.classes
  reserved : o.code[0]? = some { op := .push, d := o.staticSize }
  operands : ∀ i ∈ o.code, i.r = .sb → 0 ≤ i.d ∧ i.d < o.staticSize
  /-- The code of every expression that makes an instance. -/
  news : ∀ s ∈ p.sitedMethods, ∃ m' t start, MethodCode c o s.1 s.2 m' t start ∧
    ∀ a site type pos u, (a, .value site (.newObject type pos), u) ∈ t.pieces start →
      c.MakesInstance p o a site.type.className
  /-- Nothing else makes an instance. -/
  allocations : ∀ a, o.code[a]? = some (.prim .newobj) →
    ∃ s ∈ p.sitedMethods, ∃ m' t start, MethodCode c o s.1 s.2 m' t start ∧
      ∃ b site type pos u, (b, .value site (.newObject type pos), u) ∈ t.pieces start ∧ a = b + 2

section Code

variable {c : Compilation} {p : Program} {o : ObjectCode}

/-- The code of an instance of a class that has a layout. -/
theorem makesInstance_of_emitNew {size a : Nat} {site : Site} {type : TypeExpr} {pos : Nat}
    {items : Code} (placed : Generation.Placed p.classes size ⟨c.locations, c.layouts⟩)
    (made : emitNew c.env site type pos = .ok items) (stands : c.Stands o a items) :
    c.MakesInstance p o a site.className := by
  obtain ⟨s, text, pos', l, bound, layout, rfl⟩ := only_emitNew_layout.holds made
  obtain ⟨k, cls, hk, rfl, rfl⟩ := placed.layout s l layout
  obtain ⟨_, number, rfl⟩ := stands 0 _ rfl
  obtain ⟨_, size, rfl⟩ := stands 1 _ rfl
  obtain ⟨_, makes, rfl⟩ := stands 2 _ rfl
  exact ⟨k, cls, text, pos', hk, bound, number, size, makes⟩

/-- Every instruction of the object code belongs to the prelude or is an item of the code of a
method. -/
theorem Generation.Generated.at {p p' : Program} {env : Env} {main : Site × MethodHead}
    {code : Code} (h : Generated p p' env main code o) {a : Nat} {i : Instruction}
    (hi : o.code[a]? = some i) :
    i ∈ prelude o.staticSize o.entry ∨
      ∃ s ∈ p'.sitedMethods, ∃ t start item, s.2.tree env s.1 = .ok t ∧
        env.located s.1 = some (.code start) ∧ At (t.code start) start a item ∧
          Linked env item i := by
  by_cases low : a < codeStart
  · exact .inl (List.mem_of_getElem? ((h.at_prelude low).symm.trans hi))
  · have high := Nat.le_of_not_lt low
    obtain ⟨item, found, link⟩ := h.item_at ((Nat.add_sub_cancel' high).symm ▸ hi)
    have here : At code codeStart a item := ⟨high, found⟩
    obtain ⟨s, hs, t, start, made, located, there⟩ := h.methods.at here
    exact .inr ⟨s, hs, t, start, item, made, located, there, link⟩

/-- What an instruction at an address does with the static segment and with new objects, if the
static segment has a size and the code of instances stands at some addresses. -/
structure Machine.Instruction.UsesAt (i : Instruction) (size a : Nat) (instances : Nat → Prop) :
    Prop where
  operand : i.r = .sb → 0 ≤ i.d ∧ i.d < size
  makes : i = .prim .newobj → ∃ b, instances b ∧ a = b + 2

theorem usesAt_of_prelude {size a entry : Nat} {instances : Nat → Prop} {i : Instruction}
    (h : i ∈ prelude size entry) : i.UsesAt size a instances := by
  have apart : ∀ i ∈ prelude size entry, i.r ≠ .sb ∧ i ≠ .prim .newobj := by
    simp [prelude, Instruction.literal, Instruction.prim]
    decide
  exact ⟨fun same => absurd same (apart i h).1, fun same => absurd same (apart i h).2⟩

theorem usesAt_of_linked {env : Env} {size a : Nat} {instances : Nat → Prop} {item : Item}
    {i : Instruction} (h : Item.Inside size item) (linked : Linked env item i) :
    i.UsesAt size a instances := by
  cases item with
  | instr j =>
    cases linked
    exact ⟨h.1, fun same => absurd same h.2⟩
  | call receiver method =>
    obtain ⟨_, _, -, -, rfl⟩ := linked
    exact ⟨nofun, fun same => nomatch congrArg Instruction.r same⟩

/-- The primitive that makes objects is the last of the three items that make an instance. -/
theorem usesAt_of_new {env : Env} {size a b : Nat} {instances : Nat → Prop} {k n : Int}
    {item : Item} {i : Instruction} (mem : instances b)
    (here : At [literal k, literal n, prim .newobj] b a item) (linked : Linked env item i) :
    i.UsesAt size a instances := by
  rcases at_cons.mp here with ⟨-, rfl⟩ | here
  · cases linked
    constructor <;> rintro ⟨⟩
  · rcases at_cons.mp here with ⟨-, rfl⟩ | here
    · cases linked
      constructor <;> rintro ⟨⟩
    · obtain ⟨rfl, rfl⟩ := at_singleton.mp here
      cases linked
      exact ⟨by rintro ⟨⟩, fun _ => ⟨b, mem, rfl⟩⟩

/-- Where the code of instances stands in the code of a method. -/
def Emission.Tree.NewAt (t : Tree) (start b : Nat) : Prop :=
  ∃ site type pos u, (b, .value site (.newObject type pos), u) ∈ t.pieces start

theorem usesAt_of_inside {env : Env} {size start a : Nat} {t : Tree} {item : Item} {i : Instruction}
    (h : t.Inside env size) (here : At (t.code start) start a item) (linked : Linked env item i) :
    i.UsesAt size a (t.NewAt start) := by
  rcases h.at here with inside | ⟨b, site, type, pos, u, piece, there⟩
  · exact usesAt_of_linked inside linked
  · obtain ⟨items, made, rfl⟩ := h.instance piece
    obtain ⟨_, _, _, l, -, -, rfl⟩ := only_emitNew_layout.holds made
    exact usesAt_of_new ⟨site, type, pos, _, piece⟩ there linked

end Code

/-- The code of a program that had no code before lays out its fields, and knows the layout wherever
it uses the static segment or makes an instance. -/
theorem fields_laid_out {c c' : Compilation} {o : ObjectCode} (unplaced : c.locations = {})
    (unsized : c.layouts = {}) (generated : c.generate = (c', .ok o)) :
    c'.FieldsLaid c.program o := by
  have fields := Generation.ends_placeClasses_placed c.program.classes
  rw [show ({} : Placing) = ⟨c.locations, c.layouts⟩ by rw [unplaced, unsized]] at fields
  obtain ⟨p₁, known, later, -⟩ := Compilation.placed_of_generate generated fields
  have placed := known.later later
  obtain ⟨-, main, code, made⟩ := Compilation.generated_of_generate generated
  have bounded : c'.env.Bounded o.staticSize := fun {s k} found => placed.static s k found
  have uses {a : Nat} {i : Instruction} (hi : o.code[a]? = some i) :
      i.UsesAt o.staticSize a fun b => ∃ s ∈ c.program.sitedMethods, ∃ m' t start,
        MethodCode c' o s.1 s.2 m' t start ∧ t.NewAt start b := by
    rcases made.at hi with
        inPrelude | ⟨⟨site, m'⟩, hm', t, start, item, tree, located, here, linked⟩
    · exact usesAt_of_prelude inPrelude
    · obtain ⟨operand, makes⟩ :=
        usesAt_of_inside ((inside_methodTree bounded site m').holds tree) here linked
      refine ⟨operand, fun same => ?_⟩
      obtain ⟨b, new, rfl⟩ := makes same
      -- The code was made from the methods with their added returns; each of them comes from one of
      -- the program, at the same site and with the same code.
      obtain ⟨m, hm, returning⟩ := made.original hm'
      obtain ⟨m'', t', start', methodCode⟩ := made.methodCode hm
      cases methodCode.returning.symm.trans returning
      cases methodCode.tree.symm.trans tree
      cases methodCode.located.symm.trans located
      exact ⟨b, ⟨(site, m), hm, m', t, start, methodCode, new⟩, rfl⟩
  refine ⟨fun k cls hk i f hf inInstance => ?_, fun k cls hk i f hf static => ?_,
    fun k cls hk => ?_,
    placed.total, ?_, fun i hi => ?_, fun s hs => ?_, fun a ha => ?_⟩
  · have located := placed.located k cls hk i f hf
    rwa [Nat.zero_add, FieldDecl.location, inInstance] at located
  · have located := placed.located k cls hk i f hf
    rwa [Nat.zero_add, Nat.zero_add, FieldDecl.location, static] at located
  · have layout := placed.layouts k cls hk
    rwa [Nat.zero_add] at layout
  · rw [made.at_prelude (by decide)]
    rfl
  · obtain ⟨a, ha⟩ := List.getElem?_of_mem hi
    exact (uses ha).operand
  · obtain ⟨m', t, start, methodCode⟩ := made.methodCode hs
    refine ⟨m', t, start, methodCode, fun a site type pos u piece => ?_⟩
    have inside := (inside_methodTree bounded s.1 m').holds methodCode.tree
    obtain ⟨items, emitted, rfl⟩ := inside.instance piece
    exact makesInstance_of_emitNew placed emitted (methodCode.piece piece)
  · obtain ⟨b, ⟨s, hs, m', t, start, methodCode, site, type, pos, u, piece⟩, rfl⟩ :=
      (uses ha).makes rfl
    exact ⟨s, hs, m', t, start, methodCode, b, site, type, pos, u, piece, rfl⟩

/-- Static fields and fields of instances between each other in two classes, which make instances of
each other. -/
def mixedFieldsText : List Char :=
  ("class A \x7b int x; static int n; B b; void m() \x7b b = new B(); A.n = b.u; \x7d " ++
    "public static void main(String[] s) \x7b A a = new A(); a.x = n; \x7d \x7d " ++
    "class B \x7b static int k; int u; A v; static int w; \x7d").toList

theorem mixedFieldsText_laid : ∃ p c c₁ c₂ t o, Program.ofText? mixedFieldsText = .ok p ∧
    (p.start false).resolve = (c, t, .ok ()) ∧ c.check = (c₁, .ok ()) ∧ c₁.program = p ∧
    c₁.locations = {} ∧ c₁.layouts = {} ∧ c₁.generate = (c₂, .ok o) ∧ c₂.FieldsLaid c₁.program o ∧
    o.staticSize = 3 ∧ o.code.countP (· = .prim .newobj) = 2 := by
  obtain ⟨r, compiled, ok, _, -, o', -, -, object', known⟩ := exists_compiled_of_any mixedFieldsText
    (P := fun _ _ o => o.staticSize = 3 ∧ o.code.countP (· = .prim .newobj) = 2) (by decide +kernel)
  obtain ⟨p, c, c₁, c₂, t, o, parsed, resolved, clean, checked, clean₁, generated, -, object⟩ :=
    stages_of_compile compiled ok
  cases object.symm.trans object'
  obtain ⟨-, program, unplaced, unsized⟩ :=
    Program.checked_of_stages parsed resolved clean checked clean₁
  exact ⟨p, c, c₁, c₂, t, o', parsed, resolved, checked, program, unplaced, unsized, generated,
    fields_laid_out unplaced unsized generated, of_decide_eq_true known⟩

end JamCompiler
