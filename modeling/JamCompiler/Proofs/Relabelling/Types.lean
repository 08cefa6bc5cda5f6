import JamCompiler.Proofs.Relabelling.Trees

/-!
# Types and members in relabelled programs

The declarations of a relabelled class are those of the class, relabelled, in the same order, since
positions keep their order. The types that are written stand for the types relabelled, and types go
together if they did before.
-/

namespace JamCompiler

/-- Numbering after a map is a map after numbering, if the two agree on each element. -/
theorem mapIdx_map {α β γ δ : Type} {f : Nat → β → δ} {g : Nat → α → γ} {h : α → β} {i : γ → δ}
    (same : ∀ k a, f k (h a) = i (g k a)) (l : List α) :
    (l.map h).mapIdx f = (l.mapIdx g).map i := by
  apply List.ext_getElem?
  intro k
  simp [Function.comp_def, same]

variable (ρ : Relabelling)

namespace ClassDecl

@[simp] theorem ref_relabel (c : ClassDecl) (site : Site) :
    (c.relabel ρ.written).ref site = (c.ref site).relabel ρ := rfl

theorem fieldDecls_relabel (c : ClassDecl) (site : Site) :
    (c.relabel ρ.written).fieldDecls site = (c.fieldDecls site).map (Decl.relabel ρ) := by
  refine mapIdx_map (fun _ _ => ?_) c.fields
  rfl

theorem methodDecls_relabel (c : ClassDecl) (site : Site) :
    (c.relabel ρ.written).methodDecls site = (c.methodDecls site).map (Decl.relabel ρ) := by
  refine mapIdx_map (fun _ _ => ?_) c.methods
  rfl

theorem sitedMethods_relabel (c : ClassDecl) (site : Site) :
    (c.relabel ρ.written).sitedMethods site =
      (c.sitedMethods site).map fun m => (m.1, m.2.relabel ρ.written) := by
  refine mapIdx_map (fun _ _ => ?_) c.methods
  rfl

variable {ρ}

theorem insertMember_relabel {d : Decl} {rest : List Decl} (hd : d.home ≠ .predefined)
    (h : ∀ e ∈ rest, e.home ≠ .predefined) :
    insertMember (d.relabel ρ) (rest.map (Decl.relabel ρ)) =
      (insertMember d rest).map (Decl.relabel ρ) := by
  have place : ∀ {e : Decl}, e.home ≠ .predefined → (e.relabel ρ).pos = ρ.place e.pos := by
    intro e he
    rw [Decl.relabel_pos]
    cases home : e.home with
    | predefined => exact absurd home he
    | user site => rfl
  induction rest with
  | nil => rfl
  | cons e rest ih =>
    obtain ⟨he, later⟩ := List.forall_mem_cons.mp h
    simp only [List.map_cons, insertMember, place hd, place he, ρ.place_strictMono.le_iff_le]
    split
    · rfl
    · rw [ih later, List.map_cons]

theorem foldr_insertMember_relabel {ds : List Decl} (h : ∀ d ∈ ds, d.home ≠ .predefined) :
    (ds.map (Decl.relabel ρ)).foldr insertMember [] =
      (ds.foldr insertMember []).map (Decl.relabel ρ) ∧
    ∀ d ∈ ds.foldr insertMember [], d.home ≠ .predefined := by
  induction ds with
  | nil => exact ⟨rfl, by simp⟩
  | cons d rest ih =>
    obtain ⟨hd, later⟩ := List.forall_mem_cons.mp h
    obtain ⟨same, users⟩ := ih later
    refine ⟨?_, fun e he => ?_⟩
    · rw [List.map_cons, List.foldr_cons, List.foldr_cons, same, insertMember_relabel hd users]
    · rcases List.mem_cons.mp ((insertMember_perm _ _).mem_iff.mp he) with rfl | he
      · exact hd
      · exact users e he

variable (ρ)

/-- The members of a class in the order of their positions. -/
theorem members_relabel (c : ClassDecl) (site : Site) :
    (c.relabel ρ.written).members site = (c.members site).map (Decl.relabel ρ) := by
  rw [members, fieldDecls_relabel, methodDecls_relabel, ← List.map_append]
  refine (foldr_insertMember_relabel fun d hd => ?_).1
  simp only [fieldDecls, methodDecls, List.mem_append, List.mem_mapIdx] at hd
  rcases hd with ⟨i, _, rfl⟩ | ⟨i, _, rfl⟩ <;> simp [Decl.home]

end ClassDecl

theorem Program.sitedClasses_relabel (p : Program) :
    (p.relabel ρ.written).sitedClasses =
      p.sitedClasses.map fun c => (c.1, c.2.relabel ρ.written) := by
  refine mapIdx_map (fun _ _ => ?_) p.classes
  rfl

theorem Program.sitedMethods_relabel (p : Program) :
    (p.relabel ρ.written).sitedMethods =
      p.sitedMethods.map fun m => (m.1, m.2.relabel ρ.written) := by
  simp [sitedMethods, sitedClasses_relabel, List.flatMap_map, List.map_flatMap,
    ClassDecl.sitedMethods_relabel]

namespace ValueType

def relabel : ValueType → ValueType
  | base type => base type
  | cls name ref => cls (ρ.name name) (ref.map (ClassRef.relabel ρ))
  | array element => array element.relabel

/-- The same names give the same text. -/
theorem text_relabel {ρ ρ' : Relabelling} (same : ρ.name = ρ'.name) (t : ValueType) :
    (t.relabel ρ).text = (t.relabel ρ').text := by
  induction t with
  | base type => rfl
  | cls name ref => simp only [relabel, text, same]
  | array element ih => simp only [relabel, text, ih]

@[simp] theorem relabel_eq_base {t : ValueType} {type : BaseType} :
    t.relabel ρ = base type ↔ t = base type := by
  cases t <;> simp [relabel]

@[simp] theorem isBase_relabel (t : ValueType) (type : BaseType) :
    (t.relabel ρ).isBase type = t.isBase type := by
  cases t <;> simp [isBase, relabel, error]

@[simp] theorem isUnsupportedClass_relabel (ref : Option ClassRef) :
    isUnsupportedClass (ref.map (ClassRef.relabel ρ)) = isUnsupportedClass ref := by
  cases ref with
  | none => rfl
  | some c =>
    have string : c.relabel ρ = Predefined.string ↔ c = Predefined.string := by
      conv_lhs => rw [← Predefined.relabel_of_mem_classes ρ (c := Predefined.string) (by decide),
        ClassRef.relabel_inj]
    simp [isUnsupportedClass, string]

theorem compatible_relabel (s t : ValueType) :
    (s.relabel ρ).compatible (t.relabel ρ) = s.compatible t := by
  induction s generalizing t with
  | base type => cases t <;> cases type <;> rfl
  | cls name ref =>
    cases t with
    | base type => cases type <;> rfl
    | array element => rfl
    | cls name' ref' =>
      have refs : ref.map (ClassRef.relabel ρ) = ref'.map (ClassRef.relabel ρ) ↔ ref = ref' :=
        (Option.map_injective (ClassRef.relabel_injective ρ)).eq_iff
      simp [relabel, compatible, refs]
  | array element ih =>
    cases t with
    | base type => cases type <;> rfl
    | cls name ref => rfl
    | array element' => exact ih element'

@[simp] theorem ofClass_relabel (c : ClassRef) :
    ofClass (c.relabel ρ) = (ofClass c).relabel ρ := rfl

end ValueType

/-- What sites are bound to, relabelled. -/
def relabelBound (bound : Site → Option Decl) : Site → Option Decl :=
  fun site => (bound site).map (Decl.relabel ρ)

namespace TypeExpr

variable {ρ} {L : Labels}

theorem view_relabel (names : L.name = ρ.name) (bound : Site → Option Decl) (site : Site)
    (t : TypeExpr) :
    (t.relabel L).view (relabelBound ρ bound) site = (t.view bound site).relabel ρ := by
  induction t generalizing site with
  | base | unknown => rfl
  | named name pos =>
    simp only [relabel, view, ValueType.relabel, Identifier.relabel, names, relabelBound]
    cases bound site.className with
    | none => rfl
    | some d => cases d <;> rfl
  | array element pos ih => simp only [relabel, view, ValueType.relabel, ih]

theorem predefinedView_relabel (names : L.name = ρ.name) (t : TypeExpr) :
    (t.relabel L).predefinedView = t.predefinedView.relabel ρ := by
  induction t with
  | base | unknown => rfl
  | named name pos =>
    have known : ∀ {n}, n ∈ knownNames → ((n == ρ.name name.spelling) = (n == name.spelling)) := by
      intro n known
      rw [Bool.eq_iff_iff, beq_iff_eq, beq_iff_eq, eq_comm, ρ.name_eq_known known, eq_comm]
    have found : Predefined.classes.find? (·.name == ρ.name name.spelling) =
        Predefined.classes.find? (·.name == name.spelling) := by
      simp only [Predefined.classes, List.find?_cons, Predefined.string, Predefined.printStream,
        Predefined.system, known (n := "String") (by decide),
        known (n := "_PrintStream") (by decide), known (n := "System") (by decide),
        List.find?_nil]
    simp only [relabel, predefinedView, ValueType.relabel, Identifier.relabel, names, found]
    cases same : Predefined.classes.find? (·.name == name.spelling) with
    | none => rfl
    | some c =>
      rw [Option.map_some, Predefined.relabel_of_mem_classes ρ (List.mem_of_find?_eq_some same)]
  | array element pos ih => simp only [relabel, predefinedView, ValueType.relabel, ih]

theorem viewAt_relabel (names : L.name = ρ.name) (bound : Site → Option Decl) (home : Home)
    (t : TypeExpr) :
    (t.relabel L).viewAt (relabelBound ρ bound) home = (t.viewAt bound home).relabel ρ := by
  cases home with
  | predefined => exact t.predefinedView_relabel names
  | user site => exact t.view_relabel names bound site.type

/-- The text of a written type has no parts but names. -/
theorem text_relabel {L L' : Labels} (names : L.name = L'.name) (t : TypeExpr) :
    (t.relabel L).text = (t.relabel L').text := by
  induction t with
  | base | unknown => rfl
  | named name pos => exact congrFun names name.spelling
  | array element pos ih => simp only [relabel, text, ih]

end TypeExpr

theorem Decl.type_relabel (bound : Site → Option Decl) (d : Decl) :
    (d.relabel ρ).type (relabelBound ρ bound) = (d.type bound).relabel ρ := by
  cases d with
  | cls ref => rfl
  | field home d => exact d.type.viewAt_relabel (ρ.labels_name home) bound home
  | method home head => exact head.result.viewAt_relabel (ρ.labels_name home) bound home
  | param site d => exact d.type.viewAt_relabel rfl bound (.user site)
  | var site d => exact d.type.viewAt_relabel rfl bound (.user site)

theorem MethodHead.paramTypes_relabel (bound : Site → Option Decl) (home : Home)
    (head : MethodHead) :
    (head.relabel (ρ.labels home)).paramTypes (relabelBound ρ bound) home =
      (head.paramTypes bound home).map
        fun p => (p.1.relabel (ρ.labels home), p.2.relabel ρ) := by
  refine mapIdx_map (fun k p => ?_) head.params
  exact congrArg (Prod.mk _) (p.type.viewAt_relabel (ρ.labels_name home) bound _)

end JamCompiler
