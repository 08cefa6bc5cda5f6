import JamCompiler.ScopeTable

/-!
# Scope tables inside methods

Inside a method the scopes above that of the members hold its parameters and local variables. Since
none of them may hide another, they act as one list of names, `ScopeTable.locals`, whose latest
entry comes first. Beyond it lie the scopes that the method does not change.
-/

namespace JamCompiler

section Lookup

variable {κ ν : Type} [BEq κ] [LawfulBEq κ] {l l' : List (κ × ν)} {k : κ} {v : ν}

theorem lookup_cons_of_ne {k' : κ} (other : k ≠ k') : ((k', v) :: l).lookup k = l.lookup k := by
  rw [List.lookup_cons, beq_false_of_ne other]

/-- With keys that differ a key has the value it stands beside. -/
theorem lookup_eq_some_iff_mem (distinct : (l.map Prod.fst).Nodup) :
    l.lookup k = some v ↔ (k, v) ∈ l := by
  induction l with
  | nil => simp
  | cons p rest ih =>
    obtain ⟨k', v'⟩ := p
    simp only [List.map_cons, List.nodup_cons, List.mem_map, not_exists, not_and] at distinct
    by_cases same : k = k'
    · subst same
      have absent : (k, v) ∉ rest := fun h => distinct.1 (k, v) h rfl
      simp [absent, eq_comm]
    · rw [lookup_cons_of_ne same, ih distinct.2]
      simp [same]

theorem mem_of_lookup (h : l.lookup k = some v) : (k, v) ∈ l := by
  obtain ⟨before, after, rfl, -⟩ := List.lookup_eq_some_iff.mp h
  simp

theorem lookup_eq_of_perm (distinct : (l.map Prod.fst).Nodup) (perm : l.Perm l') :
    l'.lookup k = l.lookup k := by
  have distinct' : (l'.map Prod.fst).Nodup := (perm.map Prod.fst).nodup_iff.mp distinct
  apply Option.ext
  intro v
  rw [lookup_eq_some_iff_mem distinct, lookup_eq_some_iff_mem distinct', perm.mem_iff]

theorem lookup_reverse (distinct : (l.map Prod.fst).Nodup) : l.reverse.lookup k = l.lookup k :=
  lookup_eq_of_perm distinct (List.reverse_perm l).symm

/-- To look a key up is to search for the first element that has it. -/
theorem lookup_map_self {α : Type} (key : α → κ) (l : List α) (k : κ) :
    (l.map fun a => (key a, a)).lookup k = l.find? (key · == k) := by
  induction l with
  | nil => rfl
  | cons a l ih =>
    rw [List.map_cons, List.find?_cons]
    by_cases same : key a = k
    · simp [same]
    · rw [lookup_cons_of_ne (Ne.symm same), ih, beq_false_of_ne same]

omit [LawfulBEq κ] in
theorem lookup_map_snd {μ : Type} (f : ν → μ) (l : List (κ × ν)) :
    (l.map fun p => (p.1, f p.2)).lookup k = (l.lookup k).map f := by
  induction l with
  | nil => rfl
  | cons p rest ih =>
    rw [List.map_cons, List.lookup_cons, List.lookup_cons, ih]
    split <;> rfl

omit [LawfulBEq κ] in
theorem lookup_flatten (scopes : List (List (κ × ν))) :
    scopes.flatten.lookup k = scopes.findSome? (·.lookup k) := by
  induction scopes with
  | nil => rfl
  | cons scope rest ih =>
    rw [List.flatten_cons, List.lookup_append, ih, List.findSome?_cons]
    cases scope.lookup k <;> rfl

end Lookup

namespace ScopeTable

/-- The parameters and local variables in force, innermost first. -/
def locals (t : ScopeTable) : Scope := (t.inner.take (t.level - 2)).flatten

/-- What a name means that is neither a parameter nor a local variable. -/
def outer? (t : ScopeTable) (name : String) : Option Decl :=
  (t.inner.drop (t.level - 2) ++ [t.predefined]).findSome? (·.lookup name)

/-- Puts a declaration into the innermost scope within the predefined one. -/
def push (t : ScopeTable) (d : Decl) : ScopeTable :=
  match t.inner with
  | [] => t
  | scope :: outer => { t with inner := ((d.name, d) :: scope) :: outer }

/-- Two tables that differ in their innermost scopes at most. -/
structure SameAround (t u : ScopeTable) : Prop where
  tail : u.inner.tail = t.inner.tail
  inside : u.inner ≠ []
  predefined : u.predefined = t.predefined
  classes : u.classes = t.classes
  members : u.members = t.members

variable {t u v : ScopeTable} {d : Decl}

theorem SameAround.trans (h : SameAround t u) (h' : SameAround u v) : SameAround t v :=
  ⟨h'.tail.trans h.tail, h'.inside, h'.predefined.trans h.predefined,
    h'.classes.trans h.classes, h'.members.trans h.members⟩

theorem retrieve?_eq (t : ScopeTable) (name : String) :
    t.retrieve? name = (t.locals.lookup name).or (t.outer? name) := by
  rw [locals, lookup_flatten, outer?, ← List.findSome?_append, ← List.append_assoc,
    List.take_append_drop]
  rfl

theorem level_ne_zero (inside : 3 ≤ t.level) : ∃ scope outer, t.inner = scope :: outer := by
  cases h : t.inner with
  | nil => simp [level, h] at inside
  | cons scope outer => exact ⟨scope, outer, rfl⟩

theorem locals_eq (inside : 3 ≤ t.level) :
    t.locals = t.current ++ t.enclosingLocals.flatten := by
  obtain ⟨scope, outer, inner⟩ := level_ne_zero inside
  have level : t.level - 2 = (t.level - paramLevel) + 1 := by simp only [paramLevel]; omega
  rw [locals, level]
  simp [current, enclosingLocals, inner]

theorem any_holds (scopes : List Scope) (name : String) :
    scopes.any (holds · name) = (scopes.flatten.lookup name).isSome := by
  rw [lookup_flatten]
  induction scopes with
  | nil => rfl
  | cons scope rest ih =>
    rw [List.any_cons, ih, List.findSome?_cons, holds]
    cases scope.lookup name <;> rfl

/-- Inside a method a name can be declared unless a parameter or local variable has it. -/
theorem enter?_of_free (inside : 3 ≤ t.level) (free : t.locals.lookup d.name = none) :
    t.enter? d = .ok (t.push d) := by
  rw [locals_eq inside, List.lookup_append, Option.or_eq_none_iff] at free
  obtain ⟨scope, outer, inner⟩ := level_ne_zero inside
  rw [enter?, any_holds, holds, free.1, free.2]
  simp [push, inner]

theorem enter?_of_taken (inside : 3 ≤ t.level) (taken : t.locals.lookup d.name ≠ none) :
    ∃ fault, t.enter? d = .error fault := by
  rw [locals_eq inside, List.lookup_append, Ne, Option.or_eq_none_iff] at taken
  by_cases own : t.current.lookup d.name = none
  · have others : (t.enclosingLocals.flatten.lookup d.name).isSome :=
      Option.isSome_iff_ne_none.mpr fun h => taken ⟨own, h⟩
    refine ⟨.hidesLocal d.name, ?_⟩
    rw [enter?, any_holds, holds, own, others]
    rfl
  · refine ⟨.duplicate d.name, ?_⟩
    rw [enter?, holds, Option.isSome_iff_ne_none.mpr own]
    rfl

theorem level_push : (t.push d).level = t.level := by
  unfold push level
  split <;> simp_all

theorem locals_push (inside : 3 ≤ t.level) : (t.push d).locals = (d.name, d) :: t.locals := by
  obtain ⟨scope, outer, inner⟩ := level_ne_zero inside
  have level : t.level - 2 = (t.level - 3) + 1 := by omega
  simp only [locals, level_push]
  rw [level]
  simp [push, inner]

theorem outer?_push (inside : 3 ≤ t.level) : (t.push d).outer? = t.outer? := by
  obtain ⟨scope, outer, inner⟩ := level_ne_zero inside
  have level : t.level - 2 = (t.level - 3) + 1 := by omega
  funext name
  simp only [outer?, level_push]
  rw [level]
  simp [push, inner]

theorem sameAround_push (inside : 3 ≤ t.level) : SameAround t (t.push d) := by
  obtain ⟨scope, outer, inner⟩ := level_ne_zero inside
  constructor <;> simp [push, inner]

theorem locals_openScope (inside : 2 ≤ t.level) : t.openScope.locals = t.locals := by
  have level : t.level + 1 - 2 = (t.level - 2) + 1 := by omega
  rw [locals, level_openScope, level]
  simp [openScope, locals]

theorem outer?_openScope (inside : 2 ≤ t.level) : t.openScope.outer? = t.outer? := by
  have level : t.level + 1 - 2 = (t.level - 2) + 1 := by omega
  funext name
  rw [outer?, level_openScope, level]
  simp [openScope, outer?]

theorem closeScope?_of_sameAround (h : SameAround t.openScope u) : u.closeScope? = .ok t := by
  obtain ⟨tail, inside, predefined, classes, members⟩ := h
  obtain ⟨upre, uinner, ucls, umem⟩ := u
  cases uinner with
  | nil => simp at inside
  | cons scope outer =>
    simp only [openScope, List.tail_cons] at tail predefined classes members
    subst tail predefined classes members
    rfl

end ScopeTable

end JamCompiler
