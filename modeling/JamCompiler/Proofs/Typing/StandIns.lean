import JamCompiler.Proofs.Typing.Annotations
import JamCompiler.Proofs.Typing.Compatibility
import JamCompiler.Proofs.Typing.Declared
import JamCompiler.Proofs.Typing.Locality

/-!
# Types that stand in for errors

A type other than that of what was already reported that goes with a given type as well. There is
one for every type but the unsupported one, and that is never found in a program as it is read,
where no variable is declared with it. For a class or an array it is the type of `null`, since no
value of `String` goes with another one.
-/

namespace JamCompiler

open Pass

namespace ValueType

/-- Whether the unsupported type occurs nowhere in a type. -/
def Supported : ValueType → Prop
  | base b => b ≠ .unsupported
  | cls .. => True
  | array element => element.Supported

/-- What can stand for an error where a type is expected. -/
def standIn : ValueType → ValueType
  | base .error => base .int
  | base b => base b
  | cls .. | array _ => base .null

/-- The types of literals, and that of calls without a result. -/
inductive Plain : ValueType → Prop
  | int : Plain (base .int)
  | boolean : Plain (base .boolean)
  | null : Plain (base .null)
  | void : Plain (base .void)

theorem Plain.ne_error {t : ValueType} (h : t.Plain) : t ≠ error := by
  cases h <;> exact nofun

theorem Plain.supported {t : ValueType} (h : t.Plain) : t.Supported := by
  cases h <;> exact nofun

theorem standIn_plain {t : ValueType} (h : t.Supported) : t.standIn.Plain := by
  cases t with
  | base b =>
    cases b with
    | unsupported => exact absurd rfl h
    | int | error => exact .int
    | boolean => exact .boolean
    | void => exact .void
    | null => exact .null
  | cls | array => exact .null

theorem compatible_error_right (t : ValueType) : t.compatible error :=
  (compatible_comm t error).trans (compatible_error t)

theorem compatible_standIn {t : ValueType} (h : t.Supported) : t.compatible t.standIn := by
  cases t with
  | base b =>
    cases b with
    | unsupported => exact absurd rfl h
    | int | boolean | void | null | error => rfl
  | cls | array => rfl

theorem Proper.supported {t : ValueType} (h : t.Proper) : t.Supported := by
  induction t with
  | base b => cases b <;> first | exact h.elim | exact nofun
  | cls => trivial
  | array element ih => exact ih h

end ValueType

open ValueType

namespace TypeExpr

variable {type : TypeExpr}

theorem Written.viewAt_supported (h : type.Written) (bound : Site → Option Decl) (home : Home) :
    (type.viewAt bound home).Supported :=
  (h.viewAt_declarable bound home).proper.supported

theorem WrittenResult.viewAt_supported (h : type.WrittenResult) (bound : Site → Option Decl)
    (home : Home) : (type.viewAt bound home).Supported := by
  rcases h.viewAt_cases bound home with declarable | isVoid
  · exact declarable.proper.supported
  · rw [isVoid]
    exact nofun

end TypeExpr

theorem Decl.Written.type_supported {d : Decl} (h : d.Written) (bound : Site → Option Decl) :
    (d.type bound).Supported := by
  cases d with
  | cls => trivial
  | field home f => exact TypeExpr.Written.viewAt_supported h bound home
  | method home head => exact h.1.viewAt_supported bound home
  | param site p | var site v => exact TypeExpr.Written.viewAt_supported h bound (.user site)

theorem MethodHead.paramTypes_supported {head : MethodHead} (h : ∀ p ∈ head.params, p.type.Written)
    (bound : Site → Option Decl) (home : Home) :
    ∀ p ∈ head.paramTypes bound home, p.2.Supported := by
  intro p hp
  obtain ⟨k, hk, rfl⟩ := List.mem_mapIdx.mp hp
  exact (h _ (List.getElem_mem hk)).viewAt_supported bound _

namespace Typing

variable {α : Type} {x : Typing α} {region : Region} {ctx : Context} {site : Site}
  {m : SiteMap ValueType}

theorem Local.ends_free (h : Local region x) (outside : ¬ region site) (free : m.get? site = none) :
    Ends x m fun _ m' => m'.get? site = none := by
  refine ⟨fun {log _ _} run => ?_⟩
  have same := h.frame outside ⟨log, m⟩
  rw [run] at same
  exact same.trans free

/-- That names are bound to declarations that can be written. -/
abbrev Context.Declared (ctx : Context) : Prop := ∀ s d, ctx.bound s = some d → d.Written

theorem ends_declOf (declared : ctx.Declared) (r : Reference) :
    Ends (declOf ctx site r) m fun d m' => d.Written ∧ m' = m := by
  unfold declOf
  cases known : ctx.bound site with
  | some d => exact .pure ⟨declared site d known, rfl⟩
  | none => exact .fatal

theorem ends_faulty (fault : TypeFault) (pos : Nat) :
    Ends (faulty fault pos) m fun t m' => t.Supported ∧ m' = m :=
  (quiet_report fault pos m).bind fun _ _ same => .pure ⟨nofun, same⟩

theorem ends_checkValue (declared : ctx.Declared) (r : Reference) :
    Ends (checkValue ctx site r) m fun t m' => t.Supported ∧ m' = m := by
  refine (ends_declOf declared r).bind fun d m' ⟨written, same⟩ => ?_
  subst same
  split
  · exact .pure ⟨written.type_supported _, rfl⟩
  · exact ends_faulty _ _
  · exact ends_faulty _ _
  · split
    · exact ends_faulty _ _
    · exact .pure ⟨written.type_supported _, rfl⟩

theorem ends_checkTarget (declared : ctx.Declared) (r : Reference) :
    Ends (checkTarget ctx site r) m fun t m' => t.Supported ∧ m' = m := by
  refine (ends_declOf declared r).bind fun d m' ⟨written, same⟩ => ?_
  subst same
  split
  · exact ends_faulty _ _
  · exact ends_faulty _ _
  · exact ends_faulty _ _
  · split
    · exact ends_faulty _ _
    · split
      · exact ends_faulty _ _
      · exact .pure ⟨written.type_supported _, rfl⟩

theorem ends_checkUnary (op : UnaryOp) (pos : Nat) (given : ValueType) :
    Ends (checkUnary op pos given) m fun t m' => t.Supported ∧ m' = m := by
  unfold checkUnary
  cases op with
  | neg | not =>
    dsimp only
    split
    · exact .pure ⟨nofun, rfl⟩
    · exact ends_faulty _ _
  | other text => exact .fatal

theorem ends_checkBinary (op : BinaryOp) (pos : Nat) (left right : ValueType) :
    Ends (checkBinary op pos left right) m fun t m' => t.Supported ∧ m' = m := by
  unfold checkBinary
  cases op with
  | other text => exact .fatal
  | or | and | eq | ne | lt | le | gt | ge | add | sub | mul | div =>
    dsimp only
    split
    · exact .pure ⟨nofun, rfl⟩
    · exact ends_faulty _ _

theorem ends_checkCall {d : Decl} (written : d.Written) (r : Reference) (pos : Nat)
    (args : List (Nat × ValueType)) :
    Ends (checkCall ctx d r pos args) m fun t m' => t.Supported ∧ m' = m := by
  unfold checkCall
  split
  · split
    · exact ends_faulty _ _
    · exact (quiet_matchArgs _ _ _ m).bind fun _ _ same => .pure ⟨written.type_supported _, same⟩
  · exact ends_faulty _ _

/-- A type that is found for a node that has none is its type. -/
theorem ends_recorded_supported {x : Typing ValueType} (free : m.get? site = none)
    (h : Ends x m fun t m' => t.Supported ∧ m' = m) :
    Ends (x >>= record site) m fun t _ => t.Supported := by
  refine h.bind fun t m' ⟨supported, same⟩ => ?_
  subst same
  refine (ends_record free t).imp fun a _ ⟨_, _, same⟩ => ?_
  exact same ▸ supported

theorem ends_record_supported (free : m.get? site = none) {t : ValueType}
    (supported : t.Supported) : Ends (record site t) m fun t _ => t.Supported :=
  (ends_record free t).imp fun _ _ ⟨_, _, same⟩ => same ▸ supported

/-- No expression that can be written is found to have the unsupported type. -/
theorem ends_checkExpr_supported (declared : ctx.Declared) (free : m.get? site = none) (e : Expr)
    (written : e.Written) : Ends (checkExpr ctx site e) m fun t _ => t.Supported := by
  have child (e' : Expr) (k : Nat) {m : SiteMap ValueType} (free : m.get? site = none) :
      Ends (checkExpr ctx (site.child k) e') m fun _ m' => m'.get? site = none :=
    (local_checkExpr ctx (site.child k) e').ends_free (not_below_child site k) free
  cases e with
  | int => exact ends_record_supported free Plain.int.supported
  | bool => exact ends_record_supported free Plain.boolean.supported
  | null => exact ends_record_supported free Plain.null.supported
  | unknown => exact .fatal
  | unary op operand pos =>
    exact (child operand 0 free).bind fun _ _ free' =>
      ends_recorded_supported free' (ends_checkUnary _ _ _)
  | binary op left right pos =>
    exact (child left 0 free).bind fun _ _ free₁ => (child right 1 free₁).bind fun _ _ free₂ =>
      ends_recorded_supported free₂ (ends_checkBinary _ _ _ _)
  | ref r pos => exact ends_recorded_supported free (ends_checkValue declared r)
  | index r i pos =>
    refine (ends_checkValue declared r).bind fun type m' valued => ?_
    obtain ⟨supported, rfl⟩ := valued
    refine (child i 1 free).bind fun given m₁ free₁ => ends_unless ?_
    split
    · exact ends_record_supported free₁ supported
    · exact ends_record_supported free₁ supported
    · exact ends_recorded_supported free₁ (ends_faulty _ _)
  | call method args pos =>
    refine (ends_declOf declared method).bind fun d m' named => ?_
    obtain ⟨written, rfl⟩ := named
    have rest := (local_checkArgs ctx site 0 args).ends_free (not_itemsFrom site 1 0) free
    exact rest.bind fun _ _ free' => ends_recorded_supported free' (ends_checkCall written _ _ _)
  | newObject type pos =>
    exact ends_record_supported free (written.view_proper _ _).supported
  | newArray element size pos =>
    refine (child size 1 free).bind fun given m₁ free₁ => ends_unless ?_
    exact ends_record_supported free₁ (written.1.view_proper _ _).supported

end Typing

end JamCompiler
