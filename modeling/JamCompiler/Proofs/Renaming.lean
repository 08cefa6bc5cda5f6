import JamCompiler.Proofs.Relabelling.Pieces
import JamCompiler.Proofs.Relabelling.Texts
import Mathlib.Logic.Equiv.Fintype

/-!
# Renaming

The compiler compares names with each other, and with the few that it knows. So when other names are
put into a text, different ones for different ones and for the known ones themselves, it compiles to
the same code, or is refused at the same tokens.
-/

namespace JamCompiler

/-- The names that a program can use without declaring them, and that of its entry. -/
def languageNames : List String := ["main", "String", "System", "out", "println", "length"]

/-- The name that a token is, if it is one. -/
def TokenKind.name? : TokenKind → Option String
  | ident name => some name
  | number _ | keyword _ | symbol _ => none

namespace Text

/-- The names that stand in a text. -/
def names (text : List Char) : List String :=
  (kinds (Scan.ofText text).tokens).filterMap TokenKind.name?

/-- Whether other names are put for the names in a text, and none for those of the language. -/
structure Renaming (text : List Char) (f : String → String) : Prop where
  isName : ∀ n ∈ names text, IsName (f n)
  keeps : ∀ n ∈ languageNames, f n = n
  injective : ∀ n ∈ names text ++ languageNames, ∀ m ∈ names text ++ languageNames,
    f n = f m → n = m

variable {text : List Char} {f : String → String}

theorem mem_names {n : String} : n ∈ names text ↔ .ident n ∈ kinds (Scan.ofText text).tokens := by
  rw [names, List.mem_filterMap]
  constructor
  · rintro ⟨k, mem, same⟩
    cases k with
    | ident name =>
      cases same
      exact mem
    | number | keyword | symbol => cases same
  · exact fun mem => ⟨_, mem, rfl⟩

theorem isName_of_mem {n : String} (mem : n ∈ names text) : IsName n := by
  obtain ⟨t, ht, kind⟩ := List.mem_map.mp (mem_names.mp mem)
  have writable := (Scan.writable_of_mem ht).1
  rwa [kind] at writable

namespace Renaming

/-- No name that is put or put for is that of the class of `System.out`, which is no word. -/
theorem ne_hidden (h : Renaming text f) {n : String} (mem : n ∈ names text ++ languageNames) :
    n ≠ "_PrintStream" ∧ f n ≠ "_PrintStream" := by
  have noName : ¬ IsName "_PrintStream" := fun isName => absurd isName.word (by decide)
  rcases List.mem_append.mp mem with own | known
  · constructor
    · rintro rfl
      exact noName (isName_of_mem own)
    · intro same
      exact noName (same ▸ h.isName n own)
  · have other : n ≠ "_PrintStream" := by
      rintro rfl
      exact absurd known (by decide)
    exact ⟨other, (h.keeps n known).symm ▸ other⟩

/-- What is put for the names in a text is put by something that can be put for all names. -/
theorem exists_keepsApart (h : Renaming text f) :
    ∃ name, KeepsApart name ∧ ∀ n ∈ names text, name n = f n := by
  -- The class of System.out keeps its name too, though no text can have it.
  let put := Function.update f "_PrintStream" "_PrintStream"
  have same {n : String} (mem : n ∈ names text ++ languageNames) : put n = f n :=
    Function.update_of_ne (h.ne_hidden mem).1 _ _
  have hidden : put "_PrintStream" = "_PrintStream" := Function.update_self _ _ _
  let domain := "_PrintStream" :: (names text ++ languageNames)
  have apart : Function.Injective fun n : { n // n ∈ domain } => put n := by
    rintro ⟨n, hn⟩ ⟨m, hm⟩ equal
    refine Subtype.ext ?_
    change put n = put m at equal
    rcases List.mem_cons.mp hn with rfl | hn <;> rcases List.mem_cons.mp hm with rfl | hm
    · rfl
    · rw [hidden, same hm] at equal
      exact absurd equal.symm (h.ne_hidden hm).2
    · rw [hidden, same hn] at equal
      exact absurd equal (h.ne_hidden hn).2
    · rw [same hn, same hm] at equal
      exact h.injective n hn m hm equal
  obtain ⟨name, extended⟩ := Equiv.Perm.exists_extending_pair
    (fun n : { n // n ∈ domain } => (n : String)) (fun n => put n) Subtype.val_injective apart
  have agrees {n : String} (mem : n ∈ names text ++ languageNames) : name n = f n :=
    (extended ⟨n, List.mem_cons_of_mem _ mem⟩).trans (same mem)
  refine ⟨name, ⟨name.injective, fun n known => ?_⟩,
    fun n own => agrees (List.mem_append_left _ own)⟩
  have cases : ∀ n ∈ knownNames, n = "_PrintStream" ∨ n ∈ languageNames := by decide
  obtain rfl | known := cases n known
  · exact (extended ⟨_, List.mem_cons_self⟩).trans hidden
  · rw [agrees (List.mem_append_right _ known), h.keeps n known]

end Renaming

end Text

/-- A text with other names compiles to the same: with the same status, errors and notes at the same
tokens, and the same code if there is code. -/
theorem names_irrelevant {text : List Char} {p : Program} (parsed : Program.ofText? text = .ok p)
    {f : String → String} (renames : Text.Renaming text f) (failFast : Bool) :
    let ts := (Scan.ofText text).tokens
    let ts' := (Scan.ofText (Text.rename f text)).tokens
    ts'.map Token.kind = (ts.map Token.kind).map (TokenKind.rename f) ∧
      ∃ r r', compile text failFast = .ok r ∧ compile (Text.rename f text) failFast = .ok r' ∧
        r.status = r'.status ∧
        List.Forall₂ (fun d d' => Corresponding ts ts' d.pos d'.pos) r.log.errors r'.log.errors ∧
        List.Forall₂ (fun d d' => Corresponding ts ts' d.pos d'.pos) r.log.notes r'.log.notes ∧
        (r.status = .success → ∃ o o', r.object = some o ∧ r'.object = some o' ∧ o.code = o'.code ∧
          o.staticSize = o'.staticSize ∧ o.entry = o'.entry) := by
  have whole := (Program.ReadAs.ok_iff.mp parsed).1
  obtain ⟨whole', renamed⟩ := Text.scan_rename text 0 1 whole fun n mem =>
    renames.isName n (Text.mem_names.mpr mem)
  obtain ⟨name, apart, agrees⟩ := renames.exists_keepsApart
  have everywhere : kinds (Scan.ofText (Text.rename f text)).tokens =
      (kinds (Scan.ofText text).tokens).map (TokenKind.rename name) := by
    refine renamed.trans (List.map_congr_left fun k mem => ?_)
    cases k with
    | ident n => rw [TokenKind.rename, TokenKind.rename, agrees n (Text.mem_names.mpr mem)]
    | number | keyword | symbol => rfl
  obtain ⟨r, r', result, result', together, -⟩ :=
    goTogether_of_renamed apart whole whole' everywhere parsed failFast
  refine ⟨renamed, r, r', result, result', together.status, together.errors, together.notes,
    fun ok => ?_⟩
  obtain ⟨-, -, o, -, -, object, -⟩ := accepted_of_compile result ok
  obtain ⟨o', object', code⟩ := together.same_code object
  exact ⟨o, o', object, object', code⟩

/-- A program with two variables. -/
def twoVariablesText : List Char :=
  "class A{public static void main(String[] a){int x=1;int yy=x;}}".toList

/-- Exchanges the two variables and puts another name for the class. -/
def exchange (n : String) : String :=
  if n = "x" then "yy" else if n = "yy" then "x" else if n = "A" then "Main" else n

/-- A text with other names that compiles to the same code. -/
theorem twoVariablesText_exchange :
    (∃ p, Program.ofText? twoVariablesText = .ok p) ∧
    Text.Renaming twoVariablesText exchange ∧
    Text.rename exchange twoVariablesText =
      "class Main{public static void main(String[] a){int yy=1;int x=yy;}}".toList ∧
    ∃ r r', compile twoVariablesText false = .ok r ∧
      compile (Text.rename exchange twoVariablesText) false = .ok r' ∧ r.status = .success ∧
      r.status = r'.status ∧ ∃ o o', r.object = some o ∧ r'.object = some o' ∧ o.code = o'.code ∧
        o.staticSize = o'.staticSize ∧ o.entry = o'.entry := by
  obtain ⟨r, compiled, ok⟩ := exists_ok_of_any (x := compile twoVariablesText false)
    (P := fun r => decide (r.status = .success)) (by decide +kernel)
  obtain ⟨p, -, -, parsed, -⟩ := accepted_of_compile compiled (of_decide_eq_true ok)
  have names : Text.names twoVariablesText =
      ["A", "main", "String", "a", "x", "yy", "x"] := by decide +kernel
  have renames : Text.Renaming twoVariablesText exchange := by
    refine ⟨?_, by decide, ?_⟩
    · rw [names]
      decide +kernel
    · rw [names]
      decide +kernel
  obtain ⟨-, r₀, r', compiled₀, compiled', status, -, -, code⟩ :=
    names_irrelevant parsed renames false
  cases compiled.symm.trans compiled₀
  exact ⟨⟨p, parsed⟩, renames, by decide +kernel, r, r', compiled, compiled', of_decide_eq_true ok,
    status, code (of_decide_eq_true ok)⟩

end JamCompiler
