import JamCompiler.Proofs.Generating
import JamCompiler.Proofs.Relabelling.Compile
import JamCompiler.Proofs.Relabelling.Reading
import JamCompiler.Proofs.Results
import JamCompiler.Proofs.RoundTrip

/-!
# Texts with tokens that go together

Two texts whose tokens are the same but for names are the same tokens, numbered from the first one
on, with names and positions put in in two ways. So they are the same program, relabelled in two
ways, and compile to the same.

A position that no token has can be put in as any number above them. Since this choice makes no
difference to the program that is read, every diagnostic stands where a token stands, or at zero.
-/

namespace JamCompiler

open Program (numbered)

/-- Where the tokens stand, by their number; after the last one, places from `base` on. -/
def placeAt (ts : List Token) (base k : Nat) : Nat := (ts[k]?.map Token.pos).getD (base + k)

/-- A place after those of all tokens. -/
def baseOf : List Token → Nat
  | [] => 0
  | t :: ts => t.pos + 1 + baseOf ts

theorem pos_lt_baseOf {ts : List Token} {t : Token} (h : t ∈ ts) : t.pos < baseOf ts := by
  induction ts with
  | nil => cases h
  | cons u ts ih =>
    rw [baseOf]
    rcases List.mem_cons.mp h with rfl | h
    · omega
    · have := ih h
      omega

theorem placeAt_strictMono {ts : List Token} {base : Nat}
    (sorted : (ts.map Token.pos).Pairwise (· < ·)) (above : baseOf ts ≤ base) :
    StrictMono (placeAt ts base) := by
  intro k j lt
  unfold placeAt
  cases second : ts[j]? with
  | none =>
    cases first : ts[k]? with
    | none => simpa using lt
    | some t =>
      have below := pos_lt_baseOf (List.mem_of_getElem? first)
      simp only [Option.map_some, Option.getD_some, Option.map_none, Option.getD_none]
      omega
  | some t =>
    obtain ⟨hj, rfl⟩ := List.getElem?_eq_some_iff.mp second
    have ordered := List.pairwise_iff_getElem.mp sorted k j (by simp; omega) (by simpa using hj) lt
    rw [List.getElem?_eq_getElem (Nat.lt_trans lt hj)]
    simpa using ordered

/-- What is put for names: other names, but for those that the compiler looks for. -/
structure KeepsApart (name : String → String) : Prop where
  injective : Function.Injective name
  keeps : ∀ n ∈ knownNames, name n = n

theorem keepsApart_id : KeepsApart id := ⟨Function.injective_id, fun _ _ => rfl⟩

/-- What puts names and the places of a text's tokens. -/
def Relabelling.ofText {name : String → String} (apart : KeepsApart name) (text : List Char)
    (base : Nat) (above : baseOf (Scan.ofText text).tokens ≤ base) : Relabelling where
  name := name
  place := placeAt (Scan.ofText text).tokens base
  name_injective := apart.injective
  place_strictMono := placeAt_strictMono (Scan.sorted_tokens text) above
  keeps := apart.keeps

theorem numbered_relabel {ts : List Token} {ks : List TokenKind} {ρ : Relabelling} {base : Nat}
    (places : ρ.place = placeAt ts base) (renamed : kinds ts = ks.map (TokenKind.rename ρ.name)) :
    (numbered ks).map (Token.relabel ρ fun k => (ts[k]?.map Token.line).getD 0) = ts := by
  apply List.ext_getElem?
  intro k
  have kind := congrArg (·[k]?) renamed
  simp only [kinds, List.getElem?_map] at kind
  simp only [numbered, List.map_map, List.getElem?_map, List.getElem?_zipIdx]
  cases here : ts[k]? with
  | none =>
    rw [here] at kind
    cases known : ks[k]? with
    | none => rfl
    | some k => rw [known] at kind; cases kind
  | some t =>
    rw [here] at kind
    cases known : ks[k]? with
    | none => rw [known] at kind; cases kind
    | some k' =>
      rw [known] at kind
      have same : t.kind = k'.rename ρ.name := Option.some.inj kind
      simp [Token.relabel, ← same, places, placeAt, here]

/-- A text is read as its tokens, numbered, with names and places put in. -/
theorem Program.ofText?_numbered {text : List Char} (whole : (Scan.ofText text).fault = none)
    {ks : List TokenKind} {ρ : Relabelling} {base : Nat}
    (places : ρ.place = placeAt (Scan.ofText text).tokens base)
    (renamed : kinds (Scan.ofText text).tokens = ks.map (TokenKind.rename ρ.name)) :
    ofText? text = match ofScan? ⟨numbered ks, none, 0⟩ with
      | .ok p => .ok (p.relabel ρ.written)
      | .error fault => .error (fault.relabel ρ) := by
  have scan : Scan.ofText text = ⟨(numbered ks).map (Token.relabel ρ fun k =>
      ((Scan.ofText text).tokens[k]?.map Token.line).getD 0), none, (Scan.ofText text).line⟩ := by
    rw [numbered_relabel places renamed, ← whole]
  rw [ofText?, scan]
  exact ofScan?_relabel ρ _ (numbered ks) _ 0

/-- The positions of tokens that go together, or zero twice. -/
def Corresponding (ts ts' : List Token) (pos pos' : Int) : Prop :=
  (∃ t t', (t, t') ∈ ts.zip ts' ∧ pos = t.pos ∧ pos' = t'.pos) ∨ pos = 0 ∧ pos' = 0

/-- Positions that go together whichever places are put after the tokens are those of tokens. -/
theorem corresponding_of_places {ts ts' : List Token} (length : ts.length = ts'.length)
    {base base' : Nat} {ρ σ ρ' : Relabelling} (hρ : ρ.place = placeAt ts base)
    (hσ : σ.place = placeAt ts (base + 1)) (hρ' : ρ'.place = placeAt ts' base') {pos pos' : Int}
    (places : Places ρ ρ' pos pos') (places' : Places σ ρ' pos pos') :
    Corresponding ts ts' pos pos' := by
  -- A number with no token stands at base + k in the one choice and at base + 1 + k in the other.
  obtain ⟨k, rfl, rfl⟩ | zero := places
  · obtain ⟨j, same, same'⟩ | zero := places'
    · obtain rfl : k = j := ρ'.place_strictMono.injective (Int.ofNat_inj.mp same')
      cases here : ts[k]? with
      | none =>
        rw [hρ, hσ, placeAt, placeAt, here] at same
        have : base + k = base + 1 + k := Int.ofNat_inj.mp same
        omega
      | some t =>
        obtain ⟨hk, rfl⟩ := List.getElem?_eq_some_iff.mp here
        have hk' : k < ts'.length := length ▸ hk
        have paired : k < (ts.zip ts').length := by
          rw [List.length_zip]
          omega
        refine .inl ⟨ts[k], ts'[k], ?_, ?_, ?_⟩
        · rw [← List.getElem_zip (h := paired)]
          exact List.getElem_mem paired
        · rw [hρ, placeAt, here]
          rfl
        · rw [hρ', placeAt, List.getElem?_eq_getElem hk']
          rfl
    · exact .inr zero
  · exact .inr zero

theorem forall₂_and {α β : Type} {R S T : α → β → Prop} (h : ∀ a b, R a b → S a b → T a b)
    {as : List α} {bs : List β} (first : List.Forall₂ R as bs) (second : List.Forall₂ S as bs) :
    List.Forall₂ T as bs := by
  induction first with
  | nil => exact .nil
  | cons r _ ih =>
    cases second with
    | cons s rest => exact .cons (h _ _ r s) (ih rest)

/-- What the results of compiling texts that go together have in common. -/
structure CompileResult.GoTogether (ts ts' : List Token) (r r' : CompileResult) : Prop where
  status : r.status = r'.status
  errors : List.Forall₂ (fun d d' => Corresponding ts ts' d.pos d'.pos) r.log.errors r'.log.errors
  notes : List.Forall₂ (fun d d' => Corresponding ts ts' d.pos d'.pos) r.log.notes r'.log.notes
  object : r.object.map (fun o => (o.code, o.staticSize, o.entry)) =
    r'.object.map fun o => (o.code, o.staticSize, o.entry)

/-- Where one of the results has code, both have the same. -/
theorem CompileResult.GoTogether.same_code {ts ts' : List Token} {r r' : CompileResult}
    (together : r.GoTogether ts ts' r') {o : ObjectCode} (object : r.object = some o) :
    ∃ o', r'.object = some o' ∧ o.code = o'.code ∧ o.staticSize = o'.staticSize ∧
      o.entry = o'.entry := by
  have objects := together.object
  rw [object, Option.map_some] at objects
  obtain ⟨o', object', fields⟩ := Option.map_eq_some_iff.mp objects.symm
  simp only [Prod.mk.injEq] at fields
  obtain ⟨code, size, entry⟩ := fields
  exact ⟨o', object', code.symm, size.symm, entry.symm⟩

section GoTogether

variable {text text' : List Char} {name : String → String} {p : Program}

/-- If one of two texts that go together is read, so is the other, and they compile to results that
are alike. -/
theorem endsAlike_of_renamed (whole : (Scan.ofText text).fault = none)
    (whole' : (Scan.ofText text').fault = none) (ρ ρ' : Relabelling) {base base' : Nat}
    (hρ : ρ.place = placeAt (Scan.ofText text).tokens base) (named : ρ.name = id)
    (hρ' : ρ'.place = placeAt (Scan.ofText text').tokens base')
    (renamed : kinds (Scan.ofText text').tokens =
      (kinds (Scan.ofText text).tokens).map (TokenKind.rename ρ'.name))
    (parsed : Program.ofText? text = .ok p) (failFast : Bool) :
    (∃ p', Program.ofText? text' = .ok p') ∧
      EndsAlike ρ ρ' (compile text failFast) (compile text' failFast) := by
  have own : kinds (Scan.ofText text).tokens =
      (kinds (Scan.ofText text).tokens).map (TokenKind.rename ρ.name) := by
    rw [named, TokenKind.map_rename_id]
  have read := Program.ofText?_numbered whole hρ own
  have read' := Program.ofText?_numbered whole' hρ' renamed
  cases common : Program.ofScan? ⟨numbered (kinds (Scan.ofText text).tokens), none, 0⟩ with
  | error fault =>
    rw [read, common] at parsed
    cases parsed
  | ok q =>
    rw [common] at read read'
    refine ⟨⟨_, read'⟩, ?_⟩
    rw [compile, compile, read, read']
    exact q.compile_relabel failFast

/-- Texts with the same tokens but for names compile to results that go together. -/
theorem goTogether_of_renamed (apart : KeepsApart name) (whole : (Scan.ofText text).fault = none)
    (whole' : (Scan.ofText text').fault = none)
    (renamed : kinds (Scan.ofText text').tokens =
      (kinds (Scan.ofText text).tokens).map (TokenKind.rename name))
    (parsed : Program.ofText? text = .ok p) (failFast : Bool) :
    ∃ r r', compile text failFast = .ok r ∧ compile text' failFast = .ok r' ∧
      r.GoTogether (Scan.ofText text).tokens (Scan.ofText text').tokens r' ∧
      (name = id → r.log.errors.map (·.fault.shown) = r'.log.errors.map (·.fault.shown) ∧
        r.log.notes.map (·.fault.shown) = r'.log.notes.map (·.fault.shown)) := by
  have ends := fun base above => endsAlike_of_renamed whole whole'
    (.ofText keepsApart_id text base above) (.ofText apart text' _ (Nat.le_refl _))
    rfl rfl rfl renamed parsed failFast
  -- The same results are compared twice, with other places after the tokens of the first text.
  obtain ⟨⟨p', parsed'⟩, alike⟩ := ends _ (Nat.le_refl _)
  obtain ⟨-, alike'⟩ := ends _ (Nat.le_succ _)
  obtain ⟨r, result⟩ := exists_compile parsed failFast
  obtain ⟨r', result'⟩ := exists_compile parsed' failFast
  rw [result, result'] at alike alike'
  cases alike with
  | ok alike =>
  cases alike' with
  | ok alike' =>
  have length : (Scan.ofText text).tokens.length = (Scan.ofText text').tokens.length := by
    have := congrArg List.length renamed
    simpa [kinds] using this.symm
  refine ⟨r, r', result, result', ⟨alike.status, ?_, ?_, ?_⟩, fun same => ⟨?_, ?_⟩⟩
  · exact forall₂_and
      (fun d d' h h' => corresponding_of_places length rfl rfl rfl h.places h'.places)
      alike.logs.errors alike'.logs.errors
  · exact forall₂_and
      (fun d d' h h' => corresponding_of_places length rfl rfl rfl h.places h'.places)
      alike.logs.notes alike'.logs.notes
  · obtain ⟨o, object, object'⟩ := alike.object
    rw [object, object', ObjectCode.relabel?, ObjectCode.relabel?, Option.map_map, Option.map_map]
    rfl
  · exact Diagnostic.map_shown same.symm alike.logs.errors
  · exact Diagnostic.map_shown same.symm alike.logs.notes

end GoTogether

end JamCompiler
