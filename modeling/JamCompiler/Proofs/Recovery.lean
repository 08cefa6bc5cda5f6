import JamCompiler.Proofs.Reading.Writing
import JamCompiler.Proofs.Running.Listings

/-!
# Listings read back

A listing is read by its lines and their words. The heading has the size of the static segment and
the entry at fixed places; on every other line an instruction stands after its address, with all its
operands or, if it calls a primitive, with a name. Such a line leaves out the operand `n` and does
not say how the primitive is called, so a listing is read back only if every call of a primitive is
legible.
-/

namespace JamCompiler

open Machine

namespace Machine.Listing

/-- What a listing says. -/
structure Content where
  staticSize : Int
  entry : Int
  code : List Instruction
  deriving DecidableEq

/-- The words of a line are what stands between its blanks. -/
def words (line : List Char) : List (List Char) :=
  (line.splitOn ' ').filter fun word => !word.isEmpty

/-- The integer that a word denotes. -/
def integer : List Char → Int
  | '-' :: digits => -Text.numeral digits
  | digits => Text.numeral digits

/-- The instruction that words after an address stand for. -/
def instruction? : List (List Char) → Option Instruction
  | [_, name] => Instruction.prim <$> Primitive.ofText? (String.ofList name)
  | [op, n, r, d] => do
    let op ← Opcode.ofText? (String.ofList op)
    let r ← Register.ofText? (String.ofList r)
    return { op := op, n := integer n, r := r, d := integer d }
  | _ => none

/-- The size of the static segment and the entry that the words of a heading give. -/
def heading? : List (List Char) → Option (Int × Int)
  | [_, _, _, staticSize, _, _, _, entry] => some (integer staticSize, integer entry)
  | _ => none

/-- What a listing says; nothing stands after the end of its last line. -/
def read? (listing : String) : Option Content :=
  match listing.toList.splitOn '\n' with
  | [] => none
  | first :: rest => do
    let (staticSize, entry) ← heading? (words first)
    let code ← rest.dropLast.mapM fun line => instruction? (words line).tail
    return ⟨staticSize, entry, code⟩

/-- Characters that can stand between two blanks of a line. -/
structure Word (cs : List Char) : Prop where
  nonempty : cs ≠ []
  solid : ∀ c ∈ cs, c ≠ ' ' ∧ c ≠ '\n'

/-- Whether characters are on one line, and which words they make. -/
structure Line (cs : List Char) (ws : List (List Char)) : Prop where
  single : '\n' ∉ cs
  words : words cs = ws

theorem Line.nil : Line [] [] := ⟨nofun, rfl⟩

theorem Word.line {cs : List Char} (h : Word cs) : Line cs [cs] := by
  have alone : cs.splitOn ' ' = [cs] :=
    List.splitOnP_eq_singleton fun c hc => by simpa using (h.solid c hc).1
  constructor
  · intro hn
    exact (h.solid _ hn).2 rfl
  · rw [Listing.words, alone]
    simp [h.nonempty]

namespace Line

variable {cs ds : List Char} {ws vs : List (List Char)}

/-- A blank separates words. -/
theorem blank (h : Line cs ws) (h' : Line ds vs) : Line (cs ++ ' ' :: ds) (ws ++ vs) := by
  constructor
  · have apart : '\n' ≠ ' ' := by decide
    simp only [List.mem_append, List.mem_cons, not_or]
    exact ⟨h.single, apart, h'.single⟩
  · have split : (cs ++ ' ' :: ds).splitOn ' ' = cs.splitOn ' ' ++ ds.splitOn ' ' :=
      List.splitOnP_append_cons cs ds (beq_self_eq_true ' ')
    rw [← h.words, ← h'.words, Listing.words, split, List.filter_append]
    rfl

theorem indent (h : Line cs ws) (n : Nat) : Line (List.replicate n ' ' ++ cs) ws := by
  induction n with
  | zero => exact h
  | succ n ih => exact nil.blank ih

theorem spaced {first second : String} (h : Line first.toList ws) (h' : Line second.toList vs) :
    Line (first ++ " " ++ second).toList (ws ++ vs) := by
  rw [String.toList_append, String.toList_append, List.append_assoc]
  exact h.blank h'

theorem padLeft {text : String} (h : Line text.toList ws) (width : Nat) :
    Line (Listing.padLeft width text).toList ws := by
  rw [Listing.padLeft, String.toList_append, String.toList_ofList]
  exact h.indent _

theorem padRight {text : String} (h : Line text.toList ws) (width : Nat) :
    Line (Listing.padRight width text).toList ws := by
  rw [Listing.padRight, String.toList_append, String.toList_ofList]
  cases width - text.length with
  | zero => simpa using h
  | succ n => simpa [List.replicate_succ] using h.blank (nil.indent n)

end Line

theorem word_of_all {cs : List Char} (nonempty : cs ≠ [])
    (solid : cs.all fun c => c != ' ' && c != '\n') : Word cs :=
  ⟨nonempty, fun c hc => by simpa using List.all_eq_true.mp solid c hc⟩

theorem word_op (op : Opcode) : Word op.text.toList := by
  cases op <;> exact word_of_all (by decide) (by decide)

theorem word_register (r : Register) : Word r.text.toList := by
  cases r <;> exact word_of_all (by decide) (by decide)

theorem word_primitive (p : Primitive) : Word p.text.toList := by
  cases p <;> exact word_of_all (by decide) (by decide)

theorem word_nat (n : Nat) : Word (toString n).toList := by
  rw [Nat.toString_eq_ofList_toDigits, String.toList_ofList]
  refine ⟨Nat.toDigits_ne_nil, fun c hc => ?_⟩
  have digit : c.isDigit := Nat.isDigit_of_mem_toDigits (by decide) (by decide) hc
  constructor <;> rintro rfl <;> cases digit

theorem toString_negSucc (n : Nat) :
    (toString (Int.negSucc n)).toList = '-' :: (toString (n + 1)).toList := by
  change ("-" ++ toString (n + 1)).toList = _
  rw [String.toList_append]
  rfl

theorem word_int (z : Int) : Word (toString z).toList := by
  cases z with
  | ofNat n => exact word_nat n
  | negSucc n =>
    have digits := word_nat (n + 1)
    rw [toString_negSucc]
    exact ⟨List.cons_ne_nil _ _, List.forall_mem_cons.mpr ⟨by decide, digits.solid⟩⟩

theorem numeral_toString (n : Nat) : Text.numeral (toString n).toList = n := by
  rw [Nat.toString_eq_ofList_toDigits, String.toList_ofList, Text.numeral_toDigits]

/-- An integer is read as it is written. -/
theorem integer_toString (z : Int) : integer (toString z).toList = z := by
  cases z with
  | ofNat n =>
    change integer (toString n).toList = n
    unfold integer
    split
    · rename_i digits written
      have minus : '-' ∈ Nat.toDigits 10 n := by
        rw [Nat.toString_eq_ofList_toDigits, String.toList_ofList] at written
        exact written ▸ List.mem_cons_self
      cases Nat.isDigit_of_mem_toDigits (by decide) (by decide) minus
    · rw [numeral_toString]
  | negSucc n =>
    rw [toString_negSucc, integer, numeral_toString]
    rfl

/-- A legible instruction is read from the words of its text. -/
theorem exists_words {i : Instruction} {text : String} (legible : i.Legible)
    (h : instruction i = .ok text) : ∃ ws, Line text.toList ws ∧ instruction? ws = some i := by
  have op := (word_op i.op).line.padRight opWidth
  unfold instruction at h
  split at h
  · rename_i calls
    obtain ⟨p, rfl⟩ := legible calls
    rw [Instruction.prim, Primitive.ofNumber?_number] at h
    cases h
    refine ⟨_, op.spaced (word_primitive p).line, ?_⟩
    simp only [List.singleton_append, instruction?, String.ofList_toList, Primitive.ofText?_text]
    rfl
  · cases h
    have operands := ((op.spaced (word_int i.n).line).spaced (word_register i.r).line).spaced
      (word_int i.d).line
    refine ⟨_, operands, ?_⟩
    simp only [List.cons_append, List.nil_append, instruction?, String.ofList_toList,
      Opcode.ofText?_text, Register.ofText?_text, integer_toString]
    rfl

/-- Each line of legible code is read as its instruction. -/
theorem lines_read {width addr : Nat} {code : List Instruction} {texts : List String}
    (legible : ∀ i ∈ code, i.Legible) (h : lines width addr code = .ok texts) :
    (∀ text ∈ texts, '\n' ∉ text.toList) ∧
      (texts.map String.toList).mapM (fun line => instruction? (words line).tail) = some code := by
  induction code generalizing addr texts with
  | nil =>
    cases h
    exact ⟨nofun, rfl⟩
  | cons i rest ih =>
    obtain ⟨first, later⟩ := List.forall_mem_cons.mp legible
    rw [lines] at h
    cases shown : instruction i with
    | error e => simp [shown, bind, Except.bind] at h
    | ok text =>
    cases more : lines width (addr + 1) rest with
    | error e => simp [shown, more, bind, Except.bind] at h
    | ok others =>
    simp only [shown, more, bind, Except.bind, pure, Except.pure, Except.ok.injEq] at h
    subst h
    obtain ⟨ws, line, read⟩ := exists_words first shown
    obtain ⟨single, all⟩ := ih later more
    have address := (word_nat addr).line.padLeft width
    have whole : Line (padLeft width (toString addr) ++ "  " ++ text).toList
        ((toString addr).toList :: ws) := by
      simpa [String.toList_append] using address.blank (Line.nil.blank line)
    refine ⟨List.forall_mem_cons.mpr ⟨whole.single, single⟩, ?_⟩
    rw [List.map_cons, List.mapM_cons, whole.words, List.tail_cons, read, all]
    rfl

theorem heading_read (staticSize entry : Int) : ∃ ws,
    Line (heading staticSize entry).toList ws ∧ heading? ws = some (staticSize, entry) := by
  have before : Line "; static segment:".toList [[';'], "static".toList, "segment:".toList] :=
    ⟨by decide, by decide⟩
  have between : Line "word(s), entry at".toList ["word(s),".toList, "entry".toList, "at".toList] :=
    ⟨by decide, by decide⟩
  have line := ((before.blank (word_int staticSize).line).blank between).blank (word_int entry).line
  have first : "; static segment: ".toList = "; static segment:".toList ++ [' '] := by decide
  have second : " word(s), entry at ".toList = ' ' :: "word(s), entry at".toList ++ [' '] := by
    decide
  have written : (heading staticSize entry).toList = "; static segment:".toList ++
      ' ' :: (toString staticSize).toList ++ ' ' :: "word(s), entry at".toList ++
      ' ' :: (toString entry).toList := by
    change ("; static segment: " ++ toString staticSize ++ " word(s), entry at " ++
      toString entry).toList = _
    simp only [String.toList_append, first, second, List.append_assoc, List.cons_append,
      List.nil_append]
  refine ⟨_, written ▸ line, ?_⟩
  change some (integer (toString staticSize).toList, integer (toString entry).toList) = _
  rw [integer_toString, integer_toString]

/-- Lines that each end with a line feed are split at the line feeds. -/
theorem splitOn_join {texts : List String} (h : ∀ text ∈ texts, '\n' ∉ text.toList) :
    (String.join (texts.map (· ++ "\n"))).toList.splitOn '\n' =
      texts.map String.toList ++ [[]] := by
  rw [String.toList_join]
  induction texts with
  | nil => rfl
  | cons text rest ih =>
    obtain ⟨single, later⟩ := List.forall_mem_cons.mp h
    have first : text.toList.splitOn '\n' = [text.toList] :=
      List.splitOnP_eq_singleton fun c hc => beq_false_of_ne fun feed => single (feed ▸ hc)
    have split : ∀ more : List Char, (text.toList ++ '\n' :: more).splitOn '\n' =
        text.toList.splitOn '\n' ++ more.splitOn '\n' := fun more =>
      List.splitOnP_append_cons text.toList more (beq_self_eq_true '\n')
    rw [List.map_cons, List.flatMap_cons, String.toList_append, List.append_assoc]
    change (text.toList ++ '\n' :: (rest.map (· ++ "\n")).flatMap String.toList).splitOn '\n' = _
    rw [split, first, ih later]
    rfl

/-- A listing is read as what it was made of. -/
theorem read?_text {staticSize entry : Int} {code : List Instruction} {listing : String}
    (legible : ∀ i ∈ code, i.Legible) (h : text staticSize entry code = .ok listing) :
    read? listing = some ⟨staticSize, entry, code⟩ := by
  unfold text at h
  cases body : lines (toString (code.length - 1)).length 0 code with
  | error e =>
    simp only [body, bind, Except.bind] at h
    cases h
  | ok texts =>
    simp only [body, bind, Except.bind, pure, Except.pure, Except.ok.injEq] at h
    subst h
    obtain ⟨ws, line, first⟩ := heading_read staticSize entry
    obtain ⟨single, all⟩ := lines_read legible body
    have split : (String.join ((heading staticSize entry :: texts).map (· ++ "\n"))).toList.splitOn
        '\n' = (heading staticSize entry).toList :: (texts.map String.toList ++ [[]]) :=
      splitOn_join (List.forall_mem_cons.mpr ⟨line.single, single⟩)
    simp only [read?, split, line.words, first, List.dropLast_concat, all]
    rfl

end Machine.Listing

/-- What a listing of object code says. -/
def ObjectCode.content (o : ObjectCode) : Listing.Content := ⟨o.staticSize, o.entry, o.code⟩

theorem Accepted.exists_read {p : Program} {c : Compilation} {o : ObjectCode} (h : Accepted p c o) :
    ∃ listing, o.listing = .ok listing ∧ Listing.read? listing = some o.content := by
  obtain ⟨listing, listed⟩ := h.exists_listing
  exact ⟨listing, listed, Listing.read?_text h.legible listed⟩

/-- The listing of what a text compiles to is read back as the code, the size of the static segment
and the entry, so texts with the same listing have the same object code. -/
theorem listing_lossless {text text' : List Char} {failFast failFast' : Bool} {r r' : CompileResult}
    (compiled : compile text failFast = .ok r) (success : r.status = .success)
    (compiled' : compile text' failFast' = .ok r') (success' : r'.status = .success) :
    ∃ o o' listing listing', r.object = some o ∧ r'.object = some o' ∧
      o.listing = .ok listing ∧ o'.listing = .ok listing' ∧
      Listing.read? listing = some o.content ∧ Listing.read? listing' = some o'.content ∧
      (listing = listing' → o.code = o'.code ∧ o.staticSize = o'.staticSize ∧
        o.entry = o'.entry) := by
  obtain ⟨p, c, o, -, -, object, accepted⟩ := accepted_of_compile compiled success
  obtain ⟨p', c', o', -, -, object', accepted'⟩ := accepted_of_compile compiled' success'
  obtain ⟨listing, listed, read⟩ := accepted.exists_read
  obtain ⟨listing', listed', read'⟩ := accepted'.exists_read
  refine ⟨o, o', listing, listing', object, object', listed, listed', read, read', ?_⟩
  rintro rfl
  have same : o.content = o'.content := Option.some.inj (read.symm.trans read')
  simp only [ObjectCode.content, Listing.Content.mk.injEq, Int.natCast_inj] at same
  obtain ⟨staticSize, entry, code⟩ := same
  exact ⟨code, staticSize, entry⟩

/-- A program that prints a negative number. -/
def negativeText : List Char :=
  "class A { public static void main(String[] a) { int x = 0 - 7; System.out.println(x); } }".toList

/-- The program with other names. -/
def renamedNegativeText : List Char :=
  "class B { public static void main(String[] b) { int y = 0 - 7; System.out.println(y); } }".toList

/-- Texts that differ in their names have listings that are read back. -/
theorem listing_lossless_renamed :
    ∃ r r', compile negativeText false = .ok r ∧ r.status = .success ∧
    compile renamedNegativeText false = .ok r' ∧ r'.status = .success ∧
    ∃ o o' listing listing', r.object = some o ∧ r'.object = some o' ∧
      o.listing = .ok listing ∧ o'.listing = .ok listing' ∧
      Listing.read? listing = some o.content ∧ Listing.read? listing' = some o'.content ∧
      (listing = listing' → o.code = o'.code ∧ o.staticSize = o'.staticSize ∧
        o.entry = o'.entry) := by
  obtain ⟨r, compiled, ok⟩ := exists_ok_of_any (x := compile negativeText false)
    (P := fun r => decide (r.status = .success)) (by decide +kernel)
  obtain ⟨r', compiled', ok'⟩ := exists_ok_of_any (x := compile renamedNegativeText false)
    (P := fun r => decide (r.status = .success)) (by decide +kernel)
  have success := of_decide_eq_true ok
  have success' := of_decide_eq_true ok'
  exact ⟨r, r', compiled, success, compiled', success',
    listing_lossless compiled success compiled' success'⟩

end JamCompiler
