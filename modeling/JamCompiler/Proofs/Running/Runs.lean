import JamCompiler.Proofs.Language
import JamCompiler.Proofs.Results
import JamCompiler.Proofs.Running.Arguments
import JamCompiler.Proofs.Running.Files
import JamCompiler.Proofs.Running.Listings

/-!
# Runs of the command line

The ways in which a run ends, given by what the arguments ask for, which text the input file holds,
what this text is and where the output path leads: with a status and a file tree, or with a failure.
Every run ends in one of these ways, and each of them says what the run gives.
-/

namespace JamCompiler

open Reading

/-- Whether a text is a program: it can be scanned to its end, and the grammar derives its
tokens. -/
def IsProgram (text : List Char) : Prop :=
  (Scan.ofText text).fault = none ∧ Parsed [.phrase .program] (Scan.ofText text).tokens

/-- Whether scanning a text ends at a number with too many digits, and some program begins with the
tokens before it. -/
def Overlong (text : List Char) : Prop :=
  Program.Begins (Scan.ofText text).tokens ∧
    ∃ pos, (Scan.ofText text).fault = some (.longNumber, pos)

variable {text : List Char} {failFast : Bool}

theorem exists_ofText?_iff : (∃ p, Program.ofText? text = .ok p) ↔ IsProgram text := by
  simp only [Program.ofText?, Program.ReadAs.ok_iff, IsProgram, parsed_iff_spelledAll]
  constructor
  · rintro ⟨p, whole, -, spelled⟩
    exact ⟨whole, p.classes, spelled⟩
  · rintro ⟨whole, cs, spelled⟩
    exact ⟨⟨cs, 0⟩, whole, rfl, spelled⟩

theorem exists_longNumber_iff :
    (∃ pos, Program.ofText? text = .error (.longNumber pos)) ↔ Overlong text := by
  have read : Program.ReadAs (Scan.ofText text) (Program.ofText? text) := Program.readAs_ofScan _
  unfold Overlong
  generalize Program.ofText? text = result at read
  generalize Scan.ofText text = scan at read
  cases read with
  | @unexpected before after t split begins stuck =>
    refine iff_of_false (by simp) fun overlong => stuck ?_
    have all := overlong.1
    rw [split, List.append_cons] at all
    exact all.of_append
  | @unscanned fault begins faulty =>
    obtain ⟨kind, pos⟩ := fault
    cases kind with
    | longNumber => exact iff_of_true ⟨pos, rfl⟩ ⟨begins, pos, faulty⟩
    | illegalCharacter | openComment =>
      exact iff_of_false (by simp [ReadFault.ofScanFault]) (by simp [faulty])
  | incomplete begins whole incomplete => exact iff_of_false (by simp) (by simp [whole])
  | program whole spelled => exact iff_of_false (by simp) (by simp [whole])

/-- A text has a result but for numbers with too many digits. -/
theorem exists_compile_iff : (∃ r, compile text failFast = .ok r) ↔ ¬ Overlong text := by
  rw [← exists_longNumber_iff]
  cases parsed : Program.ofText? text with
  | error fault =>
    unfold compile
    rw [parsed]
    cases fault <;> simp
  | ok p => exact iff_of_true (exists_compile parsed failFast) (by simp)

/-- Whether a text compiles to object code with a listing. -/
inductive ListedAs (text : List Char) (failFast : Bool) : String → Prop
  | intro {r : CompileResult} {o : ObjectCode} {listing : String}
    (compiled : compile text failFast = .ok r) (ok : r.status = .success)
    (object : r.object = some o) (listed : o.listing = .ok listing) : ListedAs text failFast listing

/-- What a text is compiled to. -/
inductive CompiledAs (text : List Char) (failFast : Bool) :
    Except CompileFailure CompileResult → Prop
  | overlong (overlong : Overlong text) : CompiledAs text failFast (.error .longNumber)
  | unparsable {r : CompileResult} (short : ¬ Overlong text) (noProgram : ¬ IsProgram text)
    (status : r.status = .unparsable) (object : r.object = none) : CompiledAs text failFast (.ok r)
  | incorrect {r : CompileResult} (program : IsProgram text) (errors : r.log.errors ≠ [])
    (status : r.status = .incorrect) (object : r.object = none) : CompiledAs text failFast (.ok r)
  | success {r : CompileResult} {o : ObjectCode} {listing : String} (program : IsProgram text)
    (errors : r.log.errors = []) (status : r.status = .success) (object : r.object = some o)
    (listed : o.listing = .ok listing) : CompiledAs text failFast (.ok r)

theorem compiledAs_compile (text : List Char) (failFast : Bool) :
    CompiledAs text failFast (compile text failFast) := by
  have program : (∃ p, Program.ofText? text = .ok p) ↔ _ := exists_ofText?_iff
  have overlong : (∃ pos, Program.ofText? text = .error (.longNumber pos)) ↔ _ :=
    exists_longNumber_iff
  cases parsed : Program.ofText? text with
  | error fault =>
    rw [parsed] at program overlong
    unfold compile
    rw [parsed]
    cases fault with
    | longNumber pos => exact .overlong (overlong.mp ⟨pos, rfl⟩)
    | fault f pos =>
      refine .unparsable (fun long => ?_) (fun isProgram => ?_) rfl rfl
      · obtain ⟨pos, ⟨⟩⟩ := overlong.mpr long
      · obtain ⟨p, ⟨⟩⟩ := program.mpr isProgram
  | ok p =>
    have isProgram := program.mp ⟨p, parsed⟩
    obtain ⟨r, compiled⟩ := exists_compile parsed failFast
    have whole : compile text failFast = p.compile failFast := by rw [compile, parsed]
    cases Program.compilesTo_of_compile parsed (whole.symm.trans compiled) with
    | incorrect leaves dirty =>
      rw [compiled]
      exact .incorrect isProgram (fun none => dirty (List.isEmpty_iff.mpr none)) rfl rfl
    | success o leaves clean =>
      obtain ⟨p, c, o, parsed, compilation, object, accepted⟩ := accepted_of_compile compiled rfl
      obtain ⟨listing, listed⟩ := accepted.exists_listing
      rw [compiled]
      exact .success isProgram (List.isEmpty_iff.mp clean) rfl object listed

theorem compiledAs_of_compile {answer : Except CompileFailure CompileResult}
    (compiled : compile text failFast = answer) : CompiledAs text failFast answer :=
  compiled ▸ compiledAs_compile text failFast

theorem compile_of_overlong (overlong : Overlong text) :
    compile text failFast = .error .longNumber := by
  obtain ⟨pos, faulty⟩ := exists_longNumber_iff.mpr overlong
  rw [compile, faulty]

theorem exists_compile_of_noProgram (short : ¬ Overlong text) (noProgram : ¬ IsProgram text) :
    ∃ r, compile text failFast = .ok r ∧ r.status = .unparsable ∧ r.object = none := by
  obtain ⟨r, compiled⟩ := exists_compile_iff.mpr short
  cases compiledAs_of_compile compiled with
  | unparsable _ _ status object => exact ⟨r, compiled, status, object⟩
  | incorrect program | success program => exact absurd program noProgram

theorem incorrect_of_errors {r : CompileResult} (program : IsProgram text)
    (compiled : compile text failFast = .ok r) (errors : r.log.errors ≠ []) :
    r.status = .incorrect ∧ r.object = none := by
  cases compiledAs_of_compile compiled with
  | unparsable _ noProgram => exact absurd program noProgram
  | incorrect _ _ status object => exact ⟨status, object⟩
  | success _ none => exact absurd none errors

namespace CommandLine

/-- Whether a file of a tree holds a text: its bytes are UTF-8, and all line breaks count as line
feeds. -/
inductive Holds (tree : FileTree) (file : String) : List Char → Prop
  | intro {bytes : List UInt8} {decoded : List Char} (read : tree.read file.toList = .ok bytes)
    (decodes : Text.Utf8.decode bytes = .ok decoded) : Holds tree file (Text.unifyBreaks decoded)

/-- The bytes of a text whose characters have one byte each. -/
def plainBytes (text : List Char) : List UInt8 := text.map fun c => c.toNat.toUInt8

theorem decodeFrom_plainBytes {text : List Char} (plain : ∀ c ∈ text, c.toNat < 128) (pos : Nat) :
    Text.Utf8.decodeFrom pos none (plainBytes text) = .ok text := by
  induction text generalizing pos with
  | nil => rfl
  | cons c rest ih =>
    obtain ⟨small, plain⟩ := List.forall_mem_cons.mp plain
    have same : c.toNat.toUInt8.toNat = c.toNat := by
      simp
      omega
    have single : c.toNat.toUInt8 < 0x80 := by
      rw [UInt8.lt_iff_toNat_lt, same]
      exact small
    rw [plainBytes, List.map_cons, Text.Utf8.decodeFrom, if_pos single, same, Char.ofNat_toNat]
    exact congrArg _ (ih plain (pos + 1))

theorem unifyBreaks_of_not_mem {text : List Char} (none : '\r' ∉ text) :
    Text.unifyBreaks text = text := by
  fun_induction Text.unifyBreaks text with
  | case1 => rfl
  | case2 rest ih => simp at none
  | case3 c rest _ ih =>
    obtain ⟨other, none⟩ := List.ne_and_not_mem_of_not_mem_cons none
    rw [if_neg (Ne.symm other), ih none]

/-- A file holds the text that it was made of, if all characters have one byte each. -/
theorem holds_plainBytes {tree : FileTree} {file : String} {text : List Char}
    (read : tree.read file.toList = .ok (plainBytes text)) (plain : ∀ c ∈ text, c.toNat < 128)
    (none : '\r' ∉ text) : Holds tree file text := by
  have holds : Holds tree file (Text.unifyBreaks text) :=
    .intro read (decodeFrom_plainBytes plain 0)
  rwa [unifyBreaks_of_not_mem none] at holds

/-- Arguments that ask for a file to be compiled, which holds a text. -/
structure Input (tree : FileTree) (args : List String) (file : String) (options : Options)
    (text : List Char) : Prop where
  means : Means false args (.compile file options)
  sound : ¬ Path.holdsNull file.toList
  holds : Holds tree file text

/-- The ways in which a run ends with a status, and leaves a file tree: help is asked for, the
arguments are not in order, the input file holds no text, the text is no program, the program has
errors, or its listing is written. -/
inductive Ends (tree : FileTree) (args : List String) : ExitStatus → FileTree → Prop
  | help (means : Means false args .help) : Ends tree args .success tree
  | misused {misuse : Misuse} (means : Means false args (.misuse misuse)) :
    Ends tree args .usage tree
  | unreadable {file : String} {options : Options}
      (means : Means false args (.compile file options))
    (sound : ¬ Path.holdsNull file.toList) (unread : ∀ text, ¬ Holds tree file text) :
    Ends tree args .unreadable tree
  | unparsable {file : String} {options : Options} {text : List Char}
    (input : Input tree args file options text) (short : ¬ Overlong text)
    (noProgram : ¬ IsProgram text) :
    Ends tree args .unparsable tree
  | incorrect {file : String} {options : Options} {text : List Char} {r : CompileResult}
    (input : Input tree args file options text) (program : IsProgram text)
    (compiled : compile text options.failFast = .ok r) (errors : r.log.errors ≠ []) :
    Ends tree args .incorrect tree
  | written {file : String} {options : Options} {text : List Char} {listing : String}
    {place : FileTree.Place} (input : Input tree args file options text)
    (listedAs : ListedAs text options.failFast listing)
    (sound : ¬ Path.holdsNull (outputPath file options).toList)
    (leads : tree.Leads (outputPath file options).toList place) :
    Ends tree args .success (tree.put place listing.toUTF8.toList)

/-- The ways in which a run ends without a status: the path of the input or of the output can name
no file, a number has too many digits to be read, or nothing can be written where the output path
leads. -/
inductive Escapes (tree : FileTree) (args : List String) : Prop
  | nullInput {file : String} {options : Options} (means : Means false args (.compile file options))
    (null : Path.holdsNull file.toList)
  | longNumber {file : String} {options : Options} {text : List Char}
    (input : Input tree args file options text) (overlong : Overlong text)
  | nullOutput {file : String} {options : Options} {text : List Char} {listing : String}
    (input : Input tree args file options text) (listedAs : ListedAs text options.failFast listing)
    (null : Path.holdsNull (outputPath file options).toList)
  | unwritable {file : String} {options : Options} {text : List Char} {listing : String}
    (input : Input tree args file options text) (listedAs : ListedAs text options.failFast listing)
    (sound : ¬ Path.holdsNull (outputPath file options).toList)
    (nowhere : ∀ place, ¬ tree.Leads (outputPath file options).toList place)

/-- What an action of a run does to a file tree. -/
def perform (tree : FileTree) : Except Failure Action → Outcome
  | .error failure => ⟨"", .error failure, tree⟩
  | .ok (.finish status message) => ⟨message, .ok status, tree⟩
  | .ok (.write output listing) =>
    if Path.holdsNull output.toList then ⟨"", .error .nullInPath, tree⟩
    else match tree.write output.toList listing.toUTF8.toList with
      | .ok after => ⟨writtenMessage output, .ok .success, after⟩
      | .error fault => ⟨"", .error (.output fault output), tree⟩

section Runs

variable {tree : FileTree} {args : List String} {file absolute : String} {options : Options}
  {text : List Char}

theorem run_of_help (means : Means false args .help) :
    run tree args = ⟨usage, .ok .success, tree⟩ := by
  rw [run, ofArgs_eq_iff.mpr means]

theorem run_of_misuse {misuse : Misuse} (means : Means false args (.misuse misuse)) :
    run tree args = ⟨misuse.message, .ok .usage, tree⟩ := by
  rw [run, ofArgs_eq_iff.mpr means]

theorem run_eq_perform (means : Means false args (.compile file options))
    (sound : ¬ Path.holdsNull file.toList) : run tree args = perform tree (compileBytes options file
      (String.ofList (Path.absolute tree.home file.toList)) (tree.read file.toList)) := by
  rw [run, ofArgs_eq_iff.mpr means]
  dsimp only
  rw [if_neg sound]
  rfl

theorem compileBytes_of_holds (holds : Holds tree file text) :
    compileBytes options file absolute (tree.read file.toList) =
      compileText options file absolute text := by
  obtain ⟨read, decodes⟩ := holds
  simp only [compileBytes, read, decodes]

/-- A file that holds no text ends the run with a message. -/
theorem compileBytes_of_unread (unread : ∀ text, ¬ Holds tree file text) : ∃ message,
    compileBytes options file absolute (tree.read file.toList) =
      .ok (.finish .unreadable message) := by
  unfold compileBytes
  cases read : tree.read file.toList with
  | error fault => exact ⟨_, rfl⟩
  | ok bytes =>
    cases decodes : Text.Utf8.decode bytes with
    | error fault => simp [decodes]
    | ok decoded => exact absurd (.intro read decodes) (unread _)

theorem Input.run_eq (input : Input tree args file options text) : run tree args = perform tree
    (compileText options file (String.ofList (Path.absolute tree.home file.toList)) text) := by
  rw [run_eq_perform input.means input.sound, compileBytes_of_holds input.holds]

/-- A result without object code ends the run with its status. -/
theorem Input.run_of_none {r : CompileResult} (input : Input tree args file options text)
    (compiled : compile text options.failFast = .ok r) (object : r.object = none) :
    ∃ message, run tree args = ⟨message, .ok r.status, tree⟩ := by
  rw [input.run_eq, compileText, compiled]
  dsimp only
  rw [object]
  exact ⟨_, rfl⟩

theorem Input.run_of_listed {listing : String} (input : Input tree args file options text)
    (listedAs : ListedAs text options.failFast listing) :
    run tree args = perform tree (.ok (.write (outputPath file options) listing)) := by
  obtain ⟨compiled, -, object, listed⟩ := listedAs
  rw [input.run_eq, compileText, compiled]
  simp only [object, listed]

/-- A listing is written where the output path leads. -/
theorem Input.run_of_leads {listing : String} {place : FileTree.Place}
    (input : Input tree args file options text) (listedAs : ListedAs text options.failFast listing)
    (sound : ¬ Path.holdsNull (outputPath file options).toList)
    (leads : tree.Leads (outputPath file options).toList place) : run tree args =
      ⟨writtenMessage (outputPath file options), .ok .success,
        tree.put place listing.toUTF8.toList⟩ := by
  have written : tree.write (outputPath file options).toList listing.toUTF8.toList =
      .ok (tree.put place listing.toUTF8.toList) := FileTree.write_eq_ok_iff.mpr ⟨place, leads, rfl⟩
  rw [input.run_of_listed listedAs, perform, if_neg sound, written]

end Runs

/-- A run that ends in one of the ways gives the status and leaves the tree. -/
theorem Ends.run_eq {tree after : FileTree} {args : List String} {status : ExitStatus}
    (ends : Ends tree args status after) :
    ∃ message, run tree args = ⟨message, .ok status, after⟩ := by
  cases ends with
  | help means => exact ⟨_, run_of_help means⟩
  | misused means => exact ⟨_, run_of_misuse means⟩
  | unreadable means sound unread =>
    obtain ⟨message, finished⟩ := compileBytes_of_unread unread
    exact ⟨message, by rw [run_eq_perform means sound, finished, perform]⟩
  | unparsable input short noProgram =>
    obtain ⟨r, compiled, unparsable, object⟩ := exists_compile_of_noProgram short noProgram
    exact unparsable ▸ input.run_of_none compiled object
  | incorrect input program compiled errors =>
    obtain ⟨incorrect, object⟩ := incorrect_of_errors program compiled errors
    exact incorrect ▸ input.run_of_none compiled object
  | written input listedAs sound leads => exact ⟨_, input.run_of_leads listedAs sound leads⟩

theorem Escapes.run_eq {tree : FileTree} {args : List String} (escapes : Escapes tree args) :
    ∃ failure, run tree args = ⟨"", .error failure, tree⟩ := by
  cases escapes with
  | nullInput means null =>
    refine ⟨.nullInPath, ?_⟩
    rw [run, ofArgs_eq_iff.mpr means]
    exact if_pos null
  | longNumber input overlong =>
    refine ⟨.compile .longNumber, ?_⟩
    rw [input.run_eq, compileText, compile_of_overlong overlong]
    rfl
  | nullOutput input listedAs null =>
    refine ⟨.nullInPath, ?_⟩
    rw [input.run_of_listed listedAs]
    exact if_pos null
  | @unwritable file options text listing input listedAs sound nowhere =>
    rw [input.run_of_listed listedAs, perform, if_neg sound]
    cases written : tree.write (outputPath file options).toList listing.toUTF8.toList with
    | error fault => exact ⟨_, rfl⟩
    | ok after =>
      obtain ⟨place, leads, -⟩ := FileTree.write_eq_ok_iff.mp written
      exact absurd leads (nowhere place)

/-- A run on a file that holds a text ends in one of the ways. -/
theorem Input.ends_or_escapes {tree : FileTree} {args : List String} {file : String}
    {options : Options} {text : List Char} (input : Input tree args file options text) :
    (∃ status after, Ends tree args status after) ∨ Escapes tree args := by
  cases compiled : compile text options.failFast with
  | error failure =>
    cases compiledAs_of_compile compiled with
    | overlong overlong => exact .inr (.longNumber input overlong)
  | ok r =>
    cases compiledAs_of_compile compiled with
    | unparsable short noProgram => exact .inl ⟨_, _, .unparsable input short noProgram⟩
    | incorrect program errors => exact .inl ⟨_, _, .incorrect input program compiled errors⟩
    | success program errors ok object listed =>
      have listedAs : ListedAs text options.failFast _ := .intro compiled ok object listed
      by_cases null : Path.holdsNull (outputPath file options).toList
      · exact .inr (.nullOutput input listedAs null)
      by_cases leads : ∃ place, tree.Leads (outputPath file options).toList place
      · obtain ⟨place, leads⟩ := leads
        exact .inl ⟨_, _, .written input listedAs null leads⟩
      · exact .inr (.unwritable input listedAs null (not_exists.mp leads))

/-- Every run ends in one of the ways. -/
theorem ends_or_escapes (tree : FileTree) (args : List String) :
    (∃ status after, Ends tree args status after) ∨ Escapes tree args := by
  obtain ⟨command, means⟩ := exists_means false args
  cases command with
  | help => exact .inl ⟨_, _, .help means⟩
  | misuse misuse => exact .inl ⟨_, _, .misused means⟩
  | compile file options =>
    by_cases null : Path.holdsNull file.toList
    · exact .inr (.nullInput means null)
    by_cases holds : ∃ text, Holds tree file text
    · obtain ⟨text, holds⟩ := holds
      exact Input.ends_or_escapes ⟨means, null, holds⟩
    · exact .inl ⟨_, _, .unreadable means null (not_exists.mp holds)⟩

end CommandLine

end JamCompiler
