import JamCompiler.CommandLine

/-!
# Arguments

What a list of arguments asks for, given by how the list is written. It begins with arguments that
are in order: options, each with the path that belongs to it, and names of files, in any order.
There it ends, or it goes on with a word that ends the reading: one that asks for help, an option
that lacks its path, or one that looks like an option and is none.
-/

namespace JamCompiler.CommandLine

/-- The words that are read as options. -/
def optionWords : List String := ["-o", "--output", "--fail-fast", "--no-color", "-h", "--help"]

/-- An argument that is in order. A name of a file does not look like an option. -/
inductive Argument
  | output (long : Bool) (path : String)
  | failFast
  | noColor
  | file (name : String) (plain : ¬ name.startsWith "-")

namespace Argument

def words : Argument → List String
  | output long path => [if long then "--output" else "-o", path]
  | failFast => ["--fail-fast"]
  | noColor => ["--no-color"]
  | file name _ => [name]

def output? : Argument → Option String
  | output _ path => some path
  | _ => none

def file? : Argument → Option String
  | file name _ => some name
  | _ => none

def isFailFast : Argument → Bool
  | failFast => true
  | _ => false

def isNoColor : Argument → Bool
  | noColor => true
  | _ => false

/-- What an argument changes in the options. -/
def apply (options : Options) : Argument → Options
  | output _ path => { options with output := some path }
  | failFast => { options with failFast := true }
  | noColor => { options with color := false }
  | file name _ => { options with files := options.files ++ [name] }

end Argument

/-- The words of arguments. -/
def wordsOf (as : List Argument) : List String := as.flatMap Argument.words

def filesOf (as : List Argument) : List String := as.filterMap Argument.file?

/-- The path of the last option for one. -/
def outputOf (as : List Argument) : Option String := (as.filterMap Argument.output?).getLast?

def failsFast (as : List Argument) : Bool := as.any Argument.isFailFast

/-- What arguments say together, on a terminal or not. -/
def optionsOf (terminal : Bool) (as : List Argument) : Options where
  output := outputOf as
  failFast := failsFast as
  color := terminal && !as.any Argument.isNoColor
  files := filesOf as

/-- Words with one at their front that ends the reading, and what it stands for. -/
inductive Stops : List String → Command → Prop
  | help {flag : String} (asks : flag = "-h" ∨ flag = "--help") (rest : List String) :
    Stops (flag :: rest) .help
  | noOutputPath {flag : String} (asks : flag = "-o" ∨ flag = "--output") :
    Stops [flag] (.misuse .noOutputPath)
  | unknownOption {option : String} (dash : option.startsWith "-") (unknown : option ∉ optionWords)
    (rest : List String) : Stops (option :: rest) (.misuse (.unknownOption option))

/-- What arguments ask for. -/
inductive Means (terminal : Bool) : List String → Command → Prop
  | stopped (as : List Argument) {rest : List String} {c : Command} (stops : Stops rest c) :
    Means terminal (wordsOf as ++ rest) c
  | notOneFile (as : List Argument) (several : (filesOf as).length ≠ 1) :
    Means terminal (wordsOf as) (.misuse .notOneFile)
  | compile (as : List Argument) {file : String} (only : filesOf as = [file]) :
    Means terminal (wordsOf as) (.compile file (optionsOf terminal as))

section Reading

variable {options : Options} {arg : String} {rest : List String}

theorem readArgs_cons (short : arg ≠ "-o") (long : arg ≠ "--output") :
    readArgs options (arg :: rest) = readArgs.readFlag options arg (readArgs · rest) := by
  cases rest <;> simp [readArgs, short, long]

theorem ne_of_plain {name word : String} (plain : ¬ name.startsWith "-")
    (dash : word.startsWith "-") : name ≠ word := by
  rintro rfl
  exact plain dash

/-- An argument in order changes the options, and the reading goes on after it. -/
theorem readArgs_argument (a : Argument) :
    readArgs options (a.words ++ rest) = readArgs (a.apply options) rest := by
  cases a with
  | output long path => cases long <;> simp [Argument.words, readArgs, Argument.apply]
  | failFast | noColor =>
    simp [Argument.words, readArgs_cons, readArgs.readFlag, Argument.apply]
  | file name plain =>
    have other : ∀ word ∈ optionWords, name ≠ word := fun word known =>
      ne_of_plain plain ((by decide +kernel : ∀ word ∈ optionWords, word.startsWith "-") word known)
    simp only [optionWords, List.forall_mem_cons] at other
    simp [Argument.words, readArgs_cons, readArgs.readFlag, Argument.apply, other, plain]

/-- Arguments in order are read one after the other. -/
theorem readArgs_arguments (options : Options) (as : List Argument) (rest : List String) :
    readArgs options (wordsOf as ++ rest) = readArgs (as.foldl Argument.apply options) rest := by
  induction as generalizing options with
  | nil => rfl
  | cons a as ih =>
    rw [wordsOf, List.flatMap_cons, List.append_assoc, readArgs_argument]
    exact ih _

/-- What arguments change in the options, said of all of them together. -/
theorem foldl_apply (as : List Argument) : as.foldl Argument.apply options =
    { output := (outputOf as).or options.output
      failFast := options.failFast || failsFast as
      color := options.color && !as.any Argument.isNoColor
      files := options.files ++ filesOf as } := by
  induction as generalizing options with
  | nil => simp [outputOf, failsFast, filesOf]
  | cons a as ih =>
    rw [List.foldl_cons, ih]
    cases a <;>
      simp [Argument.apply, outputOf, failsFast, filesOf, Argument.output?, Argument.isFailFast,
        Argument.isNoColor, Argument.file?, List.filterMap_cons, List.getLast?_cons]

theorem readArgs_stops {c : Command} (stops : Stops rest c) : readArgs options rest = c := by
  cases stops with
  | help asks rest =>
    rcases asks with rfl | rfl <;> simp [readArgs_cons, readArgs.readFlag]
  | noOutputPath asks => rcases asks with rfl | rfl <;> simp [readArgs]
  | unknownOption dash unknown rest =>
    simp only [optionWords, List.mem_cons, List.not_mem_nil, or_false, not_or] at unknown
    simp [readArgs_cons, readArgs.readFlag, unknown, dash]

end Reading

/-- A word that asks for no path is an argument in order, or the reading ends there. -/
theorem exists_argument {arg : String} (short : arg ≠ "-o") (long : arg ≠ "--output") :
    (∃ a : Argument, a.words = [arg]) ∨ ∀ rest, ∃ c, Stops (arg :: rest) c := by
  by_cases fast : arg = "--fail-fast"
  · exact .inl ⟨.failFast, by rw [fast]; rfl⟩
  by_cases color : arg = "--no-color"
  · exact .inl ⟨.noColor, by rw [color]; rfl⟩
  by_cases asks : arg = "-h" ∨ arg = "--help"
  · exact .inr fun rest => ⟨_, .help asks rest⟩
  by_cases dash : arg.startsWith "-"
  · refine .inr fun rest => ⟨_, .unknownOption dash ?_ rest⟩
    simp [optionWords, short, long, fast, color, not_or.mp asks]
  · exact .inl ⟨.file arg dash, rfl⟩

/-- Arguments are in order as far as the reading goes on. -/
theorem exists_arguments (args : List String) :
    ∃ as rest, args = wordsOf as ++ rest ∧ (rest = [] ∨ ∃ c, Stops rest c) := by
  match args with
  | [] => exact ⟨[], [], rfl, .inl rfl⟩
  | arg :: rest =>
    by_cases path : arg = "-o" ∨ arg = "--output"
    · match rest with
      | [] => exact ⟨[], [arg], rfl, .inr ⟨_, .noOutputPath path⟩⟩
      | next :: rest =>
        obtain ⟨as, more, rfl, ends⟩ := exists_arguments rest
        rcases path with rfl | rfl
        · exact ⟨.output false next :: as, more, rfl, ends⟩
        · exact ⟨.output true next :: as, more, rfl, ends⟩
    · obtain ⟨short, long⟩ := not_or.mp path
      rcases exists_argument short long with ⟨a, words⟩ | stops
      · obtain ⟨as, more, rfl, ends⟩ := exists_arguments rest
        refine ⟨a :: as, more, ?_, ends⟩
        simp [wordsOf, words]
      · exact ⟨[], arg :: rest, rfl, .inr (stops rest)⟩

/-- Every list of arguments asks for something. -/
theorem exists_means (terminal : Bool) (args : List String) : ∃ c, Means terminal args c := by
  obtain ⟨as, rest, rfl, rfl | ⟨c, stops⟩⟩ := exists_arguments args
  · rw [List.append_nil]
    match only : filesOf as with
    | [file] => exact ⟨_, .compile as only⟩
    | [] | _ :: _ :: _ => exact ⟨_, .notOneFile as (by simp [only])⟩
  · exact ⟨c, .stopped as stops⟩

/-- What arguments in order are read as. -/
theorem ofArgs_wordsOf (terminal : Bool) (as : List Argument) :
    Command.ofArgs terminal (wordsOf as) = readArgs (optionsOf terminal as) [] := by
  have read := readArgs_arguments { color := terminal } as []
  rw [List.append_nil, foldl_apply] at read
  simpa [Command.ofArgs, optionsOf] using read

/-- Arguments are read as what they ask for. -/
theorem ofArgs_eq_iff {terminal : Bool} {args : List String} {c : Command} :
    Command.ofArgs terminal args = c ↔ Means terminal args c := by
  have read {c : Command} (means : Means terminal args c) : Command.ofArgs terminal args = c := by
    cases means with
    | stopped as stops => rw [Command.ofArgs, readArgs_arguments, readArgs_stops stops]
    | notOneFile as several =>
      rw [ofArgs_wordsOf, readArgs]
      split
      · rename_i only
        exact absurd (congrArg List.length only) several
      · rfl
    | compile as only =>
      have files : (optionsOf terminal as).files = _ := only
      rw [ofArgs_wordsOf, readArgs, files]
  refine ⟨?_, read⟩
  rintro rfl
  obtain ⟨c, means⟩ := exists_means terminal args
  rwa [read means]

end JamCompiler.CommandLine
