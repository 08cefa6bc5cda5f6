import JamCompiler.Proofs.Running.Runs

/-!
# Effects of runs on files

A run that ends with another status than success, or prints the help, leaves all files as they are.
Any other run that ends writes one file: the listing of the object code that the text of the input
file is compiled to, at the path of the last option for one, or beside the input file if there is
none.
-/

namespace JamCompiler.CommandLine

/-- What a run does that writes a file: its arguments name one input file, whose text is compiled
with success, and the listing of the object code is written where the output path leads, and nowhere
else. -/
inductive Delivers (tree : FileTree) (args : List String) (after : FileTree) : Prop
  | intro {as : List Argument} {file output listing : String} {text : List Char} {r : CompileResult}
    {o : ObjectCode} {place : FileTree.Place} (spelled : args = wordsOf as)
    (only : filesOf as = [file])
    (chosen : ∀ path, outputOf as = some path → path ≠ "" → output = path)
    (default : outputOf as = none ∨ outputOf as = some "" →
      output = String.ofList (Path.listing file.toList))
    (holds : Holds tree file text) (compiled : compile text (failsFast as) = .ok r)
    (ok : r.status = .success) (object : r.object = some o) (listed : o.listing = .ok listing)
    (leads : tree.Leads output.toList place) (wrote : tree.Wrote place listing.toUTF8.toList after)
    (kept : place ≠ FileTree.nullDevice → after.read output.toList = .ok listing.toUTF8.toList) :
    Delivers tree args after

theorem writtenMessage_ne_usage (path : String) : writtenMessage path ≠ usage := by
  intro same
  have spelled : writtenMessage path = "Wrote " ++ path ++ "\n" := rfl
  have first := congrArg (·.toList.head?) (spelled.symm.trans same)
  simp [usage] at first

section OutputPath

variable {file : String} {options : Options}

theorem outputPath_of_chosen {path : String} (chosen : options.output = some path)
    (proper : path ≠ "") : outputPath file options = path := by
  rw [outputPath, chosen]
  exact if_neg proper

theorem outputPath_of_not_chosen (none : options.output = none ∨ options.output = some "") :
    outputPath file options = String.ofList (Path.listing file.toList) := by
  rcases none with none | empty
  · rw [outputPath, none]
  · rw [outputPath, empty]
    rfl

end OutputPath

section Runs

variable {tree after : FileTree} {args : List String} {status : ExitStatus}

/-- Arguments that ask for a compilation name one file, and say the rest in options. -/
theorem Means.exists_arguments {file : String} {options : Options}
    (means : Means false args (.compile file options)) :
    ∃ as, args = wordsOf as ∧ filesOf as = [file] ∧ options = optionsOf false as := by
  cases means with
  | stopped as stops => cases stops
  | compile as only => exact ⟨as, rfl, only, rfl⟩

/-- A run that writes a listing delivers it. -/
theorem Input.delivers {file : String} {options : Options} {text : List Char} {listing : String}
    {place : FileTree.Place} (input : Input tree args file options text)
    (listedAs : ListedAs text options.failFast listing)
    (leads : tree.Leads (outputPath file options).toList place) :
    Delivers tree args (tree.put place listing.toUTF8.toList) := by
  obtain ⟨as, spelled, only, rfl⟩ := input.means.exists_arguments
  obtain ⟨compiled, ok, object, listed⟩ := listedAs
  have wrote := tree.wrote_put place listing.toUTF8.toList
  refine .intro spelled only (fun path chosen proper => outputPath_of_chosen chosen proper)
    (fun none => outputPath_of_not_chosen none) input.holds compiled ok object listed leads wrote
    fun other => ?_
  rw [wrote.read leads, if_neg other]

/-- A run that ends leaves the files and does not end in success, or prints the help, or delivers a
listing and says so. -/
theorem Ends.effect (ends : Ends tree args status after) :
    after = tree ∧ (status = .success → (run tree args).stdout = usage) ∨
      status = .success ∧ (run tree args).stdout ≠ usage ∧ Delivers tree args after := by
  cases ends with
  | help means => exact .inl ⟨rfl, fun _ => by rw [run_of_help means]⟩
  | misused | unreadable | unparsable | incorrect => exact .inl ⟨rfl, nofun⟩
  | written input listedAs sound leads =>
    refine .inr ⟨rfl, ?_, input.delivers listedAs leads⟩
    rw [input.run_of_leads listedAs sound leads]
    exact writtenMessage_ne_usage _

/-- A run that ends writes nothing, or the one listing that it should. -/
theorem writes_one_listing (ended : (run tree args).result = .ok status) :
    (status ≠ .success ∨ (run tree args).stdout = usage → (run tree args).tree = tree) ∧
      (status = .success → (run tree args).stdout ≠ usage →
        Delivers tree args (run tree args).tree) := by
  obtain ⟨status', after, ends⟩ : ∃ status after, Ends tree args status after := by
    refine (ends_or_escapes tree args).resolve_right fun escapes => ?_
    obtain ⟨failure, gives⟩ := escapes.run_eq
    rw [gives] at ended
    cases ended
  obtain ⟨message, gives⟩ := ends.run_eq
  have left : (run tree args).tree = after := by rw [gives]
  obtain rfl : status' = status := by
    rw [gives] at ended
    cases ended
    rfl
  rw [left]
  rcases ends.effect with ⟨same, help⟩ | ⟨success, other, delivers⟩
  · exact ⟨fun _ => same, fun success noHelp => absurd (help success) noHelp⟩
  · exact ⟨fun h => h.elim (absurd success) fun help => absurd help other, fun _ _ => delivers⟩

end Runs

/-- A program, and arguments with two output paths around it. -/
def mainTree : FileTree where
  files := [(["A.java".toList],
    plainBytes "class A \x7b public static void main(String[] a) \x7b \x7d \x7d".toList)]

def mainArgs : List String := ["-o", "one.txt", "A.java", "--fail-fast", "--output", "two.txt"]

theorem mainTree_delivers :
    ∃ status, (run mainTree mainArgs).result = .ok status ∧ status = .success ∧
    (run mainTree mainArgs).stdout = "Wrote two.txt\n" ∧
    Delivers mainTree mainArgs (run mainTree mainArgs).tree := by
  obtain ⟨status, ended, success⟩ := exists_ok_of_any (x := (run mainTree mainArgs).result)
    (P := fun status => status = .success) (by decide +kernel)
  have message : (run mainTree mainArgs).stdout = "Wrote two.txt\n" := by decide +kernel
  have noHelp : (run mainTree mainArgs).stdout ≠ usage := by rw [message]; decide +kernel
  have success := of_decide_eq_true success
  exact ⟨status, ended, success, message, (writes_one_listing ended).2 success noHelp⟩

end JamCompiler.CommandLine
