import SchemaHistory.CommandLine.Run
import SchemaHistory.Proofs.Declaration.Memberless

/-! # Faulty documents on the command line

A run on a file that holds a document is to end with one of the exit codes 0 and 1, and with a
message where the declarations cannot be had.  Every command keeps this for every document but for
those in which members are asked for in vain: their fault is not among the ones that are turned
into messages, and it aborts the run. -/
set_option autoImplicit false
namespace SchemaHistory.CommandLine

def Output.IsVerdict (o : Output) : Prop := o.exit = 0 ∨ o.exit = 1

def Output.IsError (o : Output) : Prop := o.exit = 1 ∧ Text.ofString "error: " <+: o.stderr

/-- The run has come to a verdict on the document, which is an error if it cannot be loaded. -/
def Reported (value : Json) (ending : Ending) : Prop :=
  ∃ output, ending = .finished output ∧ output.IsVerdict ∧
    ∀ fault, declarationsOfDocument value = .error fault → output.IsError

/-- The arguments are accepted, the settings are valid, and the file that the command names is a
declaration document with the given value in it. -/
structure RunsOn (machine : Machine) (env : Settings.Environment) (args : List Text)
    (files : Files) (invocation : Invocation) (value : Json) : Prop where
  accepted : readArguments args = .ok invocation
  valid : ∃ settings level, Settings.make [] env = .ok settings ∧ settings.level = .ok level
  named : isDocumentName invocation.command.file = true
  holds : ∃ content, Files.read machine invocation.command.file files = .ok content ∧
    Json.read (Text.withUnifiedNewlines content) = .ok value

theorem isError_failed (message : Text) : (failed message).IsError :=
  ⟨rfl, message ++ "\n", (List.append_assoc _ _ _).symm⟩

theorem Output.IsError.isVerdict {o : Output} (wrong : o.IsError) : o.IsVerdict := .inr wrong.1

theorem isVerdict_printed (text : Text) : (printed text).IsVerdict := .inl rfl

/-! ## Verdicts on compiled schemas -/

theorem isVerdict_versionsOutput (c : Compiled) : (versionsOutput c).IsVerdict := by
  unfold versionsOutput
  dsimp only
  split_ifs
  · exact .inl rfl
  · exact .inr rfl

theorem isVerdict_diffOutput (format : OutputFormat) (old new : Option Int) (c : Compiled) :
    (diffOutput format old new c).IsVerdict := by
  unfold diffOutput
  split
  · exact (isError_failed _).isVerdict
  · dsimp only [Output.IsVerdict]
    split_ifs
    · exact .inr rfl
    · exact .inl rfl

theorem exit_behind (output : Output) (content : Text) (stream : Option Stream) :
    (output.behind content stream).exit = output.exit := by
  rcases stream with - | stream
  · rfl
  · cases stream <;> rfl

theorem verdict_of_save (machine : Machine) (path content : Text) (files : Files) :
    ∃ output, (perform machine files (.save path content)).1 = .finished output ∧
      output.IsVerdict := by
  unfold perform
  split
  · cases ‹Response.save path content = _›
  · split
    · exact ⟨_, rfl, (isError_failed _).isVerdict⟩
    · exact ⟨_, rfl, .inl (exit_behind _ _ _)⟩

theorem verdict_of_compiled (machine : Machine) (c : Compiled) (command : Command)
    (files : Files) :
    ∃ output, (perform machine files (command.response c)).1 = .finished output ∧
      output.IsVerdict := by
  cases command with
  | compile file output =>
      unfold Command.response compileResponse
      dsimp only
      split
      · exact ⟨_, rfl, isVerdict_printed _⟩
      · split_ifs
        · exact ⟨_, rfl, isVerdict_printed _⟩
        · exact verdict_of_save machine _ _ files
  | check file => exact ⟨_, rfl, isVerdict_printed _⟩
  | versions file => exact ⟨_, rfl, isVerdict_versionsOutput c⟩
  | diff file old new format => exact ⟨_, rfl, isVerdict_diffOutput format old new c⟩

/-- A schema that is not accepted is judged, too, by `check` in its result and not in a message. -/
theorem verdict_of_rejected (rejection : Rejection) (command : Command) :
    ∃ output, command.faultEnding (.schema rejection) = .finished output ∧ output.IsVerdict := by
  cases command with
  | check file =>
      cases rejection with
      | diagnostic _ => exact ⟨_, rfl, .inr rfl⟩
      | _ => exact ⟨_, rfl, (isError_failed _).isVerdict⟩
  | _ => exact ⟨_, rfl, (isError_failed _).isVerdict⟩

/-! ## Faults of the document -/

theorem faultEnding_noMembers (command : Command) :
    command.faultEnding (.document .noMembers) = .aborted := by
  cases command <;> rfl

theorem faultEnding_document {fault : DocumentFault} (other : fault ≠ .noMembers)
    (command : Command) :
    command.faultEnding (.document fault) = .finished (failed fault.message) := by
  cases command <;> cases fault <;> first | rfl | exact (other rfl).elim

section
variable {machine : Machine} {env : Settings.Environment} {args : List Text} {files : Files}
variable {invocation : Invocation} {value : Json}

/-- Neither the arguments nor the settings end the run. -/
theorem RunsOn.run_eq (given : RunsOn machine env args files invocation value) :
    ∃ limit, run machine env args files = perform machine files
      (respondTo limit (readerOf machine files) invocation.command) := by
  obtain ⟨settings, level, made, found⟩ := given.valid
  refine ⟨limitOf settings invocation, ?_⟩
  unfold run respond
  rw [given.accepted]
  dsimp only
  rw [made]
  dsimp only
  rw [found]

theorem RunsOn.load_eq (given : RunsOn machine env args files invocation value) :
    load (readerOf machine files) invocation.command.file =
      (declarationsOfDocument value).mapError LoadFault.document := by
  obtain ⟨content, read, parsed⟩ := given.holds
  unfold load
  simp only [readerOf, read, given.named, parsed, if_true]
  cases declarationsOfDocument value <;> rfl

theorem RunsOn.run_of_fault (given : RunsOn machine env args files invocation value)
    {fault : DocumentFault} (faulty : declarationsOfDocument value = .error fault) :
    run machine env args files = (invocation.command.faultEnding (.document fault), files) := by
  obtain ⟨limit, same⟩ := given.run_eq
  rw [same, respondTo, compileFile, given.load_eq, faulty]
  rfl

theorem RunsOn.verdict_of_loaded (given : RunsOn machine env args files invocation value)
    {decls : List Decl} (loaded : declarationsOfDocument value = .ok decls) :
    ∃ output, (run machine env args files).1 = .finished output ∧ output.IsVerdict := by
  obtain ⟨limit, same⟩ := given.run_eq
  have compiled : compileFile limit (readerOf machine files) invocation.command.file =
      (Compiled.ofDeclarations limit decls).mapError LoadFault.schema := by
    rw [compileFile, given.load_eq, loaded]
    rfl
  rw [same, respondTo, compiled]
  cases Compiled.ofDeclarations limit decls with
  | error rejection => exact verdict_of_rejected rejection invocation.command
  | ok c => exact verdict_of_compiled machine c invocation.command files

/-- Exactly the documents in which no members are asked for in vain are reported on; any other one
aborts the run, whatever the command, and no file is changed. -/
theorem reported_iff_served (given : RunsOn machine env args files invocation value) :
    (Reported value (run machine env args files).1 ↔ ¬AsksInVain value) ∧
      (AsksInVain value → run machine env args files = (.aborted, files)) := by
  have aborted (inVain : AsksInVain value) : run machine env args files = (.aborted, files) := by
    rw [given.run_of_fault (noMembers_iff.mpr inVain), faultEnding_noMembers]
  refine ⟨⟨?_, fun served => ?_⟩, aborted⟩
  · rintro ⟨output, ended, -⟩ inVain
    rw [aborted inVain] at ended
    cases ended
  · cases loaded : declarationsOfDocument value with
    | error fault =>
        have other : fault ≠ .noMembers := by
          rintro rfl
          exact served (noMembers_iff.mp loaded)
        rw [given.run_of_fault loaded, faultEnding_document other]
        exact ⟨_, rfl, (isError_failed _).isVerdict, fun _ _ => isError_failed _⟩
    | ok decls =>
        obtain ⟨output, ended, verdict⟩ := given.verdict_of_loaded loaded
        exact ⟨output, ended, verdict, fun fault faulty => by cases loaded.symm.trans faulty⟩

end

def misfit : Json :=
  .obj [("types", .arr [.obj [("kind", .str "enum"), ("name", .str "Shape"),
    ("variants", .arr [.obj [("name", .str "Point"), ("kind", .str "dot")], .int 5])]])]

def misfitFiles : Files := Files.ofNames .standard [("a.json", misfit.write .compact)]

/-- The unknown kind is met first, and it is reported. -/
theorem reported_misfit :
    RunsOn .standard [] ["check", "a.json"] misfitFiles ⟨none, .check "a.json"⟩ misfit ∧
    Reported misfit (run .standard [] ["check", "a.json"] misfitFiles).1 := by
  have given : RunsOn .standard [] ["check", "a.json"] misfitFiles ⟨none, .check "a.json"⟩ misfit :=
    ⟨by decide +kernel, ⟨⟨1024, "INFO", .text⟩, 20, by decide +kernel, by decide +kernel⟩,
      by decide +kernel, misfit.write .compact, by decide +kernel, by decide +kernel⟩
  exact ⟨given, (reported_iff_served given).1.mpr fun inVain => by
    cases noMembers_iff.mpr inVain⟩

def noObject : Files := Files.ofNames .standard [("a.json", "[]")]

theorem list_not_reported :
    RunsOn .standard [] ["check", "a.json"] noObject ⟨none, .check "a.json"⟩ (.arr []) ∧
    ¬Reported (.arr []) (run .standard [] ["check", "a.json"] noObject).1 := by
  have given : RunsOn .standard [] ["check", "a.json"] noObject ⟨none, .check "a.json"⟩ (.arr []) :=
    ⟨by decide +kernel, ⟨⟨1024, "INFO", .text⟩, 20, by decide +kernel, by decide +kernel⟩,
      by decide +kernel, "[]", by decide +kernel, by decide +kernel⟩
  refine ⟨given, ?_⟩
  rintro ⟨output, ended, -⟩
  rw [given.run_of_fault rfl] at ended
  cases ended

end SchemaHistory.CommandLine
