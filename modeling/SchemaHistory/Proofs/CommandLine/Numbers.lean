import SchemaHistory.CommandLine.Run
import SchemaHistory.Proofs.Compiled.Numbers
import SchemaHistory.Proofs.Compiled.Pointed

/-! # Numbers on the command line

Every number that a run shows was read from a file, from an argument or from a setting, or it is a
version up to one of these.  What was read is short, so all of them can be printed
(`numbers_short`). -/
set_option autoImplicit false
namespace SchemaHistory.CommandLine

/-! ## Arguments and settings -/

def Command.numbers : Command → List Int
  | .diff _ old new _ => old.toList ++ new.toList
  | _ => []

def Invocation.numbers (i : Invocation) : List Int := i.maxVersion.toList ++ i.command.numbers

theorem isShort_of_bind {value : Option Text} : ∀ n ∈ (value.bind Text.int?).toList,
    Text.IsShort n := by
  intro n member
  obtain ⟨t, -, read⟩ := Option.bind_eq_some_iff.mp (Option.mem_toList.mp member)
  exact Text.isShort_of_int? read

theorem Collected.isShort_of_int? {r : Collected} {form : OptionForm} {value : Option Int}
    (read : r.int? form = some value) : ∀ n ∈ value.toList, Text.IsShort n := by
  obtain ⟨text, -, rfl⟩ := Option.map_eq_some_iff.mp read
  exact isShort_of_bind

/-- The only command with numbers is the one that compares two versions. -/
theorem isShort_of_build {name file : Text} {form : CommandForm} {r : Collected}
    {command : Command} (known : commandForms.lookup name = some form)
    (built : form.build file r = some command) : ∀ n ∈ command.numbers, Text.IsShort n := by
  simp only [commandForms, List.lookup_cons, List.lookup_nil] at known
  split at known
  · cases known
    cases built
    exact List.forall_mem_nil _
  split at known
  · cases known
    cases built
    exact List.forall_mem_nil _
  split at known
  · cases known
    cases built
    exact List.forall_mem_nil _
  split at known
  · cases known
    obtain ⟨old, hasOld, built⟩ := Option.bind_eq_some_iff.mp built
    obtain ⟨new, hasNew, built⟩ := Option.bind_eq_some_iff.mp built
    cases built
    exact List.forall_mem_append.mpr
      ⟨Collected.isShort_of_int? hasOld, Collected.isShort_of_int? hasNew⟩
  · cases known

theorem isShort_of_command {name : Text} {args : List Text} {command : Command}
    (accepted : readCommand name args = .ok command) : ∀ n ∈ command.numbers, Text.IsShort n := by
  unfold readCommand at accepted
  split at accepted
  · cases accepted
  · rename_i form known
    obtain ⟨arguments, -, accepted⟩ := bind_eq_ok_iff.mp accepted
    obtain ⟨r, -, accepted⟩ := bind_eq_ok_iff.mp accepted
    split at accepted
    · cases accepted
    · rename_i built
      split at accepted <;> cases accepted
      obtain ⟨file, -, built⟩ := Option.bind_eq_some_iff.mp built
      exact isShort_of_build known built

theorem isShort_of_program {leftOver : Bool} {maxVersion : Option Int}
    {args : List (Text × Argument)} {invocation : Invocation}
    (accepted : readProgram leftOver maxVersion args = .ok invocation)
    (short : ∀ n ∈ maxVersion.toList, Text.IsShort n) :
    ∀ n ∈ invocation.numbers, Text.IsShort n := by
  fun_induction readProgram leftOver maxVersion args with
  | case3 leftOver maxVersion arg rest ih => exact ih accepted short
  | case4 leftOver maxVersion name text rest =>
      obtain ⟨command, read, accepted⟩ := bind_eq_ok_iff.mp accepted
      split at accepted <;> cases accepted
      exact List.forall_mem_append.mpr ⟨short, isShort_of_command read⟩
  | case5 leftOver maxVersion arg form value rest takes ih =>
      obtain ⟨value, -, accepted⟩ := bind_eq_ok_iff.mp accepted
      exact ih value accepted isShort_of_bind
  | case7 leftOver maxVersion arg form other value rest takes ih =>
      obtain ⟨value, -, accepted⟩ := bind_eq_ok_iff.mp accepted
      exact ih value accepted isShort_of_bind
  | _ => cases accepted

theorem isShort_of_arguments {args : List Text} {invocation : Invocation}
    (accepted : readArguments args = .ok invocation) :
    ∀ n ∈ invocation.numbers, Text.IsShort n := by
  obtain ⟨arguments, -, read⟩ := bind_eq_ok_iff.mp accepted
  exact isShort_of_program read (List.forall_mem_nil _)

theorem isShort_of_settings {env : Settings.Environment} {settings : Settings}
    (valid : Settings.make [] env = .ok settings) : Text.IsShort settings.maxVersion := by
  unfold Settings.make at valid
  dsimp only at valid
  split at valid <;> cases valid
  rename_i found _ _
  have own : Settings.given? .maxVersion [] env =
      (Settings.fromEnvironment? .maxVersion env).map Json.str := rfl
  rw [own] at found
  cases given : Settings.fromEnvironment? .maxVersion env with
  | none =>
      rw [given] at found
      cases found
      exact Text.isShort_of_le (by decide)
  | some value =>
      rw [given] at found
      obtain ⟨read, -⟩ := Option.filter_eq_some_iff.mp found
      exact Settings.isShort_of_positive? read

theorem isShort_limitOf {env : Settings.Environment} {settings : Settings} {args : List Text}
    {invocation : Invocation} (accepted : readArguments args = .ok invocation)
    (valid : Settings.make [] env = .ok settings) :
    Text.IsShort (limitOf settings invocation) := by
  have given := isShort_of_arguments accepted
  unfold limitOf
  cases own : invocation.maxVersion with
  | none => exact isShort_of_settings valid
  | some n =>
      refine given n (List.mem_append_left _ ?_)
      rw [own]
      exact List.mem_cons_self

/-! ## Files -/

/-- The numbers that the message about a file shows, apart from the places in it. -/
def LoadFault.Each (p : Int → Prop) : LoadFault → Prop
  | .document fault => fault.Each p
  | .schema rejection => rejection.Each p
  | _ => True

/-- A fault of a text shows no number. -/
theorem each_of_refused {text : Text} {file : Option Text} {d : Diagnostic} {p : Int → Prop}
    (refused : declarationsOfText text file = .error (.fault d)) : d.cause.Each p := by
  have syntactic := (refusedAt_of_text refused).1
  obtain ⟨cause, position⟩ := d
  cases cause with
  | text fault => trivial
  | _ => cases syntactic

section
variable {read : ReadFile} {path : Text}

theorem each_of_load {decls : List Decl} (loaded : load read path = .ok decls) :
    ∀ d ∈ decls, d.Each Text.IsShort := by
  unfold load at loaded
  split at loaded
  · cases loaded
  dsimp only at loaded
  split at loaded
  · split at loaded
    · cases loaded
    · cases loaded
    · rename_i value whole
      have yields := yields_declarations (Json.each_of_read whole)
      split at loaded <;> cases loaded
      rename_i decls document
      rwa [document] at yields
  · split at loaded <;> cases loaded
    rename_i decls spelled
    refine each_of_text (fun n small => Text.isShort_of_le (le_trans small ?_)) spelled
    decide

theorem each_of_loadFault {fault : LoadFault} (failed : load read path = .error fault) :
    fault.Each Text.IsShort := by
  unfold load at failed
  split at failed
  · cases failed
    trivial
  dsimp only at failed
  split at failed
  · split at failed
    · cases failed
      trivial
    · cases failed
      trivial
    · rename_i value whole
      have yields := yields_declarations (Json.each_of_read whole)
      split at failed <;> cases failed
      rename_i fault document
      rwa [document] at yields
  · split at failed <;> cases failed
    · rename_i refused
      exact each_of_refused refused
    · trivial

theorem each_of_compileFile {limit : Int} (short : Text.IsShort limit) :
    (∀ c, compileFile limit read path = .ok c →
      c.json.Each Text.IsShort ∧ ∀ d ∈ c.decls, d.Each Text.IsShort) ∧
    ∀ fault, compileFile limit read path = .error fault → fault.Each Text.IsShort := by
  have versions : ∀ version : Int, 1 ≤ version → version ≤ max 1 limit → Text.IsShort version := by
    intro version first last
    rcases le_max_iff.mp last with one | below
    · exact Text.isShort_of_between (by omega) one (Text.isShort_of_le (by decide))
    · exact Text.isShort_of_between (by omega) below short
  constructor
  · intro c compiled
    obtain ⟨decls, loaded, compiled⟩ := bind_eq_ok_iff.mp compiled
    have built := mapError_eq_ok_iff.mp compiled
    have each := each_of_load loaded
    refine ⟨Compiled.each_json each versions built, ?_⟩
    obtain ⟨-, -, rfl⟩ := Compiled.ofDeclarations_eq_ok_iff.mp built
    exact each
  · intro fault rejected
    rcases bind_eq_error_iff.mp rejected with failed | ⟨decls, loaded, rejected⟩
    · exact each_of_loadFault failed
    · cases result : Compiled.ofDeclarations limit decls with
      | ok c =>
          rw [result] at rejected
          cases rejected
      | error r =>
          rw [result] at rejected
          cases rejected
          exact Compiled.each_rejected (each_of_load loaded) versions short result

end

/-- All numbers of a run that is not stopped by its arguments or its settings can be printed: those
of the arguments, those in the export and in the declarations of the schema, and those that a fault
of the file shows. -/
theorem numbers_short {env : Settings.Environment} {args : List Text} {invocation : Invocation}
    {settings : Settings} (accepted : readArguments args = .ok invocation)
    (valid : Settings.make [] env = .ok settings) (read : ReadFile) (path : Text) :
    (∀ n ∈ invocation.numbers, Text.IsShort n) ∧
    (∀ c, compileFile (limitOf settings invocation) read path = .ok c →
      c.json.Each Text.IsShort ∧ ∀ d ∈ c.decls, d.Each Text.IsShort) ∧
    ∀ fault, compileFile (limitOf settings invocation) read path = .error fault →
      fault.Each Text.IsShort :=
  ⟨isShort_of_arguments accepted, each_of_compileFile (isShort_limitOf accepted valid)⟩

end SchemaHistory.CommandLine
