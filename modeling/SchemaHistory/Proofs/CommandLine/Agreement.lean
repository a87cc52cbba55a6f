import Mathlib.Data.List.TakeWhile
import SchemaHistory.CommandLine.Run
import SchemaHistory.Proofs.CommandLine.Written
import SchemaHistory.Proofs.Excerpt.Picked
import SchemaHistory.Proofs.Grammar.Infixes
import SchemaHistory.Proofs.Json.Sorted
import SchemaHistory.Proofs.Upgrade.Chained

/-! # Commands agree

The commands come to the same compiled schema in different ways, and each turns what goes wrong into
an exit code of its own.  For a file of which the declarations can be had and compiled, all of them
succeed, except that a difference between versions has to be harmless and that an output has to be
written; for any other file none does (`commands_agree`). -/
set_option autoImplicit false
namespace SchemaHistory.CommandLine

/-! ## Names in an export -/

def memberOf (name : Text) : Json → Json
  | .obj members => (Json.find? name members).getD .null
  | _ => .null

def itemsOf : Json → List Json
  | .arr items => items
  | _ => []

/-- The versions in an export, each with the names of its types. -/
def exportedNames (exported : Json) : List (Json × List Json) :=
  (itemsOf (memberOf "versions" (memberOf "schema" exported))).map fun version =>
    (memberOf "version" version, (itemsOf (memberOf "types" version)).map (memberOf "name"))

def nameLines (exported : Json) : Text :=
  ((exportedNames exported).map fun v =>
    "v" ++ v.1.shown ++ ": " ++ Text.join ", " (v.2.map Json.shown) ++ "\n").flatten

section
variable {members : List (Text × Json)} {decls : List Decl} {c : Compiled}

theorem memberOf_sorted (keyed : Table.Keyed members) (name : Text) :
    memberOf name (Json.obj members).sorted = (memberOf name (.obj members)).sorted := by
  rw [Json.sorted]
  change (Json.find? name _).getD .null = _
  rw [Json.find?, Json.find?_sortedMembers keyed, memberOf, Json.find?]
  cases Table.find? name members <;> rfl

theorem itemsOf_sorted (value : Json) : itemsOf value.sorted = (itemsOf value).map Json.sorted := by
  cases value <;> simp [itemsOf, Json.sorted, Json.sortedItems_eq_map]

theorem keyed_typeJson (slot : TypeSlot) (d : Decl) :
    Table.Keyed [(("name" : Text), d.name), ("kind", .str d.kind.name),
      Snapshot.membersMember slot d] := by
  obtain ⟨name, body, header, position⟩ := d
  cases body with
  | record node fs =>
      show (["name", "kind", "fields"] : List Text).Nodup
      decide
  | enum vs =>
      show (["name", "kind", "variants"] : List Text).Nodup
      decide

theorem memberOf_version_sorted (decls : List Decl) (s : Snapshot) (name : Text) :
    memberOf name (s.json decls).sorted = (memberOf name (s.json decls)).sorted := by
  refine memberOf_sorted ?_ name
  show (["version", "types"] : List Text).Nodup
  decide

/-- Sorting an export does not change which names it has. -/
theorem exportedNames_sorted (c : Compiled) : exportedNames (exportJson c).sorted =
    c.snapshots.map fun s => (.int s.version, (s.typeNames c.decls).map Json.sorted) := by
  have whole : memberOf "schema" (exportJson c).sorted = c.json.sorted := by
    refine (memberOf_sorted ?_ _).trans rfl
    show (["fingerprint", "schema"] : List Text).Nodup
    decide
  have keyed : Table.Keyed [(("versions" : Text),
      Json.arr (c.snapshots.map (Snapshot.json c.decls)))] := List.nodup_singleton _
  have versions : memberOf "versions" c.json.sorted =
      (Json.arr (c.snapshots.map (Snapshot.json c.decls))).sorted :=
    (memberOf_sorted keyed _).trans rfl
  rw [exportedNames, whole, versions, itemsOf_sorted, itemsOf, List.map_map, List.map_map]
  refine List.map_congr_left fun s _ => Prod.ext ?_ ?_
  · have number : memberOf "version" (s.json c.decls) = .int s.version := rfl
    change memberOf "version" (s.json c.decls).sorted = .int s.version
    rw [memberOf_version_sorted, number, Json.sorted_int]
  · have types : memberOf "types" (s.json c.decls) =
        .arr ((s.declared c.decls).map fun t => Snapshot.typeJson t.1 t.2) := rfl
    change (itemsOf (memberOf "types" (s.json c.decls).sorted)).map (memberOf "name") = _
    rw [memberOf_version_sorted, itemsOf_sorted, types, itemsOf, Snapshot.typeNames, List.map_map,
      List.map_map, List.map_map]
    refine List.map_congr_left fun t _ => ?_
    exact (memberOf_sorted (keyed_typeJson t.1 t.2) _).trans rfl

theorem isText_typeName {s : Snapshot} {name : Json} (texts : HasTextNames decls)
    (member : name ∈ s.typeNames decls) : name.isText = true := by
  obtain ⟨t, listed, rfl⟩ := List.mem_map.mp member
  exact (texts _ (List.mem_of_getElem? (Snapshot.mem_declared listed).2)).own

/-- The lines for an export are those that list the versions of the schema. -/
theorem nameLines_eq (texts : HasTextNames c.decls) :
    nameLines (exportJson c).sorted = (c.snapshots.map (versionLine c)).flatten := by
  rw [nameLines, exportedNames_sorted, List.map_map]
  refine congrArg List.flatten (List.map_congr_left fun s _ => ?_)
  have same : (s.typeNames c.decls).map Json.sorted = s.typeNames c.decls := by
    refine (List.map_congr_left fun name member => ?_).trans (List.map_id _)
    exact Json.sorted_of_isText (isText_typeName texts member)
  rw [Function.comp_apply, same]
  rfl

end

/-! ## Runs -/

def Ending.Succeeds (ending : Ending) : Prop :=
  ∃ output, ending = .finished output ∧ output.exit = 0

/-- The arguments are accepted and ask for the command, the settings are valid, and together they
set the limit for the versions that may be mentioned. -/
def Asks (env : Settings.Environment) (args : List Text) (limit : Int) (command : Command) : Prop :=
  ∃ maxVersion settings level, readArguments args = .ok ⟨maxVersion, command⟩ ∧
    Settings.make [] env = .ok settings ∧ settings.level = .ok level ∧
    limitOf settings ⟨maxVersion, command⟩ = limit

def Compiles (machine : Machine) (limit : Int) (files : Files) (path : Text) (c : Compiled) :
    Prop :=
  ∃ decls, load (readerOf machine files) path = .ok decls ∧
    Compiled.ofDeclarations limit decls = .ok c

section
variable {machine : Machine} {env : Settings.Environment} {args : List Text} {limit : Int}
  {files : Files} {command : Command} {path : Text} {c : Compiled}

theorem compileFile_eq_ok_iff :
    compileFile limit (readerOf machine files) path = .ok c ↔
      Compiles machine limit files path c := by
  rw [compileFile, bind_eq_ok_iff]
  refine exists_congr fun decls => and_congr_right fun _ => ?_
  cases Compiled.ofDeclarations limit decls with
  | error rejection =>
      constructor <;> rintro ⟨⟩
  | ok compiled =>
      constructor <;> rintro ⟨⟩ <;> rfl

theorem exists_compiles
    (compiled : (compileFile limit (readerOf machine files) path).isOk = true) :
    ∃ c, Compiles machine limit files path c := by
  cases result : compileFile limit (readerOf machine files) path with
  | ok c => exact ⟨c, compileFile_eq_ok_iff.mp result⟩
  | error fault =>
      rw [result] at compiled
      cases compiled

theorem Compiles.unique {d : Compiled} (first : Compiles machine limit files path c)
    (second : Compiles machine limit files path d) : c = d :=
  Except.ok.inj ((compileFile_eq_ok_iff.mpr first).symm.trans (compileFile_eq_ok_iff.mpr second))

theorem not_succeeds_ending (fault : LoadFault) : ¬fault.ending.Succeeds := by
  have wrong (message : Text) : ¬(Ending.finished (failed message)).Succeeds := by
    rintro ⟨_, ⟨⟩, zero⟩
    exact Nat.one_ne_zero zero
  cases fault with
  | file fault => exact wrong _
  | notJson => exact wrong _
  | overlong numeral => exact wrong _
  | schema rejection => exact wrong _
  | document fault =>
      cases fault with
      | noMembers => rintro ⟨_, ⟨⟩, -⟩
      | _ => exact wrong _

theorem not_succeeds_checkEnding (fault : LoadFault) : ¬fault.checkEnding.Succeeds := by
  unfold LoadFault.checkEnding
  split
  · rintro ⟨_, ⟨⟩, zero⟩
    exact Nat.one_ne_zero zero
  · exact not_succeeds_ending fault

theorem not_succeeds_faultEnding (fault : LoadFault) (command : Command) :
    ¬(command.faultEnding fault).Succeeds := by
  cases command with
  | check file => exact not_succeeds_checkEnding fault
  | _ => exact not_succeeds_ending fault

theorem Asks.run_eq (asks : Asks env args limit command) : run machine env args files =
    perform machine files (respondTo limit (readerOf machine files) command) := by
  obtain ⟨maxVersion, settings, level, accepted, made, found, rfl⟩ := asks
  unfold run respond
  rw [accepted]
  dsimp only
  rw [made]
  dsimp only
  rw [found]

theorem Asks.run_of_compiles (asks : Asks env args limit command)
    (compiles : Compiles machine limit files command.file c) :
    run machine env args files = perform machine files (command.response c) := by
  rw [asks.run_eq, respondTo, compileFile_eq_ok_iff.mpr compiles]

/-- Where nothing is compiled, no command succeeds, and no file is changed. -/
theorem Asks.run_of_not_compiles (asks : Asks env args limit command)
    (fails : ¬∃ c, Compiles machine limit files command.file c) :
    ¬(run machine env args files).1.Succeeds ∧ (run machine env args files).2 = files := by
  cases compiled : compileFile limit (readerOf machine files) command.file with
  | ok c => exact absurd ⟨c, compileFile_eq_ok_iff.mp compiled⟩ fails
  | error fault =>
      rw [asks.run_eq, respondTo, compiled]
      exact ⟨not_succeeds_faultEnding fault command, rfl⟩

/-- The run succeeds exactly if the file compiles to something `good`.  Whatever the file compiles
to, the run only prints the output for it. -/
structure Answers (machine : Machine) (env : Settings.Environment) (args : List Text)
    (limit : Int) (files : Files) (path : Text) (good : Compiled → Prop)
    (output : Compiled → Output) : Prop where
  succeeds : (run machine env args files).1.Succeeds ↔
    ∃ c, Compiles machine limit files path c ∧ good c
  unchanged : (run machine env args files).2 = files
  prints : ∀ c, Compiles machine limit files path c →
    (run machine env args files).1 = .finished (output c)

theorem Asks.answers (asks : Asks env args limit command) {good : Compiled → Prop}
    {output : Compiled → Output}
    (prints : ∀ c, Compiles machine limit files command.file c →
      command.response c = .ending (.finished (output c)))
    (judged : ∀ c, (output c).exit = 0 ↔ good c) :
    Answers machine env args limit files command.file good output := by
  have done (c : Compiled) (compiles : Compiles machine limit files command.file c) :
      run machine env args files = (.finished (output c), files) := by
    rw [asks.run_of_compiles compiles, prints c compiles]
    rfl
  by_cases any : ∃ c, Compiles machine limit files command.file c
  · obtain ⟨c, compiles⟩ := any
    have succeeds : (run machine env args files).1.Succeeds ↔ (output c).exit = 0 := by
      rw [done c compiles]
      constructor
      · rintro ⟨_, ⟨⟩, zero⟩
        exact zero
      · exact fun zero => ⟨_, rfl, zero⟩
    refine ⟨succeeds.trans ((judged c).trans ⟨fun good => ⟨c, compiles, good⟩, ?_⟩), ?_, ?_⟩
    · rintro ⟨d, other, good⟩
      rwa [compiles.unique other]
    · rw [done c compiles]
    · exact fun d other => by rw [done d other]
  · obtain ⟨unsuccessful, unchanged⟩ := asks.run_of_not_compiles any
    refine ⟨iff_of_false unsuccessful ?_, unchanged, ?_⟩
    · rintro ⟨c, compiles, -⟩
      exact any ⟨c, compiles⟩
    · exact fun c compiles => absurd ⟨c, compiles⟩ any

/-! ## Outputs -/

theorem exportText_ne_nil (c : Compiled) : exportText c ≠ [] := by
  rw [exportText, exportJson, Json.sorted, Json.write]
  cases Json.sortedMembers _ with
  | nil =>
      rw [Json.text]
      decide
  | cons m rest => simp [Json.text]

theorem canBeListed_of_texts (texts : HasTextNames c.decls) (s : Snapshot) :
    canBeListed c s = true :=
  List.all_eq_true.mpr fun _ member => isText_typeName texts member

theorem versionsOutput_eq (texts : HasTextNames c.decls) :
    versionsOutput c = ⟨0, nameLines (exportJson c).sorted, []⟩ := by
  have all : c.snapshots.all (canBeListed c) = true :=
    List.all_eq_true.mpr fun s _ => canBeListed_of_texts texts s
  have lines : c.snapshots.takeWhile (canBeListed c) = c.snapshots :=
    List.takeWhile_eq_self_iff.mpr fun s _ => canBeListed_of_texts texts s
  rw [versionsOutput, lines, if_pos all, nameLines_eq texts]

theorem hasVersion_of_side {version : Int} {s : Snapshot} (found : Upgrade.side c version = .ok s) :
    Upgrade.HasVersion c version := by
  obtain ⟨t, exists_, -⟩ := bind_eq_ok_iff.mp found
  cases snapshot : c.snapshot? version with
  | ok t => exact ⟨t, snapshot⟩
  | error missing =>
      rw [snapshot] at exists_
      cases exists_

theorem changesBetween_eq (old new : Int) : changesBetween c (some old) (some new) =
    (Upgrade.diff c old new).mapError DiffFault.upgrade := by
  change (Upgrade.side c old).mapError DiffFault.upgrade >>= (fun _ =>
    (Upgrade.diff c old new).mapError DiffFault.upgrade) = _
  cases first : Upgrade.side c old with
  | ok before => rfl
  | error fault =>
      rw [Upgrade.diff, first]
      rfl

/-- A difference is harmless exactly where both versions exist and the upgrade check returns. -/
theorem exit_diffOutput {old new : Int} (format : OutputFormat) :
    (diffOutput format (some old) (some new) c).exit = 0 ↔
      Upgrade.HasVersion c old ∧ Upgrade.HasVersion c new ∧ Upgrade.CanUpgrade c old new := by
  rw [diffOutput, changesBetween_eq, Upgrade.CanUpgrade, Upgrade.check]
  cases compared : Upgrade.diff c old new with
  | error fault =>
      refine iff_of_false Nat.one_ne_zero ?_
      rintro ⟨-, -, _, ⟨⟩⟩
  | ok changes =>
      obtain ⟨before, first, later⟩ := bind_eq_ok_iff.mp compared
      obtain ⟨after, second, -⟩ := bind_eq_ok_iff.mp later
      have harmless : (changes.filter Change.isBreaking).isEmpty = true ↔
          changes.any Change.isBreaking = false := by
        rw [List.isEmpty_iff, List.filter_eq_nil_iff, List.any_eq_false]
      change (if changes.any Change.isBreaking = true then 1 else 0) = 0 ↔ _
      rw [and_iff_right (hasVersion_of_side first), and_iff_right (hasVersion_of_side second)]
      simp only [harmless]
      cases changes.any Change.isBreaking <;> simp

/-! ## Agreement -/

/-- How the runs of all commands on one file hang together.  The first four commands only print; an
export may also go to a file, where an empty name is none and a device keeps nothing. -/
structure Agreement (machine : Machine) (env : Settings.Environment) (limit : Int) (files : Files)
    (path : Text) : Prop where
  compile : ∀ args, Asks env args limit (.compile path none) →
    Answers machine env args limit files path (fun _ => True) fun c => printed (exportText c)
  check : ∀ args, Asks env args limit (.check path) →
    Answers machine env args limit files path (fun _ => True) checkOutput
  versions : ∀ args, Asks env args limit (.versions path) →
    Answers machine env args limit files path (fun _ => True)
      fun c => ⟨0, nameLines (exportJson c).sorted, []⟩
  diff : ∀ args old new format, Asks env args limit (.diff path (some old) (some new) format) →
    Answers machine env args limit files path
      (fun c => Upgrade.HasVersion c old ∧ Upgrade.HasVersion c new ∧ Upgrade.CanUpgrade c old new)
      (diffOutput format (some old) (some new))
  unnamed : ∀ args, Asks env args limit (.compile path (some [])) →
    Answers machine env args limit files path (fun _ => True) fun c => printed (exportText c)
  untouched : ∀ args out, Asks env args limit (.compile path (some out)) →
    (¬∃ c, Compiles machine limit files path c) →
      ¬(run machine env args files).1.Succeeds ∧ (run machine env args files).2 = files
  elsewhere : ∀ args out, Asks env args limit (.compile path (some out)) →
    ∀ place, Files.destination machine out files ≠ .ok place →
      Files.content? place (run machine env args files).2 = Files.content? place files
  saved : ∀ args out, Asks env args limit (.compile path (some out)) → out ≠ [] →
    (run machine env args files).1.Succeeds →
      ∃ c place, Compiles machine limit files path c ∧
        Files.destination machine out files = .ok place ∧
        (machine.device? place ≠ none → (run machine env args files).2 = files) ∧
        (machine.device? place = none →
          (run machine env args files).1 = .finished (savedOutput out) ∧
          Files.Replaced machine place (exportText c) files (run machine env args files).2 ∧
          (machine.refusal? .reading place = none →
            Files.read machine out (run machine env args files).2 = .ok (exportText c)))

/-- The names in schema text are texts, so it is enough to ask this of documents. -/
theorem Compiles.hasTextNames (compiles : Compiles machine limit files path c)
    (texts : isDocumentName path = true → ∀ decls,
      load (readerOf machine files) path = .ok decls → HasTextNames decls) :
    HasTextNames c.decls := by
  obtain ⟨decls, loaded, compiled⟩ := compiles
  obtain ⟨-, -, rfl⟩ := Compiled.ofDeclarations_eq_ok_iff.mp compiled
  by_cases document : isDocumentName path = true
  · exact texts document decls loaded
  · unfold load at loaded
    split at loaded
    · cases loaded
    · dsimp only at loaded
      rw [if_neg document] at loaded
      split at loaded <;> cases loaded
      exact hasTextNames_of_text ‹_›

/-- An output without a name is the standard output. -/
theorem Asks.unnamed (asks : Asks env args limit (.compile path (some []))) :
    Answers machine env args limit files path (fun _ => True) fun c => printed (exportText c) :=
  asks.answers (fun _ _ => rfl) fun _ => iff_true_intro rfl

theorem perform_save_files (out content : Text) :
    (perform machine files (.save out content)).2 = (Files.write machine out content files).2 := by
  unfold perform
  dsimp only
  split
  · rename_i failed
    rw [failed]
  · rename_i done
    rw [done]

/-- A run that saves an export succeeds only if it is written as a whole. -/
theorem write_of_succeeds {out content : Text}
    (succeeds : (perform machine files (.save out content)).1.Succeeds) :
    ∃ stream after, Files.write machine out content files = (.ok stream, after) ∧
      perform machine files (.save out content) =
        (.finished ((savedOutput out).behind content stream), after) := by
  unfold perform at succeeds ⊢
  dsimp only at succeeds ⊢
  split at succeeds
  · obtain ⟨_, ⟨⟩, zero⟩ := succeeds
    exact absurd zero Nat.one_ne_zero
  · rename_i stream after done
    exact ⟨stream, after, done, rfl⟩

theorem Asks.saved {out : Text} (asks : Asks env args limit (.compile path (some out)))
    (named : out ≠ []) (compiles : Compiles machine limit files path c) :
    run machine env args files = perform machine files (.save out (exportText c)) := by
  have something : out.isEmpty = false := by cases out <;> trivial
  rw [asks.run_of_compiles compiles, Command.response, compileResponse, something]
  rfl

/-- All commands agree on every file, where the names in a document are texts. -/
theorem commands_agree (machine : Machine) (env : Settings.Environment) (limit : Int)
    (files : Files) (path : Text)
    (texts : isDocumentName path = true → ∀ decls,
      load (readerOf machine files) path = .ok decls → HasTextNames decls) :
    Agreement machine env limit files path where
  compile args asks := asks.answers (fun _ _ => rfl) fun _ => iff_true_intro rfl
  check args asks := asks.answers (fun _ _ => rfl) fun _ => iff_true_intro rfl
  versions args asks := asks.answers
    (fun c compiles => by rw [Command.response, versionsOutput_eq (compiles.hasTextNames texts)])
    fun _ => iff_true_intro rfl
  diff args old new format asks := asks.answers (fun _ _ => rfl) fun _ => exit_diffOutput format
  unnamed args asks := asks.unnamed
  untouched args out asks fails := asks.run_of_not_compiles fails
  elsewhere args out asks place elsewhere := by
    by_cases any : ∃ c, Compiles machine limit files path c
    · obtain ⟨c, compiles⟩ := any
      by_cases named : out = []
      · subst named
        rw [asks.unnamed.unchanged]
      · rw [asks.saved named compiles, perform_save_files, Files.write_elsewhere elsewhere]
    · rw [(asks.run_of_not_compiles any).2]
  saved args out asks named succeeds := by
    by_cases any : ∃ c, Compiles machine limit files path c
    · obtain ⟨c, compiles⟩ := any
      rw [asks.saved named compiles] at succeeds ⊢
      obtain ⟨stream, after, done, result⟩ := write_of_succeeds succeeds
      obtain ⟨place, leads, lost, kept⟩ := Files.written done
      rw [result]
      refine ⟨c, place, compiles, leads, lost, fun plain => ?_⟩
      obtain ⟨rfl, replaced, readable⟩ := kept plain
      exact ⟨rfl, replaced, readable⟩
    · exact absurd succeeds (asks.run_of_not_compiles any).1

end

/-! ## One schema -/

def smallFiles : Files :=
  Files.ofNames .standard [("a.vsd", "struct A \x7b x: u8 \x7d"),
    ("a.json", (Json.obj [("types", .arr [.obj [("kind", .str "struct"), ("name", .str "A"),
      ("fields", .arr [.obj [("name", .str "x"),
        ("value", .obj [("kind", .str "primitive"), ("name", .str "u8")])]])]])]).write .compact)]

theorem commands_agree_small : (∃ c, Compiles .standard 1024 smallFiles "a.json" c) ∧
    Agreement .standard [] 1024 smallFiles "a.json" := by
  refine ⟨exists_compiles (by decide +kernel),
    commands_agree .standard [] 1024 smallFiles "a.json" ?_⟩
  intro _ decls loaded
  have texts : ((load (readerOf .standard smallFiles) "a.json").toOption.all
      fun decls => decide (HasTextNames decls)) = true := by decide +kernel
  rw [loaded] at texts
  exact of_decide_eq_true texts

/-- An export that is written to no file, or to the null device, is nowhere to be read, although the
run succeeds. -/
theorem export_kept_nowhere :
    (Asks [] ["compile", "a.vsd", "-o", []] 1024 (.compile "a.vsd" (some [])) ∧
      (run .standard [] ["compile", "a.vsd", "-o", []] smallFiles).1.Succeeds ∧
      ∀ text, Files.read .standard []
        (run .standard [] ["compile", "a.vsd", "-o", []] smallFiles).2 ≠ .ok text) ∧
    (Asks [] ["compile", "a.vsd", "-o", "/dev/null"] 1024 (.compile "a.vsd" (some "/dev/null")) ∧
      (run .standard [] ["compile", "a.vsd", "-o", "/dev/null"] smallFiles).1.Succeeds ∧
      Files.read .standard "/dev/null"
        (run .standard [] ["compile", "a.vsd", "-o", "/dev/null"] smallFiles).2 = .ok [] ∧
      ∀ c, Compiles .standard 1024 smallFiles "a.vsd" c → exportText c ≠ []) := by
  obtain ⟨c, compiles⟩ : ∃ c, Compiles .standard 1024 smallFiles "a.vsd" c :=
    exists_compiles (by decide +kernel)
  have unnamed : Asks [] ["compile", "a.vsd", "-o", []] 1024 (.compile "a.vsd" (some [])) :=
    ⟨none, ⟨1024, "INFO", .text⟩, 20, by decide +kernel, by decide +kernel, by decide +kernel, rfl⟩
  have null : Asks [] ["compile", "a.vsd", "-o", "/dev/null"] 1024
      (.compile "a.vsd" (some "/dev/null")) :=
    ⟨none, ⟨1024, "INFO", .text⟩, 20, by decide +kernel, by decide +kernel, by decide +kernel, rfl⟩
  have device : Files.destination .standard "/dev/null" smallFiles =
      .ok [stepOf "dev", stepOf "null"] := by decide +kernel
  have written : run .standard [] ["compile", "a.vsd", "-o", "/dev/null"] smallFiles =
      (.finished (savedOutput "/dev/null"), smallFiles) := by
    rw [null.saved (by decide) compiles, perform, Files.write, device]
    rfl
  have answers : Answers .standard [] ["compile", "a.vsd", "-o", []] 1024 smallFiles "a.vsd"
      (fun _ => True) fun c => printed (exportText c) := unnamed.unnamed
  refine ⟨⟨unnamed, answers.succeeds.mpr ⟨c, compiles, trivial⟩, fun text read => ?_⟩, null, ?_, ?_,
    fun c _ => exportText_ne_nil c⟩
  · rw [answers.unchanged] at read
    cases read
  · rw [written]
    exact ⟨_, rfl, rfl⟩
  · rw [written]
    decide +kernel

end SchemaHistory.CommandLine
