import Mathlib.Data.List.Infix
import Mathlib.Data.List.Induction
import Mathlib.Tactic.SplitIfs
import SchemaHistory.CommandLine.Files
import SchemaHistory.Proofs.Results
import SchemaHistory.Proofs.Table

/-! # What writing a file changes

A path leads through directories and links to the place of a file.  Writing to the path changes the
file at that place and nothing else, even if the write fails: no directory comes or goes, and the
path leads to the same place afterwards (`written`).  A device keeps nothing. -/
set_option autoImplicit false
namespace SchemaHistory.CommandLine.Files

/-- The file at the place has the given content afterwards, and nothing else has changed. -/
structure Replaced (machine : Machine) (place : Steps) (content : Text) (before after : Files) :
    Prop where
  holds : content? place after = some content
  others : ∀ other, other ≠ place → content? other after = content? other before
  directories : ∀ other, isDirectory machine other after = isDirectory machine other before

variable {machine : Machine} {creating : Bool} {path content : Text} {files after : Files}
  {place directory other : Steps}

/-! ## Directories -/

theorem isDirectory_iff : isDirectory machine place files = true ↔
    place ∈ machine.standing ∨ ∃ key ∈ files.map Prod.fst, place <+: key ∧ place ≠ key := by
  simp [isDirectory]

theorem standing_above (stands : place ∈ machine.standing) (above : other <+: place) :
    other ∈ machine.standing := by
  obtain ⟨rest, rfl⟩ := above
  induction rest using List.reverseRecOn with
  | nil => rwa [List.append_nil] at stands
  | append_singleton rest step ih =>
      have up := machine.above _ stands
      rw [← List.append_assoc, List.dropLast_concat] at up
      exact ih up

theorem isDirectory_above (inside : isDirectory machine place files = true)
    (above : other <+: place) : isDirectory machine other files = true := by
  rw [isDirectory_iff] at inside ⊢
  rcases inside with stands | ⟨key, listed, below, proper⟩
  · exact .inl (standing_above stands above)
  · refine .inr ⟨key, listed, above.trans below, ?_⟩
    rintro rfl
    exact proper (below.eq_of_length (Nat.le_antisymm below.length_le above.length_le))

/-- A file in a directory makes no other directory. -/
theorem isDirectory_insert (inside : isDirectory machine place.dropLast files = true) :
    isDirectory machine other (Table.insert place content files) =
      isDirectory machine other files := by
  refine Bool.eq_iff_iff.mpr ?_
  constructor
  · intro found
    rw [isDirectory_iff, Table.keys_insert] at found
    rcases found with stands | ⟨key, listed, below, proper⟩
    · exact isDirectory_iff.mpr (.inl stands)
    · split_ifs at listed with present
      · exact isDirectory_iff.mpr (.inr ⟨key, listed, below, proper⟩)
      · rcases List.mem_append.mp listed with old | new
        · exact isDirectory_iff.mpr (.inr ⟨key, old, below, proper⟩)
        · obtain rfl := List.mem_singleton.mp new
          refine isDirectory_above inside ?_
          rcases List.eq_nil_or_concat' key with rfl | ⟨front, step, rfl⟩
          · exact absurd (List.prefix_nil.mp below) proper
          · rw [List.dropLast_concat]
            exact (List.prefix_concat_iff.mp below).resolve_left proper
  · intro found
    rw [isDirectory_iff] at found ⊢
    rw [Table.keys_insert]
    refine found.imp_right fun ⟨key, listed, below, proper⟩ => ⟨key, ?_, below, proper⟩
    split_ifs
    · exact listed
    · exact List.mem_append_left _ listed

theorem replaced_insert (inside : isDirectory machine place.dropLast files = true) :
    Replaced machine place content files (Table.insert place content files) where
  holds := by rw [content?, Table.find?_insert, if_pos rfl]
  others other different := by rw [content?, content?, Table.find?_insert, if_neg different.symm]
  directories _ := isDirectory_insert inside

/-! ## Where a path leads -/

def Stride.Inside (machine : Machine) (files : Files) : Stride → Prop
  | .arrived place => isDirectory machine place.dropLast files = true
  | .linked directory _ _ => isDirectory machine directory files = true

theorem stride_inside {steps : Steps} {s : Stride}
    (inside : isDirectory machine directory.dropLast files = true)
    (leads : stride machine creating path files directory steps = .ok s) :
    s.Inside machine files := by
  induction steps generalizing directory with
  | nil =>
      cases leads
      exact inside
  | cons step rest ih =>
      rw [stride] at leads
      split_ifs at leads with outside nameless stays rises long
      · exact ih inside leads
      · exact ih (isDirectory_above inside (List.dropLast_prefix _)) leads
      · have here : isDirectory machine directory files = true := by simpa using outside
        split at leads
        · cases leads
          exact here
        · exact ih (by rwa [List.dropLast_concat]) leads
        · cases leads

/-- A walk arrives before the next link, or it follows this one and has one link less to go. -/
theorem follow_eq_ok_iff {links : Nat} {steps : Steps} :
    follow machine creating path files links directory steps = .ok place ↔
      stride machine creating path files directory steps = .ok (.arrived place) ∨
      ∃ other target rest more,
        stride machine creating path files directory steps = .ok (.linked other target rest) ∧
        links = more + 1 ∧ follow machine creating path files more
          (if startsAtRoot target then [] else other) (route target ++ rest) = .ok place := by
  rw [follow]
  constructor
  · intro leads
    obtain ⟨s, first, later⟩ := bind_eq_ok_iff.mp leads
    cases s with
    | arrived other =>
        cases later
        exact .inl first
    | linked other target rest =>
        cases links with
        | zero => cases later
        | succ more => exact .inr ⟨other, target, rest, more, first, rfl, later⟩
  · rintro (first | ⟨other, target, rest, more, first, rfl, later⟩)
    · exact bind_eq_ok_iff.mpr ⟨_, first, rfl⟩
    · exact bind_eq_ok_iff.mpr ⟨_, first, later⟩

theorem follow_inside {links : Nat} {steps : Steps}
    (inside : isDirectory machine directory.dropLast files = true)
    (leads : follow machine creating path files links directory steps = .ok place) :
    isDirectory machine place.dropLast files = true := by
  induction links generalizing directory steps with
  | zero =>
      rcases follow_eq_ok_iff.mp leads with first | ⟨_, _, _, _, _, ⟨⟩, _⟩
      exact stride_inside inside first
  | succ links ih =>
      rcases follow_eq_ok_iff.mp leads with first | ⟨other, target, rest, _, first, ⟨⟩, later⟩
      · exact stride_inside inside first
      · have linked : isDirectory machine other files = true := stride_inside inside first
        refine ih (isDirectory_above linked ?_) later
        split_ifs
        · exact List.nil_prefix
        · exact List.dropLast_prefix _

theorem resolve_inside (leads : resolve machine creating path files = .ok place) :
    isDirectory machine place.dropLast files = true := by
  obtain ⟨⟨⟩, usable, leads⟩ := bind_eq_ok_iff.mp leads
  have current : isDirectory machine machine.current files = true :=
    isDirectory_iff.mpr (.inl machine.stands)
  refine follow_inside (isDirectory_above current ?_) leads
  split_ifs
  · exact List.nil_prefix
  · exact List.dropLast_prefix _

/-! ## The same path afterwards -/

section
variable (replaced : Replaced machine place content files after)
include replaced

theorem Replaced.isThere_self : isThere machine place after = true := by
  rw [isThere, replaced.holds]
  exact Bool.or_true _

theorem Replaced.isThere (there : isThere machine other files = true) :
    isThere machine other after = true := by
  by_cases same : other = place
  · rw [same]
    exact replaced.isThere_self
  · rwa [Files.isThere, replaced.directories, replaced.others other same]

theorem Replaced.stride {steps : Steps} {s : Stride}
    (leads : stride machine creating path files directory steps = .ok s)
    (there : ∀ other, s = .arrived other → Files.isThere machine other after = true) :
    stride machine false path after directory steps = .ok s := by
  induction steps generalizing directory with
  | nil => exact leads
  | cons step rest ih =>
      rw [Files.stride] at leads ⊢
      rw [replaced.directories, Bool.false_and, Bool.false_and, if_neg Bool.false_ne_true,
        Bool.or_false]
      split_ifs at leads ⊢ with outside nameless stays rises long
      · exact ih leads
      · exact ih leads
      · split at leads
        · rename_i link
          rw [link]
          exact leads
        · rename_i direct goes
          have present : Files.isThere machine (directory ++ [step]) after = true := by
            rcases Bool.or_eq_true_iff.mp goes with present | new
            · exact replaced.isThere present
            · obtain rfl : rest = [] := by simpa using (Bool.and_eq_true_iff.mp new).2
              cases leads
              exact there _ rfl
          rw [direct, present]
          exact ih leads
        · cases leads

/-- A path that leads to the place still leads there. -/
theorem Replaced.follow {links : Nat} {steps : Steps}
    (leads : follow machine creating path files links directory steps = .ok place) :
    follow machine false path after links directory steps = .ok place := by
  have arrives {directory steps : Steps}
      (first : Files.stride machine creating path files directory steps = .ok (.arrived place)) :
      Files.stride machine false path after directory steps = .ok (.arrived place) := by
    refine replaced.stride first fun other same => ?_
    obtain rfl := Stride.arrived.inj same
    exact replaced.isThere_self
  induction links generalizing directory steps with
  | zero =>
      rcases follow_eq_ok_iff.mp leads with first | ⟨_, _, _, _, _, ⟨⟩, _⟩
      exact follow_eq_ok_iff.mpr (.inl (arrives first))
  | succ links ih =>
      rcases follow_eq_ok_iff.mp leads with first | ⟨other, target, rest, _, first, ⟨⟩, later⟩
      · exact follow_eq_ok_iff.mpr (.inl (arrives first))
      · have again := replaced.stride first nofun
        exact follow_eq_ok_iff.mpr (.inr ⟨other, target, rest, links, again, rfl, ih later⟩)

theorem Replaced.resolve (leads : resolve machine creating path files = .ok place) :
    resolve machine false path after = .ok place := by
  obtain ⟨⟨⟩, usable, leads⟩ := bind_eq_ok_iff.mp leads
  exact bind_eq_ok_iff.mpr ⟨⟨⟩, usable, replaced.follow leads⟩

end

/-! ## Writing -/

theorem destination_eq_ok_iff : destination machine path files = .ok place ↔
    resolve machine true path files = .ok place ∧ isDirectory machine place files = false ∧
      machine.refusal? .writing place = none := by
  constructor
  · intro leads
    obtain ⟨other, first, later⟩ := bind_eq_ok_iff.mp leads
    split_ifs at later with taken
    split at later
    · cases later
    · cases later
      exact ⟨first, by simpa using taken, ‹_›⟩
  · rintro ⟨leads, free, allowed⟩
    refine bind_eq_ok_iff.mpr ⟨place, leads, ?_⟩
    rw [free, allowed]
    rfl

/-- What was written to a path is read from it, unless reading is refused. -/
theorem Replaced.read_eq (replaced : Replaced machine place content files after)
    (leads : destination machine path files = .ok place) (plain : machine.device? place = none)
    (readable : machine.refusal? .reading place = none) :
    read machine path after = .ok content := by
  obtain ⟨resolved, free, -⟩ := destination_eq_ok_iff.mp leads
  refine bind_eq_ok_iff.mpr ⟨place, replaced.resolve resolved, ?_⟩
  rw [readable, replaced.directories, free, plain, replaced.holds]
  rfl

/-- However a write ends, only the file that the path names may have changed. -/
theorem write_elsewhere (elsewhere : destination machine path files ≠ .ok other) :
    content? other (write machine path content files).2 = content? other files := by
  have untouched {place : Steps} (kept : Text)
      (leads : destination machine path files = .ok place) :
      content? other (Table.insert place kept files) = content? other files := by
    refine (replaced_insert (resolve_inside (destination_eq_ok_iff.mp leads).1)).others other ?_
    rintro rfl
    exact elsewhere leads
  unfold write
  cases leads : destination machine path files with
  | error fault => rfl
  | ok place =>
      dsimp only
      split
      · split <;> rfl
      · split
        · exact untouched _ leads
        · exact untouched _ leads

/-- A write that ends early leaves a part of the text in the file that the link leads to, in place
of its old content. -/
example :
    let machine : Machine := { Machine.standard with
      links := [([stepOf "tmp", [], stepOf "out"], "a.json")]
      loss? := fun _ content => some (content.take 1, ⟨28, "No space left on device"⟩) }
    write machine "out" "new" (ofNames machine [("a.json", "old")]) =
      (.error (.broken ⟨28, "No space left on device"⟩), ofNames machine [("a.json", "n")]) := by
  decide +kernel

/-- Writing to a path replaces the file that it names, and the path then reads what was written.
A device keeps nothing. -/
theorem written {stream : Option Stream}
    (done : write machine path content files = (.ok stream, after)) :
    ∃ place, destination machine path files = .ok place ∧
      (machine.device? place ≠ none → after = files) ∧
      (machine.device? place = none → stream = none ∧ Replaced machine place content files after ∧
        (machine.refusal? .reading place = none → read machine path after = .ok content)) := by
  unfold write at done
  cases leads : destination machine path files with
  | error fault =>
      rw [leads] at done
      cases done
  | ok place =>
      rw [leads] at done
      dsimp only at done
      refine ⟨place, rfl, ?_⟩
      split at done
      · split at done
        · cases done
        · cases done
          exact ⟨fun _ => rfl, fun plain => by simp_all⟩
      · split at done
        · cases done
        · cases done
          have inside := resolve_inside (destination_eq_ok_iff.mp leads).1
          have replaced : Replaced machine place content files (Table.insert place content files) :=
            replaced_insert inside
          exact ⟨fun device => absurd ‹_› device,
            fun plain => ⟨rfl, replaced, replaced.read_eq leads plain⟩⟩

end SchemaHistory.CommandLine.Files
