import Intcode.CommandLine.Execution
import Intcode.Proofs.Machine.Calls
import Intcode.Proofs.Program.Patching
import Intcode.Proofs.Program.RoundTrip

/-!
# The command that runs a program

Its report tells whether every stage succeeded: reading the program, patching it and running it to
its halt. Only then anything is printed, the outputs on a line each, and the memory that is left on
one more if it is asked for. That line is a program again, since no stage can leave a memory empty.
-/

namespace Intcode

namespace CommandLine

/-- The text is a program that, patched and with these inputs queued, runs to its halt with these
outputs and leaves this machine. -/
def RunsThrough (text : String) (patches : List Patch) (limit : Option Nat) (inputs : List Word)
    (outputs : List Word) (last : Machine) : Prop :=
  ∃ p q fuel, Program.parse text = .ok p ∧ p.patched patches = .ok q ∧
    ((Machine.load q limit).feedAll inputs).runToHalt fuel = some (.ok outputs, last)

variable {text file : String} {patches : List Patch} {limit : Option Nat}
variable {inputs outputs : List Word} {last : Machine} {dump : Bool}

theorem RunsThrough.returns {p q : Program}
    (through : RunsThrough text patches limit inputs outputs last)
    (parsed : Program.parse text = .ok p) (patched : p.patched patches = .ok q) :
    ∃ fuel, ((Machine.load q limit).feedAll inputs).runToHalt fuel = some (.ok outputs, last) := by
  obtain ⟨p', q', fuel, again, anew, ran⟩ := through
  cases parsed.symm.trans again
  cases patched.symm.trans anew
  exact ⟨fuel, ran⟩

theorem RunsThrough.unique {others : List Word} {left : Machine}
    (one : RunsThrough text patches limit inputs outputs last)
    (two : RunsThrough text patches limit inputs others left) : outputs = others ∧ last = left := by
  obtain ⟨p, q, fuel, parsed, patched, ran⟩ := one
  obtain ⟨more, reran⟩ := two.returns parsed patched
  obtain ⟨same, left⟩ := Machine.runToHalt_unique ran reran
  exact ⟨Except.ok.inj same, left⟩

theorem RunsThrough.size_pos (through : RunsThrough text patches limit inputs outputs last) :
    0 < last.memory.size := by
  obtain ⟨p, q, fuel, parsed, patched, ran⟩ := through
  obtain ⟨starts, performs⟩ := Machine.performs_of_runToHalt ran
  have loaded : 0 < p.size := Program.size_pos_of_parse parsed
  have extended : p.size ≤ q.size := Program.size_le_of_patched patched
  have grown : q.size ≤ last.memory.size := performs.size_le
  omega

/-! ## Lines -/

/-- Lines without an end inside are found again between the ends. -/
theorem pieces_unlines {lines : List String} (whole : ∀ line ∈ lines, '\n' ∉ line.toList) :
    Text.pieces '\n' (unlines lines).toList = lines.map String.toList ++ [[]] := by
  rw [Text.pieces_eq_splitOn, unlines]
  induction lines with
  | nil => exact List.splitOn_nil '\n'
  | cons line lines ih =>
    obtain ⟨first, others⟩ := List.forall_mem_cons.mp whole
    have front : (String.join ((line :: lines).map fun line => line ++ "\n")).toList =
        line.toList ++ '\n' :: (String.join (lines.map fun line => line ++ "\n")).toList := by
      simp [String.join_cons]
    rw [front, List.splitOn_append_cons_self_of_not_mem first, ih others]
    rfl

theorem lines_whole (outputs : List Word) (dump : Bool) (m : Machine) :
    ∀ line ∈ outputs.map Word.render ++ dumpLines dump m, '\n' ∉ line.toList := by
  intro line member
  rcases List.mem_append.mp member with value | memory
  · obtain ⟨w, -, rfl⟩ := List.mem_map.mp value
    exact Word.not_mem_render (by decide) (by decide) w
  · cases dump with
    | false => cases memory
    | true =>
      cases List.mem_singleton.mp memory
      intro inside
      have visible := Program.isBlank_of_mem_render inside
      exact absurd visible (by decide)

/-! ## Reports -/

variable {fuel : Nat} {files : Files} {j : Journal}

/-- A report is of a success at every stage, with the results, or of a failure at one. -/
theorem runProgram_reports {report : Report} (readable : files.readText file = .ok text)
    (reported : runProgram fuel files limit j file inputs patches dump = some report) :
    (∃ outputs last, RunsThrough text patches limit inputs outputs last ∧ report.exitCode = 0 ∧
      report.output = unlines (outputs.map Word.render ++ dumpLines dump last)) ∨
    ((¬ ∃ outputs last, RunsThrough text patches limit inputs outputs last) ∧
      report.exitCode = 1 ∧ report.output = "") := by
  simp only [runProgram, Program.load, readable] at reported
  cases parsed : Program.parse text with
  | error e =>
    simp only [parsed] at reported
    cases reported
    refine .inr ⟨?_, rfl, rfl⟩
    rintro ⟨outputs, last, p, q, fuel, again, -⟩
    cases parsed.symm.trans again
  | ok p =>
    simp only [parsed] at reported
    cases patched : p.patched patches with
    | error e =>
      simp only [patched] at reported
      cases reported
      refine .inr ⟨?_, rfl, rfl⟩
      rintro ⟨outputs, last, p', q, fuel, again, anew, -⟩
      cases parsed.symm.trans again
      cases patched.symm.trans anew
    | ok q =>
      simp only [patched] at reported
      cases followed : ((Machine.load q limit).feedAll inputs).follow fuel with
      | none =>
        simp only [followed] at reported
        cases reported
      | some course =>
        simp only [followed] at reported
        have ran : ((Machine.load q limit).feedAll inputs).runToHalt fuel =
            some (course.result, course.machine) := by
          rw [Machine.runToHalt, followed]
          rfl
        cases result : course.result with
        | error e =>
          simp only [result] at reported
          cases reported
          refine .inr ⟨?_, rfl, rfl⟩
          rintro ⟨outputs, last, through⟩
          obtain ⟨more, reran⟩ := through.returns parsed patched
          obtain ⟨same, -⟩ := Machine.runToHalt_unique ran reran
          cases result.symm.trans same
        | ok outputs =>
          simp only [result] at reported
          cases reported
          rw [result] at ran
          exact .inl ⟨outputs, course.machine, ⟨p, q, fuel, parsed, patched, ran⟩, rfl, rfl⟩

variable (dump j) in
/-- There is a report, with enough fuel, unless the program runs on forever. -/
theorem exists_report_iff (readable : files.readText file = .ok text) :
    (∃ fuel report, runProgram fuel files limit j file inputs patches dump = some report) ↔
      ∀ p q, Program.parse text = .ok p → p.patched patches = .ok q →
        ∃ fuel result last,
          ((Machine.load q limit).feedAll inputs).runToHalt fuel = some (result, last) := by
  simp only [runProgram, Program.load, readable]
  constructor
  · rintro ⟨fuel, report, reported⟩ p q parsed patched
    simp only [parsed, patched] at reported
    cases followed : ((Machine.load q limit).feedAll inputs).follow fuel with
    | none =>
      simp only [followed] at reported
      cases reported
    | some course =>
      refine ⟨fuel, course.result, course.machine, ?_⟩
      rw [Machine.runToHalt, followed]
      rfl
  · intro returns
    cases parsed : Program.parse text with
    | error e => exact ⟨0, _, rfl⟩
    | ok p =>
      cases patched : p.patched patches with
      | error e =>
        simp only [patched]
        exact ⟨0, _, rfl⟩
      | ok q =>
        obtain ⟨fuel, result, last, ran⟩ := returns p q parsed patched
        obtain ⟨course, followed, -⟩ := Option.map_eq_some_iff.mp ran
        refine ⟨fuel, ?_⟩
        simp only [patched, followed]
        cases course.result with
        | error e => exact ⟨_, rfl⟩
        | ok outputs => exact ⟨_, rfl⟩

/-- The response is the report of the program. -/
theorem respond_eq_map {env : Environment} {terminals : Terminals} {arguments : List String}
    {invocation : Invocation} (read : parse env arguments = .ok invocation)
    (command : invocation.command = .run file inputs patches dump) :
    respond fuel env terminals files arguments =
      (runProgram fuel files invocation.limit { threshold := invocation.level } file inputs patches
        dump).map fun report => {
          exitCode := report.exitCode
          output := report.output
          entries := report.journal.entries
          timestamps := invocation.timestamps
          coloured := coloured env } := by
  simp only [respond, read, execute, command]

/-- The command responds unless the program runs on forever. It prints and reports success exactly
if every stage succeeds. -/
theorem respond_run {env : Environment} {terminals : Terminals} {arguments : List String}
    {invocation : Invocation} (read : parse env arguments = .ok invocation)
    (command : invocation.command = .run file inputs patches dump)
    (readable : files.readText file = .ok text) :
    ((∃ fuel response, respond fuel env terminals files arguments = some response) ↔
      ∀ p q, Program.parse text = .ok p → p.patched patches = .ok q →
        ∃ fuel result last,
          ((Machine.load q invocation.limit).feedAll inputs).runToHalt fuel = some (result, last)) ∧
    ∀ fuel response, respond fuel env terminals files arguments = some response →
      (response.exitCode = 0 ↔
        ∃ outputs last, RunsThrough text patches invocation.limit inputs outputs last) ∧
      (∀ outputs last, RunsThrough text patches invocation.limit inputs outputs last →
        ∃ dumped : List String,
          response.output = unlines (outputs.map Word.render ++ dumped) ∧
          Text.pieces '\n' response.output.toList =
            (outputs.map Word.render ++ dumped).map String.toList ++ [[]] ∧
          (dump = false → dumped = []) ∧
          (dump = true → ∃ line, dumped = [line] ∧
            Program.parse line = .ok (Program.ofMemory last.memory))) ∧
      ((¬ ∃ outputs last, RunsThrough text patches invocation.limit inputs outputs last) →
        response.exitCode = 1 ∧ response.output = "") := by
  constructor
  · simp only [respond_eq_map read command, Option.map_eq_some_iff]
    rw [← exists_report_iff dump { threshold := invocation.level } readable]
    constructor
    · rintro ⟨fuel, _, report, reported, rfl⟩
      exact ⟨fuel, report, reported⟩
    · rintro ⟨fuel, report, reported⟩
      exact ⟨fuel, _, report, reported, rfl⟩
  intro fuel response responds
  rw [respond_eq_map read command] at responds
  obtain ⟨report, reported, rfl⟩ := Option.map_eq_some_iff.mp responds
  rcases runProgram_reports readable reported with
    ⟨outputs, last, through, code, printed⟩ | ⟨none, code, silent⟩
  · refine ⟨?_, ?_, ?_⟩
    · exact ⟨fun _ => ⟨outputs, last, through⟩, fun _ => code⟩
    · intro others left again
      obtain ⟨rfl, rfl⟩ := through.unique again
      refine ⟨dumpLines dump last, printed, ?_, ?_, ?_⟩
      · rw [printed]
        exact pieces_unlines (lines_whole outputs dump last)
      · rintro rfl
        rfl
      · rintro rfl
        exact ⟨_, rfl, Program.parse_render through.size_pos⟩
    · intro none
      exact absurd ⟨outputs, last, through⟩ none
  · refine ⟨?_, ?_, ?_⟩
    · constructor
      · intro zero
        cases code.symm.trans zero
      · intro through
        exact absurd through none
    · intro outputs last through
      exact absurd ⟨outputs, last, through⟩ none
    · exact fun _ => ⟨code, silent⟩

/-- Puts its input out, once the halt is patched in. -/
def echoing : Files :=
  fun _ => .ok "3,5,4,5,0\n".toUTF8

theorem respond_run_echoing :
    ∃ response, respond 9 (fun _ => none) {} echoing
        ["run", "echo", "--input", "-7", "--patch", "4=99", "--dump"] = some response ∧
      response.exitCode = 0 ∧ ∃ line, response.output = unlines ["-7", line] ∧
        Program.parse line = .ok ⟨#[3, 5, 4, 5, 99, -7]⟩ := by
  have read : parse (fun _ => none)
      ["run", "echo", "--input", "-7", "--patch", "4=99", "--dump"] =
        .ok ⟨.info, none, true, .run "echo" [-7] [⟨4, 99⟩] true⟩ := by decide +kernel
  have readable : Files.readText echoing "echo" = .ok "3,5,4,5,0\n" := by decide +kernel
  have responded : (respond 9 (fun _ => none) {} echoing
      ["run", "echo", "--input", "-7", "--patch", "4=99", "--dump"]).isSome := by decide +kernel
  have parsed : Program.parse "3,5,4,5,0\n" = .ok ⟨#[3, 5, 4, 5, 0]⟩ := by decide +kernel
  have patched : Program.patched ⟨#[3, 5, 4, 5, 0]⟩ [⟨4, 99⟩] = .ok ⟨#[3, 5, 4, 5, 99]⟩ := by
    decide +kernel
  have ran : (((Machine.load ⟨#[3, 5, 4, 5, 99]⟩).feedAll [-7]).runToHalt 9).map
      (fun returned => (returned.1, returned.2.memory)) =
        some (.ok [-7], ⟨#[3, 5, 4, 5, 99, -7]⟩) := by decide +kernel
  obtain ⟨response, responds⟩ := Option.isSome_iff_exists.mp responded
  obtain ⟨⟨_, last⟩, ran, same⟩ := Option.map_eq_some_iff.mp ran
  obtain ⟨rfl, left⟩ := Prod.mk.inj same
  have through : RunsThrough "3,5,4,5,0\n" [⟨4, 99⟩] none [-7] [-7] last :=
    ⟨_, _, 9, parsed, patched, ran⟩
  obtain ⟨-, answers⟩ := respond_run read rfl readable
  obtain ⟨success, prints, -⟩ := answers 9 response responds
  obtain ⟨dumped, output, -, -, dump⟩ := prints [-7] last through
  obtain ⟨line, rfl, again⟩ := dump rfl
  refine ⟨response, responds, success.mpr ⟨_, _, through⟩, line, output, ?_⟩
  rw [again]
  exact congrArg (fun m => Except.ok (Program.ofMemory m)) left

end CommandLine

end Intcode
