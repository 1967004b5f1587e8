import Intcode.Proofs.Machine.Attempts

/-!
# Steps and runs

A machine is called for one instruction, or for a run to its next suspension. Steps are the parts of
runs: repeated until something comes of one, they give what a run gives, and a run to the halt is
made of the one as well as of the other. However steps and runs are mixed, what comes of them is
what comes of runs alone, once the steps that only moved on are left out.
-/

namespace Intcode

namespace Machine

/-- How far a call takes a machine: over one instruction or to its next suspension. -/
inductive Pace where
  | step
  | run
deriving DecidableEq, Repr

/-- A call at this pace gives a result and leaves the machine so. The result is nothing for a step
that only moved on, and never for a run. -/
def Gives (m : Machine) : Pace → Result → Machine → Prop
  | .step, result, after => m.step = (result, after)
  | .run, result, after => ∃ ending, m.Runs ending after ∧ result = ending.map some

/-- Called at these paces one after the other, the machine gives these results, each with the
machine right after it. -/
inductive Driven : Machine → List Pace → List (Result × Machine) → Prop where
  | done (m : Machine) : Driven m [] []
  | call {m mid : Machine} {pace : Pace} {paces : List Pace} {result : Result}
      {later : List (Result × Machine)} (gives : m.Gives pace result mid)
      (rest : Driven mid paces later) : Driven m (pace :: paces) ((result, mid) :: later)

/-- Called at one pace as often as there are entries. -/
def DrivenAt (m : Machine) (pace : Pace) (entries : List (Result × Machine)) : Prop :=
  m.Driven (List.replicate entries.length pace) entries

/-- The results that are more than having moved on. -/
def outcomes (entries : List (Result × Machine)) : List (Result × Machine) :=
  entries.filter fun entry => entry.1 ≠ .ok none

/-- The outputs among some results. -/
def outputsOf (entries : List (Result × Machine)) : List Word :=
  entries.filterMap fun entry =>
    match entry.1 with
    | .ok (some (.output value)) => some value
    | _ => none

variable {m mid after : Machine} {pace : Pace} {paces : List Pace} {result : Result}
  {ending : Except MachineError Outcome} {entries later : List (Result × Machine)}

/-! ## One call -/

theorem live_of_step (moved : m.step = (.ok none, mid)) : m.isHalted = false := by
  cases halted : m.isHalted with
  | true =>
    rw [step_of_isHalted halted] at moved
    cases moved
  | false => rfl

/-- A run goes on where its first instruction only moved on. -/
theorem run_succ_of_step (moved : m.step = (.ok none, mid)) (fuel : Nat) :
    m.run (fuel + 1) = mid.run fuel := by
  have live := live_of_step moved
  rw [step_of_live live] at moved
  have running : mid.status = .running := execute_status moved
  rw [run_eq_runFrom live, run_eq_runFrom (live_of_running running), ← resumed, ← resumed,
    resumed_of_running running, runFrom, moved]

theorem runs_iff_of_step (moved : m.step = (.ok none, mid)) :
    m.Runs ending after ↔ mid.Runs ending after := by
  constructor
  · rintro ⟨fuel, ran⟩
    exact ⟨fuel, by rw [← run_succ_of_step moved]; exact run_mono (Nat.le_succ fuel) ran⟩
  · rintro ⟨fuel, ran⟩
    exact ⟨fuel + 1, by rw [run_succ_of_step moved]; exact ran⟩

/-- A step that more comes of is a run. -/
theorem runs_of_step (stopped : m.step = (ending.map some, after)) : m.Runs ending after := by
  cases halted : m.isHalted with
  | true =>
    rw [step_of_isHalted halted] at stopped
    cases ending with
    | error e =>
      cases stopped
      exact runs_of_isHalted halted
    | ok outcome => cases stopped
  | false =>
    rw [step_of_live halted] at stopped
    exact (runs_iff_reaches halted).mpr ⟨[], m.resumed, .here _, stopped⟩

theorem exists_ending (telling : result ≠ .ok none) :
    ∃ ending : Except MachineError Outcome, result = ending.map some := by
  rcases result with e | _ | outcome
  · exact ⟨.error e, rfl⟩
  · exact absurd rfl telling
  · exact ⟨.ok outcome, rfl⟩

theorem map_some_inj {other : Except MachineError Outcome}
    (same : ending.map some = other.map some) : ending = other := by
  cases ending <;> cases other <;> cases same <;> rfl

/-- Whatever the pace, the result that a call gives is that of a run. -/
theorem Gives.runs (gives : m.Gives pace (ending.map some) after) : m.Runs ending after := by
  cases pace with
  | step => exact runs_of_step gives
  | run =>
    obtain ⟨other, runs, same⟩ := gives
    rwa [map_some_inj same]

theorem Gives.moved (gives : m.Gives pace (.ok none) mid) : m.step = (.ok none, mid) := by
  cases pace with
  | step => exact gives
  | run =>
    obtain ⟨ending, -, same⟩ := gives
    cases ending <;> cases same

/-! ## Calls one after the other -/

theorem Driven.append (first : m.Driven paces (entries ++ [(result, mid)])) {more : List Pace}
    (second : mid.Driven more later) :
    m.Driven (paces ++ more) (entries ++ [(result, mid)] ++ later) := by
  induction entries generalizing m paces with
  | nil =>
    cases first with
    | call gives rest =>
      cases rest
      exact .call gives second
  | cons entry entries ih =>
    cases first with
    | call gives rest => exact .call gives (ih rest)

theorem drivenAt_cons_iff :
    m.DrivenAt pace ((result, mid) :: later) ↔
      m.Gives pace result mid ∧ mid.DrivenAt pace later := by
  constructor
  · intro driven
    cases driven with
    | call gives rest => exact ⟨gives, rest⟩
  · rintro ⟨gives, rest⟩
    exact .call gives rest

theorem DrivenAt.append (first : m.DrivenAt pace (entries ++ [(result, mid)]))
    (second : mid.DrivenAt pace later) :
    m.DrivenAt pace (entries ++ [(result, mid)] ++ later) := by
  rw [DrivenAt, List.length_append, ← List.replicate_append_replicate]
  exact Driven.append first second

/-- At either pace a machine comes to the end of its run, after steps that only move on. -/
theorem Runs.driven (pace : Pace) (runs : m.Runs ending after) :
    ∃ moves, m.DrivenAt pace (moves ++ [(ending.map some, after)]) ∧
      ∀ entry ∈ moves, entry.1 = .ok none := by
  cases pace with
  | run => exact ⟨[], .call ⟨ending, runs, rfl⟩ (.done after), List.forall_mem_nil _⟩
  | step =>
    obtain ⟨fuel, ran⟩ := runs
    induction fuel generalizing m with
    | zero =>
      -- without fuel only a machine that has halted returns
      cases halted : m.isHalted with
      | true =>
        rw [run_of_isHalted halted] at ran
        cases ran
        exact ⟨[], .call (step_of_isHalted halted) (.done _), List.forall_mem_nil _⟩
      | false =>
        rw [run_eq_runFrom halted] at ran
        cases ran
    | succ fuel ih =>
      rcases stepped : m.step with ⟨result, mid⟩
      by_cases moved : result = .ok none
      · subst moved
        rw [run_succ_of_step stepped] at ran
        obtain ⟨moves, driven, plain⟩ := ih ran
        exact ⟨(.ok none, mid) :: moves, drivenAt_cons_iff.mpr ⟨stepped, driven⟩,
          List.forall_mem_cons.mpr ⟨rfl, plain⟩⟩
      · obtain ⟨other, rfl⟩ := exists_ending moved
        obtain ⟨rfl, rfl⟩ := (runs_of_step stepped).unique ⟨fuel + 1, ran⟩
        exact ⟨[], .call stepped (.done _), List.forall_mem_nil _⟩

theorem Driven.runs {moves : List (Result × Machine)}
    (driven : m.Driven paces (moves ++ [(ending.map some, after)]))
    (plain : ∀ entry ∈ moves, entry.1 = .ok none) : m.Runs ending after := by
  induction moves generalizing m paces with
  | nil =>
    cases driven with
    | call gives rest => exact gives.runs
  | cons entry moves ih =>
    obtain ⟨first, others⟩ := List.forall_mem_cons.mp plain
    cases driven with
    | call gives rest =>
      cases first
      exact (runs_iff_of_step gives.moved).mpr (ih rest others)

/-! ## Runs to the halt -/

section Halt

variable {outputs : List Word} {last : Result} {final : Except MachineError Unit}
  {before : List (Result × Machine)}

theorem goesOn_of_plain (plain : ∀ entry ∈ entries, entry.1 = .ok none) :
    ∀ entry ∈ entries, GoesOn entry.1 :=
  fun entry inside => .inl (plain entry inside)

theorem outputsOf_of_plain (plain : ∀ entry ∈ entries, entry.1 = .ok none) :
    outputsOf entries = [] := by
  rw [outputsOf, List.filterMap_eq_nil_iff]
  intro entry inside
  rw [plain entry inside]

/-- At either pace a machine comes to the end of its run to the halt. -/
theorem Follows.driven (pace : Pace) (follows : Follows m outputs final after) :
    ∃ before last, m.DrivenAt pace (before ++ [(last, after)]) ∧
      (∀ entry ∈ before, GoesOn entry.1) ∧ Ends last after final ∧ outputs = outputsOf before := by
  induction follows with
  | failed runs =>
    obtain ⟨moves, driven, plain⟩ := runs.driven pace
    exact ⟨moves, _, driven, goesOn_of_plain plain, .failed, (outputsOf_of_plain plain).symm⟩
  | starved runs =>
    obtain ⟨moves, driven, plain⟩ := runs.driven pace
    exact ⟨moves, _, driven, goesOn_of_plain plain, .starved, (outputsOf_of_plain plain).symm⟩
  | halted runs =>
    obtain ⟨moves, driven, plain⟩ := runs.driven pace
    exact ⟨moves, _, driven, goesOn_of_plain plain, .halted, (outputsOf_of_plain plain).symm⟩
  | @output m mid after value outputs final runs rest ih =>
    obtain ⟨moves, driven, plain⟩ := runs.driven pace
    obtain ⟨before, last, onward, goes, ends, same⟩ := ih
    have puts : ∀ entry ∈ [((.ok (some (.output value)), mid) : Result × Machine)],
        GoesOn entry.1 := List.forall_mem_singleton.mpr (.inr ⟨value, rfl⟩)
    refine ⟨moves ++ [(.ok (some (.output value)), mid)] ++ before, last, ?_, ?_, ends, ?_⟩
    · rw [List.append_assoc _ before]
      exact driven.append onward
    · exact List.forall_mem_append.mpr
        ⟨List.forall_mem_append.mpr ⟨goesOn_of_plain plain, puts⟩, goes⟩
    · rw [outputsOf, List.filterMap_append, List.filterMap_append, ← outputsOf, ← outputsOf,
        outputsOf_of_plain plain, same]
      rfl

theorem Follows.of_step (moved : m.step = (.ok none, mid))
    (follows : Follows mid outputs final after) : Follows m outputs final after := by
  have live := live_of_step moved
  rw [step_of_live live] at moved
  exact (Follows.cons rfl moved follows).of_resumed live

theorem Driven.follows (driven : m.Driven paces (before ++ [(last, after)]))
    (goes : ∀ entry ∈ before, GoesOn entry.1) (ends : Ends last after final) :
    Follows m (outputsOf before) final after := by
  induction before generalizing m paces with
  | nil =>
    cases driven with
    | call gives rest =>
      cases ends with
      | @failed e =>
        have runs : m.Runs (.error e) after := gives.runs
        exact .failed runs
      | starved =>
        have runs : m.Runs (.ok .awaitingInput) after := gives.runs
        exact .starved runs
      | halted =>
        have runs : m.Runs (.ok .halted) after := gives.runs
        exact .halted runs
  | cons entry before ih =>
    obtain ⟨first, others⟩ := List.forall_mem_cons.mp goes
    cases driven with
    | call gives rest =>
      have onward := ih rest others
      rcases first with plain | ⟨value, puts⟩
      · cases plain
        exact onward.of_step gives.moved
      · cases puts
        have runs : m.Runs (.ok (.output value)) _ := gives.runs
        exact .output runs onward

end Halt

/-! ## Steps and runs in any order -/

/-- To runs it makes no difference whether a step that only moves on has been taken. -/
theorem drivenAt_run_iff_of_step (moved : m.step = (.ok none, mid)) :
    m.DrivenAt .run entries ↔ mid.DrivenAt .run entries := by
  cases entries with
  | nil => exact ⟨fun _ => .done mid, fun _ => .done m⟩
  | cons entry entries =>
    rw [drivenAt_cons_iff, drivenAt_cons_iff]
    simp only [Gives, runs_iff_of_step moved]

/-- Runs alone give what comes of steps and runs in any order. -/
theorem Driven.outcomes (driven : m.Driven paces entries) :
    m.DrivenAt .run (outcomes entries) := by
  induction driven with
  | done m => exact .done m
  | @call m mid pace paces result later gives rest ih =>
    by_cases moved : result = .ok none
    · subst moved
      exact (drivenAt_run_iff_of_step gives.moved).mpr ih
    · rw [Machine.outcomes, List.filter_cons_of_pos (by simpa using moved)]
      obtain ⟨ending, rfl⟩ := exists_ending moved
      exact drivenAt_cons_iff.mpr ⟨⟨ending, gives.runs, rfl⟩, ih⟩

/-- As long as runs return, so do steps and runs in any order. -/
theorem DrivenAt.exists_driven (driven : m.DrivenAt .run entries)
    (short : paces.length ≤ entries.length) : ∃ others, m.Driven paces others := by
  induction paces generalizing m entries with
  | nil => exact ⟨[], .done m⟩
  | cons pace paces ih =>
    cases entries with
    | nil => simp at short
    | cons entry entries =>
      have fewer : paces.length ≤ entries.length := by simpa using short
      obtain ⟨gives, rest⟩ := drivenAt_cons_iff.mp driven
      cases pace with
      | run =>
        obtain ⟨others, onward⟩ := ih rest fewer
        exact ⟨_, .call gives onward⟩
      | step =>
        rcases stepped : m.step with ⟨result, left⟩
        by_cases moved : result = .ok none
        · subst moved
          obtain ⟨others, onward⟩ :=
            ih ((drivenAt_run_iff_of_step stepped).mp driven) (Nat.le_succ_of_le fewer)
          exact ⟨_, .call stepped onward⟩
        · obtain ⟨other, rfl⟩ := exists_ending moved
          obtain ⟨ending, runs, -⟩ := gives
          obtain ⟨-, rfl⟩ := (runs_of_step stepped).unique runs
          obtain ⟨others, onward⟩ := ih rest fewer
          exact ⟨_, .call stepped onward⟩

/-- Makes calls at these paces one after the other. -/
def drive (fuel : Nat) : List Pace → Machine → Option (List (Result × Machine))
  | [], _ => some []
  | .step :: paces, m => (drive fuel paces m.step.2).map (m.step :: ·)
  | .run :: paces, m =>
    match m.run fuel with
    | none => none
    | some (ending, mid) => (drive fuel paces mid).map ((ending.map some, mid) :: ·)

theorem driven_of_drive {fuel : Nat} (drove : drive fuel paces m = some entries) :
    m.Driven paces entries := by
  induction paces generalizing m entries with
  | nil =>
    cases drove
    exact .done m
  | cons pace paces ih =>
    cases pace with
    | step =>
      obtain ⟨later, onward, rfl⟩ := Option.map_eq_some_iff.mp drove
      exact .call rfl (ih onward)
    | run =>
      simp only [drive] at drove
      split at drove
      · cases drove
      · next ending mid ran =>
        obtain ⟨later, onward, rfl⟩ := Option.map_eq_some_iff.mp drove
        exact .call ⟨ending, ⟨fuel, ran⟩, rfl⟩ (ih onward)

/-- Steps and runs agree. A run is the steps up to the first that more comes of than moving on; a
run to the halt collects the outputs of runs, and of steps, until one halts, starves or fails; and
whichever calls are made, what comes of them is what comes of runs alone. -/
theorem paces_agree (m : Machine) :
    (∀ ending after, m.Runs ending after ↔
      ∃ moves, m.DrivenAt .step (moves ++ [(ending.map some, after)]) ∧
        ∀ entry ∈ moves, entry.1 = .ok none) ∧
    (∀ pace result after, (∃ fuel, m.runToHalt fuel = some (result, after)) ↔
      ∃ before last final, m.DrivenAt pace (before ++ [(last, after)]) ∧
        (∀ entry ∈ before, GoesOn entry.1) ∧ Ends last after final ∧
        result = final.map fun _ => outputsOf before) ∧
    (∀ paces entries, m.Driven paces entries → m.DrivenAt .run (outcomes entries)) ∧
    ∀ runs, m.DrivenAt .run runs → ∀ paces, paces.length ≤ runs.length →
      ∃ entries, m.Driven paces entries := by
  refine ⟨?_, ?_, ?_, ?_⟩
  · intro ending after
    constructor
    · intro runs
      exact runs.driven .step
    · rintro ⟨moves, driven, plain⟩
      exact Driven.runs driven plain
  · intro pace result after
    rw [runToHalt_iff_follows]
    constructor
    · rintro ⟨outputs, final, follows, rfl⟩
      obtain ⟨before, last, driven, goes, ends, rfl⟩ := follows.driven pace
      exact ⟨before, last, final, driven, goes, ends, rfl⟩
    · rintro ⟨before, last, final, driven, goes, ends, rfl⟩
      exact ⟨outputsOf before, final, Driven.follows driven goes ends, rfl⟩
  · intro paces entries driven
    exact driven.outcomes
  · intro runs driven paces short
    exact driven.exists_driven short

/-- Stores a sum behind its end, puts it out, then another value, and halts. -/
def summing : Machine :=
  load ⟨#[1101, 3, 4, 11, 4, 11, 104, 8, 99]⟩

theorem paces_agree_summing :
    ∃ entries,
      summing.Driven [.step, .run, .step, .run] entries ∧
      entries.map Prod.fst = [.ok none, .ok (some (.output 7)), .ok (some (.output 8)),
        .ok (some .halted)] ∧
      summing.DrivenAt .run (outcomes entries) ∧
      (∃ others, summing.Driven [.run, .step, .step] others) ∧
      ∃ fuel after, summing.runToHalt fuel = some (.ok [7, 8], after) := by
  have drove : (drive 3 [.step, .run, .step, .run] summing).map (List.map Prod.fst) =
      some [.ok none, .ok (some (.output 7)), .ok (some (.output 8)), .ok (some .halted)] := by
    decide +kernel
  obtain ⟨entries, drove, results⟩ := Option.map_eq_some_iff.mp drove
  have driven := driven_of_drive drove
  obtain ⟨-, halts, mixed, returns⟩ := paces_agree summing
  have runs := mixed _ _ driven
  refine ⟨entries, driven, results, runs, ?_⟩
  simp only [List.map_eq_cons_iff, List.map_eq_nil_iff] at results
  obtain ⟨⟨_, _⟩, _, rfl, rfl, ⟨_, one⟩, _, rfl, rfl, ⟨_, two⟩, _, rfl, rfl, ⟨_, last⟩, _, rfl, rfl,
    rfl⟩ := results
  refine ⟨returns _ runs _ (Nat.le_refl 3), ?_⟩
  have goes : ∀ entry ∈ [((.ok (some (.output 7)), one) : Result × Machine),
      (.ok (some (.output 8)), two)], GoesOn entry.1 := by
    simp [GoesOn]
  obtain ⟨fuel, halted⟩ :=
    (halts .run (.ok [7, 8]) last).mpr ⟨_, _, .ok (), runs, goes, .halted, rfl⟩
  exact ⟨fuel, last, halted⟩

end Machine

end Intcode
