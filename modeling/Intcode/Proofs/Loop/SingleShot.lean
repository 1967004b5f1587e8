import Intcode.Proofs.Chain.Composition
import Intcode.Proofs.Loop.Completion
import Intcode.Proofs.Ring.Agreement

/-!
# Programs of one shot

A program that puts out one value and then halts does not notice how its stages are joined. The loop
goes round twice: the first time it does what the linear pipeline does, the second time all stages
halt, the first one with an input too many. Since all of them halt in the loop, they do in the ring,
and both come to the signal of the linear pipeline.
-/

namespace Intcode

namespace Pipeline

/-- Each stage, fed its phase and the signal of the stage before, puts out the signal for the next
one. These machines are left. -/
inductive Passes (p : Pipeline) : Word → List Word → List Machine → Word → Prop where
  | done (signal : Word) : Passes p signal [] [] signal
  | stage {signal value final phase : Word} {phases : List Word} {m : Machine}
      {machines : List Machine} (runs : ((p.primed phase).feed signal).Runs (.ok (.output value)) m)
      (rest : Passes p value phases machines final) :
      Passes p signal (phase :: phases) (m :: machines) final

variable {p : Pipeline} {phases : List Word} {machines : List Machine} {signal final : Word}

theorem Composes.passes {stage : Nat} {visits : List Visit}
    (composes : p.Composes stage signal phases visits (.ok final)) :
    ∃ machines, p.Passes signal phases machines final := by
  generalize came : Except.ok final = result at composes
  induction composes with
  | done =>
    cases came
    exact ⟨[], .done _⟩
  | passed ran rest ih =>
    obtain ⟨machines, passes⟩ := ih came
    rw [← feed_primed] at ran
    exact ⟨_ :: machines, .stage ran passes⟩
  | broken => cases came

theorem passes_of_answers (answers : p.Answers .linear phases (.ok final)) :
    p.checkPhases phases = .ok () ∧ ∃ machines, p.Passes 0 phases machines final := by
  cases valid : p.checkPhases phases with
  | error e =>
    obtain ⟨fuel, trial, ran, ended⟩ := answers
    rw [run, runLinear, valid] at ran
    cases ran
    cases ended
  | ok =>
    obtain ⟨visits, composes⟩ := (answers_linear_iff valid).mp answers
    exact ⟨rfl, composes.passes⟩

theorem Passes.unique {others : List Machine} {other : Word}
    (one : p.Passes signal phases machines final) (two : p.Passes signal phases others other) :
    machines = others ∧ final = other := by
  induction one generalizing others with
  | done =>
    cases two
    exact ⟨rfl, rfl⟩
  | stage runs rest ih =>
    cases two with
    | stage again onward =>
      obtain ⟨same, rfl⟩ := runs.unique again
      cases same
      obtain ⟨rfl, rfl⟩ := ih onward
      exact ⟨rfl, rfl⟩

theorem Passes.length (passes : p.Passes signal phases machines final) :
    machines.length = phases.length := by
  induction passes with
  | done => rfl
  | stage _ _ ih => rw [List.length_cons, List.length_cons, ih]

end Pipeline

namespace Loop

variable {p : Pipeline} {phases : List Word} {machines : List Machine} {signal final : Word}
  {start l : Loop}

section Here

variable {m after : Machine} {before rest : List Machine} {outcome : Outcome}
  (here : l.machines = before ++ m :: rest) (stage : l.stage = before.length)
include here stage

theorem getElem?_of_here : l.machines[l.stage]? = some m := by
  rw [here, stage]
  simp

theorem stage_eq_last_iff : l.stage = l.last ↔ rest = [] := by
  rw [Loop.last, here, stage, ← List.length_eq_zero_iff]
  simp only [List.length_append, List.length_cons]
  omega

theorem machines_goOn_of_here :
    (l.goOn after outcome).machines = (before ++ [after]) ++ rest := by
  rw [machines_goOn, here, stage]
  simp

theorem stage_goOn_of_here (more : rest ≠ []) :
    (l.goOn after outcome).stage = (before ++ [after]).length := by
  have inside : l.stage < l.machines.length :=
    (List.getElem?_eq_some_iff.mp (getElem?_of_here here stage)).1
  have inner : l.stage ≠ l.last := fun final => more ((stage_eq_last_iff here stage).mp final)
  rw [stage_goOn inside, if_neg inner, stage]
  simp

end Here

/-- The first time round the loop does what the linear pipeline does. -/
theorem Goes.passes (goes : start.Goes l) (passes : p.Passes signal phases machines final)
    (some_stages : phases ≠ []) (before : List Machine)
    (here : l.machines = before ++ phases.map p.primed) (stage : l.stage = before.length)
    (fed : l.signal = some signal) :
    ∃ l', start.Goes l' ∧ l'.machines = before ++ machines ∧ l'.stage = 0 ∧
      l'.result = some final := by
  induction passes generalizing l before with
  | done => exact absurd rfl some_stages
  | @stage signal value final phase phases m machines runs rest ih =>
    have at_stage : l.machines[l.stage]? = some (p.primed phase) := getElem?_of_here here stage
    obtain ⟨fuel, ran⟩ := runs
    have visited : l.visit fuel = some (l.conclude m (.ok (.output value))) :=
      visit_of_run at_stage rfl (by rw [fed]; exact ran)
    rw [conclude_of_onward (by simp) (by simp)] at visited
    have left : (l.goOn m (.output value)).machines = (before ++ [m]) ++ phases.map p.primed :=
      machines_goOn_of_here here stage
    by_cases last : phases = []
    · subst last
      cases rest
      have final : l.stage = l.last := (stage_eq_last_iff here stage).mpr rfl
      have inside : l.stage < l.machines.length := (List.getElem?_eq_some_iff.mp at_stage).1
      refine ⟨_, goes.visit visited, by simpa using left, ?_, ?_⟩
      · rw [stage_goOn inside, if_pos final]
      · simp [goOn, turn, final, Machine.emitted]
    · have more : phases.map p.primed ≠ [] := by simpa using last
      obtain ⟨l', onward, all, first, result⟩ := ih (goes.visit visited) last (before ++ [m]) left
        (stage_goOn_of_here here stage more) rfl
      exact ⟨l', onward, by simpa using all, first, result⟩

/-- A loop in which all stages to come halt ends with its last one, whatever they are fed. -/
theorem returns_of_halting (halting : ∀ m ∈ machines, ∃ after, m.Runs (.ok .halted) after)
    (some_stages : machines ≠ []) (before : List Machine) (here : l.machines = before ++ machines)
    (stage : l.stage = before.length) :
    ∃ trial, l.Returns trial ∧ trial.result = l.result.elim (.error (.noOutput l.last)) .ok ∧
      (∀ v ∈ l.visits, v ∈ trial.visits) ∧
      ∀ k, before.length ≤ k → k < l.machines.length → trial.Halts k := by
  induction machines generalizing before l with
  | nil => exact absurd rfl some_stages
  | cons m machines ih =>
    obtain ⟨after, runs⟩ := halting m List.mem_cons_self
    -- an input that is left over does not change the run
    obtain ⟨fuel, ran⟩ := runs.feedAll (by simp) l.signal.toList
    have visited := visit_of_run (getElem?_of_here here stage) runs.live ran
    by_cases last : machines = []
    · subst last
      have final : l.stage = l.last := (stage_eq_last_iff here stage).mpr rfl
      rw [conclude_of_halted final, finish_eq, last_record] at visited
      refine ⟨_, ⟨fuel, 1, by simp only [runFor, visited]; rfl⟩, rfl, ?_, ?_⟩
      · intro v inside
        simp [trial, record, inside]
      · intro k low high
        rw [halts_trial, halts_record]
        simp only [here, List.length_append, List.length_singleton] at high
        exact .inr ⟨by omega, rfl⟩
    · have inner : l.stage ≠ l.last := fun final => last ((stage_eq_last_iff here stage).mp final)
      rw [conclude_of_onward (by simp) (fun final => absurd final inner)] at visited
      let halted := after.feedAll l.signal.toList
      have kept : (l.goOn halted .halted).result = l.result := by
        simp [goOn, turn, inner, record]
      have size : (l.goOn halted .halted).machines.length = l.machines.length := by simp
      have visits : (l.goOn halted .halted).visits =
          ⟨l.stage, l.signal, halted.suspension .halted⟩ :: l.visits := rfl
      have onward : ∀ m ∈ machines, ∃ after, m.Runs (.ok .halted) after :=
        fun m inside => halting m (List.mem_cons_of_mem _ inside)
      obtain ⟨trial, returns, result, seen, halts⟩ := ih onward last (before ++ [halted])
        (machines_goOn_of_here here stage) (stage_goOn_of_here here stage last)
      rw [kept, Loop.last, size] at result
      rw [visits] at seen
      refine ⟨trial, returns.of_going visited, result,
        fun v inside => seen v (List.mem_cons_of_mem _ inside), fun k low high => ?_⟩
      rcases Nat.eq_or_lt_of_le low with rfl | later
      · exact ⟨_, seen _ List.mem_cons_self, stage, by simp⟩
      · exact halts k (by rw [List.length_append]; exact later) (by rw [size]; exact high)

end Loop

namespace Pipeline

variable {p : Pipeline} {phases : List Word} {machines : List Machine} {signal : Word}

/-- Where the linear pipeline succeeds and its machines then halt, the loop ends with the same
signal and all stages halted. -/
theorem Passes.runFeedback (passes : p.Passes 0 phases machines signal)
    (valid : p.checkPhases phases = .ok ())
    (halting : ∀ m ∈ machines, ∃ after, m.Runs (.ok .halted) after) :
    ∃ fuel trial, p.runFeedback fuel phases = some trial ∧ trial.result = .ok signal ∧
      ∀ k < phases.length, trial.Halts k := by
  have some_stages := ne_nil_of_checkPhases valid
  obtain ⟨l, goes, left, first, result⟩ :=
    (Loop.Goes.here (l := p.loop phases)).passes passes some_stages [] rfl rfl rfl
  have some_machines : machines ≠ [] := by
    rw [← List.length_pos_iff, passes.length]
    exact List.length_pos_iff.mpr some_stages
  obtain ⟨trial, returns, ended, -, halts⟩ :=
    Loop.returns_of_halting halting some_machines [] left first
  obtain ⟨fuel, ran⟩ := runFeedback_of_returns valid (goes.returns returns)
  refine ⟨fuel, trial, ran, by rw [ended, result]; rfl, fun k inside => ?_⟩
  exact halts k (Nat.zero_le k) (by rw [left, List.nil_append, passes.length]; exact inside)

end Pipeline

namespace Ring

variable {r : Ring} {trial : Trial}

/-- A ring that matches a loop in which all stages halted has finished without a failure. -/
theorem Matches.results_of_halts (same : r.Matches trial) (halts : ∀ k < r.size, trial.Halts k) :
    ∃ results, r.results? = some results ∧ ∀ result ∈ results, ∃ last, result = .ok last := by
  refine ⟨r.stages.map fun s => .ok s.outputs.head?, ?_, by simp⟩
  rw [results?_eq_some_iff, List.map_map]
  refine List.map_congr_left fun s inside => ?_
  obtain ⟨k, here⟩ := List.mem_iff_getElem?.mp inside
  obtain ⟨_, there, finished⟩ := same.halted k (halts k (lt_size_of_getElem? here))
  cases here.symm.trans there
  exact Stage.result?_eq_some_iff.mpr finished

end Ring

namespace Pipeline

/-- The three ways to join the stages agree on programs of one shot: where the linear pipeline
succeeds and each of its machines would halt next, the loop returns the same signal, and so does the
ring, in every order of steps. -/
theorem single_shot_agrees (p : Pipeline) (phases : List Word) (signal : Word)
    (linear : p.Answers .linear phases (.ok signal))
    (once : ∀ machines, p.Passes 0 phases machines signal →
      ∀ m ∈ machines, ∃ after, m.Runs (.ok .halted) after) :
    p.Answers .feedback phases (.ok signal) ∧
    (∀ path : Nat → Ring, path 0 = p.ring phases →
      ¬ ∀ n, ∃ i, Ring.Step i (path n) (path (n + 1))) ∧
    (∀ order r, Ring.Steps order (p.ring phases) r → (∀ i t, ¬ Ring.Step i r t) →
      ∃ results, r.results? = some results ∧ Ring.collect results = .ok signal) ∧
    p.Answers .concurrent phases (.ok signal) := by
  obtain ⟨valid, machines, passes⟩ := passes_of_answers linear
  obtain ⟨fuel, trial, ran, ended, halts⟩ := passes.runFeedback valid (once machines passes)
  obtain ⟨early, r, steps, same⟩ := exists_matches valid ran
  have size : r.size = phases.length := by rw [steps.size]; simp [Ring.size, ring]
  obtain ⟨results, done, fine⟩ := same.results_of_halts (by rw [size]; exact halts)
  have collected : Ring.collect results = .ok signal :=
    Ring.collect_eq_ok_iff.mpr ⟨fine, same.last_of_signal (.done r) done ended⟩
  obtain ⟨finite, stopped, -, again, other, returned, result⟩ := schedules_agree valid steps done
  refine ⟨⟨fuel, trial, ran, ended⟩, finite, fun order t made still => ?_, ?_⟩
  · exact ⟨results, (stopped order t made).2 still, collected⟩
  · exact ⟨again, other, returned, result.trans collected⟩

/-- Runs the stages once, in order, and keeps their machines. -/
def passAll (fuel : Nat) (p : Pipeline) : Word → List Word → Option (List Machine × Word)
  | signal, [] => some ([], signal)
  | signal, phase :: phases =>
    match ((p.primed phase).feed signal).run fuel with
    | some (.ok (.output value), m) =>
      (passAll fuel p value phases).map fun (machines, final) => (m :: machines, final)
    | _ => none

theorem passes_of_passAll {fuel : Nat} {final : Word}
    (h : passAll fuel p signal phases = some (machines, final)) :
    p.Passes signal phases machines final := by
  induction phases generalizing signal machines with
  | nil =>
    cases h
    exact .done _
  | cons phase phases ih =>
    rw [passAll] at h
    split at h
    · next value m ran =>
      obtain ⟨⟨others, last⟩, rest, same⟩ := Option.map_eq_some_iff.mp h
      cases same
      exact .stage ⟨fuel, ran⟩ (ih rest)
    · cases h

/-- Puts out the sum of its phase and its signal. -/
def adding : Pipeline :=
  { program := ⟨#[3, 11, 3, 12, 1, 11, 12, 11, 4, 11, 99]⟩, stages := 2 }

theorem single_shot_agrees_adding :
    adding.Answers .linear [5, 6] (.ok 11) ∧
    (∀ machines, adding.Passes 0 [5, 6] machines 11 →
      ∀ m ∈ machines, ∃ after, m.Runs (.ok .halted) after) ∧
    adding.Answers .feedback [5, 6] (.ok 11) ∧ adding.Answers .concurrent [5, 6] (.ok 11) := by
  have linear : adding.Answers .linear [5, 6] (.ok 11) :=
    answers_of_run (show (adding.run 9 .linear [5, 6]).map Trial.result = some (.ok 11) by
      decide +kernel)
  have passed : (adding.passAll 9 0 [5, 6]).map (fun out =>
      out.1.all fun m => (m.run 9).map Prod.fst = some (.ok .halted)) = some true := by
    decide +kernel
  have once : ∀ machines, adding.Passes 0 [5, 6] machines 11 →
      ∀ m ∈ machines, ∃ after, m.Runs (.ok .halted) after := by
    intro machines passes m inside
    obtain ⟨⟨left, last⟩, made, all⟩ := Option.map_eq_some_iff.mp passed
    obtain ⟨rfl, -⟩ := passes.unique (passes_of_passAll made)
    have halts := of_decide_eq_true (List.all_eq_true.mp all m inside)
    obtain ⟨⟨result, after⟩, ran, rfl⟩ := Option.map_eq_some_iff.mp halts
    exact ⟨after, 9, ran⟩
  obtain ⟨feedback, -, -, concurrent⟩ := single_shot_agrees adding [5, 6] 11 linear once
  exact ⟨linear, once, feedback, concurrent⟩

end Pipeline

end Intcode
