import Intcode.Proofs.Loop.Visits
import Intcode.Proofs.Machine.Termination

/-!
# Termination of loops

A loop goes on and on over its stages, halted or not. It is the last stage that brings it to its
end: that stage has not halted while the loop goes, and each time round it spends a step. So with a
limit the loop goes round at most once more than the limit allows steps.
-/

namespace Intcode

namespace Loop

/-- With so many visits the loop comes to its end: as many rounds as the last stage has steps left,
and the rest of the round that it is in. -/
structure Bounded (l : Loop) (bound left : Nat) : Prop where
  turn : l.stage < l.machines.length
  limited : ∀ m ∈ l.machines, m.budget.limit = some bound
  ends : ∃ m, l.machines[l.last]? = some m ∧ m.isHalted = false ∧
    l.machines.length * (bound - m.steps) + (l.machines.length - l.stage) ≤ left

variable {l l' : Loop} {m after : Machine} {bound left fuel : Nat} {outcome : Outcome}

/-- A visit of another stage than the last one brings the loop nearer to the end of the round. -/
theorem Bounded.within (bounded : l.Bounded bound (left + 1)) (inner : l.stage ≠ l.last)
    (length : l'.machines.length = l.machines.length) (stage : l'.stage = l.stage + 1)
    (kept : l'.machines[l.last]? = l.machines[l.last]?)
    (limited : ∀ m ∈ l'.machines, m.budget.limit = some bound) : l'.Bounded bound left := by
  have turn := bounded.turn
  obtain ⟨m, there, live, enough⟩ := bounded.ends
  have same : l'.last = l.last := by rw [last, last, length]
  rw [last] at inner
  refine ⟨by omega, limited, m, by rw [same, kept, there], live, ?_⟩
  rw [length, stage]
  omega

/-- A visit of the last stage that does not end the loop spends a step. -/
theorem Bounded.round (bounded : l.Bounded bound (left + 1))
    (here : l.machines[l.stage]? = some m) (final : l.stage = l.last)
    (runs : (m.feedAll l.signal.toList).Runs (.ok outcome) after)
    (served : outcome ≠ .awaitingInput) (onward : outcome ≠ .halted)
    (limited : ∀ m ∈ (l.goOn after outcome).machines, m.budget.limit = some bound) :
    (l.goOn after outcome).Bounded bound left := by
  have turn := bounded.turn
  obtain ⟨_, there, live, enough⟩ := bounded.ends
  rw [← final, here] at there
  cases there
  have same : (m.feedAll l.signal.toList).budget.limit = some bound :=
    bounded.limited m (List.mem_of_getElem? here)
  obtain ⟨spent, low⟩ := runs.steps_lt same served
  have before : (m.feedAll l.signal.toList).steps = m.steps := rfl
  rw [before] at spent
  have awake : after.isHalted = false := by
    cases outcome with
    | output value => simp [Machine.isHalted, runs.status, Machine.statusAfter]
    | awaitingInput => exact absurd rfl served
    | halted => exact absurd rfl onward
  have size : (l.goOn after outcome).machines.length = l.machines.length := by simp
  have first : (l.goOn after outcome).stage = 0 := by rw [stage_goOn turn, if_pos final]
  refine ⟨by omega, limited, after, ?_, awake, ?_⟩
  · rw [last, size, ← last, ← final, machines_goOn]
    exact List.getElem?_set_self turn
  · -- a step less is a whole round less
    have rounds : l.machines.length * (bound - after.steps) + l.machines.length ≤
        l.machines.length * (bound - m.steps) := by
      rw [← Nat.mul_succ]
      exact Nat.mul_le_mul_left _ (by omega)
    rw [size, first]
    rw [last] at final
    omega

/-- Each visit uses up one of those left. -/
theorem Bounded.visit (bounded : l.Bounded bound (left + 1))
    (h : l.visit fuel = some (.going l')) : l'.Bounded bound left := by
  have turn := bounded.turn
  have here := List.getElem?_eq_getElem turn
  rcases visit_cases here h with ⟨halted, same⟩ | ⟨live, result, after, runs, same⟩
  · cases same
    have inner : l.stage ≠ l.last := by
      intro final
      obtain ⟨m, there, live, -⟩ := bounded.ends
      rw [← final, here] at there
      cases there
      rw [live] at halted
      cases halted
    exact bounded.within inner rfl (by rw [stage_turn turn, if_neg inner]) rfl bounded.limited
  · obtain ⟨outcome, rfl, served, onward, rfl⟩ := conclude_going same.symm
    have limited : ∀ m ∈ (l.goOn after outcome).machines, m.budget.limit = some bound := by
      intro m inside
      rcases List.mem_or_eq_of_mem_set inside with before | rfl
      · exact bounded.limited m before
      · exact runs.limit.trans (bounded.limited l.machines[l.stage] (List.getElem_mem turn))
    by_cases final : l.stage = l.last
    · exact bounded.round here final runs served (onward final) limited
    · refine bounded.within final (by simp) (by rw [stage_goOn turn, if_neg final]) ?_ limited
      rw [machines_goOn]
      exact List.getElem?_set_ne final

theorem visit_returns (limited : ∀ m ∈ l.machines, m.budget.limit = some bound)
    (enough : bound < fuel) : ∃ progress, l.visit fuel = some progress := by
  rw [visit]
  cases here : l.machines[l.stage]? with
  | none => exact ⟨_, rfl⟩
  | some m =>
    simp only
    split
    · exact ⟨_, rfl⟩
    · have same : (m.feedAll l.signal.toList).budget.limit = some bound :=
        limited m (List.mem_of_getElem? here)
      obtain ⟨e | outcome, after, ran⟩ := Machine.run_returns same enough
      · rw [ran]
        exact ⟨_, rfl⟩
      · rw [ran]
        exact ⟨_, rfl⟩

theorem Bounded.runFor (bounded : l.Bounded bound left) (enough : bound < fuel) :
    ∃ trial, l.runFor fuel left = some trial := by
  induction left generalizing l with
  | zero =>
    obtain ⟨m, -, -, none⟩ := bounded.ends
    have turn := bounded.turn
    omega
  | succ left ih =>
    obtain ⟨l' | trial, visited⟩ := visit_returns bounded.limited enough
    · obtain ⟨trial, ran⟩ := ih (bounded.visit visited)
      exact ⟨trial, by simp only [Loop.runFor, visited, ran]⟩
    · exact ⟨trial, by simp only [Loop.runFor, visited]⟩

/-- The visits made so far, in order. -/
def Progress.visits : Progress → List Visit
  | .going l => l.visits.reverse
  | .ended trial => trial.visits

theorem length_visits_conclude (l : Loop) (m : Machine) (result : Except MachineError Outcome) :
    (l.conclude m result).visits.length ≤ l.visits.length + 1 := by
  cases result with
  | error e => simp [conclude, Progress.visits, trial]
  | ok outcome =>
    rw [conclude]
    cases outcome with
    | output value =>
      rw [settle]
      split <;> simp [Progress.visits, turn, record]
    | awaitingInput => simp [settle, Progress.visits, trial, record]
    | halted =>
      rw [settle]
      split <;> simp [Progress.visits, turn, record, finish_eq, trial]

/-- A visit of a stage that has halted leaves no trace. -/
theorem length_visits_visit {progress : Progress} (h : l.visit fuel = some progress) :
    progress.visits.length ≤ l.visits.length + 1 := by
  cases here : l.machines[l.stage]? with
  | none =>
    rw [visit, here] at h
    cases h
    simp [Progress.visits, finish_eq, trial]
  | some m =>
    rcases visit_cases here h with ⟨halted, rfl⟩ | ⟨live, result, after, runs, rfl⟩
    · simp [Progress.visits, turn]
    · exact length_visits_conclude l after result

theorem length_visits_runFor {visits : Nat} {trial : Trial}
    (h : l.runFor fuel visits = some trial) :
    trial.visits.length ≤ l.visits.length + visits := by
  induction visits generalizing l with
  | zero => cases h
  | succ visits ih =>
    simp only [Loop.runFor] at h
    split at h
    · cases h
    · next ended visited =>
      cases h
      have made : trial.visits.length ≤ l.visits.length + 1 := length_visits_visit visited
      omega
    · next l' visited =>
      have made := length_visits_visit visited
      have later := ih h
      rw [Progress.visits, List.length_reverse] at made
      omega

end Loop

namespace Pipeline

variable {p : Pipeline} {phases : List Word} {bound fuel : Nat}

theorem loop_bounded (limited : p.limit = some bound) (some_stages : phases ≠ []) :
    (p.loop phases).Bounded bound (phases.length * (bound + 1)) := by
  have size : (p.loop phases).machines.length = phases.length := by simp [loop]
  have positive : 0 < phases.length := List.length_pos_iff.mpr some_stages
  refine ⟨by rw [size]; exact positive, ?_, p.primed (phases.getLast some_stages), ?_, rfl, ?_⟩
  · intro m inside
    obtain ⟨phase, -, rfl⟩ := List.mem_map.mp inside
    exact limited
  · rw [Loop.last, size]
    simp [loop, ← List.getLast?_eq_getElem?, List.getLast?_eq_some_getLast some_stages]
  · rw [size, Nat.mul_succ]
    exact Nat.le_refl _

end Pipeline

end Intcode
