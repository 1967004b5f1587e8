import Intcode.Pipeline.Search
import Intcode.Proofs.Machine.Runs
import Intcode.Proofs.Ring.Schedules

/-!
# Answers of a pipeline

A trial that ends answers with its result. From some fuel on the result is always the same, however
the stages are driven, so a pipeline has at most one answer to the phases it is given.
-/

namespace Intcode

namespace Pipeline

theorem chainFrom_mono {fuel more : Nat} (enough : fuel ≤ more) {p : Pipeline} {stage : Nat}
    {signal : Word} {phases : List Word} {visits : List Visit} {trial : Trial}
    (h : chainFrom fuel p stage signal phases visits = some trial) :
    chainFrom more p stage signal phases visits = some trial := by
  induction phases generalizing stage signal visits with
  | nil => exact h
  | cons phase phases ih =>
    rw [chainFrom] at h ⊢
    cases ran : ((p.primed phase).feed signal).run fuel with
    | none =>
      rw [ran] at h
      cases h
    | some out =>
      rw [Machine.run_mono enough ran]
      rw [ran] at h
      obtain ⟨e | outcome, m⟩ := out
      · exact h
      · cases outcome with
        | output value => exact ih h
        | halted | awaitingInput => exact h

theorem runLinear_mono {fuel more : Nat} (enough : fuel ≤ more) {p : Pipeline}
    {phases : List Word} {trial : Trial} (h : p.runLinear fuel phases = some trial) :
    p.runLinear more phases = some trial := by
  rw [runLinear] at h ⊢
  cases checked : p.checkPhases phases with
  | error e =>
    rw [checked] at h
    exact h
  | ok valid =>
    rw [checked] at h
    exact chainFrom_mono enough h

end Pipeline

namespace Loop

theorem visit_mono {fuel more : Nat} (enough : fuel ≤ more) {l : Loop} {progress : Progress}
    (h : l.visit fuel = some progress) : l.visit more = some progress := by
  rw [visit] at h ⊢
  cases here : l.machines[l.stage]? with
  | none =>
    rw [here] at h
    exact h
  | some m =>
    simp only [here] at h ⊢
    split at h
    · next halted => rw [if_pos halted, h]
    · next live =>
      rw [if_neg live]
      cases ran : (m.feedAll l.signal.toList).run fuel with
      | none =>
        rw [ran] at h
        cases h
      | some out =>
        rw [Machine.run_mono enough ran]
        rw [ran] at h
        exact h

theorem runFor_mono {fuel more : Nat} (enough : fuel ≤ more) {visits others : Nat}
    (longer : visits ≤ others) {l : Loop} {trial : Trial}
    (h : l.runFor fuel visits = some trial) : l.runFor more others = some trial := by
  induction visits generalizing others l with
  | zero => cases h
  | succ visits ih =>
    obtain ⟨others, rfl⟩ : ∃ rest, others = rest + 1 := ⟨others - 1, by omega⟩
    rw [runFor] at h ⊢
    cases visited : l.visit fuel with
    | none =>
      rw [visited] at h
      cases h
    | some progress =>
      rw [visit_mono enough visited]
      rw [visited] at h
      cases progress with
      | ended trial => exact h
      | going l => exact ih (by omega) h

end Loop

namespace Pipeline

theorem runFeedback_mono {fuel more : Nat} (enough : fuel ≤ more) {p : Pipeline}
    {phases : List Word} {trial : Trial} (h : p.runFeedback fuel phases = some trial) :
    p.runFeedback more phases = some trial := by
  rw [runFeedback] at h ⊢
  cases checked : p.checkPhases phases with
  | error e =>
    rw [checked] at h
    exact h
  | ok valid =>
    rw [checked] at h
    exact Loop.runFor_mono enough enough h

/-- A run with these phases comes to an end, and to this result. -/
def Answers (p : Pipeline) (drive : Drive) (phases : List Word)
    (result : Except PipelineError Word) : Prop :=
  ∃ fuel trial, p.run fuel drive phases = some trial ∧ trial.result = result

variable {p : Pipeline} {drive : Drive} {phases : List Word}

theorem answers_of_run {fuel : Nat} {result : Except PipelineError Word}
    (ran : (p.run fuel drive phases).map Trial.result = some result) :
    p.Answers drive phases result :=
  ⟨fuel, Option.map_eq_some_iff.mp ran⟩

/-- Driven concurrently, a pipeline answers with what any order of steps comes to. -/
theorem answers_concurrent_iff {result : Except PipelineError Word} :
    p.Answers .concurrent phases result ↔ ∃ results, p.Concludes phases results result := by
  constructor
  · rintro ⟨fuel, trial, ran, rfl⟩
    exact concludes_of_runConcurrent ran
  · rintro ⟨results, concludes⟩
    exact runConcurrent_of_concludes concludes

theorem Answers.returns {result : Except PipelineError Word}
    (answers : p.Answers drive phases result) :
    ∃ least, ∀ fuel, least ≤ fuel →
      ∃ trial, p.run fuel drive phases = some trial ∧ trial.result = result := by
  obtain ⟨least, trial, ran, same⟩ := answers
  cases drive with
  | linear => exact ⟨least, fun fuel high => ⟨trial, runLinear_mono high ran, same⟩⟩
  | feedback => exact ⟨least, fun fuel high => ⟨trial, runFeedback_mono high ran, same⟩⟩
  | concurrent =>
    obtain ⟨results, concludes⟩ := answers_concurrent_iff.mp ⟨least, trial, ran, same⟩
    exact runConcurrent_returns concludes

theorem Answers.unique {result other : Except PipelineError Word}
    (one : p.Answers drive phases result) (two : p.Answers drive phases other) :
    result = other := by
  obtain ⟨least, returns⟩ := one.returns
  obtain ⟨enough, comes⟩ := two.returns
  obtain ⟨trial, ran, rfl⟩ := returns (max least enough) (Nat.le_max_left _ _)
  obtain ⟨again, same, rfl⟩ := comes (max least enough) (Nat.le_max_right _ _)
  cases ran.symm.trans same
  rfl

end Pipeline

end Intcode
