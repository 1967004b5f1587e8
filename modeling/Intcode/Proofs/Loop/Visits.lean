import Intcode.Pipeline.Loop
import Intcode.Proofs.Machine.Runs

/-!
# Visits of a loop

A visit passes over a stage that has halted. Otherwise it feeds the machine of the stage what is on
its way to it, runs the machine and goes by what has come of the run. The visits of a trial tell
what each stage put out and whether it halted.
-/

namespace Intcode

/-- The output of a stage in a visit. -/
def Visit.output? (i : Nat) (v : Visit) : Option Word :=
  if v.stage = i then Machine.emitted (.ok v.suspension.outcome) else none

namespace Trial

/-- The outputs of a stage in order. -/
def outputs (t : Trial) (i : Nat) : List Word :=
  t.visits.filterMap (Visit.output? i)

/-- The stage halted in one of its visits. -/
def Halts (t : Trial) (i : Nat) : Prop :=
  ∃ v ∈ t.visits, v.stage = i ∧ v.suspension.outcome = .halted

end Trial

namespace Loop

/-- The outputs of a stage so far, the latest first. -/
def outputs (l : Loop) (i : Nat) : List Word :=
  l.visits.filterMap (Visit.output? i)

/-- What is on its way to a stage. -/
def incoming (l : Loop) (i : Nat) : Option Word :=
  if i = l.stage then l.signal else none

/-- Takes note of a visit. -/
def record (l : Loop) (m : Machine) (outcome : Outcome) : Loop :=
  { l with
    machines := l.machines.set l.stage m
    visits := ⟨l.stage, l.signal, m.suspension outcome⟩ :: l.visits }

/-- Goes by the run of the machine visited. -/
def conclude (l : Loop) (m : Machine) : Except MachineError Outcome → Progress
  | .error e => .ended (l.trial (.error (.machine l.stage e)))
  | .ok outcome => (l.record m outcome).settle outcome

/-- Goes on after a run that ended with an output or a halt. -/
def goOn (l : Loop) (m : Machine) (outcome : Outcome) : Loop :=
  let signal := Machine.emitted (.ok outcome)
  { l.record m outcome with
    result := if l.stage = l.last then signal.or l.result else l.result }.turn signal

@[simp] theorem outputs_trial (l : Loop) (result : Except PipelineError Word) (i : Nat) :
    (l.trial result).outputs i = (l.outputs i).reverse := by
  simp only [trial, Trial.outputs, outputs, List.filterMap_reverse]

theorem outputs_record (l : Loop) (m : Machine) (outcome : Outcome) (i : Nat) :
    (l.record m outcome).outputs i =
      (if i = l.stage then Machine.emitted (.ok outcome) else none).toList ++ l.outputs i := by
  by_cases visited : i = l.stage
  · subst visited
    cases first : Machine.emitted (.ok outcome) <;>
      simp [record, outputs, Visit.output?, first]
  · simp [record, outputs, Visit.output?, visited, Ne.symm visited]

@[simp] theorem stage_record (l : Loop) (m : Machine) (outcome : Outcome) :
    (l.record m outcome).stage = l.stage :=
  rfl

@[simp] theorem last_record (l : Loop) (m : Machine) (outcome : Outcome) :
    (l.record m outcome).last = l.last := by
  simp [record, last]

theorem getElem?_record_self {l : Loop} (inside : l.stage < l.machines.length) (m : Machine)
    (outcome : Outcome) : (l.record m outcome).machines[l.stage]? = some m :=
  List.getElem?_set_self inside

theorem getElem?_record_of_ne {l : Loop} {k : Nat} (apart : k ≠ l.stage) (m : Machine)
    (outcome : Outcome) : (l.record m outcome).machines[k]? = l.machines[k]? :=
  List.getElem?_set_ne (Ne.symm apart)

theorem finish_eq (l : Loop) :
    l.finish = l.trial (l.result.elim (.error (.noOutput l.last)) .ok) := by
  rw [finish]
  cases l.result <;> rfl

theorem halts_trial {l : Loop} {result : Except PipelineError Word} {i : Nat} :
    (l.trial result).Halts i ↔ ∃ v ∈ l.visits, v.stage = i ∧ v.suspension.outcome = .halted := by
  simp [trial, Trial.Halts]

theorem halts_record {l : Loop} {m : Machine} {outcome : Outcome} {i : Nat} :
    (∃ v ∈ (l.record m outcome).visits, v.stage = i ∧ v.suspension.outcome = .halted) ↔
      (∃ v ∈ l.visits, v.stage = i ∧ v.suspension.outcome = .halted) ∨
        (i = l.stage ∧ outcome = .halted) := by
  simp only [record, List.mem_cons, or_and_right, exists_or, exists_eq_left,
    Machine.outcome_suspension]
  rw [or_comm, eq_comm (a := l.stage)]

theorem visit_cases {fuel : Nat} {l : Loop} {m : Machine} {progress : Progress}
    (here : l.machines[l.stage]? = some m) (h : l.visit fuel = some progress) :
    (m.isHalted = true ∧ progress = .going (l.turn none)) ∨
      (m.isHalted = false ∧ ∃ result after,
        (m.feedAll l.signal.toList).Runs result after ∧ progress = l.conclude after result) := by
  simp only [visit, here] at h
  split at h
  · next halted =>
    cases h
    exact Or.inl ⟨halted, rfl⟩
  · next live =>
    refine Or.inr ⟨by simpa using live, ?_⟩
    split at h
    · cases h
    · next ran =>
      cases h
      exact ⟨_, _, ⟨fuel, ran⟩, rfl⟩
    · next ran =>
      cases h
      exact ⟨_, _, ⟨fuel, ran⟩, rfl⟩

theorem visit_of_isHalted {l : Loop} {m : Machine} (here : l.machines[l.stage]? = some m)
    (halted : m.isHalted = true) (fuel : Nat) : l.visit fuel = some (.going (l.turn none)) := by
  simp only [visit, here, halted, if_true]

theorem visit_of_run {fuel : Nat} {l : Loop} {m after : Machine}
    {result : Except MachineError Outcome} (here : l.machines[l.stage]? = some m)
    (live : m.isHalted = false)
    (ran : (m.feedAll l.signal.toList).run fuel = some (result, after)) :
    l.visit fuel = some (l.conclude after result) := by
  simp only [visit, here, live, Bool.false_eq_true, if_false, ran]
  cases result <;> rfl

/-- After the last of so many stages comes the first one. -/
theorem succ_mod_stages {i stages : Nat} (inside : i < stages) :
    (i + 1) % stages = if i = stages - 1 then 0 else i + 1 := by
  by_cases final : i = stages - 1
  · have round : i + 1 = stages := by omega
    rw [if_pos final, round, Nat.mod_self]
  · rw [if_neg final]
    exact Nat.mod_eq_of_lt (by omega)

theorem stage_turn {l : Loop} (inside : l.stage < l.machines.length) (signal : Option Word) :
    (l.turn signal).stage = if l.stage = l.last then 0 else l.stage + 1 :=
  succ_mod_stages inside

@[simp] theorem machines_goOn (l : Loop) (m : Machine) (outcome : Outcome) :
    (l.goOn m outcome).machines = l.machines.set l.stage m :=
  rfl

theorem stage_goOn {l : Loop} (inside : l.stage < l.machines.length) (m : Machine)
    (outcome : Outcome) :
    (l.goOn m outcome).stage = if l.stage = l.last then 0 else l.stage + 1 := by
  rw [← stage_turn inside none]
  simp [goOn, turn, record]

/-- Outputs keep the loop going, and so do halts of other stages than the last one. -/
theorem conclude_of_onward {l : Loop} {outcome : Outcome} (served : outcome ≠ .awaitingInput)
    (onward : l.stage = l.last → outcome ≠ .halted) (m : Machine) :
    l.conclude m (.ok outcome) = .going (l.goOn m outcome) := by
  rw [conclude]
  cases outcome with
  | output value =>
    rw [settle, stage_record, last_record]
    split
    · next final => simp [goOn, final, Machine.emitted]
    · next inner => simp [goOn, inner, Machine.emitted, record]
  | awaitingInput => exact absurd rfl served
  | halted =>
    have inner : l.stage ≠ l.last := fun final => onward final rfl
    rw [settle, stage_record, last_record, if_neg inner]
    simp [goOn, inner, Machine.emitted, record]

/-- The halt of the last stage ends the loop. -/
theorem conclude_of_halted {l : Loop} (final : l.stage = l.last) (m : Machine) :
    l.conclude m (.ok .halted) = .ended (l.record m .halted).finish := by
  rw [conclude, settle, stage_record, last_record, if_pos final]

/-- A loop that does not end with a visit goes on. -/
theorem conclude_going {l l' : Loop} {m : Machine} {result : Except MachineError Outcome}
    (h : l.conclude m result = .going l') :
    ∃ outcome, result = .ok outcome ∧ outcome ≠ .awaitingInput ∧
      (l.stage = l.last → outcome ≠ .halted) ∧ l' = l.goOn m outcome := by
  cases result with
  | error e => cases h
  | ok outcome =>
    have served : outcome ≠ .awaitingInput := by
      rintro rfl
      cases h
    have onward : l.stage = l.last → outcome ≠ .halted := by
      rintro final rfl
      rw [conclude_of_halted final] at h
      cases h
    rw [conclude_of_onward served onward] at h
    cases h
    exact ⟨outcome, rfl, served, onward, rfl⟩

end Loop

end Intcode
