import Intcode.Proofs.Machine.Limits

/-!
# Termination under a limit

A machine spends a step on every instruction but an input that is not there, which ends its run. So
with a limit every run comes to an end, and only so many of them can end otherwise than by waiting.
Fuel beyond the limit does for each run, and for a run to the halt, which puts out no more values
than it spends steps.
-/

namespace Intcode

namespace Machine

variable {m after : Machine} {result : Except MachineError Outcome} {bound fuel : Nat}

/-! ## Steps spent in a run -/

/-- Steps are never taken back, but for an input that did not happen. -/
theorem steps_le_execute (m : Machine) : m.steps ≤ m.execute.2.steps := by
  rcases spent_or_affords m with ⟨bound, limited, spent⟩ | covered
  · simp only [execute_spent limited spent, Nat.le_refl]
  · rcases executed : m.execute with ⟨result, after⟩
    by_cases starved : result = .ok (some .awaitingInput)
    · subst starved
      obtain ⟨-, rfl⟩ := execute_awaitingInput executed
      exact Nat.le_refl _
    · have paid := execute_budget covered executed starved
      rw [steps, steps, paid]
      exact Nat.le_succ _

theorem preserved_le_steps (least : Nat) : Preserved fun t => least ≤ t.steps where
  feeds _ _ low := low
  stores _ _ low := low
  resumes _ low := low
  executes t low := Nat.le_trans low (steps_le_execute t)

/-- What single changes preserve, a run preserves. -/
theorem Preserved.runs {P : Machine → Prop} (preserved : Preserved P) (start : P m)
    (runs : m.Runs result after) : P after := by
  obtain ⟨starts, performs⟩ := performs_run_iff.mpr ⟨result, rfl, runs⟩
  exact (preserved.performs start performs).2

theorem Runs.limit (runs : m.Runs result after) : after.budget.limit = m.budget.limit :=
  (preserved_limit m.budget.limit).runs rfl runs

theorem Runs.steps_le (runs : m.Runs result after) : m.steps ≤ after.steps :=
  (preserved_le_steps m.steps).runs (Nat.le_refl _) runs

/-- A run that puts something out or halts spends a step, within the limit. -/
theorem Runs.steps_lt {outcome : Outcome} (runs : m.Runs (.ok outcome) after)
    (limited : m.budget.limit = some bound) (served : outcome ≠ .awaitingInput) :
    m.steps < after.steps ∧ after.steps ≤ bound := by
  obtain ⟨earlier, s, reaches, stops⟩ := (runs_iff_reaches runs.live).mp runs
  have before : m.steps ≤ s.steps :=
    (reaches.keeps (preserved_le_steps m.steps).executes (Nat.le_refl m.steps)).2
  have same : s.budget.limit = some bound :=
    (reaches.keeps (preserved_limit (some bound)).executes limited).2
  have covered : s.Affords s.budget.limit := affords_of_ok (congrArg Prod.fst stops)
  have paid : after.steps = s.steps + 1 :=
    congrArg Budget.used (execute_budget covered stops (by simpa [Except.map] using served))
  rw [same, affords_some] at covered
  constructor
  · omega
  · omega

/-! ## Runs return -/

theorem runFrom_returns (limited : m.budget.limit = some bound) (enough : bound - m.steps < fuel) :
    ∃ result after, runFrom fuel m = some (result, after) := by
  induction fuel generalizing m with
  | zero => omega
  | succ fuel ih =>
    rcases executed : m.execute with ⟨e | _ | outcome, mid⟩
    · exact ⟨.error e, mid, by simp only [runFrom, executed]⟩
    · have covered : m.Affords (some bound) := by
        rw [← limited]
        exact affords_of_ok (congrArg Prod.fst executed)
      rw [affords_some] at covered
      have spent : mid.steps = m.steps + 1 := by
        simpa [executed] using execute_steps (m := m) (.inl (congrArg Prod.fst executed))
      have same : mid.budget.limit = some bound := by
        simpa [executed, limited] using (execute_costs m).1
      obtain ⟨result, after, ran⟩ := ih same (by omega)
      exact ⟨result, after, by simp only [runFrom, executed, ran]⟩
    · exact ⟨.ok outcome, mid, by simp only [runFrom, executed]⟩

theorem run_returns (limited : m.budget.limit = some bound) (enough : bound < fuel) :
    ∃ result after, m.run fuel = some (result, after) := by
  cases halted : m.isHalted with
  | true => exact ⟨_, _, run_of_isHalted halted fuel⟩
  | false =>
    rw [run_eq_runFrom halted]
    exact runFrom_returns limited (Nat.lt_of_le_of_lt (Nat.sub_le _ _) enough)

/-- Every run but the last one puts something out, and so spends a step of those left. -/
theorem followFrom_returns (limited : m.budget.limit = some bound) (enough : bound < fuel)
    {more : Nat} (longer : bound - m.steps < more) (before : List Suspension) :
    ∃ course, followFrom fuel more before m = some course := by
  induction more generalizing m before with
  | zero => omega
  | succ more ih =>
    obtain ⟨e | outcome, mid, ran⟩ := run_returns limited enough
    · exact ⟨⟨before.reverse, .error e, mid⟩, by simp only [followFrom, ran]⟩
    · cases outcome with
      | output value =>
        have runs : m.Runs (.ok (.output value)) mid := ⟨fuel, ran⟩
        obtain ⟨spent, within⟩ := runs.steps_lt limited (by simp)
        obtain ⟨course, followed⟩ :=
          ih (runs.limit.trans limited) (by omega) (mid.suspension (.output value) :: before)
        exact ⟨course, by simp only [followFrom, ran, followed]⟩
      | awaitingInput | halted =>
        simp only [followFrom, ran]
        exact ⟨_, rfl⟩

theorem follow_returns (limited : m.budget.limit = some bound) (enough : bound < fuel) :
    ∃ course, m.follow fuel = some course :=
  followFrom_returns limited enough (Nat.lt_of_le_of_lt (Nat.sub_le _ _) enough) []

/-- There are no more outputs than steps left. -/
theorem Follows.length_le {outputs : List Word} {ending : Except MachineError Unit}
    (follows : m.Follows outputs ending after) (limited : m.budget.limit = some bound) :
    outputs.length ≤ bound - m.steps := by
  induction follows with
  | failed | starved | halted => exact Nat.zero_le _
  | output runs rest ih =>
    obtain ⟨spent, within⟩ := runs.steps_lt limited (by simp)
    have later := ih (runs.limit.trans limited)
    rw [List.length_cons]
    omega

/-- A run to the halt returns, with no more outputs than the limit allows steps. -/
theorem runToHalt_returns (limited : m.budget.limit = some bound) (enough : bound < fuel) :
    ∃ result after, m.runToHalt fuel = some (result, after) ∧
      ∀ outputs, result = .ok outputs → outputs.length ≤ bound := by
  obtain ⟨course, followed⟩ := follow_returns limited enough
  have ran : m.runToHalt fuel = some (course.result, course.machine) := by
    rw [runToHalt, followed, Option.map_some]
  refine ⟨course.result, course.machine, ran, fun outputs returned => ?_⟩
  obtain ⟨puts, ending, follows, same⟩ := runToHalt_iff_follows.mp ⟨fuel, ran⟩
  rw [returned] at same
  cases ending with
  | error e => cases same
  | ok done =>
    cases same
    exact Nat.le_trans (follows.length_le limited) (Nat.sub_le _ _)

end Machine

end Intcode
