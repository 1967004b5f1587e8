import Intcode.Proofs.Machine.Feeding
import Intcode.Proofs.Search.Answers

/-!
# Linear pipelines as compositions

The machine of a stage is fresh and gets its phase and one signal, so what it does depends on
these two alone. A run of a linear pipeline composes the stages: every output is the signal of the
next stage, and the first stage without an output ends the run with an error of its index.
-/

namespace Intcode

namespace Pipeline

/-- The pipelines run one program with one limit. -/
structure Alike (p q : Pipeline) : Prop where
  program : p.program = q.program
  limit : p.limit = q.limit

/-- A fresh machine with a phase and a signal as its inputs. -/
def fresh (p : Pipeline) (phase signal : Word) : Machine :=
  p.machine.feedAll [phase, signal]

/-- What comes of a fresh machine with this phase and this signal at its first suspension. -/
def Amplifies (p : Pipeline) (phase signal : Word) (outcome : Except MachineError Outcome) :
    Prop :=
  ∃ after, (p.fresh phase signal).Runs outcome after

/-- How a stage without an output ends the run. -/
inductive Breaks (stage : Nat) : Except MachineError Outcome → PipelineError → Prop where
  | failed {e : MachineError} : Breaks stage (.error e) (.machine stage e)
  | halted : Breaks stage (.ok .halted) (.noOutput stage)
  | starved : Breaks stage (.ok .awaitingInput) (.stalled stage)

/-- Each of the first stages, given its signal of a sequence, puts out the next one. -/
def Relays (p : Pipeline) (phases : List Word) (x : Nat → Word) (count : Nat) : Prop :=
  ∀ i phase, i < count → phases[i]? = some phase →
    p.Amplifies phase (x i) (.ok (.output (x (i + 1))))

variable {p q : Pipeline} {fuel stage count i : Nat} {phase signal : Word}
  {phases more : List Word} {x : Nat → Word} {before visits : List Visit} {trial : Trial}
  {outcome other : Except MachineError Outcome} {e : PipelineError}
  {result : Except PipelineError Word}

theorem feed_primed (p : Pipeline) (phase signal : Word) :
    (p.primed phase).feed signal = p.fresh phase signal := by
  simp [primed, fresh, Machine.feed_eq_feedAll]

theorem Alike.fresh (alike : p.Alike q) : p.fresh = q.fresh := by
  funext phase signal
  simp only [Pipeline.fresh, machine, alike.program, alike.limit]

theorem Amplifies.unique (one : p.Amplifies phase signal outcome)
    (two : p.Amplifies phase signal other) : outcome = other := by
  obtain ⟨_, runs⟩ := one
  obtain ⟨_, ran⟩ := two
  exact (runs.unique ran).1

/-- Every outcome that is not an output breaks the run. -/
theorem output_or_breaks (stage : Nat) (outcome : Except MachineError Outcome) :
    (∃ value, outcome = .ok (.output value)) ∨ ∃ e, Breaks stage outcome e := by
  rcases outcome with e | value | _ | _
  · exact .inr ⟨_, .failed⟩
  · exact .inl ⟨value, rfl⟩
  · exact .inr ⟨_, .starved⟩
  · exact .inr ⟨_, .halted⟩

/-! ## Sequences of signals -/

/-- A sequence of signals with one more in front. -/
def precede (signal : Word) (x : Nat → Word) : Nat → Word
  | 0 => signal
  | i + 1 => x i

theorem relays_zero : p.Relays phases x 0 :=
  fun _ _ none _ => absurd none (Nat.not_lt_zero _)

theorem relays_cons : p.Relays (phase :: phases) x (count + 1) ↔
    p.Amplifies phase (x 0) (.ok (.output (x 1))) ∧
      p.Relays phases (fun i => x (i + 1)) count := by
  constructor
  · intro relays
    exact ⟨relays 0 phase (Nat.succ_pos _) rfl,
      fun i next low here => relays (i + 1) next (Nat.succ_lt_succ low) here⟩
  · rintro ⟨first, others⟩ (_ | i) next low here
    · cases here
      exact first
    · exact others i next (Nat.lt_of_succ_lt_succ low) here

/-! ## Runs without fuel -/

/-- Going on from a stage with a signal and the phases left makes these visits and comes to this
result. A machine that fails makes no visit. -/
inductive Composes (p : Pipeline) :
    Nat → Word → List Word → List Visit → Except PipelineError Word → Prop where
  | done {stage : Nat} {signal : Word} : Composes p stage signal [] [] (.ok signal)
  | passed {stage : Nat} {phase signal value : Word} {phases : List Word} {after : Machine}
      {visits : List Visit} {result : Except PipelineError Word}
      (ran : (p.fresh phase signal).Runs (.ok (.output value)) after)
      (rest : Composes p (stage + 1) value phases visits result) :
      Composes p stage signal (phase :: phases)
        (⟨stage, some signal, after.suspension (.output value)⟩ :: visits) result
  | broken {stage : Nat} {phase signal : Word} {phases : List Word} {after : Machine}
      {outcome : Except MachineError Outcome} {e : PipelineError}
      (ran : (p.fresh phase signal).Runs outcome after) (breaks : Breaks stage outcome e) :
      Composes p stage signal (phase :: phases)
        (outcome.toOption.map (⟨stage, some signal, after.suspension ·⟩)).toList (.error e)

theorem composes_of_chainFrom
    (ran : p.chainFrom fuel stage signal phases before = some trial) :
    ∃ visits, p.Composes stage signal phases visits trial.result ∧
      trial.visits = before.reverse ++ visits := by
  induction phases generalizing stage signal before with
  | nil =>
    cases ran
    exact ⟨[], .done, (List.append_nil _).symm⟩
  | cons phase phases ih =>
    rw [chainFrom, feed_primed] at ran
    rcases runs : (p.fresh phase signal).run fuel with _ | ⟨e | outcome, after⟩
    · simp only [runs] at ran
      cases ran
    · simp only [runs] at ran
      cases ran
      exact ⟨[], .broken ⟨fuel, runs⟩ .failed, (List.append_nil _).symm⟩
    · simp only [runs] at ran
      cases outcome with
      | output value =>
        obtain ⟨visits, rest, same⟩ := ih ran
        exact ⟨_, .passed ⟨fuel, runs⟩ rest, by simp [same]⟩
      | halted =>
        cases ran
        exact ⟨_, .broken ⟨fuel, runs⟩ .halted, List.reverse_cons⟩
      | awaitingInput =>
        cases ran
        exact ⟨_, .broken ⟨fuel, runs⟩ .starved, List.reverse_cons⟩

theorem chainFrom_of_composes (composes : p.Composes stage signal phases visits result)
    (before : List Visit) :
    ∃ fuel, p.chainFrom fuel stage signal phases before =
      some ⟨before.reverse ++ visits, result⟩ := by
  induction composes generalizing before with
  | done => exact ⟨0, by simp [chainFrom]⟩
  | @passed stage phase signal value phases after visits result ran rest ih =>
    obtain ⟨enough, runs⟩ := ran
    obtain ⟨least, onward⟩ :=
      ih (⟨stage, some signal, after.suspension (.output value)⟩ :: before)
    refine ⟨max enough least, ?_⟩
    rw [chainFrom, feed_primed, Machine.run_mono (Nat.le_max_left _ _) runs]
    simpa using chainFrom_mono (Nat.le_max_right enough least) onward
  | broken ran breaks =>
    obtain ⟨fuel, runs⟩ := ran
    refine ⟨fuel, ?_⟩
    rw [chainFrom, feed_primed, runs]
    cases breaks <;> simp [Except.toOption]

theorem run_linear (valid : p.checkPhases phases = .ok ()) (fuel : Nat) :
    p.run fuel .linear phases = p.chainFrom fuel 0 0 phases [] := by
  rw [run, runLinear, valid]

theorem answers_linear_iff (valid : p.checkPhases phases = .ok ()) :
    p.Answers .linear phases result ↔ ∃ visits, p.Composes 0 0 phases visits result := by
  constructor
  · rintro ⟨fuel, trial, ran, rfl⟩
    rw [run_linear valid] at ran
    obtain ⟨visits, composes, -⟩ := composes_of_chainFrom ran
    exact ⟨visits, composes⟩
  · rintro ⟨visits, composes⟩
    obtain ⟨fuel, ran⟩ := chainFrom_of_composes composes []
    exact ⟨fuel, _, (run_linear valid fuel).trans ran, rfl⟩

/-! ## Longer runs -/

/-- Goes on with more phases after a run of the stages before, unless that failed. -/
def chainAfter (fuel : Nat) (p : Pipeline) (stage : Nat) (more : List Word) (trial : Trial) :
    Option Trial :=
  match trial.result with
  | .ok signal => p.chainFrom fuel stage signal more trial.visits.reverse
  | .error _ => some trial

theorem chainFrom_append : p.chainFrom fuel stage signal (phases ++ more) before =
    (p.chainFrom fuel stage signal phases before).bind
      (p.chainAfter fuel (stage + phases.length) more) := by
  induction phases generalizing stage signal before with
  | nil => simp [chainFrom, chainAfter]
  | cons phase phases ih =>
    have shift : stage + (phase :: phases).length = stage + 1 + phases.length :=
      (Nat.succ_add_eq_add_succ stage phases.length).symm
    rw [List.cons_append, chainFrom, chainFrom, shift]
    rcases ((p.primed phase).feed signal).run fuel with _ | ⟨e | value | _ | _, after⟩
    · rfl
    · rfl
    · exact ih
    · rfl
    · rfl

theorem Alike.chainFrom (alike : p.Alike q) :
    p.chainFrom fuel stage signal phases before = q.chainFrom fuel stage signal phases before := by
  induction phases generalizing stage signal before with
  | nil => rfl
  | cons phase phases ih => simp only [Pipeline.chainFrom, feed_primed, alike.fresh, ih]

/-! ## What ends a run -/

theorem Composes.relays {s : Word} (composes : p.Composes stage signal phases visits (.ok s)) :
    ∃ x, x 0 = signal ∧ x phases.length = s ∧ p.Relays phases x phases.length := by
  generalize came : Except.ok s = result at composes
  induction composes with
  | done =>
    cases came
    exact ⟨fun _ => s, rfl, rfl, relays_zero⟩
  | @passed _ _ signal _ _ after _ _ ran _ ih =>
    obtain ⟨x, rfl, last, relays⟩ := ih came
    exact ⟨precede signal x, rfl, last, relays_cons.mpr ⟨⟨after, ran⟩, relays⟩⟩
  | broken => cases came

theorem Composes.breaks (composes : p.Composes stage signal phases visits (.error e)) :
    ∃ x i phase outcome, x 0 = signal ∧ p.Relays phases x i ∧ phases[i]? = some phase ∧
      p.Amplifies phase (x i) outcome ∧ Breaks (stage + i) outcome e := by
  generalize came : Except.error e = result at composes
  induction composes with
  | done => cases came
  | @passed stage _ signal _ _ after _ _ ran _ ih =>
    obtain ⟨x, i, phase, outcome, rfl, relays, here, amplifies, breaks⟩ := ih came
    rw [Nat.succ_add_eq_add_succ] at breaks
    exact ⟨precede signal x, i + 1, phase, outcome, rfl, relays_cons.mpr ⟨⟨after, ran⟩, relays⟩,
      here, amplifies, breaks⟩
  | @broken _ phase signal _ after outcome _ ran breaks =>
    cases came
    exact ⟨fun _ => signal, 0, phase, outcome, rfl, relays_zero, rfl, ⟨after, ran⟩, breaks⟩

/-- A run goes through the stages that relay the signal and then does what the rest does. -/
theorem Relays.composes (relays : p.Relays phases x count) (low : count ≤ phases.length)
    (rest : p.Composes (stage + count) (x count) (phases.drop count) visits result) :
    ∃ visits, p.Composes stage (x 0) phases visits result := by
  induction count generalizing stage phases x with
  | zero => exact ⟨visits, rest⟩
  | succ count ih =>
    cases phases with
    | nil => cases low
    | cons phase phases =>
      obtain ⟨⟨after, ran⟩, others⟩ := relays_cons.mp relays
      rw [← Nat.succ_add_eq_add_succ] at rest
      obtain ⟨visits, composes⟩ := ih others (Nat.le_of_succ_le_succ low) rest
      exact ⟨_, .passed ran composes⟩

theorem exists_composes_ok_iff {s : Word} :
    (∃ visits, p.Composes stage signal phases visits (.ok s)) ↔
      ∃ x, x 0 = signal ∧ x phases.length = s ∧ p.Relays phases x phases.length := by
  constructor
  · rintro ⟨visits, composes⟩
    exact composes.relays
  · rintro ⟨x, rfl, rfl, relays⟩
    exact relays.composes (Nat.le_refl _) (by rw [List.drop_length]; exact .done)

theorem exists_composes_error_iff :
    (∃ visits, p.Composes stage signal phases visits (.error e)) ↔
      ∃ x i phase outcome, x 0 = signal ∧ p.Relays phases x i ∧ phases[i]? = some phase ∧
        p.Amplifies phase (x i) outcome ∧ Breaks (stage + i) outcome e := by
  constructor
  · rintro ⟨visits, composes⟩
    exact composes.breaks
  · rintro ⟨x, i, phase, outcome, rfl, relays, here, ⟨after, ran⟩, breaks⟩
    obtain ⟨low, rfl⟩ := List.getElem?_eq_some_iff.mp here
    exact relays.composes (Nat.le_of_lt low)
      (by rw [List.drop_eq_getElem_cons low]; exact .broken ran breaks)

/-- A run comes to an end if every stage that it gets to does. -/
theorem exists_composes
    (returns : ∀ x i phase, x 0 = signal → p.Relays phases x i → phases[i]? = some phase →
      ∃ outcome, p.Amplifies phase (x i) outcome) :
    ∃ visits result, p.Composes stage signal phases visits result := by
  induction phases generalizing stage signal with
  | nil => exact ⟨_, _, .done⟩
  | cons phase phases ih =>
    obtain ⟨outcome, after, ran⟩ := returns (fun _ => signal) 0 phase rfl relays_zero rfl
    rcases output_or_breaks stage outcome with ⟨value, rfl⟩ | ⟨e, breaks⟩
    · have others : ∀ x i next, x 0 = value → p.Relays phases x i → phases[i]? = some next →
          ∃ outcome, p.Amplifies next (x i) outcome := by
        rintro x i next rfl relays here
        exact returns (precede signal x) (i + 1) next rfl
          (relays_cons.mpr ⟨⟨after, ran⟩, relays⟩) here
      obtain ⟨visits, result, composes⟩ := ih others
      exact ⟨_, result, .passed ran composes⟩
    · exact ⟨_, _, .broken ran breaks⟩

/-- In a run that ends, every stage that the signals get to has an outcome. -/
theorem Composes.returns (composes : p.Composes stage (x 0) phases visits result)
    (relays : p.Relays phases x i) (here : phases[i]? = some phase) :
    ∃ outcome, p.Amplifies phase (x i) outcome := by
  induction i generalizing stage phases visits x with
  | zero =>
    cases composes with
    | done => cases here
    | passed ran | broken ran =>
      cases here
      exact ⟨_, _, ran⟩
  | succ i ih =>
    cases phases with
    | nil => cases here
    | cons first phases =>
      obtain ⟨puts, others⟩ := relays_cons.mp relays
      cases composes with
      | passed ran rest =>
        cases puts.unique ⟨_, ran⟩
        exact ih rest others here
      | broken ran breaks =>
        cases puts.unique ⟨_, ran⟩
        cases breaks

/-- Every visit is that of a fresh machine with the phase of its stage. -/
theorem Composes.visited {visit : Visit} (composes : p.Composes stage signal phases visits result)
    (made : visits[i]? = some visit) :
    ∃ phase signal outcome after, phases[i]? = some phase ∧
      (p.fresh phase signal).Runs (.ok outcome) after ∧
      visit = ⟨stage + i, some signal, after.suspension outcome⟩ := by
  induction composes generalizing i with
  | done => cases made
  | passed ran rest ih =>
    cases i with
    | zero =>
      cases made
      exact ⟨_, _, _, _, rfl, ran, rfl⟩
    | succ i =>
      obtain ⟨phase, signal, outcome, after, here, runs, same⟩ := ih made
      exact ⟨phase, signal, outcome, after, here, runs, by rw [same, Nat.succ_add_eq_add_succ]⟩
  | broken ran breaks =>
    cases i with
    | zero =>
      cases breaks with
      | failed => cases made
      | halted | starved =>
        cases made
        exact ⟨_, _, _, _, rfl, ran, rfl⟩
    | succ i => cases breaks <;> cases made

theorem visited_of_run {visit : Visit} (ran : p.run fuel .linear phases = some trial)
    (made : trial.visits[i]? = some visit) :
    ∃ phase signal outcome after, phases[i]? = some phase ∧
      (p.fresh phase signal).Runs (.ok outcome) after ∧
      visit = ⟨i, some signal, after.suspension outcome⟩ := by
  rcases checked : p.checkPhases phases with cause | _
  · rw [run, runLinear, checked] at ran
    cases ran
    cases made
  · rw [run_linear checked] at ran
    obtain ⟨visits, composes, same⟩ := composes_of_chainFrom ran
    rw [same, List.reverse_nil, List.nil_append] at made
    simpa using composes.visited made

/-- A run comes to a signal exactly if a sequence from zero to this signal is relayed by all
stages, and to an error exactly if the first stage without an output breaks it with this error. It
comes to an end exactly if every stage that it gets to does. A run over more phases goes on from
the run over the first of them, and stages with the same phase and signal do the same in all runs
of one program with one limit. -/
theorem linear_composes_stages (valid : p.checkPhases phases = .ok ()) :
    (∀ s, p.Answers .linear phases (.ok s) ↔
      ∃ x, x 0 = 0 ∧ x phases.length = s ∧ p.Relays phases x phases.length) ∧
    (∀ e, p.Answers .linear phases (.error e) ↔
      ∃ x i phase outcome, x 0 = 0 ∧ p.Relays phases x i ∧ phases[i]? = some phase ∧
        p.Amplifies phase (x i) outcome ∧ Breaks i outcome e) ∧
    ((∃ result, p.Answers .linear phases result) ↔
      ∀ x i phase, x 0 = 0 → p.Relays phases x i → phases[i]? = some phase →
        ∃ outcome, p.Amplifies phase (x i) outcome) ∧
    (∀ q more fuel, p.Alike q → q.checkPhases (phases ++ more) = .ok () →
      q.run fuel .linear (phases ++ more) =
        (p.run fuel .linear phases).bind (p.chainAfter fuel phases.length more)) ∧
    ∀ (q : Pipeline) (others : List Word) (fuel enough i j : Nat) (trial last : Trial)
      (visit again : Visit), p.Alike q →
      p.run fuel .linear phases = some trial → q.run enough .linear others = some last →
      trial.visits[i]? = some visit → last.visits[j]? = some again →
      phases[i]? = others[j]? → visit.fed = again.fed → visit.suspension = again.suspension := by
  refine ⟨fun s => ?_, fun e => ?_, ⟨?_, fun returns => ?_⟩, ?_, ?_⟩
  · rw [answers_linear_iff valid]
    exact exists_composes_ok_iff
  · rw [answers_linear_iff valid, exists_composes_error_iff]
    simp only [Nat.zero_add]
  · rintro ⟨result, answers⟩ x i phase start relays here
    obtain ⟨visits, composes⟩ := (answers_linear_iff valid).mp answers
    rw [← start] at composes
    exact composes.returns relays here
  · have ends : ∃ visits result, p.Composes 0 0 phases visits result := exists_composes returns
    obtain ⟨visits, result, composes⟩ := ends
    exact ⟨result, (answers_linear_iff valid).mpr ⟨visits, composes⟩⟩
  · intro q more fuel alike longer
    rw [run_linear longer, run_linear valid, ← alike.chainFrom, chainFrom_append, Nat.zero_add]
  · intro q others fuel enough i j trial last visit again alike ran ranAgain made madeAgain same fed
    obtain ⟨phase, signal, outcome, after, here, runs, rfl⟩ := visited_of_run ran made
    obtain ⟨_, _, other, left, there, runsAgain, rfl⟩ := visited_of_run ranAgain madeAgain
    rw [here, there] at same
    cases same
    cases fed
    rw [← alike.fresh] at runsAgain
    obtain ⟨one, two⟩ := runs.unique runsAgain
    cases one
    rw [two]

/-- Takes its phase for the instruction to execute when it has got its signal: 4 puts out the
signal and 104 the number 9, and 3 waits for one more input. -/
def executing (stages : Nat) : Pipeline :=
  { program := ⟨#[3, 4, 3, 9, 0, 9, 99]⟩, stages }

theorem linear_composes_stages_executing :
    (∃ x, x 0 = 0 ∧ x 2 = 9 ∧ (executing 2).Relays [104, 4] x 2) ∧
    (∃ x i phase outcome, x 0 = 0 ∧ (executing 3).Relays [104, 4, 3] x i ∧
      [104, 4, 3][i]? = some phase ∧ (executing 3).Amplifies phase (x i) outcome ∧
      Breaks i outcome (.stalled 2)) ∧
    ∀ fuel, (executing 3).run fuel .linear [104, 4, 3] =
      ((executing 2).run fuel .linear [104, 4]).bind ((executing 2).chainAfter fuel 2 [3]) := by
  have shorter : (executing 2).checkPhases [104, 4] = .ok () := by decide +kernel
  have longer : (executing 3).checkPhases [104, 4, 3] = .ok () := by decide +kernel
  have passed : ((executing 2).run 4 .linear [104, 4]).map Trial.result = some (.ok 9) := by
    decide +kernel
  have stalled : ((executing 3).run 4 .linear [104, 4, 3]).map Trial.result =
      some (.error (.stalled 2)) := by
    decide +kernel
  obtain ⟨succeeds, -, -, continues, -⟩ := linear_composes_stages shorter
  obtain ⟨-, fails, -, -, -⟩ := linear_composes_stages longer
  exact ⟨(succeeds 9).mp (answers_of_run passed), (fails _).mp (answers_of_run stalled),
    fun fuel => continues (executing 3) [3] fuel ⟨rfl, rfl⟩ longer⟩

end Pipeline

end Intcode
