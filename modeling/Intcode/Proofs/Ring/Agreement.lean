import Intcode.Proofs.Ring.Collect
import Intcode.Proofs.Ring.Following
import Intcode.Proofs.Ring.Schedules

/-!
# Loops and rings compared

When all stages of a ring have finished, it has been through the state in which it matches the loop
on the same phases, whatever the order of its steps. The ring may have gone on from there: the loop
stops with its last stage or at the first stage that gets no signal, and the ring does not. So both
return the same signal unless a stage that the loop left behind fails in the ring, or the ring gets
past where the loop stalled.
-/

namespace Intcode

namespace Stage

/-- An error that the stage finished with is of its machine, or says that its input was closed. -/
def Labelled (i : Nat) (s : Stage) : Prop :=
  ∀ e, s.activity = .finished (.error e) → (∃ source, e = .machine i source) ∨ e = .inputClosed i

theorem labelled_of_unfinished {i : Nat} {s : Stage} (unfinished : s.isFinished = false) :
    s.Labelled i := by
  intro e failed
  rw [isFinished_iff.mpr ⟨_, failed⟩] at unfinished
  cases unfinished

theorem Acts.labelled {i : Nat} {closed : Bool} {s after : Stage} {sent : Option Word}
    (acts : s.Acts i closed after sent) : after.Labelled i := by
  cases acts with
  | output running => exact labelled_of_unfinished (isFinished_of_activity_eq_run running)
  | starve => exact labelled_of_unfinished (isFinished_of_activity_eq_receive rfl)
  | receive => exact labelled_of_unfinished (isFinished_of_activity_eq_run rfl)
  | halt =>
    intro e failed
    cases failed
  | fail =>
    intro e failed
    cases failed
    exact Or.inl ⟨_, rfl⟩
  | close =>
    intro e failed
    cases failed
    exact Or.inr rfl

end Stage

namespace Ring

theorem Steps.labelled {order : List Nat} {r t : Ring} (steps : Steps order r t) {k : Nat}
    {s : Stage} (here : r.stages[k]? = some s) (labelled : s.Labelled k) :
    ∃ after, t.stages[k]? = some after ∧ after.Labelled k := by
  obtain ⟨after, there, keeps⟩ := steps.relates
    (fun i s after => s.Labelled i → after.Labelled i)
    (fun _ _ labelled => labelled)
    (fun _ _ _ _ ab bc labelled => bc (ab labelled))
    (fun _ _ _ _ _ acts _ => acts.labelled)
    (fun i s arriving labelled e failed => labelled e (by rwa [Stage.activity_accept] at failed))
    here
  exact ⟨after, there, keeps labelled⟩

theorem getLast?_of_results? {r : Ring} {results : List StageResult}
    (done : r.results? = some results) : results.getLast? = results[r.size - 1]? := by
  rw [List.getLast?_eq_getElem?, length_of_results? done]

section

variable {r t : Ring} {trial : Trial} {order : List Nat} {results : List StageResult}

/-- A stage that finished on the way has the result that it finished with. -/
theorem Steps.result {i : Nat} {s : Stage} {result : StageResult} (later : Steps order r t)
    (done : t.results? = some results) (here : r.stages[i]? = some s)
    (finished : s.activity = .finished result) : results[i]? = some result := by
  have left := later.finished here (Stage.isFinished_iff.mpr ⟨_, finished⟩)
  rw [getElem?_of_results? done left, Stage.result?_eq_some_iff.mpr finished]

theorem Matches.outputs_prefix {i : Nat} (same : r.Matches trial) (later : Steps order r t)
    (inside : i < r.size) :
    ∃ s, t.stages[i]? = some s ∧ trial.outputs i <+: s.outputs.reverse := by
  obtain ⟨s, here⟩ := exists_stage inside
  obtain ⟨after, there, more⟩ := later.outputs here
  refine ⟨after, there, ?_⟩
  rw [← same.outputs i s here]
  exact List.reverse_prefix.mpr more

theorem Matches.result_of_halts {i : Nat} (same : r.Matches trial) (later : Steps order r t)
    (done : t.results? = some results) (halts : trial.Halts i) :
    results[i]? = some (.ok (trial.outputs i).getLast?) := by
  obtain ⟨s, here, finished⟩ := same.halted i halts
  rw [later.result done here finished, ← same.outputs i s here, List.getLast?_reverse]

theorem Matches.result_of_failed {i : Nat} {e : MachineError} (same : r.Matches trial)
    (later : Steps order r t) (done : t.results? = some results)
    (failed : trial.result = .error (.machine i e)) :
    results[i]? = some (.error (.machine i e)) := by
  have answers := same.answers
  rw [failed] at answers
  cases answers with
  | failed here finished => exact later.result done here finished

theorem Matches.last_of_signal {value : Word} (same : r.Matches trial) (later : Steps order r t)
    (done : t.results? = some results) (signal : trial.result = .ok value) :
    results.getLast? = some (.ok (some value)) := by
  have answers := same.answers
  rw [signal] at answers
  cases answers with
  | signal halts last =>
    rw [getLast?_of_results? done, later.size, same.result_of_halts later done halts, last]

theorem Matches.last_of_silent {k : Nat} (same : r.Matches trial) (later : Steps order r t)
    (done : t.results? = some results) (silent : trial.result = .error (.noOutput k)) :
    results.getLast? = some (.ok none) := by
  have answers := same.answers
  rw [silent] at answers
  cases answers with
  | silent halts quiet =>
    rw [getLast?_of_results? done, later.size, same.result_of_halts later done halts, quiet]
    rfl

end

end Ring

namespace Trial

/-- The loop returned a signal and left a stage behind that fails in the ring. -/
def Abandons (t : Trial) (results : List StageResult) : Prop :=
  (∃ value, t.result = .ok value) ∧ ∃ i e, ¬ t.Halts i ∧ results[i]? = some (.error e)

/-- The loop stalled, but in the ring all stages halt, the last one with an output. -/
def Lags (t : Trial) (results : List StageResult) : Prop :=
  (∃ i, t.result = .error (.stalled i)) ∧ ∃ value,
    (∀ result ∈ results, ∃ last, result = .ok last) ∧ results.getLast? = some (.ok (some value))

end Trial

namespace Ring

variable {r t : Ring} {trial : Trial} {order : List Nat} {results : List StageResult}

/-- A signal of the ring is that of the loop, unless the loop stalled. -/
theorem Matches.signal_of_collect {value : Word} (same : r.Matches trial) (later : Steps order r t)
    (done : t.results? = some results) (returned : collect results = .ok value) :
    trial.result = .ok value ∨ ∃ i, trial.result = .error (.stalled i) := by
  obtain ⟨halted, last⟩ := collect_eq_ok_iff.mp returned
  have answers := same.answers
  generalize ended : trial.result = result at answers
  cases answers with
  | signal =>
    cases last.symm.trans (same.last_of_signal later done ended)
    exact Or.inl rfl
  | silent => cases last.symm.trans (same.last_of_silent later done ended)
  | failed =>
    have failed := List.mem_of_getElem? (same.result_of_failed later done ended)
    obtain ⟨_, halted⟩ := halted _ failed
    cases halted
  | @stalled i => exact Or.inr ⟨i, rfl⟩

theorem Matches.agrees_iff (same : r.Matches trial) (later : Steps order r t)
    (done : t.results? = some results) :
    (∀ value, collect results = .ok value ↔ trial.result = .ok value) ↔
      ¬ trial.Abandons results ∧ ¬ trial.Lags results := by
  constructor
  · intro agree
    constructor
    · rintro ⟨⟨value, signal⟩, i, e, _, failed⟩
      have halted := (collect_eq_ok_iff.mp ((agree value).mpr signal)).1
      obtain ⟨_, halted⟩ := halted _ (List.mem_of_getElem? failed)
      cases halted
    · rintro ⟨⟨i, stalled⟩, value, halted⟩
      have signal := (agree value).mp (collect_eq_ok_iff.mpr halted)
      cases stalled.symm.trans signal
  · rintro ⟨kept, level⟩ value
    constructor
    · intro returned
      rcases same.signal_of_collect later done returned with signal | stalled
      · exact signal
      · exact absurd ⟨stalled, value, collect_eq_ok_iff.mp returned⟩ level
    · intro signal
      refine collect_eq_ok_iff.mpr ⟨?_, same.last_of_signal later done signal⟩
      intro result member
      obtain ⟨i, here⟩ := List.mem_iff_getElem?.mp member
      cases result with
      | ok last => exact ⟨last, rfl⟩
      | error e =>
        -- A stage that halted in the loop has not failed, so this one was left behind.
        refine absurd ⟨⟨value, signal⟩, i, e, fun halts => ?_, here⟩ kept
        cases here.symm.trans (same.result_of_halts later done halts)

end Ring

namespace Pipeline

theorem labelled_of_steps {p : Pipeline} {phases : List Word} {order : List Nat} {t : Ring}
    (steps : Ring.Steps order (p.ring phases) t) {i : Nat} {s : Stage}
    (here : t.stages[i]? = some s) : s.Labelled i := by
  obtain ⟨old, start⟩ := Ring.exists_stage (r := p.ring phases) (i := i) (by
    rw [← steps.size]
    exact Ring.lt_size_of_getElem? here)
  obtain ⟨phase, _, rfl⟩ := getElem?_ring start
  obtain ⟨after, there, labelled⟩ := steps.labelled start (Stage.labelled_of_unfinished rfl)
  cases here.symm.trans there
  exact labelled

/-- A stage of a finished ring failed in its machine or for lack of input. -/
theorem error_of_results? {p : Pipeline} {phases : List Word} {order : List Nat} {t : Ring}
    {results : List StageResult} (steps : Ring.Steps order (p.ring phases) t)
    (done : t.results? = some results) {i : Nat} {e : PipelineError}
    (here : results[i]? = some (.error e)) : (∃ source, e = .machine i source) ∨ e = .inputClosed i := by
  obtain ⟨s, left⟩ := Ring.exists_stage (r := t) (i := i) (by
    rw [← Ring.length_of_results? done]
    exact (List.getElem?_eq_some_iff.mp here).1)
  rw [Ring.getElem?_of_results? done left] at here
  exact labelled_of_steps steps left e (Stage.result?_eq_some_iff.mp here)

/-- Where the machine of a stage failed, the ring returns a failure of a machine, and of no later
stage. -/
theorem collect_of_machine {p : Pipeline} {phases : List Word} {order : List Nat} {t : Ring}
    {results : List StageResult} (steps : Ring.Steps order (p.ring phases) t)
    (done : t.results? = some results) {i : Nat} {e : MachineError}
    (here : results[i]? = some (.error (.machine i e))) :
    ∃ j source, j ≤ i ∧ Ring.collect results = .error (.machine j source) := by
  obtain ⟨j, result, cause, le, there, failing, collected⟩ := Ring.collect_of_failure here rfl
  cases result with
  | ok last => cases failing
  | error other =>
    rcases error_of_results? steps done there with ⟨source, rfl⟩ | rfl
    · cases failing
      exact ⟨j, source, le, collected⟩
    · cases failing

/-- Whatever a loop does is done in every finished ring: each stage has put out what it did in the
loop, or more after that, has the same result if it halted there, and fails with the same error of
its machine if that ended the loop. If both return a signal, it is the same. -/
theorem ring_extends_loop {p : Pipeline} {phases : List Word} {fuel : Nat} {trial : Trial}
    {order : List Nat} {t : Ring} {results : List StageResult}
    (valid : p.checkPhases phases = .ok ()) (ran : p.runFeedback fuel phases = some trial)
    (steps : Ring.Steps order (p.ring phases) t) (done : t.results? = some results) :
    (∀ i < phases.length, ∃ s, t.stages[i]? = some s ∧ trial.outputs i <+: s.outputs.reverse) ∧
    (∀ i, trial.Halts i → results[i]? = some (.ok (trial.outputs i).getLast?)) ∧
    (∀ i e, trial.result = .error (.machine i e) →
      results[i]? = some (.error (.machine i e)) ∧
        ∃ j source, j ≤ i ∧ Ring.collect results = .error (.machine j source)) ∧
    ∀ one other, trial.result = .ok one → Ring.collect results = .ok other → one = other := by
  obtain ⟨early, r, made, same⟩ := exists_matches valid ran
  obtain ⟨rest, later, _⟩ := steps.reaches (Ring.not_step_of_results? done) made
  refine ⟨fun i inside => ?_, fun i halts => same.result_of_halts later done halts,
    fun i e failed => ?_, fun one other signal returned => ?_⟩
  · have size : (p.ring phases).size = phases.length := by simp [Ring.size, ring]
    exact same.outputs_prefix later (by rwa [made.size, size])
  · have here := same.result_of_failed later done failed
    exact ⟨here, collect_of_machine steps done here⟩
  · have final := same.last_of_signal later done signal
    cases final.symm.trans (Ring.collect_eq_ok_iff.mp returned).2
    rfl

theorem ring_extends_loop_relay :
    ∃ trial order t, relay.checkPhases [0, 1] = .ok () ∧
      relay.runFeedback 30 [0, 1] = some trial ∧
      Ring.Steps order (relay.ring [0, 1]) t ∧
      t.results? = some [.error (.inputClosed 0), .ok (some 0)] ∧
      ∀ i < 2, ∃ s, t.stages[i]? = some s ∧ trial.outputs i <+: s.outputs.reverse := by
  have valid : relay.checkPhases [0, 1] = .ok () := rfl
  obtain ⟨trial, ran, _⟩ := Option.map_eq_some_iff.mp relay_signal
  obtain ⟨⟨visits, results⟩, ended, rfl⟩ := Option.map_eq_some_iff.mp relay_results
  obtain ⟨order, t, steps, done⟩ := Ring.steps_of_runFor ended
  exact ⟨trial, order, t, valid, ran, steps, done, (ring_extends_loop valid ran steps done).1⟩

/-- The loop returns a signal exactly where the ring does, the same one, unless the loop leaves a
stage behind that fails in the ring or stalls where the ring gets on to a signal. -/
theorem same_signal_iff {p : Pipeline} {phases : List Word} {fuel : Nat} {trial : Trial}
    {results : List StageResult} {result : Except PipelineError Word}
    (ran : p.runFeedback fuel phases = some trial) (ends : p.Concludes phases results result) :
    (∀ value, result = .ok value ↔ trial.result = .ok value) ↔
      ¬ trial.Abandons results ∧ ¬ trial.Lags results := by
  cases ends with
  | rejected invalid =>
    simp only [runFeedback, invalid] at ran
    cases ran
    simp [Trial.Abandons, Trial.Lags]
  | collected valid steps done =>
    obtain ⟨early, r, made, same⟩ := exists_matches valid ran
    obtain ⟨rest, later, _⟩ := steps.reaches (Ring.not_step_of_results? done) made
    exact same.agrees_iff later done

/-- With phases other than 0 both stages of the relay halt. -/
theorem same_signal_relay :
    ∃ trial result, relay.runFeedback 30 [1, 2] = some trial ∧
      relay.Concludes [1, 2] [.ok (some 0), .ok (some 0)] result ∧ result = .ok 0 ∧
      ∀ value, result = .ok value ↔ trial.result = .ok value := by
  have signal : (relay.runFeedback 30 [1, 2]).map Trial.result = some (.ok 0) := by
    decide +kernel
  have ended : ((relay.ring [1, 2]).runFor 30 30 []).map Prod.snd =
      some [.ok (some 0), .ok (some 0)] := by
    decide +kernel
  obtain ⟨trial, ran, signal⟩ := Option.map_eq_some_iff.mp signal
  obtain ⟨⟨visits, results⟩, ended, rfl⟩ := Option.map_eq_some_iff.mp ended
  obtain ⟨order, t, steps, done⟩ := Ring.steps_of_runFor ended
  have ends : relay.Concludes [1, 2] [.ok (some 0), .ok (some 0)] (.ok 0) :=
    .collected rfl steps done
  refine ⟨trial, .ok 0, ran, ends, rfl, (same_signal_iff ran ends).mpr ⟨?_, ?_⟩⟩
  · rintro ⟨_, i, e, _, failed⟩
    have member := List.mem_of_getElem? failed
    simp at member
  · rintro ⟨⟨i, stalled⟩, _⟩
    cases signal.symm.trans stalled

/-- The relay with phase 0 in front returns a signal from the loop, but in the ring its first stage
goes on to wait for another one, which the second does not send. -/
theorem loop_and_ring_do_not_agree :
    ¬ ∀ (p : Pipeline) (phases : List Word) (fuel : Nat) (trial : Trial)
      (results : List StageResult) (result : Except PipelineError Word),
      p.runFeedback fuel phases = some trial → p.Concludes phases results result →
      ∀ value, result = .ok value ↔ trial.result = .ok value := by
  intro agree
  obtain ⟨trial, ran, signal⟩ := Option.map_eq_some_iff.mp relay_signal
  obtain ⟨⟨visits, results⟩, ended, rfl⟩ := Option.map_eq_some_iff.mp relay_results
  obtain ⟨order, t, steps, done⟩ := Ring.steps_of_runFor ended
  have ends : relay.Concludes [0, 1] [.error (.inputClosed 0), .ok (some 0)]
      (.error (.inputClosed 0)) := .collected rfl steps done
  cases (agree relay [0, 1] 30 trial _ _ ran ends 0).mpr signal

end Pipeline

end Intcode
