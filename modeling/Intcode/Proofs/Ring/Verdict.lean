import Intcode.Proofs.Ring.Collect
import Intcode.Proofs.Ring.Schedules

/-!
# The verdict on a ring

What comes of the results of the stages is set out here stage by stage. A failure of a machine or of
its task counts most, whatever the stages before it did otherwise; then a closed input. Of each kind
the first one counts. Only where all stages halted does an output matter, and then only the last one
of the last stage.
-/

namespace Intcode

/-- A failure that is not for lack of input. -/
def StageResult.Fails (result : StageResult) (e : PipelineError) : Prop :=
  result = .error e ∧ ∀ stage, e ≠ .inputClosed stage

def StageResult.Closes (result : StageResult) : Prop :=
  ∃ stage, result = .error (.inputClosed stage)

def StageResult.Halts (result : StageResult) : Prop :=
  ∃ last, result = .ok last

namespace StageResult

theorem failure?_eq_some_iff {result : StageResult} {e : PipelineError} :
    result.failure? = some e ↔ result.Fails e := by
  unfold Fails
  cases result with
  | ok last => simp [failure?]
  | error cause =>
    cases cause with
    | inputClosed stage =>
      constructor
      · intro h
        cases h
      · rintro ⟨same, other⟩
        cases same
        exact absurd rfl (other stage)
    | misconfigured | machine | noOutput | stalled | taskFailed | trialFailed =>
      constructor
      · intro h
        cases h
        refine ⟨rfl, fun stage same => ?_⟩
        cases same
      · rintro ⟨same, -⟩
        cases same
        rfl

theorem failure?_eq_none_iff {result : StageResult} :
    result.failure? = none ↔ ∀ e, ¬ result.Fails e := by
  simp only [Option.eq_none_iff_forall_ne_some, ne_eq, failure?_eq_some_iff]

theorem isClosed_iff {result : StageResult} : result.isClosed = true ↔ result.Closes := by
  constructor
  · intro h
    unfold isClosed at h
    split at h
    · exact ⟨_, rfl⟩
    · cases h
  · rintro ⟨stage, rfl⟩
    rfl

theorem halts_iff {result : StageResult} :
    result.Halts ↔ (∀ e, ¬ result.Fails e) ∧ ¬ result.Closes := by
  rw [← failure?_eq_none_iff, ← isClosed_iff, Bool.not_eq_true]
  constructor
  · rintro ⟨last, rfl⟩
    exact ⟨rfl, rfl⟩
  · rintro ⟨unfailed, unclosed⟩
    exact eq_ok unfailed unclosed

end StageResult

namespace Ring

/-- What comes of the results of all stages. A closed input is reported for the stage in whose place
it stands. -/
inductive Verdict (results : List StageResult) : Except PipelineError Word → Prop where
  | failed {before after : List StageResult} {result : StageResult} {e : PipelineError}
      (split : results = before ++ result :: after) (fails : result.Fails e)
      (unfailed : ∀ earlier ∈ before, ∀ cause, ¬ earlier.Fails cause) : Verdict results (.error e)
  | closed {before after : List StageResult} {result : StageResult}
      (split : results = before ++ result :: after) (closes : result.Closes)
      (unfailed : ∀ any ∈ results, ∀ cause, ¬ any.Fails cause)
      (halted : ∀ earlier ∈ before, earlier.Halts) :
      Verdict results (.error (.inputClosed before.length))
  | signalled {before : List StageResult} {value : Word}
      (split : results = before ++ [.ok (some value)])
      (halted : ∀ earlier ∈ before, earlier.Halts) : Verdict results (.ok value)
  | silent {before : List StageResult} (split : results = before ++ [.ok none])
      (halted : ∀ earlier ∈ before, earlier.Halts) :
      Verdict results (.error (.noOutput before.length))

variable {results before after : List StageResult}

/-! ## The first that did not halt -/

theorem first_failure_eq_some_iff {e : PipelineError} :
    results.findSome? StageResult.failure? = some e ↔
      ∃ before result after, results = before ++ result :: after ∧ result.Fails e ∧
        ∀ earlier ∈ before, ∀ cause, ¬ earlier.Fails cause := by
  simp only [List.findSome?_eq_some_iff, StageResult.failure?_eq_some_iff,
    StageResult.failure?_eq_none_iff]

theorem first_failure_eq_none_iff :
    results.findSome? StageResult.failure? = none ↔
      ∀ any ∈ results, ∀ cause, ¬ any.Fails cause := by
  simp only [List.findSome?_eq_none_iff, StageResult.failure?_eq_none_iff]

theorem first_closure_of_halted (halted : ∀ any ∈ results, any.Halts) :
    results.findIdx? StageResult.isClosed = none := by
  rw [List.findIdx?_eq_none_iff]
  intro any inside
  obtain ⟨last, rfl⟩ := halted any inside
  rfl

/-! ## The verdict and the result -/

/-- Any stages have a verdict on their results. -/
theorem exists_verdict (staffed : results ≠ []) : ∃ result, Verdict results result := by
  cases failure : results.findSome? StageResult.failure? with
  | some e =>
    obtain ⟨before, result, after, split, fails, unfailed⟩ := first_failure_eq_some_iff.mp failure
    exact ⟨.error e, .failed split fails unfailed⟩
  | none =>
    have unfailed := first_failure_eq_none_iff.mp failure
    cases closure : results.find? StageResult.isClosed with
    | some result =>
      obtain ⟨closes, before, after, split, unclosed⟩ :=
        List.find?_eq_some_iff_append.mp closure
      refine ⟨_, .closed split (StageResult.isClosed_iff.mp closes) unfailed ?_⟩
      intro earlier inside
      have not_closed := unclosed earlier inside
      rw [Bool.not_eq_true', ← Bool.not_eq_true, StageResult.isClosed_iff] at not_closed
      exact StageResult.halts_iff.mpr ⟨unfailed earlier (by simp [split, inside]), not_closed⟩
    | none =>
      have halted : ∀ any ∈ results, any.Halts := fun any inside => StageResult.halts_iff.mpr
        ⟨unfailed any inside, fun closes =>
          List.find?_eq_none.mp closure any inside (StageResult.isClosed_iff.mpr closes)⟩
      obtain ⟨before, final, split⟩ := (List.eq_nil_or_concat results).resolve_left staffed
      rw [List.concat_eq_append] at split
      obtain ⟨last, rfl⟩ := halted final (by simp [split])
      have earlier : ∀ result ∈ before, result.Halts := fun result inside =>
        halted result (by simp [split, inside])
      cases last with
      | none => exact ⟨_, .silent split earlier⟩
      | some value => exact ⟨_, .signalled split earlier⟩

/-- Where nothing failed for another reason, the first stage that has not halted decides. -/
theorem collect_of_closed {result : StageResult}
    (unfailed : ∀ any ∈ before ++ result :: after, ∀ cause, ¬ any.Fails cause)
    (closes : result.Closes) (halted : ∀ earlier ∈ before, earlier.Halts) :
    collect (before ++ result :: after) = .error (.inputClosed before.length) := by
  have closure : (before ++ result :: after).findIdx? StageResult.isClosed =
      some before.length := by
    rw [List.findIdx?_append, first_closure_of_halted halted, List.findIdx?_cons,
      StageResult.isClosed_iff.mpr closes]
    simp
  rw [collect_eq, first_failure_eq_none_iff.mpr unfailed, closure]

/-- Where all stages halted, the output of the last one decides. -/
theorem collect_of_halted {last : Option Word} (halted : ∀ earlier ∈ before, earlier.Halts) :
    collect (before ++ [.ok last]) =
      match last with
      | some value => .ok value
      | none => .error (.noOutput before.length) := by
  have all_halted : ∀ any ∈ before ++ [.ok last], StageResult.Halts any := by
    intro any inside
    rcases List.mem_append.mp inside with earlier | final
    · exact halted any earlier
    · exact ⟨last, List.mem_singleton.mp final⟩
  have unfailed := first_failure_eq_none_iff.mpr fun any inside =>
    (StageResult.halts_iff.mp (all_halted any inside)).1
  rw [collect_eq, unfailed, first_closure_of_halted all_halted]
  cases last <;> simp [StageResult.output?]

theorem collect_of_verdict {result : Except PipelineError Word}
    (verdict : Verdict results result) : collect results = result := by
  cases verdict with
  | failed split fails unfailed =>
    rw [collect_eq, first_failure_eq_some_iff.mpr ⟨_, _, _, split, fails, unfailed⟩]
  | closed split closes unfailed halted =>
    subst split
    exact collect_of_closed unfailed closes halted
  | signalled split halted =>
    subst split
    exact collect_of_halted halted
  | silent split halted =>
    subst split
    exact collect_of_halted halted

theorem collect_eq_iff_verdict (staffed : results ≠ []) {result : Except PipelineError Word} :
    collect results = result ↔ Verdict results result := by
  constructor
  · intro collected
    obtain ⟨other, verdict⟩ := exists_verdict staffed
    rw [← collected, collect_of_verdict verdict]
    exact verdict
  · exact collect_of_verdict

/-! ## The outputs that count -/

/-- Of the outputs, only the one of the last stage counts. -/
theorem collect_eq_of_same {others : List StageResult}
    (failures : results.map StageResult.failure? = others.map StageResult.failure?)
    (closures : results.map StageResult.isClosed = others.map StageResult.isClosed)
    (final : results.getLast? = others.getLast?) : collect results = collect others := by
  have first_failure : ∀ stages : List StageResult, stages.findSome? StageResult.failure? =
      (stages.map StageResult.failure?).findSome? id := fun stages => by
    rw [List.findSome?_map, Function.id_comp]
  have first_closure : ∀ stages : List StageResult, stages.findIdx? StageResult.isClosed =
      (stages.map StageResult.isClosed).findIdx? id := fun stages => by
    rw [List.findIdx?_map, Function.id_comp]
  have count : results.length = others.length := by
    simpa using congrArg List.length failures
  rw [collect_eq, collect_eq, first_failure, first_failure others, first_closure,
    first_closure others, failures, closures, final, count]

theorem map_set_eq {α β : Type} {f : α → β} {items : List α} {i : Nat} {item other : α}
    (here : items[i]? = some item) (same : f other = f item) :
    (items.set i other).map f = items.map f := by
  obtain ⟨inside, rfl⟩ := List.getElem?_eq_some_iff.mp here
  rw [List.map_set, same, ← List.getElem_map f, List.set_getElem_self]
  simpa using inside

theorem collect_set_of_lt {i : Nat} {last other : Option Word}
    (earlier : i + 1 < results.length) (here : results[i]? = some (.ok last)) :
    collect (results.set i (.ok other)) = collect results := by
  have final : (results.set i (.ok other)).getLast? = results.getLast? := by
    rw [List.getLast?_eq_getElem?, List.getLast?_eq_getElem?, List.length_set,
      List.getElem?_set_ne (by omega)]
  exact collect_eq_of_same (map_set_eq here rfl) (map_set_eq here rfl) final

end Ring

namespace Pipeline

theorem size_ring (p : Pipeline) (phases : List Word) : (p.ring phases).size = phases.length := by
  simp [Ring.size, ring]

/-- Each phase gets a stage, and the run comes to the verdict on their results. -/
theorem runConcurrent_eq_of_runFor {p : Pipeline} {phases : List Word} {fuel : Nat}
    {visits : List Visit} {results : List StageResult} (valid : p.checkPhases phases = .ok ())
    (ran : (p.ring phases).runFor fuel fuel [] = some (visits, results)) :
    results.length = phases.length ∧
      p.runConcurrent fuel phases = some ⟨visits, Ring.collect results⟩ := by
  obtain ⟨order, t, steps, done⟩ := Ring.steps_of_runFor ran
  constructor
  · rw [Ring.length_of_results? done, steps.size, size_ring]
  · simp only [runConcurrent, valid, ran, Option.map_some]

/-- A concurrent run returns the verdict on the results of its stages: a failure of a machine or a
task before a closed input, of each the first, and without either what the last stage put out last.
So it returns a signal only where all stages halted, and what the other stages put out does not
matter. -/
theorem verdict_on_stages (results : List StageResult) (staffed : results ≠ []) :
    (∀ result, Ring.collect results = result ↔ Ring.Verdict results result) ∧
    (∀ value, Ring.collect results = .ok value → ∀ stage ∈ results, stage.Halts) ∧
    (∀ i last other, i + 1 < results.length → results[i]? = some (.ok last) →
      Ring.collect (results.set i (.ok other)) = Ring.collect results) ∧
    ∀ (p : Pipeline) (phases : List Word) (fuel : Nat) (visits : List Visit),
      p.checkPhases phases = .ok () →
      (p.ring phases).runFor fuel fuel [] = some (visits, results) →
      results.length = phases.length ∧ ∃ result, Ring.Verdict results result ∧
        p.runConcurrent fuel phases = some ⟨visits, result⟩ := by
  refine ⟨fun result => Ring.collect_eq_iff_verdict staffed,
    fun value signalled => (Ring.collect_eq_ok_iff.mp signalled).1,
    fun i last other => Ring.collect_set_of_lt, fun p phases fuel visits valid ran => ?_⟩
  obtain ⟨count, returned⟩ := runConcurrent_eq_of_runFor valid ran
  exact ⟨count, _, (Ring.collect_eq_iff_verdict staffed).mp rfl, returned⟩

/-- Two stages closed, two failed and one halted; then two of which one closed and the last one put
out a signal, as they end in a run. -/
theorem verdict_on_stages_mixed :
    let mixed : List StageResult := [.error (.inputClosed 0), .error (.taskFailed 1 "cancelled"),
      .error (.machine 2 ⟨.halted, 7⟩), .ok (some 5), .error (.inputClosed 4)]
    let closing : List StageResult := [.error (.inputClosed 0), .ok (some 0)]
    mixed ≠ [] ∧ closing ≠ [] ∧
      Ring.Verdict mixed (.error (.taskFailed 1 "cancelled")) ∧
      Ring.collect (mixed.set 3 (.ok none)) = .error (.taskFailed 1 "cancelled") ∧
      relay.checkPhases [0, 1] = .ok () ∧
      ∃ visits, relay.runConcurrent 30 [0, 1] = some ⟨visits, .error (.inputClosed 0)⟩ := by
  intro mixed closing
  obtain ⟨⟨visits, results⟩, ran, rfl⟩ := Option.map_eq_some_iff.mp relay_results
  obtain ⟨told, -, unmoved, -⟩ := verdict_on_stages mixed (by decide)
  obtain ⟨closed, -, -, returned⟩ := verdict_on_stages closing (by decide)
  obtain ⟨-, result, verdict, run⟩ := returned relay [0, 1] 30 visits rfl ran
  refine ⟨by decide, by decide, (told _).mp rfl, unmoved 3 (some 5) none (by decide) rfl, rfl,
    visits, ?_⟩
  rw [run, ← (closed result).mpr verdict]
  rfl

end Pipeline

end Intcode
