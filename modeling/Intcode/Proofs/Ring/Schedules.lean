import Intcode.Pipeline.Loop
import Intcode.Proofs.Ring.Confluence

/-!
# Schedules

Since steps commute, one order of steps that ends with all stages finished decides what every other
order comes to: it is no longer, it can only stop where all stages have finished, and each stage
finishes there as it did before. The schedule that the ring is run with is one of these orders, and
it ends, given enough fuel, whenever any of them does.
-/

namespace Intcode

namespace Ring

theorem results?_eq_some_iff {r : Ring} {results : List StageResult} :
    r.results? = some results ↔ r.stages.map Stage.result? = results.map some := by
  obtain ⟨stages⟩ := r
  unfold results?
  induction stages generalizing results with
  | nil => cases results <;> simp
  | cons s stages ih =>
    simp only at ih
    cases first : s.result? with
    | none => cases results <;> simp [first]
    | some result =>
      cases rest : stages.mapM Stage.result? with
      | none =>
        have never : ∀ others : List StageResult,
            ¬ stages.map Stage.result? = others.map some := fun others same => by
          simpa [rest] using ih.mpr same
        cases results <;> simp [first, rest, never]
      | some others =>
        cases results with
        | nil => simp [first, rest]
        | cons head tail => simp [first, rest, ← ih]

theorem getElem?_of_results? {r : Ring} {results : List StageResult}
    (done : r.results? = some results) {i : Nat} {s : Stage} (here : r.stages[i]? = some s) :
    results[i]? = s.result? := by
  have same := congrArg (fun stages => stages[i]?) (results?_eq_some_iff.mp done)
  simp only [List.getElem?_map, here, Option.map_some] at same
  cases found : results[i]? with
  | none => simp [found] at same
  | some result => simpa [found] using same.symm

theorem length_of_results? {r : Ring} {results : List StageResult}
    (done : r.results? = some results) : results.length = r.size := by
  simpa [size] using (congrArg List.length (results?_eq_some_iff.mp done)).symm

theorem isFinished_of_results? {r : Ring} {results : List StageResult}
    (done : r.results? = some results) {i : Nat} {s : Stage} (here : r.stages[i]? = some s) :
    s.isFinished = true := by
  have found := getElem?_of_results? done here
  have inside : i < results.length := by
    rw [length_of_results? done]
    exact lt_size_of_getElem? here
  rw [List.getElem?_eq_getElem inside] at found
  simp [Stage.isFinished, ← found]

/-- Once all stages have finished nothing moves. -/
theorem not_step_of_results? {r : Ring} {results : List StageResult}
    (done : r.results? = some results) (i : Nat) (u : Ring) : ¬ Step i r u := by
  intro step
  obtain ⟨s, after, sent, here, acts, _⟩ := step_iff.mp step
  have finished := isFinished_of_results? done here
  rw [acts.unfinished] at finished
  cases finished

theorem exists_steps_of_path {path : Nat → Ring}
    (goes : ∀ n, ∃ i, Step i (path n) (path (n + 1))) (n : Nat) :
    ∃ order : List Nat, order.length = n ∧ Steps order (path 0) (path n) := by
  induction n with
  | zero => exact ⟨[], rfl, .done _⟩
  | succ n ih =>
    obtain ⟨order, count, steps⟩ := ih
    obtain ⟨i, step⟩ := goes n
    exact ⟨order ++ [i], by simp [count], steps.append (.single step)⟩

theorem advance_of_firstMove {fuel : Nat} {r : Ring} {i : Nat} {move : Move}
    (h : r.firstMove fuel = some (i, move)) : r.advance fuel i = some move := by
  obtain ⟨k, _, found⟩ := List.exists_of_findSome?_eq_some h
  obtain ⟨made, advanced, same⟩ := Option.map_eq_some_iff.mp found
  cases same
  exact advanced

theorem firstMove_isSome {fuel : Nat} {r : Ring} {i : Nat} {move : Move}
    (h : r.advance fuel i = some move) : ∃ k made, r.firstMove fuel = some (k, made) := by
  have inside : i < r.size := by
    obtain ⟨s, _, _, here, _⟩ := step_iff.mp ⟨fuel, move, h, rfl⟩
    exact lt_size_of_getElem? here
  have found : (r.firstMove fuel).isSome := by
    rw [firstMove, List.findSome?_isSome_iff]
    exact ⟨i, List.mem_range.mpr inside, by simp [h]⟩
  obtain ⟨⟨k, made⟩, same⟩ := Option.isSome_iff_exists.mp found
  exact ⟨k, made, same⟩

/-- A run of the ring makes steps in some order, until all stages have finished. -/
theorem steps_of_runFor {fuel moves : Nat} {r : Ring} {visits all : List Visit}
    {results : List StageResult} (h : runFor fuel moves r visits = some (all, results)) :
    ∃ order t, Steps order r t ∧ t.results? = some results := by
  induction moves generalizing r visits with
  | zero => cases h
  | succ moves ih =>
    simp only [runFor] at h
    split at h
    · next done =>
      cases h
      exact ⟨[], r, .done r, done⟩
    · split at h
      · cases h
      · next i next first =>
        obtain ⟨order, t, steps, done⟩ := ih h
        exact ⟨i :: order, t, .move ⟨fuel, _, advance_of_firstMove first, rfl⟩ steps, done⟩
      · next i next suspension first =>
        obtain ⟨order, t, steps, done⟩ := ih h
        exact ⟨i :: order, t, .move ⟨fuel, _, advance_of_firstMove first, rfl⟩ steps, done⟩

/-- Bounds that can be raised can be made the same for finitely many indexes. -/
theorem exists_common_bound {Holds : Nat → Nat → Prop}
    (mono : ∀ i a b, a ≤ b → Holds i a → Holds i b) (each : ∀ i, ∃ a, Holds i a) (n : Nat) :
    ∃ a, ∀ i < n, Holds i a := by
  induction n with
  | zero => exact ⟨0, fun i h => absurd h (Nat.not_lt_zero i)⟩
  | succ n ih =>
    obtain ⟨a, below⟩ := ih
    obtain ⟨b, last⟩ := each n
    refine ⟨max a b, fun i h => ?_⟩
    by_cases same : i = n
    · rw [same]
      exact mono _ _ _ (Nat.le_max_right a b) last
    · exact mono _ _ _ (Nat.le_max_left a b) (below i (by omega))

/-- Where a step can be made, the schedule makes one as soon as the fuel does for it. -/
theorem firstMove_of_step {i : Nat} {r t : Ring} (step : Step i r t) :
    ∃ least, ∀ fuel, least ≤ fuel →
      ∃ k move, r.firstMove fuel = some (k, move) ∧ k < r.size ∧ Step k r move.ring := by
  obtain ⟨least, move, advanced, rfl⟩ := step
  refine ⟨least, fun fuel high => ?_⟩
  obtain ⟨k, made, first⟩ := firstMove_isSome (advance_mono high advanced)
  have made_step : Step k r made.ring := ⟨fuel, made, advance_of_firstMove first, rfl⟩
  obtain ⟨s, _, _, here, _⟩ := step_iff.mp made_step
  exact ⟨k, made, first, lt_size_of_getElem? here, made_step⟩

theorem results?_of_step {i : Nat} {r t : Ring} (step : Step i r t) : r.results? = none := by
  cases finished : r.results? with
  | none => rfl
  | some results => exact absurd step (not_step_of_results? finished i t)

/-- With this much fuel, runs of more than so many moves come to these results. -/
def Returns (r : Ring) (enough count : Nat) (results : List StageResult) : Prop :=
  ∀ fuel, enough ≤ fuel → ∀ moves, count < moves → ∀ visits,
    ∃ all, runFor fuel moves r visits = some (all, results)

theorem Returns.mono {r : Ring} {enough more count : Nat} {results : List StageResult}
    (le : enough ≤ more) (returns : r.Returns enough count results) :
    r.Returns more count results :=
  fun fuel high => returns fuel (Nat.le_trans le high)

theorem returns_of_results? {r : Ring} {results : List StageResult}
    (done : r.results? = some results) : r.Returns 0 0 results := by
  intro fuel _ moves more visits
  obtain ⟨moves, rfl⟩ : ∃ k, moves = k + 1 := ⟨moves - 1, by omega⟩
  exact ⟨visits.reverse, by simp only [runFor, done]⟩

/-- It takes one move more from where a step can be made, if every step leads to a ring that comes
to the results. -/
theorem returns_of_step {i : Nat} {r t : Ring} {enough count : Nat} {results : List StageResult}
    (step : Step i r t)
    (returns : ∀ k < r.size, ∀ s, Step k r s → s.Returns enough count results) :
    ∃ least, r.Returns (max enough least) (count + 1) results := by
  obtain ⟨least, moves_on⟩ := firstMove_of_step step
  refine ⟨least, fun fuel high moves more visits => ?_⟩
  obtain ⟨moves, rfl⟩ : ∃ k, moves = k + 1 := ⟨moves - 1, by omega⟩
  obtain ⟨k, ⟨next, suspension⟩, first, inside, made⟩ := moves_on fuel (by omega)
  have rest := returns k inside next made fuel (by omega) moves (by omega)
  cases suspension with
  | none =>
    simp only [runFor, results?_of_step step, first]
    exact rest visits
  | some suspension =>
    simp only [runFor, results?_of_step step, first]
    exact rest _

/-- The schedule that the ring is run with comes to the end that some order of steps has. The fuel
has to do for every ring on the way, and the schedule may itself depend on the fuel. -/
theorem returns_of_steps {order : List Nat} {r t : Ring} {results : List StageResult}
    (steps : Steps order r t) (done : t.results? = some results) :
    ∃ enough, r.Returns enough order.length results := by
  have still := not_step_of_results? done
  induction count : order.length generalizing order r with
  | zero =>
    cases List.length_eq_zero_iff.mp count
    cases steps
    exact ⟨0, returns_of_results? done⟩
  | succ n ih =>
    cases steps with
    | done => cases count
    | move step left =>
      have each : ∀ j, ∃ enough, ∀ s, Step j r s → s.Returns enough n results := by
        intro j
        by_cases able : ∃ s, Step j r s
        · obtain ⟨s, made⟩ := able
          obtain ⟨order, joined, shorter⟩ := (Steps.move step left).shortens still made
          obtain ⟨enough, returns⟩ := ih joined (by omega)
          exact ⟨enough, fun s' made' => made.unique made' ▸ returns⟩
        · exact ⟨0, fun s made => absurd ⟨s, made⟩ able⟩
      obtain ⟨enough, returns⟩ := exists_common_bound
        (fun _ a b le returns s made => (returns s made).mono le) each r.size
      obtain ⟨least, done⟩ := returns_of_step step returns
      exact ⟨max enough least, done⟩

end Ring

namespace Pipeline

/-- The ways in which concurrent runs can end, over all orders of steps: with results of the stages
and what comes of them. Phases that do not fit are rejected before there is a ring. -/
inductive Concludes (p : Pipeline) (phases : List Word) :
    List StageResult → Except PipelineError Word → Prop where
  | rejected {e : Misconfiguration} (invalid : p.checkPhases phases = .error e) :
      Concludes p phases [] (.error (.misconfigured e))
  | collected {order : List Nat} {t : Ring} {results : List StageResult}
      (valid : p.checkPhases phases = .ok ()) (steps : Ring.Steps order (p.ring phases) t)
      (done : t.results? = some results) : Concludes p phases results (Ring.collect results)

/-- What a concurrent run returns is the end of some order of steps. -/
theorem concludes_of_runConcurrent {p : Pipeline} {phases : List Word} {fuel : Nat} {trial : Trial}
    (h : p.runConcurrent fuel phases = some trial) :
    ∃ results, p.Concludes phases results trial.result := by
  rw [runConcurrent] at h
  split at h
  · next invalid =>
    cases h
    exact ⟨[], .rejected invalid⟩
  · next valid =>
    obtain ⟨⟨visits, results⟩, ran, same⟩ := Option.map_eq_some_iff.mp h
    obtain ⟨order, t, steps, done⟩ := Ring.steps_of_runFor ran
    cases same
    exact ⟨results, .collected valid steps done⟩

/-- Where some order of steps ends with all stages finished, so do all concurrent runs with enough
fuel. More fuel may change their visits, but not their result. -/
theorem runConcurrent_returns {p : Pipeline} {phases : List Word} {results : List StageResult}
    {result : Except PipelineError Word} (h : p.Concludes phases results result) :
    ∃ least, ∀ fuel, least ≤ fuel →
      ∃ trial, p.runConcurrent fuel phases = some trial ∧ trial.result = result := by
  cases h with
  | @rejected e invalid =>
    refine ⟨0, fun fuel _ => ⟨⟨[], .error (.misconfigured e)⟩, ?_, rfl⟩⟩
    simp only [runConcurrent, invalid]
  | @collected order t _ valid steps done =>
    obtain ⟨enough, returns⟩ := Ring.returns_of_steps steps done
    refine ⟨max enough (order.length + 1), fun fuel high => ?_⟩
    obtain ⟨all, ran⟩ := returns fuel (by omega) fuel (by omega) []
    refine ⟨⟨all, Ring.collect results⟩, ?_, rfl⟩
    simp only [runConcurrent, valid, ran, Option.map_some]

theorem runConcurrent_of_concludes {p : Pipeline} {phases : List Word}
    {results : List StageResult} {result : Except PipelineError Word}
    (h : p.Concludes phases results result) :
    ∃ fuel trial, p.runConcurrent fuel phases = some trial ∧ trial.result = result := by
  obtain ⟨least, returns⟩ := runConcurrent_returns h
  exact ⟨least, returns least (Nat.le_refl least)⟩

/-- All orders of steps that end do so with the same results. -/
theorem Concludes.unique {p : Pipeline} {phases : List Word} {results others : List StageResult}
    {result other : Except PipelineError Word} (one : p.Concludes phases results result)
    (two : p.Concludes phases others other) : others = results ∧ other = result := by
  cases one with
  | rejected invalid =>
    cases two with
    | rejected again =>
      cases invalid.symm.trans again
      exact ⟨rfl, rfl⟩
    | collected valid => cases invalid.symm.trans valid
  | collected valid steps done =>
    cases two with
    | rejected invalid => cases valid.symm.trans invalid
    | collected _ made finished =>
      obtain ⟨rest, joined, _⟩ := steps.reaches (Ring.not_step_of_results? done) made
      cases joined with
      | done =>
        cases done.symm.trans finished
        exact ⟨rfl, rfl⟩
      | move step _ => exact absurd step (Ring.not_step_of_results? finished _ _)

/-- If one order of steps ends with all stages finished, there is no endless one, none is longer,
each one that stops has finished all stages with the same results, and so every concurrent run
returns the same; one does return. -/
theorem schedules_agree {p : Pipeline} {phases : List Word} {order : List Nat} {t : Ring}
    {results : List StageResult} (valid : p.checkPhases phases = .ok ())
    (steps : Ring.Steps order (p.ring phases) t) (done : t.results? = some results) :
    (∀ path : Nat → Ring, path 0 = p.ring phases →
      ¬ ∀ n, ∃ i, Ring.Step i (path n) (path (n + 1))) ∧
    (∀ other s, Ring.Steps other (p.ring phases) s → other.length ≤ order.length ∧
      ((∀ i u, ¬ Ring.Step i s u) → s.results? = some results)) ∧
    (∀ others result, p.Concludes phases others result →
      others = results ∧ result = Ring.collect results) ∧
    ∃ fuel trial, p.runConcurrent fuel phases = some trial ∧
      trial.result = Ring.collect results := by
  have still := Ring.not_step_of_results? done
  have concluded : p.Concludes phases results (Ring.collect results) :=
    .collected valid steps done
  refine ⟨?_, ?_, fun others result ends => concluded.unique ends,
    runConcurrent_of_concludes concluded⟩
  · intro path start goes
    obtain ⟨long, count, made⟩ := Ring.exists_steps_of_path goes (order.length + 1)
    rw [start] at made
    obtain ⟨rest, _, total⟩ := steps.reaches still made
    omega
  · intro other s made
    obtain ⟨rest, joined, total⟩ := steps.reaches still made
    refine ⟨by omega, fun stopped => ?_⟩
    cases joined with
    | done => exact done
    | move step _ => exact absurd step (stopped _ _)

/-- Two stages that pass on signals. The one with phase 0 waits for another signal after each that
it passes on, the other one halts after its first. -/
def relay : Pipeline :=
  { program := ⟨#[3, 30, 3, 31, 4, 31, 1006, 30, 2, 99]⟩, stages := 2 }

theorem relay_results : ((relay.ring [0, 1]).runFor 30 30 []).map Prod.snd =
    some [.error (.inputClosed 0), .ok (some 0)] := by
  decide +kernel

theorem relay_signal : (relay.runFeedback 30 [0, 1]).map Trial.result = some (.ok 0) := by
  decide +kernel

theorem schedules_agree_relay :
    relay.checkPhases [0, 1] = .ok () ∧ ∃ order t,
      Ring.Steps order (relay.ring [0, 1]) t ∧
      t.results? = some [.error (.inputClosed 0), .ok (some 0)] ∧
      (∀ other s, Ring.Steps other (relay.ring [0, 1]) s → other.length ≤ order.length) ∧
      ∀ others result, relay.Concludes [0, 1] others result →
        others = [.error (.inputClosed 0), .ok (some 0)] ∧ result = .error (.inputClosed 0) := by
  have valid : relay.checkPhases [0, 1] = .ok () := rfl
  obtain ⟨⟨visits, results⟩, ran, rfl⟩ := Option.map_eq_some_iff.mp relay_results
  obtain ⟨order, t, steps, done⟩ := Ring.steps_of_runFor ran
  obtain ⟨_, bounded, same, _⟩ := schedules_agree valid steps done
  exact ⟨valid, order, t, steps, done, fun other s made => (bounded other s made).1, same⟩

end Pipeline

end Intcode
