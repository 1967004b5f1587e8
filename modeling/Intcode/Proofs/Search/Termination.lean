import Intcode.NounVerb
import Intcode.Proofs.Loop.Termination
import Intcode.Proofs.Ring.Termination
import Intcode.Proofs.Search.Validation

/-!
# Termination of searches

A search tries finitely many orderings or pairs, so it comes to an end if each trial does. With a
limit on the machines they all do, however the stages are driven.
-/

namespace Intcode

namespace Pipeline

variable {p : Pipeline} {bound fuel : Nat}

theorem chainFrom_returns (limited : p.limit = some bound) (enough : bound < fuel)
    (phases : List Word) (stage : Nat) (signal : Word) (visits : List Visit) :
    ∃ trial, chainFrom fuel p stage signal phases visits = some trial := by
  induction phases generalizing stage signal visits with
  | nil => exact ⟨_, rfl⟩
  | cons phase phases ih =>
    have same : ((p.primed phase).feed signal).budget.limit = some bound := limited
    obtain ⟨e | outcome, m, ran⟩ := Machine.run_returns same enough
    · rw [chainFrom, ran]
      exact ⟨_, rfl⟩
    · rw [chainFrom, ran]
      cases outcome with
      | output value => exact ih (stage + 1) value _
      | halted | awaitingInput => exact ⟨_, rfl⟩

theorem runLinear_returns (limited : p.limit = some bound) (enough : bound < fuel)
    (phases : List Word) : ∃ trial, p.runLinear fuel phases = some trial := by
  rw [runLinear]
  cases p.checkPhases phases with
  | error e => exact ⟨_, rfl⟩
  | ok valid => exact chainFrom_returns limited enough phases 0 0 []

theorem loop_returns (limited : p.limit = some bound) (enough : bound < fuel)
    {phases : List Word} (valid : p.checkPhases phases = .ok ()) :
    ∃ trial, (p.loop phases).runFor fuel (p.stages * (bound + 1)) = some trial := by
  have bounded := loop_bounded limited (ne_nil_of_checkPhases valid)
  rw [(checkPhases_eq_ok_iff.mp valid).count] at bounded
  exact bounded.runFor enough

/-- The loop makes so many visits at most for each of its stages. -/
theorem runFeedback_returns (limited : p.limit = some bound)
    (enough : p.stages * (bound + 1) ≤ fuel) (phases : List Word) :
    ∃ trial, p.runFeedback fuel phases = some trial ∧
      trial.visits.length ≤ p.stages * (bound + 1) := by
  rw [runFeedback]
  cases valid : p.checkPhases phases with
  | error e => exact ⟨_, rfl, Nat.zero_le _⟩
  | ok =>
    have high : bound < fuel := by
      have some_stage := (checkPhases_eq_ok_iff.mp valid).staffed
      have round : bound + 1 ≤ p.stages * (bound + 1) := Nat.le_mul_of_pos_left _ some_stage
      omega
    obtain ⟨trial, ran⟩ := loop_returns limited high valid
    have short := Loop.length_visits_runFor ran
    rw [show (p.loop phases).visits = [] from rfl, List.length_nil, Nat.zero_add] at short
    exact ⟨trial, Loop.runFor_mono (Nat.le_refl fuel) enough ran, short⟩

theorem exists_answers (limited : p.limit = some bound) (wiring : Wiring) (phases : List Word) :
    ∃ result, p.Answers (.ofWiring wiring) phases result := by
  cases wiring with
  | linear =>
    obtain ⟨trial, ran⟩ := runLinear_returns limited (Nat.lt_succ_self bound) phases
    exact ⟨trial.result, bound + 1, trial, ran, rfl⟩
  | feedback =>
    obtain ⟨trial, ran, -⟩ := runFeedback_returns limited (Nat.le_refl _) phases
    exact ⟨trial.result, _, trial, ran, rfl⟩

theorem search_returns (limited : p.limit = some bound) (wiring : Wiring)
    (candidates : WordRange) : ∃ result, p.Searches (.ofWiring wiring) candidates result := by
  cases accepted : p.checkCandidates candidates with
  | error e =>
    refine ⟨.error (.misconfigured e), 0, ?_⟩
    simp only [search, searchObserved, accepted, Option.map_some]
  | ok => exact exists_searches accepted fun q _ => exists_answers limited wiring q

end Pipeline

namespace WordRange

variable {ε : Type u} {α : Type v} {σ : Type w}
  {f : Word → σ → Option (Except ε (Option α) × σ)}

theorem searchFrom_returns (returns : ∀ w seen, ∃ out, f w seen = some out) (count : Nat)
    (w : Word) (seen : σ) : ∃ out, searchFrom f count w seen = some out := by
  induction count generalizing w seen with
  | zero => exact ⟨_, rfl⟩
  | succ count ih =>
    obtain ⟨⟨result, later⟩, tried⟩ := returns w seen
    rw [searchFrom, tried]
    rcases result with e | _ | answer
    · exact ⟨_, rfl⟩
    · exact ih (w + 1) later
    · exact ⟨_, rfl⟩

/-- A search over a range returns if every trial does. -/
theorem search_returns (r : WordRange) (returns : ∀ w seen, ∃ out, f w seen = some out)
    (seen : σ) : ∃ out, r.search f seen = some out :=
  searchFrom_returns returns r.size r.lo seen

end WordRange

namespace NounVerb

variable {p : Program} {limit : Option Nat} {pair : NounVerb} {m : Machine} {bound fuel : Nat}

theorem limit_of_prepare (prepared : pair.prepare p limit = .ok m) : m.budget.limit = limit := by
  have kept : ∀ {before after : Machine} {address value : Word},
      before.poke address value = .ok after → after.budget = before.budget := by
    intro before after address value poked
    simp only [Machine.poke] at poked
    split at poked <;> cases poked
    rfl
  rw [prepare] at prepared
  split at prepared
  · cases prepared
  · next mid first => rw [kept prepared, kept first, Machine.load]

theorem attempt_returns {σ : Type u} (observe : σ → Machine.Course → σ) (enough : bound < fuel)
    (target : Word) (pair : NounVerb) (seen : σ) :
    ∃ out, attempt observe fuel p (some bound) target pair seen = some out := by
  rw [attempt]
  cases prepared : pair.prepare p (some bound) with
  | error e => exact ⟨_, rfl⟩
  | ok m =>
    obtain ⟨course, followed⟩ := Machine.follow_returns (limit_of_prepare prepared) enough
    simp only [followed]
    cases answerOf course <;> exact ⟨_, rfl⟩

theorem search_returns (enough : bound < fuel) (target : Word) (range : WordRange) :
    ∃ result, search fuel p target range (some bound) = some result := by
  obtain ⟨out, found⟩ := range.search_returns
    (fun noun => range.search_returns fun verb =>
      attempt_returns (p := p) (fun (_ : Unit) _ => ()) enough target ⟨noun, verb⟩) ()
  exact ⟨out.1, by rw [search, searchObserved, found, Option.map_some]⟩

end NounVerb

namespace Pipeline

/-- With a limit on its machines nothing that can be done with a pipeline, or with one machine,
goes on for ever. -/
theorem limit_terminates (p : Pipeline) (bound : Nat) (limited : p.limit = some bound) :
    (∀ m : Machine, m.budget.limit = some bound → ∀ fuel, bound < fuel →
      (∃ result after, m.run fuel = some (result, after)) ∧
      ∃ result after, m.runToHalt fuel = some (result, after) ∧
        ∀ outputs, result = .ok outputs → outputs.length ≤ bound) ∧
    (∀ phases fuel, bound < fuel → ∃ trial, p.runLinear fuel phases = some trial) ∧
    (∀ phases fuel, p.checkPhases phases = .ok () → bound < fuel →
      ∃ trial, (p.loop phases).runFor fuel (p.stages * (bound + 1)) = some trial) ∧
    (∀ phases fuel, p.stages * (bound + 1) ≤ fuel →
      ∃ trial, p.runFeedback fuel phases = some trial ∧
        trial.visits.length ≤ p.stages * (bound + 1)) ∧
    (∀ phases,
      (∀ order r, Ring.Steps order (p.ring phases) r →
        order.length ≤ phases.length * (3 * bound + 4) + 2) ∧
      ∀ path : Nat → Ring, path 0 = p.ring phases →
        ¬ ∀ n, ∃ i, Ring.Step i (path n) (path (n + 1))) ∧
    (∀ wiring candidates, ∃ result, p.Searches (.ofWiring wiring) candidates result) ∧
    ∀ target range fuel, bound < fuel →
      ∃ result, NounVerb.search fuel p.program target range (some bound) = some result := by
  refine ⟨?_, ?_, ?_, ?_, ?_, ?_, ?_⟩
  · intro m same fuel enough
    exact ⟨Machine.run_returns same enough, Machine.runToHalt_returns same enough⟩
  · intro phases fuel enough
    exact runLinear_returns limited enough phases
  · intro phases fuel valid enough
    exact loop_returns limited enough valid
  · intro phases fuel enough
    exact runFeedback_returns limited enough phases
  · intro phases
    exact ring_terminates limited phases
  · intro wiring candidates
    exact search_returns limited wiring candidates
  · intro target range fuel enough
    exact NounVerb.search_returns enough target range

/-- Jumps to where it is, for ever. -/
def spinning : Pipeline :=
  { program := ⟨#[1105, 1, 0]⟩, stages := 2, limit := some 7 }

theorem limit_terminates_spinning :
    spinning.limit = some 7 ∧ spinning.checkPhases [0, 1] = .ok () ∧
    (∃ result after, spinning.machine.run 8 = some (result, after)) ∧
    (∃ trial, spinning.runLinear 8 [0, 1] = some trial) ∧
    (∃ trial, (spinning.loop [0, 1]).runFor 8 16 = some trial) ∧
    (∃ trial, spinning.runFeedback 16 [0, 1] = some trial ∧ trial.visits.length ≤ 16) ∧
    (∀ order r, Ring.Steps order (spinning.ring [0, 1]) r → order.length ≤ 52) ∧
    (∃ result, spinning.Searches .feedback ⟨0, 1⟩ result) ∧
    ∃ result, NounVerb.search 8 spinning.program 5 ⟨0, 1⟩ (some 7) = some result := by
  have valid : spinning.checkPhases [0, 1] = .ok () := by decide
  obtain ⟨machine, linear, loop, feedback, ring, search, pairs⟩ :=
    limit_terminates spinning 7 rfl
  exact ⟨rfl, valid, (machine spinning.machine rfl 8 (by decide)).1,
    linear [0, 1] 8 (by decide), loop [0, 1] 8 valid (by decide),
    feedback [0, 1] 16 (by decide), (ring [0, 1]).1, search .feedback ⟨0, 1⟩,
    pairs 5 ⟨0, 1⟩ 8 (by decide)⟩

end Pipeline

end Intcode
