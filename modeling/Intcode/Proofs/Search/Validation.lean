import Mathlib.Algebra.Group.Nat.Defs
import Intcode.Proofs.Chain.Composition
import Intcode.Proofs.Ring.Agreement
import Intcode.Proofs.Search.Optimal

/-!
# Phases and candidates agree

Phases are checked one by one, candidates only by their number and their ends. The two checks
accept the same: candidates are accepted if and only if all their orderings are. So a search is
misconfigured before its first trial or not at all. With phases that were accepted, a pipeline can
only fail in a stage.
-/

namespace Intcode

/-- The stage that an error is about, if it is about one. -/
def PipelineError.stage? : PipelineError → Option Nat
  | machine stage _ | noOutput stage | stalled stage | inputClosed stage | taskFailed stage _ =>
    some stage
  | misconfigured _ | trialFailed _ _ => none

/-- Every failure is one of a stage. -/
def FailsInStage (result : Except PipelineError Word) : Prop :=
  ∀ e, result = .error e → ∃ stage, e.stage? = some stage

theorem failsInStage_ok (signal : Word) : FailsInStage (.ok signal) := by
  intro e failed
  cases failed

theorem failsInStage_error {e : PipelineError} {stage : Nat} (named : e.stage? = some stage) :
    FailsInStage (.error e) := by
  intro other same
  cases same
  exact ⟨stage, named⟩

namespace Pipeline

/-- The range of allowed phases, if there is one, holds this phase. -/
def Permits (p : Pipeline) (phase : Word) : Prop :=
  ∀ range, p.allowed = some range → range.lo ≤ phase ∧ phase ≤ range.hi

/-- Phases of the right number, pairwise different and all allowed. -/
structure Assignable (p : Pipeline) (phases : List Word) : Prop where
  staffed : 1 ≤ p.stages
  count : phases.length = p.stages
  distinct : phases.Nodup
  permitted : ∀ phase ∈ phases, p.Permits phase

variable {p : Pipeline} {phases : List Word} {candidates : WordRange}

theorem checkPhasesFrom_cons (seen : List Word) (phase : Word) (phases : List Word) :
    p.checkPhasesFrom seen (phase :: phases) = .ok () ↔
      phase ∉ seen ∧ p.Permits phase ∧ p.checkPhasesFrom (phase :: seen) phases = .ok () := by
  rw [checkPhasesFrom]
  by_cases repeated : seen.contains phase
  · have before : phase ∈ seen := List.contains_iff_mem.mp repeated
    simp [before]
  · have fresh : phase ∉ seen := mt List.contains_iff_mem.mpr repeated
    rw [if_neg repeated]
    cases limits : p.allowed with
    | none => simp [fresh, Permits, limits]
    | some range =>
      by_cases inside : range.contains phase = true
      · have between := WordRange.contains_iff.mp inside
        simp [fresh, Permits, limits, inside, between]
      · have outside := mt WordRange.contains_iff.mpr inside
        simp [fresh, Permits, limits, inside, outside]

theorem checkPhasesFrom_eq_ok_iff (seen phases : List Word) :
    p.checkPhasesFrom seen phases = .ok () ↔
      phases.Nodup ∧ (∀ phase ∈ phases, phase ∉ seen) ∧ ∀ phase ∈ phases, p.Permits phase := by
  induction phases generalizing seen with
  | nil => simp [checkPhasesFrom]
  | cons phase phases ih =>
    rw [checkPhasesFrom_cons, ih, List.nodup_cons]
    simp only [List.forall_mem_cons]
    constructor
    · rintro ⟨fresh, permitted, distinct, apart, rest⟩
      exact ⟨⟨fun inside => apart phase inside List.mem_cons_self, distinct⟩,
        ⟨fresh, fun other inside found => apart other inside (List.mem_cons_of_mem phase found)⟩,
        permitted, rest⟩
    · rintro ⟨⟨once, distinct⟩, ⟨fresh, apart⟩, permitted, rest⟩
      refine ⟨fresh, permitted, distinct, fun other inside found => ?_, rest⟩
      rcases List.mem_cons.mp found with rfl | found
      · exact once inside
      · exact apart other inside found

theorem checkPhases_eq_ok_iff : p.checkPhases phases = .ok () ↔ p.Assignable phases := by
  have checks := p.checkPhasesFrom_eq_ok_iff [] phases
  rw [checkPhases]
  constructor
  · intro accepted
    split at accepted
    · cases accepted
    · next some_stage =>
      split at accepted
      · cases accepted
      · next same =>
        obtain ⟨distinct, -, permitted⟩ := checks.mp accepted
        exact ⟨by omega, Decidable.not_not.mp same, distinct, permitted⟩
  · rintro ⟨staffed, count, distinct, permitted⟩
    rw [if_neg (by omega), if_neg (by omega)]
    exact checks.mpr ⟨distinct, fun _ _ => List.not_mem_nil, permitted⟩

theorem checkCandidates_eq_ok_iff :
    p.checkCandidates candidates = .ok () ↔
      1 ≤ p.stages ∧ candidates.size = p.stages ∧
        p.Permits candidates.lo ∧ p.Permits candidates.hi := by
  have ends : ∀ range, p.allowed = some range →
      ((range.contains candidates.lo && range.contains candidates.hi) = true ↔
        p.Permits candidates.lo ∧ p.Permits candidates.hi) := by
    intro range limits
    simp [Permits, limits, WordRange.contains_iff, and_assoc]
  constructor
  · intro accepted
    obtain ⟨staffed, size⟩ := size_of_checkCandidates accepted
    rw [checkCandidates, if_neg (by omega), if_neg (by omega)] at accepted
    refine ⟨staffed, size, ?_⟩
    split at accepted
    · next free => simp [Permits, free]
    · next range limits =>
      split at accepted
      · next inside => exact (ends range limits).mp inside
      · cases accepted
  · rintro ⟨staffed, size, inside⟩
    rw [checkCandidates, if_neg (by omega), if_neg (by omega)]
    split
    · rfl
    · next range limits => exact if_pos ((ends range limits).mpr inside)

/-- The ends decide for all values in between, and the number of values for their distinctness. -/
theorem checkCandidates_iff_forall_perm :
    p.checkCandidates candidates = .ok () ↔
      ∀ q : List Word, q.Perm candidates.values → p.checkPhases q = .ok () := by
  simp only [checkCandidates_eq_ok_iff, checkPhases_eq_ok_iff]
  constructor
  · rintro ⟨staffed, size, low, high⟩ q perm
    refine ⟨staffed, ?_, perm.nodup_iff.mpr candidates.nodup_values, ?_⟩
    · rw [perm.length_eq, candidates.length_values, size]
    · intro phase inside range allowed
      obtain ⟨above, below⟩ := (WordRange.mem_values phase).mp (perm.subset inside)
      exact ⟨Std.le_trans (low range allowed).1 above, Std.le_trans below (high range allowed).2⟩
  · intro each
    obtain ⟨staffed, count, -, permitted⟩ := each candidates.values (List.Perm.refl _)
    rw [candidates.length_values] at count
    have ordered : candidates.lo ≤ candidates.hi := by
      rw [Int64.le_iff_toInt_le]
      rw [WordRange.size] at count
      omega
    refine ⟨staffed, count, permitted _ ?_, permitted _ ?_⟩
    · exact (WordRange.mem_values _).mpr ⟨Std.le_refl _, ordered⟩
    · exact (WordRange.mem_values _).mpr ⟨ordered, Std.le_refl _⟩

theorem size_defaultPhases (wiring : Wiring) {stages : Nat} (some_stage : 1 ≤ stages)
    (few : stages < 2 ^ 62) : (wiring.defaultPhases stages).size = stages := by
  have zero : (0 : Word).toInt = 0 := rfl
  have one : (1 : Word).toInt = 1 := rfl
  have two : (2 : Word).toInt = 2 := rfl
  have count : (Int64.ofNat stages).toInt = stages := Int64.toInt_ofNat_of_lt (by omega)
  cases wiring with
  | linear =>
    have last : (Int64.ofNat stages - 1).toInt = stages - 1 := by
      rw [Int64.toInt_sub, count, one]
      exact Int.bmod_eq_of_le (by omega) (by omega)
    simp only [Wiring.defaultPhases, WordRange.size, last, zero]
    omega
  | feedback =>
    have double : (2 * Int64.ofNat stages).toInt = 2 * stages := by
      rw [Int64.toInt_mul, count, two]
      exact Int.bmod_eq_of_le (by omega) (by omega)
    have last : (2 * Int64.ofNat stages - 1).toInt = 2 * stages - 1 := by
      rw [Int64.toInt_sub, double, one]
      exact Int.bmod_eq_of_le (by omega) (by omega)
    simp only [Wiring.defaultPhases, WordRange.size, last, count]
    omega

/-! ## Failures of a run -/

theorem Composes.failsInStage {stage : Nat} {signal : Word} {visits : List Visit}
    {result : Except PipelineError Word}
    (composes : p.Composes stage signal phases visits result) : FailsInStage result := by
  rintro e rfl
  obtain ⟨_, _, _, _, -, -, -, -, breaks⟩ := composes.breaks
  cases breaks <;> exact ⟨_, rfl⟩

end Pipeline

theorem Loop.finish_failsInStage (l : Loop) : FailsInStage l.finish.result := by
  rw [finish]
  split
  · exact failsInStage_error rfl
  · exact failsInStage_ok _

theorem Loop.visit_failsInStage {fuel : Nat} {l : Loop} {trial : Trial}
    (ended : l.visit fuel = some (.ended trial)) : FailsInStage trial.result := by
  cases here : l.machines[l.stage]? with
  | none =>
    simp only [visit, here] at ended
    cases ended
    exact l.finish_failsInStage
  | some m =>
    rcases visit_cases here ended with ⟨-, same⟩ | ⟨-, e | outcome, after, -, same⟩
    · cases same
    · cases same
      exact failsInStage_error rfl
    · cases outcome with
      | output value =>
        simp only [conclude, settle] at same
        split at same <;> cases same
      | awaitingInput =>
        cases same
        exact failsInStage_error rfl
      | halted =>
        simp only [conclude, settle] at same
        split at same
        · cases same
          exact finish_failsInStage _
        · cases same

theorem Loop.runFor_failsInStage {fuel visits : Nat} {l : Loop} {trial : Trial}
    (ran : l.runFor fuel visits = some trial) : FailsInStage trial.result := by
  induction visits generalizing l with
  | zero => cases ran
  | succ visits ih =>
    rw [runFor] at ran
    split at ran
    · cases ran
    · next ended =>
      cases ran
      exact visit_failsInStage ended
    · exact ih ran

namespace Pipeline

variable {p : Pipeline} {phases : List Word} {candidates : WordRange}

theorem collect_failsInStage {order : List Nat} {t : Ring} {results : List StageResult}
    (steps : Ring.Steps order (p.ring phases) t) (done : t.results? = some results) :
    FailsInStage (Ring.collect results) := by
  rw [Ring.collect_eq]
  split
  · next e failed =>
    obtain ⟨before, result, after, rfl, failure, -⟩ := List.findSome?_eq_some_iff.mp failed
    cases result with
    | ok last => cases failure
    | error cause =>
      have here : (before ++ .error cause :: after)[before.length]? = some (.error cause) := by simp
      rcases error_of_results? steps done here with ⟨source, rfl⟩ | rfl
      · cases failure
        exact failsInStage_error rfl
      · cases failure
  · split
    · exact failsInStage_error rfl
    · split
      · exact failsInStage_ok _
      · exact failsInStage_error rfl

/-- However the stages are driven, with accepted phases only a stage can fail. -/
theorem Answers.failsInStage {drive : Drive} {result : Except PipelineError Word}
    (answers : p.Answers drive phases result) (accepted : p.checkPhases phases = .ok ()) :
    FailsInStage result := by
  obtain ⟨fuel, trial, ran, rfl⟩ := answers
  cases drive with
  | linear =>
    rw [run_linear accepted] at ran
    obtain ⟨_, composes, -⟩ := composes_of_chainFrom ran
    exact composes.failsInStage
  | feedback =>
    simp only [run, runFeedback, accepted] at ran
    exact Loop.runFor_failsInStage ran
  | concurrent =>
    obtain ⟨results, concludes⟩ := concludes_of_runConcurrent ran
    generalize trial.result = result at concludes ⊢
    cases concludes with
    | rejected invalid => cases accepted.symm.trans invalid
    | collected _ steps done => exact collect_failsInStage steps done

/-! ## Failures of a search -/

/-- A search of rejected candidates tries nothing, and one of accepted candidates is not
misconfigured any more. -/
theorem searchObserved_misconfigured_iff {σ : Type u} {observe : σ → List Word → Trial → σ}
    {seen last : σ} {fuel : Nat} {drive : Drive} {cause : Misconfiguration} :
    p.searchObserved observe seen fuel drive candidates =
        some (.error (.misconfigured cause), last) ↔
      p.checkCandidates candidates = .error cause ∧ last = seen := by
  rw [searchObserved]
  cases checked : p.checkCandidates candidates with
  | error other => simp [eq_comm]
  | ok accepted =>
    simp only [reduceCtorEq, false_and, iff_false]
    intro searched
    obtain ⟨L, yields, -⟩ := Orderings.yields_ofList candidates.values
    have searches : p.Searches drive candidates (.error (.misconfigured cause)) :=
      (searches_iff_tries checked yields).mpr (tries_of_searchFrom yields searched)
    rcases searches.settles checked with ⟨r, same, -⟩ | ⟨phases, e, same, -⟩
    · cases same
    · cases same

theorem Searches.stage_of_trialFailed {drive : Drive} {e : PipelineError}
    (searches : p.Searches drive candidates (.error (.trialFailed phases e))) :
    ∃ stage, e.stage? = some stage := by
  have accepted := checkCandidates_of_searches searches (by simp)
  rcases searches.settles accepted with ⟨r, same, -⟩ | ⟨others, other, same, first⟩
  · cases same
  · cases same
    have fits := checkCandidates_iff_forall_perm.mp accepted phases first.ordering
    exact first.fails.failsInStage fits e rfl

theorem finish_record (b : Best) (signal : Word) (phases : List Word) :
    ∃ r, (b.record signal phases).finish = .ok r := by
  rw [Best.record]
  split
  · exact ⟨_, rfl⟩
  · next top found =>
    split
    · exact ⟨_, rfl⟩
    · exact ⟨_, by rw [Best.finish, found]⟩

/-- There is a first ordering to try, and after any trial there is a best one. -/
theorem finish_of_yields {values : List Word} {L : List (List Word)}
    (yields : (Orderings.ofList values).Yields L) (signal : List Word → Word) :
    ∃ r, (L.foldl (fun best q => best.record (signal q) q) ({} : Best)).finish = .ok r := by
  cases yields with
  | done ended => cases ended
  | @next _ _ v L gives rest =>
    rw [List.foldl_cons]
    obtain ⟨r, finished⟩ := finish_record {} (signal v) v
    generalize Best.record {} (signal v) v = best at finished ⊢
    clear rest
    induction L generalizing best r with
    | nil => exact ⟨r, finished⟩
    | cons q L ih =>
      obtain ⟨r, later⟩ := finish_record best (signal q) q
      exact ih r _ later

/-- Candidates are accepted if and only if the phases in each of their orderings are, and the phases
in common use are accepted. A search is misconfigured only before its first trial, whatever
observes it: a trial that fails has failed in a stage, and after the last trial there is a best
one. -/
theorem checks_agree (p : Pipeline) :
    (∀ phases, p.checkPhases phases = .ok () ↔
      1 ≤ p.stages ∧ phases.length = p.stages ∧ phases.Nodup ∧
        ∀ range, p.allowed = some range → ∀ phase ∈ phases, range.lo ≤ phase ∧ phase ≤ range.hi) ∧
    (∀ candidates, p.checkCandidates candidates = .ok () ↔
      ∀ q : List Word, q.Perm candidates.values → p.checkPhases q = .ok ()) ∧
    (∀ {σ : Type u} (observe : σ → List Word → Trial → σ) seen last fuel drive candidates cause,
      p.searchObserved observe seen fuel drive candidates =
          some (.error (.misconfigured cause), last) ↔
        p.checkCandidates candidates = .error cause ∧ last = seen) ∧
    (∀ drive candidates phases e, p.Searches drive candidates (.error (.trialFailed phases e)) →
      (∀ cause, e ≠ .misconfigured cause) ∧ ∀ others source, e ≠ .trialFailed others source) ∧
    (∀ candidates, p.checkCandidates candidates = .ok () →
      ∀ L, (Orderings.ofList candidates.values).Yields L → ∀ signal : List Word → Word,
        ∃ r, (L.foldl (fun best q => best.record (signal q) q) ({} : Best)).finish = .ok r) ∧
    ∀ wiring : Wiring, p.allowed = none → 1 ≤ p.stages → p.stages < 2 ^ 62 →
      p.checkCandidates (wiring.defaultPhases p.stages) = .ok () := by
  refine ⟨fun phases => ?_, fun candidates => checkCandidates_iff_forall_perm,
    fun _ _ _ _ _ _ _ => searchObserved_misconfigured_iff, fun drive candidates phases e failed => ?_,
    fun candidates _ L yields signal => finish_of_yields yields signal,
    fun wiring unlimited staffed few => ?_⟩
  · rw [checkPhases_eq_ok_iff]
    constructor
    · rintro ⟨staffed, count, distinct, permitted⟩
      exact ⟨staffed, count, distinct, fun range limits phase inside =>
        permitted phase inside range limits⟩
    · rintro ⟨staffed, count, distinct, permitted⟩
      exact ⟨staffed, count, distinct, fun phase inside range limits =>
        permitted range limits phase inside⟩
  · obtain ⟨stage, named⟩ := failed.stage_of_trialFailed
    constructor
    · rintro cause rfl
      cases named
    · rintro others source rfl
      cases named
  · have free : ∀ phase, p.Permits phase := fun phase range limits => by
      rw [unlimited] at limits
      cases limits
    exact checkCandidates_eq_ok_iff.mpr
      ⟨staffed, size_defaultPhases wiring staffed few, free _, free _⟩

/-- Halts with its phase, without any output. -/
def silent : Pipeline :=
  { program := ⟨#[3, 0, 99]⟩, stages := 2 }

theorem checks_agree_silent :
    (∃ e, silent.Searches .linear ⟨4, 5⟩ (.error (.trialFailed [4, 5] e)) ∧
      ∀ cause, e ≠ .misconfigured cause) ∧
    (∃ L, (Orderings.ofList (WordRange.mk 4 5).values).Yields L ∧
      ∃ r, (L.foldl (fun best q => best.record (q.headD 0) q) ({} : Best)).finish = .ok r) ∧
    silent.checkPhases [3, 2] = .ok () := by
  obtain ⟨_, orderings, _, trials, finishes, usual⟩ := checks_agree.{0} silent
  have searched : silent.search 20 .linear ⟨4, 5⟩ =
      some (.error (.trialFailed [4, 5] (.noOutput 0))) := by
    rw [search, searchObserved, Orderings.ofList, Orderings.sort_of_ascending (by decide +kernel)]
    decide +kernel
  refine ⟨⟨_, ⟨20, searched⟩, (trials _ _ _ _ ⟨20, searched⟩).1⟩, ?_, ?_⟩
  · obtain ⟨L, yields, -⟩ := Orderings.yields_ofList (WordRange.mk 4 5).values
    exact ⟨L, yields, finishes ⟨4, 5⟩ (by decide +kernel) L yields fun q => q.headD 0⟩
  · have accepted := usual .feedback rfl (by decide) (by decide)
    refine (orderings _).mp accepted [3, 2] ?_
    have values : (Wiring.feedback.defaultPhases silent.stages).values = [2, 3] := by
      decide +kernel
    rw [values]
    exact List.Perm.swap 2 3 []

end Pipeline

end Intcode
