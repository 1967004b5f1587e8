import Intcode.Pipeline.Ring

/-!
# The result of a ring

The results of the stages are gone through once, from the first stage on. What comes of them can be
read off all of them at once: the first failure that is not for lack of input, else the first one
that is, else the last output of the last stage.
-/

namespace Intcode

/-- A failure other than for lack of input. -/
def StageResult.failure? : StageResult → Option PipelineError
  | .ok _ => none
  | .error (.inputClosed _) => none
  | .error e => some e

def StageResult.isClosed : StageResult → Bool
  | .error (.inputClosed _) => true
  | _ => false

def StageResult.output? : StageResult → Option Word
  | .ok last => last
  | .error _ => none

theorem StageResult.eq_ok {result : StageResult} (unfailed : result.failure? = none)
    (unclosed : result.isClosed = false) : ∃ last, result = .ok last := by
  cases result with
  | ok last => exact ⟨last, rfl⟩
  | error e => cases e <;> simp [failure?, isClosed] at unfailed unclosed

namespace Ring

theorem collectFrom_eq (results : List StageResult) (stage : Nat) (closed : Option Nat)
    (signal : Option Word) :
    collectFrom stage closed signal results =
      match results.findSome? StageResult.failure? with
      | some e => .error e
      | none =>
        match closed.or ((results.findIdx? StageResult.isClosed).map (stage + ·)) with
        | some i => .error (.inputClosed i)
        | none =>
          match results.getLast?.elim signal StageResult.output? with
          | some value => .ok value
          | none => .error (.noOutput (stage + results.length - 1)) := by
  induction results generalizing stage closed signal with
  | nil => cases closed <;> cases signal <;> rfl
  | cons result results ih =>
    have later : ∀ i, stage + 1 + i = stage + (i + 1) := fun i => by omega
    have count : stage + 1 + results.length - 1 = stage + (results.length + 1) - 1 := by omega
    cases result with
    | ok last =>
      rw [collectFrom, ih, count, List.findSome?_cons, List.findIdx?_cons, List.getLast?_cons]
      simp only [StageResult.failure?, StageResult.isClosed, Bool.false_eq_true, if_false,
        Option.map_map, Function.comp_def, later]
      cases results.getLast? <;> rfl
    | error e =>
      rw [List.findSome?_cons, List.findIdx?_cons, List.getLast?_cons]
      cases e with
      | inputClosed k =>
        rw [collectFrom, ih]
        cases closed <;> cases results.findSome? StageResult.failure? <;>
          simp [StageResult.failure?, StageResult.isClosed]
      | misconfigured | machine | noOutput | stalled | taskFailed | trialFailed =>
        simp [collectFrom, StageResult.failure?]

/-- The result of a ring, told from the results of all its stages. -/
theorem collect_eq (results : List StageResult) :
    collect results =
      match results.findSome? StageResult.failure? with
      | some e => .error e
      | none =>
        match results.findIdx? StageResult.isClosed with
        | some i => .error (.inputClosed i)
        | none =>
          match results.getLast?.bind StageResult.output? with
          | some value => .ok value
          | none => .error (.noOutput (results.length - 1)) := by
  have lasts : results.getLast?.elim none StageResult.output? =
      results.getLast?.bind StageResult.output? := by
    cases results.getLast? <;> rfl
  rw [collect, collectFrom_eq, lasts]
  simp

/-- A signal is returned exactly if all stages halted and the last one had an output. -/
theorem collect_eq_ok_iff {results : List StageResult} {value : Word} :
    collect results = .ok value ↔
      (∀ result ∈ results, ∃ last, result = .ok last) ∧
        results.getLast? = some (.ok (some value)) := by
  rw [collect_eq]
  constructor
  · intro h
    split at h
    · cases h
    · next unfailed =>
      split at h
      · cases h
      · next unclosed =>
        have halted : ∀ result ∈ results, ∃ last, result = .ok last := fun result member =>
          StageResult.eq_ok (List.findSome?_eq_none_iff.mp unfailed result member)
            (List.findIdx?_eq_none_iff.mp unclosed result member)
        refine ⟨halted, ?_⟩
        split at h
        · next last =>
          cases h
          obtain ⟨result, final, out⟩ := Option.bind_eq_some_iff.mp last
          obtain ⟨output, rfl⟩ := halted result (List.mem_of_getLast? final)
          cases out
          exact final
        · cases h
  · rintro ⟨halted, final⟩
    have unfailed : results.findSome? StageResult.failure? = none := by
      rw [List.findSome?_eq_none_iff]
      intro result member
      obtain ⟨last, rfl⟩ := halted result member
      rfl
    have unclosed : results.findIdx? StageResult.isClosed = none := by
      rw [List.findIdx?_eq_none_iff]
      intro result member
      obtain ⟨last, rfl⟩ := halted result member
      rfl
    simp only [unfailed, unclosed, final, Option.bind_some, StageResult.output?]

/-- A failure of a stage is the result unless a stage before it failed. -/
theorem collect_of_failure {results : List StageResult} {i : Nat} {result : StageResult}
    {e : PipelineError} (here : results[i]? = some result) (failed : result.failure? = some e) :
    ∃ j earlier cause, j ≤ i ∧ results[j]? = some earlier ∧ earlier.failure? = some cause ∧
      collect results = .error cause := by
  have some_failure : (results.findSome? StageResult.failure?).isSome := by
    rw [List.findSome?_isSome_iff]
    exact ⟨result, List.mem_of_getElem? here, by rw [failed]; rfl⟩
  obtain ⟨cause, found⟩ := Option.isSome_iff_exists.mp some_failure
  obtain ⟨before, earlier, rest, rfl, failing, unfailed⟩ := List.findSome?_eq_some_iff.mp found
  refine ⟨before.length, earlier, cause, ?_, by simp, failing, ?_⟩
  · apply Nat.le_of_not_lt
    intro inside
    rw [List.getElem?_append_left inside] at here
    have none := unfailed result (List.mem_of_getElem? here)
    rw [failed] at none
    cases none
  · rw [collect_eq, found]

end Ring

end Intcode
