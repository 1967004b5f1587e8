import Intcode.Proofs.Machine.Feeding

/-!
# Sessions

In a session a machine is fed and run by turns, one portion of its inputs before each run. How the
inputs are portioned out only decides where it starves on the way. Leaving that out, a session comes
to what it does if all inputs are queued before the first run.
-/

namespace Intcode

namespace Machine

/-- The machine is fed the portions in turn and run after each, with these results. -/
inductive Session :
    Machine → List (List Word) → List (Except MachineError Outcome) → Machine → Prop where
  | done (m : Machine) : Session m [] [] m
  | run {m mid last : Machine} {portion : List Word} {portions : List (List Word)}
      {result : Except MachineError Outcome} {results : List (Except MachineError Outcome)}
      (runs : (m.feedAll portion).Runs result mid) (rest : Session mid portions results last) :
      Session m (portion :: portions) (result :: results) last

/-- Leaves out every starvation that is followed by another run. -/
def settled : List (Except MachineError Outcome) → List (Except MachineError Outcome)
  | .ok .awaitingInput :: next :: results => settled (next :: results)
  | result :: results => result :: settled results
  | [] => []

theorem settled_cons_of_served {result : Except MachineError Outcome}
    (served : result ≠ .ok .awaitingInput) (results : List (Except MachineError Outcome)) :
    settled (result :: results) = result :: settled results := by
  rw [settled]
  rintro next rest rfl
  exact absurd rfl served

theorem settled_ne_nil (result : Except MachineError Outcome)
    (results : List (Except MachineError Outcome)) : settled (result :: results) ≠ [] := by
  induction results generalizing result with
  | nil => simp [settled]
  | cons next results ih =>
    by_cases starved : result = .ok .awaitingInput
    · subst starved
      simpa [settled] using ih next
    · simp [settled_cons_of_served starved]

/-- A starvation puts nothing out. -/
theorem emitted_settled (results : List (Except MachineError Outcome)) :
    (settled results).filterMap emitted = results.filterMap emitted := by
  induction results with
  | nil => rfl
  | cons result results ih =>
    by_cases starved : result = .ok .awaitingInput
    · subst starved
      cases results with
      | nil => rfl
      | cons next results =>
        rw [settled, ih]
        rfl
    · rw [settled_cons_of_served starved, List.filterMap_cons, List.filterMap_cons, ih]

/-- To go on from a starved machine is to have been there with the inputs from the start. -/
theorem Session.of_starved {m after last : Machine} {values portion : List Word}
    {portions : List (List Word)} {results : List (Except MachineError Outcome)}
    (starved : m.Runs (.ok .awaitingInput) after)
    (session : (after.feedAll values).Session (portion :: portions) results last) :
    (m.feedAll values).Session (portion :: portions) results last := by
  cases session with
  | run runs rest =>
    rw [feedAll_feedAll] at runs
    refine .run ?_ rest
    rw [feedAll_feedAll]
    exact (starved.feedAll_iff _ _ _).mpr runs

/-- A session with all inputs queued before its first run, for which no portion is left. -/
theorem Session.queued {m last : Machine} {portions : List (List Word)}
    {results : List (Except MachineError Outcome)} (session : m.Session portions results last) :
    (m.feedAll portions.flatten).Session (List.replicate (settled results).length [])
      (settled results) last := by
  induction session with
  | done m =>
    rw [List.flatten_nil, feedAll_nil]
    exact .done m
  | @run m mid last portion portions result results runs rest ih =>
    rw [List.flatten_cons, ← feedAll_feedAll]
    by_cases starved : result = .ok .awaitingInput
    · subst starved
      cases rest with
      | done =>
        rw [List.flatten_nil, feedAll_nil]
        exact .run (by rwa [feedAll_nil]) (.done mid)
      | @run _ _ _ _ _ next results _ _ =>
        -- The runs that follow are there, so the queued session has a first run to put in place.
        have some_run : (settled (next :: results)).length ≠ 0 := by
          simpa using settled_ne_nil next results
        obtain ⟨count, succ⟩ := Nat.exists_eq_succ_of_ne_zero some_run
        simp only [settled, succ, List.replicate_succ] at ih ⊢
        exact ih.of_starved runs
    · rw [settled_cons_of_served starved]
      refine .run ?_ ih
      rw [feedAll_nil]
      exact runs.feedAll starved _

theorem Session.snoc {m mid last : Machine} {portions : List (List Word)} {portion : List Word}
    {results : List (Except MachineError Outcome)} {result : Except MachineError Outcome}
    (session : m.Session portions results mid) (runs : (mid.feedAll portion).Runs result last) :
    m.Session (portions ++ [portion]) (results ++ [result]) last := by
  induction session with
  | done m => exact .run runs (.done last)
  | run first rest ih => exact .run first (ih runs)

/-- The first runs of a session. -/
theorem Session.init {m last : Machine} {portions more : List (List Word)}
    {results : List (Except MachineError Outcome)}
    (session : m.Session (portions ++ more) results last) :
    ∃ early mid, m.Session portions early mid := by
  induction portions generalizing m results with
  | nil => exact ⟨[], m, .done m⟩
  | cons portion portions ih =>
    cases session with
    | run runs rest =>
      obtain ⟨early, mid, first⟩ := ih rest
      exact ⟨_ :: early, mid, .run runs first⟩

/-- If the runs return with all inputs queued, they return with the inputs portioned out. -/
theorem Session.exists_of_queued {m last : Machine} {portions : List (List Word)}
    {results : List (Except MachineError Outcome)}
    (session : (m.feedAll portions.flatten).Session (List.replicate portions.length []) results
      last) : ∃ others left, m.Session portions others left := by
  induction portions generalizing m results last with
  | nil => exact ⟨[], m, .done m⟩
  | cons portion portions ih =>
    rw [List.flatten_cons, ← feedAll_feedAll, List.length_cons, List.replicate_succ] at session
    cases session with
    | @run _ mid _ _ _ result results runs rest =>
      rw [feedAll_nil] at runs
      obtain ⟨early, after, first⟩ := runs.of_feedAll
      have onward : ∃ others left, after.Session portions others left := by
        by_cases starved : early = .ok .awaitingInput
        · subst starved
          -- The first queued run is still to come, so the last one of them is one too many.
          have again : (after.feedAll portions.flatten).Runs result mid :=
            (first.feedAll_iff _ _ _).mp runs
          have whole : (after.feedAll portions.flatten).Session
              (List.replicate portions.length [] ++ [[]]) (result :: results) last := by
            rw [← List.replicate_succ']
            exact .run (by rwa [feedAll_nil]) rest
          obtain ⟨_, _, session⟩ := whole.init
          exact ih session
        · obtain ⟨_, same⟩ := (first.feedAll starved portions.flatten).unique runs
          rw [← same] at rest
          exact ih rest
      obtain ⟨others, left, session⟩ := onward
      exact ⟨early :: others, left, .run first session⟩

/-- Feeds and runs a machine by turns. -/
def attend (fuel : Nat) :
    List (List Word) → Machine → Option (List (Except MachineError Outcome) × Machine)
  | [], m => some ([], m)
  | portion :: portions, m =>
    match (m.feedAll portion).run fuel with
    | none => none
    | some (result, mid) =>
      (attend fuel portions mid).map fun (results, last) => (result :: results, last)

theorem session_of_attend {fuel : Nat} {m last : Machine} {portions : List (List Word)}
    {results : List (Except MachineError Outcome)}
    (h : attend fuel portions m = some (results, last)) : m.Session portions results last := by
  induction portions generalizing m results with
  | nil =>
    cases h
    exact .done _
  | cons portion portions ih =>
    simp only [attend] at h
    split at h
    · cases h
    · next result mid ran =>
      obtain ⟨⟨others, left⟩, rest, same⟩ := Option.map_eq_some_iff.mp h
      cases same
      exact .run ⟨fuel, ran⟩ (ih rest)

/-- Only the order of the inputs matters. A run that does not starve takes no notice of what is fed
behind; one that does can be repeated, and goes on once fed as if it had been fed before. So the
results of a session, its outputs and the machine it leaves are those with all inputs queued. -/
theorem feeding_time (m : Machine) :
    (∀ value result after, m.Runs result after → result ≠ .ok .awaitingInput →
      (m.feed value).Runs result (after.feed value)) ∧
    (∀ after, m.Runs (.ok .awaitingInput) after →
      (∀ value result last,
        (after.feed value).Runs result last ↔ (m.feed value).Runs result last) ∧
      after.Runs (.ok .awaitingInput) after) ∧
    (∀ portions results last, m.Session portions results last →
      (m.feedAll portions.flatten).Session (List.replicate (settled results).length [])
          (settled results) last ∧
        (settled results).filterMap emitted = results.filterMap emitted) ∧
    ∀ portions results last,
      (m.feedAll portions.flatten).Session (List.replicate portions.length []) results last →
        ∃ others left, m.Session portions others left := by
  refine ⟨?_, ?_, ?_, ?_⟩
  · intro value result after runs served
    exact runs.feedAll served [value]
  · intro after starved
    refine ⟨fun value result last => (starved.feedAll_iff [value] result last).symm, ?_⟩
    have again := (starved.feedAll_iff [] (.ok .awaitingInput) after).mp
    rw [feedAll_nil, feedAll_nil] at again
    exact again starved
  · intro portions results last session
    exact ⟨session.queued, emitted_settled results⟩
  · intro portions results last session
    exact session.exists_of_queued

/-- Puts out two inputs, each as soon as it is there, and halts. -/
def echo : Machine :=
  load ⟨#[3, 9, 4, 9, 3, 9, 4, 9, 99]⟩

theorem feeding_time_echo :
    (∃ after, echo.Runs (.ok .awaitingInput) after ∧ after.Runs (.ok .awaitingInput) after) ∧
    ∃ last,
      echo.Session [[], [5], [7, 8], []]
        [.ok .awaitingInput, .ok (.output 5), .ok (.output 7), .ok .halted] last ∧
      (echo.feedAll [5, 7, 8]).Session [[], [], []]
        [.ok (.output 5), .ok (.output 7), .ok .halted] last := by
  have attended : (attend 9 [[], [5], [7, 8], []] echo).map Prod.fst =
      some [.ok .awaitingInput, .ok (.output 5), .ok (.output 7), .ok .halted] := by
    decide +kernel
  obtain ⟨⟨results, last⟩, attended, rfl⟩ := Option.map_eq_some_iff.mp attended
  have session := session_of_attend attended
  constructor
  · cases session with
    | run runs _ => exact ⟨_, runs, ((feeding_time echo).2.1 _ runs).2⟩
  · exact ⟨last, session, ((feeding_time echo).2.2.1 _ _ _ session).1⟩

end Machine

end Intcode
