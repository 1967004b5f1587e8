import Intcode.Proofs.Loop.Visits
import Intcode.Proofs.Machine.Feeding
import Intcode.Proofs.Ring.Moves

/-!
# A ring that follows a loop

The ring can be made to do what the loop does: when the loop visits a stage, only that stage moves,
until it has done what its machine did in the visit. It takes its inputs one by one where the loop
had them queued before the run, which makes no difference to the machine. What the loop has on its
way to a stage is then at the end of the inbox of that stage.
-/

namespace Intcode

namespace Stage

/-- The stage has finished if the machine has halted, and else stands where the machine does, except
that inputs of the machine may still be in the inbox. -/
def Holds (s : Stage) (m : Machine) : Prop :=
  (m.isHalted = true → s.activity = .finished (.ok s.outputs.head?)) ∧
    (m.isHalted = false → s.activity = .run ∧ s.machine.feedAll s.inbox = m)

/-- What a stage comes to when it has all its inputs at hand and its machine, with the same inputs,
runs to this result: the stage that it becomes and the signal that it sends. -/
inductive Settles (i : Nat) (s : Stage) :
    Except MachineError Outcome → Machine → Stage → Option Word → Prop where
  | output {value : Word} {last : Machine} {after : Stage} (running : after.activity = .run)
      (caught : after.machine.feedAll after.inbox = last)
      (outputs : after.outputs = value :: s.outputs) :
      Settles i s (.ok (.output value)) last after (some value)
  | halt {last : Machine} {after : Stage}
      (finished : after.activity = .finished (.ok s.outputs.head?))
      (outputs : after.outputs = s.outputs) : Settles i s (.ok .halted) last after none
  | starve {last : Machine} {after : Stage} (parked : after.activity = .receive)
      (empty : after.inbox = []) (outputs : after.outputs = s.outputs) :
      Settles i s (.ok .awaitingInput) last after none
  | fail {e : MachineError} {last : Machine} {after : Stage}
      (finished : after.activity = .finished (.error (.machine i e)))
      (outputs : after.outputs = s.outputs) : Settles i s (.error e) last after none

theorem Settles.outputs {i : Nat} {s after : Stage} {result : Except MachineError Outcome}
    {last : Machine} {sent : Option Word} (settles : s.Settles i result last after sent) :
    after.outputs = (Machine.emitted result).toList ++ s.outputs := by
  cases settles with
  | output _ _ outputs | halt _ outputs | starve _ _ outputs | fail _ outputs => exact outputs

/-- A machine that can go on, or has halted, is held by the stage that did the same. -/
theorem Settles.holds {i : Nat} {s after : Stage} {outcome : Outcome} {last : Machine}
    {sent : Option Word} (settles : s.Settles i (.ok outcome) last after sent)
    (served : outcome ≠ .awaitingInput)
    (status : last.status = Machine.statusAfter .running (.ok (some outcome))) :
    after.Holds last := by
  cases settles with
  | output running caught outputs =>
    refine ⟨fun halted => ?_, fun _ => ⟨running, caught⟩⟩
    simp [Machine.isHalted, status, Machine.statusAfter] at halted
  | halt finished outputs =>
    refine ⟨fun _ => by rw [finished, outputs], fun live => ?_⟩
    simp [Machine.isHalted, status, Machine.statusAfter] at live
  | starve => exact absurd rfl served

theorem Holds.accept {s : Stage} {m : Machine} (holds : s.Holds m) (sent : Option Word) :
    (s.accept sent).Holds (m.feedAll sent.toList) := by
  constructor
  · intro halted
    have finished := holds.1 halted
    rw [accept_of_isFinished (isFinished_iff.mpr ⟨_, finished⟩)]
    exact finished
  · intro live
    obtain ⟨running, caught⟩ := holds.2 live
    rw [accept_of_not_isFinished (isFinished_of_activity_eq_run running)]
    exact ⟨running, by rw [← caught, Machine.feedAll_feedAll]⟩

theorem Settles.of_outputs {i : Nat} {s t after : Stage} {result : Except MachineError Outcome}
    {last : Machine} {sent : Option Word} (settles : s.Settles i result last after sent)
    (same : s.outputs = t.outputs) : t.Settles i result last after sent := by
  cases settles with
  | output running caught outputs => exact .output running caught (same ▸ outputs)
  | halt finished outputs => exact .halt (same ▸ finished) (same ▸ outputs)
  | starve parked empty outputs => exact .starve parked empty (same ▸ outputs)
  | fail finished outputs => exact .fail finished (same ▸ outputs)

end Stage

namespace Ring

theorem step_of_acts {r : Ring} {i : Nat} {s after : Stage} {sent : Option Word}
    (here : r.stages[i]? = some s) (acts : s.Acts i (r.closed i) after sent) :
    Step i r (r.moved i after sent) :=
  step_iff.mpr ⟨s, after, sent, here, acts, rfl⟩

theorem moved_put (r : Ring) (i : Nat) (a b : Stage) (sent : Option Word) :
    (r.put i a).moved i b sent = r.moved i b sent := by
  have same : (r.put i a).put i b = r.put i b := by simp [put]
  cases sent with
  | none => exact same
  | some value => simp only [moved, same]

/-- A run that does not starve is made in one move; the inputs in the inbox are not needed. -/
theorem settles_at_once {r : Ring} {i : Nat} {s : Stage} {result : Except MachineError Outcome}
    {m : Machine} (here : r.stages[i]? = some s) (running : s.activity = .run)
    (runs : s.machine.Runs result m) (served : result ≠ .ok .awaitingInput) :
    ∃ after sent, Step i r (r.moved i after sent) ∧
      s.Settles i result (m.feedAll s.inbox) after sent := by
  cases result with
  | error e =>
    exact ⟨_, none, step_of_acts here (.fail running runs), .fail rfl rfl⟩
  | ok outcome =>
    cases outcome with
    | output value =>
      exact ⟨_, some value, step_of_acts here (.output running runs), .output running rfl rfl⟩
    | awaitingInput => exact absurd rfl served
    | halted => exact ⟨_, none, step_of_acts here (.halt running runs), .halt rfl rfl⟩

/-- A machine that starves is fed the next input of the inbox. -/
theorem takes_input {r : Ring} {i : Nat} {s : Stage} {m : Machine} {value : Word}
    {rest : List Word} (here : r.stages[i]? = some s) (running : s.activity = .run)
    (starves : s.machine.Runs (.ok .awaitingInput) m) (queue : s.inbox = value :: rest) :
    Steps [i, i] r
      (r.put i { s with machine := m.feed value, inbox := rest, activity := .run }) := by
  let parked : Stage := { s with machine := m, activity := .receive }
  have starve : Step i r (r.put i parked) := step_of_acts here (.starve running starves)
  have acts : parked.Acts i ((r.put i parked).closed i)
      { s with machine := m.feed value, inbox := rest, activity := .run } none :=
    .receive rfl queue
  have receive := step_of_acts (getElem?_put_self (lt_size_of_getElem? here) parked) acts
  rw [moved_put] at receive
  exact .move starve (.single receive)

/-- A stage moves until it has done what its machine does with all inputs of the inbox. Every
starved run takes one input out of the inbox, on which the induction is. -/
theorem catches_up {r : Ring} {i : Nat} {s : Stage} {result : Except MachineError Outcome}
    {last : Machine} (here : r.stages[i]? = some s) (running : s.activity = .run)
    (runs : (s.machine.feedAll s.inbox).Runs result last) :
    ∃ order after sent, Steps order r (r.moved i after sent) ∧
      s.Settles i result last after sent := by
  induction queue : s.inbox generalizing r s with
  | nil =>
    rw [queue, Machine.feedAll_nil] at runs
    by_cases starving : result = .ok .awaitingInput
    · subst starving
      exact ⟨[i], _, none, .single (step_of_acts here (.starve running runs)),
        .starve rfl queue rfl⟩
    · obtain ⟨after, sent, step, settles⟩ := settles_at_once here running runs starving
      rw [queue, Machine.feedAll_nil] at settles
      exact ⟨[i], after, sent, .single step, settles⟩
  | cons value rest ih =>
    obtain ⟨early, left, first⟩ := runs.of_feedAll
    by_cases starving : early = .ok .awaitingInput
    · subst starving
      let fed : Stage := { s with machine := left.feed value, inbox := rest, activity := .run }
      have onward : (fed.machine.feedAll fed.inbox).Runs result last := by
        rw [queue, first.feedAll_iff] at runs
        simpa [fed, Machine.feed_eq_feedAll] using runs
      obtain ⟨order, after, sent, steps, settles⟩ :=
        ih (getElem?_put_self (lt_size_of_getElem? here) fed) rfl onward rfl
      rw [moved_put] at steps
      exact ⟨[i, i] ++ order, after, sent, (takes_input here running first queue).append steps,
        settles.of_outputs rfl⟩
    · obtain ⟨same, caught⟩ := runs.unique (first.feedAll starving s.inbox)
      subst same caught
      obtain ⟨after, sent, step, settles⟩ := settles_at_once here running first starving
      exact ⟨[i], after, sent, .single step, settles⟩

/-- The ring stands where the loop does between two visits. -/
structure Follows (r : Ring) (l : Loop) : Prop where
  size : r.size = l.machines.length
  turn : l.stage < r.size
  holds : ∀ (k : Nat) (m : Machine) (s : Stage),
    l.machines[k]? = some m → r.stages[k]? = some s →
    s.Holds (m.feedAll (l.incoming k).toList)
  outputs : ∀ (k : Nat) (s : Stage), r.stages[k]? = some s → s.outputs = l.outputs k
  result : l.result = (l.outputs l.last).head?
  halted : ∀ v ∈ l.visits, v.suspension.outcome = .halted →
    ∃ m, l.machines[v.stage]? = some m ∧ m.isHalted = true

/-- What the ring shows of the result that a loop ended with. -/
inductive Answers (r : Ring) (t : Trial) : Except PipelineError Word → Prop where
  | signal {value : Word} (halts : t.Halts (r.size - 1))
      (last : (t.outputs (r.size - 1)).getLast? = some value) : Answers r t (.ok value)
  | silent (halts : t.Halts (r.size - 1)) (none : t.outputs (r.size - 1) = []) :
      Answers r t (.error (.noOutput (r.size - 1)))
  | failed {k : Nat} {e : MachineError} {s : Stage} (here : r.stages[k]? = some s)
      (finished : s.activity = .finished (.error (.machine k e))) :
      Answers r t (.error (.machine k e))
  | stalled {k : Nat} {s : Stage} (here : r.stages[k]? = some s) (parked : s.activity = .receive)
      (empty : s.inbox = []) : Answers r t (.error (.stalled k))

/-- The ring stands where a loop has ended. -/
structure Matches (r : Ring) (t : Trial) : Prop where
  outputs : ∀ (k : Nat) (s : Stage), r.stages[k]? = some s → s.outputs.reverse = t.outputs k
  halted : ∀ k, t.Halts k →
    ∃ s, r.stages[k]? = some s ∧ s.activity = .finished (.ok s.outputs.head?)
  answers : r.Answers t t.result

theorem exists_stage {r : Ring} {i : Nat} (h : i < r.size) : ∃ s, r.stages[i]? = some s :=
  ⟨_, List.getElem?_eq_getElem h⟩

/-- The outputs after the action of one stage. -/
theorem outputs_moved {r : Ring} {i : Nat} {s after : Stage} {sent emitted : Option Word}
    {before : Nat → List Word} (here : r.stages[i]? = some s)
    (outputs : ∀ (k : Nat) (s : Stage), r.stages[k]? = some s → s.outputs = before k)
    (more : after.outputs = emitted.toList ++ s.outputs) {k : Nat} {t : Stage}
    (there : (r.moved i after sent).stages[k]? = some t) :
    t.outputs = (if k = i then emitted else none).toList ++ before k := by
  by_cases own : k = i
  · subst own
    rw [getElem?_moved_self (lt_size_of_getElem? here)] at there
    cases there
    rw [Stage.outputs_accept, more, outputs k s here, if_pos rfl]
  · rw [getElem?_moved_of_ne own] at there
    obtain ⟨old, kept, rfl⟩ := Option.map_eq_some_iff.mp there
    rw [Stage.outputs_accept, outputs k old kept, if_neg own]
    rfl

theorem Follows.turn_eq {r : Ring} {l : Loop} (follows : r.Follows l) :
    (l.stage + 1) % l.machines.length = r.after l.stage := by
  rw [after, follows.size]

theorem Follows.last_eq {r : Ring} {l : Loop} (follows : r.Follows l) : l.last = r.size - 1 := by
  rw [Loop.last, follows.size]

theorem Follows.halts {r : Ring} {l : Loop} (follows : r.Follows l) {v : Visit}
    (visited : v ∈ l.visits) (halted : v.suspension.outcome = .halted) :
    ∃ s, r.stages[v.stage]? = some s ∧ s.activity = .finished (.ok s.outputs.head?) := by
  obtain ⟨m, there, stopped⟩ := follows.halted v visited halted
  obtain ⟨s, here⟩ := exists_stage (r := r) (i := v.stage) (by
    rw [follows.size]
    exact (List.getElem?_eq_some_iff.mp there).1)
  exact ⟨s, here, (follows.holds _ m s there here).1 stopped⟩

/-- Passing over a halted stage needs no move; the stage has finished. -/
theorem Follows.pass {r : Ring} {l : Loop} {m : Machine} (follows : r.Follows l)
    (here : l.machines[l.stage]? = some m) (halted : m.isHalted = true) :
    r.Follows (l.turn none) := by
  have quiet : ∀ k, (l.turn none).incoming k = none := by
    intro k
    rw [Loop.incoming]
    split <;> rfl
  refine ⟨follows.size, ?_, ?_, follows.outputs, follows.result, follows.halted⟩
  · rw [Loop.turn, follows.turn_eq]
    exact after_lt follows.turn
  · intro k m' s there at_k
    rw [quiet, Option.toList_none, Machine.feedAll_nil]
    have held := follows.holds k m' s there at_k
    by_cases own : k = l.stage
    · subst own
      cases here.symm.trans there
      exact ⟨fun _ => held.1 halted, fun live => absurd halted (by simp [live])⟩
    · simpa [Loop.incoming, own] using held

section

variable {r : Ring} {l : Loop} {m last : Machine} {s after : Stage} {outcome : Outcome}
  {sent : Option Word}

/-- After a visit the signal of the stage visited is where the loop has it, and every stage stands
where its machine does. -/
theorem Follows.holds_record (follows : r.Follows l)
    (settles : s.Settles l.stage (.ok outcome) last after sent) (served : outcome ≠ .awaitingInput)
    (status : last.status = Machine.statusAfter .running (.ok (some outcome))) {k : Nat}
    {m' : Machine} {t : Stage} (at_loop : (l.record last outcome).machines[k]? = some m')
    (at_ring : (r.moved l.stage after sent).stages[k]? = some t) :
    t.Holds (m'.feedAll (r.arrival l.stage sent k).toList) := by
  by_cases own : k = l.stage
  · subst own
    rw [Loop.getElem?_record_self (follows.size ▸ follows.turn)] at at_loop
    rw [getElem?_moved_self follows.turn] at at_ring
    cases at_loop
    cases at_ring
    exact (settles.holds served status).accept _
  · rw [Loop.getElem?_record_of_ne own] at at_loop
    rw [getElem?_moved_of_ne own] at at_ring
    obtain ⟨old, kept, rfl⟩ := Option.map_eq_some_iff.mp at_ring
    have held := follows.holds k m' old at_loop kept
    rw [Loop.incoming, if_neg own, Option.toList_none, Machine.feedAll_nil] at held
    exact held.accept _

/-- A machine that was seen to halt is not visited again. -/
theorem Follows.halted_record (follows : r.Follows l) (there : l.machines[l.stage]? = some m)
    (live : m.isHalted = false)
    (status : last.status = Machine.statusAfter .running (.ok (some outcome))) :
    ∀ v ∈ (l.record last outcome).visits, v.suspension.outcome = .halted →
      ∃ m, (l.record last outcome).machines[v.stage]? = some m ∧ m.isHalted = true := by
  intro v visited halted
  rcases List.mem_cons.mp visited with rfl | earlier
  · refine ⟨last, Loop.getElem?_record_self (follows.size ▸ follows.turn) last outcome, ?_⟩
    rw [Machine.outcome_suspension] at halted
    simp [Machine.isHalted, status, halted, Machine.statusAfter]
  · obtain ⟨m', at_loop, stopped⟩ := follows.halted v earlier halted
    refine ⟨m', ?_, stopped⟩
    rw [Loop.getElem?_record_of_ne, at_loop]
    intro same
    rw [same, there] at at_loop
    cases at_loop
    rw [live] at stopped
    cases stopped

/-- After a visit that leaves the loop going, the ring follows once the stage visited has caught
up. -/
theorem Follows.visited {result : Option Word} (follows : r.Follows l)
    (there : l.machines[l.stage]? = some m) (live : m.isHalted = false)
    (here : r.stages[l.stage]? = some s)
    (settles : s.Settles l.stage (.ok outcome) last after sent) (served : outcome ≠ .awaitingInput)
    (status : last.status = Machine.statusAfter .running (.ok (some outcome)))
    (latest : result = ((l.record last outcome).outputs l.last).head?) :
    (r.moved l.stage after sent).Follows
      ({ l.record last outcome with result := result }.turn sent) := by
  have next : ({ l.record last outcome with result := result }.turn sent).stage =
      r.after l.stage := by
    rw [← follows.turn_eq]
    simp [Loop.turn, Loop.record]
  refine ⟨?_, ?_, ?_, ?_, ?_, follows.halted_record there live status⟩
  · simp [Loop.turn, Loop.record, follows.size]
  · rw [next, size_moved]
    exact after_lt follows.turn
  · intro k m' t at_loop at_ring
    have arriving : ({ l.record last outcome with result := result }.turn sent).incoming k =
        r.arrival l.stage sent k := by
      rw [Loop.incoming, next]
      rfl
    rw [arriving]
    exact follows.holds_record settles served status at_loop at_ring
  · intro k t at_ring
    rw [outputs_moved here follows.outputs settles.outputs at_ring]
    exact (Loop.outputs_record l last outcome k).symm
  · rw [latest]
    simp [Loop.turn, Loop.record, Loop.last, Loop.outputs]

end

/-- Where a visit ends the loop, the ring shows the outputs of every stage and has finished those
that halted. -/
theorem Follows.ended {r : Ring} {l : Loop} {last : Machine} {s after : Stage} {sent : Option Word}
    {result : Except MachineError Outcome} {order : List Nat} {t : Trial} (follows : r.Follows l)
    (here : r.stages[l.stage]? = some s) (steps : Steps order r (r.moved l.stage after sent))
    (settles : s.Settles l.stage result last after sent)
    (outputs : ∀ k, t.outputs k =
      ((if k = l.stage then Machine.emitted result else none).toList ++ l.outputs k).reverse)
    (halts : ∀ k, t.Halts k → (∃ v ∈ l.visits, v.stage = k ∧ v.suspension.outcome = .halted) ∨
      (k = l.stage ∧ result = .ok .halted))
    (answers : (r.moved l.stage after sent).Answers t t.result) :
    (r.moved l.stage after sent).Matches t := by
  refine ⟨fun k t at_ring => ?_, fun k stopped => ?_, answers⟩
  · rw [outputs_moved here follows.outputs settles.outputs at_ring, outputs]
  · rcases halts k stopped with ⟨v, visited, rfl, halted⟩ | ⟨rfl, rfl⟩
    · obtain ⟨old, there, finished⟩ := follows.halts visited halted
      exact ⟨old, steps.finished there (Stage.isFinished_iff.mpr ⟨_, finished⟩), finished⟩
    · cases settles with
      | halt finished same =>
        refine ⟨_, getElem?_moved_self follows.turn after none, ?_⟩
        rw [Stage.activity_accept, Stage.outputs_accept, finished, same]

/-- Where the ring is after a visit: with the loop, or where it ended. -/
def Attains (r : Ring) : Loop.Progress → Prop
  | .going l => r.Follows l
  | .ended t => r.Matches t

section

variable {r : Ring} {l : Loop} {m last : Machine} {s after : Stage} {sent : Option Word}
  {order : List Nat}

theorem Follows.fail {e : MachineError} (follows : r.Follows l)
    (here : r.stages[l.stage]? = some s) (steps : Steps order r (r.moved l.stage after sent))
    (settles : s.Settles l.stage (.error e) last after sent) :
    (r.moved l.stage after sent).Attains (l.conclude last (.error e)) := by
  refine follows.ended here steps settles (fun k => ?_) (fun k stopped => ?_) ?_
  · simp [Machine.emitted]
  · exact Or.inl (Loop.halts_trial.mp stopped)
  · cases settles with
    | fail finished same =>
      have visited := getElem?_moved_self follows.turn after none
      exact .failed visited (by rw [Stage.activity_accept, finished])

theorem Follows.starve (follows : r.Follows l) (here : r.stages[l.stage]? = some s)
    (steps : Steps order r (r.moved l.stage after sent))
    (settles : s.Settles l.stage (.ok .awaitingInput) last after sent) :
    (r.moved l.stage after sent).Attains (l.conclude last (.ok .awaitingInput)) := by
  refine follows.ended here steps settles (fun k => ?_) (fun k stopped => ?_) ?_
  · rw [Loop.outputs_trial, Loop.outputs_record]
  · exact Or.inl ((Loop.halts_record.mp (Loop.halts_trial.mp stopped)).resolve_right (by simp))
  · cases settles with
    | starve parked empty same =>
      have visited := getElem?_moved_self follows.turn after none
      rw [arrival_none] at visited
      exact .stalled visited parked empty

theorem Follows.output {value : Word} (follows : r.Follows l)
    (there : l.machines[l.stage]? = some m)
    (runs : (m.feedAll l.signal.toList).Runs (.ok (.output value)) last)
    (here : r.stages[l.stage]? = some s)
    (settles : s.Settles l.stage (.ok (.output value)) last after sent) :
    (r.moved l.stage after sent).Attains (l.conclude last (.ok (.output value))) := by
  have live : m.isHalted = false := runs.live
  cases settles with
  | output running caught same =>
    rw [Loop.conclude, Loop.settle, Loop.stage_record, Loop.last_record]
    split
    · next final =>
      refine follows.visited there live here (.output running caught same) (by simp) runs.status ?_
      rw [Loop.outputs_record, if_pos final.symm]
      rfl
    · next inner =>
      refine follows.visited there live here (.output running caught same) (by simp) runs.status ?_
      rw [Loop.outputs_record, if_neg (Ne.symm inner)]
      exact follows.result

theorem Follows.halt (follows : r.Follows l) (there : l.machines[l.stage]? = some m)
    (runs : (m.feedAll l.signal.toList).Runs (.ok .halted) last)
    (here : r.stages[l.stage]? = some s) (steps : Steps order r (r.moved l.stage after sent))
    (settles : s.Settles l.stage (.ok .halted) last after sent) :
    (r.moved l.stage after sent).Attains (l.conclude last (.ok .halted)) := by
  have live : m.isHalted = false := runs.live
  have unheard : ∀ k, (l.record last .halted).outputs k = l.outputs k := fun k => by
    rw [Loop.outputs_record]
    simp [Machine.emitted]
  rw [Loop.conclude, Loop.settle, Loop.stage_record, Loop.last_record]
  split
  · next final =>
    have size : (r.moved l.stage after sent).size - 1 = l.last := by
      rw [size_moved, follows.last_eq]
    have stopped : (l.record last .halted).finish.Halts l.last := by
      rw [Loop.finish_eq, Loop.halts_trial, Loop.halts_record]
      exact Or.inr ⟨final.symm, rfl⟩
    have lasts : (l.record last .halted).finish.outputs l.last = (l.outputs l.last).reverse := by
      rw [Loop.finish_eq, Loop.outputs_trial, unheard]
    refine follows.ended here steps settles (fun k => ?_) (fun k stopped => ?_) ?_
    · rw [Loop.finish_eq, Loop.outputs_trial, Loop.outputs_record]
    · rw [Loop.finish_eq, Loop.halts_trial, Loop.halts_record] at stopped
      simpa using stopped
    · have result : (l.record last .halted).finish.result =
          (l.outputs l.last).head?.elim (.error (.noOutput l.last)) .ok := by
        rw [Loop.finish_eq, Loop.last_record, ← follows.result]
        rfl
      rw [← size] at stopped lasts result
      rw [result]
      cases heard : (l.outputs ((r.moved l.stage after sent).size - 1)) with
      | nil => exact .silent stopped (by rw [lasts, heard]; rfl)
      | cons value rest => exact .signal stopped (by rw [lasts, heard]; simp)
  · next inner =>
    cases settles with
    | halt finished same =>
      refine follows.visited there live here (.halt finished same) (by simp) runs.status ?_
      rw [unheard]
      exact follows.result

end

/-- Whatever comes of a visit, the ring can be made to keep up. -/
theorem Follows.visit {fuel : Nat} {r : Ring} {l : Loop} {progress : Loop.Progress}
    (follows : r.Follows l) (h : l.visit fuel = some progress) :
    ∃ order t, Steps order r t ∧ t.Attains progress := by
  obtain ⟨s, here⟩ := exists_stage follows.turn
  have there := List.getElem?_eq_getElem (follows.size ▸ follows.turn)
  rcases Loop.visit_cases there h with ⟨halted, rfl⟩ | ⟨live, result, last, runs, rfl⟩
  · exact ⟨[], r, .done r, follows.pass there halted⟩
  · have held := follows.holds _ _ s there here
    rw [Loop.incoming, if_pos rfl] at held
    obtain ⟨running, caught⟩ := held.2 live
    obtain ⟨order, after, sent, steps, settles⟩ :=
      catches_up here running (by rw [caught]; exact runs)
    refine ⟨order, r.moved l.stage after sent, steps, ?_⟩
    cases result with
    | error e => exact follows.fail here steps settles
    | ok outcome =>
      cases outcome with
      | output value => exact follows.output there runs here settles
      | awaitingInput => exact follows.starve here steps settles
      | halted => exact follows.halt there runs here steps settles

theorem Follows.runFor {fuel visits : Nat} {r : Ring} {l : Loop} {trial : Trial}
    (follows : r.Follows l) (h : l.runFor fuel visits = some trial) :
    ∃ order t, Steps order r t ∧ t.Matches trial := by
  induction visits generalizing r l with
  | zero => cases h
  | succ visits ih =>
    simp only [Loop.runFor] at h
    split at h
    · cases h
    · next ended =>
      cases h
      exact follows.visit ended
    · next l' going =>
      obtain ⟨order, t, steps, keeps⟩ := follows.visit going
      obtain ⟨more, u, rest, matched⟩ := ih keeps h
      exact ⟨order ++ more, u, steps.append rest, matched⟩

end Ring

namespace Pipeline

theorem ne_nil_of_checkPhases {p : Pipeline} {phases : List Word}
    (valid : p.checkPhases phases = .ok ()) : phases ≠ [] := by
  rintro rfl
  rw [checkPhases] at valid
  split at valid
  · cases valid
  · next some_stages =>
    rw [if_pos (by simpa using Ne.symm some_stages)] at valid
    cases valid

theorem getElem?_ring {p : Pipeline} {phases : List Word} {k : Nat} {s : Stage}
    (here : (p.ring phases).stages[k]? = some s) : ∃ phase, phases[k]? = some phase ∧
      s = { machine := p.machine, inbox := phase :: if k = 0 then [0] else [] } := by
  simp only [ring, List.getElem?_modify, List.getElem?_map, Option.map_eq_map, Option.map_map,
    Option.map_eq_some_iff, Function.comp_apply] at here
  obtain ⟨phase, there, rfl⟩ := here
  refine ⟨phase, there, ?_⟩
  by_cases first : 0 = k
  · subst first
    rfl
  · rw [if_neg first, if_neg (Ne.symm first)]

/-- Before the first move and the first visit the inboxes hold what the machines were fed and what
is on its way to the first stage. -/
theorem ring_follows_loop {p : Pipeline} {phases : List Word} (some_stages : phases ≠ []) :
    (p.ring phases).Follows (p.loop phases) := by
  refine ⟨by simp [Ring.size, ring, loop], ?_, ?_, ?_, rfl, ?_⟩
  · simpa [Ring.size, ring, loop] using List.length_pos_iff.mpr some_stages
  · intro k m s at_loop at_ring
    obtain ⟨phase, there, rfl⟩ := getElem?_ring at_ring
    simp only [loop, List.getElem?_map, there, Option.map_some, Option.some.injEq] at at_loop
    subst at_loop
    refine ⟨fun halted => ?_, fun _ => ⟨rfl, ?_⟩⟩
    · rw [Machine.isHalted_feedAll] at halted
      cases halted
    · by_cases first : k = 0
      · subst first
        rfl
      · have quiet : (p.loop phases).incoming k = none := if_neg first
        rw [quiet]
        simp only [if_neg first]
        rfl
  · intro k s at_ring
    obtain ⟨phase, _, rfl⟩ := getElem?_ring at_ring
    rfl
  · intro v visited
    cases visited

/-- A loop that ends is matched by the ring after some steps. -/
theorem exists_matches {p : Pipeline} {phases : List Word} {fuel : Nat} {trial : Trial}
    (valid : p.checkPhases phases = .ok ()) (h : p.runFeedback fuel phases = some trial) :
    ∃ order r, Ring.Steps order (p.ring phases) r ∧ r.Matches trial := by
  simp only [runFeedback, valid] at h
  exact (ring_follows_loop (ne_nil_of_checkPhases valid)).runFor h

end Pipeline

end Intcode
