import Intcode.Pipeline.Ring
import Intcode.Proofs.Machine.Runs

/-!
# Moves of a ring

A move changes the stage that makes it and, if it sends a signal, the inbox of the stage after that
one. `Stage.Acts` says what a stage can do with what it has and `Ring.moved` where this leaves the
ring; every step is of this form. What actions and arriving signals preserve is preserved by every
order of steps.
-/

namespace Intcode

namespace Stage

/-- Takes in the signal that arrives, if one does. -/
def accept (s : Stage) : Option Word → Stage
  | none => s
  | some value => s.deliver value

/-- What a stage does next: the stage that it becomes and the signal that it sends. Its index is
named by errors, and `closed` tells whether the stage before it has finished. -/
inductive Acts (i : Nat) (closed : Bool) (s : Stage) : Stage → Option Word → Prop where
  | output {value : Word} {m : Machine} (running : s.activity = .run)
      (runs : s.machine.Runs (.ok (.output value)) m) :
      Acts i closed s { s with machine := m, outputs := value :: s.outputs } (some value)
  | starve {m : Machine} (running : s.activity = .run)
      (runs : s.machine.Runs (.ok .awaitingInput) m) :
      Acts i closed s { s with machine := m, activity := .receive } none
  | halt {m : Machine} (running : s.activity = .run) (runs : s.machine.Runs (.ok .halted) m) :
      Acts i closed s ({ s with machine := m }.finish (.ok s.outputs.head?)) none
  | fail {e : MachineError} {m : Machine} (running : s.activity = .run)
      (runs : s.machine.Runs (.error e) m) :
      Acts i closed s ({ s with machine := m }.finish (.error (.machine i e))) none
  | receive {value : Word} {rest : List Word} (parked : s.activity = .receive)
      (queue : s.inbox = value :: rest) :
      Acts i closed s { s with
        machine := s.machine.feed value
        inbox := rest
        activity := .run } none
  | close (parked : s.activity = .receive) (empty : s.inbox = []) (shut : closed = true) :
      Acts i closed s (s.finish (.error (.inputClosed i))) none

theorem isFinished_iff {s : Stage} :
    s.isFinished = true ↔ ∃ result, s.activity = .finished result := by
  cases doing : s.activity <;> simp [isFinished, result?, doing]

theorem result?_eq_some_iff {s : Stage} {result : StageResult} :
    s.result? = some result ↔ s.activity = .finished result := by
  cases doing : s.activity <;> simp [result?, doing]

@[simp] theorem machine_accept (s : Stage) (sent : Option Word) :
    (s.accept sent).machine = s.machine := by
  cases sent with
  | none => rfl
  | some value => simp only [accept, deliver]; split <;> rfl

@[simp] theorem activity_accept (s : Stage) (sent : Option Word) :
    (s.accept sent).activity = s.activity := by
  cases sent with
  | none => rfl
  | some value => simp only [accept, deliver]; split <;> rfl

@[simp] theorem outputs_accept (s : Stage) (sent : Option Word) :
    (s.accept sent).outputs = s.outputs := by
  cases sent with
  | none => rfl
  | some value => simp only [accept, deliver]; split <;> rfl

@[simp] theorem isFinished_accept (s : Stage) (sent : Option Word) :
    (s.accept sent).isFinished = s.isFinished := by
  simp [isFinished, result?]

theorem accept_of_isFinished {s : Stage} (finished : s.isFinished = true)
    (sent : Option Word) : s.accept sent = s := by
  cases sent with
  | none => rfl
  | some value => simp [accept, deliver, finished]

theorem accept_of_not_isFinished {s : Stage} (unfinished : s.isFinished = false)
    (sent : Option Word) : s.accept sent = { s with inbox := s.inbox ++ sent.toList } := by
  cases sent with
  | none => simp [accept]
  | some value => simp [accept, deliver, unfinished]

theorem isFinished_of_activity_eq_run {s : Stage} (running : s.activity = .run) :
    s.isFinished = false := by
  simp [isFinished, result?, running]

theorem isFinished_of_activity_eq_receive {s : Stage} (parked : s.activity = .receive) :
    s.isFinished = false := by
  simp [isFinished, result?, parked]

@[simp] theorem isFinished_finish (s : Stage) (result : StageResult) :
    (s.finish result).isFinished = true :=
  rfl

theorem Acts.unfinished {i : Nat} {closed : Bool} {s after : Stage} {sent : Option Word}
    (acts : s.Acts i closed after sent) : s.isFinished = false := by
  cases acts with
  | output running | starve running | halt running | fail running =>
    exact isFinished_of_activity_eq_run running
  | receive parked | close parked => exact isFinished_of_activity_eq_receive parked

/-- While the stage before may still send, arrivals and its end do not change what a stage does. -/
theorem Acts.accept {i : Nat} {s after : Stage} {sent : Option Word}
    (acts : s.Acts i false after sent) (closed : Bool) (arriving : Option Word) :
    (s.accept arriving).Acts i closed (after.accept arriving) sent := by
  rw [accept_of_not_isFinished acts.unfinished]
  cases acts with
  | @output value m running runs =>
    have still : isFinished { s with machine := m, outputs := value :: s.outputs } = false :=
      isFinished_of_activity_eq_run running
    rw [accept_of_not_isFinished still]
    exact .output (s := { s with inbox := s.inbox ++ arriving.toList }) running runs
  | starve running runs =>
    rw [accept_of_not_isFinished (isFinished_of_activity_eq_receive rfl)]
    exact .starve (s := { s with inbox := s.inbox ++ arriving.toList }) running runs
  | halt running runs =>
    rw [accept_of_isFinished (isFinished_finish _ _)]
    exact .halt (s := { s with inbox := s.inbox ++ arriving.toList }) running runs
  | fail running runs =>
    rw [accept_of_isFinished (isFinished_finish _ _)]
    exact .fail (s := { s with inbox := s.inbox ++ arriving.toList }) running runs
  | receive parked queue =>
    rw [accept_of_not_isFinished (isFinished_of_activity_eq_run rfl)]
    exact .receive (s := { s with inbox := s.inbox ++ arriving.toList }) parked
      (by simp only [queue, List.cons_append])
  | close parked empty shut => cases shut

end Stage

namespace Ring

/-- The ring after an action of a stage. -/
def moved (r : Ring) (i : Nat) (s : Stage) : Option Word → Ring
  | none => r.put i s
  | some value => (r.put i s).send i value

/-- A step is an action of the stage that makes it. -/
theorem step_iff {i : Nat} {r t : Ring} :
    Step i r t ↔ ∃ s after sent, r.stages[i]? = some s ∧
      s.Acts i (r.closed i) after sent ∧ t = r.moved i after sent := by
  constructor
  · rintro ⟨fuel, move, h, rfl⟩
    rw [advance] at h
    split at h
    · cases h
    · rename_i s here
      refine ⟨s, ?_⟩
      split at h
      · cases h
      · rename_i running
        split at h
        · cases h
        · rename_i e m ran
          cases h
          exact ⟨_, none, here, .fail running ⟨fuel, ran⟩, rfl⟩
        · rename_i outcome m ran
          cases h
          cases outcome with
          | output value => exact ⟨_, some value, here, .output running ⟨fuel, ran⟩, rfl⟩
          | awaitingInput => exact ⟨_, none, here, .starve running ⟨fuel, ran⟩, rfl⟩
          | halted => exact ⟨_, none, here, .halt running ⟨fuel, ran⟩, rfl⟩
      · rename_i parked
        split at h
        · rename_i value rest queue
          cases h
          exact ⟨_, none, here, .receive parked queue, rfl⟩
        · rename_i empty
          split at h
          · rename_i shut
            cases h
            exact ⟨_, none, here, .close parked empty shut, rfl⟩
          · cases h
  · rintro ⟨⟨m, inbox, activity, outputs⟩, after, sent, here, acts, rfl⟩
    suffices made : ∃ fuel suspension,
        r.advance fuel i = some ⟨r.moved i after sent, suspension⟩ by
      obtain ⟨fuel, suspension, advanced⟩ := made
      exact ⟨fuel, _, advanced, rfl⟩
    cases acts with
    | output running runs | starve running runs | halt running runs | fail running runs =>
      obtain ⟨fuel, ran⟩ := runs
      cases running
      refine ⟨fuel, ?_⟩
      simp only [advance, here, ran]
      exact ⟨_, rfl⟩
    | receive parked queue =>
      cases parked
      cases queue
      exact ⟨0, none, by simp only [advance, here]; rfl⟩
    | close parked empty shut =>
      cases parked
      cases empty
      exact ⟨0, none, by simp only [advance, here, shut, if_true]; rfl⟩

@[simp] theorem size_put (r : Ring) (i : Nat) (s : Stage) : (r.put i s).size = r.size := by
  simp [put, size]

@[simp] theorem size_moved (r : Ring) (i : Nat) (s : Stage) (sent : Option Word) :
    (r.moved i s sent).size = r.size := by
  cases sent with
  | none => exact size_put r i s
  | some value => simp [moved, send, put, size]

theorem lt_size_of_getElem? {r : Ring} {i : Nat} {s : Stage} (here : r.stages[i]? = some s) :
    i < r.size :=
  (List.getElem?_eq_some_iff.mp here).1

theorem after_eq {r : Ring} {i : Nat} (h : i < r.size) :
    r.after i = if i + 1 = r.size then 0 else i + 1 := by
  rw [after]
  split
  · next last => rw [last, Nat.mod_self]
  · next inner => exact Nat.mod_eq_of_lt (by omega)

theorem before_eq {r : Ring} {i : Nat} (h : i < r.size) :
    r.before i = if i = 0 then r.size - 1 else i - 1 := by
  rw [before]
  split
  · next first => rw [first, Nat.zero_add]; exact Nat.mod_eq_of_lt (by omega)
  · next inner =>
    rw [show i + (r.size - 1) = i - 1 + r.size by omega, Nat.add_mod_right]
    exact Nat.mod_eq_of_lt (by omega)

theorem after_lt {r : Ring} {i : Nat} (h : i < r.size) : r.after i < r.size := by
  rw [after_eq h]
  split <;> omega

theorem before_after {r : Ring} {i : Nat} (h : i < r.size) : r.before (r.after i) = i := by
  rw [before_eq (after_lt h), after_eq h]
  split <;> split <;> omega

theorem after_injective {r : Ring} {i j : Nat} (hi : i < r.size) (hj : j < r.size)
    (same : r.after i = r.after j) : i = j := by
  rw [← before_after hi, same, before_after hj]

/-- What a stage gets when stage `i` sends. -/
def arrival (r : Ring) (i : Nat) (sent : Option Word) (k : Nat) : Option Word :=
  if k = r.after i then sent else none

@[simp] theorem arrival_none (r : Ring) (i k : Nat) : r.arrival i none k = none := by
  simp [arrival]

theorem getElem?_put_self {r : Ring} {i : Nat} (h : i < r.size) (s : Stage) :
    (r.put i s).stages[i]? = some s :=
  List.getElem?_set_self h

theorem getElem?_moved_self {r : Ring} {i : Nat} (h : i < r.size) (s : Stage)
    (sent : Option Word) :
    (r.moved i s sent).stages[i]? = some (s.accept (r.arrival i sent i)) := by
  cases sent with
  | none => rw [arrival_none]; exact getElem?_put_self h s
  | some value =>
    have same : (r.put i s).after i = r.after i := by simp [after]
    simp only [moved, send, same, List.getElem?_modify, getElem?_put_self h, Option.map_eq_map,
      Option.map_some]
    by_cases alone : r.after i = i
    · simp [arrival, alone, Stage.accept]
    · simp [arrival, alone, Ne.symm alone, Stage.accept]

theorem getElem?_moved_of_ne {r : Ring} {i k : Nat} (apart : k ≠ i) (s : Stage)
    (sent : Option Word) :
    (r.moved i s sent).stages[k]? =
      r.stages[k]?.map fun old => old.accept (r.arrival i sent k) := by
  have kept : (r.put i s).stages[k]? = r.stages[k]? := by
    simp [put, List.getElem?_set_ne (Ne.symm apart)]
  cases sent with
  | none => simp [moved, kept, Stage.accept]
  | some value =>
    have same : (r.put i s).after i = r.after i := by simp [after]
    simp only [moved, send, same, List.getElem?_modify, kept, Option.map_eq_map]
    by_cases next : r.after i = k
    · simp [arrival, next, Stage.accept]
    · simp [arrival, next, Ne.symm next, Stage.accept]

theorem eq_of_getElem? {r t : Ring} (same : ∀ k : Nat, r.stages[k]? = t.stages[k]?) : r = t := by
  cases r
  cases t
  exact congrArg Ring.mk (List.ext_getElem? same)

theorem Step.size {i : Nat} {r t : Ring} (step : Step i r t) : t.size = r.size := by
  obtain ⟨s, after, sent, _, _, rfl⟩ := step_iff.mp step
  exact size_moved r i after sent

theorem Steps.size {order : List Nat} {r t : Ring} (steps : Steps order r t) :
    t.size = r.size := by
  induction steps with
  | done r => rfl
  | move step _ ih => exact ih.trans step.size

theorem Steps.single {i : Nat} {r t : Ring} (step : Step i r t) : Steps [i] r t :=
  .move step (.done t)

theorem Steps.append {order more : List Nat} {r s t : Ring} (first : Steps order r s)
    (rest : Steps more s t) : Steps (order ++ more) r t := by
  induction first with
  | done r => exact rest
  | move step _ ih => exact .move step (ih rest)

/-- What a stage keeps through every action and arrival, it keeps through every order of steps. -/
theorem Steps.relates (Keeps : Nat → Stage → Stage → Prop) (refl : ∀ i s, Keeps i s s)
    (trans : ∀ i a b c, Keeps i a b → Keeps i b c → Keeps i a c)
    (acts : ∀ i closed s after sent, s.Acts i closed after sent → Keeps i s after)
    (accepts : ∀ i s arriving, Keeps i s (s.accept arriving))
    {order : List Nat} {r t : Ring} (steps : Steps order r t) {k : Nat} {s : Stage}
    (here : r.stages[k]? = some s) : ∃ after, t.stages[k]? = some after ∧ Keeps k s after := by
  induction steps generalizing s with
  | done r => exact ⟨s, here, refl k s⟩
  | @move i order r middle t step _ ih =>
    obtain ⟨old, new, sent, there, acting, rfl⟩ := step_iff.mp step
    by_cases own : k = i
    · subst own
      cases there.symm.trans here
      obtain ⟨after, left, kept⟩ :=
        ih (getElem?_moved_self (lt_size_of_getElem? here) new sent)
      exact ⟨after, left, trans _ _ _ _
        (trans _ _ _ _ (acts _ _ _ _ _ acting) (accepts _ _ _)) kept⟩
    · obtain ⟨after, left, kept⟩ := ih (by rw [getElem?_moved_of_ne own, here]; rfl)
      exact ⟨after, left, trans _ _ _ _ (accepts _ _ _) kept⟩

/-- A finished stage stays as it is. -/
theorem Steps.finished {order : List Nat} {r t : Ring} (steps : Steps order r t) {k : Nat}
    {s : Stage} (here : r.stages[k]? = some s) (finished : s.isFinished = true) :
    t.stages[k]? = some s := by
  obtain ⟨after, left, same⟩ := steps.relates
    (fun _ s after => s.isFinished = true → after = s)
    (fun _ _ _ => rfl)
    (fun _ a b c ab bc done => by
      cases ab done
      exact bc done)
    (fun _ _ _ _ _ acts done => by
      rw [acts.unfinished] at done
      cases done)
    (fun _ s arriving done => Stage.accept_of_isFinished done arriving)
    here
  rw [left, same finished]

/-- Outputs are only ever added. -/
theorem Steps.outputs {order : List Nat} {r t : Ring} (steps : Steps order r t) {k : Nat}
    {s : Stage} (here : r.stages[k]? = some s) :
    ∃ after, t.stages[k]? = some after ∧ s.outputs <:+ after.outputs := by
  refine steps.relates (fun _ s after => s.outputs <:+ after.outputs)
    (fun _ s => List.suffix_refl s.outputs) (fun _ _ _ _ ab bc => ab.trans bc) ?_ ?_ here
  · intro i closed s after sent acts
    cases acts with
    | output => exact List.suffix_cons _ _
    | starve | halt | fail | receive | close => exact List.suffix_refl _
  · intro i s arriving
    simp only [Stage.outputs_accept, List.suffix_refl]

end Ring

end Intcode
