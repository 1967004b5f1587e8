import Intcode.Proofs.Machine.Attempts

/-!
# Calls

A machine is used by calls from outside: it is fed, looked at, changed and driven. `perform` makes
a call, with fuel. `Performs` says the same without fuel and lists the machines in which the call
starts an instruction. A history is made of calls one after the other, whatever they answer; what
every single change preserves, it preserves.
-/

namespace Intcode

namespace Machine

inductive Call where
  | feed (value : Word)
  | feedAll (values : List Word)
  | peek (address : Word)
  | poke (address value : Word)
  | step
  | run
  | runToHalt
deriving DecidableEq, Repr

inductive Answer where
  | done
  | peeked (result : Except MachineError Word)
  | poked (result : Except MachineError Unit)
  | stepped (result : Except MachineError (Option Outcome))
  | ran (result : Except MachineError Outcome)
  | followed (result : Except MachineError (List Word))
deriving DecidableEq

/-- The error of a call that failed. -/
def Answer.error? : Answer → Option MachineError
  | peeked (.error e) | poked (.error e) | stepped (.error e) | ran (.error e)
  | followed (.error e) => some e
  | _ => none

/-- Makes a call. The fuel is for the runs of the machine. -/
def perform (fuel : Nat) (m : Machine) : Call → Option (Answer × Machine)
  | .feed value => some (.done, m.feed value)
  | .feedAll values => some (.done, m.feedAll values)
  | .peek address => some (.peeked (m.peek address), m)
  | .poke address value =>
    match m.poke address value with
    | .error e => some (.poked (.error e), m)
    | .ok after => some (.poked (.ok ()), after)
  | .step => some (.stepped m.step.1, m.step.2)
  | .run => (m.run fuel).map fun (result, after) => (.ran result, after)
  | .runToHalt => (m.runToHalt fuel).map fun (result, after) => (.followed result, after)

namespace Call

/-- The calls that execute instructions. -/
def drives : Call → Bool
  | step | run | runToHalt => true
  | _ => false

/-- The inputs that a call feeds. -/
def fed : Call → List Word
  | feed value => [value]
  | feedAll values => values
  | _ => []

/-- The results of an instruction after which a call starts another one. -/
def goesOn : Call → Result → Prop
  | run => MovesOn
  | runToHalt => GoesOn
  | _ => fun _ => False

/-- What a call that drives a machine answers after the result of its last instruction. -/
inductive Returns : Call → List Word → Result → Machine → Answer → Prop where
  | step {outputs : List Word} {result : Result} {after : Machine} :
      Returns .step outputs result after (.stepped result)
  | run {outputs : List Word} {result : Result} {after : Machine}
      {ending : Except MachineError Outcome} (ends : ending.map some = result) :
      Returns .run outputs result after (.ran ending)
  | runToHalt {outputs : List Word} {result : Result} {after : Machine}
      {ending : Except MachineError Unit} (ends : Ends result after ending) :
      Returns .runToHalt outputs result after (.followed (ending.map fun _ => outputs))

end Call

/-- The call starts instructions in these machines, one after the other, and another one in the
last, whether or not it ever returns. -/
structure Starts (m : Machine) (call : Call) (earlier : List Machine) (s : Machine) : Prop where
  drives : call.drives = true
  live : m.isHalted = false
  reaches : Reaches call.goesOn m.resumed earlier s

/-- The call returns with this answer and leaves the machine so. It has started an instruction in
each machine of the list and in no other. -/
inductive Performs (m : Machine) (call : Call) : List Machine → Answer → Machine → Prop where
  | passive {after : Machine} {answer : Answer} (inert : call.drives = false)
      (performed : m.perform 0 call = some (answer, after)) : Performs m call [] answer after
  | refused {answer : Answer} (halted : m.isHalted = true)
      (returns : call.Returns [] (.error (m.failure .halted)) m answer) : Performs m call [] answer m
  | driven {s after : Machine} {earlier : List Machine} {result : Result} {answer : Answer}
      (starts : m.Starts call earlier s) (stops : s.execute = (result, after))
      (returns : call.Returns (earlier.filterMap output?) result after answer) :
      Performs m call (earlier ++ [s]) answer after

variable {m s after : Machine} {call : Call} {earlier starts : List Machine} {answer : Answer}

theorem Call.Returns.drives {outputs : List Word} {result : Result}
    (returns : call.Returns outputs result after answer) : call.drives = true := by
  cases returns <;> rfl

theorem Call.onward {result : Result} (goes : call.goesOn result) : GoesOn result := by
  cases call with
  | run => exact .inl goes
  | runToHalt => exact goes
  | feed | feedAll | peek | poke | step => cases goes

theorem Call.ok_of_goesOn {result : Result} (goes : call.goesOn result) :
    ∃ outcome, result = .ok outcome := by
  obtain ⟨outcome, fine, -⟩ := (Call.onward goes).served
  exact ⟨outcome, fine⟩

theorem Call.not_goesOn_error (call : Call) (e : MachineError) : ¬ call.goesOn (.error e) := by
  intro goes
  obtain ⟨outcome, fine⟩ := Call.ok_of_goesOn goes
  cases fine

theorem Call.Returns.error?_eq {outputs : List Word} {e : MachineError}
    (returns : call.Returns outputs (.error e) after answer) : answer.error? = some e := by
  cases returns with
  | step => rfl
  | @run _ _ _ ending ends =>
    cases ending with
    | error e' =>
      cases ends
      rfl
    | ok outcome => cases ends
  | runToHalt ends =>
    cases ends
    rfl

theorem Call.Returns.stops {outputs : List Word} {result : Result}
    (returns : call.Returns outputs result after answer) : ¬ call.goesOn result := by
  intro goes
  cases returns with
  | step => exact goes
  | @run _ _ _ ending ends => cases ending <;> cases ends.trans goes
  | runToHalt ends =>
    rcases goes with plain | ⟨value, puts⟩
    · cases ends <;> cases plain
    · cases ends <;> cases puts

theorem Call.Returns.unique {outputs : List Word} {result : Result} {other : Answer}
    (one : call.Returns outputs result after answer)
    (two : call.Returns outputs result after other) : answer = other := by
  cases one with
  | step =>
    cases two
    rfl
  | @run _ _ _ ending ends =>
    cases two with
    | @run _ _ _ others same =>
      subst ends
      cases ending <;> cases others <;> cases same <;> rfl
  | runToHalt ends =>
    cases two with
    | runToHalt same => cases ends <;> cases same <;> rfl

/-- A run to the halt that returns outputs has come to the halt. -/
theorem halted_of_returns {before outputs : List Word} {result : Result}
    (returns : Call.runToHalt.Returns before result after (.followed (.ok outputs))) :
    result = .ok (some .halted) := by
  generalize same : Answer.followed (.ok outputs) = answer at returns
  cases returns with
  | runToHalt ends =>
    cases ends with
    | failed | starved => cases same
    | halted => rfl

/-- A call that does not go on returns. -/
theorem Call.exists_returns (drives : call.drives = true) {result : Result}
    (stops : ¬ call.goesOn result) (outputs : List Word) (after : Machine) :
    ∃ answer, call.Returns outputs result after answer := by
  cases call with
  | feed | feedAll | peek | poke => cases drives
  | step => exact ⟨_, .step⟩
  | run =>
    rcases result with e | _ | outcome
    · exact ⟨.ran (.error e), .run rfl⟩
    · exact absurd rfl stops
    · exact ⟨.ran (.ok outcome), .run rfl⟩
  | runToHalt =>
    rcases result with e | _ | value | _ | _
    · exact ⟨_, .runToHalt .failed⟩
    · exact absurd (.inl rfl) stops
    · exact absurd (.inr ⟨value, rfl⟩) stops
    · exact ⟨_, .runToHalt .starved⟩
    · exact ⟨_, .runToHalt .halted⟩

theorem performs_inert_iff (inert : call.drives = false) :
    (∃ starts, m.Performs call starts answer after) ↔ m.perform 0 call = some (answer, after) := by
  constructor
  · rintro ⟨_, performs⟩
    cases performs with
    | passive _ performed => exact performed
    | refused _ returns | driven _ _ returns => cases inert.symm.trans returns.drives
  · intro performed
    exact ⟨[], .passive inert performed⟩

theorem performs_step_iff :
    (∃ starts, m.Performs .step starts answer after) ↔
      answer = .stepped m.step.1 ∧ after = m.step.2 := by
  constructor
  · rintro ⟨_, performs⟩
    cases performs with
    | passive inert => cases inert
    | refused halted returns =>
      cases returns
      rw [step_of_isHalted halted]
      exact ⟨rfl, rfl⟩
    | driven starts stops returns =>
      cases returns
      cases starts.reaches with
      | here =>
        rw [step_of_live starts.live, stops]
        exact ⟨rfl, rfl⟩
      | next goes => cases goes
  · rintro ⟨rfl, rfl⟩
    cases halted : m.isHalted with
    | true =>
      rw [step_of_isHalted halted]
      exact ⟨[], .refused halted .step⟩
    | false =>
      rw [step_of_live halted]
      exact ⟨_, .driven ⟨rfl, halted, .here m.resumed⟩ rfl .step⟩

theorem performs_run_iff :
    (∃ starts, m.Performs .run starts answer after) ↔
      ∃ result, answer = .ran result ∧ m.Runs result after := by
  constructor
  · rintro ⟨_, performs⟩
    cases performs with
    | passive inert => cases inert
    | refused halted returns =>
      cases returns with
      | @run _ _ _ ending ends =>
        cases ending with
        | error e =>
          cases ends
          exact ⟨_, rfl, runs_of_isHalted halted⟩
        | ok outcome => cases ends
    | driven starts stops returns =>
      cases returns with
      | run ends =>
        subst ends
        exact ⟨_, rfl, (runs_iff_reaches starts.live).mpr ⟨_, _, starts.reaches, stops⟩⟩
  · rintro ⟨result, rfl, runs⟩
    cases halted : m.isHalted with
    | true =>
      obtain ⟨rfl, rfl⟩ := runs.unique (runs_of_isHalted halted)
      exact ⟨[], .refused halted (.run rfl)⟩
    | false =>
      obtain ⟨earlier, s, reaches, stops⟩ := (runs_iff_reaches halted).mp runs
      exact ⟨_, .driven ⟨rfl, halted, reaches⟩ stops (.run rfl)⟩

theorem performs_runToHalt_iff :
    (∃ starts, m.Performs .runToHalt starts answer after) ↔
      ∃ outputs ending, answer = .followed (ending.map fun _ => outputs) ∧
        Follows m outputs ending after := by
  constructor
  · rintro ⟨_, performs⟩
    cases performs with
    | passive inert => cases inert
    | refused halted returns =>
      cases returns with
      | runToHalt ends =>
        cases ends
        exact ⟨[], _, rfl, .failed (runs_of_isHalted halted)⟩
    | driven starts stops returns =>
      cases returns with
      | runToHalt ends =>
        have follows := starts.reaches.follows rfl stops ends
        exact ⟨_, _, rfl, follows.of_resumed starts.live⟩
  · rintro ⟨outputs, ending, rfl, follows⟩
    cases halted : m.isHalted with
    | true =>
      obtain ⟨rfl, rfl, rfl⟩ := follows.of_isHalted halted
      exact ⟨[], .refused halted (.runToHalt .failed)⟩
    | false =>
      obtain ⟨earlier, s, result, reaches, stops, ends, rfl⟩ := follows.reaches halted
      exact ⟨_, .driven ⟨rfl, halted, reaches⟩ stops (.runToHalt ends)⟩

/-- Calls return what they return with enough fuel. -/
theorem performs_iff_perform :
    (∃ starts, m.Performs call starts answer after) ↔
      ∃ fuel, m.perform fuel call = some (answer, after) := by
  cases call with
  | feed | feedAll | peek | poke =>
    rw [performs_inert_iff rfl]
    exact ⟨fun performed => ⟨0, performed⟩, fun ⟨_, performed⟩ => performed⟩
  | step =>
    rw [performs_step_iff]
    simp [perform, eq_comm]
  | run =>
    rw [performs_run_iff]
    simp only [perform, Option.map_eq_some_iff, Prod.exists, Prod.mk.injEq]
    constructor
    · rintro ⟨result, rfl, fuel, ran⟩
      exact ⟨fuel, result, after, ran, rfl, rfl⟩
    · rintro ⟨fuel, result, _, ran, rfl, rfl⟩
      exact ⟨result, rfl, fuel, ran⟩
  | runToHalt =>
    rw [performs_runToHalt_iff]
    simp only [perform, Option.map_eq_some_iff, Prod.exists, Prod.mk.injEq]
    constructor
    · rintro ⟨outputs, ending, rfl, follows⟩
      obtain ⟨fuel, ran⟩ := runToHalt_iff_follows.mpr ⟨outputs, ending, follows, rfl⟩
      exact ⟨fuel, _, after, ran, rfl, rfl⟩
    · rintro ⟨fuel, result, _, ran, rfl, rfl⟩
      obtain ⟨outputs, ending, follows, rfl⟩ := runToHalt_iff_follows.mp ⟨fuel, ran⟩
      exact ⟨outputs, ending, rfl, follows⟩

theorem performs_of_runToHalt {fuel : Nat} {result : Except MachineError (List Word)}
    (ran : m.runToHalt fuel = some (result, after)) :
    ∃ starts, m.Performs .runToHalt starts (.followed result) after := by
  refine performs_iff_perform.mpr ⟨fuel, ?_⟩
  simp only [perform, ran, Option.map_some]

/-- A call has one answer, one machine that it leaves and one course. -/
theorem Performs.unique {others : List Machine} {other : Answer} {left : Machine}
    (one : m.Performs call starts answer after) (two : m.Performs call others other left) :
    starts = others ∧ answer = other ∧ after = left := by
  cases one with
  | passive inert performed =>
    cases two with
    | passive _ again =>
      cases performed.symm.trans again
      exact ⟨rfl, rfl, rfl⟩
    | refused _ returns | driven _ _ returns => cases inert.symm.trans returns.drives
  | refused halted returns =>
    cases two with
    | passive inert => cases inert.symm.trans returns.drives
    | refused _ again => exact ⟨rfl, returns.unique again, rfl⟩
    | driven starts => cases halted.symm.trans starts.live
  | driven starts stops returns =>
    cases two with
    | passive inert => cases inert.symm.trans returns.drives
    | refused halted => cases halted.symm.trans starts.live
    | driven begins ends again =>
      obtain ⟨rfl, rfl⟩ := starts.reaches.unique begins.reaches (by rw [stops]; exact returns.stops)
        (by rw [ends]; exact again.stops)
      cases stops.symm.trans ends
      exact ⟨rfl, returns.unique again, rfl⟩

/-- Fuel does not change what a run to the halt returns. -/
theorem runToHalt_unique {fuel more : Nat} {result other : Except MachineError (List Word)}
    {left : Machine} (one : m.runToHalt fuel = some (result, after))
    (two : m.runToHalt more = some (other, left)) : result = other ∧ after = left := by
  obtain ⟨starts, performs⟩ := performs_of_runToHalt one
  obtain ⟨others, again⟩ := performs_of_runToHalt two
  obtain ⟨-, same, left⟩ := performs.unique again
  exact ⟨Answer.followed.inj same, left⟩

/-- A call that executes nothing feeds its inputs and may change the memory. -/
theorem perform_inert {fuel : Nat} (inert : call.drives = false)
    (performed : m.perform fuel call = some (answer, after)) :
    ∃ memory, after = { m.feedAll call.fed with memory } := by
  cases call with
  | feed value | feedAll values =>
    cases performed
    exact ⟨m.memory, rfl⟩
  | peek address =>
    cases performed
    exact ⟨m.memory, by simp [Call.fed, feedAll]⟩
  | poke address value =>
    simp only [perform, poke] at performed
    cases target : m.memory.target address with
    | error e =>
      simp only [target] at performed
      cases performed
      exact ⟨m.memory, by simp [Call.fed, feedAll]⟩
    | ok index =>
      simp only [target] at performed
      cases performed
      exact ⟨m.memory.write index value, by simp [Call.fed, feedAll]⟩
  | step | run | runToHalt => cases inert

theorem perform_updates {fuel : Nat} (inert : call.drives = false)
    (performed : m.perform fuel call = some (answer, after)) :
    m.memory.Updates after.memory := by
  cases call with
  | feed | feedAll | peek =>
    cases performed
    exact .same
  | poke address value =>
    simp only [perform, poke] at performed
    cases target : m.memory.target address with
    | error e =>
      simp only [target] at performed
      cases performed
      exact .same
    | ok index =>
      simp only [target] at performed
      cases performed
      exact .write (Memory.admits_of_target target)
  | step | run | runToHalt => cases inert

theorem fed_of_drives (drives : call.drives = true) : call.fed = [] := by
  cases call with
  | feed | feedAll | peek | poke => cases drives
  | step | run | runToHalt => rfl

theorem Starts.onward (starts : m.Starts call earlier s) : Reaches GoesOn m.resumed earlier s :=
  starts.reaches.mono fun _ => Call.onward

theorem Performs.running (performs : m.Performs call starts answer after) :
    ∀ t ∈ starts, t.status = .running := by
  cases performs with
  | passive | refused => exact List.forall_mem_nil _
  | driven starts =>
    obtain ⟨each, last⟩ := starts.onward.running rfl
    exact List.forall_mem_append.mpr ⟨each, List.forall_mem_singleton.mpr last⟩

/-- An instruction that fails is the last one of its call, which fails with it. -/
theorem Performs.fails {e : MachineError} (performs : m.Performs call starts answer after)
    (inside : s ∈ starts) (failed : s.execute.1 = .error e) :
    answer.error? = some e ∧ after = s.execute.2 := by
  cases performs with
  | passive | refused => cases inside
  | @driven last _ earlier result _ starts stops returns =>
    rcases List.mem_append.mp inside with before | here
    · obtain ⟨outcome, fine⟩ := Call.ok_of_goesOn (starts.reaches.goes s before)
      cases fine.symm.trans failed
    · cases List.mem_singleton.mp here
      rw [stops] at failed
      subst failed
      exact ⟨returns.error?_eq, by rw [stops]⟩

/-! ## Histories -/

/-- The machine performs the calls, with these answers and starts of instructions, and is left so. -/
inductive History : Machine → List Call → List Machine → List Answer → Machine → Prop where
  | done (m : Machine) : History m [] [] [] m
  | call {m mid last : Machine} {call : Call} {calls : List Call} {starts more : List Machine}
      {answer : Answer} {answers : List Answer} (performs : m.Performs call starts answer mid)
      (rest : History mid calls more answers last) :
      History m (call :: calls) (starts ++ more) (answer :: answers) last

theorem History.unique {calls : List Call} {answers others : List Answer} {more : List Machine}
    {last left : Machine} (one : m.History calls starts answers last)
    (two : m.History calls more others left) :
    starts = more ∧ answers = others ∧ last = left := by
  induction one generalizing more others with
  | done m =>
    cases two
    exact ⟨rfl, rfl, rfl⟩
  | call performs rest ih =>
    cases two with
    | call again onward =>
      obtain ⟨rfl, rfl, rfl⟩ := performs.unique again
      obtain ⟨rfl, rfl, rfl⟩ := ih onward
      exact ⟨rfl, rfl, rfl⟩

theorem History.fails {calls : List Call} {answers : List Answer} {last : Machine}
    {e : MachineError} (history : m.History calls starts answers last) (inside : s ∈ starts)
    (failed : s.execute.1 = .error e) : ∃ answer ∈ answers, answer.error? = some e := by
  induction history with
  | done m => cases inside
  | @call m mid last call calls starts more answer answers performs rest ih =>
    rcases List.mem_append.mp inside with now | later
    · exact ⟨answer, List.mem_cons_self, (performs.fails now failed).1⟩
    · obtain ⟨other, member, found⟩ := ih later
      exact ⟨other, List.mem_cons_of_mem _ member, found⟩

/-- What feeding, storing a value in a cell, waking up and executing maintain. -/
structure Maintained (P : Machine → Prop) : Prop where
  feeds : ∀ m values, P m → P (m.feedAll values)
  stores : ∀ (m : Machine) index value, m.memory.admits index = true → P m →
    P { m with memory := m.memory.write index value }
  resumes : ∀ m, P m → P m.resumed
  executes : ∀ m, P m → P m.execute.2

theorem Maintained.performs {P : Machine → Prop} (maintained : Maintained P) (start : P m)
    (performs : m.Performs call starts answer after) : (∀ s ∈ starts, P s) ∧ P after := by
  cases performs with
  | passive inert performed =>
    obtain ⟨memory, rfl⟩ := perform_inert inert performed
    have fed := maintained.feeds m call.fed start
    have updates : m.memory.Updates memory := perform_updates inert performed
    cases updates with
    | same => exact ⟨List.forall_mem_nil _, fed⟩
    | write admitted =>
      exact ⟨List.forall_mem_nil _, maintained.stores (m.feedAll call.fed) _ _ admitted fed⟩
  | refused => exact ⟨List.forall_mem_nil _, start⟩
  | @driven s after earlier result answer begins stops returns =>
    obtain ⟨each, last⟩ := begins.reaches.keeps maintained.executes (maintained.resumes m start)
    have left : s.execute.2 = after := by rw [stops]
    exact ⟨List.forall_mem_append.mpr ⟨each, List.forall_mem_singleton.mpr last⟩,
      left ▸ maintained.executes s last⟩

theorem Maintained.history {P : Machine → Prop} (maintained : Maintained P) (start : P m)
    {calls : List Call} {answers : List Answer} {last : Machine}
    (history : m.History calls starts answers last) : (∀ s ∈ starts, P s) ∧ P last := by
  induction history with
  | done m => exact ⟨List.forall_mem_nil _, start⟩
  | call performs rest ih =>
    obtain ⟨first, mid⟩ := maintained.performs start performs
    obtain ⟨later, final⟩ := ih mid
    exact ⟨List.forall_mem_append.mpr ⟨first, later⟩, final⟩

theorem maintained_size (size : Nat) : Maintained fun t => size ≤ t.memory.size where
  feeds _ _ large := large
  stores m index value admitted large := by
    have grown := Memory.size_write admitted value
    simp only [grown]
    omega
  resumes _ large := large
  executes m large := Nat.le_trans large (execute_updates m).size_le

/-- Memory never shrinks. -/
theorem Performs.size_le (performs : m.Performs call starts answer after) :
    m.memory.size ≤ after.memory.size :=
  ((maintained_size m.memory.size).performs (Nat.le_refl _) performs).2

/-- What feeding, changing the memory, waking up and executing preserve. -/
structure Preserved (P : Machine → Prop) : Prop where
  feeds : ∀ m values, P m → P (m.feedAll values)
  stores : ∀ (m : Machine) memory, P m → P { m with memory }
  resumes : ∀ m, P m → P m.resumed
  executes : ∀ m, P m → P m.execute.2

theorem Preserved.maintained {P : Machine → Prop} (preserved : Preserved P) : Maintained P where
  feeds := preserved.feeds
  stores m _ _ _ := preserved.stores m _
  resumes := preserved.resumes
  executes := preserved.executes

theorem Preserved.performs {P : Machine → Prop} (preserved : Preserved P) (start : P m)
    (performs : m.Performs call starts answer after) : (∀ s ∈ starts, P s) ∧ P after :=
  preserved.maintained.performs start performs

theorem Preserved.history {P : Machine → Prop} (preserved : Preserved P) (start : P m)
    {calls : List Call} {answers : List Answer} {last : Machine}
    (history : m.History calls starts answers last) : (∀ s ∈ starts, P s) ∧ P last :=
  preserved.maintained.history start history

/-- Makes calls one after the other. -/
def performAll (fuel : Nat) : List Call → Machine → Option (List Answer × Machine)
  | [], m => some ([], m)
  | call :: calls, m =>
    match m.perform fuel call with
    | none => none
    | some (answer, mid) =>
      (performAll fuel calls mid).map fun (answers, last) => (answer :: answers, last)

theorem history_of_performAll {fuel : Nat} {calls : List Call} {answers : List Answer}
    {last : Machine} (performed : performAll fuel calls m = some (answers, last)) :
    ∃ starts, m.History calls starts answers last := by
  induction calls generalizing m answers with
  | nil =>
    cases performed
    exact ⟨[], .done _⟩
  | cons call calls ih =>
    simp only [performAll] at performed
    split at performed
    · cases performed
    · next answer mid made =>
      obtain ⟨⟨others, left⟩, rest, same⟩ := Option.map_eq_some_iff.mp performed
      cases same
      obtain ⟨starts, performs⟩ := performs_iff_perform.mpr ⟨fuel, made⟩
      obtain ⟨more, history⟩ := ih rest
      exact ⟨starts ++ more, .call performs history⟩

end Machine

end Intcode
