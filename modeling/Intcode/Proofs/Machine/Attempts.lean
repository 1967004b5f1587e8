import Intcode.Proofs.Machine.Runs

/-!
# Attempts

A machine that is driven attempts one instruction after the other until something comes of one that
stops it. A run stops at everything but a plain instruction, a run to the halt also goes on after
outputs. `Reaches` lists the machines in which the instructions on the way are started; it holds of
unfinished runs too. From it come the runs and, as a chain of runs, the runs to the halt.
-/

namespace Intcode

namespace Machine

/-- Made ready to execute. -/
def resumed (m : Machine) : Machine :=
  { m with status := .running }

@[simp] theorem steps_resumed (m : Machine) : m.resumed.steps = m.steps := rfl

theorem resumed_of_running {m : Machine} (running : m.status = .running) : m.resumed = m := by
  rw [resumed, ← running]

theorem live_of_running {m : Machine} (running : m.status = .running) : m.isHalted = false := by
  rw [isHalted, running]
  rfl

theorem step_of_live {m : Machine} (live : m.isHalted = false) : m.step = m.resumed.execute := by
  simp [step, resume, live, resumed]

theorem step_of_isHalted {m : Machine} (halted : m.isHalted = true) :
    m.step = (.error (m.failure .halted), m) := by
  simp [step, resume, halted]

/-- From a machine, instructions are started one after the other in the machines listed, each with a
result to go on after. The next one will be started in the last machine. -/
inductive Reaches (goesOn : Result → Prop) : Machine → List Machine → Machine → Prop where
  | here (m : Machine) : Reaches goesOn m [] m
  | next {m s : Machine} {earlier : List Machine} (goes : goesOn m.execute.1)
      (rest : Reaches goesOn m.execute.2 earlier s) : Reaches goesOn m (m :: earlier) s

variable {goesOn : Result → Prop} {m s after : Machine} {earlier : List Machine}

theorem Reaches.goes (reaches : Reaches goesOn m earlier s) :
    ∀ t ∈ earlier, goesOn t.execute.1 := by
  induction reaches with
  | here m => exact List.forall_mem_nil _
  | next goes rest ih => exact List.forall_mem_cons.mpr ⟨goes, ih⟩

/-- What an instruction preserves is preserved by all of them. -/
theorem Reaches.keeps {P : Machine → Prop} (executes : ∀ t, P t → P t.execute.2)
    (reaches : Reaches goesOn m earlier s) (start : P m) : (∀ t ∈ earlier, P t) ∧ P s := by
  induction reaches with
  | here m => exact ⟨List.forall_mem_nil _, start⟩
  | @next m s earlier goes rest ih =>
    obtain ⟨each, last⟩ := ih (executes m start)
    exact ⟨List.forall_mem_cons.mpr ⟨start, each⟩, last⟩

theorem Reaches.mono {onward : Result → Prop} (more : ∀ r, goesOn r → onward r)
    (reaches : Reaches goesOn m earlier s) : Reaches onward m earlier s := by
  induction reaches with
  | here m => exact .here m
  | next goes rest ih => exact .next (more _ goes) ih

theorem Reaches.append {later : List Machine} {t : Machine} (reaches : Reaches goesOn m earlier s)
    (onward : Reaches goesOn s later t) : Reaches goesOn m (earlier ++ later) t := by
  induction reaches with
  | here m => exact onward
  | next goes rest ih => exact .next goes (ih onward)

/-- Whatever comes of the next instruction, it is started. -/
theorem Reaches.snoc (reaches : Reaches (fun _ => True) m earlier s) :
    Reaches (fun _ => True) m (earlier ++ [s]) s.execute.2 :=
  reaches.append (.next trivial (.here _))

/-- Where the instructions stop is determined by where they start. -/
theorem Reaches.unique {others : List Machine} {t : Machine} (one : Reaches goesOn m earlier s)
    (two : Reaches goesOn m others t) (stops : ¬ goesOn s.execute.1)
    (ends : ¬ goesOn t.execute.1) : earlier = others ∧ s = t := by
  induction one generalizing others with
  | here m =>
    cases two with
    | here => exact ⟨rfl, rfl⟩
    | next goes => exact absurd goes stops
  | next goes rest ih =>
    cases two with
    | here => exact absurd goes ends
    | next _ onward =>
      obtain ⟨rfl, rfl⟩ := ih onward stops
      exact ⟨rfl, rfl⟩

/-- The result of a plain instruction, after which every run goes on. -/
def MovesOn (r : Result) : Prop :=
  r = .ok none

/-- A run to the halt also goes on after an output. -/
def GoesOn (r : Result) : Prop :=
  r = .ok none ∨ ∃ value, r = .ok (some (.output value))

theorem GoesOn.served {r : Result} (goes : GoesOn r) :
    ∃ outcome, r = .ok outcome ∧ outcome ≠ some .awaitingInput := by
  rcases goes with plain | ⟨value, puts⟩
  · exact ⟨none, plain, by simp⟩
  · exact ⟨some (.output value), puts, by simp⟩

theorem Reaches.running (reaches : Reaches GoesOn m earlier s) (running : m.status = .running) :
    (∀ t ∈ earlier, t.status = .running) ∧ s.status = .running := by
  induction reaches with
  | here m => exact ⟨List.forall_mem_nil _, running⟩
  | @next m s earlier goes rest ih =>
    have kept : m.execute.2.status = statusAfter m.status m.execute.1 := execute_status rfl
    have still : m.execute.2.status = .running := by
      rcases goes with plain | ⟨value, puts⟩
      · rw [kept, plain]
        exact running
      · rw [kept, puts]
        exact running
    obtain ⟨each, last⟩ := ih still
    exact ⟨List.forall_mem_cons.mpr ⟨running, each⟩, last⟩

/-- What a driven machine puts out on the way. -/
def output? (m : Machine) : Option Word :=
  match m.execute.1 with
  | .ok (some (.output value)) => some value
  | _ => none

/-! ## Runs -/

theorem reaches_of_runFrom {fuel : Nat} {result : Except MachineError Outcome}
    (ran : runFrom fuel m = some (result, after)) :
    ∃ earlier s, Reaches MovesOn m earlier s ∧ s.execute = (result.map some, after) := by
  induction fuel generalizing m with
  | zero => cases ran
  | succ fuel ih =>
    rcases executed : m.execute with ⟨e | _ | outcome, mid⟩
    · simp only [runFrom, executed] at ran
      cases ran
      exact ⟨[], m, .here m, executed⟩
    · simp only [runFrom, executed] at ran
      obtain ⟨earlier, s, reaches, ends⟩ := ih ran
      exact ⟨m :: earlier, s, .next (by rw [executed]; rfl) (by rwa [executed]), ends⟩
    · simp only [runFrom, executed] at ran
      cases ran
      exact ⟨[], m, .here m, executed⟩

theorem runFrom_of_reaches {result : Except MachineError Outcome}
    (reaches : Reaches MovesOn m earlier s) (ends : s.execute = (result.map some, after)) :
    runFrom (earlier.length + 1) m = some (result, after) := by
  induction reaches with
  | here m =>
    cases result with
    | error e => simp only [runFrom, ends, Except.map]
    | ok outcome => simp only [runFrom, ends, Except.map]
  | @next m s earlier goes rest ih =>
    have executed : m.execute = (.ok none, m.execute.2) := Prod.ext goes rfl
    rw [List.length_cons, runFrom, executed]
    exact ih ends

theorem runs_iff_reaches (live : m.isHalted = false) {result : Except MachineError Outcome} :
    m.Runs result after ↔
      ∃ earlier s, Reaches MovesOn m.resumed earlier s ∧ s.execute = (result.map some, after) := by
  constructor
  · rintro ⟨fuel, ran⟩
    rw [run_eq_runFrom live] at ran
    exact reaches_of_runFrom ran
  · rintro ⟨earlier, s, reaches, ends⟩
    refine ⟨earlier.length + 1, ?_⟩
    rw [run_eq_runFrom live]
    exact runFrom_of_reaches reaches ends

theorem runs_of_isHalted (halted : m.isHalted = true) : m.Runs (.error (m.failure .halted)) m :=
  ⟨0, run_of_isHalted halted 0⟩

/-- A running machine whose instruction stops a run. -/
theorem runs_of_execute (running : m.status = .running) {result : Except MachineError Outcome}
    (ends : m.execute = (result.map some, after)) : m.Runs result after := by
  rw [runs_iff_reaches (live_of_running running), resumed_of_running running]
  exact ⟨[], m, .here m, ends⟩

/-- A run starts with a plain instruction. -/
theorem Runs.cons {mid : Machine} {result : Except MachineError Outcome}
    (running : m.status = .running) (executed : m.execute = (.ok none, mid))
    (runs : mid.Runs result after) : m.Runs result after := by
  have still : mid.status = .running := by rw [execute_status executed, running]; rfl
  rw [runs_iff_reaches (live_of_running still), resumed_of_running still] at runs
  obtain ⟨earlier, s, reaches, ends⟩ := runs
  rw [runs_iff_reaches (live_of_running running), resumed_of_running running]
  exact ⟨m :: earlier, s, .next (by rw [executed]; rfl) (by rwa [executed]), ends⟩

/-! ## Runs to the halt -/

/-- The machine is run on after every output, until it halts or fails. -/
inductive Follows : Machine → List Word → Except MachineError Unit → Machine → Prop where
  | failed {m after : Machine} {e : MachineError} (runs : m.Runs (.error e) after) :
      Follows m [] (.error e) after
  | starved {m after : Machine} (runs : m.Runs (.ok .awaitingInput) after) :
      Follows m [] (.error (after.failure .inputExhausted)) after
  | halted {m after : Machine} (runs : m.Runs (.ok .halted) after) : Follows m [] (.ok ()) after
  | output {m mid after : Machine} {value : Word} {outputs : List Word}
      {ending : Except MachineError Unit} (runs : m.Runs (.ok (.output value)) mid)
      (rest : Follows mid outputs ending after) : Follows m (value :: outputs) ending after

/-- The outputs among some suspensions. -/
def emissions (suspensions : List Suspension) : List Word :=
  suspensions.filterMap fun s => emitted (.ok s.outcome)

theorem Course.outputs_eq (c : Course) : c.outputs = emissions c.suspensions := by
  rw [outputs, emissions]
  congr 1
  funext s
  cases s.outcome <;> rfl

theorem Course.result_eq (c : Course) : c.result = c.ending.map fun _ => c.outputs := by
  rw [result]
  cases c.ending <;> rfl

theorem emissions_reverse_cons (m : Machine) (outcome : Outcome) (before : List Suspension) :
    emissions (m.suspension outcome :: before).reverse =
      emissions before.reverse ++ (emitted (.ok outcome)).toList := by
  rw [emissions, emissions, List.reverse_cons, List.filterMap_append, List.filterMap_cons,
    outcome_suspension]
  cases emitted (.ok outcome) <;> rfl

theorem follows_of_followFrom {fuel more : Nat} {before : List Suspension} {course : Course}
    (followed : followFrom fuel more before m = some course) :
    ∃ outputs, Follows m outputs course.ending course.machine ∧
      course.outputs = emissions before.reverse ++ outputs := by
  induction more generalizing m before with
  | zero => cases followed
  | succ more ih =>
    rw [followFrom] at followed
    split at followed
    · cases followed
    · next e after ran =>
      cases followed
      exact ⟨[], .failed ⟨fuel, ran⟩, by rw [Course.outputs_eq, List.append_nil]⟩
    · next outcome mid ran =>
      have longer := emissions_reverse_cons mid outcome before
      cases outcome with
      | output value =>
        obtain ⟨outputs, rest, same⟩ := ih followed
        refine ⟨value :: outputs, .output ⟨fuel, ran⟩ rest, ?_⟩
        rw [same, longer, List.append_assoc]
        rfl
      | awaitingInput =>
        cases followed
        exact ⟨[], .starved ⟨fuel, ran⟩, by rw [Course.outputs_eq, longer]; rfl⟩
      | halted =>
        cases followed
        exact ⟨[], .halted ⟨fuel, ran⟩, by rw [Course.outputs_eq, longer]; rfl⟩

/-- The fuel has to do for each run, and for one more of them than there are outputs. -/
theorem Follows.followFrom {outputs : List Word} {ending : Except MachineError Unit}
    (follows : Follows m outputs ending after) :
    ∃ least, ∀ fuel, least ≤ fuel → ∀ more, outputs.length < more → ∀ before, ∃ course,
      Machine.followFrom fuel more before m = some course ∧ course.ending = ending ∧
        course.machine = after ∧ course.outputs = emissions before.reverse ++ outputs := by
  induction follows with
  | @failed m after e runs =>
    obtain ⟨least, ran⟩ := runs
    refine ⟨least, fun fuel high more longer before => ?_⟩
    obtain ⟨more, rfl⟩ : ∃ k, more = k + 1 := ⟨more - 1, by omega⟩
    refine ⟨⟨before.reverse, .error e, after⟩, ?_, rfl, rfl, ?_⟩
    · simp only [Machine.followFrom, run_mono high ran]
    · rw [Course.outputs_eq, List.append_nil]
  | @starved m after runs =>
    obtain ⟨least, ran⟩ := runs
    refine ⟨least, fun fuel high more longer before => ?_⟩
    obtain ⟨more, rfl⟩ : ∃ k, more = k + 1 := ⟨more - 1, by omega⟩
    refine ⟨⟨(after.suspension .awaitingInput :: before).reverse, _, after⟩, ?_, rfl, rfl, ?_⟩
    · simp only [Machine.followFrom, run_mono high ran]
    · rw [Course.outputs_eq, emissions_reverse_cons]
      rfl
  | @halted m after runs =>
    obtain ⟨least, ran⟩ := runs
    refine ⟨least, fun fuel high more longer before => ?_⟩
    obtain ⟨more, rfl⟩ : ∃ k, more = k + 1 := ⟨more - 1, by omega⟩
    refine ⟨⟨(after.suspension .halted :: before).reverse, .ok (), after⟩, ?_, rfl, rfl, ?_⟩
    · simp only [Machine.followFrom, run_mono high ran]
    · rw [Course.outputs_eq, emissions_reverse_cons]
      rfl
  | @output m mid after value outputs ending runs rest ih =>
    obtain ⟨least, ran⟩ := runs
    obtain ⟨enough, onward⟩ := ih
    refine ⟨max least enough, fun fuel high more longer before => ?_⟩
    rw [List.length_cons] at longer
    obtain ⟨more, rfl⟩ : ∃ k, more = k + 1 := ⟨more - 1, by omega⟩
    obtain ⟨course, followed, ends, left, puts⟩ := onward fuel (by omega) more (by omega)
      (mid.suspension (.output value) :: before)
    refine ⟨course, ?_, ends, left, ?_⟩
    · simp only [Machine.followFrom, run_mono (show least ≤ fuel by omega) ran, followed]
    · rw [puts, emissions_reverse_cons, List.append_assoc]
      rfl

/-- From some fuel on a run to the halt always returns the same. -/
theorem Follows.runToHalt {outputs : List Word} {ending : Except MachineError Unit}
    (follows : Follows m outputs ending after) :
    ∃ least, ∀ fuel, least ≤ fuel →
      m.runToHalt fuel = some (ending.map fun _ => outputs, after) := by
  obtain ⟨least, returns⟩ := follows.followFrom
  refine ⟨max least (outputs.length + 1), fun fuel high => ?_⟩
  obtain ⟨course, followed, rfl, rfl, puts⟩ := returns fuel (by omega) fuel (by omega) []
  rw [Machine.runToHalt, follow, followed, Option.map_some, course.result_eq, puts]
  rfl

/-- What a run to the halt returns, without its fuel. -/
theorem runToHalt_iff_follows {result : Except MachineError (List Word)} :
    (∃ fuel, m.runToHalt fuel = some (result, after)) ↔
      ∃ outputs ending, Follows m outputs ending after ∧ result = ending.map fun _ => outputs := by
  constructor
  · rintro ⟨fuel, ran⟩
    obtain ⟨course, followed, same⟩ := Option.map_eq_some_iff.mp ran
    cases same
    obtain ⟨outputs, follows, puts⟩ := follows_of_followFrom followed
    exact ⟨outputs, course.ending, follows, by rw [course.result_eq, puts]; rfl⟩
  · rintro ⟨outputs, ending, follows, rfl⟩
    obtain ⟨least, returns⟩ := follows.runToHalt
    exact ⟨least, returns least (Nat.le_refl _)⟩

/-- How a run to the halt ends after the result of its last instruction. -/
inductive Ends : Result → Machine → Except MachineError Unit → Prop where
  | failed {e : MachineError} {after : Machine} : Ends (.error e) after (.error e)
  | starved {after : Machine} :
      Ends (.ok (some .awaitingInput)) after (.error (after.failure .inputExhausted))
  | halted {after : Machine} : Ends (.ok (some .halted)) after (.ok ())

theorem Follows.cons {mid : Machine} {outputs : List Word} {ending : Except MachineError Unit}
    (running : m.status = .running) (executed : m.execute = (.ok none, mid))
    (follows : Follows mid outputs ending after) : Follows m outputs ending after := by
  cases follows with
  | failed runs => exact .failed (runs.cons running executed)
  | starved runs => exact .starved (runs.cons running executed)
  | halted runs => exact .halted (runs.cons running executed)
  | output runs rest => exact .output (runs.cons running executed) rest

/-- The first run wakes the machine up. -/
theorem Follows.of_resumed {outputs : List Word} {ending : Except MachineError Unit}
    (live : m.isHalted = false) (follows : Follows m.resumed outputs ending after) :
    Follows m outputs ending after := by
  have same : ∀ {result left}, m.resumed.Runs result left → m.Runs result left := by
    intro result left runs
    rw [runs_iff_reaches rfl] at runs
    exact (runs_iff_reaches live).mpr runs
  cases follows with
  | failed runs => exact .failed (same runs)
  | starved runs => exact .starved (same runs)
  | halted runs => exact .halted (same runs)
  | output runs rest => exact .output (same runs) rest

theorem Follows.of_isHalted {outputs : List Word} {ending : Except MachineError Unit}
    (halted : m.isHalted = true) (follows : Follows m outputs ending after) :
    outputs = [] ∧ ending = .error (m.failure .halted) ∧ after = m := by
  have refused := runs_of_isHalted halted
  cases follows with
  | failed runs =>
    obtain ⟨same, rfl⟩ := runs.unique refused
    cases same
    exact ⟨rfl, rfl, rfl⟩
  | starved runs | halted runs | output runs =>
    obtain ⟨same, -⟩ := runs.unique refused
    cases same

theorem Reaches.follows {result : Result} {ending : Except MachineError Unit}
    (reaches : Reaches GoesOn m earlier s) (running : m.status = .running)
    (stops : s.execute = (result, after)) (ends : Ends result after ending) :
    Follows m (earlier.filterMap output?) ending after := by
  induction reaches with
  | here m =>
    cases ends with
    | failed => exact .failed (runs_of_execute running stops)
    | starved => exact .starved (runs_of_execute running stops)
    | halted => exact .halted (runs_of_execute running stops)
  | @next m s earlier goes rest ih =>
    have still := ((Reaches.next goes (.here _)).running running).2
    have follows := ih still stops
    rcases goes with plain | ⟨value, puts⟩
    · have none : m.output? = none := by rw [output?, plain]
      rw [List.filterMap_cons, none]
      exact follows.cons running (Prod.ext plain rfl)
    · have some : m.output? = some value := by rw [output?, puts]
      rw [List.filterMap_cons, some]
      exact .output (runs_of_execute running (Prod.ext puts rfl)) follows

theorem Runs.reaches {result : Except MachineError Outcome} (live : m.isHalted = false)
    (runs : m.Runs result after) :
    ∃ earlier s, Reaches GoesOn m.resumed earlier s ∧ s.execute = (result.map some, after) ∧
      earlier.filterMap output? = [] := by
  obtain ⟨earlier, s, reaches, stops⟩ := (runs_iff_reaches live).mp runs
  refine ⟨earlier, s, reaches.mono fun _ plain => Or.inl plain, stops, ?_⟩
  rw [List.filterMap_eq_nil_iff]
  intro t inside
  rw [output?, reaches.goes t inside]

theorem Follows.reaches {outputs : List Word} {ending : Except MachineError Unit}
    (live : m.isHalted = false) (follows : Follows m outputs ending after) :
    ∃ earlier s result, Reaches GoesOn m.resumed earlier s ∧ s.execute = (result, after) ∧
      Ends result after ending ∧ outputs = earlier.filterMap output? := by
  induction follows with
  | failed runs =>
    obtain ⟨earlier, s, reaches, stops, none⟩ := runs.reaches live
    exact ⟨earlier, s, _, reaches, stops, .failed, none.symm⟩
  | starved runs =>
    obtain ⟨earlier, s, reaches, stops, none⟩ := runs.reaches live
    exact ⟨earlier, s, _, reaches, stops, .starved, none.symm⟩
  | halted runs =>
    obtain ⟨earlier, s, reaches, stops, none⟩ := runs.reaches live
    exact ⟨earlier, s, _, reaches, stops, .halted, none.symm⟩
  | @output m mid after value outputs ending runs rest ih =>
    obtain ⟨earlier, s, reaches, stops, none⟩ := runs.reaches live
    have puts : s.execute.1 = .ok (some (.output value)) := by rw [stops]; rfl
    have left : s.execute.2 = mid := by rw [stops]
    have first : Reaches GoesOn m.resumed (earlier ++ [s]) mid :=
      reaches.append (.next (Or.inr ⟨value, puts⟩) (by rw [left]; exact .here mid))
    have still := (first.running rfl).2
    obtain ⟨later, t, result, onward, stops, ends, same⟩ := ih (live_of_running still)
    rw [resumed_of_running still] at onward
    refine ⟨earlier ++ [s] ++ later, t, result, first.append onward, stops, ends, ?_⟩
    have emits : s.output? = some value := by rw [output?, puts]
    rw [List.filterMap_append, List.filterMap_append, none, same, List.filterMap_cons, emits]
    rfl

end Machine

end Intcode
