import Intcode.Proofs.Loop.Visits
import Intcode.Proofs.Machine.Sessions

/-!
# Tours of the stages

A tour goes round the stages, whatever comes of them. A stage that has halted is passed over and
the signal on its way to it is lost; any other stage is fed the signal, if there is one, and run to
its next suspension, and what it puts out is the signal to the stage after it. A loop is a tour with
a rule for when to stop. On a tour every stage gets its phase, the first one also zero, and then
what the stage before it has put out, all of it as soon as it is visited.
-/

namespace Intcode

/-- The run of a stage: what the stage was fed just before, what came of the run and the machine
that it left. -/
structure Tour.Event where
  stage : Nat
  fed : Option Word
  result : Except MachineError Outcome
  left : Machine

structure Tour where
  machines : List Machine
  /-- The stage that comes next. -/
  stage : Nat := 0
  /-- The signal on its way to that stage. -/
  signal : Option Word := some 0
  /-- The runs so far, in order. -/
  events : List Tour.Event := []

namespace Tour

/-! ## Runs of one stage -/

/-- What a stage was fed before each of its runs. -/
def portionsTo (i : Nat) (events : List Event) : List (List Word) :=
  (events.filter fun e => e.stage = i).map fun e => e.fed.toList

/-- What came of the runs of a stage. -/
def resultsOf (i : Nat) (events : List Event) : List (Except MachineError Outcome) :=
  (events.filter fun e => e.stage = i).map Event.result

/-- What a stage put out. -/
def outputsOf (i : Nat) (events : List Event) : List Word :=
  (resultsOf i events).filterMap Machine.emitted

/-- What a stage is fed besides its phase, if nothing was put out yet. -/
def seed (i : Nat) : List Word :=
  if i = 0 then [0] else []

variable {i k : Nat} {e : Event} {events : List Event}

theorem portionsTo_snoc (i : Nat) (events : List Event) (e : Event) :
    portionsTo i (events ++ [e]) =
      portionsTo i events ++ if e.stage = i then [e.fed.toList] else [] := by
  by_cases own : e.stage = i <;> simp [portionsTo, own]

theorem resultsOf_snoc (i : Nat) (events : List Event) (e : Event) :
    resultsOf i (events ++ [e]) = resultsOf i events ++ if e.stage = i then [e.result] else [] := by
  by_cases own : e.stage = i <;> simp [resultsOf, own]

theorem outputsOf_snoc (i : Nat) (events : List Event) (e : Event) :
    outputsOf i (events ++ [e]) =
      outputsOf i events ++ if e.stage = i then (Machine.emitted e.result).toList else [] := by
  rw [outputsOf, outputsOf, resultsOf_snoc, List.filterMap_append]
  by_cases own : e.stage = i
  · cases emits : Machine.emitted e.result <;> simp [own, emits]
  · simp [own]

theorem mem_resultsOf {result : Except MachineError Outcome} :
    result ∈ resultsOf i events ↔ ∃ e ∈ events, e.stage = i ∧ e.result = result := by
  simp [resultsOf, and_assoc]

variable (t : Tour)

/-- The index of the last stage. -/
def last : Nat :=
  t.machines.length - 1

/-- The index of the stage that a stage gets its signals from. -/
def source (i : Nat) : Nat :=
  if i = 0 then t.last else i - 1

/-- What is on its way to a stage. -/
def incoming (i : Nat) : Option Word :=
  if i = t.stage then t.signal else none

/-- Turns to the next stage, with the signal that it gets. -/
def turn (signal : Option Word) : Tour :=
  { t with stage := (t.stage + 1) % t.machines.length, signal }

/-- Runs the stage that is next. -/
def visit (result : Except MachineError Outcome) (after : Machine) : Tour :=
  turn { t with
    machines := t.machines.set t.stage after
    events := t.events ++ [⟨t.stage, t.signal, result, after⟩] } (Machine.emitted result)

end Tour

/-- The tours of a pipeline with these phases. -/
inductive Pipeline.Tours (p : Pipeline) (phases : List Word) : Tour → Prop where
  | start : Tours p phases { machines := phases.map p.primed }
  | pass {t : Tour} {m : Machine} (tours : Tours p phases t)
      (here : t.machines[t.stage]? = some m) (halted : m.isHalted = true) :
      Tours p phases (t.turn none)
  | visit {t : Tour} {m after : Machine} {result : Except MachineError Outcome}
      (tours : Tours p phases t) (here : t.machines[t.stage]? = some m)
      (live : m.isHalted = false) (runs : (m.feedAll t.signal.toList).Runs result after) :
      Tours p phases (t.visit result after)

namespace Tour

variable {t : Tour} {i : Nat} {result : Except MachineError Outcome} {after : Machine}

theorem next_eq_iff (within : t.stage < t.machines.length) (inside : i < t.machines.length) :
    i = (t.stage + 1) % t.machines.length ↔ t.source i = t.stage := by
  rw [Loop.succ_mod_stages within, source, last]
  split <;> split <;> omega

@[simp] theorem source_visit (t : Tour) (result : Except MachineError Outcome) (after : Machine)
    (i : Nat) : (t.visit result after).source i = t.source i := by
  simp [visit, turn, source, last]

@[simp] theorem events_visit (t : Tour) (result : Except MachineError Outcome) (after : Machine) :
    (t.visit result after).events = t.events ++ [⟨t.stage, t.signal, result, after⟩] :=
  rfl

@[simp] theorem machines_visit (t : Tour) (result : Except MachineError Outcome)
    (after : Machine) : (t.visit result after).machines = t.machines.set t.stage after :=
  rfl

/-- What is on its way to a stage is delivered when the stage is run. -/
theorem portionsTo_visit (t : Tour) (result : Except MachineError Outcome) (after : Machine)
    (i : Nat) :
    (portionsTo i (t.visit result after).events).flatten =
      (portionsTo i t.events).flatten ++ (t.incoming i).toList := by
  rw [events_visit, portionsTo_snoc, List.flatten_append, incoming]
  by_cases own : i = t.stage
  · simp [own]
  · simp [own, Ne.symm own]

/-- What a stage puts out is on its way to the next one. -/
theorem outputsOf_visit (within : t.stage < t.machines.length) (inside : i < t.machines.length) :
    outputsOf (t.source i) (t.visit result after).events =
      outputsOf (t.source i) t.events ++ ((t.visit result after).incoming i).toList := by
  have length : (t.machines.set t.stage after).length = t.machines.length := List.length_set
  rw [events_visit, outputsOf_snoc]
  by_cases next : i = (t.stage + 1) % t.machines.length
  · have same := (next_eq_iff within inside).mp next
    simp [incoming, visit, Tour.turn, ← next, same]
  · have apart := mt (next_eq_iff within inside).mpr next
    simp [incoming, visit, Tour.turn, next, Ne.symm apart]

end Tour

namespace Pipeline

open Tour

variable {p : Pipeline} {phases : List Word} {t : Tour} {i : Nat} {m : Machine}

theorem Tours.length (tours : p.Tours phases t) : t.machines.length = phases.length := by
  induction tours with
  | start => simp
  | pass _ _ _ ih => exact ih
  | visit _ _ _ _ ih => rw [machines_visit, List.length_set, ih]

theorem Tours.stage_lt (tours : p.Tours phases t) (some_stages : phases ≠ []) :
    t.stage < t.machines.length := by
  have positive : 0 < phases.length := List.length_pos_iff.mpr some_stages
  cases tours with
  | start => simpa using positive
  | pass tours =>
    exact Nat.mod_lt _ (by rw [tours.length]; exact positive)
  | visit tours =>
    simp only [Tour.visit, turn, List.length_set]
    exact Nat.mod_lt _ (by rw [tours.length]; exact positive)

/-- Every machine has been fed and run by turns with what came of it on the tour. -/
theorem Tours.session (tours : p.Tours phases t) {phase : Word} (there : phases[i]? = some phase)
    (here : t.machines[i]? = some m) :
    (p.primed phase).Session (portionsTo i t.events) (resultsOf i t.events) m := by
  induction tours generalizing m with
  | start =>
    simp only [List.getElem?_map, there, Option.map_some] at here
    cases here
    exact .done _
  | pass _ _ _ ih => exact ih here
  | @visit t old after result tours at_stage live runs ih =>
    rw [events_visit, portionsTo_snoc, resultsOf_snoc]
    rw [machines_visit] at here
    by_cases own : t.stage = i
    · subst own
      rw [List.getElem?_set_self (List.getElem?_eq_some_iff.mp at_stage).1] at here
      cases here
      rw [if_pos rfl, if_pos rfl]
      exact (ih at_stage).snoc runs
    · rw [List.getElem?_set_ne own] at here
      rw [if_neg own, if_neg own, List.append_nil, List.append_nil]
      exact ih here

theorem Tours.isHalted_iff (tours : p.Tours phases t) (here : t.machines[i]? = some m) :
    m.isHalted = true ↔ .ok .halted ∈ resultsOf i t.events := by
  induction tours generalizing m with
  | start =>
    obtain ⟨phase, -, rfl⟩ := List.mem_map.mp (List.mem_of_getElem? here)
    have fresh : (p.primed phase).isHalted = false := rfl
    simp [fresh, resultsOf]
  | pass _ _ _ ih => exact ih here
  | @visit t old after result tours at_stage live runs ih =>
    rw [events_visit, resultsOf_snoc, List.mem_append]
    rw [machines_visit] at here
    by_cases own : t.stage = i
    · subst own
      rw [List.getElem?_set_self (List.getElem?_eq_some_iff.mp at_stage).1] at here
      cases here
      have before : .ok .halted ∉ resultsOf t.stage t.events := by
        rw [← ih at_stage, live]
        simp
      rw [runs.isHalted_iff live]
      simp [before, eq_comm]
    · rw [List.getElem?_set_ne own] at here
      simp [ih here, own]

/-- Until a stage has halted, all that the stage before it has put out was fed to it or is on its
way to it. -/
theorem Tours.fed (tours : p.Tours phases t) (here : t.machines[i]? = some m)
    (live : m.isHalted = false) :
    (portionsTo i t.events).flatten ++ (t.incoming i).toList =
      seed i ++ outputsOf (t.source i) t.events := by
  have inside : i < t.machines.length := (List.getElem?_eq_some_iff.mp here).1
  induction tours generalizing m with
  | start =>
    by_cases first : i = 0 <;>
      simp [portionsTo, outputsOf, resultsOf, incoming, seed, first]
  | @pass t old tours at_stage halted ih =>
    have apart : i ≠ t.stage := by
      rintro rfl
      cases at_stage.symm.trans here
      rw [live] at halted
      cases halted
    have before := ih here live inside
    have none : (t.turn none).incoming i = none := by
      rw [incoming]
      split <;> rfl
    rw [incoming, if_neg apart] at before
    rw [none]
    exact before
  | @visit t old after result tours at_stage awake runs ih =>
    have within : t.stage < t.machines.length := (List.getElem?_eq_some_iff.mp at_stage).1
    rw [machines_visit, List.length_set] at inside
    have before : (portionsTo i t.events).flatten ++ (t.incoming i).toList =
        seed i ++ outputsOf (t.source i) t.events := by
      by_cases own : t.stage = i
      · subst own
        exact ih at_stage awake inside
      · rw [machines_visit, List.getElem?_set_ne own] at here
        exact ih here live inside
    rw [source_visit, outputsOf_visit within inside, portionsTo_visit, before, List.append_assoc]

/-- When a stage is run it has been fed all that the stage before it has put out, each value once,
and it is not run any more after it has halted. -/
theorem Tours.delivers (tours : p.Tours phases t) {earlier later : List Event} {e : Event}
    (split : t.events = earlier ++ e :: later) :
    (portionsTo e.stage (earlier ++ [e])).flatten =
        seed e.stage ++ outputsOf (t.source e.stage) earlier ∧
      (e.result = .ok .halted → ∀ other ∈ later, other.stage ≠ e.stage) := by
  induction tours generalizing later with
  | start => simp at split
  | pass _ _ _ ih => exact ih split
  | @visit t m after result tours here live runs ih =>
    rw [events_visit] at split
    rcases List.eq_nil_or_concat later with rfl | ⟨between, newest, rfl⟩
    · obtain ⟨rfl, same⟩ := List.append_inj' split rfl
      cases same
      have fed := tours.fed here live
      rw [← portionsTo_visit t result after] at fed
      exact ⟨by rw [source_visit, ← fed, events_visit], fun _ other inside => by cases inside⟩
    · rw [List.concat_eq_append] at split ⊢
      rw [← List.cons_append, ← List.append_assoc] at split
      obtain ⟨before, same⟩ := List.append_inj' split rfl
      cases same
      obtain ⟨fed, silent⟩ := ih before
      refine ⟨by rw [source_visit, fed], fun halted other inside => ?_⟩
      rcases List.mem_append.mp inside with among | final
      · exact silent halted other among
      · -- the stage that was run last had not halted
        rw [List.mem_singleton.mp final]
        intro same
        have stopped : m.isHalted = true := (tours.isHalted_iff here).mpr
          (mem_resultsOf.mpr ⟨e, by simp [before], same.symm, halted⟩)
        rw [live] at stopped
        cases stopped

end Pipeline

end Intcode
