import Intcode.Proofs.Loop.Tours
import Intcode.Proofs.Ring.Following
import Intcode.Proofs.Search.Answers

/-!
# Completion of loops

A loop is on a tour and stops at the first run that decides it: one that fails, one that starves, or
one that halts the last stage. That run and the outputs of the last stage tell its answer. So the
answers of a feedback pipeline can be read off its tours, without the loop.
-/

namespace Intcode

namespace Tour

/-- The run goes on to an output or to a halt, of another stage than the last one. -/
def Event.Proceeds (last : Nat) (e : Event) : Prop :=
  ∃ outcome, e.result = .ok outcome ∧ outcome ≠ .awaitingInput ∧
    (e.stage = last → outcome ≠ .halted)

def Proceeds (t : Tour) : Prop :=
  ∀ e ∈ t.events, e.Proceeds t.last

/-- The visit that a trial shows of a run, which has to end in a suspension. -/
def Event.visit? (e : Event) : Option Visit :=
  match e.result with
  | .error _ => none
  | .ok outcome => some ⟨e.stage, e.fed, e.left.suspension outcome⟩

/-- The latest run of the tour is the first one that does not proceed. -/
def Ends (t : Tour) (e : Event) : Prop :=
  ∃ earlier, t.events = earlier ++ [e] ∧ (∀ f ∈ earlier, f.Proceeds t.last) ∧
    ¬ e.Proceeds t.last

/-- What a run that does not proceed means for the pipeline. -/
def verdict (t : Tour) (e : Event) : Except PipelineError Word :=
  match e.result with
  | .error cause => .error (.machine e.stage cause)
  | .ok .awaitingInput => .error (.stalled e.stage)
  | .ok _ => (outputsOf t.last t.events).getLast?.elim (.error (.noOutput t.last)) .ok

@[simp] theorem last_visit (t : Tour) (result : Except MachineError Outcome) (after : Machine) :
    (t.visit result after).last = t.last := by
  simp [visit, turn, last]

theorem Proceeds.visit {t : Tour} {result : Except MachineError Outcome} {after : Machine}
    (proceeds : t.Proceeds)
    (goes : Event.Proceeds (t.visit result after).last ⟨t.stage, t.signal, result, after⟩) :
    (t.visit result after).Proceeds := by
  intro e inside
  rcases List.mem_append.mp inside with before | new
  · rw [last_visit]
    exact proceeds e before
  · rw [List.mem_singleton.mp new]
    exact goes

/-- A run that does not proceed fails, starves or halts the last stage. -/
theorem Event.not_proceeds_iff {last : Nat} {e : Event} :
    ¬ e.Proceeds last ↔ (∃ cause, e.result = .error cause) ∨ e.result = .ok .awaitingInput ∨
      (e.stage = last ∧ e.result = .ok .halted) := by
  rw [Event.Proceeds]
  rcases e.result with cause | _ | _ | _ <;> simp

/-- The ways in which a run that does not proceed decides the answer. -/
inductive Decides (t : Tour) (e : Event) : Except PipelineError Word → Prop where
  | signal {value : Word} (final : e.stage = t.last) (halted : e.result = .ok .halted)
      (latest : (outputsOf t.last t.events).getLast? = some value) : Decides t e (.ok value)
  | silent (final : e.stage = t.last) (halted : e.result = .ok .halted)
      (none : outputsOf t.last t.events = []) : Decides t e (.error (.noOutput t.last))
  | failed {cause : MachineError} (failed : e.result = .error cause) :
      Decides t e (.error (.machine e.stage cause))
  | stalled (starved : e.result = .ok .awaitingInput) : Decides t e (.error (.stalled e.stage))

theorem Ends.decides {t : Tour} {e : Event} (ends : t.Ends e) : t.Decides e (t.verdict e) := by
  obtain ⟨-, -, -, stops⟩ := ends
  rw [verdict]
  rcases Event.not_proceeds_iff.mp stops with ⟨cause, failed⟩ | starved | ⟨final, halted⟩
  · rw [failed]
    exact .failed failed
  · rw [starved]
    exact .stalled starved
  · rw [halted]
    cases latest : (outputsOf t.last t.events).getLast? with
    | none => exact .silent final halted (List.getLast?_eq_none_iff.mp latest)
    | some value => exact .signal final halted latest

theorem Decides.verdict_eq {t : Tour} {e : Event} {result : Except PipelineError Word}
    (decides : t.Decides e result) : t.verdict e = result := by
  cases decides with
  | signal final halted latest => simp [verdict, halted, latest]
  | silent final halted none => simp [verdict, halted, none]
  | failed failed => simp [verdict, failed]
  | stalled starved => simp [verdict, starved]

end Tour

namespace Loop

open Tour

/-- The loop is where the tour is. -/
structure Tracks (l : Loop) (t : Tour) : Prop where
  machines : l.machines = t.machines
  stage : l.stage = t.stage
  signal : l.signal = t.signal
  result : l.result = (outputsOf t.last t.events).getLast?
  visits : l.visits.reverse = t.events.filterMap Event.visit?

/-- What a visit leads to is where the tour is after the run. -/
def Progress.Tracks (t : Tour) (e : Event) : Progress → Prop
  | .going l => e.Proceeds t.last ∧ l.Tracks t
  | .ended trial => ¬ e.Proceeds t.last ∧ trial.result = t.verdict e ∧
      trial.visits = t.events.filterMap Event.visit?

/-- From one loop to another, visit by visit. -/
inductive Goes (l : Loop) : Loop → Prop where
  | here : Goes l l
  | visit {mid l' : Loop} {fuel : Nat} (goes : Goes l mid)
      (visited : mid.visit fuel = some (.going l')) : Goes l l'

/-- With some fuel the loop comes to its end, and to this trial. -/
def Returns (l : Loop) (trial : Trial) : Prop :=
  ∃ fuel visits, l.runFor fuel visits = some trial

variable {l l' : Loop} {t : Tour} {m after : Machine} {result : Except MachineError Outcome}
  {fuel : Nat} {trial : Trial}

theorem Tracks.last (tracks : l.Tracks t) : l.last = t.last := by
  rw [Loop.last, Tour.last, tracks.machines]

/-- A halted stage is passed over on both. -/
theorem Tracks.turn (tracks : l.Tracks t) : (l.turn none).Tracks (t.turn none) where
  machines := tracks.machines
  stage := by simp [Loop.turn, Tour.turn, tracks.machines, tracks.stage]
  signal := rfl
  result := tracks.result
  visits := tracks.visits

/-- The loop goes on where the tour does. -/
theorem Tracks.goOn (tracks : l.Tracks t) (after : Machine) (outcome : Outcome) :
    (l.goOn after outcome).Tracks (t.visit (.ok outcome) after) where
  machines := by rw [machines_goOn, machines_visit, tracks.machines, tracks.stage]
  stage := by
    simp [Loop.goOn, Loop.record, Loop.turn, Tour.visit, Tour.turn, tracks.machines, tracks.stage]
  signal := rfl
  result := by
    have latest : (l.goOn after outcome).result =
        if l.stage = l.last then (Machine.emitted (.ok outcome)).or l.result else l.result := rfl
    rw [latest, tracks.last, tracks.stage, tracks.result, last_visit, events_visit, outputsOf_snoc]
    by_cases final : t.stage = t.last
    · rw [if_pos final, if_pos final]
      cases Machine.emitted (.ok outcome) <;> simp
    · rw [if_neg final, if_neg final, List.append_nil]
  visits := by
    have made : (l.goOn after outcome).visits =
        ⟨l.stage, l.signal, after.suspension outcome⟩ :: l.visits := rfl
    rw [made, List.reverse_cons, tracks.visits, events_visit, List.filterMap_append,
      tracks.stage, tracks.signal]
    rfl

/-- After a run the loop goes by what the run means on the tour. -/
theorem Tracks.conclude (tracks : l.Tracks t) (after : Machine)
    (result : Except MachineError Outcome) :
    (l.conclude after result).Tracks (t.visit result after)
      ⟨t.stage, t.signal, result, after⟩ := by
  cases result with
  | error e =>
    refine ⟨by simp [Event.Proceeds], ?_, ?_⟩
    · rw [tracks.stage]
      rfl
    · rw [events_visit, List.filterMap_append, ← tracks.visits]
      exact (List.append_nil _).symm
  | ok outcome =>
    have made : (l.record after outcome).visits.reverse =
        (t.visit (.ok outcome) after).events.filterMap Event.visit? := by
      rw [← (tracks.goOn after outcome).visits]
      rfl
    by_cases served : outcome = .awaitingInput
    · subst served
      exact ⟨by simp [Event.Proceeds], by rw [← tracks.stage]; rfl, made⟩
    · by_cases final : l.stage = l.last ∧ outcome = .halted
      · obtain ⟨final, rfl⟩ := final
        have silent : (t.visit (.ok .halted) after).verdict
            ⟨t.stage, t.signal, .ok .halted, after⟩ =
              l.result.elim (.error (.noOutput l.last)) .ok := by
          have latest : (l.goOn after .halted).result = l.result := by
            simp [Loop.goOn, Loop.turn, Machine.emitted]
          rw [← latest, (tracks.goOn after .halted).result, tracks.last, last_visit]
          simp only [verdict, last_visit]
        rw [conclude_of_halted final, finish_eq, last_record]
        refine ⟨?_, silent.symm, made⟩
        simp [Event.Proceeds, ← tracks.stage, ← tracks.last, final]
      · have onward : l.stage = l.last → outcome ≠ .halted :=
          fun here halts => final ⟨here, halts⟩
        rw [conclude_of_onward served onward]
        refine ⟨⟨outcome, rfl, served, ?_⟩, tracks.goOn after outcome⟩
        rw [last_visit, ← tracks.stage, ← tracks.last]
        exact onward

/-- The loop makes the run that is next on the tour. -/
theorem Tracks.run (tracks : l.Tracks t) (here : t.machines[t.stage]? = some m)
    (live : m.isHalted = false) (runs : (m.feedAll t.signal.toList).Runs result after) :
    ∃ fuel progress, l.visit fuel = some progress ∧
      progress.Tracks (t.visit result after) ⟨t.stage, t.signal, result, after⟩ := by
  rw [← tracks.machines, ← tracks.stage] at here
  rw [← tracks.signal] at runs
  obtain ⟨fuel, ran⟩ := runs
  exact ⟨fuel, _, visit_of_run here live ran, tracks.conclude after result⟩

/-- What comes of a visit is a pass or a run of the tour. -/
theorem Tracks.visit {p : Pipeline} {phases : List Word} {progress : Progress}
    (tracks : l.Tracks t) (tours : p.Tours phases t) (some_stages : phases ≠ [])
    (visited : l.visit fuel = some progress) :
    (∃ l', progress = .going l' ∧ p.Tours phases (t.turn none) ∧ l'.Tracks (t.turn none)) ∨
      ∃ result after, p.Tours phases (t.visit result after) ∧
        progress.Tracks (t.visit result after) ⟨t.stage, t.signal, result, after⟩ := by
  obtain ⟨m, here⟩ : ∃ m, t.machines[t.stage]? = some m :=
    ⟨_, List.getElem?_eq_getElem (tours.stage_lt some_stages)⟩
  have there : l.machines[l.stage]? = some m := by rw [tracks.machines, tracks.stage, here]
  rcases visit_cases there visited with ⟨halted, rfl⟩ | ⟨live, result, after, runs, rfl⟩
  · exact .inl ⟨_, rfl, tours.pass here halted, tracks.turn⟩
  · rw [tracks.signal] at runs
    exact .inr ⟨result, after, tours.visit here live runs, tracks.conclude after result⟩

/-- A loop that ends has been on a tour up to the first run that does not proceed. -/
theorem Tracks.runFor {p : Pipeline} {phases : List Word} {visits : Nat} (tracks : l.Tracks t)
    (tours : p.Tours phases t) (some_stages : phases ≠ [])
    (proceeds : t.Proceeds) (ran : l.runFor fuel visits = some trial) :
    ∃ t' e, p.Tours phases t' ∧ t'.Ends e ∧ t'.Decides e trial.result ∧
      trial.visits = t'.events.filterMap Event.visit? := by
  induction visits generalizing l t with
  | zero => cases ran
  | succ visits ih =>
    simp only [Loop.runFor] at ran
    split at ran
    · cases ran
    · next ended visited =>
      cases ran
      rcases tracks.visit tours some_stages visited with
        ⟨_, same, -, -⟩ | ⟨result, after, onward, decided, verdict, made⟩
      · cases same
      · have ends : (t.visit result after).Ends ⟨t.stage, t.signal, result, after⟩ :=
          ⟨t.events, rfl, by rw [last_visit]; exact proceeds, decided⟩
        exact ⟨_, _, onward, ends, verdict ▸ ends.decides, made⟩
    · next l' visited =>
      rcases tracks.visit tours some_stages visited with
        ⟨_, same, onward, later⟩ | ⟨result, after, onward, goes, later⟩
      · cases same
        exact ih later onward proceeds ran
      · exact ih later onward (proceeds.visit goes) ran

theorem tracks_loop (p : Pipeline) (phases : List Word) :
    (p.loop phases).Tracks { machines := phases.map p.primed } :=
  ⟨rfl, rfl, rfl, rfl, rfl⟩

/-- A loop that goes on is on a tour on which all runs so far proceed. -/
theorem Goes.tours {p : Pipeline} {phases : List Word} (goes : (p.loop phases).Goes l)
    (some_stages : phases ≠ []) :
    ∃ t, p.Tours phases t ∧ l.Tracks t ∧ t.Proceeds := by
  induction goes with
  | here => exact ⟨_, .start, tracks_loop p phases, List.forall_mem_nil _⟩
  | visit goes visited ih =>
    obtain ⟨t, tours, tracks, proceeds⟩ := ih
    rcases tracks.visit tours some_stages visited with
      ⟨_, same, onward, later⟩ | ⟨result, after, onward, goes, later⟩
    · cases same
      exact ⟨_, onward, later, proceeds⟩
    · exact ⟨_, onward, later, proceeds.visit goes⟩

theorem Returns.of_going (visited : l.visit fuel = some (.going l')) (returns : l'.Returns trial) :
    l.Returns trial := by
  obtain ⟨more, visits, ran⟩ := returns
  refine ⟨max fuel more, visits + 1, ?_⟩
  simp only [Loop.runFor, visit_mono (Nat.le_max_left fuel more) visited]
  exact runFor_mono (Nat.le_max_right fuel more) (Nat.le_refl visits) ran

theorem Goes.returns (goes : l.Goes l') (returns : l'.Returns trial) : l.Returns trial := by
  induction goes with
  | here => exact returns
  | visit goes visited ih => exact ih (returns.of_going visited)

/-- As long as all runs of a tour proceed, the loop gets to where the tour is. -/
theorem exists_goes {p : Pipeline} {phases : List Word} (tours : p.Tours phases t)
    (proceeds : t.Proceeds) : ∃ l, (p.loop phases).Goes l ∧ l.Tracks t := by
  induction tours with
  | start => exact ⟨_, .here, tracks_loop p phases⟩
  | @pass t m tours here halted ih =>
    obtain ⟨l, goes, tracks⟩ := ih proceeds
    rw [← tracks.machines, ← tracks.stage] at here
    exact ⟨_, goes.visit (visit_of_isHalted here halted 0), tracks.turn⟩
  | @visit t m after result tours here live runs ih =>
    have newest : Event.Proceeds (t.visit result after).last ⟨t.stage, t.signal, result, after⟩ :=
      proceeds _ (by simp)
    obtain ⟨l, goes, tracks⟩ := ih fun e inside => by
      rw [← last_visit t result after]
      exact proceeds e (by simp [inside])
    obtain ⟨fuel, l' | trial, visited, tracked⟩ := tracks.run here live runs
    · exact ⟨l', goes.visit visited, tracked.2⟩
    · exact absurd newest tracked.1

end Loop

namespace Pipeline

open Tour

variable {p : Pipeline} {phases : List Word} {t : Tour} {e : Event}

theorem runFeedback_of_returns (valid : p.checkPhases phases = .ok ()) {trial : Trial}
    (returns : (p.loop phases).Returns trial) :
    ∃ fuel, p.runFeedback fuel phases = some trial := by
  obtain ⟨fuel, visits, ran⟩ := returns
  refine ⟨max fuel visits, ?_⟩
  simp only [runFeedback, valid]
  exact Loop.runFor_mono (Nat.le_max_left _ _) (Nat.le_max_right _ _) ran

/-- The run that decides a tour decides the answer. -/
theorem answers_of_ends (valid : p.checkPhases phases = .ok ()) (tours : p.Tours phases t)
    (ends : t.Ends e) : p.Answers .feedback phases (t.verdict e) := by
  induction tours with
  | start =>
    obtain ⟨earlier, split, -⟩ := ends
    simp at split
  | pass _ _ _ ih => exact ih ends
  | @visit t m after result tours here live runs ih =>
    obtain ⟨earlier, split, proceeds, stops⟩ := ends
    obtain ⟨rfl, same⟩ := List.append_inj' split rfl
    cases same
    rw [last_visit] at proceeds
    obtain ⟨l, goes, tracks⟩ := Loop.exists_goes tours proceeds
    obtain ⟨fuel, l' | trial, visited, tracked⟩ := tracks.run here live runs
    · exact absurd tracked.1 stops
    · have ended : l.Returns trial := ⟨fuel, 1, by simp only [Loop.runFor, visited]⟩
      obtain ⟨enough, ran⟩ := runFeedback_of_returns valid (goes.returns ended)
      exact ⟨enough, trial, ran, tracked.2.1⟩

theorem tours_of_runFeedback (valid : p.checkPhases phases = .ok ()) {fuel : Nat} {trial : Trial}
    (ran : p.runFeedback fuel phases = some trial) :
    ∃ t e, p.Tours phases t ∧ t.Ends e ∧ t.Decides e trial.result ∧
      trial.visits = t.events.filterMap Event.visit? := by
  simp only [runFeedback, valid] at ran
  exact (Loop.tracks_loop p phases).runFor .start (ne_nil_of_checkPhases valid)
    (List.forall_mem_nil _) ran

/-- A feedback pipeline answers what the first run that does not proceed means. -/
theorem answers_feedback_iff (valid : p.checkPhases phases = .ok ())
    {result : Except PipelineError Word} :
    p.Answers .feedback phases result ↔
      ∃ t e, p.Tours phases t ∧ t.Ends e ∧ t.Decides e result := by
  constructor
  · rintro ⟨fuel, trial, ran, rfl⟩
    obtain ⟨t, e, tours, ends, decides, -⟩ := tours_of_runFeedback valid ran
    exact ⟨t, e, tours, ends, decides⟩
  · rintro ⟨t, e, tours, ends, decides⟩
    exact decides.verdict_eq ▸ answers_of_ends valid tours ends

/-- A run that starves has consumed all that the stage was fed. -/
theorem Tours.starved (tours : p.Tours phases t) (inside : e ∈ t.events)
    (starved : e.result = .ok .awaitingInput) : e.left.pending = [] := by
  induction tours with
  | start => cases inside
  | pass _ _ _ ih => exact ih inside
  | visit _ _ _ runs ih =>
    rcases List.mem_append.mp inside with before | newest
    · exact ih before
    · cases List.mem_singleton.mp newest
      cases starved
      exact runs.starved

/-- A loop routes its signals as a tour does and answers as the tour is decided. -/
theorem feedback_routes_and_completes (p : Pipeline) (phases : List Word)
    (valid : p.checkPhases phases = .ok ()) :
    (∀ l, (p.loop phases).Goes l → ∃ t, p.Tours phases t ∧ l.Tracks t) ∧
    (∀ fuel trial, p.runFeedback fuel phases = some trial → ∃ t e, p.Tours phases t ∧
      t.Ends e ∧ t.Decides e trial.result ∧ trial.visits = t.events.filterMap Event.visit?) ∧
    (∀ t, p.Tours phases t →
      (∀ i phase m, phases[i]? = some phase → t.machines[i]? = some m →
        (p.primed phase).Session (portionsTo i t.events) (resultsOf i t.events) m ∧
        (m.isHalted = false → (portionsTo i t.events).flatten ++ (t.incoming i).toList =
          seed i ++ outputsOf (t.source i) t.events)) ∧
      ∀ earlier e later, t.events = earlier ++ e :: later →
        (portionsTo e.stage (earlier ++ [e])).flatten =
          seed e.stage ++ outputsOf (t.source e.stage) earlier ∧
        (e.result = .ok .halted → ∀ other ∈ later, other.stage ≠ e.stage)) ∧
    (∀ signal, p.Answers .feedback phases (.ok signal) ↔ ∃ t e, p.Tours phases t ∧ t.Ends e ∧
      e.stage = t.last ∧ e.result = .ok .halted ∧
        (outputsOf t.last t.events).getLast? = some signal) ∧
    (∀ k, p.Answers .feedback phases (.error (.noOutput k)) ↔
      k = phases.length - 1 ∧ ∃ t e, p.Tours phases t ∧ t.Ends e ∧
        e.stage = t.last ∧ e.result = .ok .halted ∧ outputsOf t.last t.events = []) ∧
    (∀ i cause, p.Answers .feedback phases (.error (.machine i cause)) ↔
      ∃ t e, p.Tours phases t ∧ t.Ends e ∧ e.stage = i ∧ e.result = .error cause) ∧
    (∀ i, p.Answers .feedback phases (.error (.stalled i)) ↔ ∃ t e, p.Tours phases t ∧
      t.Ends e ∧ e.stage = i ∧ e.result = .ok .awaitingInput ∧ e.left.pending = []) ∧
    ∀ result, p.Answers .feedback phases result →
      (∃ signal, result = .ok signal) ∨ result = .error (.noOutput (phases.length - 1)) ∨
        (∃ i cause, result = .error (.machine i cause)) ∨ ∃ i, result = .error (.stalled i) := by
  have some_stages := ne_nil_of_checkPhases valid
  have last : ∀ {t}, p.Tours phases t → t.last = phases.length - 1 := fun tours => by
    rw [Tour.last, tours.length]
  refine ⟨?_, ?_, ?_, ?_, ?_, ?_, ?_, ?_⟩
  · intro l goes
    obtain ⟨t, tours, tracks, -⟩ := goes.tours some_stages
    exact ⟨t, tours, tracks⟩
  · intro fuel trial ran
    exact tours_of_runFeedback valid ran
  · intro t tours
    refine ⟨fun i phase m there here => ?_, fun earlier e later split => tours.delivers split⟩
    exact ⟨tours.session there here, tours.fed here⟩
  · intro signal
    rw [answers_feedback_iff valid]
    constructor
    · rintro ⟨t, e, tours, ends, ⟨⟩⟩
      next final halted latest => exact ⟨t, e, tours, ends, final, halted, latest⟩
    · rintro ⟨t, e, tours, ends, final, halted, latest⟩
      exact ⟨t, e, tours, ends, .signal final halted latest⟩
  · intro k
    rw [answers_feedback_iff valid]
    constructor
    · rintro ⟨t, e, tours, ends, ⟨⟩⟩
      next final halted none => exact ⟨last tours, t, e, tours, ends, final, halted, none⟩
    · rintro ⟨rfl, t, e, tours, ends, final, halted, none⟩
      exact ⟨t, e, tours, ends, last tours ▸ .silent final halted none⟩
  · intro i cause
    rw [answers_feedback_iff valid]
    constructor
    · rintro ⟨t, e, tours, ends, ⟨⟩⟩
      next failed => exact ⟨t, e, tours, ends, rfl, failed⟩
    · rintro ⟨t, e, tours, ends, rfl, failed⟩
      exact ⟨t, e, tours, ends, .failed failed⟩
  · intro i
    rw [answers_feedback_iff valid]
    constructor
    · rintro ⟨t, e, tours, ends, ⟨⟩⟩
      next starved =>
        obtain ⟨earlier, split, -⟩ := id ends
        exact ⟨t, e, tours, ends, rfl, starved, tours.starved (by simp [split]) starved⟩
    · rintro ⟨t, e, tours, ends, rfl, starved, -⟩
      exact ⟨t, e, tours, ends, .stalled starved⟩
  · intro result answers
    obtain ⟨t, e, tours, ends, decides⟩ := (answers_feedback_iff valid).mp answers
    cases decides with
    | signal => exact .inl ⟨_, rfl⟩
    | silent => exact .inr (.inl (by rw [last tours]))
    | failed => exact .inr (.inr (.inl ⟨_, _, rfl⟩))
    | stalled => exact .inr (.inr (.inr ⟨_, rfl⟩))

/-- A single stage that counts on from each signal that it gets, twice. -/
def counting : Pipeline :=
  { program := ⟨#[3, 20, 3, 21, 101, 1, 21, 21, 4, 21, 3, 21, 101, 1, 21, 21, 4, 21, 99]⟩
    stages := 1 }

theorem feedback_routes_and_completes_counting :
    counting.checkPhases [7] = .ok () ∧ counting.Answers .feedback [7] (.ok 2) ∧
    ∃ t e, counting.Tours [7] t ∧ t.Ends e ∧ e.stage = t.last ∧ e.result = .ok .halted ∧
      (outputsOf t.last t.events).getLast? = some 2 ∧
      ∃ earlier, t.events = earlier ++ [e] ∧
        (portionsTo e.stage (earlier ++ [e])).flatten =
          seed e.stage ++ outputsOf (t.source e.stage) earlier := by
  have valid : counting.checkPhases [7] = .ok () := by decide
  have answers : counting.Answers .feedback [7] (.ok 2) :=
    answers_of_run (show (counting.run 20 .feedback [7]).map Trial.result = some (.ok 2) by
      decide +kernel)
  obtain ⟨-, -, routes, completes, -⟩ := feedback_routes_and_completes counting [7] valid
  obtain ⟨t, e, tours, ends, final, halted, latest⟩ := (completes 2).mp answers
  obtain ⟨earlier, split, -⟩ := id ends
  exact ⟨valid, answers, t, e, tours, ends, final, halted, latest, earlier, split,
    ((routes t tours).2 earlier e [] split).1⟩

end Pipeline

end Intcode
