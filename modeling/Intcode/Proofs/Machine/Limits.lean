import Mathlib.Data.List.Basic
import Intcode.Proofs.Machine.Calls
import Intcode.Proofs.Machine.Feeding

/-!
# Step limits

A limit changes nothing until a machine that has spent it starts another instruction. That one
fails without a trace, whatever it is. A machine with a limit therefore does the same as one without
as long as its steps are below the limit wherever it starts an instruction, and then it stops.
-/

namespace Intcode

namespace Machine

/-- The machine under another limit, or under none. -/
def withLimit (limit : Option Nat) (m : Machine) : Machine :=
  { m with budget := { m.budget with limit } }

/-- Another instruction keeps to the limit. -/
def Affords (m : Machine) (limit : Option Nat) : Prop :=
  ∀ bound ∈ limit, m.steps < bound

variable {m s after last : Machine} {limit : Option Nat} {goesOn : Result → Prop} {call : Call}
  {calls : List Call} {earlier starts : List Machine} {answer : Answer} {answers : List Answer}
  {bound : Nat}

theorem affords_some : m.Affords (some bound) ↔ m.steps < bound :=
  ⟨fun affords => affords bound rfl, fun below _ same => Option.some.inj same ▸ below⟩

/-! ## One instruction -/

theorem charge_of_affords (covered : m.Affords m.budget.limit) :
    m.budget.charge = .ok { m.budget with used := m.steps + 1 } := by
  rcases m with ⟨_, _, _, _, ⟨used, limit⟩, _⟩
  cases limit with
  | none => rfl
  | some bound => exact if_neg (Nat.not_le.mpr (covered bound rfl))

theorem spent_or_affords (m : Machine) :
    (∃ bound, m.budget.limit = some bound ∧ bound ≤ m.steps) ∨ m.Affords m.budget.limit := by
  by_cases spent : ∃ bound, m.budget.limit = some bound ∧ bound ≤ m.steps
  · exact .inl spent
  · exact .inr fun bound limited => Nat.lt_of_not_le fun low => spent ⟨bound, limited, low⟩

theorem execute_spent (limited : m.budget.limit = some bound) (spent : bound ≤ m.steps) :
    m.execute = (.error ⟨.stepLimitExceeded bound, m.pc⟩, m) := by
  have unpaid : m.budget.charge = .error (.stepLimitExceeded bound) := by
    simp only [Budget.charge, limited]
    exact if_pos spent
  exact execute_unpaid unpaid

theorem apply_withLimit (limit : Option Nat) (m : Machine) (opcode : Opcode) (effect : Effect) :
    (m.withLimit limit).apply opcode effect =
      ((m.apply opcode effect).1, (m.apply opcode effect).2.withLimit limit) := by
  cases effect with
  | write address value =>
    simp only [apply, withLimit]
    cases m.memory.target address <;> rfl
  | jump target =>
    simp only [apply, withLimit]
    cases Memory.indexOf target <;> rfl
  | proceed | rebase | output | halt => rfl
  | input address =>
    simp only [apply, withLimit]
    cases m.pending with
    | nil => rfl
    | cons value pending => cases m.memory.target address <;> rfl

/-- An instruction does not look at a limit that it keeps to. -/
theorem execute_withLimit (can : m.Affords m.budget.limit) (may : m.Affords limit) :
    (m.withLimit limit).execute = (m.execute.1, m.execute.2.withLimit limit) := by
  have charged := charge_of_affords can
  have other := charge_of_affords (m := m.withLimit limit) may
  rcases next : m.next with fault | ⟨instr, effect⟩
  · rw [execute_faulty charged next, execute_faulty other next]
    rfl
  · rw [execute_effect charged next, execute_effect other next]
    exact apply_withLimit limit { m with budget := { m.budget with used := m.steps + 1 } } _ _

/-- An instruction costs a step unless it waits. -/
theorem execute_budget (covered : m.Affords m.budget.limit) {result : Result}
    (executed : m.execute = (result, after)) (served : result ≠ .ok (some .awaitingInput)) :
    after.budget = { m.budget with used := m.steps + 1 } := by
  have charged := charge_of_affords covered
  cases executes executed with
  | unpaid unpaid => cases charged.symm.trans unpaid
  | faulty other =>
    cases charged.symm.trans other
    rfl
  | applied other next applies =>
    cases charged.symm.trans other
    cases applies with
    | starved => exact absurd rfl served
    | moved | emitted | halted | failed | stored | dropped => rfl

/-- Whatever comes of an instruction, it costs one step at most. -/
theorem execute_costs (m : Machine) :
    m.execute.2.budget.limit = m.budget.limit ∧ m.execute.2.steps ≤ m.steps + 1 := by
  rcases spent_or_affords m with ⟨bound, limited, spent⟩ | covered
  · rw [execute_spent limited spent]
    exact ⟨rfl, Nat.le_succ _⟩
  · rcases executed : m.execute with ⟨result, after⟩
    by_cases starved : result = .ok (some .awaitingInput)
    · subst starved
      obtain ⟨-, rfl⟩ := execute_awaitingInput executed
      exact ⟨rfl, Nat.le_succ _⟩
    · rw [steps, execute_budget covered executed starved]
      exact ⟨rfl, Nat.le_refl _⟩

theorem affords_of_ok {outcome : Option Outcome} (fine : m.execute.1 = .ok outcome) :
    m.Affords m.budget.limit := by
  rcases spent_or_affords m with ⟨bound, limited, spent⟩ | covered
  · rw [execute_spent limited spent] at fine
    cases fine
  · exact covered

theorem execute_steps (goes : GoesOn m.execute.1) : m.execute.2.steps = m.steps + 1 := by
  obtain ⟨outcome, fine, served⟩ := goes.served
  have paid := execute_budget (affords_of_ok fine) (Prod.ext fine rfl) (by simpa using served)
  exact congrArg Budget.used paid

/-! ## Calls -/

theorem Reaches.steps (reaches : Reaches GoesOn m earlier s) :
    s.steps = m.steps + earlier.length ∧ ∀ t ∈ earlier, t.steps < s.steps := by
  induction reaches with
  | here m => exact ⟨rfl, List.forall_mem_nil _⟩
  | @next m s earlier goes rest ih =>
    obtain ⟨total, below⟩ := ih
    rw [execute_steps goes] at total
    have length : s.steps = m.steps + (earlier.length + 1) := by omega
    exact ⟨length, List.forall_mem_cons.mpr ⟨by omega, below⟩⟩

theorem Reaches.withLimit (reaches : Reaches goesOn m earlier s)
    (can : ∀ t ∈ earlier, t.Affords t.budget.limit) (may : ∀ t ∈ earlier, t.Affords limit) :
    Reaches goesOn (m.withLimit limit) (earlier.map (Machine.withLimit limit))
      (s.withLimit limit) := by
  induction reaches with
  | here m => exact .here _
  | @next m s earlier goes rest ih =>
    have same := execute_withLimit (can m List.mem_cons_self) (may m List.mem_cons_self)
    have onward := ih (fun t inside => can t (List.mem_cons_of_mem m inside))
      fun t inside => may t (List.mem_cons_of_mem m inside)
    exact .next (by rw [same]; exact goes) (by rw [same]; exact onward)

theorem Starts.withLimit (starts : m.Starts call earlier s)
    (may : ∀ t ∈ earlier, t.Affords limit) :
    (m.withLimit limit).Starts call (earlier.map (Machine.withLimit limit))
      (s.withLimit limit) := by
  refine ⟨starts.drives, starts.live, starts.reaches.withLimit (fun t inside => ?_) may⟩
  obtain ⟨outcome, fine⟩ := Call.ok_of_goesOn (starts.reaches.goes t inside)
  exact affords_of_ok fine

theorem output?_withLimit (can : m.Affords m.budget.limit) (may : m.Affords limit) :
    (m.withLimit limit).output? = m.output? := by
  rw [output?, output?, execute_withLimit can may]

theorem Call.Returns.withLimit {outputs : List Word} {result : Result}
    (returns : call.Returns outputs result after answer) (limit : Option Nat) :
    call.Returns outputs result (after.withLimit limit) answer := by
  cases returns with
  | step => exact .step
  | run ends => exact .run ends
  | runToHalt ends =>
    refine .runToHalt ?_
    cases ends with
    | failed => exact .failed
    | starved => exact .starved
    | halted => exact .halted

theorem perform_withLimit (inert : call.drives = false)
    (performed : m.perform 0 call = some (answer, after)) :
    (m.withLimit limit).perform 0 call = some (answer, after.withLimit limit) := by
  cases call with
  | feed | feedAll | peek =>
    cases performed
    rfl
  | poke address value =>
    simp only [perform, poke, Machine.withLimit] at performed ⊢
    cases target : m.memory.target address <;> rw [target] at performed <;> cases performed <;> rfl
  | step | run | runToHalt => cases inert

/-- A call that keeps to both limits does not see which one it is under. -/
theorem Performs.withLimit (performs : m.Performs call starts answer after)
    (can : ∀ t ∈ starts, t.Affords t.budget.limit) (may : ∀ t ∈ starts, t.Affords limit) :
    (m.withLimit limit).Performs call (starts.map (Machine.withLimit limit)) answer
      (after.withLimit limit) := by
  cases performs with
  | passive inert performed => exact .passive inert (perform_withLimit inert performed)
  | refused halted returns => exact .refused halted (returns.withLimit limit)
  | @driven s after earlier result answer starts stops returns =>
    have member : ∀ t ∈ earlier, t ∈ earlier ++ [s] := fun t inside => List.mem_append_left _ inside
    have ending : s ∈ earlier ++ [s] := by simp
    have same := execute_withLimit (can s ending) (may s ending)
    rw [stops] at same
    have outputs : (earlier.map (Machine.withLimit limit)).filterMap output? =
        earlier.filterMap output? := by
      rw [List.filterMap_map]
      exact List.filterMap_congr fun t inside =>
        output?_withLimit (can t (member t inside)) (may t (member t inside))
    rw [List.map_append]
    refine .driven (starts.withLimit fun t inside => may t (member t inside)) same ?_
    rw [outputs]
    exact returns.withLimit limit

theorem History.withLimit (history : m.History calls starts answers last)
    (can : ∀ t ∈ starts, t.Affords t.budget.limit) (may : ∀ t ∈ starts, t.Affords limit) :
    (m.withLimit limit).History calls (starts.map (Machine.withLimit limit)) answers
      (last.withLimit limit) := by
  induction history with
  | done m => exact .done _
  | call performs rest ih =>
    rw [List.forall_mem_append] at can may
    rw [List.map_append]
    exact .call (performs.withLimit can.1 may.1) (ih can.2 may.2)

/-! ## The limit is reached -/

theorem preserved_limit (limit : Option Nat) : Preserved fun t => t.budget.limit = limit where
  feeds _ _ same := same
  stores _ _ same := same
  resumes _ same := same
  executes t same := (execute_costs t).1.trans same

/-- No step goes beyond the limit. -/
theorem preserved_steps_le (bound : Nat) :
    Preserved fun t => t.budget.limit = some bound ∧ t.steps ≤ bound where
  feeds _ _ within := within
  stores _ _ within := within
  resumes _ within := within
  executes t within := by
    obtain ⟨limited, low⟩ := within
    refine ⟨(execute_costs t).1.trans limited, ?_⟩
    rcases Nat.lt_or_eq_of_le low with below | spent
    · exact Nat.le_trans (execute_costs t).2 below
    · rw [execute_spent limited (Nat.le_of_eq spent.symm)]
      exact low

/-- A machine that has spent its limit never halts any more. -/
theorem preserved_spent (bound : Nat) :
    Preserved fun t => t.budget.limit = some bound ∧ bound ≤ t.steps ∧ t.isHalted = false where
  feeds _ _ spent := spent
  stores _ _ spent := spent
  resumes _ spent := ⟨spent.1, spent.2.1, rfl⟩
  executes t spent := by
    rw [execute_spent spent.1 spent.2.1]
    exact spent

/-- The first instruction after the limit was spent fails without a trace. -/
theorem Starts.cut_off (starts : m.Starts call earlier s) (spent : s.steps = bound) :
    ∃ answer, (m.withLimit (some bound)).Performs call
        ((earlier ++ [s]).map (Machine.withLimit (some bound))) answer
        (s.withLimit (some bound)) ∧
      answer.error? = some ⟨.stepLimitExceeded bound, s.pc⟩ := by
  have below : ∀ t ∈ earlier, t.Affords (some bound) := fun t inside =>
    affords_some.mpr (spent ▸ starts.onward.steps.2 t inside)
  have stops : (s.withLimit (some bound)).execute =
      (.error ⟨.stepLimitExceeded bound, s.pc⟩, s.withLimit (some bound)) :=
    execute_spent rfl (Nat.le_of_eq spent.symm)
  have limited := starts.withLimit below
  obtain ⟨answer, returns⟩ := Call.exists_returns starts.drives (call.not_goesOn_error _)
    ((earlier.map (Machine.withLimit (some bound))).filterMap output?) (s.withLimit (some bound))
  refine ⟨answer, ?_, returns.error?_eq⟩
  rw [List.map_append]
  exact .driven limited stops returns

/-- Instructions are started until one stops the call or as many steps are spent. -/
theorem stops_or_spends (goesOn : Result → Prop) (onward : ∀ r, goesOn r → GoesOn r)
    (low : m.steps ≤ bound) :
    ∃ earlier s, Reaches goesOn m earlier s ∧ (∀ t ∈ earlier, t.steps < bound) ∧
      (¬ goesOn s.execute.1 ∧ s.steps < bound ∨ s.steps = bound) := by
  -- by induction on the steps that are left
  obtain ⟨left, total⟩ : ∃ left, m.steps + left = bound := ⟨bound - m.steps, by omega⟩
  induction left generalizing m with
  | zero => exact ⟨[], m, .here m, by simp, .inr total⟩
  | succ left ih =>
    by_cases goes : goesOn m.execute.1
    · have paid := execute_steps (onward _ goes)
      obtain ⟨earlier, s, reaches, below, ends⟩ := ih (m := m.execute.2) (by omega) (by omega)
      exact ⟨m :: earlier, s, .next goes reaches, List.forall_mem_cons.mpr ⟨by omega, below⟩, ends⟩
    · exact ⟨[], m, .here m, by simp, .inl ⟨goes, by omega⟩⟩

theorem performs_or_spends (low : m.steps ≤ bound) (call : Call) :
    (∃ starts answer after, m.Performs call starts answer after ∧ ∀ t ∈ starts, t.steps < bound) ∨
      ∃ earlier s, m.Starts call earlier s ∧ s.steps = bound := by
  cases drives : call.drives with
  | false =>
    obtain ⟨answer, after, performed⟩ : ∃ answer after, m.perform 0 call = some (answer, after) := by
      cases call with
      | feed | feedAll | peek => exact ⟨_, _, rfl⟩
      | poke address value =>
        simp only [perform]
        cases m.poke address value <;> exact ⟨_, _, rfl⟩
      | step | run | runToHalt => cases drives
    exact .inl ⟨[], answer, after, .passive drives performed, by simp⟩
  | true =>
    cases halted : m.isHalted with
    | true =>
      obtain ⟨answer, returns⟩ := Call.exists_returns drives (call.not_goesOn_error _) [] m
      exact .inl ⟨[], answer, m, .refused halted returns, by simp⟩
    | false =>
      obtain ⟨earlier, s, reaches, below, ⟨stops, last⟩ | spent⟩ :=
        stops_or_spends (m := m.resumed) call.goesOn (fun _ => Call.onward) low
      · have starts : m.Starts call earlier s := ⟨drives, halted, reaches⟩
        obtain ⟨answer, returns⟩ :=
          Call.exists_returns drives stops (earlier.filterMap output?) s.execute.2
        exact .inl ⟨_, answer, _, .driven starts rfl returns,
          List.forall_mem_append.mpr ⟨below, List.forall_mem_singleton.mpr last⟩⟩
      · exact .inr ⟨earlier, s, ⟨drives, halted, reaches⟩, spent⟩

/-- A history that ends with the machine halted has kept to its limit. -/
theorem History.below_of_isHalted (history : m.History calls starts answers last)
    (limited : m.budget.limit = some bound) (halted : last.isHalted = true) :
    ∀ t ∈ starts, t.steps < bound := by
  induction history with
  | done m => exact List.forall_mem_nil _
  | @call m mid last call calls starts more answer answers performs rest ih =>
    obtain ⟨each, same⟩ := (preserved_limit (some bound)).performs limited performs
    intro t inside
    rcases List.mem_append.mp inside with now | later
    · -- a machine that had spent its limit here would be stuck from then on
      by_contra high
      have spent : bound ≤ t.steps := Nat.le_of_not_lt high
      have stuck := execute_spent (each t now) spent
      have left := (performs.fails now (congrArg Prod.fst stuck)).2
      rw [stuck] at left
      have live : t.isHalted = false := live_of_running (performs.running t now)
      have final := ((preserved_spent bound).history (m := mid)
        (left ▸ ⟨each t now, spent, live⟩) rest).2.2.2
      rw [halted] at final
      cases final
    · exact ih same halted t later

/-- Halting costs a step and leaves the machine at the instruction. -/
theorem execute_halted (h : m.execute = (.ok (some .halted), after)) :
    after.steps = m.steps + 1 ∧ after.pc = m.pc := by
  have covered : m.Affords m.budget.limit := affords_of_ok (congrArg Prod.fst h)
  refine ⟨congrArg Budget.used (execute_budget covered h (by simp)), ?_⟩
  cases executes h with
  | applied charged next applies =>
    cases applies with
    | halted => rfl

/-- A machine that halts spends a step on each instruction. A limit of so many is just enough. -/
theorem Performs.exact_limit {outputs : List Word} (fresh : m.steps = 0)
    (unlimited : m.budget.limit = none)
    (performs : m.Performs .runToHalt starts (.followed (.ok outputs)) last)
    (count : starts.length = bound) :
    last.steps = bound ∧ 1 ≤ bound ∧
      (∃ more, (m.withLimit (some bound)).Performs .runToHalt more (.followed (.ok outputs))
        (last.withLimit (some bound))) ∧
      ∃ more after, (m.withLimit (some (bound - 1))).Performs .runToHalt more
        (.followed (.error ⟨.stepLimitExceeded (bound - 1), last.pc⟩)) after := by
  obtain ⟨free, -⟩ := (preserved_limit none).performs unlimited performs
  have whole := performs
  cases performs with
  | passive inert => cases inert
  | refused halted returns => cases returns.error?_eq
  | @driven s after earlier result answer begins stops returns =>
    obtain ⟨total, below⟩ := begins.onward.steps
    rw [steps_resumed, fresh, Nat.zero_add] at total
    rw [List.length_append, List.length_singleton] at count
    cases halted_of_returns returns
    obtain ⟨paid, place⟩ := execute_halted stops
    have enough : ∀ t ∈ earlier ++ [s], t.Affords (some bound) :=
      List.forall_mem_append.mpr
        ⟨fun t before => affords_some.mpr (by have := below t before; omega),
          List.forall_mem_singleton.mpr (affords_some.mpr (by omega))⟩
    refine ⟨by omega, by omega, ⟨_, whole.withLimit (fun t inside => ?_) enough⟩, ?_⟩
    · rw [free t inside]
      exact fun _ same => by cases same
    · -- under one step less it is the halt instruction that is cut off
      obtain ⟨answer, performs, failed⟩ := begins.cut_off (show s.steps = bound - 1 by omega)
      obtain ⟨others, ending, rfl, -⟩ := performs_runToHalt_iff.mp ⟨_, performs⟩
      cases ending with
      | error e =>
        cases failed
        rw [place]
        exact ⟨_, _, performs⟩
      | ok done => cases failed

/-- A step limit is a pure cut-off. -/
theorem limit_cuts_off (p : Program) (bound : Nat) :
    (∀ calls starts answers last, (load p).History calls starts answers last →
      (∀ t ∈ starts, t.steps < bound) →
        (load p (some bound)).History calls (starts.map (Machine.withLimit (some bound))) answers
          (last.withLimit (some bound)) ∧
        (∀ call, (∃ more answer after, last.Performs call more answer after ∧
            ∀ t ∈ more, t.steps < bound) ∨
          ∃ earlier s, last.Starts call earlier s ∧ s.steps = bound) ∧
        ∀ call earlier s, last.Starts call earlier s → s.steps = bound →
          ∃ answer, (last.withLimit (some bound)).Performs call
              ((earlier ++ [s]).map (Machine.withLimit (some bound))) answer
              (s.withLimit (some bound)) ∧
            answer.error? = some ⟨.stepLimitExceeded bound, s.pc⟩) ∧
    (∀ calls starts answers last, (load p (some bound)).History calls starts answers last →
      (∀ t ∈ starts, t.steps ≤ bound) ∧ last.steps ≤ bound) ∧
    (∀ inputs starts outputs last,
      ((load p).feedAll inputs).Performs .runToHalt starts (.followed (.ok outputs)) last →
      starts.length = bound →
        last.steps = bound ∧ 1 ≤ bound ∧
        (∃ more, ((load p (some bound)).feedAll inputs).Performs .runToHalt more
          (.followed (.ok outputs)) (last.withLimit (some bound))) ∧
        ∃ more after, ((load p (some (bound - 1))).feedAll inputs).Performs .runToHalt more
          (.followed (.error ⟨.stepLimitExceeded (bound - 1), last.pc⟩)) after) ∧
    ∀ calls starts answers last, (load p (some bound)).History calls starts answers last →
      last.isHalted = true → ∀ limit : Option Nat, (∀ other ∈ limit, bound ≤ other) →
        (load p limit).History calls (starts.map (Machine.withLimit limit)) answers
          (last.withLimit limit) := by
  have within : ∀ calls starts answers last,
      (load p (some bound)).History calls starts answers last →
        (∀ t ∈ starts, t.steps ≤ bound) ∧ last.steps ≤ bound := by
    intro calls starts answers last history
    obtain ⟨each, final⟩ := (preserved_steps_le bound).history (m := load p (some bound))
      ⟨rfl, Nat.zero_le bound⟩ history
    exact ⟨fun t inside => (each t inside).2, final.2⟩
  refine ⟨fun calls starts answers last history below => ?_, within,
    fun inputs starts outputs last performs count => performs.exact_limit rfl rfl count,
    fun calls starts answers last history halted limit higher => ?_⟩
  · obtain ⟨unlimited, -⟩ := (preserved_limit none).history (m := load p) rfl history
    have limited : (load p (some bound)).History calls
        (starts.map (Machine.withLimit (some bound))) answers (last.withLimit (some bound)) :=
      history.withLimit
        (fun t inside other same => by rw [unlimited t inside] at same; cases same)
        fun t inside => affords_some.mpr (below t inside)
    have low : last.steps ≤ bound := (within _ _ _ _ limited).2
    exact ⟨limited, performs_or_spends low, fun call earlier s starts spent => starts.cut_off spent⟩
  · have below := history.below_of_isHalted rfl halted
    obtain ⟨limited, -⟩ := (preserved_limit (some bound)).history (m := load p (some bound)) rfl history
    refine history.withLimit (fun t inside => ?_) fun t inside other set => ?_
    · rw [limited t inside]
      exact affords_some.mpr (below t inside)
    · exact Nat.lt_of_lt_of_le (below t inside) (higher other set)

/-- Takes an input, puts out 7 and halts. -/
def printing : Program :=
  ⟨#[3, 9, 104, 7, 99]⟩

theorem limit_cuts_off_printing :
    (∃ starts last, (load printing (some 2)).History [.feedAll [5], .run] starts
        [.done, .ran (.ok (.output 7))] last ∧
      ∃ more answer after, last.Performs .run more answer after ∧
        answer.error? = some ⟨.stepLimitExceeded 2, 4⟩) ∧
    (∃ more last, ((load printing (some 3)).feedAll [5]).Performs .runToHalt more
      (.followed (.ok [7])) last) ∧
    (∃ more last, ((load printing (some 2)).feedAll [5]).Performs .runToHalt more
      (.followed (.error ⟨.stepLimitExceeded 2, 4⟩)) last) ∧
    ∃ starts last, (load printing (some 9)).History [.feedAll [5], .runToHalt] starts
      [.done, .followed (.ok [7])] last := by
  let a := ((load printing).feedAll [5]).resumed
  let b := a.execute.2
  let c := b.execute.2
  have goes : a.execute.1 = .ok none := by decide +kernel
  have stops : b.execute = (.ok (some (.output 7)), c) := Prod.ext (by decide +kernel) rfl
  have ran : ((load printing).feedAll [5]).Performs .run ([a] ++ [b]) (.ran (.ok (.output 7))) c :=
    .driven ⟨rfl, rfl, .next goes (.here b)⟩ stops (.run rfl)
  have history : (load printing).History [.feedAll [5], .run] ([] ++ ([a] ++ [b] ++ []))
      [.done, .ran (.ok (.output 7))] c := .call (.passive rfl rfl) (.call ran (.done c))
  obtain ⟨limited, -, stuck⟩ := (limit_cuts_off printing 2).1 _ _ _ _ history (by decide +kernel)
  obtain ⟨answer, fails, error⟩ := stuck .run [] c.resumed
    ⟨rfl, by decide +kernel, .here c.resumed⟩ (by decide +kernel)
  have place : c.resumed.pc = 4 := by decide +kernel
  rw [place] at error
  have followed : (((load printing).feedAll [5]).runToHalt 2).map
      (fun out => (out.1, out.2.steps, out.2.pc)) = some (.ok [7], 3, 4) := by decide +kernel
  obtain ⟨⟨result, done⟩, followed, same⟩ := Option.map_eq_some_iff.mp followed
  obtain ⟨rfl, steps, halt⟩ : result = .ok [7] ∧ done.steps = 3 ∧ done.pc = 4 := by
    simpa using same
  obtain ⟨starts, performs⟩ := performs_iff_perform.mpr ⟨2,
    show perform 2 ((load printing).feedAll [5]) .runToHalt = some (.followed (.ok [7]), done) by
      rw [perform, followed]; rfl⟩
  obtain ⟨count, -, ⟨more, enough⟩, less, after, short⟩ :=
    (limit_cuts_off printing starts.length).2.2.1 [5] starts [7] done performs rfl
  rw [← count, steps] at enough short
  rw [halt] at short
  have made : (performAll 2 [.feedAll [5], .runToHalt] (load printing (some 3))).map
      (fun out => (out.1, out.2.isHalted)) = some ([.done, .followed (.ok [7])], true) := by
    decide +kernel
  obtain ⟨⟨answers, final⟩, made, same⟩ := Option.map_eq_some_iff.mp made
  obtain ⟨rfl, halted⟩ : answers = [.done, .followed (.ok [7])] ∧ final.isHalted = true := by
    simpa using same
  obtain ⟨others, low⟩ := history_of_performAll made
  have high := (limit_cuts_off printing 3).2.2.2 _ _ _ _ low halted (some 9)
    (fun other set => by cases set; decide)
  exact ⟨⟨_, _, limited, _, answer, _, fails, error⟩, ⟨more, _, enough⟩, ⟨less, after, short⟩,
    ⟨_, _, high⟩⟩

end Machine

end Intcode
