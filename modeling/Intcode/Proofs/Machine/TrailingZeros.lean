import Intcode.Proofs.Machine.Calls
import Intcode.Proofs.Machine.Likeness

/-!
# Zeros behind a program

A program with zeros behind it has a longer memory at first, and the two memories grow at different
times. But they have the same value at every address and admit the same stores, and that is all an
instruction can tell of a memory. So whatever calls are made, both machines answer the same.
-/

namespace Intcode

/-- The program with so many zeros behind it. -/
def Program.padded (p : Program) (count : Nat) : Program :=
  ⟨p.words ++ Array.replicate count 0⟩

namespace Machine

/-- The machines differ in the lengths of their memories at most. -/
def Alike (m n : Machine) : Prop :=
  m.AgreesOutside (fun _ => False) n

/-- Nothing but the lengths of their memories tells the machines apart. -/
structure Indistinguishable (m n : Machine) : Prop where
  pc : n.pc = m.pc
  base : n.base = m.base
  status : n.status = m.status
  pending : n.pending = m.pending
  steps : n.steps = m.steps
  profile : n.profile = m.profile
  get : ∀ address, n.memory.get address = m.memory.get address

/-- Both give the same, and leave machines that are alike. -/
def Matches {α : Type} (one two : α × Machine) : Prop :=
  two.1 = one.1 ∧ one.2.Alike two.2

/-- Both come to the same through the same suspensions, and leave machines that are alike. -/
structure CourseMatches (one two : Course) : Prop where
  suspensions : two.suspensions = one.suspensions
  ending : two.ending = one.ending
  machine : one.machine.Alike two.machine

variable {m n : Machine} {calls : List Call} {fuel more : Nat}

theorem Matches.eq {α : Type} {a : α} {two : α × Machine} (matching : Matches (a, m) two) :
    ∃ n, two = (a, n) ∧ m.Alike n :=
  ⟨two.2, Prod.ext matching.1 rfl, matching.2⟩

theorem rel_map {α β γ δ : Type} {R : α → β → Prop} {S : γ → δ → Prop} {f : α → γ} {g : β → δ}
    {one : Option α} {two : Option β} (related : Option.Rel R one two)
    (each : ∀ a b, R a b → S (f a) (g b)) : Option.Rel S (one.map f) (two.map g) := by
  cases related with
  | none => exact .none
  | some here => exact .some (each _ _ here)

/-! ## One instruction -/

theorem alike_load {p : Program} {k : Nat} (small : p.size + k ≤ Memory.capacity)
    (limit : Option Nat) : (load p limit).Alike (load (p.padded k) limit) := by
  refine .intro ⟨fun i _ => Memory.cell_append_zeros p.words k i, fun i => ?_⟩
  have size : (load p limit).memory.size = p.size := rfl
  have longer : (p.padded k).toMemory.size = p.size + k := by
    simp [Program.toMemory, Program.padded, Memory.size, Program.size]
  -- both memories fit, so both admit all cells below the capacity and no others
  rw [Bool.eq_iff_iff, Memory.admits_iff, Memory.admits_iff, size, longer]
  omega

namespace Alike

theorem get (alike : m.Alike n) (address : Word) : n.memory.get address = m.memory.get address :=
  alike.memory.get fun _ => id

theorem indistinguishable (alike : m.Alike n) : m.Indistinguishable n := by
  have get := alike.get
  obtain ⟨-⟩ := alike
  exact ⟨rfl, rfl, rfl, rfl, rfl, rfl, get⟩

theorem next (alike : m.Alike n) : n.next = m.next := by
  have get := alike.get
  obtain @⟨behind, -⟩ := alike
  have resolve : ∀ instr, Operands.resolve instr behind m.registers =
      Operands.resolve instr m.memory m.registers := by
    intro instr
    rw [← mapError_id (Operands.resolve instr m.memory m.registers)]
    refine Operands.resolve_congr id rfl fun k param _ => ?_
    rw [mapError_id]
    cases param <;> simp only [Operands.resolveParam, Operand.resolve, Operand.value, get]
  simp only [Machine.next, get, resolve]
  rfl

theorem execute (alike : m.Alike n) : Matches m.execute n.execute := by
  have plans : n.plan = m.plan.mapError id := by
    rw [mapError_id, plan, plan, alike.next]
  obtain ⟨result, after⟩ := AgreesOutside.execute alike (fun _ _ => rfl) plans
  exact ⟨result.trans (mapError_id _), after⟩

/-! ## Runs -/

theorem isHalted (alike : m.Alike n) : n.isHalted = m.isHalted := by
  rw [Machine.isHalted, Machine.isHalted, alike.indistinguishable.status]

theorem failure (alike : m.Alike n) (fault : Fault) : n.failure fault = m.failure fault := by
  rw [Machine.failure, Machine.failure, alike.indistinguishable.pc]

theorem resumed (alike : m.Alike n) : m.resumed.Alike n.resumed := by
  obtain ⟨memory⟩ := alike
  exact .intro memory

theorem step (alike : m.Alike n) : Matches m.step n.step := by
  cases halted : m.isHalted with
  | true =>
    rw [step_of_isHalted halted, step_of_isHalted (alike.isHalted.trans halted)]
    exact ⟨congrArg Except.error (alike.failure .halted), alike⟩
  | false =>
    rw [step_of_live halted, step_of_live (alike.isHalted.trans halted)]
    exact alike.resumed.execute

theorem runFrom (alike : m.Alike n) : Option.Rel Matches (runFrom fuel m) (runFrom fuel n) := by
  induction fuel generalizing m n with
  | zero => exact .none
  | succ fuel ih =>
    have executes := alike.execute
    rcases executed : m.execute with ⟨e | _ | outcome, left⟩ <;> rw [executed] at executes <;>
      obtain ⟨right, also, after⟩ := executes.eq <;> simp only [Machine.runFrom, executed, also]
    · exact .some ⟨rfl, after⟩
    · exact ih after
    · exact .some ⟨rfl, after⟩

theorem run (alike : m.Alike n) : Option.Rel Matches (m.run fuel) (n.run fuel) := by
  cases halted : m.isHalted with
  | true =>
    rw [run_of_isHalted halted, run_of_isHalted (alike.isHalted.trans halted)]
    exact .some ⟨congrArg Except.error (alike.failure .halted), alike⟩
  | false =>
    rw [run_eq_runFrom halted, run_eq_runFrom (alike.isHalted.trans halted)]
    exact alike.resumed.runFrom

theorem suspension (alike : m.Alike n) (outcome : Outcome) :
    n.suspension outcome = m.suspension outcome := by
  obtain ⟨pc, -, -, -, steps, -, -⟩ := alike.indistinguishable
  cases outcome <;> simp only [Machine.suspension, pc, steps]

/-- The suspensions on the way are the same too. -/
theorem followFrom (alike : m.Alike n) (before : List Suspension) :
    Option.Rel CourseMatches (followFrom fuel more before m) (followFrom fuel more before n) := by
  induction more generalizing m n before with
  | zero => exact .none
  | succ more ih =>
    have runs : Option.Rel Matches (m.run fuel) (n.run fuel) := alike.run
    simp only [Machine.followFrom]
    generalize m.run fuel = one, n.run fuel = two at runs
    cases runs with
    | none => exact .none
    | @some one two matching =>
      obtain ⟨result, left⟩ := one
      obtain ⟨right, rfl, after⟩ := matching.eq
      rcases result with e | value | _ | _
      · exact .some ⟨rfl, rfl, after⟩
      · simp only [after.suspension]
        exact ih after _
      · simp only [after.suspension, after.failure]
        exact .some ⟨rfl, rfl, after⟩
      · simp only [after.suspension]
        exact .some ⟨rfl, rfl, after⟩

theorem runToHalt (alike : m.Alike n) :
    Option.Rel Matches (m.runToHalt fuel) (n.runToHalt fuel) := by
  refine rel_map (alike.followFrom []) ?_
  rintro one two ⟨suspensions, ending, after⟩
  refine ⟨?_, after⟩
  simp only [Course.result, Course.outputs, suspensions, ending]

/-! ## Calls -/

theorem feedAll (alike : m.Alike n) (values : List Word) :
    (m.feedAll values).Alike (n.feedAll values) := by
  obtain ⟨memory⟩ := alike
  exact .intro memory

theorem poke (alike : m.Alike n) (address value : Word) :
    Option.Rel Matches (m.perform fuel (.poke address value))
      (n.perform fuel (.poke address value)) := by
  simp only [perform, Machine.poke, alike.memory.target]
  cases found : m.memory.target address with
  | error e =>
    simp only [alike.failure]
    exact .some ⟨rfl, alike⟩
  | ok index =>
    obtain ⟨memory⟩ := alike
    exact .some ⟨rfl, .intro (memory.write (Memory.admits_of_target found) value)⟩

theorem perform (alike : m.Alike n) (call : Call) :
    Option.Rel Matches (m.perform fuel call) (n.perform fuel call) := by
  cases call with
  | feed value => exact .some ⟨rfl, alike.feedAll [value]⟩
  | feedAll values => exact .some ⟨rfl, alike.feedAll values⟩
  | peek address =>
    simp only [Machine.perform, peek, alike.get, alike.failure]
    exact .some ⟨rfl, alike⟩
  | poke address value => exact alike.poke address value
  | step =>
    obtain ⟨result, after⟩ := alike.step
    exact .some ⟨congrArg Answer.stepped result, after⟩
  | run =>
    refine rel_map alike.run ?_
    rintro ⟨_, left⟩ ⟨_, right⟩ ⟨rfl, after⟩
    exact ⟨rfl, after⟩
  | runToHalt =>
    refine rel_map alike.runToHalt ?_
    rintro ⟨_, left⟩ ⟨_, right⟩ ⟨rfl, after⟩
    exact ⟨rfl, after⟩

theorem performAll (alike : m.Alike n) :
    Option.Rel Matches (performAll fuel calls m) (performAll fuel calls n) := by
  induction calls generalizing m n with
  | nil => exact .some ⟨rfl, alike⟩
  | cons call calls ih =>
    have performs : Option.Rel Matches (m.perform fuel call) (n.perform fuel call) :=
      alike.perform call
    simp only [Machine.performAll]
    generalize m.perform fuel call = one, n.perform fuel call = two at performs
    cases performs with
    | none => exact .none
    | @some one two matching =>
      obtain ⟨answer, left⟩ := one
      obtain ⟨right, rfl, after⟩ := matching.eq
      refine rel_map (ih after) ?_
      rintro ⟨_, last⟩ ⟨_, other⟩ ⟨rfl, final⟩
      exact ⟨rfl, final⟩

end Alike

/-- No calls tell a program from the same program with zeros behind it. They return the same, or
both do not return, and after them, so after each of them, only the lengths of the memories may
differ. -/
theorem zeros_unobservable (p : Program) (k : Nat) (small : p.size + k ≤ Memory.capacity)
    (limit : Option Nat) (fuel : Nat) (calls : List Call) :
    Option.Rel (fun one two => two.1 = one.1 ∧ one.2.Indistinguishable two.2)
      (performAll fuel calls (load p limit)) (performAll fuel calls (load (p.padded k) limit)) := by
  have related : Option.Rel Matches (performAll fuel calls (load p limit))
      (performAll fuel calls (load (p.padded k) limit)) := (alike_load small limit).performAll
  generalize performAll fuel calls (load p limit) = one at *
  generalize performAll fuel calls (load (p.padded k) limit) = two at *
  cases related with
  | none => exact .none
  | some matching => exact .some ⟨matching.1, matching.2.indistinguishable⟩

/-- Stores an input far behind its end, and adds it to itself there. -/
def outgrowing : Program :=
  ⟨#[3, 20, 1, 20, 20, 20, 4, 20, 99]⟩

def outgrowingCalls : List Call :=
  [.peek 30, .step, .feed 21, .step, .poke 12 1, .run, .poke (-1) 0, .runToHalt, .step]

theorem zeros_unobservable_outgrowing :
    outgrowing.size + 40 ≤ Memory.capacity ∧ ∃ answers last other,
      performAll 9 outgrowingCalls (load outgrowing (some 5)) = some (answers, last) ∧
      performAll 9 outgrowingCalls (load (outgrowing.padded 40) (some 5)) = some (answers, other) ∧
      answers.contains (.ran (.ok (.output 42))) = true ∧
      last.memory.size = 21 ∧ other.memory.size = 49 ∧ last.Indistinguishable other := by
  have small : outgrowing.size + 40 ≤ Memory.capacity := by decide
  have same := zeros_unobservable outgrowing 40 small (some 5) 9 outgrowingCalls
  have short : (performAll 9 outgrowingCalls (load outgrowing (some 5))).map
      (fun out => (out.1.contains (.ran (.ok (.output 42))), out.2.memory.size)) =
        some (true, 21) := by decide +kernel
  have long : (performAll 9 outgrowingCalls (load (outgrowing.padded 40) (some 5))).map
      (fun out => out.2.memory.size) = some 49 := by decide +kernel
  obtain ⟨⟨answers, last⟩, one, ends⟩ := Option.map_eq_some_iff.mp short
  obtain ⟨⟨others, other⟩, two, longer⟩ := Option.map_eq_some_iff.mp long
  rw [one, two] at same
  cases same with
  | some related =>
    obtain ⟨rfl, alike⟩ := related
    obtain ⟨found, size⟩ := Prod.mk.inj ends
    exact ⟨small, others, last, other, one, two, found, size, longer, alike⟩

end Machine

end Intcode
