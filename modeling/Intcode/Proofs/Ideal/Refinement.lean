import Intcode.Proofs.Ideal.Execution

/-!
# The machine refines the ideal machine

From a program that memory can hold, stepping the machine follows the ideal machine for as long as
no step fails, whenever the inputs arrive. A step fails if and only if the ideal machine meets a
fault, and then with the first one.
-/

namespace Intcode

namespace Machine

/-- The machine after so many steps, with the inputs that arrive before each step and those that
arrive before the next. -/
def stepped (m : Machine) (arrivals : Nat → List Word) : Nat → Machine
  | 0 => m.feedAll (arrivals 0)
  | n + 1 => (m.stepped arrivals n).step.2.feedAll (arrivals (n + 1))

/-- No step before this many failed. -/
def Steady (m : Machine) (arrivals : Nat → List Word) (n : Nat) : Prop :=
  ∀ k < n, ∃ outcome, (m.stepped arrivals k).step.1 = .ok outcome

end Machine

namespace Ideal

variable {programSize : Nat} {m : Machine} {r : Ideal}

theorem tracks_load {p : Program} (small : p.size < 2 ^ 60) :
    (load p).Tracks p.size (Machine.load p) where
  mirrors := ⟨fun _ => rfl, rfl, rfl⟩
  pending := rfl
  halted := rfl
  low := Nat.two_pow_pos 63
  extent := rfl
  small := by
    have capacity : Memory.capacity = 2 ^ 60 - 1 := rfl
    have size : (Machine.load p).memory.size = p.size := rfl
    omega
  unlimited := rfl

theorem Tracks.feedAll (tracks : r.Tracks programSize m) (values : List Word) :
    (r.feedAll (values.map Int64.toInt)).Tracks programSize (m.feedAll values) :=
  { tracks with
    mirrors := ⟨tracks.mirrors.cells, tracks.mirrors.pc, tracks.mirrors.base⟩
    pending := by rw [Machine.feedAll, List.map_append, tracks.pending, Ideal.feedAll] }

/-- A step that does not fail keeps the machines together. -/
theorem Tracks.step (tracks : r.Tracks programSize m) {outcome : Option Outcome}
    (ran : m.step.1 = .ok outcome) : r.step.2.Tracks programSize m.step.2 := by
  have answers := step_answers tracks
  generalize r.faults = faults, r.step = ideal, m.step = done at answers ran ⊢
  cases answers with
  | ok same still => exact still
  | error => cases ran

theorem Tracks.stepped (tracks : r.Tracks programSize m) {arrivals : Nat → List Word} {n : Nat}
    (steady : m.Steady arrivals n) :
    (r.stepped (fun k => (arrivals k).map Int64.toInt) n).Tracks programSize
      (m.stepped arrivals n) := by
  induction n with
  | zero => exact tracks.feedAll (arrivals 0)
  | succ n ih =>
    obtain ⟨outcome, ran⟩ := steady n (Nat.lt_succ_self n)
    have before := ih fun k earlier => steady k (Nat.lt_succ_of_lt earlier)
    exact (before.step ran).feedAll (arrivals (n + 1))

theorem Tracks.get (tracks : r.Tracks programSize m) {a : Word} (nonneg : 0 ≤ a) :
    (m.memory.get a).map Int64.toInt = .ok (r.memory a.toInt.toNat) := by
  have natural : 0 ≤ a.toInt := Int64.le_iff_toInt_le.mp nonneg
  rw [m.memory.get_of_nonneg natural, Except.map, tracks.mirrors.cells]

theorem Tracks.step_eq_error_iff (tracks : r.Tracks programSize m) (e : MachineError) :
    m.step.1 = .error e ↔ ∃ fault, r.fault? = some fault ∧ e = ⟨fault, m.pc⟩ := by
  have answers := step_answers tracks
  rw [fault?]
  generalize r.faults = faults, r.step = ideal, m.step = done at answers ⊢
  cases answers with
  | ok same still => simp
  | error => simp [eq_comm]

theorem Tracks.outcome (tracks : r.Tracks programSize m) {outcome : Option Outcome}
    (ran : m.step.1 = .ok outcome) : outcome.map Outcome.event = r.step.1 := by
  have answers := step_answers tracks
  generalize r.faults = faults, r.step = ideal, m.step = done at answers ran ⊢
  cases answers with
  | ok same still =>
    cases ran
    exact same
  | error => cases ran

/-- Stepping follows the ideal machine until the first step that fails. -/
theorem machine_refines_ideal (p : Program) (small : p.size < 2 ^ 60) (arrivals : Nat → List Word)
    (n : Nat) (steady : (Machine.load p).Steady arrivals n) :
    let m := (Machine.load p).stepped arrivals n
    let r := (load p).stepped (fun k => (arrivals k).map Int64.toInt) n
    m.pc.toNat = r.pc ∧ m.base.toInt = r.base ∧ m.pending.map Int64.toInt = r.pending ∧
      m.isHalted = r.halted ∧
      (∀ a : Word, 0 ≤ a → (m.memory.get a).map Int64.toInt = .ok (r.memory a.toInt.toNat)) ∧
      m.memory.size = r.extent p.size ∧
      (∀ outcome, m.step.1 = .ok outcome → outcome.map Outcome.event = r.step.1) ∧
      ∀ e, m.step.1 = .error e ↔ ∃ fault, r.fault? = some fault ∧ e = ⟨fault, m.pc⟩ := by
  intro m r
  have tracks : r.Tracks p.size m := (tracks_load small).stepped steady
  refine ⟨tracks.mirrors.pc, tracks.mirrors.base, tracks.pending, tracks.halted, ?_,
    tracks.extent, ?_, ?_⟩
  · intro a nonneg
    exact tracks.get nonneg
  · intro outcome ran
    exact tracks.outcome ran
  · exact tracks.step_eq_error_iff

/-- Puts an input into the instruction behind, which stores beyond the program; the one after that
has no such mode. -/
def reaching : Program :=
  ⟨#[3, 3, 1101, 0, 7, 9, 302]⟩

theorem machine_refines_ideal_reaching :
    let m := (Machine.load reaching).stepped (fun k => if k = 0 then [5] else []) 2
    m.memory.size = 10 ∧ (m.memory.get 9).map Int64.toInt = .ok 12 ∧
      m.step.1 = .error ⟨.invalidMode 3 302, m.pc⟩ := by
  intro m
  have steady : (Machine.load reaching).Steady (fun k => if k = 0 then [5] else []) 2 := by
    intro k earlier
    have cases : k = 0 ∨ k = 1 := by omega
    rcases cases with rfl | rfl
    · exact ⟨none, rfl⟩
    · exact ⟨none, rfl⟩
  obtain ⟨_, _, _, _, memory, size, _, fails⟩ :=
    machine_refines_ideal reaching (by decide) (fun k => if k = 0 then [5] else []) 2 steady
  refine ⟨size, memory 9 (by decide), (fails _).mpr ⟨_, rfl, rfl⟩⟩

end Ideal

end Intcode
