import Mathlib.Algebra.Group.Nat.Defs
import Intcode.NounVerb
import Intcode.Proofs.Machine.Runs

/-!
# Patches and pokes

A program can be patched before it is loaded, or a machine can be loaded with it and poked. Both
store the same values in the same cells: either all of them are stored, and the machine is one that
was loaded with the patched program, or both refuse the first store that cannot be made. So a run
with a noun and a verb is a run of the program patched with them.
-/

namespace Intcode

/-- Stores patches in order, until one cannot be stored. -/
def Machine.pokeAll (m : Machine) : List Patch → Except MachineError Machine
  | [] => .ok m
  | patch :: patches =>
    match m.poke patch.address.toInt64 patch.value with
    | .error e => .error e
    | .ok after => after.pokeAll patches

theorem Machine.pokeAll_append {m mid : Machine} {before : List Patch}
    (poked : m.pokeAll before = .ok mid) (later : List Patch) :
    m.pokeAll (before ++ later) = mid.pokeAll later := by
  induction before generalizing m with
  | nil =>
    cases poked
    rfl
  | cons patch before ih =>
    simp only [pokeAll, List.cons_append] at poked ⊢
    cases stored : m.poke patch.address.toInt64 patch.value with
    | error e =>
      rw [stored] at poked
      cases poked
    | ok after =>
      rw [stored] at poked
      exact ih poked

namespace Program

/-- The value of the last patch of a cell. -/
def latest? (patches : List Patch) (index : Nat) : Option Word :=
  (patches.reverse.find? fun patch => patch.address.toNat == index).map Patch.value

/-- The program has these patches: the last one of a cell counts, and what is between the end of the
program before and a patch behind it is zero. -/
structure Carries (p : Program) (patches : List Patch) (q : Program) : Prop where
  size : q.size = (patches.map fun patch => patch.address.toNat + 1).foldl max p.size
  cells : ∀ index,
    q.toMemory.cell index = (latest? patches index).getD (p.toMemory.cell index)

/-- The program with one word stored. -/
def store (p : Program) (patch : Patch) : Program :=
  ofMemory (p.toMemory.write patch.address.toNat patch.value)

variable {p q : Program} {patch : Patch} {patches before later : List Patch} {limit : Option Nat}

/-! ## One store after the other -/

theorem patched_cons_of_admits (admitted : p.toMemory.admits patch.address.toNat = true) :
    p.patched (patch :: patches) = (p.store patch).patched patches := by
  simp only [patched, patchMemory, if_pos admitted]
  rfl

theorem patched_cons_of_refused (refused : ¬ p.toMemory.admits patch.address.toNat = true) :
    p.patched (patch :: patches) = .error (.patchOutOfRange patch.address) := by
  simp only [patched, patchMemory, if_neg refused]
  rfl

/-- What is patched in is there when the next patch is stored. -/
theorem patched_append (patched : p.patched before = .ok q) (later : List Patch) :
    p.patched (before ++ later) = q.patched later := by
  induction before generalizing p with
  | nil =>
    cases patched
    rfl
  | cons patch before ih =>
    by_cases admitted : p.toMemory.admits patch.address.toNat = true
    · rw [patched_cons_of_admits admitted] at patched
      rw [List.cons_append, patched_cons_of_admits admitted, ih patched]
    · rw [patched_cons_of_refused admitted] at patched
      cases patched

theorem latest?_cons (patch : Patch) (patches : List Patch) (index : Nat) :
    latest? (patch :: patches) index =
      (latest? patches index).or (if patch.address.toNat = index then some patch.value else none) := by
  simp only [latest?, List.reverse_cons, List.find?_append, Option.map_or, List.find?_singleton]
  congr 1
  by_cases here : patch.address.toNat = index <;> simp [here]

theorem carries_of_patched (patched : p.patched patches = .ok q) : p.Carries patches q := by
  induction patches generalizing p with
  | nil =>
    cases patched
    exact ⟨rfl, fun _ => rfl⟩
  | cons patch patches ih =>
    by_cases admitted : p.toMemory.admits patch.address.toNat = true
    · rw [patched_cons_of_admits admitted] at patched
      have carries := ih patched
      constructor
      · rw [carries.size, List.map_cons, List.foldl_cons]
        congr 1
        exact Memory.size_write admitted patch.value
      · intro index
        have stored : (p.store patch).toMemory.cell index =
            if index = patch.address.toNat then patch.value else p.toMemory.cell index :=
          Memory.cell_write admitted patch.value index
        rw [carries.cells, stored, latest?_cons]
        cases latest? patches index with
        | some value => rfl
        | none =>
          by_cases here : index = patch.address.toNat
          · rw [if_pos here, if_pos here.symm]
            rfl
          · rw [if_neg here, if_neg (Ne.symm here)]
            rfl
    · rw [patched_cons_of_refused admitted] at patched
      cases patched

theorem size_le_of_patched (patched : p.patched patches = .ok q) : p.size ≤ q.size := by
  rw [(carries_of_patched patched).size]
  exact List.foldlRecOn _ max (motive := (p.size ≤ ·)) (Nat.le_refl _)
    fun _ reached _ _ => Nat.le_trans reached (Nat.le_max_left ..)

/-- Addresses that can be allocated can be patched. -/
theorem exists_patched (small : ∀ patch ∈ patches, patch.address.toNat < Memory.capacity) :
    ∃ q, p.patched patches = .ok q := by
  induction patches generalizing p with
  | nil => exact ⟨p, rfl⟩
  | cons patch patches ih =>
    obtain ⟨first, others⟩ := List.forall_mem_cons.mp small
    rw [patched_cons_of_admits (Memory.admits_iff.mpr (.inr first))]
    exact ih others

/-- The first of the patches that cannot be stored, with the program that cannot hold it. -/
structure Refuses (p : Program) (patches before : List Patch) (patch : Patch) (q : Program) :
    Prop where
  split : ∃ later, patches = before ++ patch :: later
  patched : p.patched before = .ok q
  refused : ¬ q.toMemory.admits patch.address.toNat = true

/-- All patches are stored, or one is the first that is refused. -/
theorem patched_or_refuses (p : Program) (patches : List Patch) :
    (∃ q, p.patched patches = .ok q) ∨ ∃ before patch q, p.Refuses patches before patch q := by
  induction patches generalizing p with
  | nil => exact .inl ⟨p, rfl⟩
  | cons patch patches ih =>
    by_cases admitted : p.toMemory.admits patch.address.toNat = true
    · rcases ih (p.store patch) with ⟨q, patched⟩ | ⟨before, failing, q, refuses⟩
      · exact .inl ⟨q, by rw [patched_cons_of_admits admitted, patched]⟩
      · obtain ⟨later, rfl⟩ := refuses.split
        refine .inr ⟨patch :: before, failing, q, ⟨later, rfl⟩, ?_, refuses.refused⟩
        rw [patched_cons_of_admits admitted, refuses.patched]
    · exact .inr ⟨[], patch, p, ⟨patches, rfl⟩, rfl, admitted⟩

theorem Refuses.patched_eq (refuses : p.Refuses patches before patch q) :
    p.patched patches = .error (.patchOutOfRange patch.address) := by
  obtain ⟨later, rfl⟩ := refuses.split
  rw [patched_append refuses.patched, patched_cons_of_refused refuses.refused]

/-! ## Pokes -/

theorem poke_of_admits (low : patch.address.toNat < 2 ^ 63)
    (admitted : p.toMemory.admits patch.address.toNat = true) :
    (Machine.load p limit).poke patch.address.toInt64 patch.value =
      .ok (Machine.load (p.store patch) limit) := by
  have found := p.toMemory.target_toInt64 (by omega)
  rw [if_pos admitted] at found
  simp only [Machine.poke, Machine.load, found]
  rfl

theorem poke_of_refused (low : patch.address.toNat < 2 ^ 63)
    (refused : ¬ p.toMemory.admits patch.address.toNat = true) :
    (Machine.load p limit).poke patch.address.toInt64 patch.value =
      .error ⟨.memory (.outOfMemory patch.address.toInt64), 0⟩ := by
  have found := p.toMemory.target_toInt64 (by omega)
  rw [if_neg refused] at found
  simp only [Machine.poke, Machine.load, found]
  rfl

/-- Poking leaves a machine that could have been loaded with the patched program. -/
theorem pokeAll_of_patched (low : ∀ patch ∈ patches, patch.address.toNat < 2 ^ 63)
    (patched : p.patched patches = .ok q) :
    (Machine.load p limit).pokeAll patches = .ok (Machine.load q limit) := by
  induction patches generalizing p with
  | nil =>
    cases patched
    rfl
  | cons patch patches ih =>
    obtain ⟨first, others⟩ := List.forall_mem_cons.mp low
    by_cases admitted : p.toMemory.admits patch.address.toNat = true
    · rw [patched_cons_of_admits admitted] at patched
      rw [Machine.pokeAll, poke_of_admits first admitted]
      exact ih others patched
    · rw [patched_cons_of_refused admitted] at patched
      cases patched

theorem Refuses.pokeAll_eq (refuses : p.Refuses patches before patch q)
    (low : ∀ patch ∈ patches, patch.address.toNat < 2 ^ 63) (limit : Option Nat) :
    (Machine.load p limit).pokeAll before = .ok (Machine.load q limit) ∧
      (Machine.load p limit).pokeAll patches =
        .error ⟨.memory (.outOfMemory patch.address.toInt64), 0⟩ := by
  obtain ⟨later, rfl⟩ := refuses.split
  obtain ⟨early, late⟩ := List.forall_mem_append.mp low
  obtain ⟨here, -⟩ := List.forall_mem_cons.mp late
  have poked : (Machine.load p limit).pokeAll before = .ok (Machine.load q limit) :=
    pokeAll_of_patched early refuses.patched
  refine ⟨poked, ?_⟩
  rw [Machine.pokeAll_append poked, Machine.pokeAll, poke_of_refused here refuses.refused]

end Program

/-! ## Nouns and verbs -/

namespace NounVerb

/-- The noun and the verb as patches. -/
def patches (pair : NounVerb) : List Patch :=
  [⟨1, pair.noun⟩, ⟨2, pair.verb⟩]

theorem prepare_eq_pokeAll (pair : NounVerb) (p : Program) (limit : Option Nat) :
    pair.prepare p limit = (Machine.load p limit).pokeAll pair.patches := by
  have same : (1 : UInt64).toInt64 = nounAddress ∧ (2 : UInt64).toInt64 = verbAddress := by decide
  simp only [prepare, patches, Machine.pokeAll, same]
  cases (Machine.load p limit).poke nounAddress pair.noun with
  | error e => rfl
  | ok m =>
    dsimp only
    cases m.poke verbAddress pair.verb <;> rfl

theorem low_of_mem_patches (pair : NounVerb) :
    ∀ patch ∈ pair.patches, patch.address.toNat < Memory.capacity := by
  refine List.forall_mem_cons.mpr ⟨?_, List.forall_mem_singleton.mpr ?_⟩ <;>
    exact of_decide_eq_true rfl

theorem answerOf_eq (course : Machine.Course) :
    answerOf course = course.result.map fun _ => course.machine.memory.cell 0 := by
  rw [answerOf, Machine.Course.result]
  cases course.ending with
  | error e => rfl
  | ok =>
    have natural : 0 ≤ (0 : Word).toInt := by decide
    simp only [Machine.peek, course.machine.memory.get_of_nonneg natural]
    rfl

/-- A pair is run by running the program patched with it. -/
theorem run_eq_runToHalt {p q : Program} {limit : Option Nat} {pair : NounVerb}
    (patched : p.patched pair.patches = .ok q) (fuel : Nat) :
    pair.run fuel p limit = ((Machine.load q limit).runToHalt fuel).map fun (result, last) =>
      result.map fun _ => last.memory.cell 0 := by
  have low : ∀ patch ∈ pair.patches, patch.address.toNat < 2 ^ 63 := fun patch inside =>
    Nat.lt_trans (low_of_mem_patches pair patch inside) (by decide)
  rw [run, prepare_eq_pokeAll, Program.pokeAll_of_patched low patched]
  simp only [Machine.runToHalt, Option.map_map]
  congr 1
  funext course
  exact answerOf_eq course

end NounVerb

namespace Program

/-- Patching a program and poking a machine loaded with it come to the same. Either every patch is
stored, the last one of a cell for good, or both fail at the first patch that memory cannot be
allocated for. A noun and a verb can always be stored, and what is run then is the patched
program. -/
theorem patching_is_poking (p : Program) (limit : Option Nat) :
    (∀ patches : List Patch, (∀ patch ∈ patches, patch.address.toNat < 2 ^ 63) →
      (∀ m, (Machine.load p limit).pokeAll patches = .ok m ↔
        ∃ q, p.patched patches = .ok q ∧ m = Machine.load q limit) ∧
      (∀ q, p.patched patches = .ok q → p.Carries patches q) ∧
      ((∀ q, p.patched patches ≠ .ok q) → ∃ before patch q, p.Refuses patches before patch q ∧
        p.patched patches = .error (.patchOutOfRange patch.address) ∧
        (Machine.load p limit).pokeAll before = .ok (Machine.load q limit) ∧
        (Machine.load p limit).pokeAll patches =
          .error ⟨.memory (.outOfMemory patch.address.toInt64), 0⟩ ∧
        patch.address.toInt64.toInt = patch.address.toNat)) ∧
    ∀ noun verb, ∃ q, p.patched [⟨1, noun⟩, ⟨2, verb⟩] = .ok q ∧
      ∀ fuel, NounVerb.run fuel ⟨noun, verb⟩ p limit =
        ((Machine.load q limit).runToHalt fuel).map fun (result, last) =>
          result.map fun _ => last.memory.cell 0 := by
  refine ⟨fun patches low => ⟨fun m => ?_, fun q => carries_of_patched, fun failed => ?_⟩, ?_⟩
  · constructor
    · intro poked
      rcases p.patched_or_refuses patches with ⟨q, patched⟩ | ⟨before, patch, q, refuses⟩
      · rw [pokeAll_of_patched low patched] at poked
        cases poked
        exact ⟨q, patched, rfl⟩
      · rw [(refuses.pokeAll_eq low limit).2] at poked
        cases poked
    · rintro ⟨q, patched, rfl⟩
      exact pokeAll_of_patched low patched
  · rcases p.patched_or_refuses patches with ⟨q, patched⟩ | ⟨before, patch, q, refuses⟩
    · exact absurd patched (failed q)
    · obtain ⟨poked, refused⟩ := refuses.pokeAll_eq low limit
      obtain ⟨later, split⟩ := refuses.split
      have inside : patch ∈ patches := by rw [split]; simp
      exact ⟨before, patch, q, refuses, refuses.patched_eq, poked, refused,
        Word.toInt_of_toNat_lt (low patch inside)⟩
  · intro noun verb
    let pair : NounVerb := ⟨noun, verb⟩
    obtain ⟨q, patched⟩ := exists_patched (p := p) pair.low_of_mem_patches
    exact ⟨q, patched, NounVerb.run_eq_runToHalt patched⟩

/-- Puts out its noun and goes on with its verb as the next instruction. -/
def speaking : Program :=
  ⟨#[104]⟩

/-- The third patch replaces the first; in the other list no memory can hold the second one. -/
theorem patching_is_poking_speaking :
    (∃ m, (Machine.load speaking).pokeAll [⟨4, 7⟩, ⟨2, 5⟩, ⟨4, 9⟩] = .ok m ∧
      m.memory.cells = #[104, 0, 5, 0, 9]) ∧
    (Machine.load speaking).pokeAll [⟨1, 3⟩, ⟨4611686018427387904, 1⟩, ⟨0, 5⟩] =
      .error ⟨.memory (.outOfMemory 4611686018427387904), 0⟩ ∧
    NounVerb.run 2 ⟨-6, 99⟩ speaking = some (.ok 104) ∧
    NounVerb.run 2 ⟨-6, 3⟩ speaking = some (.error ⟨.inputExhausted, 2⟩) := by
  obtain ⟨lists, pairs⟩ := patching_is_poking speaking none
  obtain ⟨pokes, -, -⟩ := lists [⟨4, 7⟩, ⟨2, 5⟩, ⟨4, 9⟩] (by decide)
  obtain ⟨-, -, fails⟩ := lists [⟨1, 3⟩, ⟨4611686018427387904, 1⟩, ⟨0, 5⟩] (by decide)
  refine ⟨?_, ?_, ?_, ?_⟩
  · exact ⟨_, (pokes _).mpr ⟨⟨#[104, 0, 5, 0, 9]⟩, by decide +kernel, rfl⟩, rfl⟩
  · have refused : speaking.patched [⟨1, 3⟩, ⟨4611686018427387904, 1⟩, ⟨0, 5⟩] =
        .error (.patchOutOfRange 4611686018427387904) := by
      decide +kernel
    obtain ⟨_, ⟨address, value⟩, _, _, same, _, poked, _⟩ := fails (by simp [refused])
    cases refused.symm.trans same
    exact poked
  · have words : speaking.patched [⟨1, -6⟩, ⟨2, 99⟩] = .ok ⟨#[104, -6, 99]⟩ := by decide +kernel
    obtain ⟨q, patched, runs⟩ := pairs (-6) 99
    cases words.symm.trans patched
    rw [runs]
    decide +kernel
  · have words : speaking.patched [⟨1, -6⟩, ⟨2, 3⟩] = .ok ⟨#[104, -6, 3]⟩ := by decide +kernel
    obtain ⟨q, patched, runs⟩ := pairs (-6) 3
    cases words.symm.trans patched
    rw [runs]
    decide +kernel

end Program

end Intcode
