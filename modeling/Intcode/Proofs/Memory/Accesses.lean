import Intcode.Memory

/-!
# Reads and stores in any order

After any reads and stores a memory is a map with zero as its default value: an address reads as
the last value that was stored there, else as the cell that was there at first, else as zero. The
memory reaches up to the greatest address that was stored to, or is as long as it was at first. An
access that fails leaves it alone.
-/

namespace Intcode

namespace Memory

inductive Access where
  | get (address : Word)
  | set (address value : Word)
deriving DecidableEq, Repr

def Access.address : Access → Word
  | .get address => address
  | .set address _ => address

/-- The value that was read, or nothing for a store. -/
abbrev Reply := Except MemoryError (Option Word)

def access (m : Memory) : Access → Reply × Memory
  | .get address => ((m.get address).map some, m)
  | .set address value =>
    match m.set address value with
    | .error e => (.error e, m)
    | .ok after => (.ok none, after)

def after (m : Memory) : List Access → Memory
  | [] => m
  | a :: accesses => (m.access a).2.after accesses

/-- The accesses in order, each with its reply. -/
def log (m : Memory) : List Access → List (Access × Reply)
  | [] => []
  | a :: accesses => (a, (m.access a).1) :: (m.access a).2.log accesses

def success? : Access × Reply → Option (Word × Word)
  | (.set address value, .ok _) => some (address, value)
  | _ => none

/-- The addresses and values of the stores that succeeded, in order. -/
def stores (log : List (Access × Reply)) : List (Word × Word) :=
  log.filterMap success?

/-- The value of the latest store at an address. -/
def latest? (log : List (Access × Reply)) (address : Word) : Option Word :=
  (stores log).reverse.lookup address

/-- How many cells a memory needs to have the one at an address. -/
def extent (address : Word) : Nat :=
  address.toInt.toNat + 1

/-- The memory ends before an address and its cells up to there, of eight bytes each, are more than
can be allocated. -/
def Unallocatable (m : Memory) (address : Word) : Prop :=
  m.size < extent address ∧ 1 <<< 63 ≤ 8 * extent address

instance (m : Memory) (address : Word) : Decidable (m.Unallocatable address) :=
  inferInstanceAs (Decidable (_ ∧ _))

variable {m mid final : Memory} {address value : Word}

/-! ## One store -/

/-- The memory that has a new value at one address. -/
structure Stored (m : Memory) (address value : Word) (after : Memory) : Prop where
  reads : ∀ other, after.get other = if other = address then .ok value else m.get other
  size : after.size = max m.size (extent address)
  blank : ∀ i, m.size ≤ i → i < after.size → i ≠ address.toInt.toNat → after.stored? i = some 0

theorem admits_iff_not_unallocatable :
    m.admits address.toInt.toNat = true ↔ ¬ m.Unallocatable address := by
  have bound : capacity = 2 ^ 60 - 1 := rfl
  rw [admits_iff, bound, Unallocatable, extent]
  omega

theorem stored_write (nonneg : 0 ≤ address.toInt)
    (admitted : m.admits address.toInt.toNat = true) (value : Word) :
    m.Stored address value (m.write address.toInt.toNat value) where
  reads other := by
    by_cases negative : other.toInt < 0
    · have different : other ≠ address := by
        rintro rfl
        omega
      rw [if_neg different, get_of_negative _ negative, get_of_negative _ negative]
    · have same : other.toInt.toNat = address.toInt.toNat ↔ other = address := by
        rw [← Int64.toInt_inj]
        omega
      rw [get_of_nonneg _ (by omega), get_of_nonneg _ (by omega), cell_write admitted]
      simp only [same]
      split <;> rfl
  size := size_write admitted value
  blank i beyond inside different := by
    have zero := cell_write admitted value i
    rw [if_neg different, cell_of_size_le beyond, cell_eq_getD_stored?, stored?,
      Array.getElem?_eq_getElem inside] at zero
    rw [stored?, Array.getElem?_eq_getElem inside]
    exact congrArg some zero

theorem set_of_negative (negative : address.toInt < 0) :
    m.set address value = .error (.negativeAddress address) := by
  simp only [set, target, indexOf_of_negative negative]

theorem set_of_unallocatable (nonneg : 0 ≤ address.toInt)
    (unallocatable : m.Unallocatable address) :
    m.set address value = .error (.outOfMemory address) := by
  have refused : ¬ m.admits address.toInt.toNat = true :=
    fun admitted => admits_iff_not_unallocatable.mp admitted unallocatable
  simp only [set, target, indexOf_of_nonneg nonneg, refused, if_false, Bool.false_eq_true]

theorem set_of_allocatable (nonneg : 0 ≤ address.toInt)
    (allocatable : ¬ m.Unallocatable address) (value : Word) :
    ∃ after, m.set address value = .ok after ∧ m.Stored address value after := by
  have admitted := admits_iff_not_unallocatable.mpr allocatable
  refine ⟨_, ?_, stored_write nonneg admitted value⟩
  simp only [set, target, indexOf_of_nonneg nonneg, admitted, if_true]

theorem stored_of_set {after : Memory} (stores : m.set address value = .ok after) :
    m.Stored address value after := by
  by_cases negative : address.toInt < 0
  · rw [set_of_negative negative] at stores
    cases stores
  · have nonneg : 0 ≤ address.toInt := by omega
    by_cases unallocatable : m.Unallocatable address
    · rw [set_of_unallocatable nonneg unallocatable] at stores
      cases stores
    · obtain ⟨_, same, stored⟩ := set_of_allocatable nonneg unallocatable value
      cases stores.symm.trans same
      exact stored

theorem access_of_stored {after : Memory} (stored : m.set address value = .ok after) :
    m.access (.set address value) = (.ok none, after) := by
  simp only [access, stored]

theorem access_of_refused {cause : MemoryError} (refused : m.set address value = .error cause) :
    m.access (.set address value) = (.error cause, m) := by
  simp only [access, refused]

/-! ## Logs -/

/-- A memory has become another one through the stores of a log. -/
structure Follows (m : Memory) (log : List (Access × Reply)) (final : Memory) : Prop where
  reads : ∀ address, final.get address = (latest? log address).elim (m.get address) .ok
  size : final.size = ((stores log).map fun store => extent store.1).foldl max m.size

theorem stores_append (log more : List (Access × Reply)) :
    stores (log ++ more) = stores log ++ stores more :=
  List.filterMap_append ..

theorem latest?_append (log more : List (Access × Reply)) (address : Word) :
    latest? (log ++ more) address = (latest? more address).or (latest? log address) := by
  rw [latest?, stores_append, List.reverse_append, List.lookup_append]
  rfl

theorem Follows.refl {log : List (Access × Reply)} (none : stores log = []) :
    m.Follows log m where
  reads address := by
    rw [latest?, none]
    rfl
  size := by
    rw [none]
    rfl

theorem Follows.trans {log more : List (Access × Reply)} (first : m.Follows log mid)
    (second : mid.Follows more final) : m.Follows (log ++ more) final where
  reads address := by
    rw [second.reads, first.reads, latest?_append]
    cases latest? more address <;> rfl
  size := by
    rw [stores_append, List.map_append, List.foldl_append, ← first.size, second.size]

theorem follows_access (m : Memory) (a : Access) :
    m.Follows [(a, (m.access a).1)] (m.access a).2 := by
  cases a with
  | get address => exact .refl rfl
  | set address value =>
    cases set : m.set address value with
    | error e =>
      rw [access_of_refused set]
      exact .refl rfl
    | ok after =>
      rw [access_of_stored set]
      have stored := stored_of_set set
      refine ⟨fun other => ?_, stored.size⟩
      rw [stored.reads]
      by_cases same : other = address
      · subst same
        simp [latest?, stores, success?]
      · simp [latest?, stores, success?, same]

theorem follows_log (m : Memory) (accesses : List Access) :
    m.Follows (m.log accesses) (m.after accesses) := by
  induction accesses generalizing m with
  | nil => exact .refl rfl
  | cons a accesses ih => exact (m.follows_access a).trans (ih _)

/-- Whatever has been accessed before, an address reads as the latest value stored there, else as
the cell at first, else as zero, and the memory is as long as the stores made it. A store that can
be made changes one address; one that cannot, or a negative address, changes nothing. -/
theorem access_agrees_with_log (cells : Array Word) (accesses : List Access) :
    let log := (Memory.mk cells).log accesses
    let m := (Memory.mk cells).after accesses
    (∀ address : Word, 0 ≤ address.toInt → m.access (.get address) =
      (.ok (some (((latest? log address).or cells[address.toInt.toNat]?).getD 0)), m)) ∧
    (cells.size :: (stores log).map fun store => extent store.1).max? = some m.size ∧
    (∀ address value : Word, 0 ≤ address.toInt → ¬ m.Unallocatable address →
      ∃ after, m.access (.set address value) = (.ok none, after) ∧
        m.Stored address value after) ∧
    (∀ a : Access, a.address.toInt < 0 →
      m.access a = (.error (.negativeAddress a.address), m)) ∧
    ∀ address value : Word, 0 ≤ address.toInt → m.Unallocatable address →
      m.access (.set address value) = (.error (.outOfMemory address), m) := by
  intro log m
  have follows : (Memory.mk cells).Follows log m := follows_log _ accesses
  refine ⟨?_, ?_, ?_, ?_, ?_⟩
  · intro address nonneg
    have read := follows.reads address
    rw [get_of_nonneg ⟨cells⟩ nonneg, cell_eq_getD_stored?] at read
    rw [access, read]
    cases latest? log address <;> rfl
  · rw [List.max?_cons', ← size, follows.size]
  · intro address value nonneg allocatable
    obtain ⟨after, set, stored⟩ := set_of_allocatable nonneg allocatable value
    exact ⟨after, access_of_stored set, stored⟩
  · intro a negative
    cases a with
    | get address =>
      have refused : m.get address = .error (.negativeAddress address) :=
        get_of_negative m negative
      rw [access, refused]
      rfl
    | set address value => exact access_of_refused (set_of_negative negative)
  · intro address value nonneg unallocatable
    exact access_of_refused (set_of_unallocatable nonneg unallocatable)

theorem access_agrees_with_log_beyond :
    let m := (Memory.mk #[7]).after
      [.set 4 9, .set (-5) 1, .set 9223372036854775807 1, .set 1 8, .set 4 2]
    m.access (.get 4) = (.ok (some 2), m) ∧ m.access (.get 3) = (.ok (some 0), m) ∧
    m.access (.get 0) = (.ok (some 7), m) ∧ m.size = 5 ∧
    m.access (.set (-5) 1) = (.error (.negativeAddress (-5)), m) ∧
    m.access (.set 9223372036854775807 1) = (.error (.outOfMemory 9223372036854775807), m) := by
  obtain ⟨reads, size, -, negative, unallocatable⟩ := access_agrees_with_log #[7]
    [.set 4 9, .set (-5) 1, .set 9223372036854775807 1, .set 1 8, .set 4 2]
  refine ⟨reads 4 (by decide), reads 3 (by decide), reads 0 (by decide), ?_,
    negative (.set (-5) 1) (by decide), unallocatable _ _ (by decide) (by decide)⟩
  exact Option.some.inj (size.symm.trans (by decide))

end Memory

end Intcode
