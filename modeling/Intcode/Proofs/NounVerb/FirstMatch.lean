import Intcode.Proofs.Machine.Termination
import Intcode.Proofs.Program.Patching
import Intcode.Proofs.Search.Candidates

/-!
# The first pair that matches

A search for a noun and a verb is one scan of all pairs over the range, nouns before verbs. The
first pair whose run does not succeed with another value than the target decides it: the pair is
found, or the error of its run ends the search. If there is none, nothing is found.
-/

namespace Intcode

/-- Tries the elements of a list in order until one gives an answer, fails or does not return. -/
def scan {ι : Type u} {ε : Type v} {α : Type w} {σ : Type x}
    (f : ι → σ → Option (Except ε (Option α) × σ)) :
    List ι → σ → Option (Except ε (Option α) × σ)
  | [], seen => some (.ok none, seen)
  | i :: rest, seen =>
    match f i seen with
    | some (.ok none, seen) => scan f rest seen
    | found => found

section Scan

variable {ι : Type u} {κ : Type u'} {ε : Type v} {α : Type w} {σ : Type x}

theorem scan_append (f : ι → σ → Option (Except ε (Option α) × σ)) (L K : List ι) (seen : σ) :
    scan f (L ++ K) seen =
      match scan f L seen with
      | some (.ok none, seen) => scan f K seen
      | found => found := by
  induction L generalizing seen with
  | nil => rfl
  | cons i L ih =>
    simp only [List.cons_append, scan]
    rcases f i seen with _ | ⟨_ | _ | _, later⟩
    case some.ok.none => exact ih later
    all_goals rfl

theorem scan_map (f : ι → σ → Option (Except ε (Option α) × σ)) (g : κ → ι) (L : List κ)
    (seen : σ) : scan f (L.map g) seen = scan (fun k => f (g k)) L seen := by
  induction L generalizing seen with
  | nil => rfl
  | cons k L ih =>
    simp only [List.map_cons, scan]
    rcases f (g k) seen with _ | ⟨_ | _ | _, later⟩
    case some.ok.none => exact ih later
    all_goals rfl

/-- A scan of scans is one scan. -/
theorem scan_flatMap (f : ι → σ → Option (Except ε (Option α) × σ)) (g : κ → List ι) (L : List κ)
    (seen : σ) : scan f (L.flatMap g) seen = scan (fun k => scan f (g k)) L seen := by
  induction L generalizing seen with
  | nil => rfl
  | cons k L ih =>
    rw [List.flatMap_cons, scan_append, scan]
    rcases scan f (g k) seen with _ | ⟨_ | _ | _, later⟩
    case some.ok.none => exact ih later
    all_goals rfl

theorem WordRange.searchFrom_eq_scan (f : Word → σ → Option (Except ε (Option α) × σ))
    (count : Nat) (w : Word) (seen : σ) :
    searchFrom f count w seen = scan f (ascending count w) seen := by
  induction count generalizing w seen with
  | zero => rfl
  | succ count ih =>
    simp only [searchFrom, ascending, scan]
    rcases f w seen with _ | ⟨_ | _ | _, later⟩
    case some.ok.none => exact ih (w + 1) later
    all_goals rfl

theorem WordRange.search_eq_scan (r : WordRange)
    (f : Word → σ → Option (Except ε (Option α) × σ)) (seen : σ) :
    r.search f seen = scan f r.values seen :=
  searchFrom_eq_scan f r.size r.lo seen

end Scan

namespace NounVerb

/-- The program run with the pair comes to an end, and to this result. -/
def Answers (pair : NounVerb) (p : Program) (limit : Option Nat)
    (result : Except MachineError Word) : Prop :=
  ∃ fuel, pair.run fuel p limit = some result

/-- The search comes to an end, and to this result. -/
def Finds (p : Program) (limit : Option Nat) (target : Word) (range : WordRange)
    (result : Except MachineError (Option NounVerb)) : Prop :=
  ∃ fuel, search fuel p target range limit = some result

def Within (pair : NounVerb) (range : WordRange) : Prop :=
  (range.lo ≤ pair.noun ∧ pair.noun ≤ range.hi) ∧ range.lo ≤ pair.verb ∧ pair.verb ≤ range.hi

/-- Nouns come first in the order of the pairs. -/
def Precedes (pair other : NounVerb) : Prop :=
  pair.noun < other.noun ∨ pair.noun = other.noun ∧ pair.verb < other.verb

/-- The run with the pair succeeds with another value than the target. -/
def Misses (pair : NounVerb) (p : Program) (limit : Option Nat) (target : Word) : Prop :=
  ∃ value, pair.Answers p limit (.ok value) ∧ value ≠ target

/-- The pair is in the range and its run has this result, where every pair before it misses. -/
structure Decides (pair : NounVerb) (p : Program) (limit : Option Nat) (target : Word)
    (range : WordRange) (result : Except MachineError Word) : Prop where
  within : pair.Within range
  answers : pair.Answers p limit result
  earlier : ∀ other : NounVerb, other.Within range → other.Precedes pair →
    other.Misses p limit target

variable {p : Program} {limit : Option Nat} {target : Word} {range : WordRange} {pair : NounVerb}
  {L : List NounVerb} {result : Except MachineError (Option NounVerb)}

/-! ## The pairs of a range -/

/-- All pairs over the range in order. -/
def pairs (range : WordRange) : List NounVerb :=
  range.values.flatMap fun noun => range.values.map fun verb => ⟨noun, verb⟩

theorem mem_pairs : pair ∈ pairs range ↔ pair.Within range := by
  obtain ⟨noun, verb⟩ := pair
  simp [pairs, Within, WordRange.mem_values]

theorem pairwise_pairs (range : WordRange) : (pairs range).Pairwise Precedes := by
  rw [pairs, List.pairwise_flatMap]
  constructor
  · intro noun _
    rw [List.pairwise_map]
    exact range.pairwise_values.imp fun less => .inr ⟨rfl, less⟩
  · refine range.pairwise_values.imp fun less one first other second => ?_
    obtain ⟨verb, -, rfl⟩ := List.mem_map.mp first
    obtain ⟨verb', -, rfl⟩ := List.mem_map.mp second
    exact .inl less

theorem Precedes.asymm {other : NounVerb} (before : pair.Precedes other) :
    ¬ other.Precedes pair := by
  simp only [Precedes, Int64.lt_iff_toInt_lt, ← Int64.toInt_inj] at *
  omega

/-! ## One trial -/

theorem attempt_eq (fuel : Nat) (pair : NounVerb) :
    attempt (fun (_ : Unit) _ => ()) fuel p limit target pair () =
      (pair.run fuel p limit).map fun result =>
        (result.map fun value => if value = target then some pair else none, ()) := by
  rw [attempt, run]
  cases pair.prepare p limit with
  | error e => rfl
  | ok m =>
    dsimp only
    cases m.follow fuel with
    | none => rfl
    | some course => cases answer : answerOf course <;> simp [answer] <;> rfl

theorem Answers.returns {answer : Except MachineError Word}
    (answers : pair.Answers p limit answer) :
    ∃ least, ∀ fuel, least ≤ fuel → pair.run fuel p limit = some answer := by
  obtain ⟨q, patched⟩ := Program.exists_patched (p := p) pair.low_of_mem_patches
  obtain ⟨fuel, ran⟩ := answers
  rw [run_eq_runToHalt patched] at ran
  obtain ⟨⟨outcome, last⟩, halted, rfl⟩ := Option.map_eq_some_iff.mp ran
  obtain ⟨outputs, ending, follows, rfl⟩ := Machine.runToHalt_iff_follows.mp ⟨fuel, halted⟩
  obtain ⟨least, returns⟩ := follows.runToHalt
  exact ⟨least, fun more high => by rw [run_eq_runToHalt patched, returns more high]; rfl⟩

theorem Answers.unique {answer other : Except MachineError Word}
    (one : pair.Answers p limit answer) (two : pair.Answers p limit other) : answer = other := by
  obtain ⟨least, returns⟩ := one.returns
  obtain ⟨enough, comes⟩ := two.returns
  have same := (returns _ (Nat.le_max_left least enough)).symm.trans
    (comes _ (Nat.le_max_right least enough))
  exact Option.some.inj same

/-! ## The scan of the pairs -/

/-- What a search that comes to the pair, and no further, makes of the answer. -/
inductive Settles (target : Word) (pair : NounVerb) :
    Except MachineError Word → Except MachineError (Option NounVerb) → Prop where
  | found : Settles target pair (.ok target) (.ok (some pair))
  | failed {e : MachineError} : Settles target pair (.error e) (.error e)

/-- The fuel left out, what a scan of these pairs comes to. -/
inductive Scans (p : Program) (limit : Option Nat) (target : Word) :
    List NounVerb → Except MachineError (Option NounVerb) → Prop where
  | done : Scans p limit target [] (.ok none)
  | settled {pair : NounVerb} {L : List NounVerb} {answer : Except MachineError Word}
      {result : Except MachineError (Option NounVerb)} (answers : pair.Answers p limit answer)
      (settles : Settles target pair answer result) : Scans p limit target (pair :: L) result
  | missed {pair : NounVerb} {L : List NounVerb} {result : Except MachineError (Option NounVerb)}
      (misses : pair.Misses p limit target) (rest : Scans p limit target L result) :
      Scans p limit target (pair :: L) result

theorem scans_of_scan {fuel : Nat}
    (scanned : scan (attempt (fun (_ : Unit) _ => ()) fuel p limit target) L () =
      some (result, ())) : Scans p limit target L result := by
  induction L with
  | nil =>
    cases scanned
    exact .done
  | cons pair L ih =>
    rw [scan, attempt_eq] at scanned
    cases ran : pair.run fuel p limit with
    | none =>
      rw [ran] at scanned
      cases scanned
    | some answer =>
      rw [ran] at scanned
      cases answer with
      | error e =>
        cases scanned
        exact .settled ⟨fuel, ran⟩ .failed
      | ok value =>
        by_cases hits : value = target
        · simp only [Option.map_some, Except.map, if_pos hits] at scanned
          cases scanned
          exact .settled ⟨fuel, by rw [ran, hits]⟩ .found
        · simp only [Option.map_some, Except.map, if_neg hits] at scanned
          exact .missed ⟨value, ⟨fuel, ran⟩, hits⟩ (ih scanned)

/-- The fuel has to do for every trial on the way. -/
theorem Scans.scan (scans : Scans p limit target L result) :
    ∃ least, ∀ fuel, least ≤ fuel →
      Intcode.scan (attempt (fun (_ : Unit) _ => ()) fuel p limit target) L () =
        some (result, ()) := by
  induction scans with
  | done => exact ⟨0, fun _ _ => rfl⟩
  | settled answers settles =>
    obtain ⟨least, returns⟩ := answers.returns
    refine ⟨least, fun fuel high => ?_⟩
    rw [Intcode.scan, attempt_eq, returns fuel high]
    cases settles with
    | found => simp [Except.map]
    | failed => rfl
  | @missed pair L result misses rest ih =>
    obtain ⟨value, answers, other⟩ := misses
    obtain ⟨least, returns⟩ := answers.returns
    obtain ⟨enough, onward⟩ := ih
    refine ⟨max least enough, fun fuel high => ?_⟩
    simp only [Intcode.scan, attempt_eq, returns fuel (by omega), Option.map_some, Except.map,
      if_neg other]
    exact onward fuel (by omega)

theorem finds_iff_scans : Finds p limit target range result ↔
    Scans p limit target (pairs range) result := by
  have whole : ∀ fuel, searchObserved (fun (_ : Unit) _ => ()) () fuel p target range limit =
      scan (attempt (fun (_ : Unit) _ => ()) fuel p limit target) (pairs range) () := by
    intro fuel
    rw [searchObserved, WordRange.search_eq_scan, pairs, scan_flatMap]
    congr 1
    funext noun seen
    rw [scan_map, WordRange.search_eq_scan]
  constructor
  · rintro ⟨fuel, searched⟩
    rw [search, whole] at searched
    obtain ⟨⟨found, ⟨⟩⟩, scanned, rfl⟩ := Option.map_eq_some_iff.mp searched
    exact scans_of_scan scanned
  · intro scans
    obtain ⟨least, returns⟩ := scans.scan
    exact ⟨least, by rw [search, whole, returns least (Nat.le_refl _), Option.map_some]⟩

/-- A scan ends after its last pair, or with the first one that does not miss. -/
theorem scans_iff : Scans p limit target L result ↔
    (result = .ok none ∧ ∀ pair ∈ L, pair.Misses p limit target) ∨
      ∃ before pair after answer, L = before ++ pair :: after ∧
        (∀ other ∈ before, other.Misses p limit target) ∧ pair.Answers p limit answer ∧
        Settles target pair answer result := by
  constructor
  · intro scans
    induction scans with
    | done => exact .inl ⟨rfl, List.forall_mem_nil _⟩
    | @settled pair L answer result answers settles =>
      exact .inr ⟨[], pair, L, answer, rfl, List.forall_mem_nil _, answers, settles⟩
    | @missed pair L result misses rest ih =>
      rcases ih with ⟨rfl, all⟩ | ⟨before, last, after, answer, rfl, missed, settled⟩
      · exact .inl ⟨rfl, List.forall_mem_cons.mpr ⟨misses, all⟩⟩
      · exact .inr ⟨pair :: before, last, after, answer, rfl,
          List.forall_mem_cons.mpr ⟨misses, missed⟩, settled⟩
  · rintro (⟨rfl, all⟩ | ⟨before, pair, after, answer, rfl, missed, answers, settles⟩)
    · induction L with
      | nil => exact .done
      | cons pair L ih =>
        obtain ⟨first, others⟩ := List.forall_mem_cons.mp all
        exact .missed first (ih others)
    · induction before with
      | nil => exact .settled answers settles
      | cons other before ih =>
        obtain ⟨first, others⟩ := List.forall_mem_cons.mp missed
        exact .missed first (ih others)

/-- The pairs listed before one are those of the range that precede it. -/
theorem mem_before_iff {before after : List NounVerb} (split : pairs range = before ++ pair :: after)
    (other : NounVerb) : other ∈ before ↔ other.Within range ∧ other.Precedes pair := by
  have ordered := pairwise_pairs range
  rw [split, List.pairwise_append, List.pairwise_cons] at ordered
  obtain ⟨-, ⟨above, -⟩, below⟩ := ordered
  constructor
  · intro inside
    refine ⟨mem_pairs.mp ?_, below other inside pair List.mem_cons_self⟩
    rw [split]
    exact List.mem_append_left _ inside
  · rintro ⟨within, precedes⟩
    rw [← mem_pairs, split, List.mem_append, List.mem_cons] at within
    rcases within with inside | rfl | behind
    · exact inside
    · exact absurd precedes precedes.asymm
    · exact absurd precedes (above other behind).asymm

/-- A search finds nothing, or a pair decides it. -/
theorem finds_iff : Finds p limit target range result ↔
    (result = .ok none ∧ ∀ pair : NounVerb, pair.Within range → pair.Misses p limit target) ∨
      ∃ pair answer, Decides pair p limit target range answer ∧
        Settles target pair answer result := by
  rw [finds_iff_scans, scans_iff]
  simp only [mem_pairs]
  refine or_congr_right ?_
  constructor
  · rintro ⟨before, pair, after, answer, split, missed, answers, settles⟩
    refine ⟨pair, answer, ⟨mem_pairs.mp (by rw [split]; simp), answers, ?_⟩, settles⟩
    exact fun other within precedes => missed other ((mem_before_iff split other).mpr
      ⟨within, precedes⟩)
  · rintro ⟨pair, answer, ⟨within, answers, earlier⟩, settles⟩
    obtain ⟨before, after, split⟩ := List.append_of_mem (mem_pairs.mpr within)
    refine ⟨before, pair, after, answer, split, fun other inside => ?_, answers, settles⟩
    obtain ⟨among, precedes⟩ := (mem_before_iff split other).mp inside
    exact earlier other among precedes

theorem exists_scans (returns : ∀ pair ∈ L, ∃ answer, pair.Answers p limit answer) :
    ∃ result, Scans p limit target L result := by
  induction L with
  | nil => exact ⟨_, .done⟩
  | cons pair L ih =>
    obtain ⟨first, others⟩ := List.forall_mem_cons.mp returns
    obtain ⟨e | value, answers⟩ := first
    · exact ⟨_, .settled answers .failed⟩
    · by_cases hits : value = target
      · subst hits
        exact ⟨_, .settled answers .found⟩
      · obtain ⟨result, rest⟩ := ih others
        exact ⟨result, .missed ⟨value, answers, hits⟩ rest⟩

/-- With a limit every run comes to an end. -/
theorem exists_answers (p : Program) (bound : Nat) (pair : NounVerb) :
    ∃ answer, pair.Answers p (some bound) answer := by
  obtain ⟨q, patched⟩ := Program.exists_patched (p := p) pair.low_of_mem_patches
  obtain ⟨result, last, ran, -⟩ :=
    Machine.runToHalt_returns (m := Machine.load q (some bound)) rfl (Nat.lt_succ_self bound)
  exact ⟨_, bound + 1, by rw [run_eq_runToHalt patched, ran, Option.map_some]⟩

/-- A search ends with the first pair that does not miss: it finds the pair if its run leaves the
target, and fails with the error of its run. It finds nothing if every pair misses. If every run
comes to an end, so does the search. -/
theorem search_finds_first_match (p : Program) (limit : Option Nat) (target : Word)
    (range : WordRange) :
    (∀ pair, Finds p limit target range (.ok (some pair)) ↔
      pair.Decides p limit target range (.ok target)) ∧
    (∀ e, Finds p limit target range (.error e) ↔
      ∃ pair : NounVerb, pair.Decides p limit target range (.error e)) ∧
    (Finds p limit target range (.ok none) ↔
      ∀ pair : NounVerb, pair.Within range → pair.Misses p limit target) ∧
    ((∀ pair : NounVerb, pair.Within range → ∃ answer, pair.Answers p limit answer) →
      ∃ result, Finds p limit target range result) := by
  refine ⟨fun pair => ?_, fun e => ?_, ?_, fun returns => ?_⟩
  · rw [finds_iff]
    constructor
    · rintro (⟨same, -⟩ | ⟨_, _, decides, settles⟩)
      · cases same
      · cases settles
        exact decides
    · exact fun decides => .inr ⟨pair, _, decides, .found⟩
  · rw [finds_iff]
    constructor
    · rintro (⟨same, -⟩ | ⟨pair, _, decides, settles⟩)
      · cases same
      · cases settles
        exact ⟨pair, decides⟩
    · rintro ⟨pair, decides⟩
      exact .inr ⟨pair, _, decides, .failed⟩
  · rw [finds_iff]
    constructor
    · rintro (⟨-, all⟩ | ⟨_, _, _, settles⟩)
      · exact all
      · cases settles
    · exact fun all => .inl ⟨rfl, all⟩
  · obtain ⟨result, scans⟩ := exists_scans fun pair inside => returns pair (mem_pairs.mp inside)
    exact ⟨result, finds_iff_scans.mpr scans⟩

/-- Leaves the product of the noun and the verb in cell 0. -/
def multiplying : Program :=
  ⟨#[1102, 0, 0, 0, 99]⟩

/-- Of the pairs with the product 12 the one with the smaller noun is found. In the other range the
last pair alone has too large a product. -/
theorem search_finds_first_match_multiplying :
    Decides ⟨3, 4⟩ multiplying none 12 ⟨2, 4⟩ (.ok 12) ∧
    (∃ pair : NounVerb, pair.Decides multiplying none 12 ⟨3037000499, 3037000500⟩
      (.error ⟨.arithmeticOverflow 1102, 0⟩)) ∧
    (∀ pair : NounVerb, pair.Within ⟨2, 4⟩ → pair.Misses multiplying none 7) ∧
    ∃ result, Finds multiplying (some 2) 12 ⟨2, 4⟩ result := by
  have found : search 2 multiplying 12 ⟨2, 4⟩ none = some (.ok (some ⟨3, 4⟩)) := by
    decide +kernel
  have failed : search 2 multiplying 12 ⟨3037000499, 3037000500⟩ none =
      some (.error ⟨.arithmeticOverflow 1102, 0⟩) := by
    decide +kernel
  have missed : search 2 multiplying 7 ⟨2, 4⟩ none = some (.ok none) := by
    decide +kernel
  obtain ⟨finds, -, -, -⟩ := search_finds_first_match multiplying none 12 ⟨2, 4⟩
  obtain ⟨-, fails, -, -⟩ :=
    search_finds_first_match multiplying none 12 ⟨3037000499, 3037000500⟩
  obtain ⟨-, -, misses, -⟩ := search_finds_first_match multiplying none 7 ⟨2, 4⟩
  obtain ⟨-, -, -, returns⟩ := search_finds_first_match multiplying (some 2) 12 ⟨2, 4⟩
  exact ⟨(finds _).mp ⟨2, found⟩, (fails _).mp ⟨2, failed⟩, misses.mp ⟨2, missed⟩,
    returns fun pair _ => exists_answers multiplying 2 pair⟩

end NounVerb

end Intcode
