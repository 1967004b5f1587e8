import Intcode.Proofs.Search.Candidates
import Intcode.Proofs.Search.Trials

/-!
# What a search finds

A search of candidates succeeds if and only if every ordering of them does. Then it returns the
strongest signal, with the first of the orderings that attain it. Otherwise it returns the error of
the first ordering that fails, provided that the trials end.
-/

namespace Intcode

namespace Pipeline

/-- The result that a search should have if it is to succeed. -/
structure Strongest (p : Pipeline) (drive : Drive) (candidates : WordRange) (r : PhaseSearch) :
    Prop where
  ordering : r.phases.Perm candidates.values
  attained : p.Answers drive r.phases (.ok r.signal)
  greatest : ∀ q : List Word, q.Perm candidates.values →
    ∃ signal, p.Answers drive q (.ok signal) ∧ signal ≤ r.signal
  earliest : ∀ q : List Word, q.Perm candidates.values → p.Answers drive q (.ok r.signal) →
    r.phases ≤ q
  trials : r.trials = Orderings.factorial p.stages

/-- No ordering before these phases fails, and they do. -/
structure FirstFailure (p : Pipeline) (drive : Drive) (candidates : WordRange)
    (phases : List Word) (e : PipelineError) : Prop where
  ordering : phases.Perm candidates.values
  fails : p.Answers drive phases (.error e)
  earliest : ∀ q : List Word, q.Perm candidates.values → ∀ other,
    p.Answers drive q (.error other) → phases ≤ q

variable {p : Pipeline} {drive : Drive} {candidates : WordRange} {L : List (List Word)}

theorem Strongest.unique {r s : PhaseSearch} (one : p.Strongest drive candidates r)
    (two : p.Strongest drive candidates s) : r = s := by
  have below : ∀ {r s : PhaseSearch}, p.Strongest drive candidates r →
      p.Strongest drive candidates s → r.signal ≤ s.signal := by
    intro r s one two
    obtain ⟨signal, answers, le⟩ := two.greatest r.phases one.ordering
    cases answers.unique one.attained
    exact le
  have signal : r.signal = s.signal := Std.le_antisymm (below one two) (below two one)
  have phases : r.phases = s.phases := by
    apply List.le_antisymm
    · exact one.earliest s.phases two.ordering (signal ▸ two.attained)
    · exact two.earliest r.phases one.ordering (signal ▸ one.attained)
  have trials : r.trials = s.trials := one.trials.trans two.trials.symm
  cases r
  cases s
  cases signal
  cases phases
  cases trials
  rfl

theorem FirstFailure.unique {phases others : List Word} {e other : PipelineError}
    (one : p.FirstFailure drive candidates phases e)
    (two : p.FirstFailure drive candidates others other) : phases = others ∧ e = other := by
  have same : phases = others := by
    apply List.le_antisymm
    · exact one.earliest others two.ordering other two.fails
    · exact two.earliest phases one.ordering e one.fails
  subst same
  cases one.fails.unique two.fails
  exact ⟨rfl, rfl⟩

/-- The best of all orderings is the strongest result. -/
theorem Covers.strongest (lists : Orderings.Lists candidates.values L)
    (accepted : p.checkCandidates candidates = .ok ()) {best : Best}
    (covers : p.Covers drive L best) :
    ∃ r, best.finish = .ok r ∧ p.Strongest drive candidates r := by
  cases covers with
  | untried =>
    exact absurd ((lists.complete _).mpr (List.Perm.refl candidates.values)) List.not_mem_nil
  | @led _ signal phases leads =>
    refine ⟨⟨signal, phases, L.length⟩, rfl, ?_⟩
    obtain ⟨-, size⟩ := size_of_checkCandidates accepted
    exact {
      ordering := (lists.complete _).mp leads.among
      attained := leads.attained
      greatest := fun q perm => leads.greatest q ((lists.complete q).mpr perm)
      earliest := fun q perm attains => leads.earliest q ((lists.complete q).mpr perm) attains
      trials := by
        rw [lists.length candidates.nodup_values, candidates.length_values, size] }

/-- What ended the trials of all orderings is their first failure. -/
theorem firstFailure_of_split (lists : Orderings.Lists candidates.values L)
    {earlier later : List (List Word)} {phases : List Word} {e : PipelineError}
    (split : L = earlier ++ phases :: later)
    (passed : ∀ q ∈ earlier, ∃ signal, p.Answers drive q (.ok signal))
    (fails : p.Answers drive phases (.error e)) : p.FirstFailure drive candidates phases e where
  ordering := by
    rw [← lists.complete, split]
    exact List.mem_append_right _ List.mem_cons_self
  fails := fails
  earliest q perm other failed := by
    have ascends := lists.ascending
    rw [split] at ascends
    obtain ⟨-, rest, -⟩ := List.pairwise_append.mp ascends
    obtain ⟨least, -⟩ := List.pairwise_cons.mp rest
    rw [← lists.complete, split, List.mem_append, List.mem_cons] at perm
    rcases perm with before | rfl | after
    · obtain ⟨signal, passes⟩ := passed q before
      cases passes.unique failed
    · exact List.le_refl q
    · exact List.le_of_lt (least q after)

/-- A search of accepted candidates ends in one of two ways. -/
theorem Searches.settles (accepted : p.checkCandidates candidates = .ok ())
    {result : Except PipelineError PhaseSearch}
    (searches : p.Searches drive candidates result) :
    (∃ r, result = .ok r ∧ p.Strongest drive candidates r) ∨
      ∃ phases e, result = .error (.trialFailed phases e) ∧
        p.FirstFailure drive candidates phases e := by
  obtain ⟨L, yields, lists⟩ := Orderings.yields_ofList candidates.values
  have tries := (searches_iff_tries accepted yields).mp searches
  rcases tries.settles .untried lists.ascending with
    ⟨best, covers, rfl⟩ | ⟨earlier, phases, later, e, split, passed, fails, rfl⟩
  · obtain ⟨r, finished, strongest⟩ := Covers.strongest lists accepted covers
    exact Or.inl ⟨r, finished, strongest⟩
  · exact Or.inr ⟨phases, e, rfl, firstFailure_of_split lists split passed fails⟩

theorem exists_searches (accepted : p.checkCandidates candidates = .ok ())
    (returns : ∀ q : List Word, q.Perm candidates.values → ∃ result, p.Answers drive q result) :
    ∃ result, p.Searches drive candidates result := by
  obtain ⟨L, yields, lists⟩ := Orderings.yields_ofList candidates.values
  have each : ∀ q ∈ L, ∃ result, p.Answers drive q result := fun q inside =>
    returns q ((lists.complete q).mp inside)
  obtain ⟨result, tries⟩ := exists_tries each {}
  exact ⟨result, (searches_iff_tries accepted yields).mpr tries⟩

/-- A search succeeds exactly with the strongest result, and it does succeed if every ordering of
accepted candidates does. -/
theorem search_finds_strongest (p : Pipeline) (drive : Drive) (candidates : WordRange) :
    (∀ r, p.Searches drive candidates (.ok r) ↔
      p.checkCandidates candidates = .ok () ∧ p.Strongest drive candidates r) ∧
    (p.checkCandidates candidates = .ok () →
      (∀ q : List Word, q.Perm candidates.values → ∃ signal, p.Answers drive q (.ok signal)) →
      ∃ r, p.Searches drive candidates (.ok r) ∧ p.Strongest drive candidates r) := by
  have succeeds : p.checkCandidates candidates = .ok () →
      (∀ q : List Word, q.Perm candidates.values → ∃ signal, p.Answers drive q (.ok signal)) →
      ∃ r, p.Searches drive candidates (.ok r) ∧ p.Strongest drive candidates r := by
    intro accepted passes
    obtain ⟨result, searches⟩ := exists_searches accepted fun q perm =>
      (passes q perm).elim fun signal answers => ⟨.ok signal, answers⟩
    rcases searches.settles accepted with ⟨r, rfl, strongest⟩ | ⟨phases, e, rfl, first⟩
    · exact ⟨r, searches, strongest⟩
    · obtain ⟨signal, answers⟩ := passes phases first.ordering
      cases answers.unique first.fails
  refine ⟨fun r => ⟨fun searches => ?_, fun ⟨accepted, strongest⟩ => ?_⟩, succeeds⟩
  · have accepted := checkCandidates_of_searches searches (by simp)
    rcases searches.settles accepted with ⟨found, same, strongest⟩ | ⟨phases, e, same, -⟩
    · cases same
      exact ⟨accepted, strongest⟩
    · cases same
  · obtain ⟨found, searches, best⟩ := succeeds accepted fun q perm =>
      (strongest.greatest q perm).imp fun signal answers => answers.1
    rw [strongest.unique best]
    exact searches

/-- Puts out whether its phase is below its signal. -/
def comparing : Pipeline :=
  { program := ⟨#[3, 11, 3, 12, 7, 11, 12, 11, 4, 11, 99]⟩, stages := 3 }

/-- The first two orderings come to a weaker signal, two later ones to the same. -/
theorem search_finds_strongest_comparing :
    comparing.Strongest .linear ⟨-1, 1⟩ ⟨1, [0, 1, -1], 6⟩ ∧
      ∃ r, comparing.Searches .linear ⟨-1, 1⟩ (.ok r) ∧ comparing.Strongest .linear ⟨-1, 1⟩ r := by
  have searched : comparing.search 20 .linear ⟨-1, 1⟩ = some (.ok ⟨1, [0, 1, -1], 6⟩) := by
    rw [search, searchObserved, Orderings.ofList, Orderings.sort_of_ascending (by decide +kernel)]
    decide +kernel
  obtain ⟨iff, succeeds⟩ := search_finds_strongest comparing .linear ⟨-1, 1⟩
  obtain ⟨accepted, strongest⟩ := (iff _).mp ⟨20, searched⟩
  refine ⟨strongest, succeeds accepted fun q perm => ?_⟩
  obtain ⟨signal, answers, -⟩ := strongest.greatest q perm
  exact ⟨signal, answers⟩

/-- Where all trials end, a search of accepted candidates fails if and only if some ordering does,
and then with the error of the first that does. -/
theorem search_reports_first_failure (p : Pipeline) (drive : Drive) (candidates : WordRange)
    (accepted : p.checkCandidates candidates = .ok ())
    (returns : ∀ q : List Word, q.Perm candidates.values → ∃ result, p.Answers drive q result) :
    ((∃ e, p.Searches drive candidates (.error e)) ↔
      ∃ q : List Word, q.Perm candidates.values ∧ ∃ e, p.Answers drive q (.error e)) ∧
    ∀ e, p.Searches drive candidates (.error e) ↔
      ∃ phases source, e = .trialFailed phases source ∧
        p.FirstFailure drive candidates phases source := by
  obtain ⟨result, searches⟩ := exists_searches accepted returns
  have fails : ∀ e, p.Searches drive candidates (.error e) ↔
      ∃ phases source, e = .trialFailed phases source ∧
        p.FirstFailure drive candidates phases source := by
    intro e
    constructor
    · intro failed
      rcases failed.settles accepted with ⟨r, same, -⟩ | ⟨phases, source, same, first⟩
      · cases same
      · cases same
        exact ⟨phases, source, rfl, first⟩
    · rintro ⟨phases, source, rfl, first⟩
      rcases searches.settles accepted with ⟨r, rfl, strongest⟩ | ⟨others, other, rfl, same⟩
      · obtain ⟨signal, answers, -⟩ := strongest.greatest phases first.ordering
        cases answers.unique first.fails
      · obtain ⟨rfl, rfl⟩ := first.unique same
        exact searches
  refine ⟨⟨?_, ?_⟩, fails⟩
  · rintro ⟨e, failed⟩
    obtain ⟨phases, source, -, first⟩ := (fails e).mp failed
    exact ⟨phases, first.ordering, source, first.fails⟩
  · rintro ⟨q, perm, e, failed⟩
    rcases searches.settles accepted with ⟨r, rfl, strongest⟩ | ⟨phases, source, rfl, -⟩
    · obtain ⟨signal, answers, -⟩ := strongest.greatest q perm
      cases answers.unique failed
    · exact ⟨_, searches⟩

/-- The sum of the phase and the signal is its next instruction: 4 puts out a signal, 5 jumps back
to the inputs, of which there are no more. -/
def selecting : Pipeline :=
  { program := ⟨#[3, 13, 3, 14, 1, 13, 14, 8, 0, 12, 99, 0, -1]⟩, stages := 2 }

theorem search_reports_first_failure_selecting :
    (∀ q : List Word, q.Perm (WordRange.mk 4 5).values →
      ∃ result, selecting.Answers .linear q result) ∧
    selecting.FirstFailure .linear ⟨4, 5⟩ [5, 4] (.stalled 0) := by
  have accepted : selecting.checkCandidates ⟨4, 5⟩ = .ok () := by decide +kernel
  have searched : selecting.search 20 .linear ⟨4, 5⟩ =
      some (.error (.trialFailed [5, 4] (.stalled 0))) := by
    rw [search, searchObserved, Orderings.ofList, Orderings.sort_of_ascending (by decide +kernel)]
    decide +kernel
  have values : (WordRange.mk 4 5).values = [4, 5] := by decide +kernel
  have ascending : (selecting.run 20 .linear [4, 5]).map Trial.result = some (.ok (-1)) := by
    decide +kernel
  have descending : (selecting.run 20 .linear [5, 4]).map Trial.result =
      some (.error (.stalled 0)) := by
    decide +kernel
  have returns : ∀ q : List Word, q.Perm (WordRange.mk 4 5).values →
      ∃ result, selecting.Answers .linear q result := by
    intro q perm
    rw [values] at perm
    rcases Orderings.front_of_perm perm with ⟨rest, rfl, left⟩ | ⟨first, rest, rfl, -, inside⟩
    · rw [List.perm_singleton.mp left]
      exact ⟨_, answers_of_run ascending⟩
    · rw [List.mem_singleton.mp inside] at perm ⊢
      have left : rest.Perm [4] := List.Perm.cons_inv (perm.trans (List.Perm.swap 5 4 []))
      rw [List.perm_singleton.mp left]
      exact ⟨_, answers_of_run descending⟩
  obtain ⟨-, fails⟩ := search_reports_first_failure selecting .linear ⟨4, 5⟩ accepted returns
  obtain ⟨phases, source, same, first⟩ := (fails _).mp ⟨20, searched⟩
  cases same
  exact ⟨returns, first⟩

end Pipeline

end Intcode
