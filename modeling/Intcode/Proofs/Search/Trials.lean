import Intcode.Proofs.Orderings.Listing
import Intcode.Proofs.Search.Answers

/-!
# The trials of a search

A search goes through a list of orderings until a trial fails. Its fuel and its observer left out,
what it makes of the list is `Tries`. As long as the orderings ascend, the best one is always the
first with the strongest signal so far.
-/

namespace Intcode

namespace Pipeline

/-- The search of these candidates comes to an end, and to this result. -/
def Searches (p : Pipeline) (drive : Drive) (candidates : WordRange)
    (result : Except PipelineError PhaseSearch) : Prop :=
  ∃ fuel, p.search fuel drive candidates = some result

/-- Trials of a list of orderings lead from the best one before to a result. -/
inductive Tries (p : Pipeline) (drive : Drive) :
    List (List Word) → Best → Except PipelineError PhaseSearch → Prop where
  | done (b : Best) : Tries p drive [] b b.finish
  | failed {phases : List Word} {L : List (List Word)} {b : Best} {e : PipelineError}
      (fails : p.Answers drive phases (.error e)) :
      Tries p drive (phases :: L) b (.error (.trialFailed phases e))
  | passed {phases : List Word} {L : List (List Word)} {b : Best} {signal : Word}
      {result : Except PipelineError PhaseSearch} (passes : p.Answers drive phases (.ok signal))
      (rest : Tries p drive L (b.record signal phases) result) :
      Tries p drive (phases :: L) b result

variable {p : Pipeline} {drive : Drive} {candidates : WordRange} {L : List (List Word)}
  {o : Orderings Word} {b : Best} {result : Except PipelineError PhaseSearch}

theorem tries_of_searchFrom {σ : Type u} {observe : σ → List Word → Trial → σ} {seen last : σ}
    {fuel more : Nat} (yields : o.Yields L)
    (h : searchFrom observe (p.run fuel drive) more o b seen = some (result, last)) :
    p.Tries drive L b result := by
  induction more generalizing o L b seen with
  | zero => cases h
  | succ more ih =>
    rw [searchFrom] at h
    cases yields with
    | done ended =>
      rw [ended] at h
      cases h
      exact .done b
    | @next _ _ phases _ gives rest =>
      simp only [gives] at h
      cases ran : p.run fuel drive phases with
      | none =>
        simp only [ran] at h
        cases h
      | some trial =>
        simp only [ran] at h
        cases came : trial.result with
        | error e =>
          simp only [came] at h
          cases h
          exact .failed ⟨fuel, trial, ran, came⟩
        | ok signal =>
          simp only [came] at h
          exact .passed ⟨fuel, trial, ran, came⟩ (ih rest h)

/-- The fuel has to do for every trial on the way, and for one more of them than there are. -/
theorem Tries.searchFrom {σ : Type u} (observe : σ → List Word → Trial → σ) (yields : o.Yields L)
    (tries : p.Tries drive L b result) :
    ∃ least, ∀ fuel, least ≤ fuel → ∀ more, L.length < more → ∀ seen, ∃ last,
      Pipeline.searchFrom observe (p.run fuel drive) more o b seen = some (result, last) := by
  induction tries generalizing o with
  | done b =>
    cases yields with
    | done ended =>
      refine ⟨0, fun fuel _ more longer seen => ⟨seen, ?_⟩⟩
      obtain ⟨more, rfl⟩ : ∃ k, more = k + 1 := ⟨more - 1, by omega⟩
      simp only [Pipeline.searchFrom, ended]
  | @failed phases L b e fails =>
    cases yields with
    | next gives rest =>
      obtain ⟨least, returns⟩ := fails.returns
      refine ⟨least, fun fuel high more longer seen => ?_⟩
      obtain ⟨more, rfl⟩ : ∃ k, more = k + 1 := ⟨more - 1, by omega⟩
      obtain ⟨trial, ran, came⟩ := returns fuel high
      exact ⟨observe seen phases trial, by simp only [Pipeline.searchFrom, gives, ran, came]⟩
  | @passed phases L b signal result passes _ ih =>
    cases yields with
    | next gives rest =>
      obtain ⟨least, returns⟩ := passes.returns
      obtain ⟨enough, onward⟩ := ih rest
      refine ⟨max least enough, fun fuel high more longer seen => ?_⟩
      rw [List.length_cons] at longer
      obtain ⟨more, rfl⟩ : ∃ k, more = k + 1 := ⟨more - 1, by omega⟩
      obtain ⟨trial, ran, came⟩ := returns fuel (by omega)
      obtain ⟨last, found⟩ :=
        onward fuel (by omega) more (by omega) (observe seen phases trial)
      exact ⟨last, by simp only [Pipeline.searchFrom, gives, ran, came, found]⟩

/-- Candidates that are not accepted are not tried. -/
theorem checkCandidates_of_searches (h : p.Searches drive candidates result)
    (tried : ∀ cause, result ≠ .error (.misconfigured cause)) :
    p.checkCandidates candidates = .ok () := by
  obtain ⟨fuel, searched⟩ := h
  rw [search, searchObserved] at searched
  cases checked : p.checkCandidates candidates with
  | error e =>
    rw [checked] at searched
    cases searched
    exact absurd rfl (tried e)
  | ok valid => rfl

theorem searches_iff_tries (accepted : p.checkCandidates candidates = .ok ())
    (yields : (Orderings.ofList candidates.values).Yields L) :
    p.Searches drive candidates result ↔ p.Tries drive L {} result := by
  constructor
  · rintro ⟨fuel, searched⟩
    simp only [search, searchObserved, accepted] at searched
    obtain ⟨⟨found, last⟩, ran, rfl⟩ := Option.map_eq_some_iff.mp searched
    exact tries_of_searchFrom yields ran
  · intro tries
    obtain ⟨least, returns⟩ := tries.searchFrom (fun _ _ _ => ()) yields
    obtain ⟨last, found⟩ := returns (max least (L.length + 1)) (Nat.le_max_left _ _)
      (max least (L.length + 1)) (by omega) ()
    refine ⟨max least (L.length + 1), ?_⟩
    simp only [search, searchObserved, accepted, found, Option.map_some]

theorem exists_tries (returns : ∀ q ∈ L, ∃ result, p.Answers drive q result) (b : Best) :
    ∃ result, p.Tries drive L b result := by
  induction L generalizing b with
  | nil => exact ⟨b.finish, .done b⟩
  | cons phases L ih =>
    obtain ⟨e | signal, answers⟩ := returns phases List.mem_cons_self
    · exact ⟨_, .failed answers⟩
    · obtain ⟨result, rest⟩ :=
        ih (fun q inside => returns q (List.mem_cons_of_mem phases inside)) (b.record signal phases)
      exact ⟨result, .passed answers rest⟩

/-- Of the orderings tried, which all passed, these phases are the first with the strongest
signal. -/
structure Leads (p : Pipeline) (drive : Drive) (tried : List (List Word)) (signal : Word)
    (phases : List Word) : Prop where
  among : phases ∈ tried
  attained : p.Answers drive phases (.ok signal)
  greatest : ∀ q ∈ tried, ∃ weaker, p.Answers drive q (.ok weaker) ∧ weaker ≤ signal
  earliest : ∀ q ∈ tried, p.Answers drive q (.ok signal) → phases ≤ q

/-- The best of the orderings tried, if any were. -/
inductive Covers (p : Pipeline) (drive : Drive) : List (List Word) → Best → Prop where
  | untried : Covers p drive [] {}
  | led {tried : List (List Word)} {signal : Word} {phases : List Word}
      (leads : p.Leads drive tried signal phases) :
      Covers p drive tried ⟨some (signal, phases), tried.length⟩

section Record

variable {tried : List (List Word)} {signal : Word} {phases : List Word}

theorem Leads.keep {top : Word} {best : List Word} (leads : p.Leads drive tried top best)
    (passes : p.Answers drive phases (.ok signal)) (weaker : signal ≤ top)
    (ascends : ∀ q ∈ tried, q < phases) : p.Leads drive (tried ++ [phases]) top best where
  among := List.mem_append_left _ leads.among
  attained := leads.attained
  greatest q inside := by
    rcases List.mem_append.mp inside with before | here
    · exact leads.greatest q before
    · rw [List.mem_singleton.mp here]
      exact ⟨signal, passes, weaker⟩
  earliest q inside attains := by
    rcases List.mem_append.mp inside with before | here
    · exact leads.earliest q before attains
    · rw [List.mem_singleton.mp here]
      exact List.le_of_lt (ascends best leads.among)

theorem leads_of_stronger (passes : p.Answers drive phases (.ok signal))
    (stronger : ∀ q ∈ tried, ∃ weaker, p.Answers drive q (.ok weaker) ∧ weaker < signal) :
    p.Leads drive (tried ++ [phases]) signal phases where
  among := List.mem_append_right _ List.mem_cons_self
  attained := passes
  greatest q inside := by
    rcases List.mem_append.mp inside with before | here
    · obtain ⟨weaker, answers, less⟩ := stronger q before
      exact ⟨weaker, answers, Std.le_of_lt less⟩
    · rw [List.mem_singleton.mp here]
      exact ⟨signal, passes, Std.le_refl signal⟩
  earliest q inside attains := by
    rcases List.mem_append.mp inside with before | here
    · obtain ⟨weaker, answers, less⟩ := stronger q before
      cases answers.unique attains
      exact absurd less Std.lt_irrefl
    · rw [List.mem_singleton.mp here]
      exact List.le_refl phases

theorem Covers.record (covers : p.Covers drive tried b)
    (passes : p.Answers drive phases (.ok signal)) (ascends : ∀ q ∈ tried, q < phases) :
    p.Covers drive (tried ++ [phases]) (b.record signal phases) := by
  have count : (tried ++ [phases]).length = tried.length + 1 := by
    rw [List.length_append, List.length_singleton]
  cases covers with
  | untried => exact .led (leads_of_stronger passes fun q inside => absurd inside List.not_mem_nil)
  | @led _ top best leads =>
    simp only [Best.record]
    by_cases stronger : top < signal
    · rw [if_pos stronger, ← count]
      refine .led (leads_of_stronger passes fun q inside => ?_)
      obtain ⟨weaker, answers, below⟩ := leads.greatest q inside
      exact ⟨weaker, answers, Std.lt_of_le_of_lt below stronger⟩
    · rw [if_neg stronger, ← count]
      exact .led (leads.keep passes (Std.not_lt.mp stronger) ascends)

end Record

/-- A list is tried to its end unless a trial fails; the first that does ends it. -/
theorem Tries.settles {tried : List (List Word)} (tries : p.Tries drive L b result)
    (covers : p.Covers drive tried b) (ascends : (tried ++ L).Pairwise (· < ·)) :
    (∃ best, p.Covers drive (tried ++ L) best ∧ result = best.finish) ∨
      ∃ earlier phases later e, L = earlier ++ phases :: later ∧
        (∀ q ∈ earlier, ∃ signal, p.Answers drive q (.ok signal)) ∧
        p.Answers drive phases (.error e) ∧ result = .error (.trialFailed phases e) := by
  induction tries generalizing tried with
  | done b =>
    rw [List.append_nil]
    exact Or.inl ⟨b, covers, rfl⟩
  | @failed phases L b e fails =>
    exact Or.inr ⟨[], phases, L, e, rfl, fun q inside => absurd inside List.not_mem_nil, fails, rfl⟩
  | @passed phases L b signal result passes rest ih =>
    obtain ⟨-, -, apart⟩ := List.pairwise_append.mp ascends
    have above : ∀ q ∈ tried, q < phases := fun q inside => apart q inside phases List.mem_cons_self
    have joined : tried ++ phases :: L = tried ++ [phases] ++ L := by
      rw [List.append_assoc, List.singleton_append]
    rw [joined] at ascends ⊢
    rcases ih (covers.record passes above) ascends with
      ended | ⟨earlier, failing, later, e, rfl, passed, fails, rfl⟩
    · exact Or.inl ended
    · refine Or.inr ⟨phases :: earlier, failing, later, e, rfl, ?_, fails, rfl⟩
      intro q inside
      rcases List.mem_cons.mp inside with rfl | before
      · exact ⟨signal, passes⟩
      · exact passed q before

end Pipeline

end Intcode
