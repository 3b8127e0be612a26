import Dpll.Proofs.SearchForms

namespace Dpll

theorem ClauseStore.hasEmpty_iff {s : ClauseStore} : s.hasEmpty ↔ [] ∈ s.formula := by
  rw [hasEmpty, ← Array.any_toList, List.any_eq_true]
  simp [formula]

theorem Formula.not_holds_of_nil_mem {M : Model} {f : Formula} (h : [] ∈ f) : ¬ f.Holds M :=
  fun hM ↦ Clause.not_holds_nil (hM [] h)

theorem Phase.ofVerdict_ne_input (v : Verdict) : Phase.ofVerdict v ≠ .input := by
  cases v <;> exact Phase.noConfusion

namespace Search

variable {ρ : Type} {s s' : Search ρ} {v : Verdict}

theorem coherent_inPhase (h : s.problem.Coherent) (phase : Phase) :
    (s.inPhase phase).problem.Coherent :=
  ⟨h.records, h.normal, h.store⟩

theorem Explored.inPhase (h : s.Explored v s') (phase : Phase) : s.Explored v (s'.inPhase phase) :=
  ⟨coherent_inPhase h.coherent phase,
    ⟨h.keeps.config, h.keeps.clauses, h.keeps.caching, h.keeps.occurrences, h.keeps.size⟩,
    h.before, h.satisfied, h.grows, h.refuted, h.endless⟩

theorem Explored.of_inPhase {phase : Phase} (h : (s.inPhase phase).Explored v s') :
    s.Explored v s' :=
  ⟨h.coherent,
    ⟨h.keeps.config, h.keeps.clauses, h.keeps.caching, h.keeps.occurrences, h.keeps.size⟩,
    h.before, h.satisfied, h.grows, h.refuted, h.endless⟩

theorem explored_of_hasEmpty (hs : s.problem.Coherent) (h : s.problem.store.hasEmpty) :
    s.Explored .unsatisfied s where
  coherent := hs
  keeps := .refl _
  before := (Trail.Grows.refl _).before
  satisfied := nofun
  grows _ := .refl _
  refuted _ := fun ⟨_, _, hM⟩ ↦ Formula.not_holds_of_nil_mem (ClauseStore.hasEmpty_iff.1 h) hM
  endless hm := ⟨nofun, hm⟩

theorem Explored.holds_complete (h : s.Explored .satisfied s') :
    s.problem.formula.Holds (Model.ofList s'.problem.assignment) := by
  intro c hc
  have hc' : c ∈ s'.problem.formula := h.keeps.formula ▸ hc
  exact Clause.holds_of_satisfied (Valuation.extended_complete _) (h.coherent.ne_zero hc')
    (h.satisfied rfl c hc)

variable [Chooser ρ]

/-- As `run`, with the moves. -/
def runLogged (s : Search ρ) : Logged ρ :=
  match s.problem.config.search.value with
  | .iterative => iterateLogged (callBound (s.problem.unvalued + 1)) [] s
  | .recursive => recurseLogged (s.problem.unvalued + 1) s

theorem result_runLogged (s : Search ρ) : s.runLogged.result = s.run := by
  unfold runLogged run
  cases s.problem.config.search.value with
  | iterative => exact result_iterateLogged _ _ _
  | recursive => exact result_recurseLogged _ _

theorem Explores.runLogged {ms : List (Move ρ)} (h : Explores (s.problem.unvalued + 1) s ms v s') :
    s.runLogged = ⟨ms, .ok (v, s')⟩ := by
  unfold Search.runLogged
  split
  · exact h.iterateLogged_of_le (Nat.le_refl _)
  · exact h.recurseLogged

theorem Explores.run {ms : List (Move ρ)} (h : Explores (s.problem.unvalued + 1) s ms v s') :
    s.run = .ok (v, s') := by
  rw [← result_runLogged, h.runLogged]

/-- Unless there is an empty clause, a solve makes the moves of the tree, and notes the verdict. -/
theorem Explores.solve {ms : List (Move ρ)} (hs : s.problem.Coherent)
    (he : ¬ s.problem.store.hasEmpty)
    (h : Explores (s.problem.unvalued + 1) (s.inPhase .solving) ms v s') :
    s.solve = .ok (v, s'.inPhase (.ofVerdict v)) := by
  have hs' : (s.inPhase .solving).problem.Coherent := coherent_inPhase hs _
  have hp : s'.problem.phase = .solving := (h.onward hs').eq nofun
  rw [Search.solve, if_neg he, h.run]
  cases v with
  | unknown =>
    obtain ⟨p, m⟩ := s'
    dsimp only at hp
    simp only [inPhase, Phase.ofVerdict, ← hp]
  | satisfied | unsatisfied => rfl

theorem run_spec (hs : s.problem.Coherent) : ∃ v s', s.run = .ok (v, s') ∧ s.Explored v s' := by
  obtain ⟨ms, v, s', h⟩ := exists_explores hs (Nat.lt_succ_self _)
  exact ⟨v, s', h.run, h.explored hs⟩

theorem solve_spec (hs : s.problem.Coherent) :
    ∃ v s', s.solve = .ok (v, s') ∧ s.Explored v s' ∧
      (v ≠ .unknown → s'.problem.phase = .ofVerdict v) := by
  unfold solve
  split
  next he =>
    exact ⟨_, _, rfl, (explored_of_hasEmpty hs he).inPhase _, fun _ ↦ rfl⟩
  next =>
    have hs' : (s.inPhase .solving).problem.Coherent := coherent_inPhase hs _
    obtain ⟨v, s', hr, hx⟩ := run_spec hs'
    simp only [hr]
    cases v with
    | unknown => exact ⟨_, _, rfl, hx.of_inPhase, fun hv ↦ absurd rfl hv⟩
    | satisfied => exact ⟨_, _, rfl, hx.of_inPhase.inPhase _, fun _ ↦ rfl⟩
    | unsatisfied => exact ⟨_, _, rfl, hx.of_inPhase.inPhase _, fun _ ↦ rfl⟩

theorem phase_of_solve (hs : s.problem.Coherent) (h : s.solve = .ok (v, s')) :
    s'.problem.phase = .ofVerdict v := by
  by_cases he : s.problem.store.hasEmpty
  · rw [Search.solve, if_pos he] at h
    cases h
    rfl
  · have hs' : (s.inPhase .solving).problem.Coherent := coherent_inPhase hs _
    obtain ⟨ms, w, s₁, hx⟩ := exists_explores hs' (Nat.lt_succ_self _)
    cases h.symm.trans (hx.solve hs he)
    rfl

/-- With no request to end the search, the verdict tells whether some model of the formula has the
values of the valuation. -/
theorem solve_of_endless (hs : s.problem.Coherent) (hm : s.monitor.Endless) :
    ∃ v s', s.solve = .ok (v, s') ∧ s.Explored v s' ∧ v ≠ .unknown ∧
      (v = .satisfied ↔ s.problem.formula.SatisfiableUnder s.problem.valuation) := by
  obtain ⟨v, s', h, hx, -⟩ := solve_spec hs
  refine ⟨v, s', h, hx, (hx.endless hm).1, ?_⟩
  cases v with
  | satisfied =>
    refine iff_of_true rfl ⟨_, ?_, hx.holds_complete⟩
    exact hs.extended_of_before hx.coherent hx.keeps hx.before (Valuation.extended_complete _)
  | unsatisfied => exact iff_of_false nofun (hx.refuted rfl)
  | unknown => exact absurd rfl (hx.endless hm).1

end Search

end Dpll
