import Dpll.Formula.Room
import Dpll.Proofs.Loading
import Dpll.Proofs.Solve
import Dpll.Random.Choice
import Dpll.Solver.Trail

namespace Dpll.TrailSolver

variable {p q : Problem Pcg} {s₀ s : TrailSolver} {n t t' : Nat} {cs : List Clause} {info : Loaded}
  {M : Model}

theorem addAll_eq (hp : p.phase = .input) (t : Nat) (cs : List Clause) :
    addAll p t cs =
      match cs.findSome? (Clause.fault? p.atomCount) with
      | some fault => .error (.clause fault)
      | none =>
        .ok (p.storeAll (Formula.normals p.config.sortClauses.value cs),
          t + Formula.tautologies p.config.sortClauses.value cs) := by
  induction cs generalizing p t with
  | nil => rfl
  | cons c cs ih =>
    unfold addAll
    rw [Problem.add_of_input c hp, List.findSome?_cons, Formula.normals_cons,
      Formula.tautologies_cons]
    cases hf : c.fault? p.atomCount with
    | some fault => rfl
    | none =>
      cases hc : c.normal? p.config.sortClauses.value with
      | none =>
        simp only [ih hp]
        split
        · rfl
        · simp; omega
      | some d =>
        have hn : (p.storeNormal d).atomCount = p.atomCount :=
          congrArg Valuation.atomCount (Problem.valuation_storeNormal p d)
        have hd : (p.storeNormal d).phase = .input := hp
        have hs : (p.storeNormal d).config = p.config := rfl
        simp only [ih hd, hn, hs]
        split
        · rfl
        · simp [Problem.storeAll]

theorem load_eq {σ : Type} [Storage] [ClauseSource σ] (s : TrailSolver) (source : σ) :
    s.load source = (ClauseSource.reading s.config.sortClauses.value source).map
      fun (info, f) ↦
        (info, { s with problem := (Problem.seeded info.header.literals s.config).storeAll f }) := by
  unfold load ClauseSource.reading
  cases ClauseSource.header source with
  | mk header rest =>
  cases header with
  | error fault => rfl
  | ok header =>
    dsimp only
    cases Formula.storageFault? header.clauses with
    | some fault => rfl
    | none =>
      dsimp only
      rw [addAll_eq (Problem.phase_seeded _ _), Problem.atomCount_seeded, Problem.config_seeded]
      cases (ClauseSource.rest rest).1.findSome? (Clause.fault? header.literals) with
      | some fault => rfl
      | none => cases (ClauseSource.rest rest).2.1 <;> simp [Except.map]

theorem load_eq_ok {σ : Type} [Storage] [ClauseSource σ] {source : σ}
    (h : s₀.load source = .ok (info, s)) :
    ∃ f, ClauseSource.reading s₀.config.sortClauses.value source = .ok (info, f) ∧
      s = { s₀ with problem := (Problem.seeded info.header.literals s₀.config).storeAll f } := by
  rw [load_eq] at h
  obtain ⟨⟨_, f⟩, hr, he⟩ := exists_of_map_eq_ok h
  cases he
  exact ⟨f, hr, rfl⟩

theorem problem_of_source {σ : Type} [Storage] [ClauseSource σ] {source : σ}
    (h : s₀.load source = .ok (info, s)) :
    s.problem.Coherent ∧ s.problem.valuation = .blank info.header.literals ∧
      ∀ M, s.problem.formula.Holds M ↔
        Formula.Holds M (ClauseSource.clauses source) := by
  obtain ⟨f, hr, rfl⟩ := load_eq_ok h
  obtain ⟨-, -, hcs, -, -, rfl⟩ := ClauseSource.reading_eq_ok hr
  refine ⟨?_, Problem.valuation_storeAll _ _, fun M ↦ ?_⟩
  · apply Problem.Coherent.storeAll (Problem.coherent_empty _ s₀.config _)
    intro c hc
    exact (Problem.atomCount_seeded _ s₀.config).symm ▸ Formula.normal_of_mem_normals hcs hc
  · rw [Problem.formula_storeAll]
    exact Formula.holds_normals hcs

theorem coherent_of_load {σ : Type} [Storage] [ClauseSource σ] {source : σ}
    (h : s₀.load source = .ok (info, s)) : s.problem.Coherent :=
  (problem_of_source h).1

theorem exists_load [Storage] (n : Nat) (cs : List Clause) (s₀ : TrailSolver)
    (hcs : ∀ c ∈ cs, c.fault? n = none) (hroom : Formula.storageFault? cs.length = none) :
    ∃ info s, s₀.load (⟨n, cs⟩ : ClauseList) = .ok (info, s) := by
  rw [load_eq, ClauseList.reading_eq _ hcs hroom]
  exact ⟨_, _, rfl⟩

theorem problem_of_load [Storage] (h : s₀.load (⟨n, cs⟩ : ClauseList) = .ok (info, s)) :
    s.problem.Coherent ∧ s.problem.valuation = .blank n ∧
      (∀ M, s.problem.formula.Holds M ↔ Formula.Holds M cs) ∧ s.monitor = s₀.monitor := by
  obtain ⟨hc, hv, hM⟩ := problem_of_source h
  obtain ⟨f, hr, hs⟩ := load_eq_ok h
  have hn : ⟨n, cs.length⟩ = info.header := Except.ok.inj (ClauseSource.reading_eq_ok hr).1
  rw [← hn] at hv
  rw [ClauseList.clauses_eq] at hM
  exact ⟨hc, hv, hM, by rw [hs]⟩

/-- The first solve after a formula is loaded decides it, with every atom false which the search left
without a value. -/
theorem decides_of_load [Storage] [Chooser Pcg]
    (h : s₀.load (⟨n, cs⟩ : ClauseList) = .ok (info, s))
    (hl : s₀.monitor.timeLimit = none) (ht : s₀.monitor.terminate = none) :
    ∃ r s', s.solve = .ok (r, s') ∧ r.Decides n cs ∧
      ∀ bs, r.assignment = some bs → ∀ a, 1 ≤ a → a ≤ n →
        s'.problem.valuation.value a = none → bs[a]? = some false := by
  obtain ⟨hc, hv, hM, hm⟩ := problem_of_load h
  have hendless : s.monitor.start.Endless := by
    rw [hm]
    exact (Monitor.endless_of_none hl ht).start
  obtain ⟨v, s', hs, hx, hne, hsat⟩ := Search.solve_of_endless (s := ⟨s.problem, s.monitor.start⟩)
    hc hendless
  have hsize : s'.problem.valuation.size = n + 1 := by
    rw [hx.keeps.size, hv, Valuation.size_blank]
  have hiff : v = .satisfied ↔ Formula.Satisfiable cs := by
    refine hsat.trans (exists_congr ?_)
    intro M
    rw [hM, hv]
    exact and_iff_right (Valuation.extended_blank n M)
  refine ⟨_, { s with problem := s'.problem, monitor := s'.monitor }, by rw [solve, hs],
    ⟨hne, hiff, ?_, ?_⟩, ?_⟩
  · intro hu
    have hu : v = .unsatisfied := hu
    simp [hu]
  · intro hsv
    have hsv : v = .satisfied := hsv
    subst hsv
    refine ⟨_, rfl, ?_, ?_, (hM _).1 hx.holds_complete⟩
    · exact (Valuation.length_complete _).trans hsize
    · exact Valuation.complete_zero hx.coherent.size_pos
  · intro bs hbs a h₁ ha hn
    have hcon : s'.problem.valuation.contains a := by
      refine Valuation.contains_iff.2 ⟨Nat.ne_of_gt h₁, ?_⟩
      rw [hsize]
      exact Nat.lt_succ_of_le ha
    dsimp only at hbs
    split at hbs
    next =>
      cases hbs
      rw [Problem.assignment, Valuation.complete_getElem? hcon, hn]
      rfl
    next => cases hbs

theorem decides_of_load_three :
    ∃ info s r s', (ofConfig {} fun _ ↦ 0).load (⟨3, [[1, -1], [-1, 2, 2], [1, 2], [-2, 3]]⟩ :
      ClauseList) = .ok (info, s) ∧ s.solve = .ok (r, s') ∧ r.verdict = .satisfied := by
  obtain ⟨info, s, h⟩ := exists_load 3 [[1, -1], [-1, 2, 2], [1, 2], [-2, 3]]
    (ofConfig {} fun _ ↦ 0) (by decide) (by decide)
  obtain ⟨r, s', hs, hd, -⟩ := decides_of_load h rfl rfl
  exact ⟨info, s, r, s', h, hs, hd.satisfied_iff.2 ⟨fun _ ↦ true, by decide⟩⟩

end Dpll.TrailSolver
