import Dpll.Proofs.CopyingSolver
import Dpll.Proofs.Interruption
import Dpll.Proofs.TrailSolver
import Dpll.Solver

namespace Dpll

/-- A response with a model of the formula, if it is positive. If it is negative and can be trusted,
there is no model. -/
structure Response.Truthful (n : Nat) (f : Formula) (trusted : Prop) (r : Response) : Prop where
  model : r.verdict = .satisfied → ∃ bs, r.assignment = some bs ∧ bs.length = n + 1 ∧
    bs[0]? = some false ∧ f.Holds (Model.ofList bs)
  refuted : r.verdict = .unsatisfied → trusted → ¬ f.Satisfiable

namespace Solver

variable {n : Nat} {f : Formula} {known : Prop} {s s' s₀ : Solver} {r : Response} {info : Loaded}

/-- What stays so of a solver after a formula is loaded. Not every model of the formula has the values
on the trail. If there are models some have them, as long as every search has come to a verdict. -/
def Ready (n : Nat) (f : Formula) (known : Prop) : Solver → Prop
  | copying s => s.literals = n ∧ (∀ c ∈ s.formula, c.Normal s.literals) ∧
      ∀ M, s.formula.Holds M ↔ f.Holds M
  | trail s => s.problem.Coherent ∧ s.problem.valuation.size = n + 1 ∧
      (∀ M, s.problem.formula.Holds M ↔ f.Holds M) ∧
      (known → f.Satisfiable → f.SatisfiableUnder s.problem.valuation)

theorem Ready.oversee (h : s.Ready n f known) (change : Monitor → Monitor) :
    (s.oversee change).Ready n f known := by
  cases s with
  | copying s => exact h
  | trail s => exact h

theorem kind_oversee (s : Solver) (change : Monitor → Monitor) :
    (s.oversee change).kind = s.kind := by
  cases s <;> rfl

theorem kind_trail_ne (s : TrailSolver) : (trail s).kind ≠ .simple := by
  change (if s.config.cachesSatisfaction then SolverKind.cached else .noCopy) ≠ .simple
  split <;> decide

theorem ready_of_load {σ : Type} [Storage] [ClauseSource σ] {source : σ}
    (h : s₀.load source = .ok (info, s)) :
    s.Ready info.header.literals (ClauseSource.clauses source) True := by
  cases s₀ with
  | copying s₀ =>
    obtain ⟨_, hl, he⟩ := exists_of_map_eq_ok h
    cases he
    exact CopyingSolver.formula_of_source hl
  | trail s₀ =>
    obtain ⟨_, hl, he⟩ := exists_of_map_eq_ok h
    cases he
    obtain ⟨hc, hv, hM⟩ := TrailSolver.problem_of_source hl
    refine ⟨hc, by rw [hv, Valuation.size_blank], hM, ?_⟩
    rintro - ⟨M, hf⟩
    exact ⟨M, hv ▸ Valuation.extended_blank _ M, hf⟩

theorem load_trail {σ : Type} [Storage] [ClauseSource σ] {source : σ} {t t₀ : TrailSolver}
    (h : t₀.load source = .ok (info, t)) : (trail t₀).load source = .ok (info, trail t) := by
  rw [load, h]
  rfl

section Chosen

variable [Chooser Pcg]

theorem solve_trail {t : TrailSolver} {v : Verdict} {s' : Search Pcg}
    (h : Search.solve ⟨t.problem, t.monitor.start⟩ = .ok (v, s')) :
    (trail t).solve = .ok (⟨v, if v = .satisfied then some s'.problem.assignment else none⟩,
      trail { t with problem := s'.problem, monitor := s'.monitor }) := by
  rw [Solver.solve, TrailSolver.solve, h]
  rfl

def SolvesTruly (n : Nat) (f : Formula) (known : Prop) (s : Solver) : Prop :=
  ∃ r s', s.solve = .ok (r, s') ∧ s'.kind = s.kind ∧
    r.Truthful n f (s.kind = .simple ∨ known) ∧ s'.Ready n f (known ∧ r.verdict ≠ .unknown)

theorem solvesTruly_copying {s : CopyingSolver} (h : (copying s).Ready n f known) :
    (copying s).SolvesTruly n f known := by
  obtain ⟨rfl, hn, hM⟩ := h
  obtain ⟨o, m, hs, hr, -⟩ := CopyingSolver.exists_solve hn
  refine ⟨_, copying { s with monitor := m }, by rw [Solver.solve, hs]; rfl, rfl, ⟨?_, ?_⟩,
    rfl, hn, hM⟩
  · intro hv
    cases o with
    | satisfied w =>
      obtain ⟨bs, hbs, hlen, hzero, hf⟩ := CopyingSolver.model_of_right hr
      exact ⟨bs, hbs, hlen, hzero, (hM _).1 hf⟩
    | unsatisfied => cases hv
    | unknown => cases hv
  · intro hv _ hf
    cases o with
    | satisfied w => cases hv
    | unsatisfied => exact CopyingSolver.not_satisfiable_of_right hr (hf.imp fun M ↦ (hM M).2)
    | unknown => cases hv

theorem solvesTruly_trail {s : TrailSolver} (h : (trail s).Ready n f known) :
    (trail s).SolvesTruly n f known := by
  obtain ⟨hc, hsize, hM, hsat⟩ := h
  obtain ⟨v, s', hs, hx, -⟩ := Search.solve_spec (s := ⟨s.problem, s.monitor.start⟩) hc
  have hM' (M : Model) : s'.problem.formula.Holds M ↔ f.Holds M := hx.keeps.formula ▸ hM M
  have hrefuted : v = .unsatisfied → ¬ f.SatisfiableUnder s.problem.valuation := by
    rintro hv ⟨M, hext, hf⟩
    exact hx.refuted hv ⟨M, hext, (hM M).2 hf⟩
  refine ⟨_, _, solve_trail hs, rfl, ⟨?_, ?_⟩, hx.coherent, hx.keeps.size.trans hsize, hM', ?_⟩
  · intro hv
    have hv : v = .satisfied := hv
    subst hv
    exact ⟨_, rfl, (Valuation.length_complete _).trans (hx.keeps.size.trans hsize),
      Valuation.complete_zero hx.coherent.size_pos, (hM _).1 hx.holds_complete⟩
  · rintro hv (hk | hknown) hf
    · exact kind_trail_ne s hk
    · exact hrefuted hv (hsat hknown hf)
  · -- a search which comes to a verdict leaves the values of a model, or there was none
    rintro ⟨hknown, hv⟩ hf
    cases v with
    | satisfied => exact ⟨_, Valuation.extended_complete _, (hM _).1 hx.holds_complete⟩
    | unsatisfied => exact absurd (hsat hknown hf) (hrefuted rfl)
    | unknown => exact absurd rfl hv

theorem Ready.solvesTruly (h : s.Ready n f known) : s.SolvesTruly n f known := by
  cases s with
  | copying s => exact solvesTruly_copying h
  | trail s => exact solvesTruly_trail h

/-- The responses to solves, one after the other. Before each the monitor is changed, as by asking
other answers of whether to end. -/
def solveAll : List (Monitor → Monitor) → Solver → Except Fault (List Response × Solver)
  | [], s => .ok ([], s)
  | change :: changes, s =>
    match (s.oversee change).solve with
    | .error fault => .error fault
    | .ok (r, s) =>
      match solveAll changes s with
      | .error fault => .error fault
      | .ok (rs, s) => .ok (r :: rs, s)

theorem Ready.solveAll (h : s.Ready n f known) (changes : List (Monitor → Monitor)) :
    ∃ rs s', solveAll changes s = .ok (rs, s') ∧ rs.length = changes.length ∧
      ∀ before r after, rs = before ++ r :: after →
        r.Truthful n f (s.kind = .simple ∨ known ∧ ∀ r' ∈ before, r'.verdict ≠ .unknown) := by
  induction changes generalizing s known with
  | nil =>
    refine ⟨[], s, rfl, rfl, ?_⟩
    intro before r after he
    cases before <;> cases he
  | cons change changes ih =>
    obtain ⟨r₁, s₁, hs, hk, hr, hready⟩ := (h.oversee change).solvesTruly
    obtain ⟨rs, s', hrs, hlen, ht⟩ := ih hready
    rw [kind_oversee] at hk hr
    refine ⟨r₁ :: rs, s', by simp [Solver.solveAll, hs, hrs], by simp [hlen], ?_⟩
    intro before r after he
    cases before with
    | nil =>
      cases he
      exact ⟨hr.model, fun hv htr ↦ hr.refuted hv (htr.imp_right And.left)⟩
    | cons r₀ before =>
      cases he
      have ht := ht before r after rfl
      refine ⟨ht.model, fun hv htr ↦ ht.refuted hv (htr.imp hk.trans ?_)⟩
      rintro ⟨hknown, hb⟩
      obtain ⟨h₁, hb⟩ := List.forall_mem_cons.1 hb
      exact ⟨⟨hknown, h₁⟩, hb⟩

/-- Solves after a formula is loaded all come to an end. A model given is one of the formula. That
there is none is true of the formula as long as no search before was ended, and always if the solver
copies the formula. -/
theorem solveAll_truthful {σ : Type} [Storage] [ClauseSource σ] {source : σ}
    (h : s₀.load source = .ok (info, s)) (changes : List (Monitor → Monitor)) :
    ∃ rs s', s.solveAll changes = .ok (rs, s') ∧ rs.length = changes.length ∧
      ∀ before r after, rs = before ++ r :: after →
        r.Truthful info.header.literals (ClauseSource.clauses source)
          (s.kind = .simple ∨ ∀ r' ∈ before, r'.verdict ≠ .unknown) := by
  obtain ⟨rs, s', hrs, hlen, ht⟩ := (ready_of_load h).solveAll changes
  refine ⟨rs, s', hrs, hlen, fun before r after he ↦ ?_⟩
  have ht := ht before r after he
  exact ⟨ht.model, fun hv htr ↦ ht.refuted hv (htr.imp_right fun hb ↦ ⟨trivial, hb⟩)⟩

end Chosen

theorem solveAll_truthful_two :
    ∃ info s r₁ r₂ s', (ofConfig {} fun _ ↦ 0).load (⟨2, [[1, 2], [-1, 2]]⟩ : ClauseList) =
        .ok (info, s) ∧
      s.solveAll [(·.terminateBy fun _ ↦ true), id] = .ok ([r₁, r₂], s') ∧
      r₁.verdict ≠ .unsatisfied := by
  obtain ⟨info, s, h⟩ := TrailSolver.exists_load 2 [[1, 2], [-1, 2]] (.ofConfig {} fun _ ↦ 0)
    (by decide) (by decide)
  have hl : (ofConfig {} fun _ ↦ 0).load (⟨2, [[1, 2], [-1, 2]]⟩ : ClauseList) =
      .ok (info, trail s) := load_trail h
  obtain ⟨rs, s', hrs, hlen, ht⟩ := solveAll_truthful hl [(·.terminateBy fun _ ↦ true), id]
  obtain ⟨r₁, r₂, rfl⟩ := List.length_eq_two.1 hlen
  refine ⟨info, trail s, r₁, r₂, s', hl, hrs, ?_⟩
  intro hu
  refine (ht [] r₁ [r₂] rfl).refuted hu (.inr nofun) ?_
  rw [ClauseList.clauses_eq]
  exact ⟨fun _ ↦ true, by decide⟩

/-- A search is ended while it refutes its first decision, which no model has. The next solve does not
undo that decision, and finds that there is no model with it. -/
theorem interrupted_solve_refutes :
    ∃ info s rs s', (ofConfig { heuristic := ⟨"heuristic", .random, .first, .first⟩ } fun _ ↦ 0).load
        (⟨11, Formula.detour 8⟩ : ClauseList) = .ok (info, s) ∧
      s.solveAll [(·.terminateBy fun _ ↦ true), (·.terminateBy fun _ ↦ false)] = .ok (rs, s') ∧
      rs.map (·.verdict) = [.unknown, .unsatisfied] ∧ (Formula.detour 8).Satisfiable := by
  let config : Config := { heuristic := ⟨"heuristic", .random, .first, .first⟩ }
  obtain ⟨info, s, h⟩ := TrailSolver.exists_load 11 (Formula.detour 8)
    (.ofConfig config fun _ ↦ 0) (by decide) (by decide)
  have hloaded : ((TrailSolver.ofConfig config fun _ ↦ 0).load
      (⟨11, Formula.detour 8⟩ : ClauseList)).toOption.map (fun r ↦
        (r.2.problem.formula, r.2.problem.config.heuristic.value)) =
      some (Formula.detour 8, .first) := by
    decide +kernel
  rw [h] at hloaded
  obtain ⟨hformula, hfirst⟩ : s.problem.formula = Formula.detour 8 ∧
      s.problem.config.heuristic.value = .first := Prod.mk.inj (Option.some.inj hloaded)
  obtain ⟨hc, hv, -, hmonitor⟩ := TrailSolver.problem_of_load h
  obtain ⟨s₁, hs₁, hlimit, hnext⟩ := Search.solve_detour
    (s := ⟨s.problem, (s.monitor.terminateBy fun _ ↦ true).start⟩) hc hfirst hformula hv
    ⟨fun _ ↦ true, rfl, fun _ ↦ rfl⟩ rfl (by decide) (by decide)
  have hendless : (s₁.monitor.terminateBy fun _ ↦ false).start.Endless := by
    constructor
    · rw [Monitor.start, Monitor.terminateBy, hlimit, hmonitor]
      nofun
    · rintro _ ⟨⟩ _
      rfl
  obtain ⟨s₂, hs₂⟩ := hnext _ hendless
  let t₁ : TrailSolver := { s with problem := s₁.problem, monitor := s₁.monitor }
  let t₂ : TrailSolver := { s with problem := s₂.problem, monitor := s₂.monitor }
  have hsolve₁ : ((trail s).oversee (·.terminateBy fun _ ↦ true)).solve =
      .ok (⟨.unknown, none⟩, trail t₁) := solve_trail hs₁
  have hsolve₂ : ((trail t₁).oversee (·.terminateBy fun _ ↦ false)).solve =
      .ok (⟨.unsatisfied, none⟩, trail t₂) := solve_trail hs₂
  refine ⟨info, trail s, [⟨.unknown, none⟩, ⟨.unsatisfied, none⟩], trail t₂, load_trail h, ?_, rfl,
    Formula.satisfiable_detour 8⟩
  simp only [Solver.solveAll, hsolve₁, hsolve₂]

end Solver

end Dpll
