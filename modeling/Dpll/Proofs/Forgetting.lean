import Dpll.Proofs.Recasting

namespace Dpll

def Config.uncached (c : Config) : Config :=
  { c with solver.value := .noCopy, satisfactionCache.value := false }

def Recast.uncached : Recast where
  config := .uncached
  clause := id
  heuristic_config _ := rfl
  search_config _ := rfl
  perm_clause c := .refl c

namespace Problem

variable {ρ : Type} {p : Problem ρ}

def forget (p : Problem ρ) : Problem ρ :=
  { p with config := p.config.uncached, store.cache := none }

theorem forget_eq : forget (ρ := ρ) = recast .uncached := by
  funext p
  simp [forget, recast, Recast.uncached]

@[simp] theorem phase_forget (p : Problem ρ) : p.forget.phase = p.phase := rfl

@[simp] theorem atomCount_forget (p : Problem ρ) : p.forget.atomCount = p.atomCount := rfl

@[simp] theorem sortClauses_forget (p : Problem ρ) :
    p.forget.config.sortClauses = p.config.sortClauses := rfl

theorem add_forget (p : Problem ρ) (c : Clause) :
    p.forget.add c = (p.add c).map (Prod.map id forget) := by
  simp only [add, phase_forget, atomCount_forget, sortClauses_forget]
  by_cases hp : p.phase = .input
  · simp only [hp, ne_eq, not_true_eq_false, if_false]
    cases c.fault? p.atomCount with
    | some fault => rfl
    | none => cases c.normalize p.config.sortClauses.value <;> rfl
  · simp only [ne_eq, hp, not_false_eq_true, if_true]
    rfl

theorem storeAll_forget (p : Problem ρ) (f : Formula) :
    p.forget.storeAll f = (p.storeAll f).forget := by
  induction f generalizing p with
  | nil => rfl
  | cons c f ih => exact ih (p.storeNormal c)

variable [Chooser ρ]

theorem perform_forget (h : p.Coherent) (o : Operation) :
    p.forget.perform o = Prod.map id forget (p.perform o) := by
  by_cases ho : ∃ c, o = .add c
  · obtain ⟨c, rfl⟩ := ho
    exact settle_map (add_forget p c) fun _ ↦ rfl
  · rw [forget_eq]
    exact perform_recast h (not_exists.1 ho)

theorem performAll_forget (h : p.Coherent) (os : List Operation) :
    p.forget.performAll os = Prod.map id forget (p.performAll os) := by
  induction os generalizing p with
  | nil => rfl
  | cons o os ih =>
    rw [performAll_cons, performAll_cons, perform_forget h]
    dsimp only [Prod.map]
    rw [ih (h.perform o)]
    rfl

end Problem

namespace TrailSolver

def forget (s : TrailSolver) : TrailSolver := ⟨s.config.uncached, s.problem.forget, s.monitor⟩

theorem forget_eq : forget = recast .uncached := by
  funext s
  rw [forget, Problem.forget_eq]
  rfl

theorem load_forget {σ : Type} [Storage] [ClauseSource σ] (s : TrailSolver) (source : σ) :
    s.forget.load source = (s.load source).map (Prod.map id forget) := by
  have hs : s.forget.config.sortClauses = s.config.sortClauses := rfl
  rw [load_eq, load_eq, hs]
  cases ClauseSource.reading s.config.sortClauses.value source with
  | error fault => rfl
  | ok r =>
    obtain ⟨info, f⟩ := r
    have hf := Problem.storeAll_forget (.seeded info.header.literals s.config) f
    simp only [Except.map, Prod.map, forget, ← hf]
    rfl

theorem solve_forget [Chooser Pcg] {s : TrailSolver} (h : s.problem.Coherent) :
    s.forget.solve = s.solve.map (Prod.map id forget) := by
  rw [forget_eq]
  exact solve_recast h

def answerTo {σ : Type} [Storage] [Chooser Pcg] [ClauseSource σ] (s : TrailSolver) (source : σ) :
    Except Fault (Loaded × Response × Monitor) :=
  match s.load source with
  | .error fault => .error fault
  | .ok (info, s) =>
    match s.solve with
    | .error fault => .error fault
    | .ok (response, s) => .ok (info, response, s.monitor)

theorem answerTo_forget {σ : Type} [Storage] [Chooser Pcg] [ClauseSource σ] (s : TrailSolver)
    (source : σ) :
    s.forget.answerTo source = s.answerTo source := by
  unfold answerTo
  rw [load_forget]
  cases hl : s.load source with
  | error fault => rfl
  | ok r =>
    obtain ⟨info, s'⟩ := r
    simp only [Except.map, Prod.map, solve_forget (coherent_of_load hl)]
    cases s'.solve <;> rfl

end TrailSolver

/-- Whether satisfied clauses are cached shows in no answer to any operations, and in nothing that
they leave but the cache. Nor does it show in how a solver answers to a formula. -/
theorem caching_unobservable [Storage] [Chooser Pcg] (n : Nat) (config : Config) (kind : SolverKind)
    (caching : Bool) :
    let config' : Config :=
      { config with solver.value := kind, satisfactionCache.value := caching }
    (∀ (ρ : Type) [Chooser ρ] (source : ρ) (os : List Operation),
      let p := (Problem.empty n config source).performAll os
      let q := (Problem.empty n config' source).performAll os
      p.1 = q.1 ∧ p.2.trail = q.2.trail ∧ p.2.valuation = q.2.valuation ∧
        p.2.phase = q.2.phase ∧ p.2.source = q.2.source ∧ p.2.formula = q.2.formula ∧
        p.2.atoms.occurrences = q.2.atoms.occurrences) ∧
    (∀ (σ : Type) [ClauseSource σ] (source : σ) (p q : Problem Pcg) (m : Monitor),
      TrailSolver.answerTo ⟨config, p, m⟩ source =
        TrailSolver.answerTo ⟨config', q, m⟩ source) := by
  intro config'
  constructor
  · intro ρ _ source os p q
    have hp := Problem.performAll_forget (Problem.coherent_empty n config source) os
    have hq := Problem.performAll_forget (Problem.coherent_empty n config' source) os
    have he : (Problem.empty n config' source).forget = (Problem.empty n config source).forget :=
      rfl
    rw [he, hp] at hq
    have h : p.2.forget = q.2.forget := (congrArg Prod.snd hq :)
    exact ⟨(congrArg Prod.fst hq :), (congrArg Problem.trail h :), (congrArg Problem.valuation h :),
      (congrArg Problem.phase h :), (congrArg Problem.source h :), (congrArg Problem.formula h :),
      (congrArg (·.atoms.occurrences) h :)⟩
  · intro σ _ source p q m
    calc TrailSolver.answerTo ⟨config, p, m⟩ source
        = (TrailSolver.mk config p m).forget.answerTo source := (TrailSolver.answerTo_forget _ _).symm
      _ = (TrailSolver.mk config' q m).forget.answerTo source := rfl
      _ = TrailSolver.answerTo ⟨config', q, m⟩ source := TrailSolver.answerTo_forget _ _

end Dpll
