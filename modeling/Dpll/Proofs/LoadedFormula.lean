import Dpll.Proofs.CopyingSolver
import Dpll.Proofs.Preprocessing
import Dpll.Proofs.TrailSolver
import Dpll.Solver

namespace Dpll.Solver

variable {σ : Type} [ClauseSource σ] {source : σ} {info : Loaded} {f : Formula}

def holding (n : Nat) (f : Formula) : Solver → Solver
  | copying s => copying { s with literals := n, formula := f }
  | trail s => trail { s with problem := (Problem.seeded n s.config).storeAll f }

theorem literalCount_holding (n : Nat) (f : Formula) (s : Solver) :
    (s.holding n f).literalCount = n := by
  cases s with
  | copying s => rfl
  | trail s =>
    refine Eq.trans ?_ (Problem.atomCount_seeded n s.config)
    exact congrArg Valuation.atomCount (Problem.valuation_storeAll _ _)

theorem formula_holding (n : Nat) (f : Formula) (s : Solver) : (s.holding n f).formula = f := by
  cases s with
  | copying s => rfl
  | trail s => exact (Problem.formula_storeAll _ _).trans (List.nil_append f)

theorem clauseCount_eq (s : Solver) : s.clauseCount = s.formula.length := by
  cases s <;> rfl

theorem load_eq [Storage] (s : Solver) (source : σ) :
    s.load source = (ClauseSource.reading s.config.sortClauses.value source).map
      fun (info, f) ↦ (info, s.holding info.header.literals f) := by
  cases s with
  | copying s =>
    rw [load, CopyingSolver.load_eq, config]
    cases ClauseSource.reading s.config.sortClauses.value source <;> rfl
  | trail s =>
    rw [load, TrailSolver.load_eq, config]
    cases ClauseSource.reading s.config.sortClauses.value source <;> rfl

/-- The solver has the clauses of a source, which ended without a fault: all of them in order, and
normalized, but for those that every valuation makes true. -/
structure Took (sort : Bool) (source : σ) (info : Loaded) (s : Solver) : Prop where
  header : (ClauseSource.header source).1 = .ok info.header
  ended : (ClauseSource.rest (ClauseSource.header source).2).2.1 = none
  literals : s.literalCount = info.header.literals
  formula : s.formula = Formula.normals sort (ClauseSource.clauses source)
  normalized : Formula.Normalizes sort (ClauseSource.clauses source) s.formula
  read : info.read = (ClauseSource.clauses source).length
  split : info.read = info.tautologies + s.clauseCount

theorem took_of_reading [Storage] {sort : Bool} (s : Solver)
    (h : ClauseSource.reading sort source = .ok (info, f)) :
    (s.holding info.header.literals f).Took sort source info := by
  obtain ⟨hheader, hended, hcs, hread, ht, rfl⟩ := ClauseSource.reading_eq_ok h
  refine ⟨hheader, hended, literalCount_holding _ _ s, formula_holding _ _ s, ?_, hread, ?_⟩
  · rw [formula_holding]
    exact Formula.normalizes_normals hcs
  · rw [clauseCount_eq, formula_holding, hread, ht, Formula.tautologies_add_length]

/-- Solvers which sort clauses alike take the same formula from a source, or meet the same fault. -/
theorem load_agrees [Storage] (s t : Solver) (source : σ)
    (h : s.config.sortClauses.value = t.config.sortClauses.value) :
    (∃ fault, s.load source = .error fault ∧ t.load source = .error fault) ∨
      ∃ info s' t', s.load source = .ok (info, s') ∧ t.load source = .ok (info, t') ∧
        s'.Took s.config.sortClauses.value source info ∧
        t'.Took s.config.sortClauses.value source info := by
  rw [load_eq, load_eq, ← h]
  cases hr : ClauseSource.reading s.config.sortClauses.value source with
  | error fault => exact .inl ⟨fault, rfl, rfl⟩
  | ok r =>
    obtain ⟨info, f⟩ := r
    exact .inr ⟨info, _, _, rfl, rfl, took_of_reading s hr, took_of_reading t hr⟩

theorem load_agrees_three :
    ∃ info s t,
      (copying (.ofConfig {} fun _ ↦ 0)).load
        (⟨3, [[1, -2, -1], [3, 2, 3], [], [-3, 1]]⟩ : ClauseList) = .ok (info, s) ∧
      (trail (.ofConfig {} fun _ ↦ 0)).load
        (⟨3, [[1, -2, -1], [3, 2, 3], [], [-3, 1]]⟩ : ClauseList) = .ok (info, t) ∧
      s.formula = [[2, 3], [], [1, -3]] ∧ t.formula = s.formula ∧ info.read = 4 ∧
      info.read = info.tautologies + s.clauseCount := by
  obtain ⟨fault, hs, -⟩ | ⟨info, s, t, hs, ht, hs', ht'⟩ :=
    load_agrees (copying (.ofConfig {} fun _ ↦ 0)) (trail (.ofConfig {} fun _ ↦ 0))
      (⟨3, [[1, -2, -1], [3, 2, 3], [], [-3, 1]]⟩ : ClauseList) rfl
  · rw [load_eq, ClauseList.reading_eq _ (by decide) (by decide)] at hs
    cases hs
  · refine ⟨info, s, t, hs, ht, ?_, ht'.normalized.eq hs'.normalized, ?_, hs'.split⟩
    · rw [hs'.formula, ClauseList.clauses_eq]
      decide +kernel
    · rw [hs'.read, ClauseList.clauses_eq]
      rfl

end Dpll.Solver
