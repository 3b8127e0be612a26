import Dpll.Proofs.Reachable
import Dpll.Random.Choice

namespace Dpll

namespace Problem

variable {ρ : Type} {p : Problem ρ}

theorem verify_eq_ok_iff :
    p.verify = .ok () ↔ ∀ c ∈ p.formula, c.status p.valuation = .satisfied := by
  simp [verify]

end Problem

namespace Search

variable {ρ : Type} {s s' : Search ρ}

theorem Explored.verify (h : s.Explored .satisfied s') : s'.problem.verify = .ok () := by
  rw [Problem.verify_eq_ok_iff, h.keeps.formula]
  exact h.satisfied rfl

/-- From whatever state a problem has reached, a search which is not asked to end decides whether some
model of the formula has the values assigned until then. It takes nothing off the trail which was
there before, and leaves no decision of its own if it has refuted the formula. -/
theorem solve_decides_extension [Chooser ρ] (n : Nat) (config : Config) (source : ρ)
    (os : List Operation) {m : Monitor} (hm : m.Endless) :
    let p := ((Problem.empty n config source).performAll os).2
    ∃ v s', solve ⟨p, m⟩ = .ok (v, s') ∧
      (v = .satisfied ↔ p.formula.SatisfiableUnder p.valuation) ∧
      (v = .unsatisfied ↔ ¬ p.formula.SatisfiableUnder p.valuation) ∧
      (v = .satisfied →
        p.trail.literals.toList <+: s'.problem.trail.literals.toList ∧
        p.trail.levelStarts.toList <+: s'.problem.trail.levelStarts.toList ∧
        s'.problem.verify = .ok () ∧ s'.problem.phase = .satisfiable) ∧
      (v = .unsatisfied →
        p.trail.literals.toList <+: s'.problem.trail.literals.toList ∧
        s'.problem.trail.levelStarts = p.trail.levelStarts ∧
        s'.problem.phase = .unsatisfiable) ∧
      s'.problem.store.clauses = p.store.clauses ∧
      s'.problem.atoms.occurrences = p.atoms.occurrences := by
  intro p
  have hp : p.Coherent := Problem.coherent_performAll n config source os
  obtain ⟨v, s', hs, hx, hne, hsat⟩ := solve_of_endless (s := ⟨p, m⟩) hp hm
  obtain ⟨_, _, hs', -, hphase⟩ := solve_spec (s := ⟨p, m⟩) hp
  cases hs.symm.trans hs'
  have hphase := hphase hne
  refine ⟨v, s', hs, hsat, ?_, ?_, ?_, hx.keeps.clauses, hx.keeps.occurrences⟩
  · rw [← hsat]
    cases v with
    | satisfied => exact iff_of_false nofun (not_not.2 rfl)
    | unsatisfied => exact iff_of_true rfl nofun
    | unknown => exact absurd rfl hne
  · rintro rfl
    exact ⟨hx.before.literals, hx.before.levelStarts, hx.verify, hphase⟩
  · rintro rfl
    exact ⟨(hx.grows rfl).literals, (hx.grows rfl).levelStarts, hphase⟩

theorem solve_decides_extension_refuted :
    ∃ (p : Problem Script) (s' : Search Script) (m : Monitor),
      ((Problem.empty 4 {} (⟨[]⟩ : Script)).performAll
        [.add [1, 2], .add [-1, 2], .add [3, 4], .add [-3, -4], .assign 2 true true, .solve m,
          .rollback, .rollback, .rollback, .assign 2 false true]).2 = p ∧
      m.Endless ∧ solve ⟨p, m⟩ = .ok (.unsatisfied, s') ∧
      s'.problem.trail.levelStarts = p.trail.levelStarts ∧ p.trail.levelStarts = #[0] := by
  have hm : (Monitor.ofConfig {} fun _ ↦ 0).Endless := Monitor.endless_of_none rfl rfl
  obtain ⟨v, s', h⟩ := solve_decides_extension 4 {} (⟨[]⟩ : Script)
    [.add [1, 2], .add [-1, 2], .add [3, 4], .add [-3, -4], .assign 2 true true,
      .solve (Monitor.ofConfig {} fun _ ↦ 0), .rollback, .rollback, .rollback,
      .assign 2 false true] hm
  generalize hp : ((Problem.empty 4 {} (⟨[]⟩ : Script)).performAll _).2 = p at h
  obtain ⟨hs, -, hu, -, hlevels, -⟩ := h
  have hf : p.formula = [[1, 2], [-1, 2], [3, 4], [-3, -4]] ∧
      (p.valuation.contains 2 ∧ p.valuation.value 2 = some false) ∧ p.trail.levelStarts = #[0] := by
    rw [← hp]
    decide +kernel
  have hn : v = .unsatisfied := hu.2 (by
    rintro ⟨M, hM, hh⟩
    have h₂ : M 2 = false := hM 2 false hf.2.1.1 hf.2.1.2
    rw [hf.1] at hh
    simp [Clause.Holds, Literal.Holds, Literal.atom, Literal.positive, h₂] at hh
    exact Bool.false_ne_true (hh.2.1.symm.trans hh.1))
  subst hn
  exact ⟨p, s', _, hp, hm, hs, (hlevels rfl).2.1, hf.2.2⟩

end Search

end Dpll
