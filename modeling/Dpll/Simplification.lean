import Dpll.Problem.Query

namespace Dpll.Problem

variable {ρ : Type}

set_option linter.unusedVariables false in
/-- Makes the literal of a unit clause true, until no clause is unit.
Gives how many literals were made true. -/
def propagate (p : Problem ρ) : Except ProblemFault (Nat × Problem ρ) :=
  match h : p.unitLiteral with
  | (none, p₁) => .ok (0, p₁)
  | (some l, p₁) =>
    match ha : p₁.assert l false with
    | .error fault => .error fault
    | .ok p₂ =>
      match p₂.propagate with
      | .error fault => .error fault
      | .ok (n, p₃) => .ok (n + 1, p₃)
termination_by p.unvalued
decreasing_by
  have h₁ : p₁.unvalued = p.unvalued := congrArg (·.2.unvalued) h.symm
  have h₂ := unvalued_assign ha
  omega

set_option linter.unusedVariables false in
def assertPure (p : Problem ρ) : Except ProblemFault (Nat × Problem ρ) :=
  match h : p.pureLiterals with
  | ([], p₁) => .ok (0, p₁)
  | (l :: ls, p₁) =>
    match ha : p₁.assertAll (l :: ls) with
    | .error fault => .error fault
    | .ok p₂ =>
      match p₂.assertPure with
      | .error fault => .error fault
      | .ok (n, p₃) => .ok (n + (l :: ls).length, p₃)
termination_by p.unvalued
decreasing_by
  have h₁ : p₁.unvalued = p.unvalued := congrArg (·.2.unvalued) h.symm
  have h₂ := unvalued_assertAll ha
  simp only [List.length_cons] at h₂
  omega

theorem assertPure_eq (p : Problem ρ) :
    p.assertPure =
      if p.pureLiterals.1 = [] then .ok (0, p.pureLiterals.2)
      else
        match p.pureLiterals.2.assertAll p.pureLiterals.1 with
        | .error fault => .error fault
        | .ok q => q.assertPure.map fun (n, r) ↦ (n + p.pureLiterals.1.length, r) := by
  rw [assertPure]
  split
  next p₁ h => rw [h, if_pos rfl]
  next l ls p₁ h =>
    rw [h, if_neg (List.cons_ne_nil l ls)]
    split
    next ha => rw [ha]
    next q ha =>
      rw [ha]
      dsimp only
      cases q.assertPure <;> rfl

theorem unvalued_propagate {p q : Problem ρ} {n : Nat} (h : p.propagate = .ok (n, q)) :
    q.unvalued + n = p.unvalued := by
  induction hu : p.unvalued using Nat.strongRecOn generalizing p q n with
  | _ u ih =>
    unfold propagate at h
    split at h
    next p₁ hq =>
      cases h
      exact (congrArg (·.2.unvalued) hq.symm).trans hu
    next l p₁ hq =>
      have h₁ : p₁.unvalued = p.unvalued := congrArg (·.2.unvalued) hq.symm
      split at h
      next => cases h
      next p₂ ha =>
        have h₂ := unvalued_assign ha
        split at h
        next => cases h
        next k p₃ hr =>
          cases h
          have := ih p₂.unvalued (by omega) hr rfl
          omega

theorem unvalued_assertPure {p q : Problem ρ} {n : Nat} (h : p.assertPure = .ok (n, q)) :
    q.unvalued + n = p.unvalued := by
  induction hu : p.unvalued using Nat.strongRecOn generalizing p q n with
  | _ u ih =>
    unfold assertPure at h
    split at h
    next p₁ hq =>
      cases h
      exact (congrArg (·.2.unvalued) hq.symm).trans hu
    next l ls p₁ hq =>
      have h₁ : p₁.unvalued = p.unvalued := congrArg (·.2.unvalued) hq.symm
      split at h
      next => cases h
      next p₂ ha =>
        have h₂ := unvalued_assertAll ha
        simp only [List.length_cons] at h₂
        split at h
        next => cases h
        next k p₃ hr =>
          cases h
          have := ih p₂.unvalued (by omega) hr rfl
          simp only [List.length_cons]
          omega

set_option linter.unusedVariables false in
def simplify (p : Problem ρ) : Except ProblemFault (Problem ρ) :=
  match hp : p.propagate with
  | .error fault => .error fault
  | .ok (n, p₁) =>
    match hq : p₁.assertPure with
    | .error fault => .error fault
    | .ok (k, p₂) => if n = 0 ∧ k = 0 then .ok p₂ else p₂.simplify
termination_by p.unvalued
decreasing_by
  have h₁ := unvalued_propagate hp
  have h₂ := unvalued_assertPure hq
  omega

end Dpll.Problem
