import Dpll.Simplification

namespace Dpll.Problem

variable {ρ : Type}

def pureLiteralsInto (p : Problem ρ) (buffer : Array Literal) : Problem ρ × Array Literal :=
  let (ls, p) := p.pureLiterals
  (p, buffer.shrink 0 ++ ls)

theorem pureLiteralsInto_eq (p : Problem ρ) (buffer : Array Literal) :
    p.pureLiteralsInto buffer = (p.pureLiterals.2, p.pureLiterals.1.toArray) := by
  simp [pureLiteralsInto]

set_option linter.unusedVariables false in
/-- `assertPure`, with the literals of each scan put in a buffer and then taken out of it. -/
def assertPureInto (p : Problem ρ) (buffer : Array Literal) :
    Except ProblemFault (Nat × Problem ρ) × Array Literal :=
  match h : p.pureLiteralsInto buffer with
  | (p₁, found) =>
    if hf : found.isEmpty then (.ok (0, p₁), found)
    else
      match ha : p₁.assertAll found.toList with
      | .error fault => (.error fault, found.shrink 0)
      | .ok p₂ =>
        match p₂.assertPureInto (found.shrink 0) with
        | (.error fault, buffer) => (.error fault, buffer)
        | (.ok (n, p₃), buffer) => (.ok (n + found.size, p₃), buffer)
termination_by p.unvalued
decreasing_by
  have h₁ : p₁.unvalued = p.unvalued := congrArg (·.1.unvalued) h.symm
  have h₂ := unvalued_assertAll ha
  rw [Array.length_toList] at h₂
  have h₃ : found.size ≠ 0 := by simpa [Array.isEmpty] using hf
  omega

theorem assertPureInto_of_nil {p : Problem ρ} (buffer : Array Literal)
    (h : p.pureLiterals.1 = []) : p.assertPureInto buffer = (.ok (0, p.pureLiterals.2), #[]) := by
  rw [assertPureInto]
  split
  next hp =>
    rw [pureLiteralsInto_eq, h] at hp
    cases hp
    rfl

theorem assertPureInto_of_ne_nil {p : Problem ρ} (buffer : Array Literal)
    (h : p.pureLiterals.1 ≠ []) :
    p.assertPureInto buffer =
      match p.pureLiterals.2.assertAll p.pureLiterals.1 with
      | .error fault => (.error fault, #[])
      | .ok q =>
        ((q.assertPureInto #[]).1.map fun (n, r) ↦ (n + p.pureLiterals.1.length, r),
          (q.assertPureInto #[]).2) := by
  have hdrained : p.pureLiterals.1.toArray.shrink 0 = #[] := by simp
  rw [assertPureInto]
  split
  next hp =>
    rw [pureLiteralsInto_eq] at hp
    cases hp
    rw [dif_neg (by simpa using h), hdrained]
    split
    next ha => rw [ha]
    next q ha =>
      rw [ha]
      dsimp only
      obtain ⟨_ | _, _⟩ := q.assertPureInto #[] <;> rfl

/-- The buffer is empty in the end, and has no effect. -/
theorem assertPureInto_eq (p : Problem ρ) (buffer : Array Literal) :
    p.assertPureInto buffer = (p.assertPure, #[]) := by
  induction hu : p.unvalued using Nat.strongRecOn generalizing p buffer with
  | _ u ih =>
    rw [assertPure_eq]
    by_cases h : p.pureLiterals.1 = []
    · rw [assertPureInto_of_nil buffer h, if_pos h]
    · rw [assertPureInto_of_ne_nil buffer h, if_neg h]
      cases ha : p.pureLiterals.2.assertAll p.pureLiterals.1 with
      | error fault => rfl
      | ok q =>
        have hq := unvalued_assertAll ha
        have hpos := List.length_pos_iff.2 h
        rw [unvalued_pureLiterals] at hq
        dsimp only
        rw [ih q.unvalued (by omega) q #[] rfl]

set_option linter.unusedVariables false in
def simplifyInto (p : Problem ρ) (buffer : Array Literal) :
    Except ProblemFault (Problem ρ) × Array Literal :=
  match hp : p.propagate with
  | .error fault => (.error fault, buffer)
  | .ok (n, p₁) =>
    match hq : p₁.assertPureInto buffer with
    | (.error fault, buffer) => (.error fault, buffer)
    | (.ok (k, p₂), buffer) =>
      if n = 0 ∧ k = 0 then (.ok p₂, buffer) else p₂.simplifyInto buffer
termination_by p.unvalued
decreasing_by
  rw [assertPureInto_eq] at hq
  have h₁ := unvalued_propagate hp
  have h₂ := unvalued_assertPure (Prod.mk.inj hq).1
  omega

end Dpll.Problem
