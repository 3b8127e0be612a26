import Dpll.Formula
import Dpll.Monitor

namespace Dpll

/-- What is left of a formula by the assignments of a branch of the search, which are made to a
valuation as well. -/
structure Branch where
  formula : Formula
  valuation : Valuation

namespace Branch

def assert (b : Branch) (l : Literal) : Except ProblemFault Branch :=
  match b.valuation.assign l.atom l.positive with
  | .error fault => .error fault
  | .ok valuation => .ok ⟨b.formula.reduce l, valuation⟩

def assertAll (b : Branch) : List Literal → Except ProblemFault Branch
  | [] => .ok b
  | l :: ls =>
    match b.assert l with
    | .error fault => .error fault
    | .ok b => b.assertAll ls

theorem formula_assert {b b' : Branch} {l : Literal} (h : b.assert l = .ok b') :
    b'.formula = b.formula.reduce l := by
  unfold assert at h
  split at h <;> cases h
  rfl

theorem size_assertAll_le {b b' : Branch} {ls : List Literal} (h : b.assertAll ls = .ok b') :
    b'.formula.size ≤ b.formula.size := by
  induction ls generalizing b with
  | nil => cases h; exact Nat.le_refl _
  | cons l ls ih =>
    unfold assertAll at h
    split at h
    next => cases h
    next b₁ h₁ =>
      refine Nat.le_trans (ih h) ?_
      rw [formula_assert h₁]
      exact Formula.size_reduce_le _ _

theorem size_assertAll_lt {b b' : Branch} {l : Literal} {ls : List Literal}
    (h : b.assertAll (l :: ls) = .ok b') (hl : b.formula.Mentions l.atom) :
    b'.formula.size < b.formula.size := by
  unfold assertAll at h
  split at h
  next => cases h
  next b₁ h₁ =>
    refine Nat.lt_of_le_of_lt (size_assertAll_le h) ?_
    rw [formula_assert h₁]
    exact Formula.size_reduce_lt hl

def unitLiteral? (b : Branch) : Option Literal := b.formula.findSome? Clause.single?

def pureLiterals (b : Branch) : List Literal :=
  Dpll.pureLiterals b.valuation.atomCount b.formula.flatten

def firstLiteral? (b : Branch) : Option Literal := b.formula.head?.bind (·.head?)

theorem mentions_of_unitLiteral? {b : Branch} {l : Literal} (h : b.unitLiteral? = some l) :
    b.formula.Mentions l.atom := by
  obtain ⟨c, hc, hl⟩ := List.exists_of_findSome?_eq_some h
  unfold Clause.single? at hl
  split at hl <;> cases hl
  exact ⟨l, List.mem_flatten.2 ⟨_, hc, .head _⟩, rfl⟩

theorem mentions_of_pureLiterals {b : Branch} {l : Literal} {ls : List Literal}
    (h : b.pureLiterals = l :: ls) : b.formula.Mentions l.atom := by
  have hl : l ∈ b.pureLiterals := by simp [h]
  exact ⟨l, mem_of_mem_pureLiterals hl, rfl⟩

theorem mentions_of_firstLiteral? {b : Branch} {l : Literal} (h : b.firstLiteral? = some l) :
    b.formula.Mentions l.atom := by
  obtain ⟨c, hc, hl⟩ := Option.bind_eq_some_iff.1 h
  exact ⟨l, List.mem_flatten.2 ⟨c, List.mem_of_mem_head? hc, List.mem_of_mem_head? hl⟩, rfl⟩

set_option linter.unusedVariables false in
/-- Makes literals of unit clauses and pure literals true until neither is left, or until some
clause is empty, of which there is no answer. -/
def simplify (b : Branch) : Except ProblemFault (Option Branch) :=
  if b.formula.any (·.isEmpty) then .ok none
  else
    match hu : b.unitLiteral? with
    | some l =>
      match ha : b.assert l with
      | .error fault => .error fault
      | .ok b' => b'.simplify
    | none =>
      match hp : b.pureLiterals with
      | [] => .ok (some b)
      | l :: ls =>
        match ha : b.assertAll (l :: ls) with
        | .error fault => .error fault
        | .ok b' => b'.simplify
termination_by b.formula.size
decreasing_by
  · rw [formula_assert ha]
    exact Formula.size_reduce_lt (mentions_of_unitLiteral? hu)
  · exact size_assertAll_lt ha (mentions_of_pureLiterals hp)

theorem size_simplify {b b' : Branch} (h : b.simplify = .ok (some b')) :
    b'.formula.size ≤ b.formula.size := by
  induction hn : b.formula.size using Nat.strongRecOn generalizing b with
  | _ n ih =>
    unfold simplify at h
    split at h
    next => cases h
    next =>
      split at h
      next l hu =>
        split at h
        next => cases h
        next b₁ ha =>
          have hlt := Formula.size_reduce_lt (mentions_of_unitLiteral? hu)
          rw [← formula_assert ha] at hlt
          have := ih b₁.formula.size (by omega) h rfl
          omega
      next =>
        split at h
        next => cases h; omega
        next l ls hp =>
          split at h
          next => cases h
          next b₁ ha =>
            have hlt := size_assertAll_lt ha (mentions_of_pureLiterals hp)
            have := ih b₁.formula.size (by omega) h rfl
            omega

inductive Outcome
  | satisfied (v : Valuation)
  | unsatisfied
  | unknown
  deriving DecidableEq

set_option linter.unusedVariables false in
/-- Searches both ways of a decision on the first literal that is left, the positive first. -/
def search (b : Branch) (m : Monitor) : Except ProblemFault (Outcome × Monitor) :=
  match m.call with
  | (true, m) => .ok (.unknown, m)
  | (false, m) =>
    match hs : b.simplify with
    | .error fault => .error fault
    | .ok none => .ok (.unsatisfied, m)
    | .ok (some b') =>
      match hl : b'.firstLiteral? with
      | none => .ok (.satisfied b'.valuation, m)
      | some l =>
        match ht : b'.assert (.ofAtom l.atom true) with
        | .error fault => .error fault
        | .ok bt =>
          match bt.search m.countDecision with
          | .error fault => .error fault
          | .ok (.unsatisfied, m) =>
            match hf : b'.assert (.ofAtom l.atom false) with
            | .error fault => .error fault
            | .ok bf =>
              match bf.search m.countBacktrack with
              | .error fault => .error fault
              | .ok (.unsatisfied, m) => .ok (.unsatisfied, m.countBacktrack)
              | .ok (outcome, m) => .ok (outcome, m)
          | .ok (outcome, m) => .ok (outcome, m)
termination_by b.formula.size
decreasing_by
  all_goals
    have hle := size_simplify hs
    have hm := mentions_of_firstLiteral? hl
  · rw [formula_assert ht]
    exact Nat.lt_of_lt_of_le (Formula.size_reduce_lt (by simpa using hm)) hle
  · rw [formula_assert hf]
    exact Nat.lt_of_lt_of_le (Formula.size_reduce_lt (by simpa using hm)) hle

end Branch

end Dpll
