import Dpll.Clause

namespace Dpll

structure Header where
  literals : Nat
  clauses : Nat
  deriving DecidableEq

def Header.line (h : Header) : String := s!"p cnf {h.literals} {h.clauses}"

structure Loaded where
  header : Header
  read : Nat
  tautologies : Nat
  deriving DecidableEq

/-- Where a formula is read from: a header, and then clauses until there are none. What is left of
the source shrinks with each clause. -/
class ClauseSource (σ : Type) where
  header : σ → Except ParseFault Header × σ
  clause : σ → Except ParseFault (Option Clause) × σ
  left : σ → Nat
  left_clause {s s' : σ} {c : Clause} (h : clause s = (.ok (some c), s')) : left s' < left s

namespace ClauseSource

variable {σ : Type} [ClauseSource σ]

set_option linter.unusedVariables false in
def restFrom (found : List Clause) (s : σ) : List Clause × Option ParseFault × σ :=
  match h : clause s with
  | (.error fault, s') => (found.reverse, some fault, s')
  | (.ok none, s') => (found.reverse, none, s')
  | (.ok (some c), s') => restFrom (c :: found) s'
termination_by left s
decreasing_by exact left_clause h

/-- The clauses until the end or the first fault, the fault if there is one, and what is left. -/
def rest (s : σ) : List Clause × Option ParseFault × σ := restFrom [] s

end ClauseSource

structure ClauseList where
  literals : Nat
  clauses : List Clause

instance : ClauseSource ClauseList where
  header s := (.ok ⟨s.literals, s.clauses.length⟩, s)
  clause s :=
    match s.clauses with
    | [] => (.ok none, s)
    | c :: cs => (.ok (some c), { s with clauses := cs })
  left s := s.clauses.length
  left_clause {s s' c} h := by
    obtain ⟨n, cs⟩ := s
    cases cs <;> cases h
    simp

end Dpll
