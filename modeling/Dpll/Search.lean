import Dpll.Monitor
import Dpll.Problem.Decision
import Dpll.Simplification

namespace Dpll

structure Search (ρ : Type) where
  problem : Problem ρ
  monitor : Monitor

namespace Search

variable {ρ : Type}

/-- How a call of the search ends: with a verdict for the valuation it was made with, or with a
decision on a literal. -/
inductive Step
  | verdict (v : Verdict)
  | decision (l : Literal)
  deriving DecidableEq

def decideOn (s : Search ρ) (l : Literal) : Except ProblemFault (Search ρ) :=
  match s.problem.assert l true with
  | .error fault => .error fault
  | .ok problem => .ok ⟨problem, s.monitor.countDecision⟩

def retreat (s : Search ρ) : Except ProblemFault (Search ρ) :=
  match s.problem.rollback with
  | .error fault => .error fault
  | .ok problem => .ok ⟨problem, s.monitor.countBacktrack⟩

def turn (s : Search ρ) (l : Literal) : Except ProblemFault (Search ρ) :=
  match s.retreat with
  | .error fault => .error fault
  | .ok s =>
    match s.problem.assert l.negate true with
    | .error fault => .error fault
    | .ok problem => .ok ⟨problem, s.monitor⟩

variable [Chooser ρ]

/-- A call of the search: simplifies the formula, and decides on a literal if that does not settle
it. -/
def step (s : Search ρ) : Except ProblemFault (Step × Search ρ) :=
  match s.monitor.call with
  | (true, monitor) => .ok (.verdict .unknown, ⟨s.problem, monitor⟩)
  | (false, monitor) =>
    match s.problem.simplify with
    | .error fault => .error fault
    | .ok p =>
      match p.isSatisfied with
      | (true, p) => .ok (.verdict .satisfied, ⟨p, monitor⟩)
      | (false, p) =>
        match p.hasConflict with
        | (true, p) => .ok (.verdict .unsatisfied, ⟨p, monitor⟩)
        | (false, p) =>
          match p.chooseDecision with
          | .error fault => .error fault
          | .ok (l, p) =>
            match decideOn ⟨p, monitor⟩ l with
            | .error fault => .error fault
            | .ok s => .ok (.decision l, s)

end Search

end Dpll
