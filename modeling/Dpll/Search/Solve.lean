import Dpll.Search.Iterative
import Dpll.Search.Recursive

namespace Dpll

def Phase.ofVerdict : Verdict → Phase
  | .satisfied => .satisfiable
  | .unsatisfied => .unsatisfiable
  | .unknown => .solving

namespace Search

variable {ρ : Type} [Chooser ρ]

def inPhase (s : Search ρ) (phase : Phase) : Search ρ := ⟨{ s.problem with phase }, s.monitor⟩

def run (s : Search ρ) : Except ProblemFault (Verdict × Search ρ) :=
  match s.problem.config.search.value with
  | .iterative => s.iterate
  | .recursive => s.recurse

/-- Settles the problem, by a search unless the formula has an empty clause. -/
def solve (s : Search ρ) : Except ProblemFault (Verdict × Search ρ) :=
  if s.problem.store.hasEmpty then .ok (.unsatisfied, s.inPhase .unsatisfiable)
  else
    match (s.inPhase .solving).run with
    | .error fault => .error fault
    | .ok (.unknown, s) => .ok (.unknown, s)
    | .ok (v, s) => .ok (v, s.inPhase (.ofVerdict v))

end Search

end Dpll
