import Dpll.Clause

namespace Dpll

inductive Verdict
  | satisfied
  | unsatisfied
  | unknown
  deriving DecidableEq

namespace Verdict

def text : Verdict → String
  | satisfied => "Satisfied"
  | unsatisfied => "Unsatisfied"
  | unknown => "Unknown"

def competitionStatus : Verdict → String
  | satisfied => "SATISFIABLE"
  | unsatisfied => "UNSATISFIABLE"
  | unknown => "UNKNOWN"

end Verdict

/-- The answer of a solver. If the formula was found to be satisfied, it comes with the value of
each atom at the index of the atom, and with `false` at index zero. -/
structure Response where
  verdict : Verdict
  assignment : Option (List Bool) := none
  deriving DecidableEq

namespace Response

def modelLiterals (assignment : List Bool) : List Literal :=
  assignment.zipIdx.tail.map fun (b, a) ↦ .ofAtom a b

def model? (r : Response) : Option String :=
  r.assignment.map fun bs ↦ Clause.line (modelLiterals bs)

end Response

end Dpll
