import Dpll.Search

namespace Dpll.Search

variable {ρ : Type} [Chooser ρ]

def recurseTo : Nat → Search ρ → Except ProblemFault (Verdict × Search ρ)
  | 0, s => .ok (.unknown, s)
  | depth + 1, s =>
    match s.step with
    | .error fault => .error fault
    | .ok (.verdict v, s) => .ok (v, s)
    | .ok (.decision l, s) =>
      match recurseTo depth s with
      | .error fault => .error fault
      | .ok (.unsatisfied, s) =>
        match s.turn l with
        | .error fault => .error fault
        | .ok s =>
          match recurseTo depth s with
          | .error fault => .error fault
          | .ok (.unsatisfied, s) =>
            match s.retreat with
            | .error fault => .error fault
            | .ok s => .ok (.unsatisfied, s)
          | .ok (v, s) => .ok (v, s)
      | .ok (v, s) => .ok (v, s)

/-- The search by recursion. No more decisions are under one another than there are atoms to decide
on. -/
def recurse (s : Search ρ) : Except ProblemFault (Verdict × Search ρ) :=
  recurseTo (s.problem.unvalued + 1) s

end Dpll.Search
