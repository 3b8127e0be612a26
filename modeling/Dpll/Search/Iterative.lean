import Dpll.Search

namespace Dpll.Search

/-- A decision under which the search is, and whether its opposite has been tried before it. -/
structure Frame where
  literal : Literal
  triedOpposite : Bool
  deriving DecidableEq

variable {ρ : Type}

/-- Undoes decisions until one is met of which the opposite has not been tried, and tries it.
Gives the frames then open, or none if there is no such decision. -/
def backtrack : List Frame → Search ρ → Except ProblemFault (Option (List Frame) × Search ρ)
  | [], s => .ok (none, s)
  | frame :: frames, s =>
    if frame.triedOpposite then
      match s.retreat with
      | .error fault => .error fault
      | .ok s => backtrack frames s
    else
      match s.turn frame.literal with
      | .error fault => .error fault
      | .ok s => .ok (some (⟨frame.literal.negate, true⟩ :: frames), s)

/-- More calls than there are in a tree in which no more than `depth` are under one another. -/
def callBound (depth : Nat) : Nat := 1 <<< depth

variable [Chooser ρ]

/-- The search from the decisions of the frames, latest first, for so many calls. -/
def iterateFrom : Nat → List Frame → Search ρ → Except ProblemFault (Verdict × Search ρ)
  | 0, _, s => .ok (.unknown, s)
  | calls + 1, frames, s =>
    match s.step with
    | .error fault => .error fault
    | .ok (.decision l, s) => iterateFrom calls (⟨l, false⟩ :: frames) s
    | .ok (.verdict .unsatisfied, s) =>
      match backtrack frames s with
      | .error fault => .error fault
      | .ok (none, s) => .ok (.unsatisfied, s)
      | .ok (some frames, s) => iterateFrom calls frames s
    | .ok (.verdict v, s) => .ok (v, s)

def iterate (s : Search ρ) : Except ProblemFault (Verdict × Search ρ) :=
  iterateFrom (callBound (s.problem.unvalued + 1)) [] s

end Dpll.Search
