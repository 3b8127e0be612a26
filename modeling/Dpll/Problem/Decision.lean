import Dpll.Problem
import Dpll.Random.Chooser

namespace Dpll

/-- The first of the atoms with the most occurrences of one polarity, after `best` with `count`. -/
def AtomTable.greediest (t : AtomTable) (best : Option Literal) (count : Nat) :
    List Atom → Option Literal
  | [] => best
  | a :: rest =>
    let o := t.occurrencesOf a
    if best.isNone || decide (count < o.most) then
      t.greediest (some (.ofAtom a o.leaning)) o.most rest
    else t.greediest best count rest

namespace Problem

variable {ρ : Type} [Chooser ρ]

def chooseDecision (p : Problem ρ) : Except ProblemFault (Literal × Problem ρ) :=
  let unvalued := p.valuation.unvalued
  let (choice, source) :=
    match p.config.heuristic.value with
    | .random =>
      let (a, source) := Chooser.choose unvalued p.source
      (a.map (.ofAtom · true), source)
    | .greedy => (p.atoms.greediest none 0 unvalued, p.source)
    | .first => (unvalued.head?.map (.ofAtom · true), p.source)
  match choice with
  | none => .error .noUnassignedAtom
  | some l => .ok (l, { p with source })

end Problem

end Dpll
