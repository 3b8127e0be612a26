import Dpll.Problem
import Dpll.Update

namespace Dpll.Problem

variable {ρ : Type}

/-- `add` in place: every check comes before the first occurrence is counted. -/
def addInPlace (c : Clause) : Update (Problem ρ) Fault Addition := do
  let p ← get
  unless p.phase = .input do throw .solveInProgress
  Update.fail? ((c.fault? p.atomCount).map .clause)
  match c.normalize p.config.sortClauses.value with
  | .tautology _ => return .tautology
  | .clause d =>
    forM d fun l ↦ modify fun p ↦ { p with atoms := p.atoms.note l }
    modify fun p ↦ { p with store := p.store.push d }
    return .stored

/-- `assign` in place. The value is written first, and then the decision, the literal and the phase. -/
def assignInPlace (a : Atom) (b decision : Bool) : Update (Problem ρ) ProblemFault Unit := do
  let v := (← get).valuation
  unless v.contains a do throw (.unknownAtom a)
  if (v.value a).isSome then throw (.alreadyAssigned a)
  modify fun p ↦ { p with atoms := { p.atoms with valuation := v.setIfInBounds a (some b) } }
  if decision then modify fun p ↦ { p with trail := p.trail.openLevel }
  modify fun p ↦ { p with trail := p.trail.push (.ofAtom a b) }
  modify fun p ↦ { p with phase := p.phase.afterAssignment }

/-- `rollback` in place. The literals of the level are taken off once their atoms are cleared, and
what the cache drops depends on how many are left. -/
def rollbackInPlace : Update (Problem ρ) ProblemFault Unit := do
  let t := (← get).trail
  match t.levelStarts.back? with
  | none => throw .noDecision
  | some start =>
    modify fun p ↦ { p with trail := { p.trail with levelStarts := p.trail.levelStarts.pop } }
    forM (t.literals.extract start t.literals.size).toList fun l ↦
      modify fun p ↦ { p with atoms := p.atoms.clear l.atom }
    modify fun p ↦ { p with trail := { p.trail with literals := p.trail.literals.shrink start } }
    modify fun p ↦ { p with store := p.store.invalidate p.trail.depth }

end Dpll.Problem
