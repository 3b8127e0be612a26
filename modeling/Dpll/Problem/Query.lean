import Dpll.Clause.Pure
import Dpll.Problem

namespace Dpll.Problem

variable {ρ : Type}

/-- The index on the trail against which satisfied clauses are recorded. -/
def latest (p : Problem ρ) : Nat := p.trail.depth - 1

@[inline] def scan {α : Type} (p : Problem ρ) (f : Clause → Clause.Status → Option α) :
    Option α × Problem ρ :=
  let (answer, store) := p.store.scan p.valuation p.latest f
  (answer, { p with store })

def isSatisfied (p : Problem ρ) : Bool × Problem ρ :=
  let (found, p) := p.scan fun _ status ↦ if status = .satisfied then none else some ()
  (found.isNone, p)

def hasConflict (p : Problem ρ) : Bool × Problem ρ :=
  let (found, p) := p.scan fun _ status ↦ if status = .conflict then some () else none
  (found.isSome, p)

/-- What is left of the first clause with one literal left, if the others are false. -/
def unitLiteral (p : Problem ρ) : Option Literal × Problem ρ :=
  p.scan fun _ status ↦
    match status with
    | .unit l => some l
    | _ => none

/-- The literals without a value of which the negation does not occur, in the clauses which are not
satisfied. -/
def pureLiterals (p : Problem ρ) : List Literal × Problem ρ :=
  let (clauses, store) := p.store.unsettled p.valuation p.latest
  let free := clauses.flatten.filter fun l ↦ (p.valuation.value l.atom).isNone
  (Dpll.pureLiterals p.atomCount free, { p with store })

@[simp] theorem unvalued_unitLiteral (p : Problem ρ) : p.unitLiteral.2.unvalued = p.unvalued := rfl

@[simp] theorem unvalued_pureLiterals (p : Problem ρ) :
    p.pureLiterals.2.unvalued = p.unvalued := rfl

end Dpll.Problem
