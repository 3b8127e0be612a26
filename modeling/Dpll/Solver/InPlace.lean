import Dpll.Solver.Trail
import Dpll.Update

namespace Dpll

namespace ClauseSource

variable {σ β : Type} [ClauseSource σ]

def readHeader (s : σ) : Except Fault Header × σ :=
  match header s with
  | (.error fault, s) => (.error (.parse fault), s)
  | (.ok h, s) => (.ok h, s)

set_option linter.unusedVariables false in
def takeEach (take : β → Clause → Except Fault β) (b : β) (s : σ) : Except Fault β × σ :=
  match h : clause s with
  | (.error fault, s') => (.error (.parse fault), s')
  | (.ok none, s') => (.ok b, s')
  | (.ok (some c), s') =>
    match take b c with
    | .error fault => (.error fault, s')
    | .ok b => takeEach take b s'
termination_by left s
decreasing_by exact left_clause h

end ClauseSource

namespace Loaded

def countStored (info : Loaded) : Loaded := { info with read := info.read + 1 }

def countTautology (info : Loaded) : Loaded :=
  { info.countStored with tautologies := info.tautologies + 1 }

end Loaded

variable {σ : Type} [ClauseSource σ]

namespace CopyingSolver

def take (sort : Bool) : Formula × Loaded → Clause → Except Fault (Formula × Loaded)
  | (f, info), c =>
    match c.fault? info.header.literals with
    | some fault => .error (.clause fault)
    | none =>
      match c.normalize sort with
      | .tautology _ => .ok (f, info.countTautology)
      | .clause c => .ok (f ++ [c], info.countStored)

/-- `load` in place, clause after clause. The solver is written to once every clause is taken. -/
def loadInPlace [Storage] : Update (CopyingSolver × σ) Fault Loaded := do
  let header ← Update.read ClauseSource.readHeader
  Update.fail? ((Formula.storageFault? header.clauses).map .clause)
  let sort := (← get).1.config.sortClauses.value
  let (formula, info) ← Update.read (ClauseSource.takeEach (take sort) ([], ⟨header, 0, 0⟩))
  modify fun (s, source) ↦ ({ s with literals := header.literals }, source)
  modify fun (s, source) ↦ ({ s with formula }, source)
  return info

end CopyingSolver

namespace TrailSolver

def take : Problem Pcg × Loaded → Clause → Except Fault (Problem Pcg × Loaded)
  | (p, info), c =>
    match p.add c with
    | .error fault => .error fault
    | .ok (.tautology, p) => .ok (p, info.countTautology)
    | .ok (.stored, p) => .ok (p, info.countStored)

/-- `load` in place, clause after clause. The clauses are added to another problem than that of the
solver, which it takes the place of at the end. -/
def loadInPlace [Storage] : Update (TrailSolver × σ) Fault Loaded := do
  let header ← Update.read ClauseSource.readHeader
  let p := Problem.seeded header.literals (← get).1.config
  Update.fail? ((Formula.storageFault? header.clauses).map .clause)
  let (problem, info) ← Update.read (ClauseSource.takeEach take (p, ⟨header, 0, 0⟩))
  modify fun (s, source) ↦ ({ s with problem }, source)
  return info

end TrailSolver

end Dpll
