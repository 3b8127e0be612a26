import Dpll.Solver.Trail

namespace Dpll

inductive Solver
  | copying (s : CopyingSolver)
  | trail (s : TrailSolver)

namespace Solver

def ofConfig (config : Config) (clock : Nat → Duration) : Solver :=
  match config.solver.value with
  | .simple => .copying (.ofConfig config clock)
  | .noCopy | .cached => .trail (.ofConfig config clock)

def kind : Solver → SolverKind
  | copying _ => .simple
  | trail s => s.kind

def name (s : Solver) : String := s.kind.name

def load {σ : Type} [Storage] [ClauseSource σ] (source : σ) :
    Solver → Except Fault (Loaded × Solver)
  | copying s => (s.load source).map fun (info, s) ↦ (info, copying s)
  | trail s => (s.load source).map fun (info, s) ↦ (info, trail s)

def solve [Chooser Pcg] : Solver → Except Fault (Response × Solver)
  | copying s => s.solve.map fun (response, s) ↦ (response, copying s)
  | trail s => s.solve.map fun (response, s) ↦ (response, trail s)

def monitor : Solver → Monitor
  | copying s => s.monitor
  | trail s => s.monitor

def oversee (f : Monitor → Monitor) : Solver → Solver
  | copying s => copying { s with monitor := f s.monitor }
  | trail s => trail { s with monitor := f s.monitor }

def counters (s : Solver) : Counters := s.monitor.counters

def config : Solver → Config
  | copying s => s.config
  | trail s => s.config

def formula : Solver → Formula
  | copying s => s.formula
  | trail s => s.problem.formula

def literalCount : Solver → Nat
  | copying s => s.literals
  | trail s => s.problem.atomCount

def clauseCount : Solver → Nat
  | copying s => s.formula.length
  | trail s => s.problem.clauseCount

end Solver

end Dpll
