import Dpll.Search.Solve
import Dpll.Solver.Copying

namespace Dpll

/-- A solver which keeps one copy of the formula, and records its assignments on a trail. -/
structure TrailSolver where
  config : Config
  problem : Problem Pcg
  monitor : Monitor

namespace TrailSolver

def ofConfig (config : Config) (clock : Nat → Duration) : TrailSolver where
  config
  problem := .seeded 0 config
  monitor := .ofConfig config clock

def kind (s : TrailSolver) : SolverKind := if s.config.cachesSatisfaction then .cached else .noCopy

def addAll (p : Problem Pcg) (tautologies : Nat) : List Clause → Except Fault (Problem Pcg × Nat)
  | [] => .ok (p, tautologies)
  | c :: cs =>
    match p.add c with
    | .error fault => .error fault
    | .ok (.tautology, p) => addAll p (tautologies + 1) cs
    | .ok (.stored, p) => addAll p tautologies cs

def load {σ : Type} [Storage] [ClauseSource σ] (s : TrailSolver) (source : σ) :
    Except Fault (Loaded × TrailSolver) :=
  match ClauseSource.header source with
  | (.error fault, _) => .error (.parse fault)
  | (.ok header, source) =>
    match Formula.storageFault? header.clauses with
    | some fault => .error (.clause fault)
    | none =>
      let (clauses, fault, _) := ClauseSource.rest source
      match addAll (.seeded header.literals s.config) 0 clauses with
      | .error fault => .error fault
      | .ok (problem, tautologies) =>
        match fault with
        | some fault => .error (.parse fault)
        | none => .ok (⟨header, clauses.length, tautologies⟩, { s with problem })

/-- Searches from the valuation and the trail which the search before left. -/
def solve [Chooser Pcg] (s : TrailSolver) : Except Fault (Response × TrailSolver) :=
  match Search.solve ⟨s.problem, s.monitor.start⟩ with
  | .error fault => .error (.problem fault)
  | .ok (verdict, search) =>
    .ok (⟨verdict, if verdict = .satisfied then some search.problem.assignment else none⟩,
      { s with problem := search.problem, monitor := search.monitor })

end TrailSolver

end Dpll
