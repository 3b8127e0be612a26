import Dpll.Config.Duration
import Dpll.Config.Kinds
import Dpll.Config.Setting

namespace Dpll

structure Config where
  solver : Setting SolverKind := ⟨"solver", .simple, .cached, .noCopy⟩
  heuristic : Setting Heuristic := ⟨"heuristic", .random, .first, .greedy⟩
  search : Setting SearchForm := ⟨"search", .iterative, .recursive, .iterative⟩
  /-- Whether clauses found to be satisfied are recorded, whatever the solver. -/
  satisfactionCache : Setting Bool := ⟨"satisfaction_cache", false, true, false⟩
  sortClauses : Setting Bool := ⟨"sort_clauses", false, true, true⟩
  seed : Setting Nat := ⟨"seed", 0, UInt64.size - 1, 0⟩
  /-- The time after which a search ends, where zero is no limit. -/
  timeLimit : Setting Duration := ⟨"time_limit", 0, .longest, 0⟩
  progressInterval : Setting Duration :=
    ⟨"progress_interval", .ofParts 0 1000000, .longest, .ofSeconds 10⟩

namespace Config

def forSolver (kind : SolverKind) : Config :=
  let config : Config := {}
  { config with solver.value := kind }

def cachesSatisfaction (c : Config) : Bool :=
  c.satisfactionCache.value || decide (c.solver.value = .cached)

end Config

end Dpll
