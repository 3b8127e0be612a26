import Dpll.Clause.Normal
import Dpll.ClauseSource
import Dpll.Solver.Branch
import Dpll.Verdict

namespace Dpll

/-- A solver which makes a copy of the formula on each assignment, reduced by the assignment. -/
structure CopyingSolver where
  config : Config
  literals : Nat
  formula : Formula
  monitor : Monitor

namespace CopyingSolver

def ofConfig (config : Config) (clock : Nat → Duration) : CopyingSolver where
  config
  literals := 0
  formula := []
  monitor := .ofConfig config clock

def takeFrom (literals : Nat) (sort : Bool) (taken : Formula) (tautologies : Nat) :
    List Clause → Except ClauseFault (Formula × Nat)
  | [] => .ok (taken.reverse, tautologies)
  | c :: cs =>
    match c.fault? literals with
    | some fault => .error fault
    | none =>
      match c.normalize sort with
      | .tautology _ => takeFrom literals sort taken (tautologies + 1) cs
      | .clause c => takeFrom literals sort (c :: taken) tautologies cs

def load {σ : Type} [Storage] [ClauseSource σ] (s : CopyingSolver) (source : σ) :
    Except Fault (Loaded × CopyingSolver) :=
  match ClauseSource.header source with
  | (.error fault, _) => .error (.parse fault)
  | (.ok header, source) =>
    match Formula.storageFault? header.clauses with
    | some fault => .error (.clause fault)
    | none =>
      let (clauses, fault, _) := ClauseSource.rest source
      match takeFrom header.literals s.config.sortClauses.value [] 0 clauses with
      | .error fault => .error (.clause fault)
      | .ok (formula, tautologies) =>
        match fault with
        | some fault => .error (.parse fault)
        | none =>
          .ok (⟨header, clauses.length, tautologies⟩,
            { s with literals := header.literals, formula })

def respond : Branch.Outcome → Response
  | .satisfied v => ⟨.satisfied, some v.complete⟩
  | .unsatisfied => ⟨.unsatisfied, none⟩
  | .unknown => ⟨.unknown, none⟩

/-- Searches from the formula loaded, and from no assignments. -/
def solve (s : CopyingSolver) : Except Fault (Response × CopyingSolver) :=
  match Branch.search ⟨s.formula, .blank s.literals⟩ s.monitor.start with
  | .error fault => .error (.problem fault)
  | .ok (outcome, monitor) => .ok (respond outcome, { s with monitor })

end CopyingSolver

end Dpll
