import Dpll.CommandLine.Program
import Dpll.Random.Choice

namespace Dpll.CommandLine

def reasonOf (e : IO.Error) : String :=
  match e with
  | .noFileOrDirectory _ code details | .inappropriateType (some _) code details
  | .permissionDenied (some _) code details | .invalidArgument (some _) code details =>
    s!"{details} (os error {code})"
  | e => toString e

/-- Solves from the start again and again, each time for twice as many checks, so that the clock is
read in between. A search which is ended early has gone the same way as one which is not. If there
is a time limit, the last search is one which would not end before it. -/
partial def solveInSlices (start : Nat) (checks : Nat) (shown : Duration)
    (report : Progress → IO Unit) (solver : Solver) : IO (Except Fault (Response × Solver)) := do
  let began ← IO.monoNanosNow
  match (solver.oversee (·.terminateBy fun i ↦ decide (checks ≤ i + 1))).solve with
  | .error fault => return .error fault
  | .ok (response, solved) =>
    if solved.monitor.asked < checks then return .ok (response, solved)
    let now ← IO.monoNanosNow
    let elapsed := now - start
    let due := decide (shown + solver.monitor.progressInterval ≤ elapsed)
    if due then report ⟨elapsed, solved.counters⟩
    let shown := if due then elapsed else shown
    match solver.monitor.timeLimit with
    | none => solveInSlices start (2 * checks) shown report solver
    | some limit =>
      let next := min (2 * checks) (checks * (limit - elapsed) / max 1 (now - began))
      if next ≤ checks then return .ok (response, solved)
      else solveInSlices start next shown report solver

def system : Surroundings IO where
  entry? p := do
    try
      let metadata ← ((← IO.currentDir) / p).metadata
      return some (if metadata.type matches .dir then .directory else .file)
    catch _ => return none
  names p := do
    try return ((← ((← IO.currentDir) / p).readDir).map (·.fileName)).toList
    catch _ => return []
  text p := do
    try
      let handle ← IO.FS.Handle.mk p .read
      let metadata ← ((← IO.currentDir) / p).metadata
      if metadata.type matches .dir then return .ok (.failingAt 0 [])
      else return .ok (.ofBytes (← handle.readBinToEnd).toList)
    catch e => return .error (reasonOf e)
  print line := IO.println line.shown
  now := IO.monoNanosNow
  solve solver report := do solveInSlices (← IO.monoNanosNow) 1 0 report solver

end Dpll.CommandLine

def main (arguments : List String) : IO UInt32 := do
  return (← Dpll.CommandLine.run Dpll.CommandLine.system arguments).toUInt32
