import Dpll.CommandLine.Line
import Dpll.CommandLine.Path
import Dpll.Dimacs
import Dpll.Solver

namespace Dpll.CommandLine

inductive Entry
  | file
  | directory
  deriving DecidableEq

structure Surroundings (m : Type → Type) where
  entry? : Path → m (Option Entry)
  names : Path → m (List String)
  /-- The text at a path, or why it cannot be opened. A directory opens, but cannot be read. -/
  text : Path → m (Except String Dimacs)
  print : Line → m Unit
  now : m Duration
  /-- Lets a solver solve, and hands on what it reports of its progress. -/
  solve : Solver → (Progress → m Unit) → m (Except Fault (Response × Solver))

namespace Surroundings

variable {m : Type → Type} [Monad m] (on : Surroundings m)

def isDirectory (p : Path) : m Bool := do return (← on.entry? p) = some .directory

def isPresent (p : Path) : m Bool := do return (← on.entry? p).isSome

def formula (p : Path) : m (Except String Dimacs) := do
  match ← on.text p with
  | .error reason => return .error s!"Could not open {p}: {reason}"
  | .ok d =>
    if p.extension? = some "xz" then
      return .error s!"Could not read {p}: built without the xz feature"
    else return .ok d

def say (s : String) : m Unit := on.print [.text s]

end Surroundings

end Dpll.CommandLine
