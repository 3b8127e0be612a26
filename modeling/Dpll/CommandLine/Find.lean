import Dpll.CommandLine.Pattern
import Dpll.CommandLine.Surroundings

namespace Dpll.CommandLine

namespace PathPattern

/-- No path is longer than this, and so no directory is deeper. -/
def greatestDepth : Nat := 4096

variable {m : Type → Type} [Monad m] (on : Surroundings m)

def child (directory : Path) (name : String) : Path :=
  if directory.isCurrent then name else directory.join name

mutual

def arrive (directoriesOnly : Bool) (depth : Nat) (steps : List Pattern) (p : Path) :
    m (List Path) := do
  match steps with
  | [] => if directoriesOnly && !(← on.isDirectory p) then return [] else return [p]
  | step :: steps => expand directoriesOnly depth step steps p
termination_by (depth, steps.length, 2)

/-- The paths found in a directory, of which the names have to meet the first pattern. A name
without wildcards is looked for, and others are gone through in order. -/
def expand (directoriesOnly : Bool) (depth : Nat) (step : Pattern) (steps : List Pattern)
    (p : Path) : m (List Path) := do
  match step.literal? with
  | some name =>
    let next := child p name
    let found ← if name = "." || name = ".." then on.isDirectory p else on.isPresent next
    if found then arrive directoriesOnly depth steps next else return []
  | none =>
    if !(← on.isDirectory p) then return []
    else
      let names := (← on.names p).mergeSort fun a b ↦ decide (a ≤ b)
      let dots := if step.startsWithDot then ["..", "."].filter step.admits else []
      let special ← dots.mapM fun dot ↦ arrive directoriesOnly depth steps (p.join dot)
      let below ← names.mapM fun name ↦ visit directoriesOnly depth step steps (child p name)
      return special.flatten ++ below.flatten
termination_by (depth, steps.length + 1, 1)

def visit (directoriesOnly : Bool) (depth : Nat) (step : Pattern) (steps : List Pattern)
    (p : Path) : m (List Path) := do
  if step.isDeep then
    let isDirectory ← on.isDirectory p
    let here ←
      match steps with
      | [] => pure (if isDirectory then [p] else [])
      | next :: steps =>
        if (p.fileName?.map next.admits).getD false then arrive directoriesOnly depth steps p
        else pure []
    let below ←
      match depth with
      | 0 => pure []
      | depth + 1 =>
        if isDirectory then expand directoriesOnly depth step steps p else pure []
    return here ++ below
  else if (p.fileName?.map step.admits).getD false then arrive directoriesOnly depth steps p
  else return []
termination_by (depth, steps.length + 1, 0)

end

def find (pattern : PathPattern) : m (List Path) :=
  arrive on pattern.directoriesOnly greatestDepth pattern.steps pattern.root

end PathPattern

end Dpll.CommandLine
