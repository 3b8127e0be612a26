import Dpll.CommandLine.Arguments
import Dpll.CommandLine.Find
import Dpll.Formula.Room

namespace Dpll.CommandLine

abbrev ExitCode := Nat

def ExitCode.ofVerdict : Verdict → ExitCode
  | .satisfied => 10
  | .unsatisfied => 20
  | .unknown => 30

def progressLine (p : Progress) : Line :=
  [.text "c ", .time p.elapsed 0, .text s!" {p.counters.calls}"]

variable {m : Type → Type} [Monad m] (on : Surroundings m)

def sayLoaded (s : Solver) (info : Loaded) : m Unit :=
  on.say <| s!"c Literals: {s.literalCount}, clauses: {s.clauseCount} "
    ++ s!"({info.read} read, {info.tautologies} tautologies)"

def sayCounters (c : Counters) : m Unit :=
  on.say s!"c Calls: {c.calls}, decisions: {c.decisions}, backtracks: {c.backtracks}"

def sayResponse (r : Response) (showModel : Bool) : m Unit := do
  on.say s!"s {r.verdict.competitionStatus}"
  match r.model? with
  | some model => if showModel then on.say s!"v {model}"
  | none => return

def solve (config : Config) (showModel : Bool) (path : Path) : m ExitCode := do
  match ← on.formula path with
  | .error reason =>
    on.say s!"c {reason}"
    return 1
  | .ok source =>
    let solver := Solver.ofConfig config fun _ ↦ 0
    on.say s!"c Solver: {solver.name}"
    on.say s!"c File: {path}"
    let loadStart ← on.now
    match solver.load source with
    | .error fault =>
      on.say s!"c Error loading {path}: {fault.message}"
      return 1
    | .ok (info, solver) =>
      sayLoaded on solver info
      on.print [.text "c Load time: ", .time ((← on.now) - loadStart) 0]
      let solveStart ← on.now
      match ← on.solve solver fun p ↦ on.print (progressLine p) with
      | .error fault =>
        on.say s!"c Solver error: {fault.message}"
        return 1
      | .ok (response, solver) =>
        let solveTime := (← on.now) - solveStart
        sayCounters on solver.counters
        sayResponse on response showModel
        on.print [.text "c Solve time: ", .time solveTime 0]
        return .ofVerdict response.verdict

structure Inspection where
  header : Header
  time : Duration
  name : String

def Inspection.line (i : Inspection) : Line :=
  [.text s!"{padLeft 10 (toString i.header.literals)} {padLeft 10 (toString i.header.clauses)} ",
    .time i.time 12, .text s!" {i.name}"]

/-- Reads the header at a path, or tells why it cannot. A path without a file name is passed
over. -/
def inspectPath (path : Path) : m (Option Inspection) := do
  match path.fileName? with
  | none => return none
  | some name =>
    let start ← on.now
    match ← on.formula path with
    | .error reason =>
      on.say s!"c {reason}"
      return none
    | .ok source =>
      match source.readHeader.1 with
      | .error fault =>
        on.say s!"c {name}: {fault.message}"
        return none
      | .ok header => return some ⟨header, (← on.now) - start, name⟩

def inspect (directory pattern : String) : m ExitCode := do
  match PathPattern.parse (Path.join directory pattern) with
  | .error fault =>
    on.say s!"c Invalid pattern {pattern}: {fault.message}"
    return 1
  | .ok paths =>
    let inspections ← (← paths.find on).filterMapM (inspectPath on)
    let sorted := inspections.mergeSort fun a b ↦ decide (a.header.literals ≤ b.header.literals)
    sorted.forM fun i ↦ on.print i.line
    return 0

def run (arguments : List String) : m ExitCode := do
  match Command.parse arguments with
  | none => return 1
  | some .version =>
    on.say "trail_sat 0.1.0"
    return 0
  | some (.solve config showModel path) => solve on config showModel path
  | some (.inspect directory pattern) => inspect on directory pattern

end Dpll.CommandLine
