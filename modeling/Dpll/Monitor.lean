import Dpll.Config

namespace Dpll

structure Counters where
  calls : Nat := 0
  decisions : Nat := 0
  backtracks : Nat := 0
  deriving DecidableEq

structure Progress where
  elapsed : Duration
  counters : Counters
  deriving DecidableEq

/-- Counts the calls of a search, and tells from time to time whether the search should end. -/
structure Monitor where
  counters : Counters := {}
  /-- The time since the start, as read at each check in turn. -/
  clock : Nat → Duration
  checks : Nat := 0
  timeLimit : Option Duration
  progressInterval : Duration
  lastProgress : Duration := 0
  /-- The answers to whether the search should end, in the order in which they are asked for. -/
  terminate : Option (Nat → Bool) := none
  asked : Nat := 0
  reporting : Bool := false
  reports : Array Progress := #[]

namespace Monitor

def checkFrequency : Nat := 1024

def ofConfig (config : Config) (clock : Nat → Duration) : Monitor where
  clock
  timeLimit := if config.timeLimit.value = 0 then none else some config.timeLimit.value
  progressInterval := config.progressInterval.value

/-- Asks `answers`, from the first of them on, in place of what was asked before. -/
def terminateBy (m : Monitor) (answers : Nat → Bool) : Monitor :=
  { m with terminate := some answers, asked := 0 }

def reportProgress (m : Monitor) : Monitor := { m with reporting := true }

def start (m : Monitor) : Monitor := { m with counters := {}, lastProgress := 0 }

def noteProgress (m : Monitor) (elapsed : Duration) : Monitor :=
  if m.lastProgress + m.progressInterval ≤ elapsed then
    { m with
      lastProgress := elapsed
      reports := if m.reporting then m.reports.push ⟨elapsed, m.counters⟩ else m.reports }
  else m

def shouldEnd (m : Monitor) (elapsed : Duration) : Bool × Monitor :=
  if m.timeLimit.any (· ≤ elapsed) then (true, m)
  else
    match m.terminate with
    | none => (false, m)
    | some answers => (answers m.asked, { m with asked := m.asked + 1 })

def check (m : Monitor) : Bool × Monitor :=
  let elapsed := m.clock m.checks
  (({ m with checks := m.checks + 1 } : Monitor).noteProgress elapsed).shouldEnd elapsed

/-- Counts a call, and tells whether the search should end. A check is made on every
`checkFrequency`-th call. -/
def call (m : Monitor) : Bool × Monitor :=
  let m := { m with counters.calls := m.counters.calls + 1 }
  if m.counters.calls % checkFrequency = 0 then m.check else (false, m)

def countDecision (m : Monitor) : Monitor :=
  { m with counters.decisions := m.counters.decisions + 1 }

def countBacktrack (m : Monitor) : Monitor :=
  { m with counters.backtracks := m.counters.backtracks + 1 }

end Monitor

end Dpll
