import Dpll.Config
import Dpll.Decimal

namespace Dpll.CommandLine

inductive Key
  | solver
  | heuristic
  | recursive
  | seed
  | timeLimit
  | progress
  | model
  deriving DecidableEq

namespace Key

def all : List Key := [solver, heuristic, recursive, seed, timeLimit, progress, model]

def long : Key → String
  | solver => "solver"
  | heuristic => "heuristic"
  | recursive => "recursive"
  | seed => "seed"
  | timeLimit => "time-limit"
  | progress => "progress"
  | model => "model"

def short? : Key → Option Char
  | solver => some 's'
  | recursive => some 'r'
  | timeLimit => some 't'
  | progress => some 'p'
  | model => some 'm'
  | heuristic | seed => none

def takesValue : Key → Bool
  | recursive | model => false
  | _ => true

end Key

structure Given where
  options : List (Key × String) := []
  positionals : List String := []

namespace Given

def withOption (key : Key) (value : String) (g : Given) : Given :=
  { g with options := (key, value) :: g.options }

def withPositional (s : String) (g : Given) : Given :=
  { g with positionals := s :: g.positionals }

/-- The options of letters written together. The last may be one whose value is still to come. -/
def ofLetters (keys : List Key) : List Char → Option (List (Key × String) × Option Key)
  | [] => some ([], none)
  | c :: rest => do
    let key ← keys.find? fun key ↦ key.short? = some c
    if key.takesValue then
      match rest with
      | [] => return ([], some key)
      | '=' :: value | value => return ([(key, String.ofList value)], none)
    else
      let (options, pending) ← ofLetters keys rest
      return ((key, "") :: options, pending)

def ofLong (keys : List Key) (s : String) : Option (List (Key × String) × Option Key) := do
  let name := s.toList.takeWhile (· ≠ '=')
  let value := s.toList.drop (name.length + 1)
  let key ← keys.find? fun key ↦ key.long = String.ofList name
  if s.toList.length = name.length then
    return if key.takesValue then ([], some key) else ([(key, "")], none)
  else if key.takesValue then return ([(key, String.ofList value)], none)
  else none

def ofArgument (keys : List Key) (s : String) :
    Option (Option (List (Key × String) × Option Key)) :=
  match s.toList with
  | '-' :: '-' :: name => some (ofLong keys (String.ofList name))
  | '-' :: c :: letters => some (ofLetters keys (c :: letters))
  | _ => none

/-- Reads arguments, of which only the given options are known. After two hyphens, none is an
option. -/
def parse (keys : List Key) : List String → Option Given
  | [] => some {}
  | "--" :: rest => some { positionals := rest }
  | s :: rest =>
    match ofArgument keys s with
    | none => (parse keys rest).map (withPositional s)
    | some none => none
    | some (some (options, none)) =>
      (parse keys rest).map fun g ↦ { g with options := options ++ g.options }
    | some (some (options, some key)) =>
      match rest with
      | [] => none
      | value :: rest =>
        if value.startsWith "-" then none
        else
          (parse keys rest).map fun g ↦ { g with options := options ++ (key, value) :: g.options }

def value? (g : Given) (key : Key) : Option String :=
  (g.options.find? fun o ↦ o.1 = key).map (·.2)

def has (g : Given) (key : Key) : Bool := (g.value? key).isSome

def isPlain (g : Given) : Bool := decide (g.options.map (·.1)).Nodup

end Given

def word? (s : String) : Option Nat :=
  let digits := if s.toList.head? = some '+' then s.toList.tail else s.toList
  if digits.isEmpty || !digits.all Char.isDigit then none
  else Decimal.below? UInt64.size (digits.map fun c ↦ c.toNat - '0'.toNat)

inductive Command
  | version
  | solve (config : Config) (showModel : Bool) (path : String)
  | inspect (directory pattern : String)

namespace Command

def setBy {α : Type} (g : Given) (key : Key) (read : String → Option α) (s : Setting α) :
    Option (Setting α) :=
  match g.value? key with
  | none => some s
  | some value => (read value).map fun a ↦ { s with value := a }

def configOf (g : Given) : Option Config := do
  let c : Config := {}
  let solver ← setBy g .solver SolverKind.ofName? c.solver
  let heuristic ← setBy g .heuristic Heuristic.ofName? c.heuristic
  let seed ← setBy g .seed word? c.seed
  let timeLimit ← setBy g .timeLimit (fun s ↦ (word? s).map .ofSeconds) c.timeLimit
  let interval (s : String) : Option Duration := ((word? s).filter (0 < ·)).map .ofSeconds
  let progressInterval ← setBy g .progress interval c.progressInterval
  let search := if g.has .recursive then .recursive else c.search.value
  return { c with solver, heuristic, seed, timeLimit, progressInterval, search.value := search }

def ofSolve (arguments : List String) : Option Command := do
  let g ← Given.parse Key.all arguments
  let config ← configOf g
  match g.positionals with
  | [path] => if g.isPlain && !path.isEmpty then some (solve config (g.has .model) path) else none
  | _ => none

def ofInspect (arguments : List String) : Option Command := do
  let g ← Given.parse [] arguments
  match g.positionals with
  | [directory] => if directory.isEmpty then none else some (inspect directory "*.cnf")
  | [directory, pattern] => if directory.isEmpty then none else some (inspect directory pattern)
  | _ => none

def parse : List String → Option Command
  | "solve" :: arguments => ofSolve arguments
  | "inspect" :: arguments => ofInspect arguments
  | s :: _ => if s = "--version" || s.startsWith "-V" then some version else none
  | [] => none

end Command

end Dpll.CommandLine
