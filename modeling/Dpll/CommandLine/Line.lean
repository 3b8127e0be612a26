import Dpll.Config.Duration

namespace Dpll.CommandLine

inductive Piece
  | text (s : String)
  | time (d : Duration) (width : Nat)

/-- A line of output, in which times are kept apart from text as no two runs take the same. -/
abbrev Line := List Piece

def padLeft (width : Nat) (s : String) : String := "".pushn ' ' (width - s.length) ++ s

def durationText (d : Duration) : String :=
  let (scale, symbol) : Nat × String :=
    if Duration.second ≤ d then (Duration.second, "s")
    else if 1000000 ≤ d then (1000000, "ms")
    else if 1000 ≤ d then (1000, "µs")
    else (1, "ns")
  let hundredths := (d * 100 + scale / 2) / scale
  let places := toString (hundredths % 100)
  toString (hundredths / 100) ++ "." ++ "".pushn '0' (2 - places.length) ++ places ++ symbol

def Line.render (time : Duration → Nat → String) (line : Line) : String :=
  String.join <| line.map fun
    | .text s => s
    | .time d width => time d width

def withoutReturn (s : String) : String :=
  if s.endsWith "\r" then String.ofList s.toList.dropLast else s

/-- The lines as which the line is read, once written: a name may have line breaks of its own, and
a line may end with a carriage return besides the newline. -/
def Line.readAs (time : Duration → Nat → String) (line : Line) : List String :=
  ((line.render time).splitOn "\n").map withoutReturn

def Line.shown (line : Line) : String := line.render fun d width ↦ padLeft width (durationText d)

end Dpll.CommandLine
