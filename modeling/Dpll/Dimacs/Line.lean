import Dpll.ClauseSource
import Dpll.Decimal

namespace Dpll.Dimacs

abbrev Bytes := List UInt8

def byte (c : Char) : UInt8 := c.toNat.toUInt8

def newline : UInt8 := byte '\n'

def isDigit (b : UInt8) : Bool := decide (byte '0' ≤ b) && decide (b ≤ byte '9')

def digitValue (b : UInt8) : Nat := (b - byte '0').toNat

def expect (fault : LineFault) (b : UInt8) : Bytes → Except LineFault Bytes
  | [] => .error fault
  | x :: rest => if x = b then .ok rest else .error fault

def expectAll (fault : LineFault) (bs line : Bytes) : Except LineFault Bytes :=
  bs.foldlM (fun line b ↦ expect fault b line) line

/-- Reads one or more digits, which give a number of 64 bits. -/
def natural (line : Bytes) : Except LineFault (Nat × Bytes) :=
  let digits := line.takeWhile isDigit
  match Decimal.below? UInt64.size (digits.map digitValue) with
  | none => .error .overflow
  | some n => if digits.isEmpty then .error .expectedDigit else .ok (n, line.dropWhile isDigit)

def sign (line : Bytes) : Bool × Bytes :=
  if line.head? = some (byte '-') then (true, line.tail) else (false, line)

def literal (line : Bytes) : Except LineFault (Literal × Bytes) :=
  match natural (sign line).2 with
  | .error fault => .error fault
  | .ok (n, rest) =>
    let l := Literal.ofAtom n (!(sign line).1)
    if l.fits then .ok (l, rest) else .error .overflow

/-- Nothing is left of the line but its end: a newline, if it is not the last line of the text, which
may have a carriage return before it. -/
def atEnd (line : Bytes) : Bool :=
  let line := if line.head? = some (byte '\r') then line.tail else line
  line.isEmpty || decide (line = [newline])

def expectEnd (line : Bytes) : Except LineFault Unit :=
  if atEnd line then .ok () else .error .expectedLineEnd

def specification (line : Bytes) : Except LineFault Header := do
  let line ← expectAll .problemSpecification ("p cnf ".toList.map byte) line
  let (literals, line) ← natural line
  let line ← expect .problemSpecification (byte ' ') line
  let (clauses, line) ← natural line
  expectEnd line
  if Literal.greatestAtom < literals then .error .overflow else .ok ⟨literals, clauses⟩

theorem length_natural {line rest : Bytes} {n : Nat} (h : natural line = .ok (n, rest)) :
    rest.length < line.length := by
  unfold natural at h
  simp only at h
  split at h
  next => cases h
  next =>
    split at h
    next => cases h
    next hd =>
      cases h
      have := congrArg List.length (List.takeWhile_append_dropWhile (p := isDigit) (l := line))
      have := List.length_pos_iff.2 (mt List.isEmpty_iff.2 hd)
      simp only [List.length_append] at *
      omega

theorem length_sign (line : Bytes) : (sign line).2.length ≤ line.length := by
  unfold sign
  split <;> simp

theorem length_literal {line rest : Bytes} {l : Literal} (h : literal line = .ok (l, rest)) :
    rest.length < line.length := by
  unfold literal at h
  split at h
  next => cases h
  next hn =>
    dsimp only at h
    split at h
    next => cases h; exact Nat.lt_of_lt_of_le (length_natural hn) (length_sign line)
    next => cases h

set_option linter.unusedVariables false in
/-- Reads literals with a space after each, up to a zero at the end of the line. -/
def clause (line : Bytes) : Except LineFault Clause :=
  match h : literal line with
  | .error fault => .error fault
  | .ok (l, []) => if l = 0 then .ok [] else .error .unexpectedEnd
  | .ok (l, x :: rest) =>
    if l = 0 then (expectEnd (x :: rest)).map fun _ ↦ []
    else if x = byte ' ' then (clause rest).map (l :: ·)
    else .error .expectedSpace
termination_by line.length
decreasing_by
  have := length_literal h
  simp only [List.length_cons] at this
  omega

end Dpll.Dimacs
