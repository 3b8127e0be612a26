import Dpll.Dimacs.Line

namespace Dpll

structure Dimacs where
  rest : Dimacs.Bytes
  /-- Whether reading beyond the bytes fails, in place of coming to the end of the text. -/
  broken : Bool := false
  line : Nat := 0
  finished : Bool := false

namespace Dimacs

def ofBytes (bytes : Bytes) : Dimacs := { rest := bytes }

def ofString (s : String) : Dimacs := ofBytes s.toUTF8.toList

def failingAt (n : Nat) (bytes : Bytes) : Dimacs :=
  if n ≤ bytes.length then { rest := bytes.take n, broken := true } else ofBytes bytes

def splitLine (bytes : Bytes) : Bytes × Bytes :=
  let after := bytes.dropWhile (· ≠ newline)
  (bytes.takeWhile (· ≠ newline) ++ after.take 1, after.drop 1)

/-- The next line, or none at the end. If reading fails before the end of a line, the line is
lost. -/
def nextLine (d : Dimacs) : Except ParseFault (Option Bytes) × Dimacs :=
  let (line, rest) := splitLine d.rest
  if d.broken ∧ line.getLast? ≠ some newline then
    (.error ⟨.unreadable, d.line + 1⟩, { d with rest := [] })
  else if line.isEmpty then (.ok none, d)
  else (.ok (some line), { d with rest, line := d.line + 1 })

def located {α : Type} (d : Dimacs) : Except LineFault α → Except ParseFault α
  | .ok a => .ok a
  | .error cause => .error ⟨cause, d.line⟩

theorem splitLine_append (bytes : Bytes) : (splitLine bytes).1 ++ (splitLine bytes).2 = bytes := by
  rw [splitLine, List.append_assoc, List.take_append_drop, List.takeWhile_append_dropWhile]

theorem length_nextLine {d d' : Dimacs} {line : Bytes} (h : d.nextLine = (.ok (some line), d')) :
    d'.rest.length < d.rest.length := by
  have hs := congrArg List.length (splitLine_append d.rest)
  rw [List.length_append] at hs
  unfold nextLine at h
  dsimp only at h
  split at h
  next => cases h
  next =>
    split at h
    next => cases h
    next hl =>
      cases h
      have := List.length_pos_iff.2 (mt List.isEmpty_iff.2 hl)
      dsimp only
      omega

set_option linter.unusedVariables false in
def readHeader (d : Dimacs) : Except ParseFault Header × Dimacs :=
  match h : d.nextLine with
  | (.error fault, d') => (.error fault, d')
  | (.ok none, d') => (d'.located (.error .missingProblem), d')
  | (.ok (some line), d') =>
    if line.head? = some (byte 'c') then readHeader d'
    else if line.head? = some (byte 'p') then (d'.located (specification line), d')
    else (d'.located (.error .unexpectedPreamble), d')
termination_by d.rest.length
decreasing_by exact length_nextLine h

set_option linter.unusedVariables false in
/-- Skips comments, and reads a clause. A line which begins with a percent sign ends the formula. -/
def readClause (d : Dimacs) : Except ParseFault (Option Clause) × Dimacs :=
  if d.finished then (.ok none, d)
  else
    match h : d.nextLine with
    | (.error fault, d') => (.error fault, d')
    | (.ok none, d') => (.ok none, { d' with finished := true })
    | (.ok (some line), d') =>
      if line.head? = some (byte 'c') then readClause d'
      else if line.head? = some (byte '%') then (.ok none, { d' with finished := true })
      else (d'.located ((clause line).map some), d')
termination_by d.rest.length
decreasing_by exact length_nextLine h

theorem length_readClause {d d' : Dimacs} {c : Clause} (h : d.readClause = (.ok (some c), d')) :
    d'.rest.length < d.rest.length := by
  induction d using readClause.induct with
  | case1 d hf => simp [readClause, hf] at h
  | case2 d hf fault d₁ hl => rw [readClause, if_neg hf] at h; split at h <;> simp_all
  | case3 d hf d₁ hl => rw [readClause, if_neg hf] at h; split at h <;> simp_all
  | case4 d hf line d₁ hl hc ih =>
    have hlt := length_nextLine hl
    rw [readClause, if_neg hf] at h
    split at h <;> simp_all
    exact Nat.lt_trans ih hlt
  | case5 d hf line d₁ hl hc hp => rw [readClause, if_neg hf] at h; split at h <;> simp_all
  | case6 d hf line d₁ hl hc hp =>
    have hlt := length_nextLine hl
    rw [readClause, if_neg hf] at h
    split at h <;> simp_all

instance : ClauseSource Dimacs where
  header := readHeader
  clause := readClause
  left d := d.rest.length
  left_clause := length_readClause

end Dimacs

end Dpll
