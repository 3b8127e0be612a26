import Dpll.Literal

namespace Dpll

inductive ClauseFault
  | zeroLiteral
  | atomOutOfRange (a : Atom)
  | storageExhausted (count : Nat)
  deriving DecidableEq

inductive LineFault
  | missingProblem
  | unexpectedPreamble
  | problemSpecification
  | expectedDigit
  | expectedSpace
  | expectedLineEnd
  | overflow
  | unexpectedEnd
  | unreadable
  deriving DecidableEq

structure ParseFault where
  cause : LineFault
  line : Nat
  deriving DecidableEq

inductive ProblemFault
  | alreadyAssigned (a : Atom)
  | unknownAtom (a : Atom)
  | noDecision
  | noUnassignedAtom
  | unsatisfiedClause
  deriving DecidableEq

inductive Fault
  | clause (f : ClauseFault)
  | parse (f : ParseFault)
  | problem (f : ProblemFault)
  | solveInProgress
  deriving DecidableEq

def ClauseFault.message : ClauseFault → String
  | .zeroLiteral => "ZeroLiteral"
  | .atomOutOfRange a => s!"AtomOutOfRange({a})"
  | .storageExhausted count => s!"StorageExhausted({count})"

def LineFault.message : LineFault → String
  | .missingProblem => "no problem specification found"
  | .unexpectedPreamble => "unexpected line before problem specification"
  | .problemSpecification => "malformed problem specification"
  | .expectedDigit => "expected a digit"
  | .expectedSpace => "expected a single space after a literal"
  | .expectedLineEnd => "expected the end of a line"
  | .overflow => "number too large"
  | .unexpectedEnd => "unexpected end of input"
  | .unreadable => "failed to read"

def ParseFault.message (f : ParseFault) : String := s!"{f.cause.message} (line {f.line})"

def ProblemFault.message : ProblemFault → String
  | .alreadyAssigned a => s!"AlreadyAssigned({a})"
  | .unknownAtom a => s!"UnknownAtom({a})"
  | .noDecision => "NoDecision"
  | .noUnassignedAtom => "NoUnassignedAtom"
  | .unsatisfiedClause => "UnsatisfiedClause"

def Fault.message : Fault → String
  | .clause f => s!"Clause error: {f.message}"
  | .parse f => s!"Parse error: {f.message}"
  | .problem f => s!"Problem error: {f.message}"
  | .solveInProgress => "State error: SolveInProgress"

end Dpll
