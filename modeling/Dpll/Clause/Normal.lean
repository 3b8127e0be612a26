import Dpll.Clause

namespace Dpll.Clause

def literalFault? (atomCount : Nat) (l : Literal) : Option ClauseFault :=
  if l = 0 then some .zeroLiteral
  else if atomCount < l.atom then some (.atomOutOfRange l.atom)
  else none

def fault? (atomCount : Nat) (c : Clause) : Option ClauseFault :=
  c.findSome? (literalFault? atomCount)

/-- What is left of a clause in which literals of one atom are brought together. On a tautology,
this is the clause as far as it was examined, followed by the rest of it. -/
inductive Normalized
  | clause (c : Clause)
  | tautology (c : Clause)
  deriving DecidableEq

/-- Drops each literal which has been seen, up to a literal whose negation has been seen.
The literals seen are in reverse. -/
def distinct (seen : List Literal) : List Literal → Normalized
  | [] => .clause seen.reverse
  | l :: rest =>
    match seen.find? fun m ↦ m.atom = l.atom with
    | none => distinct (l :: seen) rest
    | some m => if m = l then distinct seen rest else .tautology (seen.reverse ++ l :: rest)

/-- `List.merge`, in a form which the kernel evaluates. -/
def mergeByAtom : Clause → Clause → Clause
  | [], d => d
  | c, [] => c
  | l :: c, m :: d =>
    if l.atom ≤ m.atom then l :: mergeByAtom c (m :: d) else m :: mergeByAtom (l :: c) d
termination_by c d => c.length + d.length

/-- `List.mergeSort` by atom, in a form which the kernel evaluates. -/
def sortByAtom (c : Clause) : Clause :=
  if c.length ≤ 1 then c
  else
    mergeByAtom (sortByAtom (c.take ((c.length + 1) / 2)))
      (sortByAtom (c.drop ((c.length + 1) / 2)))
termination_by c.length
decreasing_by all_goals simp only [List.length_take, List.length_drop]; omega

/-- No atom occurs twice in a normalized clause. The order is that of first occurrences, or that of
the atoms. -/
def normalize (sort : Bool) (c : Clause) : Normalized :=
  match distinct [] c with
  | .clause c => .clause (if sort then c.sortByAtom else c)
  | .tautology c => .tautology c

end Dpll.Clause
