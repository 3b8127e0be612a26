import Dpll.Valuation

namespace Dpll

abbrev Clause := List Literal

abbrev Formula := List Clause

namespace Clause

/-- What a valuation makes of a clause: some literal is true, or all are false, or one literal is
left without a value and the others are false, or more than one is left and none is true. -/
inductive Status
  | satisfied
  | conflict
  | unit (l : Literal)
  | pending
  deriving DecidableEq

/-- The status of a clause, if a literal without a value is put to the false literals of a clause
which has the given status. -/
def Status.widen (l : Literal) : Status → Status
  | .conflict => .unit l
  | _ => .pending

def statusFrom (v : Valuation) (s : Status) : List Literal → Status
  | [] => s
  | l :: rest =>
    match v.truth l with
    | some true => .satisfied
    | some false => statusFrom v s rest
    | none => statusFrom v (s.widen l) rest

/-- Each occurrence of a literal counts, so `status` is meant for clauses without repetitions. -/
def status (v : Valuation) (c : Clause) : Status := statusFrom v .conflict c

def text (c : Clause) : String := " ".intercalate (c.map toString)

def line (c : Clause) : String := String.join (c.map fun l ↦ toString l ++ " ") ++ "0"

end Clause

/-- The counts of clauses for which there is no space. -/
class Storage where
  lacks : Nat → Bool

namespace Formula

def text (f : Formula) : String := String.join (f.map fun c ↦ c.line ++ "\n")

def storageFault? [Storage] (n : Nat) : Option ClauseFault :=
  if Storage.lacks n then some (.storageExhausted n) else none

end Formula

end Dpll
