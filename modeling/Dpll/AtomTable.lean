import Dpll.Valuation

namespace Dpll

structure Occurrences where
  positive : Nat := 0
  negative : Nat := 0
  deriving DecidableEq

namespace Occurrences

def note (o : Occurrences) (positive : Bool) : Occurrences :=
  if positive then { o with positive := o.positive + 1 } else { o with negative := o.negative + 1 }

/-- The polarity which occurs more often, and the positive on a tie. -/
def leaning (o : Occurrences) : Bool := decide (o.negative ≤ o.positive)

def most (o : Occurrences) : Nat := max o.positive o.negative

end Occurrences

structure AtomTable where
  valuation : Valuation
  occurrences : Array Occurrences

namespace AtomTable

def blank (n : Nat) : AtomTable := ⟨.blank n, .replicate (n + 1) {}⟩

def count (t : AtomTable) : Nat := t.valuation.atomCount

def assign : AtomTable → Atom → Bool → Except ProblemFault AtomTable
  | ⟨valuation, occurrences⟩, a, b =>
    match valuation.assign a b with
    | .error fault => .error fault
    | .ok valuation => .ok ⟨valuation, occurrences⟩

def clear (t : AtomTable) (a : Atom) : AtomTable := { t with valuation := t.valuation.clear a }

def clearAll (t : AtomTable) (ls : List Literal) : AtomTable :=
  ls.foldl (fun t l ↦ t.clear l.atom) t

def note (t : AtomTable) (l : Literal) : AtomTable :=
  { t with occurrences := t.occurrences.modify l.atom (·.note l.positive) }

def noteAll (t : AtomTable) (ls : List Literal) : AtomTable := ls.foldl note t

def occurrencesOf (t : AtomTable) (a : Atom) : Occurrences := t.occurrences.getD a {}

theorem assign_eq_ok {t u : AtomTable} {a : Atom} {b : Bool} (h : t.assign a b = .ok u) :
    t.valuation.assign a b = .ok u.valuation := by
  obtain ⟨v, o⟩ := t
  simp only [assign] at h
  split at h
  next => cases h
  next hv => cases h; exact hv

end AtomTable

end Dpll
