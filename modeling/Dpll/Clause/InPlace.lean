import Dpll.Clause.Normal

namespace Dpll.Clause

/-- `distinct` in place. The literals before the index are those kept. The one at the index is removed
if it is among them, and kept as well if its atom is not that of any. -/
def distinctFrom (c : Clause) (i : Nat) : Normalized :=
  if h : i < c.length then
    let l := c.get ⟨i, h⟩
    match (c.take i).find? fun m ↦ m.atom = l.atom with
    | none => distinctFrom c (i + 1)
    | some m => if m = l then distinctFrom (c.eraseIdx i) i else .tautology c
  else .clause c
termination_by c.length - i
decreasing_by
  · omega
  · rw [List.length_eraseIdx_of_lt h]
    omega

def normalizeInPlace (sort : Bool) (c : Clause) : Normalized :=
  match c.distinctFrom 0 with
  | .clause c => .clause (if sort then c.sortByAtom else c)
  | .tautology c => .tautology c

end Dpll.Clause
