import Dpll.Clause

namespace Dpll

/-- The greatest count of clauses for which space can be asked. Each takes 24 bytes, and no more
than `2 ^ 63 - 1` bytes can be asked for at once. -/
def Formula.room : Nat := (UInt64.size / 2 - 1) / 24

instance Storage.ofRoom : Storage where
  lacks n := decide (Formula.room < n)

end Dpll
