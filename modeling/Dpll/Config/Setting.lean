namespace Dpll

structure Setting (α : Type) where
  name : String
  min : α
  max : α
  value : α

namespace Setting

variable {α : Type} [LE α] [DecidableLE α]

def admits (s : Setting α) (a : α) : Bool := decide (s.min ≤ a) && decide (a ≤ s.max)

def set (s : Setting α) (a : α) : Bool × Setting α :=
  if s.admits a then (true, { s with value := a }) else (false, s)

end Setting

end Dpll
