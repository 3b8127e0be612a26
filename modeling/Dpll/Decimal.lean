namespace Dpll.Decimal

def value (digits : List Nat) : Nat := digits.foldl (fun n d ↦ n * 10 + d) 0

/-- The number written by the digits of `n` and those that follow, if it is less than the limit.
The digits after those that reach the limit are not read. -/
def belowFrom? (limit n : Nat) : List Nat → Option Nat
  | [] => some n
  | d :: rest => if n * 10 + d < limit then belowFrom? limit (n * 10 + d) rest else none

def below? (limit : Nat) (digits : List Nat) : Option Nat := belowFrom? limit 0 digits

theorem le_foldl (digits : List Nat) (n : Nat) :
    n ≤ digits.foldl (fun n d ↦ n * 10 + d) n := by
  induction digits generalizing n with
  | nil => exact Nat.le_refl n
  | cons d rest ih => exact Nat.le_trans (by omega) (ih (n * 10 + d))

theorem belowFrom?_eq {limit n : Nat} (digits : List Nat) (h : n < limit) :
    belowFrom? limit n digits =
      let m := digits.foldl (fun n d ↦ n * 10 + d) n
      if m < limit then some m else none := by
  induction digits generalizing n with
  | nil => simp [belowFrom?, h]
  | cons d rest ih =>
    unfold belowFrom?
    split
    next hd => exact ih hd
    next hd =>
      have := le_foldl rest (n * 10 + d)
      exact (if_neg (by rw [List.foldl_cons]; omega)).symm

theorem below?_eq {limit : Nat} (digits : List Nat) (h : 0 < limit) :
    below? limit digits = if value digits < limit then some (value digits) else none :=
  belowFrom?_eq digits h

end Dpll.Decimal
