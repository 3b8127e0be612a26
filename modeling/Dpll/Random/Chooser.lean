namespace Dpll

/-- Choices among the elements of a list by what is left of a source, of which no more is known than
that some element is chosen, unless there is none. -/
class Chooser (ρ : Type) where
  choose {α : Type} : List α → ρ → Option α × ρ
  choose_nil {α : Type} (r : ρ) : (choose ([] : List α) r).1 = none
  exists_of_choose {α : Type} {xs : List α} (h : xs ≠ []) (r : ρ) :
    ∃ x ∈ xs, (choose xs r).1 = some x

end Dpll
