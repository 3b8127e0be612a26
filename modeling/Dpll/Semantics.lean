import Dpll.Clause

namespace Dpll

abbrev Model := Atom → Bool

def Literal.Holds (M : Model) (l : Literal) : Prop := M l.atom = l.positive

def Clause.Holds (M : Model) (c : Clause) : Prop := ∃ l ∈ c, Literal.Holds M l

def Formula.Holds (M : Model) (f : Formula) : Prop := ∀ c ∈ f, Clause.Holds M c

def Formula.Satisfiable (f : Formula) : Prop := ∃ M, Formula.Holds M f

def Valuation.Extended (v : Valuation) (M : Model) : Prop :=
  ∀ a b, v.contains a → v.value a = some b → M a = b

def Formula.SatisfiableUnder (v : Valuation) (f : Formula) : Prop :=
  ∃ M, v.Extended M ∧ Formula.Holds M f

instance (M : Model) (l : Literal) : Decidable (Literal.Holds M l) :=
  inferInstanceAs (Decidable (M l.atom = l.positive))

instance (M : Model) (c : Clause) : Decidable (Clause.Holds M c) :=
  inferInstanceAs (Decidable (∃ l ∈ c, Literal.Holds M l))

instance (M : Model) (f : Formula) : Decidable (Formula.Holds M f) :=
  inferInstanceAs (Decidable (∀ c ∈ f, Clause.Holds M c))

/-- The model given by the values at the indices of a list, and by `false` beyond it. -/
def Model.ofList (bs : List Bool) : Model := fun a ↦ bs.getD a false

variable {M : Model} {c : Clause} {f : Formula} {l : Literal}

@[simp] theorem Clause.not_holds_nil : ¬ Clause.Holds M [] := by
  simp [Clause.Holds]

@[simp] theorem Clause.holds_cons :
    Clause.Holds M (l :: c) ↔ Literal.Holds M l ∨ Clause.Holds M c := by
  simp [Clause.Holds]

@[simp] theorem Formula.holds_nil : Formula.Holds M [] := by
  simp [Formula.Holds]

@[simp] theorem Formula.holds_cons :
    Formula.Holds M (c :: f) ↔ Clause.Holds M c ∧ Formula.Holds M f := by
  simp [Formula.Holds]

theorem Literal.holds_negate (hl : l ≠ 0) : l.negate.Holds M ↔ ¬ l.Holds M := by
  simp only [Literal.Holds, Literal.atom_negate, Literal.positive_negate hl]
  cases M l.atom <;> cases l.positive <;> simp

end Dpll
