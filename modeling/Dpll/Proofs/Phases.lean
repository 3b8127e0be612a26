import Dpll.Proofs.Query

namespace Dpll

namespace Phase

variable {x y z : Phase}

/-- The phase is the same, or that which comes of it by an assignment. -/
def Onward (x y : Phase) : Prop := y = x ∨ y = x.afterAssignment

theorem afterAssignment_ne_input (x : Phase) : x.afterAssignment ≠ .input := by
  cases x <;> exact Phase.noConfusion

theorem afterAssignment_of_ne (h : x ≠ .input) : x.afterAssignment = x := by
  cases x with
  | input => exact absurd rfl h
  | solving | satisfiable | unsatisfiable => rfl

theorem Onward.refl (x : Phase) : x.Onward x := .inl rfl

theorem Onward.eq (h : x.Onward y) (hx : x ≠ .input) : y = x := by
  rcases h with rfl | rfl
  · rfl
  · exact afterAssignment_of_ne hx

theorem Onward.ne_input (h : x.Onward y) (hx : x ≠ .input) : y ≠ .input := by
  rwa [h.eq hx]

theorem Onward.trans (h : x.Onward y) (h' : y.Onward z) : x.Onward z := by
  rcases h with rfl | rfl
  · exact h'
  · exact .inr (h'.eq (afterAssignment_ne_input x))

end Phase

namespace Problem

variable {ρ : Type} {p q r : Problem ρ} {l : Literal}

/-- As long as a problem stays in the input phase, nothing is put on its trail. -/
structure Paced (p q : Problem ρ) : Prop where
  phase : p.phase.Onward q.phase
  trail : q.phase = .input → q.trail = p.trail

theorem Paced.refl (p : Problem ρ) : p.Paced p := ⟨.refl _, fun _ ↦ rfl⟩

theorem Paced.trans (h : p.Paced q) (h' : q.Paced r) : p.Paced r where
  phase := h.phase.trans h'.phase
  trail hr := by
    have hq : q.phase = .input := by
      by_contra hq
      exact h'.phase.ne_input hq hr
    rw [h'.trail hr, h.trail hq]

theorem paced_put (p : Problem ρ) (l : Literal) (decision : Bool) :
    p.Paced (p.put l decision) :=
  ⟨.inr rfl, fun h ↦ absurd h (Phase.afterAssignment_ne_input p.phase)⟩

theorem Examined.paced (h : p.Examined q) : p.Paced q := by
  obtain ⟨store, -, rfl⟩ := h
  exact ⟨.refl _, fun _ ↦ rfl⟩

end Problem

end Dpll
