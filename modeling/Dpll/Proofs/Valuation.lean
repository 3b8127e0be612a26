import Dpll.Semantics
import Mathlib.Tactic.Common

namespace Dpll

namespace Valuation

variable {v w : Valuation} {a x : Atom} {b : Bool} {l m : Literal} {M : Model}

theorem contains_iff : v.contains a ↔ a ≠ 0 ∧ a < v.size := by
  simp [contains]

theorem contains_iff_le_atomCount : v.contains a ↔ a ≠ 0 ∧ a ≤ v.atomCount := by
  have h (a n : Nat) : a ≠ 0 ∧ a < n ↔ a ≠ 0 ∧ a ≤ n - 1 := by omega
  exact contains_iff.trans (h a v.size)

theorem assign_eq_error_iff {b : Bool} {fault : ProblemFault} :
    v.assign a b = .error fault ↔
      (a = 0 ∨ v.atomCount < a) ∧ fault = .unknownAtom a ∨
        (a ≠ 0 ∧ a ≤ v.atomCount ∧ v.value a ≠ none) ∧ fault = .alreadyAssigned a := by
  have hcontains : (a = 0 ∨ v.atomCount < a) ↔ ¬ v.contains a := by
    rw [contains_iff_le_atomCount, not_and_or, not_not, Nat.not_le]
  rw [hcontains, ← and_assoc, ← contains_iff_le_atomCount, assign]
  split
  next hc =>
    split
    next h => simp [hc, h, eq_comm]
    next h => simp [h, hc]
  next hc => simp [hc, eq_comm]

@[simp] theorem size_blank (n : Nat) : (blank n).size = n + 1 := by
  simp [blank, Nat.add_comm]

theorem value_blank (n : Nat) (a : Atom) :
    (blank n).value a = if a = 0 then some true else none := by
  cases a with
  | zero => simp [blank, value, Array.getD]
  | succ a =>
    simp only [blank, value, Array.getD_eq_getD_getElem?, Array.getElem?_append]
    split
    next h => simp at h
    next =>
      rw [Array.getElem?_replicate]
      split <;> simp

theorem value_set (v : Valuation) (a : Atom) (y : Option Bool) (x : Atom) :
    value (v.setIfInBounds a y) x = if x = a ∧ a < v.size then y else v.value x := by
  simp only [value, Array.getD_eq_getD_getElem?, Array.getElem?_setIfInBounds]
  by_cases h : a = x
  · subst h
    by_cases hs : a < v.size <;> simp [hs]
  · simp [h, Ne.symm h]

theorem lt_size_of_value (h : v.value a = some b) : a < v.size := by
  by_contra hs
  simp [value, Array.getD, hs] at h

theorem value_clear (v : Valuation) (a x : Atom) :
    (v.clear a).value x = if x = a then none else v.value x := by
  rw [clear, value_set]
  by_cases h : x = a
  · subst h
    by_cases hs : x < v.size
    · simp [hs]
    · simp [hs, value, Array.getD]
  · simp [h]

@[simp] theorem size_clear (v : Valuation) (a : Atom) : (v.clear a).size = v.size := by
  simp [clear]

theorem eq_of_value (hs : v.size = w.size) (h : ∀ a, v.value a = w.value a) : v = w := by
  apply Array.ext hs
  intro i hi hj
  have hv := h i
  simpa [value, Array.getD, hi, hj] using hv

theorem map_value_range (v : Valuation) : (List.range v.size).map v.value = v.toList := by
  apply List.ext_getElem (by simp)
  intro i hi _
  have hi : i < v.size := by simpa using hi
  simp [value, Array.getD, hi]

theorem length_filter_value (v : Valuation) :
    ((List.range v.size).filter fun a ↦ (v.value a).isSome).length + v.unvaluedCount = v.size := by
  have hs := List.length_eq_countP_add_countP Option.isSome (l := v.toList)
  have hn : v.toList.countP (fun x ↦ decide ¬ x.isSome) = v.unvaluedCount := by
    rw [unvaluedCount, ← Array.count_toList, List.count]
    apply List.countP_congr
    intro x _
    cases x <;> simp
  have hm : v.toList.countP Option.isSome =
      ((List.range v.size).filter fun a ↦ (v.value a).isSome).length := by
    rw [← map_value_range, List.countP_map, List.countP_eq_length_filter]
    rfl
  rw [← hm, ← hn, ← hs, Array.length_toList]

def make (v : Valuation) (l : Literal) : Valuation := v.setIfInBounds l.atom (some l.positive)

/-- A literal is free if its atom is one of the valuation, and has no value. -/
def Free (v : Valuation) (l : Literal) : Prop := v.contains l.atom ∧ v.value l.atom = none

theorem Free.ne_zero (h : v.Free l) : l ≠ 0 := by
  rintro rfl
  exact (contains_iff.1 h.1).1 rfl

theorem Free.negate (h : v.Free l) : v.Free l.negate := by
  simpa only [Free, Literal.atom_negate] using h

theorem Free.of_atom_eq (h : v.Free l) (ha : m.atom = l.atom) : v.Free m := by
  simpa only [Free, ha] using h

@[simp] theorem size_make (v : Valuation) (l : Literal) : (v.make l).size = v.size := by
  simp [make]

theorem contains_make : (v.make l).contains a = v.contains a := by
  simp [contains]

theorem Free.value_make (h : v.Free l) (x : Atom) :
    (v.make l).value x = if x = l.atom then some l.positive else v.value x := by
  have hs := (contains_iff.1 h.1).2
  simp [make, value_set, hs]

theorem Free.make (h : v.Free l) (hm : v.Free m) (hne : m.atom ≠ l.atom) :
    (v.make l).Free m := by
  refine ⟨contains_make.trans hm.1, ?_⟩
  rw [h.value_make, if_neg hne]
  exact hm.2

theorem assign_of_free (h : v.Free l) : v.assign l.atom l.positive = .ok (v.make l) := by
  simp [assign, h.1, h.2, Valuation.make]

theorem free_of_assign (h : v.assign a b = .ok w) :
    v.Free (.ofAtom a b) ∧ w = v.make (.ofAtom a b) := by
  unfold assign at h
  split at h
  next hc =>
    split at h
    next => cases h
    next hv =>
      cases h
      have ha := (contains_iff.1 hc).1
      refine ⟨⟨?_, ?_⟩, ?_⟩
      · rwa [Literal.atom_ofAtom]
      · rwa [Literal.atom_ofAtom]
      · rw [Valuation.make, Literal.atom_ofAtom, Literal.positive_ofAtom ha]
  next => cases h

theorem truth_eq_true_iff : v.truth l = some true ↔ v.value l.atom = some l.positive := by
  simp [truth]

theorem truth_eq_false_iff : v.truth l = some false ↔ v.value l.atom = some (!l.positive) := by
  unfold truth
  cases v.value l.atom with
  | none => simp
  | some b => cases b <;> cases l.positive <;> simp

theorem truth_eq_none_iff : v.truth l = none ↔ v.value l.atom = none := by
  simp [truth]

theorem Extended.holds (h : v.Extended M) (hl : l ≠ 0) (ht : v.truth l = some true) :
    l.Holds M := by
  have hv := truth_eq_true_iff.1 ht
  exact h _ _ (contains_iff.2 ⟨Literal.atom_ne_zero hl, lt_size_of_value hv⟩) hv

theorem Extended.not_holds (h : v.Extended M) (hl : l ≠ 0) (ht : v.truth l = some false) :
    ¬ l.Holds M := by
  have hv := truth_eq_false_iff.1 ht
  have hM := h _ _ (contains_iff.2 ⟨Literal.atom_ne_zero hl, lt_size_of_value hv⟩) hv
  simp [Literal.Holds, hM]

theorem extended_blank (n : Nat) (M : Model) : (blank n).Extended M := by
  intro a b hc hv
  rw [value_blank, if_neg (contains_iff.1 hc).1] at hv
  cases hv

theorem extended_make_iff (h : v.Free l) :
    (v.make l).Extended M ↔ v.Extended M ∧ l.Holds M := by
  constructor
  · intro hM
    constructor
    · intro a b hc hv
      refine hM a b (contains_make.trans hc) ?_
      rw [h.value_make, if_neg]
      · exact hv
      · rintro rfl
        rw [h.2] at hv
        cases hv
    · refine hM _ _ (contains_make.trans h.1) ?_
      rw [h.value_make, if_pos rfl]
  · rintro ⟨hM, hl⟩ a b hc hv
    rw [h.value_make] at hv
    split at hv
    next ha =>
      cases hv
      exact ha ▸ hl
    next => exact hM a b (contains_make.symm.trans hc) hv

theorem extended_iff_or (h : v.Free l) :
    v.Extended M ↔ (v.make l).Extended M ∨ (v.make l.negate).Extended M := by
  rw [extended_make_iff h, extended_make_iff h.negate, Literal.holds_negate h.ne_zero,
    ← and_or_left]
  exact (and_iff_left (Classical.em _)).symm

@[simp] theorem length_complete (v : Valuation) : v.complete.length = v.size := by
  rw [← Array.length_toList, complete]
  cases v.toList <;> simp

theorem complete_zero (h : 0 < v.size) : v.complete[0]? = some false := by
  rw [← Array.length_toList] at h
  rw [complete]
  split
  next hv => simp [hv] at h
  next => rfl

theorem complete_getElem? (hc : v.contains a) :
    v.complete[a]? = some ((v.value a).getD false) := by
  obtain ⟨ha, hs⟩ := contains_iff.1 hc
  obtain ⟨ys⟩ := v
  cases ys with
  | nil => simp at hs
  | cons y ys =>
    obtain ⟨i, rfl⟩ := Nat.exists_eq_succ_of_ne_zero ha
    have hi : i < ys.length := by simpa using hs
    simp [complete, value, Array.getD, hi]

theorem extended_complete (v : Valuation) : v.Extended (Model.ofList v.complete) := by
  intro a b hc hv
  rw [Model.ofList, List.getD_eq_getElem?_getD, complete_getElem? hc, hv]
  rfl

end Valuation

end Dpll
