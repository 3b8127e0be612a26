import Dpll.Proofs.Valuation

namespace Dpll.Clause

variable {v w : Valuation} {c : Clause} {l m : Literal} {M : Model}

/-- The status of a clause of which no literal is true, by its literals without a value. -/
def Status.ofUnvalued : List Literal → Status
  | [] => .conflict
  | [l] => .unit l
  | _ :: _ :: _ => .pending

def unvalued (v : Valuation) (c : Clause) : List Literal := c.filter fun l ↦ v.truth l = none

theorem mem_unvalued : l ∈ c.unvalued v ↔ l ∈ c ∧ v.truth l = none := by
  simp [unvalued]

theorem statusFrom_of_true (s : Status) (h : ∃ l ∈ c, v.truth l = some true) :
    statusFrom v s c = .satisfied := by
  induction c generalizing s with
  | nil => obtain ⟨l, hl, -⟩ := h; cases hl
  | cons m c ih =>
    unfold statusFrom
    obtain ⟨l, hl, ht⟩ := h
    rcases List.mem_cons.1 hl with rfl | hl
    · rw [ht]
    · split
      · rfl
      · exact ih _ ⟨l, hl, ht⟩
      · exact ih _ ⟨l, hl, ht⟩

theorem statusFrom_pending (h : ∀ l ∈ c, v.truth l ≠ some true) :
    statusFrom v .pending c = .pending := by
  induction c with
  | nil => rfl
  | cons m c ih =>
    have ht := ih fun l hl ↦ h l (.tail _ hl)
    unfold statusFrom
    split
    next hm => exact absurd hm (h m (.head _))
    next => exact ht
    next => exact ht

theorem statusFrom_unit (h : ∀ l ∈ c, v.truth l ≠ some true) (l : Literal) :
    statusFrom v (.unit l) c = .ofUnvalued (l :: c.unvalued v) := by
  induction c with
  | nil => rfl
  | cons m c ih =>
    have htail : ∀ l ∈ c, v.truth l ≠ some true := fun l hl ↦ h l (.tail _ hl)
    unfold statusFrom
    split
    next hm => exact absurd hm (h m (.head _))
    next hm => simpa [unvalued, hm] using ih htail
    next hm => simpa [unvalued, hm, Status.ofUnvalued, Status.widen] using statusFrom_pending htail

theorem status_of_not_true (h : ∀ l ∈ c, v.truth l ≠ some true) :
    c.status v = .ofUnvalued (c.unvalued v) := by
  unfold status
  induction c with
  | nil => rfl
  | cons m c ih =>
    have htail : ∀ l ∈ c, v.truth l ≠ some true := fun l hl ↦ h l (.tail _ hl)
    unfold statusFrom
    split
    next hm => exact absurd hm (h m (.head _))
    next hm => simpa [unvalued, hm] using ih htail
    next hm => simpa [unvalued, hm, Status.widen] using statusFrom_unit htail m

theorem status_eq_satisfied_iff :
    c.status v = .satisfied ↔ ∃ l ∈ c, v.truth l = some true := by
  refine ⟨?_, statusFrom_of_true _⟩
  intro h
  by_contra hn
  push Not at hn
  rw [status_of_not_true hn] at h
  unfold Status.ofUnvalued at h
  split at h <;> cases h

theorem not_true_of_status_ne (h : c.status v ≠ .satisfied) :
    ∀ l ∈ c, v.truth l ≠ some true := by
  intro l hl ht
  exact h (status_eq_satisfied_iff.2 ⟨l, hl, ht⟩)

theorem status_eq_conflict_iff :
    c.status v = .conflict ↔ ∀ l ∈ c, v.truth l = some false := by
  constructor
  · intro h l hl
    have hn := not_true_of_status_ne (by rw [h]; exact Status.noConfusion)
    rw [status_of_not_true hn] at h
    have hu : c.unvalued v = [] := by
      unfold Status.ofUnvalued at h
      split at h
      next hu => exact hu
      next => cases h
      next => cases h
    cases ht : v.truth l with
    | none =>
      have hm := mem_unvalued.2 ⟨hl, ht⟩
      rw [hu] at hm
      cases hm
    | some b =>
      cases b
      · rfl
      · exact absurd ht (hn l hl)
  · intro h
    have hn : ∀ l ∈ c, v.truth l ≠ some true := fun l hl ↦ by simp [h l hl]
    have hu : c.unvalued v = [] := List.filter_eq_nil_iff.2 fun l hl ↦ by simp [h l hl]
    rw [status_of_not_true hn, hu]
    rfl

theorem status_eq_unit_iff :
    c.status v = .unit l ↔ (∀ m ∈ c, v.truth m ≠ some true) ∧ c.unvalued v = [l] := by
  constructor
  · intro h
    have hn := not_true_of_status_ne (by rw [h]; exact Status.noConfusion)
    refine ⟨hn, ?_⟩
    rw [status_of_not_true hn] at h
    unfold Status.ofUnvalued at h
    split at h
    next => cases h
    next hu => cases h; exact hu
    next => cases h
  · rintro ⟨hn, hu⟩
    rw [status_of_not_true hn, hu]
    rfl

theorem Status.ofUnvalued_perm {ls ms : List Literal} (h : ls.Perm ms) :
    ofUnvalued ls = ofUnvalued ms := by
  match ls, ms, h.length_eq with
  | [], [], _ => rfl
  | [l], [m], _ =>
    have he : l = m := List.mem_singleton.1 (h.subset (.head _))
    rw [he]
  | _ :: _ :: _, _ :: _ :: _, _ => rfl

theorem status_perm {d : Clause} (h : c.Perm d) : c.status v = d.status v := by
  by_cases hc : ∃ l ∈ c, v.truth l = some true
  · have hd : ∃ l ∈ d, v.truth l = some true := by simpa only [h.mem_iff] using hc
    rw [status_eq_satisfied_iff.2 hc, status_eq_satisfied_iff.2 hd]
  · have hc' : ∀ l ∈ c, v.truth l ≠ some true := fun l hl ht ↦ hc ⟨l, hl, ht⟩
    have hd' : ∀ l ∈ d, v.truth l ≠ some true := fun l hl ↦ hc' l (h.mem_iff.2 hl)
    rw [status_of_not_true hc', status_of_not_true hd']
    exact Status.ofUnvalued_perm (h.filter _)

theorem truth_of_unit (h : c.status v = .unit l) : l ∈ c ∧ v.truth l = none := by
  have hl : l ∈ c.unvalued v := by simp [(status_eq_unit_iff.1 h).2]
  exact mem_unvalued.1 hl

theorem exists_truth_none (hs : c.status v ≠ .satisfied) (hc : c.status v ≠ .conflict) :
    ∃ l ∈ c, v.truth l = none := by
  by_contra hn
  push Not at hn
  refine hc (status_eq_conflict_iff.2 ?_)
  intro l hl
  cases ht : v.truth l with
  | none => exact absurd ht (hn l hl)
  | some b =>
    cases b
    · rfl
    · exact absurd ht (not_true_of_status_ne hs l hl)

theorem holds_of_satisfied (hM : v.Extended M) (hc : ∀ l ∈ c, l ≠ 0)
    (h : c.status v = .satisfied) : c.Holds M := by
  obtain ⟨l, hl, ht⟩ := status_eq_satisfied_iff.1 h
  exact ⟨l, hl, hM.holds (hc l hl) ht⟩

theorem not_holds_of_conflict (hM : v.Extended M) (hc : ∀ l ∈ c, l ≠ 0)
    (h : c.status v = .conflict) : ¬ c.Holds M := by
  rintro ⟨l, hl, hh⟩
  exact hM.not_holds (hc l hl) (status_eq_conflict_iff.1 h l hl) hh

theorem holds_of_unit (hM : v.Extended M) (hc : ∀ l ∈ c, l ≠ 0) (h : c.status v = .unit l)
    (hh : c.Holds M) : l.Holds M := by
  obtain ⟨m, hm, hhm⟩ := hh
  obtain ⟨hn, hu⟩ := status_eq_unit_iff.1 h
  cases ht : v.truth m with
  | none =>
    have hmem := mem_unvalued.2 ⟨hm, ht⟩
    rw [hu, List.mem_singleton] at hmem
    exact hmem ▸ hhm
  | some b =>
    cases b
    · exact absurd hhm (hM.not_holds (hc m hm) ht)
    · exact absurd ht (hn m hm)

end Dpll.Clause
