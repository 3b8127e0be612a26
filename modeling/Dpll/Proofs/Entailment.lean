import Dpll.Proofs.Fixpoint
import Dpll.Proofs.Preprocessing

namespace Dpll

namespace Valuation

variable {v w : Valuation} {l m : Literal} {M : Model}

def filledBy (v : Valuation) (M : Model) : Model := fun a ↦ (v.value a).getD (M a)

theorem extended_filledBy (v : Valuation) (M : Model) : v.Extended (v.filledBy M) := by
  intro a b _ hv
  rw [filledBy, hv, Option.getD_some]

theorem holds_filledBy (M : Model) (ht : v.truth l = none) : l.Holds (v.filledBy M) ↔ l.Holds M := by
  rw [Literal.Holds, Literal.Holds, filledBy, truth_eq_none_iff.1 ht, Option.getD_none]

theorem exists_extended_holds (ht : v.truth l = none) : ∃ M, v.Extended M ∧ l.Holds M :=
  ⟨v.filledBy fun _ ↦ l.positive, extended_filledBy v _, (holds_filledBy _ ht).2 rfl⟩

theorem exists_extended_not_holds (ht : v.truth l = none) : ∃ M, v.Extended M ∧ ¬ l.Holds M := by
  refine ⟨v.filledBy fun _ ↦ !l.positive, extended_filledBy v _, ?_⟩
  rw [holds_filledBy _ ht]
  simp [Literal.Holds]

theorem exists_extended_holds_not_holds (hl : v.truth l = none) (hm : v.truth m = none)
    (hne : l ≠ m) : ∃ M, v.Extended M ∧ l.Holds M ∧ ¬ m.Holds M := by
  let M : Model := fun a ↦ if a = l.atom then l.positive else !m.positive
  refine ⟨v.filledBy M, extended_filledBy v M, (holds_filledBy M hl).2 (if_pos rfl), ?_⟩
  rw [holds_filledBy M hm]
  by_cases ha : m.atom = l.atom
  · have hp : l.positive ≠ m.positive := fun hp ↦ hne (Literal.eq_of_atom_eq ha.symm hp)
    simpa [Literal.Holds, M, ha] using hp
  · simp [Literal.Holds, M, ha]

def Within (v w : Valuation) : Prop :=
  ∀ a b, v.contains a → v.value a = some b → w.value a = some b

theorem Within.extended (h : v.Within w) (hM : w.Extended M) : v.Extended M := by
  intro a b hc hv
  have hw := h a b hc hv
  exact hM a b (contains_iff.2 ⟨(contains_iff.1 hc).1, lt_size_of_value hw⟩) hw

end Valuation

namespace Clause

variable {v w : Valuation} {c : Clause} {l : Literal} {s t : Status}

/-- What a status says of a clause, by the models which have every value of the valuation. -/
def Status.Means (v : Valuation) (c : Clause) : Status → Prop
  | .satisfied => ∀ M, v.Extended M → c.Holds M
  | .conflict => ∀ M, v.Extended M → ¬ c.Holds M
  | .unit l => v.truth l = none ∧ ∀ M, v.Extended M → (c.Holds M ↔ l.Holds M)
  | .pending => ¬ (∀ M, v.Extended M → c.Holds M) ∧ ¬ (∀ M, v.Extended M → ¬ c.Holds M) ∧
      ∀ l, ¬ (v.truth l = none ∧ ∀ M, v.Extended M → (c.Holds M ↔ l.Holds M))

/-- No two statuses say the same of a clause. -/
theorem Status.Means.eq (hs : s.Means v c) (ht : t.Means v c) : s = t := by
  -- What is left to the models has one in which it is true, and one in which it is false.
  have hsc (hs : Means v c .satisfied) (ht : Means v c .conflict) : False :=
    ht _ (v.extended_filledBy fun _ ↦ true) (hs _ (v.extended_filledBy fun _ ↦ true))
  have hsu {l : Literal} (hs : Means v c .satisfied) (ht : Means v c (.unit l)) : False := by
    obtain ⟨M, hM, hl⟩ := Valuation.exists_extended_not_holds ht.1
    exact hl ((ht.2 M hM).1 (hs M hM))
  have hcu {l : Literal} (hs : Means v c .conflict) (ht : Means v c (.unit l)) : False := by
    obtain ⟨M, hM, hl⟩ := Valuation.exists_extended_holds ht.1
    exact hs M hM ((ht.2 M hM).2 hl)
  have huu {l m : Literal} (hs : Means v c (.unit l)) (ht : Means v c (.unit m)) : l = m := by
    by_contra hne
    obtain ⟨M, hM, hl, hm⟩ := Valuation.exists_extended_holds_not_holds hs.1 ht.1 hne
    exact hm ((ht.2 M hM).1 ((hs.2 M hM).2 hl))
  cases s with
  | satisfied =>
    cases t with
    | satisfied => rfl
    | conflict => exact (hsc hs ht).elim
    | unit l => exact (hsu hs ht).elim
    | pending => exact absurd hs ht.1
  | conflict =>
    cases t with
    | satisfied => exact (hsc ht hs).elim
    | conflict => rfl
    | unit l => exact (hcu hs ht).elim
    | pending => exact absurd hs ht.2.1
  | unit l =>
    cases t with
    | satisfied => exact (hsu ht hs).elim
    | conflict => exact (hcu ht hs).elim
    | unit m => rw [huu hs ht]
    | pending => exact absurd hs (ht.2.2 l)
  | pending =>
    cases t with
    | satisfied => exact absurd ht hs.1
    | conflict => exact absurd ht hs.2.1
    | unit l => exact absurd ht (hs.2.2 l)
    | pending => rfl

theorem not_clashes (hz : ∀ l ∈ c, l ≠ 0) (hn : (c.map Literal.atom).Nodup) : ¬ c.Clashes := by
  rintro ⟨l, hl, hl'⟩
  have he := List.inj_on_of_nodup_map hn hl hl' (Literal.atom_negate l).symm
  exact Literal.ne_negate (hz l hl) he

theorem exists_not_holds (hz : ∀ l ∈ c, l ≠ 0) (hn : (c.map Literal.atom).Nodup)
    (h : c.status v ≠ .satisfied) : ∃ M, v.Extended M ∧ ¬ c.Holds M := by
  have hM := v.extended_filledBy c.refuting
  refine ⟨_, hM, ?_⟩
  rintro ⟨l, hl, hh⟩
  cases ht : v.truth l with
  | none =>
    have hh := (Valuation.holds_filledBy c.refuting ht).1 hh
    exact not_holds_refuting hz (not_clashes hz hn) ⟨l, hl, hh⟩
  | some b =>
    cases b
    · exact hM.not_holds (hz l hl) ht hh
    · exact not_true_of_status_ne h l hl ht

theorem exists_holds (hz : ∀ l ∈ c, l ≠ 0) (h : c.status v ≠ .conflict) :
    ∃ M, v.Extended M ∧ c.Holds M := by
  by_cases hs : c.status v = .satisfied
  · have hM := v.extended_filledBy fun _ ↦ true
    exact ⟨_, hM, holds_of_satisfied hM hz hs⟩
  · obtain ⟨l, hl, ht⟩ := exists_truth_none hs h
    obtain ⟨M, hM, hh⟩ := Valuation.exists_extended_holds ht
    exact ⟨M, hM, l, hl, hh⟩

theorem status_eq_unit_of_iff (hn : c.Nodup) (hs : c.status v ≠ .satisfied)
    (hc : c.status v ≠ .conflict) (ht : v.truth l = none)
    (h : ∀ M, v.Extended M → (c.Holds M ↔ l.Holds M)) : c.status v = .unit l := by
  have heq {m : Literal} (hm : m ∈ c) (hmt : v.truth m = none) : m = l := by
    by_contra hne
    obtain ⟨M, hM, hhm, hhl⟩ := Valuation.exists_extended_holds_not_holds hmt ht hne
    exact hhl ((h M hM).1 ⟨m, hm, hhm⟩)
  obtain ⟨m, hm, hmt⟩ := exists_truth_none hs hc
  obtain rfl := heq hm hmt
  refine status_eq_unit_of_nodup hn hm ht fun k hk hne ↦ ?_
  cases hkt : v.truth k with
  | none => exact absurd (heq hk hkt) hne
  | some b =>
    cases b
    · rfl
    · exact absurd hkt (not_true_of_status_ne hs k hk)

theorem means_status (hz : ∀ l ∈ c, l ≠ 0) (hn : (c.map Literal.atom).Nodup) :
    (c.status v).Means v c := by
  cases hs : c.status v with
  | satisfied => exact fun M hM ↦ holds_of_satisfied hM hz hs
  | conflict => exact fun M hM ↦ not_holds_of_conflict hM hz hs
  | unit l =>
    obtain ⟨hl, ht⟩ := truth_of_unit hs
    exact ⟨ht, fun M hM ↦ ⟨holds_of_unit hM hz hs, fun hh ↦ ⟨l, hl, hh⟩⟩⟩
  | pending =>
    have hsat : c.status v ≠ .satisfied := by rw [hs]; exact Status.noConfusion
    have hcon : c.status v ≠ .conflict := by rw [hs]; exact Status.noConfusion
    refine ⟨?_, ?_, ?_⟩
    · intro h
      obtain ⟨M, hM, hh⟩ := exists_not_holds hz hn hsat
      exact hh (h M hM)
    · intro h
      obtain ⟨M, hM, hh⟩ := exists_holds hz hcon
      exact h M hM hh
    · rintro l ⟨ht, h⟩
      have hu := status_eq_unit_of_iff (hn.of_map _) hsat hcon ht h
      cases hs.symm.trans hu

theorem status_eq_iff_means (hz : ∀ l ∈ c, l ≠ 0) (hn : (c.map Literal.atom).Nodup) :
    c.status v = s ↔ s.Means v c :=
  ⟨fun h ↦ h ▸ means_status hz hn, (means_status hz hn).eq⟩

/-- The status of a clause in which no atom occurs twice says just what the clause comes to, in the models
which have every value of the valuation. With more values a satisfied clause stays satisfied, one in
conflict stays so, and a unit clause goes on to be one of the same literal, unless it is settled. -/
theorem status_exact (v : Valuation) (c : Clause) (hz : ∀ l ∈ c, l ≠ 0)
    (hn : (c.map Literal.atom).Nodup) :
    (∀ s, c.status v = s ↔ s.Means v c) ∧
    ∀ w, v.Within w →
      (c.status v = .satisfied → c.status w = .satisfied) ∧
      (c.status v = .conflict → c.status w = .conflict) ∧
      ∀ l, c.status v = .unit l →
        c.status w = .unit l ∨ c.status w = .satisfied ∨ c.status w = .conflict := by
  have hmeans {v : Valuation} {s : Status} : c.status v = s ↔ s.Means v c :=
    status_eq_iff_means hz hn
  refine ⟨fun s ↦ hmeans, fun w hw ↦ ⟨?_, ?_, ?_⟩⟩
  · intro h
    exact hmeans.2 fun M hM ↦ hmeans.1 h M (hw.extended hM)
  · intro h
    exact hmeans.2 fun M hM ↦ hmeans.1 h M (hw.extended hM)
  · intro l h
    have hl := hz l (truth_of_unit h).1
    have hiff : ∀ M, w.Extended M → (c.Holds M ↔ l.Holds M) :=
      fun M hM ↦ (hmeans.1 h).2 M (hw.extended hM)
    cases ht : w.truth l with
    | none => exact .inl (hmeans.2 ⟨ht, hiff⟩)
    | some b =>
      cases b
      · exact .inr (.inr (hmeans.2 fun M hM hh ↦ hM.not_holds hl ht ((hiff M hM).1 hh)))
      · exact .inr (.inl (hmeans.2 fun M hM ↦ (hiff M hM).2 (hM.holds hl ht)))

theorem status_exact_two :
    let v : Valuation := #[some true, some false]
    let c : Clause := [1, -2]
    ((∀ l ∈ c, l ≠ 0) ∧ (c.map Literal.atom).Nodup ∧ v.Within #[none, some false, some true]) ∧
      c.status v = .unit (-2) ∧ (∀ M, v.Extended M → (c.Holds M ↔ Literal.Holds M (-2))) ∧
      (c.status #[none, some false, some true] = .unit (-2) ∨
        c.status #[none, some false, some true] = .satisfied ∨
        c.status #[none, some false, some true] = .conflict) := by
  intro v c
  have hz : ∀ l ∈ c, l ≠ 0 := by decide
  have hn : (c.map Literal.atom).Nodup := by decide
  have hw : v.Within #[none, some false, some true] := by
    intro a b hc hv
    obtain ⟨ha, hs⟩ := Valuation.contains_iff.1 hc
    obtain rfl : a = 1 := Nat.le_antisymm (Nat.le_of_lt_succ hs) (Nat.pos_of_ne_zero ha)
    exact hv
  have hu : c.status v = .unit (-2) := by decide
  obtain ⟨hmeans, hmore⟩ := status_exact v c hz hn
  exact ⟨⟨hz, hn, hw⟩, hu, ((hmeans _).1 hu).2, (hmore _ hw).2.2 _ hu⟩

-- Of a repeated literal each occurrence counts, though the clause comes down to it.
example : status #[] [1, 1] = .pending := by decide

end Clause

end Dpll
