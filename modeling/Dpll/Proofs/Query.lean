import Dpll.Problem.Query
import Dpll.Proofs.Coherence
import Dpll.Proofs.Purity

namespace Dpll

def Clause.Status.literal? : Clause.Status → Option Literal
  | .unit l => some l
  | _ => none

theorem Clause.Status.literal?_eq_some_iff {s : Clause.Status} {l : Literal} :
    s.literal? = some l ↔ s = .unit l := by
  cases s <;> simp [literal?]

namespace Problem

variable {ρ : Type} {p q r : Problem ρ} {c : Clause} {l : Literal}

/-- What a query may do to a problem: nothing but to add records to a cache. -/
def Examined (p q : Problem ρ) : Prop :=
  ∃ store, ClauseStore.Examined p.trail.literals.toList p.store store ∧ q = { p with store }

theorem Examined.coherent (h : p.Examined q) (hp : p.Coherent) : q.Coherent := by
  obtain ⟨store, hs, rfl⟩ := h
  exact hp.withStore hs

theorem Examined.keeps (h : p.Examined q) : p.Keeps q := by
  obtain ⟨store, hs, rfl⟩ := h
  exact ⟨rfl, hs.clauses, hs.caching, rfl, rfl⟩

theorem Examined.formula (h : p.Examined q) : q.formula = p.formula := h.keeps.formula

theorem Examined.valuation (h : p.Examined q) : q.valuation = p.valuation := by
  obtain ⟨store, -, rfl⟩ := h
  rfl

theorem Examined.free (h : p.Examined q) (hl : p.valuation.Free l) : q.valuation.Free l := by
  rwa [h.valuation]

theorem Examined.trail (h : p.Examined q) : q.trail = p.trail := by
  obtain ⟨store, -, rfl⟩ := h
  rfl

theorem Examined.source (h : p.Examined q) : q.source = p.source := by
  obtain ⟨store, -, rfl⟩ := h
  rfl

theorem Coherent.examined (h : p.Coherent) : p.Examined p := ⟨p.store, .refl h.store, rfl⟩

theorem Examined.trans (h : p.Examined q) (h' : q.Examined r) : p.Examined r := by
  obtain ⟨store, hs, rfl⟩ := h
  obtain ⟨store', hs', rfl⟩ := h'
  exact ⟨store', hs.trans hs', rfl⟩

theorem latest_eq (p : Problem ρ) : p.latest = p.trail.literals.toList.length - 1 := by
  simp [latest, Trail.depth]

theorem scan_spec {α : Type} {f : Clause → Clause.Status → Option α}
    (hf : ∀ c, f c .satisfied = none) (h : p.Coherent) :
    (p.scan f).1 = p.formula.findSome? (fun c ↦ f c (c.status p.valuation)) ∧
    p.Examined (p.scan f).2 := by
  have hs := ClauseStore.scan_spec hf h.store h.tracked
  rw [← latest_eq] at hs
  exact ⟨hs.1, _, hs.2, rfl⟩

theorem isSatisfied_spec (h : p.Coherent) :
    p.isSatisfied.1 = decide (∀ c ∈ p.formula, c.status p.valuation = .satisfied) ∧
    p.Examined p.isSatisfied.2 := by
  obtain ⟨h₁, h₂⟩ := scan_spec (f := fun _ status ↦ if status = .satisfied then none else some ())
    (fun _ ↦ if_pos rfl) h
  refine ⟨?_, h₂⟩
  unfold isSatisfied
  rw [Bool.eq_iff_iff, decide_eq_true_iff]
  simp [h₁, List.findSome?_eq_none_iff]

theorem hasConflict_spec (h : p.Coherent) :
    p.hasConflict.1 = decide (∃ c ∈ p.formula, c.status p.valuation = .conflict) ∧
    p.Examined p.hasConflict.2 := by
  obtain ⟨h₁, h₂⟩ := scan_spec (f := fun _ status ↦ if status = .conflict then some () else none)
    (fun _ ↦ if_neg Clause.Status.noConfusion) h
  refine ⟨?_, h₂⟩
  unfold hasConflict
  rw [Bool.eq_iff_iff, decide_eq_true_iff]
  simp [h₁, List.findSome?_isSome_iff]

theorem unitLiteral_spec (h : p.Coherent) :
    p.unitLiteral.1 = p.formula.findSome? (fun c ↦ (c.status p.valuation).literal?) ∧
    p.Examined p.unitLiteral.2 := by
  refine scan_spec (f := fun _ status ↦ status.literal?) (fun _ ↦ rfl) h

def unsettled (p : Problem ρ) : Formula := p.formula.filter (·.status p.valuation ≠ .satisfied)

/-- The literals without a value in the clauses which are not satisfied. -/
def loose (p : Problem ρ) : List Literal :=
  p.unsettled.flatten.filter fun l ↦ (p.valuation.value l.atom).isNone

theorem pureLiterals_spec (h : p.Coherent) :
    p.pureLiterals.1 = Dpll.pureLiterals p.atomCount p.loose ∧ p.Examined p.pureLiterals.2 := by
  have hs := ClauseStore.unsettled_spec h.store h.tracked
  rw [← latest_eq] at hs
  refine ⟨?_, _, hs.2, rfl⟩
  change Dpll.pureLiterals p.atomCount
    (List.filter _ (p.store.unsettled p.valuation p.latest).1.flatten) = _
  rw [hs.1]
  rfl

theorem mem_loose_iff : l ∈ p.loose ↔
    ∃ c ∈ p.formula, c.status p.valuation ≠ .satisfied ∧ l ∈ c ∧ p.valuation.truth l = none := by
  simp only [loose, unsettled, List.mem_filter, List.mem_flatten, decide_eq_true_eq,
    Option.isNone_iff_eq_none, Valuation.truth_eq_none_iff]
  constructor
  · rintro ⟨⟨c, ⟨hc, hs⟩, hl⟩, ht⟩
    exact ⟨c, hc, hs, hl, ht⟩
  · rintro ⟨c, hc, hs, hl, ht⟩
    exact ⟨⟨c, ⟨hc, hs⟩, hl⟩, ht⟩

theorem unit_of_unitLiteral (h : p.Coherent) (hu : p.unitLiteral.1 = some l) :
    ∃ c ∈ p.formula, c.status p.valuation = .unit l := by
  rw [(unitLiteral_spec h).1] at hu
  obtain ⟨c, hc, hl⟩ := List.exists_of_findSome?_eq_some hu
  exact ⟨c, hc, Clause.Status.literal?_eq_some_iff.1 hl⟩

theorem unitLiteral_eq_none_iff (h : p.Coherent) :
    p.unitLiteral.1 = none ↔ ∀ c ∈ p.formula, ∀ l, c.status p.valuation ≠ .unit l := by
  rw [(unitLiteral_spec h).1, List.findSome?_eq_none_iff]
  apply forall₂_congr
  intro c _
  rw [Option.eq_none_iff_forall_ne_some]
  exact forall_congr' fun l ↦ not_congr Clause.Status.literal?_eq_some_iff

theorem free_of_unitLiteral (h : p.Coherent) (hu : p.unitLiteral.1 = some l) :
    p.valuation.Free l := by
  obtain ⟨c, hc, hs⟩ := unit_of_unitLiteral h hu
  obtain ⟨hl, ht⟩ := Clause.truth_of_unit hs
  exact h.free hc hl ht

theorem mem_pureLiterals_iff (h : p.Coherent) :
    l ∈ p.pureLiterals.1 ↔ l ∈ p.loose ∧ l.negate ∉ p.loose := by
  have hne : ∀ l ∈ p.loose, l ≠ 0 := by
    intro l hl
    obtain ⟨c, hc, -, hm, -⟩ := mem_loose_iff.1 hl
    exact h.ne_zero hc l hm
  rw [(pureLiterals_spec h).1, Dpll.mem_pureLiterals_iff hne]
  refine and_iff_right_of_imp fun ⟨hl, _⟩ ↦ ?_
  obtain ⟨c, hc, -, hm, -⟩ := mem_loose_iff.1 hl
  exact (h.normal c hc).atom_le l hm

theorem free_of_mem_pureLiterals (h : p.Coherent) (hl : l ∈ p.pureLiterals.1) :
    p.valuation.Free l := by
  obtain ⟨c, hc, -, hm, ht⟩ := mem_loose_iff.1 ((mem_pureLiterals_iff h).1 hl).1
  exact h.free hc hm ht

theorem nodup_pureLiterals (h : p.Coherent) :
    (p.pureLiterals.1.map Literal.atom).Nodup := by
  rw [(pureLiterals_spec h).1]
  exact List.pairwise_map.2 ((pairwise_pureLiterals _ _).imp Nat.ne_of_lt)

theorem Examined.isSatisfied (h : p.Examined q) (hp : p.Coherent) :
    q.isSatisfied.1 = p.isSatisfied.1 := by
  rw [(isSatisfied_spec (h.coherent hp)).1, (isSatisfied_spec hp).1, h.formula, h.valuation]

theorem Examined.hasConflict (h : p.Examined q) (hp : p.Coherent) :
    q.hasConflict.1 = p.hasConflict.1 := by
  rw [(hasConflict_spec (h.coherent hp)).1, (hasConflict_spec hp).1, h.formula, h.valuation]

theorem Examined.unitLiteral (h : p.Examined q) (hp : p.Coherent) :
    q.unitLiteral.1 = p.unitLiteral.1 := by
  rw [(unitLiteral_spec (h.coherent hp)).1, (unitLiteral_spec hp).1, h.formula, h.valuation]

theorem Examined.pureLiterals (h : p.Examined q) (hp : p.Coherent) :
    q.pureLiterals.1 = p.pureLiterals.1 := by
  have hl : q.loose = p.loose := by rw [loose, loose, unsettled, unsettled, h.formula, h.valuation]
  have hn : q.atomCount = p.atomCount := congrArg Valuation.atomCount h.valuation
  rw [(pureLiterals_spec (h.coherent hp)).1, (pureLiterals_spec hp).1, hl, hn]

end Problem

end Dpll
