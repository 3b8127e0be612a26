import Dpll.Proofs.Phases
import Dpll.Simplification

namespace Dpll.Problem

variable {ρ : Type} {p q r p₁ p₂ : Problem ρ} {l : Literal} {ls : List Literal} {n k : Nat}
  {M : Model}

/-- What comes of a problem by examining clauses, and by making literals true on the latest
level. -/
structure Continues (p q : Problem ρ) : Prop where
  coherent : q.Coherent
  keeps : p.Keeps q
  grows : p.trail.Grows q.trail
  source : q.source = p.source
  paced : p.Paced q

theorem Coherent.continues (h : p.Coherent) : p.Continues p :=
  ⟨h, .refl p, .refl p.trail, rfl, .refl p⟩

theorem Continues.trans (h : p.Continues q) (h' : q.Continues r) : p.Continues r :=
  ⟨h'.coherent, h.keeps.trans h'.keeps, h.grows.trans h'.grows, h'.source.trans h.source,
    h.paced.trans h'.paced⟩

theorem Continues.formula (h : p.Continues q) : q.formula = p.formula := h.keeps.formula

theorem Examined.continues (h : p.Examined q) (hp : p.Coherent) : p.Continues q :=
  ⟨h.coherent hp, h.keeps, h.trail ▸ .refl p.trail, h.source, h.paced⟩

theorem Coherent.continues_put (h : p.Coherent) (hl : p.valuation.Free l) :
    p.Continues (p.put l false) :=
  ⟨h.put hl false, keeps_put p l false, Trail.grows_put p.trail l, rfl, paced_put p l false⟩

def putAll (p : Problem ρ) (ls : List Literal) : Problem ρ := ls.foldl (·.put · false) p

theorem assertAll_of_free (hf : ∀ l ∈ ls, p.valuation.Free l)
    (hn : (ls.map Literal.atom).Nodup) : p.assertAll ls = .ok (p.putAll ls) := by
  induction ls generalizing p with
  | nil => rfl
  | cons l ls ih =>
    obtain ⟨hl, hn⟩ := List.nodup_cons.1 hn
    have hfl := hf l (.head _)
    unfold assertAll
    rw [assert_of_free hfl]
    refine ih (fun m hm ↦ hfl.make (hf m (.tail _ hm)) fun ha ↦ hl ?_) hn
    exact ha ▸ List.mem_map_of_mem hm

theorem Coherent.continues_putAll (h : p.Coherent) (hf : ∀ l ∈ ls, p.valuation.Free l)
    (hn : (ls.map Literal.atom).Nodup) :
    p.Continues (p.putAll ls) ∧
      ∀ M, (p.putAll ls).valuation.Extended M ↔ p.valuation.Extended M ∧ ∀ l ∈ ls, l.Holds M := by
  induction ls generalizing p with
  | nil => exact ⟨h.continues, fun M ↦ (and_iff_left (by simp)).symm⟩
  | cons l ls ih =>
    obtain ⟨hl, hn⟩ := List.nodup_cons.1 hn
    have hfl := hf l (.head _)
    have hput := h.continues_put hfl
    obtain ⟨hc, hM⟩ := ih hput.coherent
      (fun m hm ↦ hfl.make (hf m (.tail _ hm)) fun ha ↦ hl (ha ▸ List.mem_map_of_mem hm)) hn
    refine ⟨hput.trans hc, ?_⟩
    intro M
    rw [List.forall_mem_cons, ← and_assoc, ← Valuation.extended_make_iff hfl]
    exact hM M

def afterUnit (p : Problem ρ) (l : Literal) : Problem ρ := p.unitLiteral.2.put l false

def afterPure (p : Problem ρ) : Problem ρ := p.pureLiterals.2.putAll p.pureLiterals.1

theorem Coherent.continues_afterUnit (h : p.Coherent) (hu : p.unitLiteral.1 = some l) :
    p.Continues (p.afterUnit l) := by
  have he := (unitLiteral_spec h).2
  have hf := he.free (free_of_unitLiteral h hu)
  exact (he.continues h).trans ((he.coherent h).continues_put hf)

theorem extended_afterUnit (h : p.Coherent) (hu : p.unitLiteral.1 = some l)
    (hM : p.formula.Holds M) : (p.afterUnit l).valuation.Extended M ↔ p.valuation.Extended M := by
  have he := (unitLiteral_spec h).2
  have hf := he.free (free_of_unitLiteral h hu)
  refine (Valuation.extended_make_iff hf).trans ?_
  rw [he.valuation]
  apply and_iff_left_of_imp
  intro hv
  obtain ⟨c, hc, hs⟩ := unit_of_unitLiteral h hu
  exact Clause.holds_of_unit hv (h.ne_zero hc) hs (hM c hc)

theorem Coherent.continues_afterPure (h : p.Coherent) : p.Continues p.afterPure := by
  have he := (pureLiterals_spec h).2
  have hf := fun l hl ↦ he.free (free_of_mem_pureLiterals (l := l) h hl)
  exact (he.continues h).trans ((he.coherent h).continues_putAll hf (nodup_pureLiterals h)).1

theorem extended_afterPure (h : p.Coherent) :
    p.afterPure.valuation.Extended M ↔
      p.valuation.Extended M ∧ ∀ l ∈ p.pureLiterals.1, l.Holds M := by
  have he := (pureLiterals_spec h).2
  have hf := fun l hl ↦ he.free (free_of_mem_pureLiterals (l := l) h hl)
  rw [← he.valuation]
  exact ((he.coherent h).continues_putAll hf (nodup_pureLiterals h)).2 M

theorem holds_makeAll_pureLiterals (h : p.Coherent) (hv : p.valuation.Extended M)
    (hM : p.formula.Holds M) :
    p.afterPure.valuation.Extended (M.makeAll p.pureLiterals.1) ∧
      p.formula.Holds (M.makeAll p.pureLiterals.1) := by
  have hpure {l : Literal} (hl : l ∈ p.pureLiterals.1) := (mem_pureLiterals_iff h).1 hl
  have hv' : p.valuation.Extended (M.makeAll p.pureLiterals.1) :=
    hv.makeAll fun l hl ↦ free_of_mem_pureLiterals h hl
  refine ⟨(extended_afterPure h).2 ⟨hv', ?_⟩, ?_⟩
  · intro l hl
    apply Model.holds_makeAll (free_of_mem_pureLiterals h hl).ne_zero hl
    intro hn
    exact (hpure hl).2 (hpure hn).1
  · intro c hc
    by_cases hs : c.status p.valuation = .satisfied
    · exact Clause.holds_of_satisfied hv' (h.ne_zero hc) hs
    · refine Clause.holds_makeAll (h.ne_zero hc) ?_ (hM c hc)
      intro l hl hn
      -- the negation of a pure literal would be loose as well
      have ht : p.valuation.truth l = none := by
        have hf := (free_of_mem_pureLiterals h hn).2
        rwa [Literal.atom_negate, ← Valuation.truth_eq_none_iff] at hf
      refine (hpure hn).2 (mem_loose_iff.2 ⟨c, hc, hs, ?_, ?_⟩)
      · rwa [Literal.negate_negate]
      · rwa [Literal.negate_negate]

theorem satisfiableUnder_afterPure (h : p.Coherent) :
    p.formula.SatisfiableUnder p.afterPure.valuation ↔
      p.formula.SatisfiableUnder p.valuation := by
  constructor
  · rintro ⟨M, hv, hM⟩
    exact ⟨M, ((extended_afterPure h).1 hv).1, hM⟩
  · rintro ⟨M, hv, hM⟩
    exact ⟨_, holds_makeAll_pureLiterals h hv hM⟩

theorem propagate_of_none (h : p.unitLiteral.1 = none) : p.propagate = .ok (0, p.unitLiteral.2) := by
  unfold propagate
  split
  next h' => rw [h']
  next h' => rw [h'] at h; cases h

theorem propagate_of_some (h : p.Coherent) (hu : p.unitLiteral.1 = some l) :
    p.propagate = (p.afterUnit l).propagate.map fun (n, q) ↦ (n + 1, q) := by
  have ha := assert_of_free ((unitLiteral_spec h).2.free (free_of_unitLiteral h hu)) false
  rw [propagate]
  split
  next h' => rw [h'] at hu; cases hu
  next h' =>
    rw [h'] at hu ha
    cases hu
    rw [afterUnit, h']
    split
    next h'' => rw [ha] at h''; cases h''
    next h'' =>
      rw [ha] at h''
      cases h''
      cases (put _ l false).propagate <;> rfl

theorem unvalued_afterUnit (h : p.Coherent) (hu : p.unitLiteral.1 = some l) :
    (p.afterUnit l).unvalued < p.unvalued := by
  have ha := assert_of_free ((unitLiteral_spec h).2.free (free_of_unitLiteral h hu)) false
  have hn := unvalued_assign ha
  rw [unvalued_unitLiteral] at hn
  exact Nat.lt_of_succ_le (Nat.le_of_eq hn)

theorem propagate_induction {motive : (p : Problem ρ) → p.Coherent → Prop}
    (none : ∀ p h, p.unitLiteral.1 = none → motive p h)
    (some : ∀ p h l, (hu : p.unitLiteral.1 = some l) →
      motive (p.afterUnit l) (h.continues_afterUnit hu).coherent → motive p h)
    (p : Problem ρ) (h : p.Coherent) : motive p h := by
  induction hu : p.unvalued using Nat.strongRecOn generalizing p with
  | _ u ih =>
    cases hl : p.unitLiteral.1 with
    | none => exact none p h hl
    | some l =>
      have hlt := unvalued_afterUnit h hl
      exact some p h l hl (ih _ (hu ▸ hlt) _ _ rfl)

theorem propagate_spec (h : p.Coherent) :
    ∃ n q, p.propagate = .ok (n, q) ∧ p.Continues q ∧
      ∀ M, p.formula.Holds M → (q.valuation.Extended M ↔ p.valuation.Extended M) := by
  induction p, h using propagate_induction with
  | none p h hn =>
    have he := (unitLiteral_spec h).2
    exact ⟨0, _, propagate_of_none hn, he.continues h, fun M _ ↦ by rw [he.valuation]⟩
  | some p h l hu ih =>
    obtain ⟨n, q, hq, hc, hM⟩ := ih
    have hl := h.continues_afterUnit hu
    refine ⟨n + 1, q, by rw [propagate_of_some h hu, hq]; rfl, hl.trans hc, ?_⟩
    intro M hf
    rw [hM M (hl.formula ▸ hf), extended_afterUnit h hu hf]

theorem assertPure_of_nil (h : p.pureLiterals.1 = []) :
    p.assertPure = .ok (0, p.pureLiterals.2) := by
  rw [assertPure_eq, if_pos h]

theorem assertPure_of_ne_nil (h : p.Coherent) (hl : p.pureLiterals.1 ≠ []) :
    p.assertPure = p.afterPure.assertPure.map fun (n, q) ↦ (n + p.pureLiterals.1.length, q) := by
  have he := (pureLiterals_spec h).2
  have ha := assertAll_of_free (p := p.pureLiterals.2)
    (fun l hl ↦ he.free (free_of_mem_pureLiterals (l := l) h hl)) (nodup_pureLiterals h)
  rw [assertPure_eq, if_neg hl, ha]
  rfl

theorem unvalued_afterPure (h : p.Coherent) (hl : p.pureLiterals.1 ≠ []) :
    p.afterPure.unvalued < p.unvalued := by
  have he := (pureLiterals_spec h).2
  have ha := assertAll_of_free (p := p.pureLiterals.2)
    (fun l hl ↦ he.free (free_of_mem_pureLiterals (l := l) h hl)) (nodup_pureLiterals h)
  have hn := unvalued_assertAll ha
  rw [unvalued_pureLiterals] at hn
  have hpos := List.length_pos_of_ne_nil hl
  rw [← hn]
  exact Nat.lt_add_of_pos_right hpos

theorem assertPure_induction {motive : (p : Problem ρ) → p.Coherent → Prop}
    (nil : ∀ p h, p.pureLiterals.1 = [] → motive p h)
    (cons : ∀ p h, p.pureLiterals.1 ≠ [] → motive p.afterPure h.continues_afterPure.coherent →
      motive p h)
    (p : Problem ρ) (h : p.Coherent) : motive p h := by
  induction hu : p.unvalued using Nat.strongRecOn generalizing p with
  | _ u ih =>
    by_cases hl : p.pureLiterals.1 = []
    · exact nil p h hl
    · have hlt := unvalued_afterPure h hl
      exact cons p h hl (ih _ (hu ▸ hlt) _ _ rfl)

theorem assertPure_spec (h : p.Coherent) :
    ∃ n q, p.assertPure = .ok (n, q) ∧ p.Continues q ∧
      (p.formula.SatisfiableUnder q.valuation ↔ p.formula.SatisfiableUnder p.valuation) := by
  induction p, h using assertPure_induction with
  | nil p h hn =>
    have he := (pureLiterals_spec h).2
    exact ⟨0, _, assertPure_of_nil hn, he.continues h, by rw [he.valuation]⟩
  | cons p h hl ih =>
    obtain ⟨n, q, hq, hc, hM⟩ := ih
    have hl' := h.continues_afterPure
    refine ⟨n + p.pureLiterals.1.length, q, by rw [assertPure_of_ne_nil h hl, hq]; rfl,
      hl'.trans hc, ?_⟩
    rw [hl'.formula] at hM
    rw [hM, satisfiableUnder_afterPure h]

theorem simplify_of_ok (hp : p.propagate = .ok (n, q)) (hq : q.assertPure = .ok (k, r)) :
    p.simplify = if n = 0 ∧ k = 0 then .ok r else r.simplify := by
  rw [simplify]
  split
  next h' => rw [hp] at h'; cases h'
  next h' =>
    rw [hp] at h'
    cases h'
    split
    next h' => rw [hq] at h'; cases h'
    next h' => rw [hq] at h'; cases h'; rfl

theorem simplify_induction {motive : (p : Problem ρ) → p.Coherent → Prop}
    (round : ∀ p h n q k r, p.propagate = .ok (n, q) → q.assertPure = .ok (k, r) →
      (hr : r.Coherent) → (¬ (n = 0 ∧ k = 0) → motive r hr) → motive p h)
    (p : Problem ρ) (h : p.Coherent) : motive p h := by
  induction hu : p.unvalued using Nat.strongRecOn generalizing p with
  | _ u ih =>
    obtain ⟨n, q, hq, hc, -⟩ := propagate_spec h
    obtain ⟨k, r, hr, hc', -⟩ := assertPure_spec hc.coherent
    have hn := unvalued_propagate hq
    have hk := unvalued_assertPure hr
    refine round p h n q k r hq hr hc'.coherent fun hnk ↦ ih _ ?_ _ _ rfl
    omega

/-- Simplification ends without a fault, and a formula which is satisfiable stays so. -/
theorem simplify_spec (h : p.Coherent) :
    ∃ q, p.simplify = .ok q ∧ p.Continues q ∧
      (p.formula.SatisfiableUnder q.valuation ↔ p.formula.SatisfiableUnder p.valuation) := by
  induction p, h using simplify_induction with
  | round p h n q k r hq hr _ ih =>
    obtain ⟨_, _, hq', hc, hM⟩ := propagate_spec h
    cases hq.symm.trans hq'
    obtain ⟨_, _, hr', hc', hS⟩ := assertPure_spec hc.coherent
    cases hr.symm.trans hr'
    have hpq : p.formula.SatisfiableUnder q.valuation ↔ p.formula.SatisfiableUnder p.valuation :=
      exists_congr fun M ↦ and_congr_left (hM M)
    rw [hc.formula] at hS
    rw [simplify_of_ok hq hr]
    split
    next => exact ⟨r, rfl, hc.trans hc', hS.trans hpq⟩
    next hnk =>
      obtain ⟨s, hs, hc'', hS'⟩ := ih hnk
      rw [(hc.trans hc').formula] at hS'
      exact ⟨s, hs, (hc.trans hc').trans hc'', hS'.trans (hS.trans hpq)⟩

end Dpll.Problem
