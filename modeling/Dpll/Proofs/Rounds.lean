import Dpll.Proofs.Fixpoint
import Dpll.Proofs.Mirroring

namespace Dpll

theorem Trail.putAll_append (t : Trail) (ls ms : List Literal) :
    t.putAll (ls ++ ms) = (t.putAll ls).putAll ms :=
  List.foldl_append

namespace Valuation

variable {v : Valuation} {l m : Literal}

def makeAll (v : Valuation) (ls : List Literal) : Valuation := ls.foldl make v

theorem makeAll_append (v : Valuation) (ls ms : List Literal) :
    v.makeAll (ls ++ ms) = (v.makeAll ls).makeAll ms :=
  List.foldl_append

theorem Free.truth_make (h : v.Free l) : (v.make l).truth l = some true := by
  rw [truth_eq_true_iff, h.value_make, if_pos rfl]

theorem Free.truth_make_of_ne (h : v.Free l) (ha : m.atom ≠ l.atom) :
    (v.make l).truth m = v.truth m := by
  rw [truth, truth, h.value_make, if_neg ha]

theorem Free.truth_make_eq_true (h : v.Free l) (hm : v.truth m = some true) :
    (v.make l).truth m = some true := by
  rw [h.truth_make_of_ne, hm]
  intro ha
  have hv := truth_eq_true_iff.1 hm
  rw [ha, h.2] at hv
  cases hv

end Valuation

namespace Clause

variable {v w : Valuation} {c : Clause} {l : Literal}

theorem status_congr (h : ∀ l ∈ c, w.truth l = v.truth l) : c.status w = c.status v := by
  have hfrom (s : Status) : statusFrom w s c = statusFrom v s c := by
    induction c generalizing s with
    | nil => rfl
    | cons l c ih =>
      have htail := ih fun m hm ↦ h m (.tail _ hm)
      simp only [statusFrom, h l (.head _), htail]
  exact hfrom .conflict

theorem satisfied_make (hl : v.Free l) (h : c.status v = .satisfied) :
    c.status (v.make l) = .satisfied := by
  obtain ⟨m, hm, ht⟩ := status_eq_satisfied_iff.1 h
  exact status_eq_satisfied_iff.2 ⟨m, hm, hl.truth_make_eq_true ht⟩

theorem status_make (hl : v.Free l) (h : c.status v ≠ .satisfied → l.negate ∉ c) :
    c.status (v.make l) = c.status v ∨ c.status (v.make l) = .satisfied := by
  by_cases hs : c.status v = .satisfied
  · exact .inr (satisfied_make hl hs)
  · by_cases hm : l ∈ c
    · exact .inr (status_eq_satisfied_iff.2 ⟨l, hm, hl.truth_make⟩)
    · refine .inl (status_congr fun m hmc ↦ hl.truth_make_of_ne fun ha ↦ ?_)
      rcases Formula.eq_or_eq_negate ha with rfl | rfl
      · exact hm hmc
      · exact h hs hmc

end Clause

namespace Formula

variable {f : Formula} {v : Valuation} {l : Literal} {ls ms : List Literal}

/-- Of the literals, made true one after the other, none makes a literal false in a clause which is not
satisfied by then. -/
inductive Spared (f : Formula) : Valuation → List Literal → Prop
  | nil (v : Valuation) : f.Spared v []
  | cons {v : Valuation} {l : Literal} {ls : List Literal} (hl : v.Free l)
    (hn : ∀ c ∈ f, c.status v ≠ .satisfied → l.negate ∉ c) (h : f.Spared (v.make l) ls) :
    f.Spared v (l :: ls)

theorem Spared.append (h : f.Spared v ls) (h' : f.Spared (v.makeAll ls) ms) :
    f.Spared v (ls ++ ms) := by
  induction h with
  | nil => exact h'
  | cons hl hn _ ih => exact .cons hl hn (ih h')

/-- Whatever is said of the clauses that are not satisfied goes on to hold, as they become fewer. -/
theorem spared_of_forall (hf : ∀ l ∈ ls, v.Free l) (ha : (ls.map Literal.atom).Nodup)
    (hn : ∀ l ∈ ls, ∀ c ∈ f, c.status v ≠ .satisfied → l.negate ∉ c) : f.Spared v ls := by
  induction ls generalizing v with
  | nil => exact .nil v
  | cons l ls ih =>
    obtain ⟨hl, ha⟩ := List.nodup_cons.1 ha
    have hfl := hf l (.head _)
    refine .cons hfl (hn l (.head _)) (ih ?_ ha ?_)
    · intro m hm
      exact hfl.make (hf m (.tail _ hm)) fun he ↦ hl (he ▸ List.mem_map_of_mem hm)
    · intro m hm c hc hs
      exact hn m (.tail _ hm) c hc (mt (Clause.satisfied_make hfl) hs)

theorem Spared.status (h : f.Spared v ls) (hm : ms <+: ls) {c : Clause} (hc : c ∈ f) :
    c.status (v.makeAll ms) = c.status v ∨ c.status (v.makeAll ms) = .satisfied := by
  induction h generalizing ms with
  | nil =>
    rw [List.prefix_nil.1 hm]
    exact .inl rfl
  | @cons v l ls hl hn h ih =>
    rcases List.prefix_cons_iff.1 hm with rfl | ⟨ms', rfl, hm'⟩
    · exact .inl rfl
    · have htail := ih hm'
      rcases Clause.status_make hl (hn c hc) with he | he
      · rwa [he] at htail
      · rw [he, or_self] at htail
        exact .inr htail

end Formula

namespace Problem

variable {ρ : Type} {p q r s : Problem ρ} {n k : Nat} {ls : List Literal}

theorem valuation_putAll (p : Problem ρ) (ls : List Literal) :
    (p.putAll ls).valuation = p.valuation.makeAll ls := by
  induction ls generalizing p with
  | nil => rfl
  | cons l ls ih => exact ih (p.put l false)

theorem trail_putAll (p : Problem ρ) (ls : List Literal) :
    (p.putAll ls).trail = p.trail.putAll ls := by
  induction ls generalizing p with
  | nil => rfl
  | cons l ls ih => exact ih (p.put l false)

theorem spared_pureLiterals (h : p.Coherent) : p.formula.Spared p.valuation p.pureLiterals.1 := by
  refine Formula.spared_of_forall (fun l hl ↦ free_of_mem_pureLiterals h hl)
    (nodup_pureLiterals h) ?_
  intro l hl c hc hs hn
  have hf := free_of_mem_pureLiterals h hl
  apply ((mem_pureLiterals_iff h).1 hl).2
  refine mem_loose_iff.2 ⟨c, hc, hs, hn, ?_⟩
  rw [Valuation.truth_eq_none_iff, Literal.atom_negate]
  exact hf.2

theorem assertPure_spared (h : p.Coherent) :
    ∃ ls q, p.assertPure = .ok (ls.length, q) ∧
      q.trail = p.trail.putAll ls ∧ q.valuation = p.valuation.makeAll ls ∧
      q.formula = p.formula ∧ p.formula.Spared p.valuation ls := by
  induction p, h using assertPure_induction with
  | nil p h hn =>
    have he := (pureLiterals_spec h).2
    exact ⟨[], _, assertPure_of_nil hn, he.trail, he.valuation, he.formula, .nil _⟩
  | cons p h hl ih =>
    have he := (pureLiterals_spec h).2
    have hv : p.afterPure.valuation = p.valuation.makeAll p.pureLiterals.1 := by
      rw [afterPure, valuation_putAll, he.valuation]
    have hf := h.continues_afterPure.formula
    obtain ⟨ls, q, hq, htrail, hls, hqf, hspared⟩ := ih
    rw [hf, hv] at hspared
    refine ⟨p.pureLiterals.1 ++ ls, q, ?_, ?_, ?_, hqf.trans hf,
      (spared_pureLiterals h).append hspared⟩
    · rw [assertPure_of_ne_nil h hl, hq, List.length_append, Nat.add_comm]
      rfl
    · rw [htrail, afterPure, trail_putAll, he.trail, Trail.putAll_append]
    · rw [hls, hv, Valuation.makeAll_append]

theorem unitLiteral_of_propagate (h : p.Coherent) (hq : p.propagate = .ok (n, q)) :
    q.unitLiteral.1 = none := by
  induction p, h using propagate_induction generalizing n with
  | none p h hn =>
    rw [propagate_of_none hn] at hq
    cases hq
    rw [(unitLiteral_spec h).2.unitLiteral h, hn]
  | some p h l hu ih =>
    rw [propagate_of_some h hu] at hq
    cases hr : (p.afterUnit l).propagate with
    | error fault =>
      rw [hr] at hq
      cases hq
    | ok r =>
      rw [hr] at hq
      cases hq
      exact ih hr

theorem pureLiterals_of_assertPure (h : p.Coherent) (hq : p.assertPure = .ok (n, q)) :
    q.pureLiterals.1 = [] := by
  induction p, h using assertPure_induction generalizing n with
  | nil p h hn =>
    rw [assertPure_of_nil hn] at hq
    cases hq
    rw [(pureLiterals_spec h).2.pureLiterals h, hn]
  | cons p h hl ih =>
    rw [assertPure_of_ne_nil h hl] at hq
    cases hr : p.afterPure.assertPure with
    | error fault =>
      rw [hr] at hq
      cases hq
    | ok r =>
      rw [hr] at hq
      cases hq
      exact ih hr

/-- After one round no clause is unit, as making pure literals true has made none so. -/
theorem settled_of_round (h : p.Coherent) (hq : p.propagate = .ok (n, q))
    (hr : q.assertPure = .ok (k, r)) :
    r.Coherent ∧ r.unitLiteral.1 = none ∧ r.pureLiterals.1 = [] := by
  obtain ⟨_, _, hq', hc, -⟩ := propagate_spec h
  cases hq.symm.trans hq'
  obtain ⟨_, _, hr', hc', -⟩ := assertPure_spec hc.coherent
  cases hr.symm.trans hr'
  obtain ⟨ls, _, hr', -, hv, -, hspared⟩ := assertPure_spared hc.coherent
  cases hr.symm.trans hr'
  refine ⟨hc'.coherent, ?_, pureLiterals_of_assertPure hc.coherent hr⟩
  have hunit := (unitLiteral_eq_none_iff hc.coherent).1 (unitLiteral_of_propagate h hq)
  rw [unitLiteral_eq_none_iff hc'.coherent, hc'.formula, hv]
  intro c hcf l
  rcases hspared.status (List.prefix_refl ls) hcf with hs | hs
  · rw [hs]
    exact hunit c hcf l
  · rw [hs]
    exact Clause.Status.noConfusion

theorem round_of_settled (h : r.Coherent) (hu : r.unitLiteral.1 = none)
    (hp : r.pureLiterals.1 = []) :
    ∃ r' s, r.propagate = .ok (0, r') ∧ r'.assertPure = .ok (0, s) ∧ r.Examined s := by
  have he := (unitLiteral_spec h).2
  have hc := he.coherent h
  have he' := (pureLiterals_spec hc).2
  refine ⟨_, _, propagate_of_none hu, assertPure_of_nil ?_, he.trans he'⟩
  rw [he.pureLiterals h, hp]

variable [Chooser ρ]

/-- In whatever state a problem is, making pure literals true leaves the status of each clause as it is
until the clause is satisfied. So a single round of simplification makes true all there is, and the
second round finds nothing. -/
theorem second_round_idle (n : Nat) (config : Config) (source : ρ) (os : List Operation) :
    let p := ((empty n config source).performAll os).2
    (∃ ls q, p.assertPure = .ok (ls.length, q) ∧
      q.trail = p.trail.putAll ls ∧ q.valuation = p.valuation.makeAll ls ∧
      q.formula = p.formula ∧ p.formula.Spared p.valuation ls ∧
      ∀ made, made <+: ls → ∀ c ∈ p.formula,
        c.status (p.valuation.makeAll made) = c.status p.valuation ∨
          c.status (p.valuation.makeAll made) = .satisfied) ∧
    ∃ j k q r r' s t, p.propagate = .ok (j, q) ∧ q.assertPure = .ok (k, r) ∧
      r.propagate = .ok (0, r') ∧ r'.assertPure = .ok (0, s) ∧
      p.simplify = .ok t ∧ t = (if j = 0 ∧ k = 0 then r else s) ∧
      t.trail = r.trail ∧ t.valuation = r.valuation ∧ t.formula = r.formula ∧
      ∀ c ∈ p.formula, c.status t.valuation = c.status r.valuation := by
  intro p
  have h : p.Coherent := coherent_performAll n config source os
  constructor
  · obtain ⟨ls, q, hq, htrail, hv, hf, hspared⟩ := assertPure_spared h
    exact ⟨ls, q, hq, htrail, hv, hf, hspared, fun made hm c hc ↦ hspared.status hm hc⟩
  · obtain ⟨j, q, hq, hc, -⟩ := propagate_spec h
    obtain ⟨k, r, hr, -⟩ := assertPure_spec hc.coherent
    obtain ⟨hcr, hu, hp⟩ := settled_of_round h hq hr
    obtain ⟨r', s, hr', hs, he⟩ := round_of_settled hcr hu hp
    have hround : r.simplify = .ok s := by rw [simplify_of_ok hr' hs, if_pos ⟨rfl, rfl⟩]
    have hsimplify : p.simplify = .ok (if j = 0 ∧ k = 0 then r else s) := by
      rw [simplify_of_ok hq hr, hround]
      split <;> rfl
    have ht : r.Examined (if j = 0 ∧ k = 0 then r else s) := by
      split
      · exact hcr.examined
      · exact he
    exact ⟨j, k, q, r, r', s, _, hq, hr, hr', hs, hsimplify, rfl, ht.trail, ht.valuation,
      ht.formula, fun c _ ↦ by rw [ht.valuation]⟩

end Problem

end Dpll
