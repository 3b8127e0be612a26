import Dpll.Proofs.Reachable
import Dpll.Simplification.Buffer

namespace Dpll

theorem Clause.status_eq_unit_of_nodup {v : Valuation} {c : Clause} {l : Literal} (hc : c.Nodup)
    (hl : l ∈ c) (ht : v.truth l = none) (h : ∀ m ∈ c, m ≠ l → v.truth m = some false) :
    c.status v = .unit l := by
  have hu : (c.unvalued v).Nodup := hc.filter _
  refine status_eq_unit_iff.2 ⟨?_, List.perm_singleton.1 ?_⟩
  · intro m hm htrue
    by_cases he : m = l
    · rw [he, ht] at htrue
      cases htrue
    · rw [h m hm he] at htrue
      cases htrue
  · refine (List.perm_ext_iff_of_nodup hu (List.nodup_singleton l)).2 fun m ↦ ?_
    rw [mem_unvalued, List.mem_singleton]
    constructor
    · intro hm
      by_contra he
      rw [h m hm.1 he] at hm
      cases hm.2
    · intro he
      exact he ▸ ⟨hl, ht⟩

namespace ClauseStore

variable {s : ClauseStore} {v : Valuation} {time i j : Nat} {α : Type}
  {f : Clause → Clause.Status → Option α}

def Thorough (s : ClauseStore) (v : Valuation) : Prop := ∀ i, s.Noted v i

theorem examine_of_thorough (h : s.Thorough v) (time i : Nat) : (s.examine v time i).2 = s := by
  obtain ⟨he, -⟩ | ⟨k, -, -, -, -, hn⟩ := s.examine_cases v time i
  · exact he
  · exact absurd (h i) hn

theorem scan_of_thorough (h : s.Thorough v) (time : Nat)
    (f : Clause → Clause.Status → Option α) : (s.scan v time f).2 = s :=
  scanFrom_preserves (P := (· = s)) (fun _ i hr ↦ hr ▸ examine_of_thorough h time i) rfl _

theorem unsettled_of_thorough (h : s.Thorough v) (time : Nat) : (s.unsettled v time).2 = s :=
  unsettledFrom_preserves (P := (· = s)) (fun _ i hr ↦ hr ▸ examine_of_thorough h time i) rfl _ _

theorem noted_examine (hs : s.Sized) (time : Nat) (h : j = i ∨ s.Noted v j) :
    (s.examine v time i).2.Noted v j := by
  obtain ⟨he, hi⟩ | ⟨k, hk, -, hi, he, -⟩ := s.examine_cases v time i
  · rw [he]
    rcases h with rfl | h
    · exact hi
    · exact h
  · rw [he]
    intro _ c hc hsat
    have htime := SatisfactionCache.time_record (hs k hk ▸ hi) time j
    change ((k.record i time).time j).isSome
    rw [htime]
    split
    next => rfl
    next hne =>
      have hj := h.resolve_left hne (by rw [hk]; rfl) c hc hsat
      rw [isCached, hk] at hj
      exact hj

theorem noted_scanFrom (hs : s.Sized) {is : List Nat} (h : (s.scanFrom v time f is).1 = none) :
    ∀ i ∈ is, (s.scanFrom v time f is).2.Noted v i := by
  induction is generalizing s with
  | nil => exact List.forall_mem_nil _
  | cons i is ih =>
    have hsized := hs.examine v time i
    have hkept {s : ClauseStore} (hs : s.Sized) (hi : s.Noted v i) :
        (s.scanFrom v time f is).2.Noted v i :=
      (scanFrom_preserves (P := fun r ↦ r.Sized ∧ r.Noted v i)
        (fun r j hr ↦ ⟨hr.1.examine v time j, noted_examine hr.1 time (.inr hr.2)⟩) ⟨hs, hi⟩ is).2
    have hi := noted_examine (v := v) hs time (.inl (Eq.refl i))
    rw [List.forall_mem_cons]
    unfold scanFrom at h ⊢
    split at h
    next he =>
      rw [he] at hsized hi
      exact ⟨hkept hsized hi, ih hsized h⟩
    next he =>
      rw [he] at hsized hi
      split at h
      next => cases h
      next => exact ⟨hkept hsized hi, ih hsized h⟩

theorem thorough_scan (hs : s.Sized) (h : (s.scan v time f).1 = none) :
    (s.scan v time f).2.Thorough v := by
  intro i
  by_cases hi : i < s.count
  · exact noted_scanFrom hs h i (List.mem_range.2 hi)
  · intro _ c hc
    have hclauses : (s.scan v time f).2.clauses = s.clauses :=
      scanFrom_preserves (P := fun r ↦ r.clauses = s.clauses)
        (fun r j hr ↦ (clauses_examine r v time j).trans hr) rfl _
    rw [hclauses] at hc
    exact absurd (Array.getElem?_eq_some_iff.1 hc).1 hi

end ClauseStore

namespace Problem

variable {ρ : Type} {p q r : Problem ρ} {n k : Nat} {M : Model}

/-- What comes of a problem when `n` literals are made true on its latest level. -/
structure Appends (p : Problem ρ) (n : Nat) (q : Problem ρ) : Prop where
  literals : ∃ ls, ls.length = n ∧ q.trail.literals.toList = p.trail.literals.toList ++ ls
  levels : q.trail.levelStarts = p.trail.levelStarts
  keeps : p.Keeps q
  source : q.source = p.source

theorem Continues.appends (h : p.Continues q) (hp : p.Coherent) (hn : q.unvalued + n = p.unvalued) :
    p.Appends n q where
  literals := by
    obtain ⟨ls, hls⟩ := h.grows.literals
    refine ⟨ls, ?_, hls.symm⟩
    have hlen : p.trail.depth + ls.length = q.trail.depth := by
      simpa [Trail.depth] using congrArg List.length hls
    have hdepth := h.coherent.depth_add
    rw [h.keeps.size, ← hp.depth_add] at hdepth
    omega
  levels := h.grows.levelStarts
  keeps := h.keeps
  source := h.source

/-- No clause has one literal without a value and is false apart from it, and no literal without a
value occurs in the clauses not yet satisfied unless its negation does. -/
structure Exhausted (p : Problem ρ) : Prop where
  unit : ∀ c ∈ p.formula, ∀ l ∈ c, p.valuation.truth l = none →
    ∃ m ∈ c, m ≠ l ∧ p.valuation.truth m ≠ some false
  pure : ∀ l ∈ p.loose, l.negate ∈ p.loose

theorem Coherent.exhausted (h : p.Coherent) (hu : p.unitLiteral.1 = none)
    (hp : p.pureLiterals.1 = []) : p.Exhausted where
  unit := by
    intro c hc l hl ht
    by_contra! hfalse
    have hs := Clause.status_eq_unit_of_nodup ((h.normal c hc).nodup.of_map _) hl ht hfalse
    rw [(unitLiteral_spec h).1, List.findSome?_eq_none_iff] at hu
    have hn := hu c hc
    rw [hs] at hn
    cases hn
  pure := by
    intro l hl
    by_contra hn
    have hmem := (mem_pureLiterals_iff h).2 ⟨hl, hn⟩
    rw [hp] at hmem
    cases hmem

theorem thorough_unitLiteral (h : p.Coherent) (hu : p.unitLiteral.1 = none) :
    p.unitLiteral.2.store.Thorough p.unitLiteral.2.valuation :=
  ClauseStore.thorough_scan h.store.sized hu

theorem scan_of_thorough {α : Type} (h : p.store.Thorough p.valuation)
    (f : Clause → Clause.Status → Option α) : (p.scan f).2 = p := by
  have hs := ClauseStore.scan_of_thorough h p.latest f
  change { p with store := (p.store.scan p.valuation p.latest f).2 } = p
  rw [hs]

theorem unitLiteral_of_thorough (h : p.store.Thorough p.valuation) : p.unitLiteral.2 = p :=
  scan_of_thorough h _

theorem pureLiterals_of_thorough (h : p.store.Thorough p.valuation) : p.pureLiterals.2 = p := by
  have hs := ClauseStore.unsettled_of_thorough h p.latest
  change { p with store := (p.store.unsettled p.valuation p.latest).2 } = p
  rw [hs]

theorem unitLiteral_of_propagate_zero (h : p.Coherent) (hq : p.propagate = .ok (0, q)) :
    p.unitLiteral.1 = none ∧ q = p.unitLiteral.2 := by
  cases hu : p.unitLiteral.1 with
  | none =>
    rw [propagate_of_none hu] at hq
    cases hq
    exact ⟨rfl, rfl⟩
  | some l =>
    rw [propagate_of_some h hu] at hq
    cases hr : (p.afterUnit l).propagate with
    | error fault =>
      rw [hr] at hq
      cases hq
    | ok r =>
      rw [hr] at hq
      cases hq

theorem pureLiterals_of_assertPure_zero (h : p.Coherent) (hq : p.assertPure = .ok (0, q)) :
    p.pureLiterals.1 = [] ∧ q = p.pureLiterals.2 := by
  by_cases hl : p.pureLiterals.1 = []
  · rw [assertPure_of_nil hl] at hq
    cases hq
    exact ⟨hl, rfl⟩
  · rw [assertPure_of_ne_nil h hl] at hq
    have hpos := List.length_pos_iff.2 hl
    cases hr : p.afterPure.assertPure with
    | error fault =>
      rw [hr] at hq
      cases hq
    | ok r =>
      rw [hr] at hq
      have hk : r.1 + p.pureLiterals.1.length = 0 := (Prod.mk.inj (Except.ok.inj hq)).1
      omega

theorem simplify_of_thorough (hu : p.unitLiteral.1 = none) (hp : p.pureLiterals.1 = [])
    (ht : p.store.Thorough p.valuation) : p.simplify = .ok p := by
  have hprop : p.propagate = .ok (0, p) := by rw [propagate_of_none hu, unitLiteral_of_thorough ht]
  have hpure : p.assertPure = .ok (0, p) := by rw [assertPure_of_nil hp, pureLiterals_of_thorough ht]
  rw [simplify_of_ok hprop hpure, if_pos ⟨rfl, rfl⟩]

theorem exists_fixpoint (h : p.Coherent) :
    ∃ q, p.simplify = .ok q ∧ q.unitLiteral.1 = none ∧ q.pureLiterals.1 = [] ∧
      q.store.Thorough q.valuation := by
  induction p, h using simplify_induction with
  | round p h n q k r hq hr _ ih =>
    rw [simplify_of_ok hq hr]
    by_cases hnk : n = 0 ∧ k = 0
    · obtain ⟨rfl, rfl⟩ := hnk
      obtain ⟨hu, rfl⟩ := unitLiteral_of_propagate_zero h hq
      have he := (unitLiteral_spec h).2
      have hc := he.coherent h
      have ht := thorough_unitLiteral h hu
      obtain ⟨hp, rfl⟩ := pureLiterals_of_assertPure_zero hc hr
      rw [if_pos ⟨rfl, rfl⟩, pureLiterals_of_thorough ht]
      refine ⟨_, rfl, ?_, hp, ht⟩
      rw [(unitLiteral_spec hc).1, he.formula, he.valuation, ← (unitLiteral_spec h).1, hu]
    · rw [if_neg hnk]
      exact ih hnk

theorem simplifyInto_of_ok (hp : p.propagate = .ok (n, q)) (hq : q.assertPure = .ok (k, r))
    (buffer : Array Literal) :
    p.simplifyInto buffer = if n = 0 ∧ k = 0 then (.ok r, #[]) else r.simplifyInto #[] := by
  rw [simplifyInto]
  split
  next h' => rw [hp] at h'; cases h'
  next h' =>
    rw [hp] at h'
    cases h'
    split
    next h' => rw [assertPureInto_eq, hq] at h'; cases h'
    next h' => rw [assertPureInto_eq, hq] at h'; cases h'; rfl

theorem simplifyInto_eq (h : p.Coherent) (buffer : Array Literal) :
    p.simplifyInto buffer = (p.simplify, #[]) := by
  induction p, h using simplify_induction generalizing buffer with
  | round p h n q k r hq hr _ ih =>
    rw [simplifyInto_of_ok hq hr, simplify_of_ok hq hr]
    by_cases hnk : n = 0 ∧ k = 0
    · rw [if_pos hnk, if_pos hnk]
    · rw [if_neg hnk, if_neg hnk, ih hnk]

variable [Chooser ρ]

/-- In whatever state a problem is, propagation, making pure literals true and simplification come to
an end with literals added to the latest level. Propagation keeps the models, and the others keep
that there is one. Simplification leaves nothing for either to do, and changes nothing when it is
repeated. -/
theorem simplifies_to_fixpoint (n : Nat) (config : Config) (source : ρ) (os : List Operation) :
    let p := ((empty n config source).performAll os).2
    (∃ k q, p.propagate = .ok (k, q) ∧ p.Appends k q ∧
      ∀ M, q.valuation.Extended M ∧ q.formula.Holds M ↔
        p.valuation.Extended M ∧ p.formula.Holds M) ∧
    (∃ k q, p.assertPure = .ok (k, q) ∧ p.Appends k q ∧
      (∀ buffer, p.assertPureInto buffer = (.ok (k, q), #[])) ∧
      (q.formula.SatisfiableUnder q.valuation ↔ p.formula.SatisfiableUnder p.valuation)) ∧
    ∃ k q, p.simplify = .ok q ∧ p.Appends k q ∧
      (∀ buffer, p.simplifyInto buffer = (.ok q, #[])) ∧
      (q.formula.SatisfiableUnder q.valuation ↔ p.formula.SatisfiableUnder p.valuation) ∧
      q.Exhausted ∧ q.simplify = .ok q ∧ ∀ buffer, q.simplifyInto buffer = (.ok q, #[]) := by
  intro p
  have h : p.Coherent := coherent_performAll n config source os
  refine ⟨?_, ?_, ?_⟩
  · obtain ⟨k, q, hq, hc, hM⟩ := propagate_spec h
    refine ⟨k, q, hq, hc.appends h (unvalued_propagate hq), fun M ↦ ?_⟩
    rw [hc.formula]
    exact and_congr_left (hM M)
  · obtain ⟨k, q, hq, hc, hS⟩ := assertPure_spec h
    refine ⟨k, q, hq, hc.appends h (unvalued_assertPure hq), fun buffer ↦ ?_, ?_⟩
    · rw [assertPureInto_eq, hq]
    · rw [hc.formula, hS]
  · obtain ⟨q, hq, hc, hS⟩ := simplify_spec h
    obtain ⟨r, hr, hu, hp, ht⟩ := exists_fixpoint h
    cases hq.symm.trans hr
    have hle := h.unvalued_le hc.coherent hc.keeps hc.grows.before
    have hagain := simplify_of_thorough hu hp ht
    refine ⟨p.unvalued - q.unvalued, q, hq, hc.appends h (Nat.add_sub_of_le hle), fun buffer ↦ ?_,
      ?_, hc.coherent.exhausted hu hp, hagain, fun buffer ↦ ?_⟩
    · rw [simplifyInto_eq h, hq]
    · rw [hc.formula, hS]
    · rw [simplifyInto_eq hc.coherent, hagain]

end Problem

end Dpll
