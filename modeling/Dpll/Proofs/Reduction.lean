import Dpll.Formula
import Dpll.Proofs.Mirroring
import Dpll.Proofs.Query
import Dpll.Random.Choice

namespace Dpll

theorem Literal.negate_eq_iff {l m : Literal} : m = l.negate ↔ m.negate = l := by
  constructor
  · intro h
    rw [h, negate_negate]
  · intro h
    rw [← h, negate_negate]

namespace Formula

variable {f : Formula} {l : Literal} {ls ms : List Literal}

def reduceAll (f : Formula) (ls : List Literal) : Formula := ls.foldl reduce f

theorem reduceAll_eq (h : ∀ l ∈ ls, l.negate ∉ ls) :
    f.reduceAll ls = (f.filter fun c ↦ ∀ l ∈ ls, l ∉ c).map (·.filter (·.negate ∉ ls)) := by
  induction ls generalizing f with
  | nil => simp [reduceAll]
  | cons l ls ih =>
    have htail : ∀ m ∈ ls, m.negate ∉ ls := fun m hm hn ↦ h m (.tail _ hm) (.tail _ hn)
    have hne : ∀ m ∈ ls, m ≠ l.negate := by
      intro m hm he
      exact h l (.head _) (he ▸ .tail _ hm)
    have hkept : ∀ c : Clause, (∀ m ∈ ls, m ∉ c.filter (· ≠ l.negate)) ↔ ∀ m ∈ ls, m ∉ c := by
      intro c
      refine forall₂_congr fun m hm ↦ not_congr ?_
      simp [hne m hm]
    have hcut : ∀ c : Clause, (c.filter (· ≠ l.negate)).filter (·.negate ∉ ls) =
        c.filter (·.negate ∉ l :: ls) := by
      intro c
      rw [List.filter_filter]
      refine List.filter_congr fun m _ ↦ ?_
      have hm : m ≠ l.negate ↔ m.negate ≠ l := not_congr Literal.negate_eq_iff
      simp [hm, Bool.and_comm]
    calc f.reduceAll (l :: ls)
        = ((f.reduce l).filter fun c ↦ ∀ m ∈ ls, m ∉ c).map (·.filter (·.negate ∉ ls)) := ih htail
      _ = (((f.filter (l ∉ ·)).filter fun c ↦ ∀ m ∈ ls, m ∉ c).map
            (·.filter (· ≠ l.negate))).map (·.filter (·.negate ∉ ls)) := by
          rw [reduce, List.filter_map]
          simp only [Function.comp_def, hkept]
      _ = (f.filter fun c ↦ ∀ m ∈ l :: ls, m ∉ c).map (·.filter (·.negate ∉ l :: ls)) := by
          rw [List.map_map, List.filter_filter]
          simp only [Function.comp_def, hcut]
          simp [Bool.and_comm]

theorem reduceAll_perm (h : ∀ l ∈ ls, l.negate ∉ ls) (hp : ms.Perm ls) :
    f.reduceAll ms = f.reduceAll ls := by
  have hm : ∀ l ∈ ms, l.negate ∉ ms := by simpa only [hp.mem_iff] using h
  rw [reduceAll_eq hm, reduceAll_eq h]
  simp only [hp.mem_iff]

end Formula

theorem Trail.Records.negate_not_mem {t : Trail} {v : Valuation} (h : t.Records v) :
    ∀ l ∈ t.literals.toList, l.negate ∉ t.literals.toList := by
  intro l hl hn
  have hne := h.ne_zero l hl
  have ht := Valuation.truth_eq_true_iff.1 ((h.true_iff hne).2 hl)
  have hf := Valuation.truth_eq_true_iff.1 ((h.true_iff (h.ne_zero _ hn)).2 hn)
  rw [Literal.atom_negate, ht, Literal.positive_negate hne] at hf
  simp at hf

theorem Trail.Records.false_iff {t : Trail} {v : Valuation} (h : t.Records v) {l : Literal}
    (hl : l ≠ 0) : v.truth l = some false ↔ l.negate ∈ t.literals.toList := by
  rw [← h.true_iff (mt Literal.negate_eq_zero_iff.1 hl), Valuation.truth_eq_false_iff,
    Valuation.truth_eq_true_iff, Literal.atom_negate, Literal.positive_negate hl]

theorem Clause.literal?_ofUnvalued (ls : List Literal) :
    (Status.ofUnvalued ls).literal? = single? ls := by
  match ls with
  | [] | [_] | _ :: _ :: _ => rfl

namespace Problem

variable {ρ : Type} {p : Problem ρ} {c : Clause} {ls : List Literal}

/-- What is left of the clauses which are not satisfied. -/
def residue (p : Problem ρ) : Formula := p.unsettled.map (Clause.unvalued p.valuation)

theorem mem_unsettled_iff :
    c ∈ p.unsettled ↔ c ∈ p.formula ∧ ∀ l ∈ c, p.valuation.truth l ≠ some true := by
  rw [unsettled, List.mem_filter, decide_eq_true_eq]
  refine and_congr_right fun _ ↦ ?_
  rw [ne_eq, Clause.status_eq_satisfied_iff]
  push Not
  rfl

/-- Making the literals of the trail true one after the other leaves what the valuation leaves. -/
theorem reduceAll_trail (h : p.Coherent) :
    p.formula.reduceAll p.trail.literals.toList = p.residue := by
  have hkept : ∀ c ∈ p.formula, (∀ l ∈ p.trail.literals.toList, l ∉ c) ↔
      c.status p.valuation ≠ .satisfied := by
    intro c hc
    rw [ne_eq, Clause.status_eq_satisfied_iff]
    constructor
    · rintro hn ⟨l, hl, ht⟩
      exact hn l ((h.records.true_iff (h.ne_zero hc l hl)).1 ht) hl
    · intro hn l hl hm
      exact hn ⟨l, hm, (h.records.true_iff (h.ne_zero hc l hm)).2 hl⟩
  have hcut : ∀ c ∈ p.unsettled,
      c.filter (·.negate ∉ p.trail.literals.toList) = c.unvalued p.valuation := by
    intro c hc
    obtain ⟨hf, hn⟩ := mem_unsettled_iff.1 hc
    refine List.filter_congr fun l hl ↦ decide_eq_decide.2 ?_
    rw [← h.records.false_iff (h.ne_zero hf l hl)]
    have ht := hn l hl
    cases hv : p.valuation.truth l with
    | none => simp
    | some b => cases b <;> simp_all
  calc p.formula.reduceAll p.trail.literals.toList
      = (p.formula.filter fun c ↦ ∀ l ∈ p.trail.literals.toList, l ∉ c).map
          (·.filter (·.negate ∉ p.trail.literals.toList)) :=
        Formula.reduceAll_eq h.records.negate_not_mem
    _ = p.unsettled.map (·.filter (·.negate ∉ p.trail.literals.toList)) := by
        rw [unsettled, List.filter_congr fun c hc ↦ decide_eq_decide.2 (hkept c hc)]
    _ = p.residue := List.map_congr_left hcut

theorem isSatisfied_iff_residue (h : p.Coherent) : p.isSatisfied.1 ↔ p.residue = [] := by
  rw [(isSatisfied_spec h).1, decide_eq_true_eq, residue, List.map_eq_nil_iff, unsettled,
    List.filter_eq_nil_iff]
  simp

theorem hasConflict_iff_residue (h : p.Coherent) : p.hasConflict.1 ↔ [] ∈ p.residue := by
  rw [(hasConflict_spec h).1, decide_eq_true_eq, residue, List.mem_map]
  constructor
  · rintro ⟨c, hc, hs⟩
    have hf := Clause.status_eq_conflict_iff.1 hs
    refine ⟨c, mem_unsettled_iff.2 ⟨hc, fun l hl ↦ by simp [hf l hl]⟩, ?_⟩
    exact List.filter_eq_nil_iff.2 fun l hl ↦ by simp [hf l hl]
  · rintro ⟨c, hc, hu⟩
    obtain ⟨hf, hn⟩ := mem_unsettled_iff.1 hc
    refine ⟨c, hf, ?_⟩
    rw [Clause.status_of_not_true hn, hu]
    rfl

theorem unitLiteral_eq_residue (h : p.Coherent) :
    p.unitLiteral.1 = p.residue.findSome? Clause.single? := by
  rw [(unitLiteral_spec h).1, residue, unsettled]
  induction p.formula with
  | nil => rfl
  | cons c f ih =>
    rw [List.findSome?_cons]
    by_cases hs : c.status p.valuation = .satisfied
    · rw [List.filter_cons_of_neg (by simp [hs]), hs]
      exact ih
    · have hst := Clause.status_of_not_true (Clause.not_true_of_status_ne hs)
      rw [List.filter_cons_of_pos (by simp [hs]), List.map_cons, List.findSome?_cons, hst,
        Clause.literal?_ofUnvalued, ih]

theorem pureLiterals_eq_residue (h : p.Coherent) :
    p.pureLiterals.1 = Dpll.pureLiterals p.atomCount p.residue.flatten := by
  have hloose : p.loose = p.residue.flatten := by
    rw [loose, residue, List.filter_flatten]
    congr 1
    refine List.map_congr_left fun c _ ↦ List.filter_congr fun l _ ↦ ?_
    rw [Bool.eq_iff_iff, decide_eq_true_eq, Valuation.truth_eq_none_iff, Option.isNone_iff_eq_none]
  rw [(pureLiterals_spec h).1, hloose]

variable [Chooser ρ]

/-- In whatever state a problem is, its queries answer what the formula answers which is left when the
literals of its trail are made true, and these may be made true in any order. -/
theorem scans_agree_with_reduction (n : Nat) (config : Config) (source : ρ) (os : List Operation) :
    let p := ((empty n config source).performAll os).2
    let f := p.formula.reduceAll p.trail.literals.toList
    (p.isSatisfied.1 ↔ f = []) ∧ (p.hasConflict.1 ↔ [] ∈ f) ∧
    p.unitLiteral.1 = f.findSome? Clause.single? ∧
    p.pureLiterals.1 = Dpll.pureLiterals n f.flatten ∧
    ∀ ls, ls.Perm p.trail.literals.toList → p.formula.reduceAll ls = f := by
  intro p f
  have h : p.Coherent := coherent_performAll n config source os
  have hcount : p.atomCount = n := atomCount_performAll n config source os
  have hf : f = p.residue := reduceAll_trail h
  refine ⟨?_, ?_, ?_, ?_, fun ls hls ↦ Formula.reduceAll_perm h.records.negate_not_mem hls⟩
  · rw [hf, isSatisfied_iff_residue h]
  · rw [hf, hasConflict_iff_residue h]
  · rw [hf, unitLiteral_eq_residue h]
  · rw [hf, pureLiterals_eq_residue h, hcount]

theorem scans_agree_with_reduction_two :
    let p := ((empty 4 {} (⟨[]⟩ : Script)).performAll
      [.add [1, 2], .add [-1, 3, -4], .assign 1 true true, .assign 4 true false]).2
    [4, 1].Perm p.trail.literals.toList ∧ p.formula.reduceAll [4, 1] = [[3]] ∧
      p.unitLiteral.1 = some 3 := by
  have h := scans_agree_with_reduction 4 {} (⟨[]⟩ : Script)
    [.add [1, 2], .add [-1, 3, -4], .assign 1 true true, .assign 4 true false]
  obtain ⟨-, -, hunit, -, hperm⟩ := h
  have hp := hperm [4, 1] (by decide +kernel)
  exact ⟨by decide +kernel, hp.trans (by decide +kernel), hunit.trans (by decide +kernel)⟩

end Problem

end Dpll
