import Dpll.Proofs.Calls
import Dpll.Proofs.Solve

namespace Dpll

theorem Valuation.head?_unvalued {v : Valuation} {a : Nat} (ha : a < v.size)
    (hn : v.value a = none) (hlt : ∀ b < a, v.value b ≠ none) : v.unvalued.head? = some a := by
  have hu : v.unvalued = (List.range v.size).filter fun b ↦ (v.value b).isNone := by
    rw [unvalued, Atom.collect_eq_filterMap, ← List.filterMap_eq_filter]
    rfl
  rw [hu, List.head?_filter, List.find?_range_eq_some]
  simpa [hn, ha, Option.isSome_iff_ne_none] using hlt

theorem Literal.negate_ofAtom (a : Atom) (b : Bool) : (ofAtom a b).negate = ofAtom a !b := by
  cases b <;> simp [ofAtom, negate]

namespace Formula

/-- A clause which ends with the two last atoms of `k + 3`. -/
def ending (k : Nat) (l : Literal) (b c : Bool) : Clause :=
  [l, .ofAtom (k + 2) b, .ofAtom (k + 3) c]

/-- Clauses over the atoms `1` to `k + 3`. The first has to be false, as otherwise the last two are
left without values to have. None of the `k` atoms between has to do with it. -/
def detour (k : Nat) : Formula :=
  (List.range k).flatMap (fun i ↦
    [ending k (.ofAtom (i + 2) true) true true, ending k (.ofAtom (i + 2) false) true true]) ++
  [ending k (.ofAtom 1 false) true false, ending k (.ofAtom 1 false) false true,
    ending k (.ofAtom 1 false) false false, ending k (.ofAtom 1 true) true false,
    ending k (.ofAtom 1 true) false true]

example : detour 1 = [[2, 3, 4], [-2, 3, 4], [-1, 3, -4], [-1, -3, 4], [-1, -3, -4], [1, 3, -4],
    [1, -3, 4]] := by
  decide

variable {k : Nat} {c : Clause} {v : Valuation} {l : Literal}

inductive Leads (k : Nat) : Literal → Bool → Bool → Prop
  | between {i : Nat} (hi : i < k) (b : Bool) : Leads k (.ofAtom (i + 2) b) true true
  | first (b d : Bool) : Leads k (.ofAtom 1 b) d !d
  | last : Leads k (.ofAtom 1 false) false false

theorem mem_detour_iff : c ∈ detour k ↔ ∃ l b d, Leads k l b d ∧ c = ending k l b d := by
  constructor
  · intro h
    simp only [detour, List.mem_append, List.mem_flatMap, List.mem_range, List.mem_cons,
      List.not_mem_nil, or_false] at h
    rcases h with ⟨i, hi, rfl | rfl⟩ | rfl | rfl | rfl | rfl | rfl
    · exact ⟨_, _, _, .between hi true, rfl⟩
    · exact ⟨_, _, _, .between hi false, rfl⟩
    · exact ⟨_, _, _, .first false true, rfl⟩
    · exact ⟨_, _, _, .first false false, rfl⟩
    · exact ⟨_, _, _, .last, rfl⟩
    · exact ⟨_, _, _, .first true true, rfl⟩
    · exact ⟨_, _, _, .first true false, rfl⟩
  · rintro ⟨_, d, _, ⟨hi, b⟩ | b | _, rfl⟩
    · refine List.mem_append_left _ (List.mem_flatMap.2 ⟨_, List.mem_range.2 hi, ?_⟩)
      cases b <;> simp
    · refine List.mem_append_right _ ?_
      cases b <;> cases d <;> simp
    · exact List.mem_append_right _ (by simp)

theorem nil_not_mem_detour : [] ∉ detour k := by
  intro h
  obtain ⟨l, b, d, -, he⟩ := mem_detour_iff.1 h
  cases he

theorem Leads.exists_negate {b d : Bool} (h : Leads k l b d) :
    ∃ b' d', Leads k l.negate b' d' := by
  cases h with
  | between hi b =>
    rw [Literal.negate_ofAtom]
    exact ⟨_, _, .between hi !b⟩
  | first b =>
    rw [Literal.negate_ofAtom]
    exact ⟨_, _, .first (!b) true⟩
  | last =>
    rw [Literal.negate_ofAtom]
    exact ⟨_, _, .first true true⟩

section Quiet

variable (h₁ : v.value 1 ≠ some false) (h₂ : v.value (k + 2) = none) (h₃ : v.value (k + 3) = none)
include h₂ h₃

theorem status_ending (l : Literal) (b d : Bool) :
    (ending k l b d).status v = if v.truth l = some true then .satisfied else .pending := by
  have ht₂ : v.truth (.ofAtom (k + 2) b) = none := by
    rwa [Valuation.truth_eq_none_iff, Literal.atom_ofAtom]
  have ht₃ : v.truth (.ofAtom (k + 3) d) = none := by
    rwa [Valuation.truth_eq_none_iff, Literal.atom_ofAtom]
  simp only [ending, Clause.status, Clause.statusFrom, ht₂, ht₃]
  rcases v.truth l with _ | _ | _ <;> rfl

theorem status_ending_ne_iff {b d : Bool} :
    (ending k l b d).status v ≠ .satisfied ↔ v.truth l ≠ some true := by
  rw [status_ending h₂ h₃]
  by_cases h : v.truth l = some true
  · simp [h]
  · simp [h]

include h₁

theorem quiet_detour : (detour k).Quiet v := by
  have hfirst (d : Bool) : ∃ c ∈ detour k, c.status v ≠ .satisfied ∧
      c = ending k (.ofAtom 1 false) d !d := by
    refine ⟨_, mem_detour_iff.2 ⟨_, _, _, .first false d, rfl⟩, ?_, rfl⟩
    rw [status_ending_ne_iff h₂ h₃, Ne, Valuation.truth_eq_true_iff, Literal.atom_ofAtom,
      Literal.positive_ofAtom Nat.one_ne_zero]
    exact h₁
  constructor
  case unsettled =>
    obtain ⟨c, hc, hs, -⟩ := hfirst true
    exact ⟨c, hc, hs⟩
  case pending =>
    intro c hc hs
    obtain ⟨l, b, d, -, rfl⟩ := mem_detour_iff.1 hc
    rw [status_ending h₂ h₃, if_neg ((status_ending_ne_iff h₂ h₃).1 hs)]
  case impure =>
    intro c hc hs m hm ht
    obtain ⟨l, b, d, hl, rfl⟩ := mem_detour_iff.1 hc
    simp only [ending, List.mem_cons, List.not_mem_nil, or_false] at hm
    rcases hm with rfl | rfl | rfl
    · obtain ⟨b', d', hn⟩ := hl.exists_negate
      refine ⟨_, mem_detour_iff.2 ⟨_, _, _, hn, rfl⟩, ?_, .head _⟩
      have ht' : v.truth m.negate = none := by
        rwa [Valuation.truth_eq_none_iff, Literal.atom_negate, ← Valuation.truth_eq_none_iff]
      rw [status_ending_ne_iff h₂ h₃, ht']
      nofun
    · obtain ⟨c, hc, hs, rfl⟩ := hfirst !b
      exact ⟨_, hc, hs, by simp [ending, Literal.negate_ofAtom]⟩
    · obtain ⟨c, hc, hs, rfl⟩ := hfirst d
      exact ⟨_, hc, hs, by simp [ending, Literal.negate_ofAtom]⟩

end Quiet

theorem quietFor_detour {a : Nat} (hs : v.size = k + 4) (h₁ : v.value 1 ≠ some false)
    (ha : 2 ≤ a) (hv : ∀ x : Nat, x < k + 4 → (v.value x = none ↔ a ≤ x)) :
    (detour k).QuietFor (k + 3 - a) v := by
  induction hn : k + 3 - a generalizing a v with
  | zero => exact .zero v
  | succ n ih =>
    have hva : v.value a = none := (hv a (by omega)).2 (Nat.le_refl a)
    have hfree (b : Bool) : v.Free (.ofAtom a b) := by
      have hne : a ≠ 0 := by omega
      have hlt : a < v.size := by omega
      refine ⟨Valuation.contains_iff.2 ?_, ?_⟩ <;> rw [Literal.atom_ofAtom]
      · exact ⟨hne, hlt⟩
      · exact hva
    have hnext (b : Bool) : (detour k).QuietFor n (v.make (.ofAtom a b)) := by
      refine ih (a := a + 1) ?_ ?_ (by omega) ?_ (by omega)
      · rw [Valuation.size_make, hs]
      · have hne : 1 ≠ a := by omega
        rw [(hfree b).value_make, Literal.atom_ofAtom, if_neg hne]
        exact h₁
      · intro x hx
        rw [(hfree b).value_make, Literal.atom_ofAtom]
        by_cases hxa : x = a
        · simp [hxa]
        · rw [if_neg hxa, hv x hx]
          omega
    refine .succ (quiet_detour h₁ ?_ ?_) (Valuation.head?_unvalued ?_ hva ?_) (hnext true)
      (hnext false)
    · exact (hv _ (by omega)).2 (by omega)
    · exact (hv _ (by omega)).2 (by omega)
    · omega
    · intro b hb hn
      have := (hv b (by omega)).1 hn
      omega

theorem holds_ending {M : Model} {b d : Bool} :
    (ending k l b d).Holds M ↔ l.Holds M ∨ M (k + 2) = b ∨ M (k + 3) = d := by
  simp [ending, Literal.Holds, Literal.positive_ofAtom]

theorem satisfiable_detour (k : Nat) : (detour k).Satisfiable := by
  refine ⟨fun a ↦ decide (a ≠ 1), fun c hc ↦ ?_⟩
  obtain ⟨_, d, _, ⟨hi, b⟩ | b | _, rfl⟩ := mem_detour_iff.1 hc
  · exact holds_ending.2 (.inr (.inl (by simp)))
  · cases d <;> simp [holds_ending]
  · exact holds_ending.2 (.inl (by simp [Literal.Holds, Literal.positive_ofAtom]))

theorem not_holds_detour {M : Model} (hk : 0 < k) (hM : M 1 = true) : ¬ (detour k).Holds M := by
  intro h
  have hc {l : Literal} {b d : Bool} (hl : Leads k l b d) :
      l.Holds M ∨ M (k + 2) = b ∨ M (k + 3) = d :=
    holds_ending.1 (h _ (mem_detour_iff.2 ⟨l, b, d, hl, rfl⟩))
  have hfirst : ¬ Literal.Holds M (.ofAtom 1 false) := by
    simp [Literal.Holds, Literal.positive_ofAtom, hM]
  -- the three clauses which deny the first atom leave only that both of the last are false
  have h₁ := (hc (.first false true)).resolve_left hfirst
  have h₂ := (hc (.first false false)).resolve_left hfirst
  have h₃ := (hc .last).resolve_left hfirst
  have hbetween (b : Bool) : M 2 = b ∨ M (k + 2) = true ∨ M (k + 3) = true := by
    simpa [Literal.Holds, Literal.positive_ofAtom] using hc (.between hk b)
  have h₄ := hbetween true
  have h₅ := hbetween false
  revert h₁ h₂ h₃ h₄ h₅
  cases M 2 <;> cases M (k + 2) <;> cases M (k + 3) <;> simp

end Formula

namespace Search

variable {ρ : Type} [Chooser ρ] {s s' : Search ρ} {v : Verdict} {a : Atom} {d : Nat}

theorem Explores.first_of_quiet {depth : Nat} {ms : List (Move ρ)} (h : Explores depth s ms v s')
    (hs : s.problem.Coherent) (hf : s.problem.config.heuristic.value = .first)
    (hq : s.problem.formula.Quiet s.problem.valuation) (hc : s.monitor.call.1 = false)
    (ha : s.problem.valuation.unvalued.head? = some a) :
    ∃ depth₁ ms₁ w s₁ s₂, s.Stepped (.decision (.ofAtom a true)) s₁ ∧
      s.problem.Keeps s₁.problem ∧
      s₁.problem.valuation = s.problem.valuation.make (.ofAtom a true) ∧
      Explores depth₁ s₁ ms₁ w s₂ ∧ (w ≠ .unsatisfied → v = w ∧ s' = s₂) := by
  have hfirst {l : Literal} {s₁ : Search ρ} (hst : s.step = .ok (.decision l, s₁)) :
      s.Stepped (.decision (.ofAtom a true)) s₁ ∧ s.problem.Keeps s₁.problem ∧
        s₁.problem.valuation = s.problem.valuation.make (.ofAtom a true) := by
    obtain hn | ⟨b, p, hb, hp, hv, hl, hd⟩ := step_of_quiet hs hf hq hst
    · cases hn
    · cases hl
      cases ha.symm.trans hb
      exact ⟨stepped_of_step hs hst, hp.keeps.trans hd.keeps, by rw [hd.valuation, hv]⟩
  cases h with
  | settled hst =>
    obtain hn | ⟨b, p, -, -, -, hn, -⟩ := step_of_quiet hs hf hq hst
    · cases hn
      cases stepped_of_step hs hst with
      | ended hm =>
        rw [hm] at hc
        cases hc
    · cases hn
  | kept hst h₁ hv =>
    obtain ⟨h, hk, hv₁⟩ := hfirst hst
    exact ⟨_, _, _, _, _, h, hk, hv₁, h₁, fun _ ↦ ⟨rfl, rfl⟩⟩
  | turned hst h₁ ht h₃ hv =>
    obtain ⟨h, hk, hv₁⟩ := hfirst hst
    exact ⟨_, _, _, _, _, h, hk, hv₁, h₁, fun hn ↦ absurd rfl hn⟩
  | refuted hst h₁ ht h₃ hr =>
    obtain ⟨h, hk, hv₁⟩ := hfirst hst
    exact ⟨_, _, _, _, _, h, hk, hv₁, h₁, fun hn ↦ absurd rfl hn⟩

/-- A search which is to end at the first check does not get to the opposite of its first decision, if
refuting that decision takes too many calls. It leaves the decision on the trail, and no model has
it. -/
theorem run_of_hasty (hs : s.problem.Coherent) (hf : s.problem.config.heuristic.value = .first)
    (hm : s.monitor.Hasty) (hz : s.monitor.counters.calls = 0)
    (hq : s.problem.formula.Quiet s.problem.valuation)
    (ha : s.problem.valuation.unvalued.head? = some a)
    (hd : s.problem.formula.QuietFor d (s.problem.valuation.make (.ofAtom a true)))
    (hu : ¬ s.problem.formula.SatisfiableUnder (s.problem.valuation.make (.ofAtom a true)))
    (hle : Monitor.checkFrequency ≤ callBound (d + 1)) :
    ∃ s', s.run = .ok (.unknown, s') ∧ s.Explored .unknown s' ∧
      s'.monitor.timeLimit = s.monitor.timeLimit ∧
      ¬ s.problem.formula.SatisfiableUnder s'.problem.valuation := by
  obtain ⟨ms, v, s', h⟩ := exists_explores hs (Nat.lt_succ_self _)
  have hx := h.explored hs
  obtain ⟨_, ms₁, w, s₁, s₂, hst, hk₁, hv₁, h₁, hw⟩ :=
    h.first_of_quiet hs hf hq (Monitor.call_of_zero hz) ha
  have hs₁ := hst.coherent hs
  have hx₁ := h₁.explored hs₁
  rw [← hv₁, ← hk₁.formula] at hd hu
  cases w with
  | unsatisfied =>
    -- by then a check would have been made
    have hcalls := h₁.callBound_le hs₁ (by rw [hk₁.config, hf]) hd
    have hl := hst.later_of_decision
    have hl₁ := h₁.later hs₁
    have hn := hl₁.unchecked Verdict.noConfusion (hl.hasty hm)
    rw [hl₁.calls, hl.calls, hz] at hn
    simp only [Monitor.checkFrequency] at hn hle
    omega
  | satisfied =>
    refine absurd ⟨_, ?_, hx₁.holds_complete⟩ hu
    exact hs₁.extended_of_before hx₁.coherent hx₁.keeps hx₁.before (Valuation.extended_complete _)
  | unknown =>
    obtain ⟨rfl, rfl⟩ := hw Verdict.noConfusion
    refine ⟨s', h.run, hx, (h.later hs).timeLimit, ?_⟩
    rintro ⟨M, hM, hf⟩
    refine hu ⟨M, hs₁.extended_of_before hx₁.coherent hx₁.keeps hx₁.before hM, ?_⟩
    rwa [hk₁.formula]

/-- The next solve takes that decision for given, and refutes the formula with it. -/
theorem solve_of_hasty (hs : s.problem.Coherent)
    (hf : s.problem.config.heuristic.value = .first) (he : s.problem.store.hasEmpty = false)
    (hm : s.monitor.Hasty) (hz : s.monitor.counters.calls = 0)
    (hq : s.problem.formula.Quiet s.problem.valuation)
    (ha : s.problem.valuation.unvalued.head? = some a)
    (hd : s.problem.formula.QuietFor d (s.problem.valuation.make (.ofAtom a true)))
    (hu : ¬ s.problem.formula.SatisfiableUnder (s.problem.valuation.make (.ofAtom a true)))
    (hle : Monitor.checkFrequency ≤ callBound (d + 1)) :
    ∃ s', s.solve = .ok (.unknown, s') ∧ s'.monitor.timeLimit = s.monitor.timeLimit ∧
      ∀ m : Monitor, m.Endless → ∃ s'', solve ⟨s'.problem, m⟩ = .ok (.unsatisfied, s'') := by
  have hs' : (s.inPhase .solving).problem.Coherent := coherent_inPhase hs _
  obtain ⟨s', hr, hx, hlimit, hn⟩ := run_of_hasty hs' hf hm hz hq ha hd hu hle
  refine ⟨s', ?_, hlimit, ?_⟩
  · unfold solve
    rw [he, if_neg Bool.noConfusion, hr]
  · intro m hm
    obtain ⟨v, s'', hs'', -, hne, hsat⟩ := solve_of_endless (s := ⟨s'.problem, m⟩) hx.coherent hm
    cases v with
    | satisfied => exact absurd (hx.keeps.formula ▸ hsat.1 rfl) hn
    | unsatisfied => exact ⟨s'', hs''⟩
    | unknown => exact absurd rfl hne

theorem solve_detour {k : Nat} (hs : s.problem.Coherent)
    (hf : s.problem.config.heuristic.value = .first)
    (hformula : s.problem.formula = .detour k) (hv : s.problem.valuation = .blank (k + 3))
    (hm : s.monitor.Hasty) (hz : s.monitor.counters.calls = 0) (hk : 0 < k)
    (hle : Monitor.checkFrequency ≤ callBound (k + 2)) :
    ∃ s', s.solve = .ok (.unknown, s') ∧ s'.monitor.timeLimit = s.monitor.timeLimit ∧
      ∀ m : Monitor, m.Endless → ∃ s'', solve ⟨s'.problem, m⟩ = .ok (.unsatisfied, s'') := by
  have hfree : (Valuation.blank (k + 3)).Free (.ofAtom 1 true) := by
    constructor
    · simp [Valuation.contains]
    · simp [Valuation.value_blank]
  have hmake (x : Nat) : ((Valuation.blank (k + 3)).make (.ofAtom 1 true)).value x =
      if x = 1 ∨ x = 0 then some true else none := by
    rw [hfree.value_make, Valuation.value_blank, Literal.atom_ofAtom,
      Literal.positive_ofAtom Nat.one_ne_zero]
    by_cases hx : x = 1
    · simp [hx]
    · simp [hx]
  refine solve_of_hasty (a := 1) (d := k + 1) hs hf ?_ hm hz ?_ ?_ ?_ ?_ hle
  · rw [← Bool.not_eq_true, ClauseStore.hasEmpty_iff]
    change [] ∉ s.problem.formula
    rw [hformula]
    exact Formula.nil_not_mem_detour
  · rw [hformula, hv]
    exact Formula.quiet_detour (by simp [Valuation.value_blank]) (by simp [Valuation.value_blank])
      (by simp [Valuation.value_blank])
  · rw [hv]
    exact Valuation.head?_unvalued (by simp) (by simp [Valuation.value_blank])
      (by simp [Valuation.value_blank])
  · rw [hformula, hv]
    refine Formula.quietFor_detour (a := 2) (by simp) (by simp [hmake]) (Nat.le_refl 2) ?_
    intro x _
    rw [hmake]
    split
    next hx => exact iff_of_false (Option.some_ne_none _) (by omega)
    next hx => exact iff_of_true rfl (by omega)
  · rw [hformula, hv]
    rintro ⟨M, hM, hf⟩
    have hM := ((Valuation.extended_make_iff hfree).1 hM).2
    exact Formula.not_holds_detour hk hM hf

end Search

end Dpll
