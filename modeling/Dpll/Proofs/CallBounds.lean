import Dpll.Proofs.BranchCalls
import Dpll.Proofs.Fixpoint
import Dpll.Proofs.Frames
import Dpll.Proofs.Reachable
import Dpll.Random.Choice

namespace Dpll

theorem Valuation.Free.two_le {v : Valuation} {l m : Literal} (hl : v.Free l) (hm : v.Free m)
    (hne : m.atom ≠ l.atom) : 2 ≤ v.unvaluedCount := by
  have h₁ := unvaluedCount_assign (assign_of_free hl)
  have h₂ := unvaluedCount_assign (assign_of_free (hl.make hm hne))
  omega

theorem Clause.Normal.exists_two {v : Valuation} {n : Nat} {c : Clause} (h : c.Normal n)
    (hs : c.status v ≠ .satisfied) (hc : c.status v ≠ .conflict) (hu : ∀ l, c.status v ≠ .unit l) :
    ∃ l ∈ c, ∃ m ∈ c, v.truth l = none ∧ v.truth m = none ∧ m.atom ≠ l.atom := by
  have hst := Clause.status_of_not_true (Clause.not_true_of_status_ne hs)
  rw [hst] at hc hu
  match hls : c.unvalued v with
  | [] => exact absurd (by rw [hls]; rfl) hc
  | [l] => exact absurd (by rw [hls]; rfl) (hu l)
  | l :: m :: ls =>
    have hl : l ∈ c.unvalued v := by simp [hls]
    have hm : m ∈ c.unvalued v := by simp [hls]
    have hnodup : ((c.unvalued v).map Literal.atom).Nodup :=
      h.nodup.sublist (List.filter_sublist.map _)
    rw [hls] at hnodup
    have hne : m.atom ≠ l.atom := by
      intro ha
      simp [ha] at hnodup
    obtain ⟨hl, hlt⟩ := Clause.mem_unvalued.1 hl
    obtain ⟨hm, hmt⟩ := Clause.mem_unvalued.1 hm
    exact ⟨l, hl, m, hm, hlt, hmt, hne⟩

namespace Problem

variable {ρ : Type} {p : Problem ρ}

/-- If no clause is a unit clause or in conflict, and some clause is not satisfied, there are two
atoms to decide on. -/
theorem two_le_unvalued (h : p.Coherent) (hu : p.unitLiteral.1 = none)
    (hs : ¬ ∀ c ∈ p.formula, c.status p.valuation = .satisfied)
    (hc : ¬ ∃ c ∈ p.formula, c.status p.valuation = .conflict) : 2 ≤ p.unvalued := by
  push Not at hs hc
  obtain ⟨c, hcf, hsat⟩ := hs
  obtain ⟨l, hl, m, hm, hlt, hmt, hne⟩ := (h.normal c hcf).exists_two hsat (hc c hcf)
    ((unitLiteral_eq_none_iff h).1 hu c hcf)
  exact (h.free hcf hl hlt).two_le (h.free hcf hm hmt) hne

end Problem

namespace Search

variable {ρ : Type} {s s' s₁ : Search ρ} {l : Literal}

theorem unvalued_of_decideOn (h : s.decideOn l = .ok s₁) :
    s₁.problem.unvalued + 1 = s.problem.unvalued := by
  unfold decideOn at h
  split at h
  next => cases h
  next ha =>
    cases h
    exact Problem.unvalued_assign ha

variable [Chooser ρ]

theorem unvalued_pos_of_decision (hs : s.problem.Coherent) (h : s.step = .ok (.decision l, s₁)) :
    0 < s₁.problem.unvalued := by
  unfold step at h
  split at h
  next => cases h
  next m hm =>
    obtain ⟨p, hp, hS⟩ := Problem.exists_simplified hs
    obtain ⟨_, hp', hu, -⟩ := Problem.exists_fixpoint hs
    cases hp.symm.trans hp'
    have hi := Problem.isSatisfied_spec hS.coherent
    rw [hp] at h
    dsimp only at h
    split at h
    next => cases h
    next q hq =>
      rw [hq] at hi
      obtain ⟨hsat, hpq⟩ := hi
      have hq' := hpq.coherent hS.coherent
      have hc := Problem.hasConflict_spec hq'
      split at h
      next => cases h
      next r hr =>
        rw [hr] at hc
        obtain ⟨hcon, hqr⟩ := hc
        rw [← hpq.formula, ← hpq.valuation] at hsat
        have hu' := (hpq.unitLiteral hS.coherent).trans hu
        have htwo : 2 ≤ q.unvalued := Problem.two_le_unvalued hq' hu'
          (of_decide_eq_false hsat.symm) (of_decide_eq_false hcon.symm)
        split at h
        next => cases h
        next k t ht =>
          obtain ⟨source, rfl⟩ := Problem.exists_source_of_chooseDecision ht
          split at h
          next => cases h
          next s₂ hs₂ =>
            cases h
            have hdecided := unvalued_of_decideOn hs₂
            have hr : r.unvalued = q.unvalued := congrArg Valuation.unvaluedCount hqr.valuation
            change _ = r.unvalued at hdecided
            omega

theorem unvalued_of_decision (hs : s.problem.Coherent) (h : s.step = .ok (.decision l, s₁)) :
    ∃ p, s.problem.Simplified p ∧ p.Decided l s₁.problem ∧ 2 ≤ s.problem.unvalued ∧
      ∀ {m : Literal} {q : Problem ρ}, p.Decided m q → q.unvalued < s.problem.unvalued := by
  have hpos := unvalued_pos_of_decision hs h
  obtain ⟨p, hp, hd, -⟩ := (stepped_of_step hs h).decision
  have hle := hp.unvalued_le hs
  have hu := hd.unvalued hp.coherent
  refine ⟨p, hp, hd, by omega, ?_⟩
  intro m q hq
  have hu' := hq.unvalued hp.coherent
  omega

/-- A search makes no more calls than there may be with the atoms left to it. -/
theorem Explores.callCount_le {depth : Nat} {ms : List (Move ρ)} {v : Verdict}
    (h : Explores depth s ms v s') (hs : s.problem.Coherent) :
    callCount ms ≤ mostCalls s.problem.unvalued := by
  induction h with
  | settled h => exact mostCalls_pos _
  | kept h h₁ hv ih =>
    obtain ⟨p, hp, hd, htwo, hlt⟩ := unvalued_of_decision hs h
    have hsum := mostCalls_add htwo (hlt hd) (hlt hd)
    have hcalls := ih hd.coherent
    simp only [callCount]
    omega
  | turned h h₁ ht h₃ _ ih₁ ih₃ | refuted h h₁ ht h₃ _ ih₁ ih₃ =>
    obtain ⟨p, hp, hd, htwo, hlt⟩ := unvalued_of_decision hs h
    obtain ⟨q, ht', hd'⟩ := (h₁.explored hd.coherent).turn hp.coherent hd
    cases ht.symm.trans ht'
    have hsum := mostCalls_add htwo (hlt hd) (hlt hd')
    have hcalls := ih₁ hd.coherent
    have hcalls' := ih₃ hd'.coherent
    dsimp only at hcalls'
    simp only [callCount, callCount_append]
    omega

/-- From whatever state a problem has reached, both forms of search end within so many calls, and with
no more decisions open at any time than there are atoms to decide on. So does the search of a copying
solver, by the atoms which occur in its formula. -/
theorem calls_bounded (n : Nat) (config : Config) (source : ρ) (os : List Operation) (m : Monitor) :
    let s : Search ρ := ⟨((Problem.empty n config source).performAll os).2, m⟩
    let u := s.problem.unvalued
    (∃ ms v s', callCount ms ≤ max 1 (2 ^ u - 1) ∧
      s'.monitor.counters.calls = m.counters.calls + callCount ms ∧
      s.iterate = .ok (v, s') ∧ s.recurse = .ok (v, s') ∧
      (∀ calls, max 1 (2 ^ u - 1) ≤ calls →
        iterateLogged calls [] s = ⟨ms, .ok (v, s')⟩ ∧ iterateFrom calls [] s = .ok (v, s')) ∧
      (∀ depth, u + 1 ≤ depth →
        recurseLogged depth s = ⟨ms, .ok (v, s')⟩ ∧ recurseTo depth s = .ok (v, s')) ∧
      ∀ t, .call t ∈ ms → ∃ ls, Recurses s ls t) ∧
    (∀ k frames t, Reaches s k frames t → frames.length ≤ u ∧
      ∀ calls, iterateFrom (k + calls) [] s = iterateFrom calls frames t) ∧
    (∀ ls t, Recurses s ls t → ls.length ≤ u) ∧
    ∀ {σ : Type} [Storage] [ClauseSource σ] (t₀ t : CopyingSolver) (text : σ) (info : Loaded),
      t₀.load text = .ok (info, t) →
        t.formula.atoms ⊆ Formula.atoms (ClauseSource.clauses text) ∧
        ∀ m : Monitor, ∃ r m', { t with monitor := m }.solve = .ok (r, { t with monitor := m' }) ∧
          m'.counters.calls ≤ max 1 (2 ^ t.formula.atoms.card - 1) := by
  intro s u
  have hs : s.problem.Coherent := Problem.coherent_performAll n config source os
  refine ⟨?_, ?_, ?_, ?_⟩
  · obtain ⟨ms, v, s', h⟩ := exists_explores hs (Nat.lt_succ_self _)
    obtain ⟨hi, hr⟩ := h.iterate_and_recurse
    have hle : callCount ms ≤ max 1 (2 ^ u - 1) := h.callCount_le hs
    refine ⟨ms, v, s', hle, (h.later hs).calls, hi, hr, ?_, ?_, fun t ht ↦ h.recurses hs ht⟩
    · intro calls hc
      have hl := h.iterateLogged_of_callCount_le (Nat.le_trans hle hc)
      exact ⟨hl, by rw [← result_iterateLogged, hl]⟩
    · intro depth hd
      have hl := (h.mono hd).recurseLogged
      exact ⟨hl, by rw [← result_recurseLogged, hl]⟩
  · intro k frames t h
    have hle := (h.framed hs).length_add_le hs
    exact ⟨by omega, h.iterateFrom⟩
  · intro ls t h
    have hle := h.length_add_le hs
    omega
  · intro σ _ _ t₀ t text info h
    exact ⟨CopyingSolver.atoms_subset_of_load h, CopyingSolver.calls_of_solve h⟩

theorem calls_bounded_two :
    let s : Search Script := ⟨((Problem.empty 2 {} (⟨[]⟩ : Script)).performAll
      [.add [1, 2], .add [-1, -2]]).2, .ofConfig {} fun _ ↦ 0⟩
    (∃ v s', s.iterate = .ok (v, s') ∧ s'.monitor.counters.calls ≤ 3) ∧
    (∃ t, Recurses s [1] t ∧ Reaches s 1 [⟨1, false⟩] t ∧
      iterateFrom 3 [] s = iterateFrom 2 [⟨1, false⟩] t) ∧
    ∃ info t r m,
      (CopyingSolver.ofConfig {} fun _ ↦ 0).load (⟨2, [[1, 2], [-1, -2]]⟩ : ClauseList) =
        .ok (info, t) ∧ t.solve = .ok (r, { t with monitor := m }) ∧ m.counters.calls ≤ 3 := by
  intro s
  have h := calls_bounded 2 {} (⟨[]⟩ : Script) [.add [1, 2], .add [-1, -2]] (.ofConfig {} fun _ ↦ 0)
  obtain ⟨⟨ms, v, s', hle, hcalls, hi, -⟩, hframes, -, hload⟩ := h
  have hs : s.problem.Coherent :=
    Problem.coherent_performAll 2 {} (⟨[]⟩ : Script) [.add [1, 2], .add [-1, -2]]
  have hu : s.problem.unvalued = 2 := by decide +kernel
  refine ⟨⟨v, s', hi, ?_⟩, ?_, ?_⟩
  · change callCount ms ≤ mostCalls s.problem.unvalued at hle
    rw [hu] at hle
    rw [hcalls]
    exact (Nat.zero_add (callCount ms)).trans_le hle
  · obtain ⟨a, t, ht, -⟩ := step_spec hs
    have ha : s.step.toOption.map (·.1) = some (.decision 1) := by decide +kernel
    rw [ht] at ha
    cases ha
    have hr : Reaches s 1 [⟨1, false⟩] t := .decided .start ht
    exact ⟨t, .first .start ht, hr, (hframes 1 _ t hr).2 2⟩
  · obtain ⟨info, t, ht⟩ := CopyingSolver.exists_load 2 [[1, 2], [-1, -2]]
      (.ofConfig {} fun _ ↦ 0) (by decide) (by decide)
    obtain ⟨hsub, hm⟩ := hload _ t _ info ht
    obtain ⟨r, m, hr, hc⟩ := hm t.monitor
    have hcard : t.formula.atoms.card ≤ 2 := (Finset.card_le_card hsub).trans (by decide +kernel)
    exact ⟨info, t, r, m, ht, hr, hc.trans (mostCalls_mono hcard)⟩

end Search

end Dpll
