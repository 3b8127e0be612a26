import Dpll.Proofs.Decision
import Dpll.Proofs.Monitor
import Dpll.Proofs.Simplification
import Dpll.Search

namespace Dpll

namespace Problem

variable {ρ : Type} {p q r : Problem ρ}

/-- What comes of a problem by simplification: nothing is undone, and there are models as before. -/
structure Simplified (p q : Problem ρ) : Prop extends p.Continues q where
  satisfiable_iff :
    p.formula.SatisfiableUnder q.valuation ↔ p.formula.SatisfiableUnder p.valuation

theorem exists_simplified (h : p.Coherent) : ∃ q, p.simplify = .ok q ∧ p.Simplified q := by
  obtain ⟨q, hq, hc, hS⟩ := simplify_spec h
  exact ⟨q, hq, hc, hS⟩

theorem Coherent.exists_free (h : p.Coherent)
    (hs : ¬ ∀ c ∈ p.formula, c.status p.valuation = .satisfied)
    (hn : ¬ ∃ c ∈ p.formula, c.status p.valuation = .conflict) : ∃ l, p.valuation.Free l := by
  obtain ⟨c, hc, hsat⟩ : ∃ c ∈ p.formula, c.status p.valuation ≠ .satisfied := by simpa using hs
  obtain ⟨l, hl, ht⟩ := Clause.exists_truth_none hsat fun he ↦ hn ⟨c, hc, he⟩
  exact ⟨l, h.free hc hl ht⟩

theorem Simplified.examined (h : p.Simplified q) (he : q.Examined r) : p.Simplified r :=
  ⟨h.toContinues.trans (he.continues h.coherent), by rw [he.valuation, h.satisfiable_iff]⟩

end Problem

namespace Search

variable {ρ : Type} {s s' s₁ s₂ s₃ s₄ s₅ : Search ρ} {l : Literal} {v : Verdict}

inductive Stepped (s : Search ρ) : Step → Search ρ → Prop
  | ended {m : Monitor} (hm : s.monitor.call = (true, m)) :
    Stepped s (.verdict .unknown) ⟨s.problem, m⟩
  | satisfied {m : Monitor} {p : Problem ρ} (hm : s.monitor.call = (false, m))
    (hp : s.problem.Simplified p) (hs : ∀ c ∈ p.formula, c.status p.valuation = .satisfied) :
    Stepped s (.verdict .satisfied) ⟨p, m⟩
  | conflict {m : Monitor} {p : Problem ρ} (hm : s.monitor.call = (false, m))
    (hp : s.problem.Simplified p) (hs : ∃ c ∈ p.formula, c.status p.valuation = .conflict) :
    Stepped s (.verdict .unsatisfied) ⟨p, m⟩
  | decided {m : Monitor} {p : Problem ρ} {l : Literal} (hm : s.monitor.call = (false, m))
    (hp : s.problem.Simplified p) (hl : p.valuation.Free l) (source : ρ) :
    Stepped s (.decision l) ⟨({ p with source } : Problem ρ).put l true, m.countDecision⟩

/-- A call of the search ends without a fault. In particular there is a literal to decide on,
whenever one is asked for. -/
theorem step_spec [Chooser ρ] (h : s.problem.Coherent) :
    ∃ a s', s.step = .ok (a, s') ∧ s.Stepped a s' := by
  unfold step
  cases hm : s.monitor.call with
  | mk ended m =>
  cases ended with
  | true => exact ⟨_, _, rfl, .ended hm⟩
  | false =>
    obtain ⟨p, hp, hs⟩ := Problem.exists_simplified h
    have hi := Problem.isSatisfied_spec hs.coherent
    simp only [hp]
    cases hq : p.isSatisfied with
    | mk satisfied q =>
    rw [hq] at hi
    obtain ⟨h₁, hpq⟩ := hi
    have hsq := hs.examined hpq
    cases satisfied with
    | true =>
      rw [← hpq.formula, ← hpq.valuation] at h₁
      exact ⟨_, _, rfl, .satisfied hm hsq (of_decide_eq_true h₁.symm)⟩
    | false =>
      have hi := Problem.hasConflict_spec hsq.coherent
      dsimp only
      cases hr : q.hasConflict with
      | mk conflict r =>
      rw [hr] at hi
      obtain ⟨h₂, hqr⟩ := hi
      have hsr := hsq.examined hqr
      cases conflict with
      | true =>
        rw [← hqr.formula, ← hqr.valuation] at h₂
        exact ⟨_, _, rfl, .conflict hm hsr (of_decide_eq_true h₂.symm)⟩
      | false =>
        rw [← hpq.formula, ← hpq.valuation, ← hqr.formula, ← hqr.valuation] at h₁
        rw [← hqr.formula, ← hqr.valuation] at h₂
        obtain ⟨k, hfree⟩ := hsr.coherent.exists_free (of_decide_eq_false h₁.symm)
          (of_decide_eq_false h₂.symm)
        obtain ⟨l, source, hl, hf⟩ :=
          Problem.chooseDecision_spec hsr.coherent (Problem.unvalued_ne_nil_of_free hfree)
        have ha := Problem.assert_of_free (p := { r with source }) hf true
        simp only [hl, decideOn, ha]
        exact ⟨_, _, rfl, .decided hm hsr hf source⟩

/-- What holds of a search from `s` which ends with a verdict in `s'`. Its answers are true of the
models of the valuation of `s`. -/
structure Explored (s : Search ρ) (v : Verdict) (s' : Search ρ) : Prop where
  coherent : s'.problem.Coherent
  keeps : s.problem.Keeps s'.problem
  before : s.problem.trail.Before s'.problem.trail
  satisfied : v = .satisfied → ∀ c ∈ s.problem.formula, c.status s'.problem.valuation = .satisfied
  grows : v = .unsatisfied → s.problem.trail.Grows s'.problem.trail
  refuted : v = .unsatisfied → ¬ s.problem.formula.SatisfiableUnder s.problem.valuation
  endless : s.monitor.Endless → v ≠ .unknown ∧ s'.monitor.Endless

theorem Stepped.explored (h : s.Stepped (.verdict v) s') (hs : s.problem.Coherent) :
    s.Explored v s' := by
  cases h with
  | ended hm =>
    refine ⟨hs, .refl _, (Trail.Grows.refl _).before, nofun, nofun, nofun, ?_⟩
    intro he
    exact absurd (he.call hm).1 Bool.noConfusion
  | satisfied hm hp hsat =>
    refine ⟨hp.coherent, hp.keeps, hp.grows.before, ?_, nofun, nofun,
      fun he ↦ ⟨nofun, (he.call hm).2⟩⟩
    intro _ c hc
    exact hsat c (hp.formula ▸ hc)
  | conflict hm hp hcon =>
    refine ⟨hp.coherent, hp.keeps, hp.grows.before, nofun, fun _ ↦ hp.grows, ?_,
      fun he ↦ ⟨nofun, (he.call hm).2⟩⟩
    intro _ hsat
    obtain ⟨M, hv, hM⟩ := hp.satisfiable_iff.2 hsat
    obtain ⟨c, hc, hst⟩ := hcon
    exact Clause.not_holds_of_conflict hv (hp.coherent.ne_zero hc) hst (hM c (hp.formula ▸ hc))

theorem Stepped.decision (h : s.Stepped (.decision l) s₁) :
    ∃ p, s.problem.Simplified p ∧ p.Decided l s₁.problem ∧
      (s.monitor.Endless → s₁.monitor.Endless) := by
  cases h with
  | @decided m p _ hm hp hl source =>
    have hr : p.Restores { p with source } :=
      ⟨⟨hp.coherent.records, hp.coherent.normal, hp.coherent.store⟩, ⟨rfl, rfl, rfl, rfl, rfl⟩, rfl, rfl⟩
    exact ⟨p, hp, hr.put hl, fun he ↦ (he.call hm).2.countDecision⟩

section Decided

variable {p r : Problem ρ}

theorem Explored.of_decided (hp : s.problem.Simplified p) (hd : p.Decided l s₁.problem)
    (he : s.monitor.Endless → s₁.monitor.Endless) (h : s₁.Explored v s₂) (hv : v ≠ .unsatisfied) :
    s.Explored v s₂ where
  coherent := h.coherent
  keeps := (hp.keeps.trans hd.keeps).trans h.keeps
  before := (hp.grows.before.trans (hd.trail ▸ Trail.before_put _ _ _)).trans h.before
  satisfied hs c hc := h.satisfied hs c ((hp.keeps.trans hd.keeps).formula ▸ hc)
  grows hu := absurd hu hv
  refuted hu := absurd hu hv
  endless hs := h.endless (he hs)

theorem Explored.of_refuted (hp : s.problem.Simplified p) (hd : p.Decided l s₁.problem)
    (h₁ : s₁.Explored .unsatisfied s₂) (hd' : p.Decided l.negate s₃.problem)
    (h₃ : s₃.Explored .unsatisfied s₄) (hr : p.Restores s₅.problem)
    (he : s.monitor.Endless → s₅.monitor.Endless) : s.Explored .unsatisfied s₅ where
  coherent := hr.coherent
  keeps := hp.keeps.trans hr.keeps
  before := hp.grows.before.trans (hr.trail ▸ (Trail.Grows.refl _).before)
  satisfied := nofun
  grows _ := hr.trail ▸ hp.grows
  refuted _ hs := by
    obtain ⟨M, hv, hM⟩ := hp.satisfiable_iff.2 hs
    have hM₁ : s₁.problem.formula.Holds M := (hp.keeps.trans hd.keeps).formula ▸ hM
    have hM₃ : s₃.problem.formula.Holds M := (hp.keeps.trans hd'.keeps).formula ▸ hM
    rcases (Valuation.extended_iff_or hd.free).1 hv with hv | hv
    · exact h₁.refuted rfl ⟨M, hd.valuation ▸ hv, hM₁⟩
    · exact h₃.refuted rfl ⟨M, hd'.valuation ▸ hv, hM₃⟩
  endless hs := ⟨nofun, he hs⟩

theorem retreat_of_decided (hp : p.Coherent) (hd : p.Decided l r)
    (hs : s.problem.Coherent) (hk : r.Keeps s.problem) (hg : r.trail.Grows s.problem.trail) :
    ∃ q, s.retreat = .ok ⟨q, s.monitor.countBacktrack⟩ ∧ p.Restores q := by
  obtain ⟨q, hq, hr⟩ := hd.rollback hp hs hk hg
  exact ⟨q, by rw [Search.retreat, hq], hr⟩

theorem turn_of_decided (hp : p.Coherent) (hd : p.Decided l r)
    (hs : s.problem.Coherent) (hk : r.Keeps s.problem) (hg : r.trail.Grows s.problem.trail) :
    ∃ q, s.turn l = .ok ⟨q, s.monitor.countBacktrack⟩ ∧ p.Decided l.negate q := by
  obtain ⟨q, hq, hr⟩ := retreat_of_decided hp hd hs hk hg
  have hf : q.valuation.Free l.negate := hr.valuation ▸ hd.free.negate
  refine ⟨_, ?_, hr.put hd.free.negate⟩
  rw [Search.turn, hq]
  simp only [Problem.assert_of_free hf true]

theorem Explored.retreat (hp : p.Coherent) (hd : p.Decided l s₁.problem)
    (h : s₁.Explored .unsatisfied s₂) :
    ∃ q, s₂.retreat = .ok ⟨q, s₂.monitor.countBacktrack⟩ ∧ p.Restores q :=
  retreat_of_decided hp hd h.coherent h.keeps (h.grows rfl)

theorem Explored.turn (hp : p.Coherent) (hd : p.Decided l s₁.problem)
    (h : s₁.Explored .unsatisfied s₂) :
    ∃ q, s₂.turn l = .ok ⟨q, s₂.monitor.countBacktrack⟩ ∧ p.Decided l.negate q :=
  turn_of_decided hp hd h.coherent h.keeps (h.grows rfl)

end Decided

theorem Stepped.coherent {a : Step} (h : s.Stepped a s') (hs : s.problem.Coherent) :
    s'.problem.Coherent := by
  cases a with
  | verdict v => exact (h.explored hs).coherent
  | decision l =>
    obtain ⟨p, -, hd, -⟩ := h.decision
    exact hd.coherent

theorem Stepped.paced {a : Step} (h : s.Stepped a s') : s.problem.Paced s'.problem := by
  cases h with
  | ended hm => exact .refl s.problem
  | satisfied hm hp hs => exact hp.paced
  | conflict hm hp hs => exact hp.paced
  | @decided m p l hm hp hl source =>
    have hq : p.Paced { p with source } := ⟨.refl _, fun _ ↦ rfl⟩
    exact (hp.paced.trans hq).trans (Problem.paced_put _ l true)

theorem Stepped.phase_ne_input (h : s.Stepped (.decision l) s') :
    s'.problem.phase ≠ .input := by
  cases h with
  | decided hm hp hl source => exact Phase.afterAssignment_ne_input _

theorem Stepped.decisions (h : s.Stepped (.verdict v) s') :
    s'.monitor.counters.decisions = s.monitor.counters.decisions := by
  rw [← Monitor.decisions_call s.monitor]
  cases h with
  | ended hm | satisfied hm | conflict hm => rw [hm]

theorem retreat_eq_ok (h : s.retreat = .ok s') :
    ∃ p, s.problem.rollback = .ok p ∧ s' = ⟨p, s.monitor.countBacktrack⟩ := by
  unfold Search.retreat at h
  split at h
  next => cases h
  next p hr =>
    cases h
    exact ⟨p, hr, rfl⟩

theorem turn_eq_ok (h : s.turn l = .ok s') :
    ∃ s₁ p, s.retreat = .ok s₁ ∧ s₁.problem.assert l.negate true = .ok p ∧
      s' = ⟨p, s₁.monitor⟩ := by
  unfold Search.turn at h
  split at h
  next => cases h
  next s₁ hr =>
    split at h
    next => cases h
    next p ha =>
      cases h
      exact ⟨s₁, p, hr, ha, rfl⟩

theorem coherent_retreat (hs : s.problem.Coherent) (h : s.retreat = .ok s') :
    s'.problem.Coherent := by
  obtain ⟨p, hr, rfl⟩ := retreat_eq_ok h
  exact hs.rollback hr

theorem coherent_turn (hs : s.problem.Coherent) (h : s.turn l = .ok s') :
    s'.problem.Coherent := by
  obtain ⟨s₁, p, hr, ha, rfl⟩ := turn_eq_ok h
  exact (coherent_retreat hs hr).assign ha

theorem phase_retreat (h : s.retreat = .ok s') : s'.problem.phase = s.problem.phase := by
  obtain ⟨p, hr, rfl⟩ := retreat_eq_ok h
  obtain ⟨undone, trail, -, rfl⟩ := Problem.rollback_eq_ok hr
  rfl

theorem onward_turn (h : s.turn l = .ok s') : s.problem.phase.Onward s'.problem.phase := by
  obtain ⟨s₁, p, hr, ha, rfl⟩ := turn_eq_ok h
  obtain ⟨-, rfl⟩ := Problem.assign_eq_ok ha
  rw [← phase_retreat hr]
  exact .inr rfl

/-- What a search does, with what it does it to. -/
inductive Move (ρ : Type)
  | call (s : Search ρ)
  | turn (l : Literal) (s : Search ρ)
  | retreat (s : Search ρ)

def callCount : List (Move ρ) → Nat
  | [] => 0
  | .call _ :: ms => callCount ms + 1
  | _ :: ms => callCount ms

@[simp] theorem callCount_append (ms ns : List (Move ρ)) :
    callCount (ms ++ ns) = callCount ms + callCount ns := by
  induction ms with
  | nil => exact (Nat.zero_add _).symm
  | cons m ms ih =>
    cases m with
    | call s => simp [callCount, ih, Nat.add_right_comm]
    | turn l s => simpa [callCount] using ih
    | retreat s => simpa [callCount] using ih

/-- The search of a tree of no more than so many calls under one another, with its moves in
order. -/
inductive Explores [Chooser ρ] :
    Nat → Search ρ → List (Move ρ) → Verdict → Search ρ → Prop
  | settled {depth : Nat} {s s' : Search ρ} {v : Verdict} (h : s.step = .ok (.verdict v, s')) :
    Explores (depth + 1) s [.call s] v s'
  | kept {depth : Nat} {s s₁ s₂ : Search ρ} {l : Literal} {v : Verdict} {ms : List (Move ρ)}
    (h : s.step = .ok (.decision l, s₁)) (h₁ : Explores depth s₁ ms v s₂)
    (hv : v ≠ .unsatisfied) : Explores (depth + 1) s (.call s :: ms) v s₂
  | turned {depth : Nat} {s s₁ s₂ s₃ s₄ : Search ρ} {l : Literal} {v : Verdict}
    {ms ns : List (Move ρ)} (h : s.step = .ok (.decision l, s₁))
    (h₁ : Explores depth s₁ ms .unsatisfied s₂) (ht : s₂.turn l = .ok s₃)
    (h₃ : Explores depth s₃ ns v s₄) (hv : v ≠ .unsatisfied) :
    Explores (depth + 1) s (.call s :: (ms ++ .turn l s₂ :: ns)) v s₄
  | refuted {depth : Nat} {s s₁ s₂ s₃ s₄ s₅ : Search ρ} {l : Literal} {ms ns : List (Move ρ)}
    (h : s.step = .ok (.decision l, s₁)) (h₁ : Explores depth s₁ ms .unsatisfied s₂)
    (ht : s₂.turn l = .ok s₃) (h₃ : Explores depth s₃ ns .unsatisfied s₄)
    (hr : s₄.retreat = .ok s₅) :
    Explores (depth + 1) s (.call s :: (ms ++ .turn l s₂ :: (ns ++ [.retreat s₄])))
      .unsatisfied s₅

variable [Chooser ρ]

theorem stepped_of_step {a : Step} (hs : s.problem.Coherent) (h : s.step = .ok (a, s')) :
    s.Stepped a s' := by
  obtain ⟨_, _, h', hst⟩ := step_spec hs
  cases h.symm.trans h'
  exact hst

theorem Explores.mono {depth depth' : Nat} {ms : List (Move ρ)} (h : Explores depth s ms v s')
    (hd : depth ≤ depth') : Explores depth' s ms v s' := by
  induction h generalizing depth' with
  | settled h =>
    obtain ⟨k, rfl⟩ := Nat.exists_eq_add_of_le' hd
    exact .settled h
  | kept h h₁ hv ih =>
    obtain ⟨k, rfl⟩ := Nat.exists_eq_add_of_le' hd
    exact .kept h (ih (Nat.le_add_left _ _)) hv
  | turned h h₁ ht h₃ hv ih₁ ih₃ =>
    obtain ⟨k, rfl⟩ := Nat.exists_eq_add_of_le' hd
    exact .turned h (ih₁ (Nat.le_add_left _ _)) ht (ih₃ (Nat.le_add_left _ _)) hv
  | refuted h h₁ ht h₃ hr ih₁ ih₃ =>
    obtain ⟨k, rfl⟩ := Nat.exists_eq_add_of_le' hd
    exact .refuted h (ih₁ (Nat.le_add_left _ _)) ht (ih₃ (Nat.le_add_left _ _)) hr

/-- A search never goes wrong: its verdict is true, and it undoes what it refutes. -/
theorem Explores.explored {depth : Nat} {ms : List (Move ρ)} (h : Explores depth s ms v s')
    (hs : s.problem.Coherent) : s.Explored v s' := by
  induction h with
  | settled h => exact (stepped_of_step hs h).explored hs
  | kept h h₁ hv ih =>
    obtain ⟨p, hp, hd, he⟩ := (stepped_of_step hs h).decision
    exact .of_decided hp hd he (ih hd.coherent) hv
  | turned h h₁ ht h₃ hv ih₁ ih₃ =>
    obtain ⟨p, hp, hd, he⟩ := (stepped_of_step hs h).decision
    have hx₁ := ih₁ hd.coherent
    obtain ⟨q, ht', hd'⟩ := hx₁.turn hp.coherent hd
    cases ht.symm.trans ht'
    refine .of_decided hp hd' ?_ (ih₃ hd'.coherent) hv
    intro hm
    exact (hx₁.endless (he hm)).2.countBacktrack
  | refuted h h₁ ht h₃ hr ih₁ ih₃ =>
    obtain ⟨p, hp, hd, he⟩ := (stepped_of_step hs h).decision
    have hx₁ := ih₁ hd.coherent
    obtain ⟨q, ht', hd'⟩ := hx₁.turn hp.coherent hd
    cases ht.symm.trans ht'
    have hx₃ := ih₃ hd'.coherent
    obtain ⟨r, hr', hres⟩ := hx₃.retreat hp.coherent hd'
    cases hr.symm.trans hr'
    refine .of_refuted hp hd hx₁ hd' hx₃ hres ?_
    intro hm
    exact (hx₃.endless (hx₁.endless (he hm)).2.countBacktrack).2.countBacktrack

theorem Explores.onward {depth : Nat} {ms : List (Move ρ)} (h : Explores depth s ms v s')
    (hs : s.problem.Coherent) : s.problem.phase.Onward s'.problem.phase := by
  induction h with
  | settled h => exact (stepped_of_step hs h).paced.phase
  | kept h h₁ hv ih =>
    have hst := stepped_of_step hs h
    exact hst.paced.phase.trans (ih (hst.coherent hs))
  | turned h h₁ ht h₃ hv ih₁ ih₃ =>
    have hst := stepped_of_step hs h
    have hs₁ := hst.coherent hs
    have hs₃ := coherent_turn (h₁.explored hs₁).coherent ht
    exact ((hst.paced.phase.trans (ih₁ hs₁)).trans (onward_turn ht)).trans (ih₃ hs₃)
  | refuted h h₁ ht h₃ hr ih₁ ih₃ =>
    have hst := stepped_of_step hs h
    have hs₁ := hst.coherent hs
    have hs₃ := coherent_turn (h₁.explored hs₁).coherent ht
    rw [phase_retreat hr]
    exact ((hst.paced.phase.trans (ih₁ hs₁)).trans (onward_turn ht)).trans (ih₃ hs₃)

theorem Explores.idle {depth : Nat} {ms : List (Move ρ)} (h : Explores depth s ms v s')
    (hs : s.problem.Coherent) (hi : s'.problem.phase = .input) :
    s'.problem.trail = s.problem.trail ∧
      s'.monitor.counters.decisions = s.monitor.counters.decisions := by
  -- A decision would have ended the phase, for as long as there is a search below it.
  have hleft {s₁ : Search ρ} {l : Literal} (h : s.step = .ok (.decision l, s₁))
      (hx : s₁.problem.phase.Onward s'.problem.phase) : False :=
    hx.ne_input (stepped_of_step hs h).phase_ne_input hi
  cases h with
  | settled h =>
    have hst := stepped_of_step hs h
    exact ⟨hst.paced.trail hi, hst.decisions⟩
  | kept h h₁ hv => exact (hleft h (h₁.onward ((stepped_of_step hs h).coherent hs))).elim
  | turned h h₁ ht h₃ hv =>
    have hs₁ := (stepped_of_step hs h).coherent hs
    have hs₃ := coherent_turn (h₁.explored hs₁).coherent ht
    exact (hleft h (((h₁.onward hs₁).trans (onward_turn ht)).trans (h₃.onward hs₃))).elim
  | refuted h h₁ ht h₃ hr =>
    have hs₁ := (stepped_of_step hs h).coherent hs
    have hs₃ := coherent_turn (h₁.explored hs₁).coherent ht
    have hx := ((h₁.onward hs₁).trans (onward_turn ht)).trans (h₃.onward hs₃)
    exact (hleft h (by rwa [phase_retreat hr])).elim

/-- There are never more decisions under one another than there are atoms to decide on. -/
theorem exists_explores (hs : s.problem.Coherent) {depth : Nat} (hd : s.problem.unvalued < depth) :
    ∃ ms v s', Explores depth s ms v s' := by
  -- Each decision leaves one atom fewer to decide on, and so does its opposite, as undoing the
  -- decision gives back the atoms without a value from before it.
  induction depth generalizing s with
  | zero => exact absurd hd (Nat.not_lt_zero _)
  | succ depth ih =>
    obtain ⟨a, s₁, h, hst⟩ := step_spec hs
    cases a with
    | verdict v => exact ⟨_, v, s₁, .settled h⟩
    | decision l =>
      obtain ⟨p, hp, hdec, -⟩ := hst.decision
      have hle := hs.unvalued_le hp.coherent hp.keeps hp.grows.before
      have hlt {q : Problem ρ} {m : Literal} (hq : p.Decided m q) : q.unvalued < depth := by
        have hu := hq.unvalued hp.coherent
        omega
      obtain ⟨ms, v, s₂, h₁⟩ := ih hdec.coherent (hlt hdec)
      by_cases hv : v = .unsatisfied
      · subst hv
        obtain ⟨q, ht, hdec'⟩ := (h₁.explored hdec.coherent).turn hp.coherent hdec
        obtain ⟨ns, w, s₄, h₃⟩ := ih (s := ⟨q, _⟩) hdec'.coherent (hlt hdec')
        by_cases hw : w = .unsatisfied
        · subst hw
          obtain ⟨r, hr, -⟩ := (h₃.explored hdec'.coherent).retreat hp.coherent hdec'
          exact ⟨_, _, _, .refuted h h₁ ht h₃ hr⟩
        · exact ⟨_, _, _, .turned h h₁ ht h₃ hw⟩
      · exact ⟨_, _, _, .kept h h₁ hv⟩

end Search

end Dpll
