import Dpll.Proofs.SearchForms

namespace Dpll

namespace Monitor

variable {m m' m'' : Monitor} {k k' : Nat} {ended ended' : Prop}

def Hasty (m : Monitor) : Prop := ∃ answers ∈ m.terminate, ∀ i, answers i = true

/-- What comes of a monitor by `k` calls of which the last may end the search. If every answer is to
end it, none of the others is one on which a check is made. -/
structure Later (m : Monitor) (k : Nat) (ended : Prop) (m' : Monitor) : Prop where
  calls : m'.counters.calls = m.counters.calls + k
  timeLimit : m'.timeLimit = m.timeLimit
  terminate : m'.terminate = m.terminate
  unchecked : ¬ ended → m.Hasty →
    m'.counters.calls / checkFrequency = m.counters.calls / checkFrequency

theorem Later.hasty (h : m.Later k ended m') (hm : m.Hasty) : m'.Hasty := by
  rwa [Hasty, h.terminate]

theorem Later.trans (h : m.Later k ended m') (hn : ¬ ended) (h' : m'.Later k' ended' m'') :
    m.Later (k + k') ended' m'' where
  calls := by rw [h'.calls, h.calls, Nat.add_assoc]
  timeLimit := h'.timeLimit.trans h.timeLimit
  terminate := h'.terminate.trans h.terminate
  unchecked he hm := (h'.unchecked he (h.hasty hm)).trans (h.unchecked hn hm)

theorem Later.countDecision (h : m.Later k ended m') : m.Later k ended m'.countDecision :=
  ⟨h.calls, h.timeLimit, h.terminate, h.unchecked⟩

theorem Later.countBacktrack (h : m.Later k ended m') : m.Later k ended m'.countBacktrack :=
  ⟨h.calls, h.timeLimit, h.terminate, h.unchecked⟩

theorem Later.congr (h : m.Later k ended m') (he : ended → ended') :
    m.Later k ended' m' :=
  ⟨h.calls, h.timeLimit, h.terminate, fun hn ↦ h.unchecked (mt he hn)⟩

theorem later_noteProgress (m : Monitor) (elapsed : Duration) :
    m.Later 0 False (m.noteProgress elapsed) := by
  unfold noteProgress
  split
  · exact ⟨rfl, rfl, rfl, fun _ _ ↦ rfl⟩
  · exact ⟨rfl, rfl, rfl, fun _ _ ↦ rfl⟩

theorem later_shouldEnd (m : Monitor) (elapsed : Duration) :
    m.Later 0 False (m.shouldEnd elapsed).2 := by
  unfold shouldEnd
  split
  · exact ⟨rfl, rfl, rfl, fun _ _ ↦ rfl⟩
  · split
    · exact ⟨rfl, rfl, rfl, fun _ _ ↦ rfl⟩
    · exact ⟨rfl, rfl, rfl, fun _ _ ↦ rfl⟩

theorem later_check (m : Monitor) : m.Later 0 False m.check.2 := by
  have h : m.Later 0 False { m with checks := m.checks + 1 } := ⟨rfl, rfl, rfl, fun _ _ ↦ rfl⟩
  exact (h.trans id (later_noteProgress _ _)).trans id (later_shouldEnd _ _)

theorem Hasty.shouldEnd (h : m.Hasty) (elapsed : Duration) : (m.shouldEnd elapsed).1 = true := by
  obtain ⟨answers, ha, hi⟩ := h
  unfold Monitor.shouldEnd
  split
  · rfl
  · rw [Option.mem_def.1 ha]
    exact hi _

theorem Hasty.check (h : m.Hasty) : m.check.1 = true := by
  refine Hasty.shouldEnd ?_ _
  exact (later_noteProgress { m with checks := m.checks + 1 } _).hasty h

theorem later_call (m : Monitor) : m.Later 1 (m.call.1 = true) m.call.2 := by
  unfold call
  dsimp only
  split
  next hc =>
    have hk := later_check { m with counters.calls := m.counters.calls + 1 }
    refine ⟨hk.calls, hk.timeLimit, hk.terminate, fun he hm ↦ absurd ?_ he⟩
    exact Hasty.check (m := { m with counters.calls := m.counters.calls + 1 }) hm
  next hc =>
    refine ⟨rfl, rfl, rfl, fun _ _ ↦ ?_⟩
    simp only [checkFrequency] at hc ⊢
    omega

theorem later_of_call {e : Bool} (h : m.call = (e, m')) : m.Later 1 (e = true) m' := by
  have hl := later_call m
  rwa [h] at hl

theorem call_of_zero (h : m.counters.calls = 0) : m.call.1 = false := by
  unfold call
  dsimp only
  rw [h, if_neg (by decide)]

end Monitor

namespace Search

variable {ρ : Type} {s s' t : Search ρ} {v : Verdict} {l : Literal}

theorem monitor_of_retreat (h : s.retreat = .ok s') : s'.monitor = s.monitor.countBacktrack := by
  obtain ⟨p, -, rfl⟩ := retreat_eq_ok h
  rfl

theorem monitor_of_turn (h : s.turn l = .ok s') : s'.monitor = s.monitor.countBacktrack := by
  obtain ⟨s₁, p, hr, -, rfl⟩ := turn_eq_ok h
  exact (monitor_of_retreat hr :)

theorem Stepped.later_of_verdict (h : s.Stepped (.verdict v) s') :
    s.monitor.Later 1 (v = .unknown) s'.monitor := by
  cases h with
  | ended hm => exact (Monitor.later_of_call hm).congr fun _ ↦ rfl
  | satisfied hm hp hs => exact (Monitor.later_of_call hm).congr nofun
  | conflict hm hp hs => exact (Monitor.later_of_call hm).congr nofun

theorem Stepped.later_of_decision (h : s.Stepped (.decision l) s') :
    s.monitor.Later 1 False s'.monitor := by
  cases h with
  | decided hm hp hl source => exact ((Monitor.later_of_call hm).congr nofun).countDecision

theorem Stepped.keeps (h : s.Stepped (.decision l) s') : s.problem.Keeps s'.problem := by
  obtain ⟨p, hp, hd, -⟩ := h.decision
  exact hp.keeps.trans hd.keeps

theorem keeps_turn (h : s.turn l = .ok s') : s.problem.Keeps s'.problem := by
  obtain ⟨s₁, p, hr, ha, rfl⟩ := turn_eq_ok h
  obtain ⟨q, hq, rfl⟩ := retreat_eq_ok hr
  obtain ⟨-, rfl⟩ := Problem.assign_eq_ok ha
  exact (Problem.keeps_rollback hq).trans (Problem.keeps_put _ _ _)

def callsOf : List (Move ρ) → List (Search ρ)
  | [] => []
  | .call s :: ms => s :: callsOf ms
  | _ :: ms => callsOf ms

@[simp] theorem callsOf_append (ms ns : List (Move ρ)) :
    callsOf (ms ++ ns) = callsOf ms ++ callsOf ns := by
  induction ms with
  | nil => rfl
  | cons m ms ih =>
    cases m with
    | call s => exact congrArg (s :: ·) ih
    | turn l s | retreat s => exact ih

variable [Chooser ρ]

/-- A search makes as many calls as it has nodes. -/
theorem Explores.later {depth : Nat} {ms : List (Move ρ)} (h : Explores depth s ms v s')
    (hs : s.problem.Coherent) : s.monitor.Later (callCount ms) (v = .unknown) s'.monitor := by
  induction h with
  | settled h => exact (stepped_of_step hs h).later_of_verdict
  | kept h h₁ _ ih =>
    have hst := stepped_of_step hs h
    rw [callCount, Nat.add_comm]
    exact hst.later_of_decision.trans id (ih (hst.coherent hs))
  | turned h h₁ ht h₃ _ ih₁ ih₃ =>
    have hst := stepped_of_step hs h
    have hs₁ := hst.coherent hs
    have hl₁ := (ih₁ hs₁).countBacktrack
    rw [← monitor_of_turn ht] at hl₁
    have hl₃ := ih₃ (coherent_turn (h₁.explored hs₁).coherent ht)
    have hl := hst.later_of_decision.trans id (hl₁.trans Verdict.noConfusion hl₃)
    simpa [callCount, Nat.add_comm, Nat.add_left_comm] using hl
  | refuted h h₁ ht h₃ hr ih₁ ih₃ =>
    have hst := stepped_of_step hs h
    have hs₁ := hst.coherent hs
    have hl₁ := (ih₁ hs₁).countBacktrack
    rw [← monitor_of_turn ht] at hl₁
    have hl₃ := (ih₃ (coherent_turn (h₁.explored hs₁).coherent ht)).countBacktrack
    rw [← monitor_of_retreat hr] at hl₃
    have hl := hst.later_of_decision.trans id (hl₁.trans Verdict.noConfusion hl₃)
    simpa [callCount, Nat.add_comm, Nat.add_left_comm] using hl

theorem Explores.calls_turn {depth : Nat} {ms : List (Move ρ)} {s₁ s₂ : Search ρ}
    (h : Explores depth s ms v s₁) (hs : s.problem.Coherent) (ht : s₁.turn l = .ok s₂) :
    s₂.monitor.counters.calls = s.monitor.counters.calls + callCount ms := by
  rw [monitor_of_turn ht]
  exact (h.later hs).calls

theorem Explores.map_calls {depth : Nat} {ms : List (Move ρ)} (h : Explores depth s ms v s')
    (hs : s.problem.Coherent) :
    (callsOf ms).map (·.monitor.counters.calls) =
      List.range' s.monitor.counters.calls (callCount ms) := by
  induction h with
  | settled h => rfl
  | kept h h₁ hv ih =>
    have hst := stepped_of_step hs h
    rw [callsOf, List.map_cons, callCount, List.range'_succ, ih (hst.coherent hs),
      hst.later_of_decision.calls]
  | turned h h₁ ht h₃ hv ih₁ ih₃ | refuted h h₁ ht h₃ _ ih₁ ih₃ =>
    have hst := stepped_of_step hs h
    have hs₁ := hst.coherent hs
    simp only [callsOf, callsOf_append, callCount, callCount_append, List.map_cons,
      List.map_append, List.append_nil, Nat.add_zero]
    rw [ih₁ hs₁, ih₃ (coherent_turn (h₁.explored hs₁).coherent ht), h₁.calls_turn hs₁ ht,
      List.range'_append_1, List.range'_succ, hst.later_of_decision.calls]

/-- The calls are made in good states, with the formula the search began with. In none is the phase
one which the search had left. -/
theorem Explores.of_mem_callsOf {depth : Nat} {ms : List (Move ρ)} (h : Explores depth s ms v s')
    (hs : s.problem.Coherent) (ht : t ∈ callsOf ms) :
    t.problem.Coherent ∧ s.problem.Keeps t.problem ∧ s.problem.phase.Onward t.problem.phase := by
  induction h with
  | settled h =>
    obtain rfl := List.mem_singleton.1 ht
    exact ⟨hs, .refl _, .refl _⟩
  | kept h h₁ hv ih =>
    obtain _ | ⟨_, ht⟩ := ht
    · exact ⟨hs, .refl _, .refl _⟩
    · have hst := stepped_of_step hs h
      obtain ⟨hc, hk, ho⟩ := ih (hst.coherent hs) ht
      exact ⟨hc, hst.keeps.trans hk, hst.paced.phase.trans ho⟩
  | turned h h₁ hturn h₃ hv ih₁ ih₃ | refuted h h₁ hturn h₃ _ ih₁ ih₃ =>
    simp only [callsOf, callsOf_append, List.append_nil, List.mem_cons, List.mem_append] at ht
    have hst := stepped_of_step hs h
    have hs₁ := hst.coherent hs
    rcases ht with rfl | ht | ht
    · exact ⟨hs, .refl _, .refl _⟩
    · obtain ⟨hc, hk, ho⟩ := ih₁ hs₁ ht
      exact ⟨hc, hst.keeps.trans hk, hst.paced.phase.trans ho⟩
    · have hx₁ := h₁.explored hs₁
      obtain ⟨hc, hk, ho⟩ := ih₃ (coherent_turn hx₁.coherent hturn) ht
      have hk₃ := (hst.keeps.trans hx₁.keeps).trans (keeps_turn hturn)
      have ho₃ := (hst.paced.phase.trans (h₁.onward hs₁)).trans (onward_turn hturn)
      exact ⟨hc, hk₃.trans hk, ho₃.trans ho⟩

end Search

/-- Examining the formula settles nothing: some clause is not satisfied, and any such clause has more
than one literal without a value, of which none is pure. -/
structure Formula.Quiet (f : Formula) (v : Valuation) : Prop where
  unsettled : ∃ c ∈ f, c.status v ≠ .satisfied
  pending : ∀ c ∈ f, c.status v ≠ .satisfied → c.status v = .pending
  impure : ∀ c ∈ f, c.status v ≠ .satisfied → ∀ l ∈ c, v.truth l = none →
    ∃ d ∈ f, d.status v ≠ .satisfied ∧ l.negate ∈ d

/-- The formula is quiet for so many decisions under one another, if each is on the first atom without
a value. -/
inductive Formula.QuietFor (f : Formula) : Nat → Valuation → Prop
  | zero (v : Valuation) : f.QuietFor 0 v
  | succ {d : Nat} {v : Valuation} {a : Atom} (hq : f.Quiet v) (ha : v.unvalued.head? = some a)
    (ht : f.QuietFor d (v.make (.ofAtom a true))) (hf : f.QuietFor d (v.make (.ofAtom a false))) :
    f.QuietFor (d + 1) v

theorem Formula.Quiet.not_conflict {f : Formula} {v : Valuation} (h : f.Quiet v) :
    ¬ ∃ c ∈ f, c.status v = .conflict := by
  rintro ⟨c, hc, hs⟩
  have hp := h.pending c hc (by rw [hs]; nofun)
  rw [hs] at hp
  cases hp

namespace Problem

variable {ρ : Type} {p q : Problem ρ}

theorem unitLiteral_of_quiet (h : p.Coherent) (hq : p.formula.Quiet p.valuation) :
    p.unitLiteral.1 = none := by
  rw [(unitLiteral_spec h).1, List.findSome?_eq_none_iff]
  intro c hc
  by_cases hs : c.status p.valuation = .satisfied
  · rw [hs]
    rfl
  · rw [hq.pending c hc hs]
    rfl

theorem pureLiterals_of_quiet (h : p.Coherent) (hq : p.formula.Quiet p.valuation) :
    p.pureLiterals.1 = [] := by
  rw [List.eq_nil_iff_forall_not_mem]
  intro l hl
  obtain ⟨hl, hn⟩ := (mem_pureLiterals_iff h).1 hl
  obtain ⟨c, hc, hs, hm, ht⟩ := mem_loose_iff.1 hl
  obtain ⟨d, hd, hds, hdl⟩ := hq.impure c hc hs l hm ht
  refine hn (mem_loose_iff.2 ⟨d, hd, hds, hdl, ?_⟩)
  rwa [Valuation.truth_eq_none_iff, Literal.atom_negate, ← Valuation.truth_eq_none_iff]

theorem valuation_of_quiet (h : p.Coherent) (hq : p.formula.Quiet p.valuation)
    (hs : p.simplify = .ok q) : q.valuation = p.valuation := by
  have he := (unitLiteral_spec h).2
  have hc := he.coherent h
  have hp := pureLiterals_of_quiet hc (by rwa [he.formula, he.valuation])
  rw [simplify_of_ok (propagate_of_none (unitLiteral_of_quiet h hq)) (assertPure_of_nil hp),
    if_pos ⟨rfl, rfl⟩] at hs
  cases hs
  exact (pureLiterals_spec hc).2.valuation.trans he.valuation

theorem Examined.quiet (h : p.Examined q) (hq : p.formula.Quiet p.valuation) :
    q.formula.Quiet q.valuation := by
  rwa [h.formula, h.valuation]

theorem isSatisfied_of_quiet (h : p.Coherent) (hq : p.formula.Quiet p.valuation) :
    ∃ q, p.isSatisfied = (false, q) ∧ p.Examined q := by
  obtain ⟨h₁, he⟩ := isSatisfied_spec h
  obtain ⟨c, hc, hs⟩ := hq.unsettled
  rw [decide_eq_false fun ha ↦ hs (ha c hc)] at h₁
  exact ⟨_, Prod.ext h₁ rfl, he⟩

theorem hasConflict_of_quiet (h : p.Coherent) (hq : p.formula.Quiet p.valuation) :
    ∃ q, p.hasConflict = (false, q) ∧ p.Examined q := by
  obtain ⟨h₁, he⟩ := hasConflict_spec h
  rw [decide_eq_false hq.not_conflict] at h₁
  exact ⟨_, Prod.ext h₁ rfl, he⟩

theorem exists_unvalued_of_quiet (h : p.Coherent) (hq : p.formula.Quiet p.valuation) :
    ∃ a, p.valuation.unvalued.head? = some a ∧ p.valuation.Free (.ofAtom a true) := by
  obtain ⟨c, hc, hs⟩ := hq.unsettled
  obtain ⟨l, hl, ht⟩ := Clause.exists_truth_none hs fun hn ↦ hq.not_conflict ⟨c, hc, hn⟩
  obtain ⟨a, as, ha⟩ := List.exists_cons_of_ne_nil (unvalued_ne_nil_of_free (h.free hc hl ht))
  exact ⟨a, by rw [ha]; rfl, h.free_of_mem_unvalued (ha ▸ .head _) true⟩

theorem chooseDecision_of_first [Chooser ρ] {a : Atom} (hf : p.config.heuristic.value = .first)
    (ha : p.valuation.unvalued.head? = some a) :
    p.chooseDecision = .ok (.ofAtom a true, p) := by
  unfold chooseDecision
  rw [hf]
  dsimp only
  rw [ha]
  rfl

end Problem

namespace Search

variable {ρ : Type} [Chooser ρ] {s s₁ s' : Search ρ}

theorem step_of_quiet (hs : s.problem.Coherent) (hf : s.problem.config.heuristic.value = .first)
    (hq : s.problem.formula.Quiet s.problem.valuation) {a : Step} (h : s.step = .ok (a, s₁)) :
    a = .verdict .unknown ∨ ∃ b p, s.problem.valuation.unvalued.head? = some b ∧
      s.problem.Simplified p ∧ p.valuation = s.problem.valuation ∧
      a = .decision (.ofAtom b true) ∧ p.Decided (.ofAtom b true) s₁.problem := by
  unfold step at h
  cases hm : s.monitor.call with
  | mk ended m =>
  cases ended with
  | true =>
    rw [hm] at h
    cases h
    exact .inl rfl
  | false =>
    obtain ⟨p, hp, hS⟩ := Problem.exists_simplified hs
    have hv := Problem.valuation_of_quiet hs hq hp
    have hqp : p.formula.Quiet p.valuation := by rwa [hS.formula, hv]
    obtain ⟨q, h₁, hpq⟩ := Problem.isSatisfied_of_quiet hS.coherent hqp
    have hSq := hS.examined hpq
    obtain ⟨r, h₂, hqr⟩ := Problem.hasConflict_of_quiet hSq.coherent (hpq.quiet hqp)
    have hSr := hSq.examined hqr
    obtain ⟨b, hb, hfb⟩ := Problem.exists_unvalued_of_quiet hSr.coherent (hqr.quiet (hpq.quiet hqp))
    have hcd := Problem.chooseDecision_of_first (by rw [hSr.keeps.config, hf]) hb
    have hvr : r.valuation = s.problem.valuation := (hqr.valuation.trans hpq.valuation).trans hv
    simp only [hm, hp, h₁, h₂, hcd, decideOn, Problem.assert_of_free hfb true] at h
    cases h
    refine .inr ⟨b, r, hvr ▸ hb, hSr, hvr, rfl, ?_⟩
    exact Problem.Restores.put ⟨hSr.coherent, .refl r, rfl, rfl⟩ hfb

/-- Refuting a formula which is quiet for so many decisions takes all the calls of a full tree. -/
theorem Explores.callBound_le {d depth : Nat} {ms : List (Move ρ)}
    (h : Explores depth s ms .unsatisfied s') (hs : s.problem.Coherent)
    (hf : s.problem.config.heuristic.value = .first)
    (hq : s.problem.formula.QuietFor d s.problem.valuation) :
    callBound (d + 1) ≤ callCount ms + 1 := by
  induction d generalizing depth s ms s' with
  | zero =>
    have hc : 1 ≤ callCount ms := by cases h <;> exact Nat.le_add_left 1 _
    exact Nat.succ_le_succ hc
  | succ d ih =>
    obtain _ | ⟨hq, ha, htrue, hfalse⟩ := hq
    cases h with
    | settled h =>
      rcases step_of_quiet hs hf hq h with hn | ⟨b, p, -, -, -, hn, -⟩
      · cases hn
      · cases hn
    | kept h h₁ hv => exact absurd rfl hv
    | turned h h₁ ht h₃ hv => exact absurd rfl hv
    | refuted h h₁ ht h₃ hr =>
      obtain hn | ⟨b, p, hb, hp, hv, hl, hd⟩ := step_of_quiet hs hf hq h
      · cases hn
      · cases hl
        cases ha.symm.trans hb
        have hx₁ := h₁.explored hd.coherent
        obtain ⟨q, ht', hd'⟩ := hx₁.turn hp.coherent hd
        cases ht.symm.trans ht'
        have hk := hp.keeps.trans hd.keeps
        have hk' := hp.keeps.trans hd'.keeps
        rw [← hv] at htrue hfalse
        have hle₁ := ih h₁ hd.coherent (by rw [hk.config, hf])
          (by rwa [hk.formula, hd.valuation])
        have hle₃ := ih h₃ hd'.coherent (by rw [hk'.config, hf])
          (by rw [hk'.formula, hd'.valuation]; exact hfalse)
        rw [callBound_succ]
        simp only [callCount, callCount_append]
        omega

end Search

end Dpll
