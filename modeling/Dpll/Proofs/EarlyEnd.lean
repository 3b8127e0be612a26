import Dpll.Proofs.Calls
import Dpll.Proofs.Solve

namespace Dpll

namespace Monitor

variable {k : Nat} {m m' : Monitor}

/-- The answers of which the `k`-th and all later ones are that the search end. -/
def endFrom (k i : Nat) : Bool := k ≤ i + 1

/-- Nothing asks `m` to end. What it counts is counted by `m'` as well, which the `k`-th answer will
ask to end. That answer is not asked for yet. -/
structure EchoedBy (k : Nat) (m m' : Monitor) : Prop where
  endless : m.timeLimit = none ∧ m.terminate = none
  ending : m'.timeLimit = none ∧ m'.terminate = some (endFrom k)
  counters : m'.counters = m.counters
  asked : m'.asked = m.counters.calls / checkFrequency
  calls_lt : m.counters.calls < checkFrequency * k

/-- What the call which the `k`-th answer ends leaves in `m'`, where the call goes on with `m`. -/
structure CutTo (k : Nat) (m m' : Monitor) : Prop where
  calls : m.counters.calls + 1 = checkFrequency * k
  counters : m'.counters = { m.counters with calls := checkFrequency * k }
  asked : m'.asked = k

theorem EchoedBy.countDecision (h : m.EchoedBy k m') :
    m.countDecision.EchoedBy k m'.countDecision where
  endless := h.endless
  ending := h.ending
  counters := by simp only [Monitor.countDecision, h.counters]
  asked := h.asked
  calls_lt := h.calls_lt

theorem EchoedBy.countBacktrack (h : m.EchoedBy k m') :
    m.countBacktrack.EchoedBy k m'.countBacktrack where
  endless := h.endless
  ending := h.ending
  counters := by simp only [Monitor.countBacktrack, h.counters]
  asked := h.asked
  calls_lt := h.calls_lt

theorem noteProgress_eq (m : Monitor) (elapsed : Duration) :
    ∃ lastProgress reports, m.noteProgress elapsed = { m with lastProgress, reports } := by
  unfold noteProgress
  split
  · exact ⟨_, _, rfl⟩
  · exact ⟨m.lastProgress, m.reports, rfl⟩

theorem check_of_answers {answers : Nat → Bool} (hl : m.timeLimit = none)
    (ht : m.terminate = some answers) :
    m.check.1 = answers m.asked ∧ m.check.2.asked = m.asked + 1 := by
  obtain ⟨lastProgress, reports, hn⟩ :=
    noteProgress_eq { m with checks := m.checks + 1 } (m.clock m.checks)
  rw [check, hn, shouldEnd, if_neg (by simp [hl])]
  simp only [ht, and_self]

theorem call_of_answers {answers : Nat → Bool} (hl : m.timeLimit = none)
    (ht : m.terminate = some answers) (ha : m.asked = m.counters.calls / checkFrequency) :
    (m.call.1 = true ↔ (m.counters.calls + 1) % checkFrequency = 0 ∧ answers m.asked = true) ∧
      m.call.2.asked = (m.counters.calls + 1) / checkFrequency := by
  rw [checkFrequency] at ha
  by_cases hd : (m.counters.calls + 1) % checkFrequency = 0
  · obtain ⟨h₁, h₂⟩ :=
      check_of_answers (m := { m with counters.calls := m.counters.calls + 1 }) hl ht
    have hc : m.call = check { m with counters.calls := m.counters.calls + 1 } := if_pos hd
    rw [hc, h₁, h₂]
    rw [checkFrequency] at hd ⊢
    exact ⟨(and_iff_right hd).symm, by dsimp only; omega⟩
  · have hc : m.call = (false, { m with counters.calls := m.counters.calls + 1 }) := if_neg hd
    rw [hc]
    refine ⟨iff_of_false Bool.false_ne_true fun h ↦ hd h.1, ?_⟩
    rw [checkFrequency] at hd ⊢
    dsimp only
    omega

theorem EchoedBy.call (h : m.EchoedBy k m') : ∃ m₁ m₁', m.call = (false, m₁) ∧
    (m'.call = (false, m₁') ∧ m₁.EchoedBy k m₁' ∨ m'.call = (true, m₁') ∧ m.CutTo k m₁') := by
  obtain ⟨⟨hl, ht⟩, ⟨hl', ht'⟩, hc, ha, hlt⟩ := h
  rw [← hc] at ha
  obtain ⟨hend, hasked⟩ := call_of_answers hl' ht' ha
  have hcounters := counters_call m
  have hcounters' := counters_call m'
  rw [hc] at ha hend hasked hcounters'
  cases hm : m.call with
  | mk ended m₁ =>
  obtain ⟨rfl, -⟩ := (endless_of_none hl ht).call hm
  cases hm' : m'.call with
  | mk ended m₁' =>
  rw [hm] at hcounters
  rw [hm'] at hend hasked hcounters'
  dsimp only at hend hasked hcounters hcounters'
  rw [checkFrequency] at ha hlt hend hasked
  refine ⟨m₁, m₁', rfl, ?_⟩
  cases ended with
  | true =>
    obtain ⟨hd, hk⟩ := hend.1 rfl
    have hk : k ≤ m'.asked + 1 := of_decide_eq_true hk
    have hcalls : m.counters.calls + 1 = checkFrequency * k := by
      rw [checkFrequency]
      omega
    exact .inr ⟨rfl, hcalls, hcalls ▸ hcounters', by omega⟩
  | false =>
    have hlater := later_of_call hm
    have hlater' := later_of_call hm'
    have hcalls : m₁.counters.calls = m.counters.calls + 1 := hlater.calls
    have hk : (m.counters.calls + 1) % 1024 = 0 → ¬ k ≤ m'.asked + 1 := by
      intro hd hk
      exact Bool.false_ne_true (hend.2 ⟨hd, decide_eq_true hk⟩)
    refine .inl ⟨rfl, ?_⟩
    constructor
    case endless => exact ⟨hlater.timeLimit.trans hl, hlater.terminate.trans ht⟩
    case ending => exact ⟨hlater'.timeLimit.trans hl', hlater'.terminate.trans ht'⟩
    case counters => exact hcounters'.trans hcounters.symm
    case asked => rwa [hcalls]
    case calls_lt =>
      rw [hcalls, checkFrequency]
      omega

theorem EchoedBy.of_call {m₁ : Monitor} (h : m.EchoedBy k m') (hm : m.call = (false, m₁)) :
    (∃ m₁', m'.call = (false, m₁') ∧ m₁.EchoedBy k m₁') ∨
      ∃ m₁', m'.call = (true, m₁') ∧ m.CutTo k m₁' := by
  obtain ⟨_, m₁', hm', h'⟩ := h.call
  cases hm.symm.trans hm'
  exact h'.imp (⟨m₁', ·⟩) (⟨m₁', ·⟩)

end Monitor

namespace Search

variable {ρ : Type} {p : Problem ρ} {s s' t : Search ρ} {m m' m₁ m₁' : Monitor} {v : Verdict}
  {l : Literal} {k : Nat}

theorem retreat_with (h : s.retreat = .ok s') (m : Monitor) :
    retreat ⟨s.problem, m⟩ = .ok ⟨s'.problem, m.countBacktrack⟩ := by
  obtain ⟨p, hr, rfl⟩ := retreat_eq_ok h
  rw [retreat, hr]

theorem turn_with (h : s.turn l = .ok s') (m : Monitor) :
    turn ⟨s.problem, m⟩ l = .ok ⟨s'.problem, m.countBacktrack⟩ := by
  obtain ⟨s₁, p, hr, ha, rfl⟩ := turn_eq_ok h
  simp only [turn, retreat_with hr m, ha]

theorem inPhase_of_phase {phase : Phase} (h : s.problem.phase = phase) : s.inPhase phase = s := by
  rw [inPhase, ← h]

variable [Chooser ρ]

theorem step_of_ended (h : m.call = (true, m₁)) :
    step ⟨p, m⟩ = .ok (.verdict .unknown, ⟨p, m₁⟩) := by
  rw [step, h]

/-- What a call does to the problem does not depend on the monitor, once that lets it go on. -/
theorem step_of_call {a : Step} (hm : m.call = (false, m₁)) (hm' : m'.call = (false, m₁'))
    (h : step ⟨p, m⟩ = .ok (a, s)) :
    (∃ v, a = .verdict v ∧ s.monitor = m₁ ∧ step ⟨p, m'⟩ = .ok (a, ⟨s.problem, m₁'⟩)) ∨
      ∃ l, a = .decision l ∧ s.monitor = m₁.countDecision ∧
        step ⟨p, m'⟩ = .ok (a, ⟨s.problem, m₁'.countDecision⟩) := by
  simp only [step, hm] at h
  simp only [step, hm']
  cases hp : p.simplify with
  | error fault => simp only [hp, reduceCtorEq] at h
  | ok q =>
    simp only [hp] at h ⊢
    cases hsat : q.isSatisfied with
    | mk satisfied q =>
    cases satisfied with
    | true =>
      simp only [hsat] at h ⊢
      cases h
      exact .inl ⟨_, rfl, rfl, rfl⟩
    | false =>
      simp only [hsat] at h ⊢
      cases hcon : q.hasConflict with
      | mk conflict q =>
      cases conflict with
      | true =>
        simp only [hcon] at h ⊢
        cases h
        exact .inl ⟨_, rfl, rfl, rfl⟩
      | false =>
        simp only [hcon, decideOn] at h ⊢
        cases hch : q.chooseDecision with
        | error fault => simp only [hch, reduceCtorEq] at h
        | ok r =>
          obtain ⟨l, q⟩ := r
          simp only [hch] at h ⊢
          cases ha : q.assert l true with
          | error fault => simp only [ha, reduceCtorEq] at h
          | ok q =>
            simp only [ha] at h ⊢
            cases h
            exact .inr ⟨_, rfl, rfl, rfl⟩

theorem step_with {a : Step} (he : s.monitor.EchoedBy k m) (h : s.step = .ok (a, s')) :
    (∃ m', step ⟨s.problem, m⟩ = .ok (a, ⟨s'.problem, m'⟩) ∧ s'.monitor.EchoedBy k m') ∨
      ∃ m', step ⟨s.problem, m⟩ = .ok (.verdict .unknown, ⟨s.problem, m'⟩) ∧
        s.monitor.CutTo k m' := by
  obtain ⟨m₁, m₁', hm, ⟨hm', he'⟩ | ⟨hm', hcut⟩⟩ := he.call
  · rcases step_of_call hm hm' h with ⟨v, rfl, hs, h'⟩ | ⟨l, rfl, hs, h'⟩
    · exact .inl ⟨_, h', hs ▸ he'⟩
    · exact .inl ⟨_, h', hs ▸ he'.countDecision⟩
  · exact .inr ⟨_, step_of_ended hm', hcut⟩

/-- What the search with the monitor `m` comes to, next to one with no end to it: the same, or an end at
one of the calls, with nothing undone. -/
def Echoed (k depth : Nat) (s : Search ρ) (ms : List (Move ρ)) (v : Verdict) (s' : Search ρ)
    (m : Monitor) : Prop :=
  (∃ ns m', Explores depth ⟨s.problem, m⟩ ns v ⟨s'.problem, m'⟩ ∧ s'.monitor.EchoedBy k m') ∨
    ∃ ns t m', t ∈ callsOf ms ∧ t.monitor.CutTo k m' ∧
      Explores depth ⟨s.problem, m⟩ ns .unknown ⟨t.problem, m'⟩

theorem Echoed.of_step {depth : Nat} {ms : List (Move ρ)} {a : Step} {s₁ : Search ρ}
    (h : s.step = .ok (a, s₁)) (he : s.monitor.EchoedBy k m)
    (hrest : ∀ m₁, step ⟨s.problem, m⟩ = .ok (a, ⟨s₁.problem, m₁⟩) → s₁.monitor.EchoedBy k m₁ →
      Echoed k (depth + 1) s (.call s :: ms) v s' m) :
    Echoed k (depth + 1) s (.call s :: ms) v s' m := by
  obtain ⟨m₁, h', he₁⟩ | ⟨m', h', hcut⟩ := step_with he h
  · exact hrest m₁ h' he₁
  · exact .inr ⟨_, s, m', .head _, hcut, .settled h'⟩

theorem Explores.echo {depth : Nat} {ms : List (Move ρ)} (h : Explores depth s ms v s')
    (he : s.monitor.EchoedBy k m) : Echoed k depth s ms v s' m := by
  -- The end may come on the call itself, or in the search of either side. It passes through both
  -- sides as `kept` and `turned` let it, since it is not a refutation.
  induction h generalizing m with
  | settled h =>
    apply Echoed.of_step h he
    intro m' h' he'
    exact .inl ⟨_, m', .settled h', he'⟩
  | kept h h₁ hv ih =>
    apply Echoed.of_step h he
    intro m₁ h' he₁
    obtain ⟨ns, m', h₁', he'⟩ | ⟨ns, t, m', ht, hcut, h₁'⟩ := ih he₁
    · exact .inl ⟨_, m', .kept h' h₁' hv, he'⟩
    · exact .inr ⟨_, t, m', .tail _ ht, hcut, .kept h' h₁' nofun⟩
  | turned h h₁ ht h₃ hv ih₁ ih₃ =>
    apply Echoed.of_step h he
    intro m₁ h' he₁
    obtain ⟨ns, m₂, h₁', he₂⟩ | ⟨ns, t, m', hmem, hcut, h₁'⟩ := ih₁ he₁
    · have he₃ := he₂.countBacktrack
      rw [← monitor_of_turn ht] at he₃
      obtain ⟨ns', m', h₃', he'⟩ | ⟨ns', t, m', hmem, hcut, h₃'⟩ := ih₃ he₃
      · exact .inl ⟨_, m', .turned h' h₁' (turn_with ht m₂) h₃' hv, he'⟩
      · exact .inr ⟨_, t, m', by simp [callsOf, hmem], hcut,
          .turned h' h₁' (turn_with ht m₂) h₃' nofun⟩
    · exact .inr ⟨_, t, m', by simp [callsOf, hmem], hcut, .kept h' h₁' nofun⟩
  | refuted h h₁ ht h₃ hr ih₁ ih₃ =>
    apply Echoed.of_step h he
    intro m₁ h' he₁
    obtain ⟨ns, m₂, h₁', he₂⟩ | ⟨ns, t, m', hmem, hcut, h₁'⟩ := ih₁ he₁
    · have he₃ := he₂.countBacktrack
      rw [← monitor_of_turn ht] at he₃
      obtain ⟨ns', m₄, h₃', he₄⟩ | ⟨ns', t, m', hmem, hcut, h₃'⟩ := ih₃ he₃
      · have he₅ := he₄.countBacktrack
        rw [← monitor_of_retreat hr] at he₅
        exact .inl ⟨_, _, .refuted h' h₁' (turn_with ht m₂) h₃' (retreat_with hr m₄), he₅⟩
      · exact .inr ⟨_, t, m', by simp [callsOf, hmem], hcut,
          .turned h' h₁' (turn_with ht m₂) h₃' nofun⟩
    · exact .inr ⟨_, t, m', by simp [callsOf, hmem], hcut, .kept h' h₁' nofun⟩

def solveCalls (s : Search ρ) : List (Search ρ) :=
  if s.problem.store.hasEmpty then [] else callsOf (s.inPhase .solving).runLogged.moves

/-- A solve with another monitor gives what it would without being asked to end, or else what it was
about to call with. -/
theorem solve_with (hs : s.problem.Coherent) (hz : s.monitor.counters.calls = 0)
    (he : s.monitor.EchoedBy k m) :
    ∃ v s', s.solve = .ok (v, s') ∧
      s.solveCalls.map (·.monitor.counters.calls) = List.range s'.monitor.counters.calls ∧
      ((∃ m', solve ⟨s.problem, m⟩ = .ok (v, ⟨s'.problem, m'⟩) ∧ s'.monitor.EchoedBy k m') ∨
        ∃ t m', t ∈ s.solveCalls ∧ t.problem.phase = .solving ∧ t.monitor.CutTo k m' ∧
          solve ⟨s.problem, m⟩ = .ok (.unknown, ⟨t.problem, m'⟩)) := by
  by_cases hempty : s.problem.store.hasEmpty
  · have hsolve (m : Monitor) : solve ⟨s.problem, m⟩ =
        .ok (.unsatisfied, inPhase ⟨s.problem, m⟩ .unsatisfiable) := if_pos hempty
    refine ⟨_, _, hsolve s.monitor, ?_, .inl ⟨m, hsolve m, he⟩⟩
    rw [solveCalls, if_pos hempty]
    exact congrArg List.range hz.symm
  · have hs' : (s.inPhase .solving).problem.Coherent := coherent_inPhase hs _
    obtain ⟨ms, v, s', h⟩ := exists_explores hs' (Nat.lt_succ_self _)
    have hcalls : s.solveCalls = callsOf ms := by rw [solveCalls, if_neg hempty, h.runLogged]
    have hcount := (h.later hs').calls
    refine ⟨_, _, h.solve hs hempty, ?_, ?_⟩
    · rw [hcalls, h.map_calls hs', List.range_eq_range']
      have hz : (s.inPhase .solving).monitor.counters.calls = 0 := hz
      rw [hz, Nat.zero_add] at hcount
      rw [hz, ← hcount]
      rfl
    · rw [hcalls]
      obtain ⟨ns, m', h', he'⟩ | ⟨ns, t, m', ht, hcut, h'⟩ := h.echo he
      · exact .inl ⟨m', Explores.solve (s := ⟨s.problem, m⟩) hs hempty h', he'⟩
      · have hphase := (h.of_mem_callsOf hs' ht).2.2.eq nofun
        refine .inr ⟨t, m', ht, hphase, hcut, ?_⟩
        rw [Explores.solve (s := ⟨s.problem, m⟩) hs hempty h']
        exact congrArg (fun s ↦ Except.ok (Verdict.unknown, s))
          (inPhase_of_phase (s := ⟨t.problem, m'⟩) hphase)

end Search

end Dpll
