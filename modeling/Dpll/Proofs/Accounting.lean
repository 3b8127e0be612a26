import Dpll.Proofs.Calls
import Dpll.Proofs.CopyingSolver
import Dpll.Proofs.Reachable
import Dpll.Random.Choice

namespace Dpll

structure Counters.Adds (c : Counters) (calls decisions backtracks : Nat) (c' : Counters) :
    Prop where
  calls : c'.calls = c.calls + calls
  decisions : c'.decisions = c.decisions + decisions
  backtracks : c'.backtracks = c.backtracks + backtracks

namespace Monitor

variable {m m' : Monitor}

theorem adds_of_call {e : Bool} (h : m.call = (e, m')) : m.counters.Adds 1 0 0 m'.counters := by
  have hc := counters_call m
  rw [h] at hc
  rw [hc]
  exact ⟨rfl, rfl, rfl⟩

theorem adds_countDecision {k : Nat} (h : m.counters.Adds k 0 0 m'.counters) :
    m.counters.Adds k 1 0 m'.countDecision.counters :=
  ⟨h.calls, congrArg (· + 1) h.decisions, h.backtracks⟩

theorem adds_countBacktrack (m : Monitor) : m.counters.Adds 0 0 1 m.countBacktrack.counters :=
  ⟨rfl, rfl, rfl⟩

end Monitor

namespace Problem

variable {ρ : Type} {p q : Problem ρ}

theorem level_rollback (h : p.rollback = .ok q) : q.trail.level + 1 = p.trail.level := by
  obtain ⟨undone, trail, hc, rfl⟩ := rollback_eq_ok h
  obtain ⟨i, hs, -, -⟩ := Trail.closeLevel_eq_some hc
  have hlength := congrArg List.length hs
  simpa [Trail.level] using hlength.symm

theorem level_put_true (p : Problem ρ) (l : Literal) :
    (p.put l true).trail.level = p.trail.level + 1 := by
  simp [put, Trail.put, Trail.push, Trail.openLevel, Trail.level]

theorem Simplified.level (h : p.Simplified q) : q.trail.level = p.trail.level :=
  congrArg Array.size h.grows.levelStarts

end Problem

namespace Search

variable {ρ : Type} {s s' : Search ρ} {v : Verdict} {l : Literal}

theorem level_retreat (h : s.retreat = .ok s') :
    s'.problem.trail.level + 1 = s.problem.trail.level := by
  obtain ⟨p, hr, rfl⟩ := retreat_eq_ok h
  exact Problem.level_rollback hr

theorem level_turn (h : s.turn l = .ok s') : s'.problem.trail.level = s.problem.trail.level := by
  obtain ⟨s₁, p, hr, ha, rfl⟩ := turn_eq_ok h
  obtain ⟨-, rfl⟩ := Problem.assign_eq_ok ha
  rw [Problem.level_put_true]
  exact level_retreat hr

theorem adds_retreat (h : s.retreat = .ok s') :
    s.monitor.counters.Adds 0 0 1 s'.monitor.counters := by
  rw [monitor_of_retreat h]
  apply Monitor.adds_countBacktrack

theorem adds_turn (h : s.turn l = .ok s') :
    s.monitor.counters.Adds 0 0 1 s'.monitor.counters := by
  rw [monitor_of_turn h]
  apply Monitor.adds_countBacktrack

theorem Stepped.adds_of_verdict (h : s.Stepped (.verdict v) s') :
    s.monitor.counters.Adds 1 0 0 s'.monitor.counters ∧
      s'.problem.trail.level = s.problem.trail.level := by
  cases h with
  | ended hm => exact ⟨Monitor.adds_of_call hm, rfl⟩
  | satisfied hm hp _ | conflict hm hp _ => exact ⟨Monitor.adds_of_call hm, hp.level⟩

theorem Stepped.adds_of_decision (h : s.Stepped (.decision l) s') :
    s.monitor.counters.Adds 1 1 0 s'.monitor.counters ∧
      s'.problem.trail.level = s.problem.trail.level + 1 := by
  cases h with
  | decided hm hp hl source =>
    constructor
    · exact Monitor.adds_countDecision (Monitor.adds_of_call hm)
    · rw [Problem.level_put_true, ← hp.level]

/-- What a search does to the counters. Each call but the first comes after a decision, or after one
which was turned. The decisions turned are counted as backtracks, and so are those undone for good. -/
structure Accounts (s : Search ρ) (v : Verdict) (s' : Search ρ) : Prop where
  level_le : s.problem.trail.level ≤ s'.problem.trail.level
  calls : s'.monitor.counters.calls + s.monitor.counters.backtracks + s.problem.trail.level =
    s.monitor.counters.calls + 1 + s'.monitor.counters.backtracks + s'.problem.trail.level
  backtracks_le : s'.monitor.counters.backtracks + 2 * s.monitor.counters.decisions ≤
    s.monitor.counters.backtracks + 2 * s'.monitor.counters.decisions
  refuted : v = .unsatisfied → s'.problem.trail.level = s.problem.trail.level ∧
    s'.monitor.counters.backtracks + 2 * s.monitor.counters.decisions =
      s.monitor.counters.backtracks + 2 * s'.monitor.counters.decisions

variable [Chooser ρ]

theorem Explores.accounts {depth : Nat} {ms : List (Move ρ)} (h : Explores depth s ms v s')
    (hs : s.problem.Coherent) : s.Accounts v s' := by
  induction h with
  | settled h =>
    obtain ⟨hadds, hlevel⟩ := (stepped_of_step hs h).adds_of_verdict
    obtain ⟨hc, hd, hb⟩ := hadds
    exact ⟨by omega, by omega, by omega, fun _ ↦ ⟨hlevel, by omega⟩⟩
  | kept h h₁ hv ih =>
    have hst := stepped_of_step hs h
    obtain ⟨⟨hc, hd, hb⟩, hlevel⟩ := hst.adds_of_decision
    obtain ⟨hle₁, hcalls₁, hb₁, -⟩ := ih (hst.coherent hs)
    exact ⟨by omega, by omega, by omega, fun hu ↦ absurd hu hv⟩
  | turned h h₁ ht h₃ hv ih₁ ih₃ =>
    have hst := stepped_of_step hs h
    have hs₁ := hst.coherent hs
    obtain ⟨⟨hc, hd, hb⟩, hlevel⟩ := hst.adds_of_decision
    obtain ⟨-, hcalls₁, -, hu₁⟩ := ih₁ hs₁
    obtain ⟨hlevel₁, hb₁⟩ := hu₁ rfl
    obtain ⟨hc₂, hd₂, hb₂⟩ := adds_turn ht
    have hlevel₂ := level_turn ht
    obtain ⟨hle₃, hcalls₃, hb₃, -⟩ := ih₃ (coherent_turn (h₁.explored hs₁).coherent ht)
    exact ⟨by omega, by omega, by omega, fun hu ↦ absurd hu hv⟩
  | refuted h h₁ ht h₃ hr ih₁ ih₃ =>
    have hst := stepped_of_step hs h
    have hs₁ := hst.coherent hs
    obtain ⟨⟨hc, hd, hb⟩, hlevel⟩ := hst.adds_of_decision
    obtain ⟨-, hcalls₁, -, hu₁⟩ := ih₁ hs₁
    obtain ⟨hlevel₁, hb₁⟩ := hu₁ rfl
    obtain ⟨hc₂, hd₂, hb₂⟩ := adds_turn ht
    have hlevel₂ := level_turn ht
    obtain ⟨-, hcalls₃, -, hu₃⟩ := ih₃ (coherent_turn (h₁.explored hs₁).coherent ht)
    obtain ⟨hlevel₃, hb₃⟩ := hu₃ rfl
    obtain ⟨hc₄, hd₄, hb₄⟩ := adds_retreat hr
    have hlevel₄ := level_retreat hr
    exact ⟨by omega, by omega, by omega, fun _ ↦ ⟨by omega, by omega⟩⟩

end Search

/-- A refutation undoes each decision twice, and makes one call for each time besides the first. -/
structure Counters.Refutes (c c' : Counters) : Prop where
  backtracks : c'.backtracks + 2 * c.decisions = c.backtracks + 2 * c'.decisions
  calls : c'.calls + c.backtracks = c.calls + 1 + c'.backtracks

theorem Branch.Searched.refutes {b : Branch} {m m' : Monitor} {o : Outcome}
    (hx : b.Searched m o m') (ho : o = .unsatisfied) : m.counters.Refutes m'.counters := by
  induction hx with
  | ended _ | found _ _ _ => cases ho
  | conflict hm _ =>
    obtain ⟨hc, hd, hb⟩ := Monitor.adds_of_call hm
    exact ⟨by omega, by omega⟩
  | kept _ _ _ _ hne _ | turned _ _ _ _ _ hne _ _ => exact absurd ho hne
  | @refuted _ _ _ _ m₂ m₃ _ hm _ _ _ _ ih₁ ih₂ =>
    obtain ⟨hc, hd, hb⟩ := Monitor.adds_countDecision (Monitor.adds_of_call hm)
    obtain ⟨hc₁, hd₁, hb₁⟩ := Monitor.adds_countBacktrack m₂
    obtain ⟨hc₂, hd₂, hb₂⟩ := Monitor.adds_countBacktrack m₃
    obtain ⟨hundone₁, hcalls₁⟩ := ih₁ rfl
    obtain ⟨hundone₂, hcalls₂⟩ := ih₂ rfl
    exact ⟨by omega, by omega⟩

namespace CopyingSolver

variable {s₀ s : CopyingSolver} {info : Loaded}

theorem refutes_of_solve {σ : Type} [Storage] [ClauseSource σ] {source : σ}
    (h : s₀.load source = .ok (info, s)) (m : Monitor) :
    ∃ r m', { s with monitor := m }.solve = .ok (r, { s with monitor := m' }) ∧
      (r.verdict = .unsatisfied → ({} : Counters).Refutes m'.counters) := by
  obtain ⟨-, hn, -⟩ := formula_of_source h
  obtain ⟨o, m', hs, hx⟩ := (leftOf_root hn).search m.start
  have hs : Branch.search ⟨s.formula, .blank s.literals⟩ m.start = .ok (o, m') := hs
  refine ⟨respond o, m', by rw [solve, hs], fun hv ↦ ?_⟩
  apply hx.refutes
  cases o with
  | unsatisfied => rfl
  | satisfied w => cases hv
  | unknown => cases hv

end CopyingSolver

namespace Search

variable {ρ : Type}

/-- How the counters stand at the end of a search from a problem, which began with all at zero. -/
structure Balanced (p : Problem ρ) (v : Verdict) (s : Search ρ) : Prop where
  level_le : p.trail.level ≤ s.problem.trail.level
  calls : s.monitor.counters.calls =
    1 + s.monitor.counters.backtracks + (s.problem.trail.level - p.trail.level)
  backtracks_le : s.monitor.counters.backtracks ≤ 2 * s.monitor.counters.decisions
  refuted : v = .unsatisfied →
    s.monitor.counters.backtracks = 2 * s.monitor.counters.decisions ∧
      s.monitor.counters.calls = 1 + 2 * s.monitor.counters.decisions

theorem Accounts.balanced {s s' : Search ρ} {v : Verdict} (h : s.Accounts v s')
    (hm : s.monitor.counters = {}) : Balanced s.problem v s' := by
  obtain ⟨hle, hcalls, hb, hu⟩ := h
  rw [hm] at hcalls hb hu
  dsimp only at hcalls hb hu
  refine ⟨hle, by omega, by omega, fun hv ↦ ?_⟩
  obtain ⟨hlevel, hundone⟩ := hu hv
  omega

theorem Balanced.of_inPhase {s s' : Search ρ} {v : Verdict} {phase : Phase}
    (h : Balanced (s.inPhase phase).problem v s') (phase' : Phase) :
    Balanced s.problem v (s'.inPhase phase') :=
  ⟨h.level_le, h.calls, h.backtracks_le, h.refuted⟩

variable [Chooser ρ]

theorem exists_balanced {s : Search ρ} (hs : s.problem.Coherent) (hm : s.monitor.counters = {}) :
    ∃ ms v s', Explores (s.problem.unvalued + 1) s ms v s' ∧ Balanced s.problem v s' := by
  obtain ⟨ms, v, s', h⟩ := exists_explores hs (Nat.lt_succ_self _)
  exact ⟨ms, v, s', h, (h.accounts hs).balanced hm⟩

/-- From whatever state a problem has reached, the counters tell what tree was searched, and how far
down the search ended. A formula with an empty clause is refuted without counting anything. The search
of a copying solver counts in the same way when it refutes its formula. -/
theorem counters_account (n : Nat) (config : Config) (source : ρ) (os : List Operation)
    (m : Monitor) :
    let p := ((Problem.empty n config source).performAll os).2
    let s : Search ρ := ⟨p, { m with counters := {} }⟩
    ([] ∉ p.formula → ∀ run ∈ [Search.solve, Search.iterate, Search.recurse],
      ∃ v s', run s = .ok (v, s') ∧ Balanced p v s') ∧
    ([] ∈ p.formula → ∃ s', s.solve = .ok (.unsatisfied, s') ∧ s'.monitor = s.monitor) ∧
    ∀ {σ : Type} [Storage] [ClauseSource σ] (t₀ t : CopyingSolver) (text : σ) (info : Loaded),
      t₀.load text = .ok (info, t) → ∀ m : Monitor, ∃ r m',
        { t with monitor := m }.solve = .ok (r, { t with monitor := m' }) ∧
        (r.verdict = .unsatisfied →
          m'.counters.backtracks = 2 * m'.counters.decisions ∧
          m'.counters.calls = 1 + 2 * m'.counters.decisions) := by
  intro p s
  have hs : s.problem.Coherent := Problem.coherent_performAll n config source os
  refine ⟨?_, ?_, ?_⟩
  · intro hempty
    have hs' : (s.inPhase .solving).problem.Coherent := ⟨hs.records, hs.normal, hs.store⟩
    obtain ⟨ms, v, s', h, hb⟩ := exists_balanced hs rfl
    obtain ⟨ms', v', s'', h', hb'⟩ := exists_balanced hs' rfl
    have hsolve := h'.solve hs (mt ClauseStore.hasEmpty_iff.1 hempty)
    obtain ⟨hi, hr⟩ := h.iterate_and_recurse
    simp only [List.forall_mem_cons, List.not_mem_nil, false_implies, implies_true, and_true]
    exact ⟨⟨v', _, hsolve, hb'.of_inPhase _⟩, ⟨v, s', hi, hb⟩, ⟨v, s', hr, hb⟩⟩
  · intro hempty
    exact ⟨s.inPhase .unsatisfiable, by rw [solve, if_pos (ClauseStore.hasEmpty_iff.2 hempty)], rfl⟩
  · intro σ _ _ t₀ t text info h m
    obtain ⟨r, m', hr, hu⟩ := CopyingSolver.refutes_of_solve h m
    refine ⟨r, m', hr, fun hv ↦ ?_⟩
    obtain ⟨hundone, hcalls⟩ := hu hv
    dsimp only at hundone hcalls
    omega

theorem counters_account_four :
    let s : Search Script := ⟨((Problem.empty 2 {} (⟨[]⟩ : Script)).performAll
      [.add [1, 2], .add [1, -2], .add [-1, 2], .add [-1, -2]]).2, .ofConfig {} fun _ ↦ 0⟩
    (∃ s', s.solve = .ok (.unsatisfied, s') ∧ s'.monitor.counters = ⟨3, 1, 2⟩) ∧
    ∃ info t r m, (CopyingSolver.ofConfig {} fun _ ↦ 0).load
        (⟨2, [[1, 2], [1, -2], [-1, 2], [-1, -2]]⟩ : ClauseList) = .ok (info, t) ∧
      t.solve = .ok (r, { t with monitor := m }) ∧ r.verdict = .unsatisfied ∧
      m.counters.calls = 1 + 2 * m.counters.decisions := by
  intro s
  obtain ⟨hrun, -, hcopying⟩ := counters_account 2 {} (⟨[]⟩ : Script)
    [.add [1, 2], .add [1, -2], .add [-1, 2], .add [-1, -2]] (.ofConfig {} fun _ ↦ 0)
  constructor
  · obtain ⟨v, s', hs, hb⟩ := hrun (by decide +kernel) Search.solve (.head _)
    have hs : s.solve = .ok (v, s') := hs
    have hv : s.solve.toOption.map (fun r ↦ (r.1, r.2.monitor.counters.decisions)) =
        some (.unsatisfied, 1) := by decide +kernel
    rw [hs] at hv
    obtain ⟨rfl, hd⟩ := Prod.mk.inj (Option.some.inj hv)
    obtain ⟨hundone, hcalls⟩ := hb.refuted rfl
    refine ⟨s', hs, ?_⟩
    rw [hd] at hundone hcalls
    exact congr (congr (congrArg Counters.mk hcalls) hd) hundone
  · obtain ⟨info, t, ht⟩ := CopyingSolver.exists_load 2 [[1, 2], [1, -2], [-1, 2], [-1, -2]]
      (.ofConfig {} fun _ ↦ 0) (by decide) (by decide)
    obtain ⟨r, m, hr, hu⟩ := hcopying _ t _ info ht t.monitor
    have hv : (((CopyingSolver.ofConfig {} fun _ ↦ 0).load
        (⟨2, [[1, 2], [1, -2], [-1, 2], [-1, -2]]⟩ : ClauseList)).toOption.bind fun r ↦
          r.2.solve.toOption).map (·.1.verdict) = some .unsatisfied := by decide +kernel
    have hr : t.solve = .ok (r, { t with monitor := m }) := hr
    rw [ht, Except.toOption, Option.bind_some, hr] at hv
    have hv : r.verdict = .unsatisfied := Option.some.inj hv
    exact ⟨info, t, r, m, ht, hr, hv, (hu hv).2⟩

end Search

end Dpll
