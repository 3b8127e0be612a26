import Dpll.Monitor
import Mathlib.Tactic.Common

namespace Dpll.Monitor

variable {m : Monitor}

/-- Neither a limit of time nor an answer ever asks the search to end. -/
structure Endless (m : Monitor) : Prop where
  time : ∀ limit ∈ m.timeLimit, ∀ i, m.clock i < limit
  answers : ∀ answers ∈ m.terminate, ∀ i, answers i = false

theorem endless_of_none (hl : m.timeLimit = none) (ht : m.terminate = none) : m.Endless := by
  constructor
  · intro limit h
    rw [hl] at h
    cases h
  · intro answers h
    rw [ht] at h
    cases h

theorem Endless.start (h : m.Endless) : m.start.Endless := ⟨h.time, h.answers⟩

theorem Endless.countDecision (h : m.Endless) : m.countDecision.Endless := ⟨h.time, h.answers⟩

theorem Endless.countBacktrack (h : m.Endless) : m.countBacktrack.Endless := ⟨h.time, h.answers⟩

theorem Endless.noteProgress (h : m.Endless) (elapsed : Duration) :
    (m.noteProgress elapsed).Endless := by
  unfold Monitor.noteProgress
  split
  · exact ⟨h.time, h.answers⟩
  · exact h

theorem clock_noteProgress (m : Monitor) (elapsed : Duration) :
    (m.noteProgress elapsed).clock = m.clock := by
  unfold noteProgress
  split <;> rfl

theorem Endless.shouldEnd (h : m.Endless) (i : Nat) :
    (m.shouldEnd (m.clock i)).1 = false ∧ (m.shouldEnd (m.clock i)).2.Endless := by
  have ht : ¬ m.timeLimit.any (· ≤ m.clock i) := by
    intro ha
    obtain ⟨limit, hl, hle⟩ := (Option.any_eq_true _ _).1 ha
    exact Nat.not_lt_of_le (of_decide_eq_true hle) (h.time limit hl i)
  unfold Monitor.shouldEnd
  rw [if_neg ht]
  split
  next => exact ⟨rfl, h⟩
  next answers ha => exact ⟨h.answers answers ha _, ⟨h.time, h.answers⟩⟩

theorem Endless.check (h : m.Endless) : m.check.1 = false ∧ m.check.2.Endless := by
  have hn := Endless.noteProgress (m := { m with checks := m.checks + 1 })
    ⟨h.time, h.answers⟩ (m.clock m.checks)
  have hs := hn.shouldEnd m.checks
  rw [clock_noteProgress] at hs
  exact hs

theorem Endless.call {m' : Monitor} {ended : Bool} (h : m.Endless) (hc : m.call = (ended, m')) :
    ended = false ∧ m'.Endless := by
  have hm : ({ m with counters.calls := m.counters.calls + 1 } : Monitor).Endless :=
    ⟨h.time, h.answers⟩
  unfold Monitor.call at hc
  dsimp only at hc
  split at hc
  · have hk := hm.check
    rwa [hc] at hk
  · cases hc
    exact ⟨rfl, hm⟩

theorem counters_noteProgress (m : Monitor) (elapsed : Duration) :
    (m.noteProgress elapsed).counters = m.counters := by
  unfold noteProgress
  split <;> rfl

theorem counters_shouldEnd (m : Monitor) (elapsed : Duration) :
    (m.shouldEnd elapsed).2.counters = m.counters := by
  unfold shouldEnd
  split
  · rfl
  · split <;> rfl

theorem counters_call (m : Monitor) :
    m.call.2.counters = { m.counters with calls := m.counters.calls + 1 } := by
  unfold call
  dsimp only
  split
  · rw [check, counters_shouldEnd, counters_noteProgress]
  · rfl

theorem decisions_call (m : Monitor) : m.call.2.counters.decisions = m.counters.decisions := by
  rw [counters_call]

end Dpll.Monitor
