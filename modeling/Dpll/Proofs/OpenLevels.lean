import Dpll.Proofs.Accounting
import Dpll.Proofs.Frames
import Dpll.Random.Choice

namespace Dpll

theorem eq_ok_of_toOption {ε α : Type} {x : Except ε α} {a : α} (h : x.toOption = some a) :
    x = .ok a := by
  cases x with
  | error e => cases h
  | ok b => exact congrArg Except.ok (Option.some.inj h)

namespace Problem

variable {ρ : Type} {p q : Problem ρ} {l : Literal} {d : Nat}

theorem Decided.level (h : p.Decided l q) : q.trail.level = p.trail.level + 1 :=
  (congrArg Trail.level h.trail).trans (level_put_true p l)

/-- The valuation as it was with so many literals on the trail. -/
def valuationAt (p : Problem ρ) (d : Nat) : Valuation :=
  p.valuation.clearAll (p.trail.literals.toList.drop d)

@[simp] theorem valuationAt_depth (p : Problem ρ) : p.valuationAt p.trail.depth = p.valuation := by
  rw [valuationAt, List.drop_of_length_le (by simp [Trail.depth])]
  rfl

theorem Coherent.valuationAt_of_before (hp : p.Coherent) (hq : q.Coherent) (hk : p.Keeps q)
    (ht : p.trail.Before q.trail) (hd : d ≤ p.trail.depth) :
    q.valuationAt d = p.valuationAt d := by
  have htake : q.trail.literals.toList.take d = p.trail.literals.toList.take d := by
    obtain ⟨rest, hrest⟩ := ht.literals
    rw [← hrest, List.take_append_of_le_length (by simpa [Trail.depth] using hd)]
  apply Valuation.eq_of_value
  · rw [valuationAt, valuationAt, Valuation.size_clearAll, Valuation.size_clearAll, hk.size]
  · intro a
    by_cases ha : a = 0
    · rw [ha, valuationAt, valuationAt, hp.records.value_zero_clearAll,
        hq.records.value_zero_clearAll]
    · apply Option.ext
      intro b
      rw [valuationAt, valuationAt, hp.records.value_clearAll_iff d ha,
        hq.records.value_clearAll_iff d ha, htake]

theorem Coherent.valuationAt_depth_of_before (hp : p.Coherent) (hq : q.Coherent) (hk : p.Keeps q)
    (ht : p.trail.Before q.trail) : q.valuationAt p.trail.depth = p.valuation := by
  rw [hp.valuationAt_of_before hq hk ht (Nat.le_refl _), valuationAt_depth]

end Problem

namespace Search

variable {ρ : Type} {p₀ p q r : Problem ρ} {s₀ s s₁ t u : Search ρ} {i k : Nat} {frame : Frame}
  {frames rest : List Frame}

/-- The level at an index begins with the literal of a frame. If the opposite was tried before, no model
of the formula has the values from before the level, and makes the opposite true. -/
def Frame.Opens (frame : Frame) (p : Problem ρ) (i : Nat) : Prop :=
  ∃ start, p.trail.levelStarts[i]? = some start ∧ p.trail.literals[start]? = some frame.literal ∧
    (frame.triedOpposite → ∀ M, (p.valuationAt start).Extended M →
      frame.literal.negate.Holds M → ¬ p.formula.Holds M)

/-- The levels opened from a problem on are those of the frames, latest first. -/
structure Mirrors (p₀ : Problem ρ) (frames : List Frame) (p : Problem ρ) : Prop where
  level : p.trail.level = p₀.trail.level + frames.length
  opens : ∀ (i : Nat) (frame : Frame), frames.reverse[i]? = some frame →
    frame.Opens p (p₀.trail.level + i)

theorem Frame.Opens.of_before (h : frame.Opens p i) (hp : p.Coherent) (hq : q.Coherent)
    (hk : p.Keeps q) (ht : p.trail.Before q.trail) : frame.Opens q i := by
  obtain ⟨start, hs, hl, hn⟩ := h
  have hdepth : start ≤ p.trail.depth :=
    Nat.le_of_lt (hp.records.below start (Array.mem_toList_iff.2 (Array.mem_of_getElem? hs)))
  refine ⟨start, Trail.getElem?_of_isPrefix ht.levelStarts hs,
    Trail.getElem?_of_isPrefix ht.literals hl, ?_⟩
  rw [hp.valuationAt_of_before hq hk ht hdepth, hk.formula]
  exact hn

theorem Frame.opens_of_decided (hp : p.Coherent) (hd : p.Decided frame.literal q)
    (ht : frame.triedOpposite →
      ¬ p.formula.SatisfiableUnder (p.valuation.make frame.literal.negate)) :
    frame.Opens q p.trail.level := by
  have hbefore : p.trail.Before q.trail := hd.trail ▸ Trail.before_put _ _ _
  refine ⟨p.trail.depth, ?_, ?_, ?_⟩
  · rw [hd.trail, ← Array.getElem?_toList, Trail.levelStarts_put_true, Trail.level,
      ← Array.length_toList, List.getElem?_concat_length]
  · rw [hd.trail, ← Array.getElem?_toList, Trail.literals_put, Trail.depth, ← Array.length_toList,
      List.getElem?_concat_length]
  · rw [hp.valuationAt_depth_of_before hd.coherent hd.keeps hbefore, hd.keeps.formula]
    intro htried M hM hl hf
    exact ht htried ⟨M, (Valuation.extended_make_iff hd.free.negate).2 ⟨hM, hl⟩, hf⟩

theorem mirrors_nil (p : Problem ρ) : Mirrors p [] p := ⟨rfl, nofun⟩

theorem Mirrors.decision (h : Mirrors p₀ frames p) (hc : p.Coherent) (hp : p.Simplified q)
    (hd : q.Decided frame.literal r)
    (ht : frame.triedOpposite →
      ¬ q.formula.SatisfiableUnder (q.valuation.make frame.literal.negate)) :
    Mirrors p₀ (frame :: frames) r := by
  have hlevel : q.trail.level = p₀.trail.level + frames.length := hp.level.trans h.level
  constructor
  · rw [hd.level, hlevel, List.length_cons, Nat.add_assoc]
  · intro i other hi
    rw [List.reverse_cons, List.getElem?_append] at hi
    split at hi
    next hlt =>
      have hbefore : q.trail.Before r.trail := hd.trail ▸ Trail.before_put _ _ _
      exact (h.opens i other hi).of_before hc hd.coherent (hp.keeps.trans hd.keeps)
        (hp.grows.before.trans hbefore)
    next hle =>
      rw [List.length_reverse] at hle hi
      obtain ⟨hz, rfl⟩ := List.getElem?_eq_some_iff.1 hi
      obtain rfl : i = frames.length := by
        rw [List.length_singleton] at hz
        omega
      rw [← hlevel]
      simpa using Frame.opens_of_decided hp.coherent hd ht

theorem Framed.mirrors (h : Framed p₀ frames p) (h₀ : p₀.Coherent) : Mirrors p₀ frames p := by
  induction h with
  | bottom => exact mirrors_nil p₀
  | decision h hp hd ht ih => exact ih.decision (h.coherent h₀) hp hd ht

/-- The frames and the search left, while backtracking has closed frames of which the opposite was
tried. -/
inductive Closes : List Frame → Search ρ → List Frame → Search ρ → Prop
  | refl (frames : List Frame) (s : Search ρ) : Closes frames s frames s
  | tried {frame : Frame} {frames rest : List Frame} {s s' u : Search ρ}
    (ht : frame.triedOpposite) (hr : s.retreat = .ok s') (h : Closes frames s' rest u) :
    Closes (frame :: frames) s rest u

/-- Backtracking meets no fault. Whichever frames it has closed, the level of the next one is there to be
undone, and the opposite of its decision has no value then. -/
structure Unwinds (frames : List Frame) (s : Search ρ) : Prop where
  backtrack : ∃ r, Search.backtrack frames s = .ok r
  retreat : ∀ frame rest u, Closes frames s (frame :: rest) u →
    ∃ u', u.retreat = .ok u' ∧ u'.problem.valuation.Free frame.literal.negate

theorem Framed.retreat (h : Framed p₀ frames p) (hs : s.problem.Coherent) (hk : p.Keeps s.problem)
    (hg : p.trail.Grows s.problem.trail) (hc : Closes frames s (frame :: rest) u) :
    ∃ u', u.retreat = .ok u' ∧ u'.problem.valuation.Free frame.literal.negate := by
  -- Closing a frame takes the search back to what simplification had made of the problem below it.
  induction h generalizing s with
  | bottom => cases hc
  | decision h hp hd ht ih =>
    obtain ⟨x, hx, hres⟩ := retreat_of_decided hp.coherent hd hs hk hg
    cases hc with
    | refl =>
      have hf : x.valuation.Free frame.literal.negate := hres.valuation ▸ hd.free.negate
      exact ⟨_, hx, hf⟩
    | tried _ hr hc =>
      cases hx.symm.trans hr
      exact ih hres.coherent (hp.keeps.trans hres.keeps) (hres.trail ▸ hp.grows) hc

theorem Framed.unwinds (h : Framed p₀ frames p) (hs : s.problem.Coherent) (hk : p.Keeps s.problem)
    (hg : p.trail.Grows s.problem.trail)
    (hn : ¬ p.formula.SatisfiableUnder p.valuation) : Unwinds frames s where
  backtrack := by
    obtain ⟨s', hb⟩ | ⟨frames', s', hb, -⟩ := h.backtrack hs hk hg hn
    · exact ⟨_, hb⟩
    · exact ⟨_, hb⟩
  retreat _ _ _ := h.retreat hs hk hg

theorem callsOf_resumeLogged (next : List Frame → Search ρ → Logged ρ) (frames : List Frame)
    (s : Search ρ) :
    callsOf (resumeLogged next frames s).moves =
      match backtrack frames s with
      | .ok (some frames', s') => callsOf (next frames' s').moves
      | _ => [] := by
  induction frames generalizing s with
  | nil => rfl
  | cons frame frames ih =>
    unfold resumeLogged backtrack
    cases frame.triedOpposite
    · cases s.turn frame.literal <;> rfl
    · cases s.retreat with
      | error fault => rfl
      | ok s' => exact ih s'

variable [Chooser ρ]

theorem callsOf_iterateLogged_succ (calls : Nat) (frames : List Frame) (s : Search ρ) :
    callsOf (iterateLogged (calls + 1) frames s).moves =
      s :: match s.step with
      | .ok (.decision l, s') => callsOf (iterateLogged calls (⟨l, false⟩ :: frames) s').moves
      | .ok (.verdict .unsatisfied, s') =>
        match backtrack frames s' with
        | .ok (some frames', s'') => callsOf (iterateLogged calls frames' s'').moves
        | _ => []
      | _ => [] := by
  rw [iterateLogged]
  cases s.step with
  | error fault => rfl
  | ok r =>
    obtain ⟨a, s'⟩ := r
    cases a with
    | decision l => rfl
    | verdict v =>
      cases v with
      | unsatisfied => exact congrArg (s :: ·) (callsOf_resumeLogged _ frames s')
      | satisfied | unknown => rfl

theorem Reaches.of_callsOf {calls : Nat} (h : Reaches s₀ k frames s)
    (ht : (callsOf (iterateLogged calls frames s).moves)[i]? = some t) :
    ∃ frames', Reaches s₀ (k + i) frames' t := by
  induction calls generalizing k i frames s with
  | zero => cases ht
  | succ calls ih =>
    rw [callsOf_iterateLogged_succ] at ht
    cases i with
    | zero =>
      cases ht
      exact ⟨frames, h⟩
    | succ i =>
      rw [List.getElem?_cons_succ] at ht
      rw [Nat.add_comm i, ← Nat.add_assoc]
      split at ht
      next hs => exact ih (.decided h hs) ht
      next hs =>
        split at ht
        next hb => exact ih (.resumed h hs hb) ht
        next => cases ht
      next => cases ht

theorem Reaches.unwinds (h : Reaches s₀ k frames s) (h₀ : s₀.problem.Coherent)
    (hs : s.step = .ok (.verdict .unsatisfied, s₁)) : Unwinds frames s₁ := by
  have hf := h.framed h₀
  have hx := (stepped_of_step (hf.coherent h₀) hs).explored (hf.coherent h₀)
  exact hf.unwinds hx.coherent hx.keeps (hx.grows rfl) (hx.refuted rfl)

/-- From whatever state a problem has reached, in whatever phase, the iterative form makes each of its
calls in a state it reaches. The frames mirror the levels opened since the search began, and those tried
both ways are refuted. When a call ends in conflict, closing the frames meets no fault. -/
theorem frames_mirror_levels (n : Nat) (config : Config) (source : ρ) (os : List Operation)
    (m : Monitor) (phase : Phase) :
    let s := inPhase ⟨((Problem.empty n config source).performAll os).2, m⟩ phase
    (∃ ms v s', s.iterate = .ok (v, s') ∧
      iterateLogged (callBound (s.problem.unvalued + 1)) [] s = ⟨ms, .ok (v, s')⟩ ∧
      ∀ k t, (callsOf ms)[k]? = some t → ∃ frames, Reaches s k frames t) ∧
    ∀ k frames t, Reaches s k frames t →
      (∀ calls, iterateFrom (k + calls) [] s = iterateFrom calls frames t) ∧
      Mirrors s.problem frames t.problem ∧
      ∀ t', t.step = .ok (.verdict .unsatisfied, t') → Unwinds frames t' := by
  intro s
  have hs : s.problem.Coherent := by
    apply coherent_inPhase
    exact Problem.coherent_performAll n config source os
  constructor
  · obtain ⟨ms, v, s', h⟩ := exists_explores hs (Nat.lt_succ_self _)
    have hl := h.iterateLogged_of_le (Nat.le_refl _)
    refine ⟨ms, v, s', h.iterate_and_recurse.1, hl, fun k t ht ↦ ?_⟩
    rw [← Nat.zero_add k]
    apply Reaches.start.of_callsOf
    rw [hl]
    exact ht
  · intro k frames t h
    exact ⟨h.iterateFrom, (h.framed hs).mirrors hs, fun t' ↦ h.unwinds hs⟩

theorem frames_mirror_levels_two :
    let s : Search Script := inPhase ⟨((Problem.empty 5
      { heuristic := ⟨"heuristic", .random, .first, .first⟩ } (⟨[]⟩ : Script)).performAll
        [.add [-1, 2], .add [-1, -2], .add [1, 3], .add [1, -3], .add [4, 5],
          .assign 4 false true]).2, .ofConfig {} fun _ ↦ 0⟩ .solving
    ∃ t t', Reaches s 2 [⟨-1, true⟩] t ∧ t.problem.trail.level = 2 ∧
      Frame.Opens ⟨-1, true⟩ t.problem 1 ∧
      t.step = .ok (.verdict .unsatisfied, t') ∧ Unwinds [⟨-1, true⟩] t' := by
  intro s
  obtain ⟨-, hreached⟩ := frames_mirror_levels 5
    { heuristic := ⟨"heuristic", .random, .first, .first⟩ } (⟨[]⟩ : Script)
    [.add [-1, 2], .add [-1, -2], .add [1, 3], .add [1, -3], .add [4, 5], .assign 4 false true]
    (.ofConfig {} fun _ ↦ 0) .solving
  have hrun : (s.step.toOption.bind fun r₁ ↦ r₁.2.step.toOption.bind fun r₂ ↦
      (backtrack [⟨1, false⟩] r₂.2).toOption.bind fun r₃ ↦ r₃.2.step.toOption.map fun r₄ ↦
        (r₁.1, r₂.1, r₃.1, r₄.1)) =
      some (.decision 1, .verdict .unsatisfied, some [⟨-1, true⟩], .verdict .unsatisfied) := by
    decide +kernel
  obtain ⟨⟨_, s₁⟩, h₁, hrun⟩ := Option.bind_eq_some_iff.1 hrun
  obtain ⟨⟨_, s₂⟩, h₂, hrun⟩ := Option.bind_eq_some_iff.1 hrun
  obtain ⟨⟨_, t⟩, h₃, hrun⟩ := Option.bind_eq_some_iff.1 hrun
  obtain ⟨⟨_, t'⟩, h₄, hrun⟩ := Option.map_eq_some_iff.1 hrun
  cases hrun
  have ht : Reaches s 2 [⟨-1, true⟩] t :=
    (Reaches.start.decided (eq_ok_of_toOption h₁)).resumed (eq_ok_of_toOption h₂)
      (eq_ok_of_toOption h₃)
  obtain ⟨-, hm, hu⟩ := hreached 2 _ t ht
  have hlevel : s.problem.trail.level = 1 := by decide +kernel
  have hopens := hm.opens 0 ⟨-1, true⟩ rfl
  refine ⟨t, t', ht, ?_, ?_, eq_ok_of_toOption h₄, hu t' (eq_ok_of_toOption h₄)⟩
  · rw [hm.level, hlevel]
    rfl
  · rwa [hlevel] at hopens

end Search

end Dpll
