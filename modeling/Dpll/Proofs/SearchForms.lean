import Dpll.Proofs.Exploration
import Dpll.Search.Solve

namespace Dpll.Search

variable {ρ : Type}

/-- The result of a search, and the moves which led to it. As each move comes with the state it is
made in, the moves tell of every assignment and rollback, and of every question asked of the
monitor. -/
structure Logged (ρ : Type) where
  moves : List (Move ρ)
  result : Except ProblemFault (Verdict × Search ρ)

namespace Logged

def after (ms : List (Move ρ)) (r : Logged ρ) : Logged ρ := ⟨ms ++ r.moves, r.result⟩

@[simp] theorem result_after (ms : List (Move ρ)) (r : Logged ρ) :
    (r.after ms).result = r.result := rfl

theorem after_after (ms ns : List (Move ρ)) (r : Logged ρ) :
    (r.after ns).after ms = r.after (ms ++ ns) := by
  simp [after]

def whenRefuted (r : Logged ρ) (next : Search ρ → Logged ρ) : Logged ρ :=
  match r.result with
  | .ok (.unsatisfied, s) => (next s).after r.moves
  | _ => r

theorem whenRefuted_of_eq {r : Logged ρ} {s : Search ρ} (h : r.result = .ok (.unsatisfied, s))
    (next : Search ρ → Logged ρ) : r.whenRefuted next = (next s).after r.moves := by
  rw [whenRefuted, h]

theorem whenRefuted_of_ne {r : Logged ρ} (h : ∀ s, r.result ≠ .ok (.unsatisfied, s))
    (next : Search ρ → Logged ρ) : r.whenRefuted next = r := by
  unfold whenRefuted
  split
  next s hs => exact absurd hs (h s)
  next => rfl

theorem result_whenRefuted (r : Logged ρ) (next : Search ρ → Logged ρ) :
    (r.whenRefuted next).result =
      match r.result with
      | .ok (.unsatisfied, s) => (next s).result
      | .ok (v, s) => .ok (v, s)
      | .error fault => .error fault := by
  obtain ⟨ms, _ | ⟨v, s⟩⟩ := r
  · rfl
  · cases v <;> rfl

end Logged

/-- As `backtrack`, with the search which goes on from the frames left open. -/
def resumeLogged (next : List Frame → Search ρ → Logged ρ) :
    List Frame → Search ρ → Logged ρ
  | [], s => ⟨[], .ok (.unsatisfied, s)⟩
  | frame :: frames, s =>
    if frame.triedOpposite then
      match s.retreat with
      | .error fault => ⟨[.retreat s], .error fault⟩
      | .ok s' => (resumeLogged next frames s').after [.retreat s]
    else
      match s.turn frame.literal with
      | .error fault => ⟨[.turn frame.literal s], .error fault⟩
      | .ok s' =>
        (next (⟨frame.literal.negate, true⟩ :: frames) s').after [.turn frame.literal s]

theorem result_resumeLogged (next : List Frame → Search ρ → Logged ρ) (frames : List Frame)
    (s : Search ρ) :
    (resumeLogged next frames s).result =
      match backtrack frames s with
      | .error fault => .error fault
      | .ok (none, s) => .ok (.unsatisfied, s)
      | .ok (some frames, s) => (next frames s).result := by
  induction frames generalizing s with
  | nil => rfl
  | cons frame frames ih =>
    unfold resumeLogged backtrack
    cases frame.triedOpposite
    · cases s.turn frame.literal <;> rfl
    · cases s.retreat with
      | error fault => rfl
      | ok s' => exact ih s'

variable [Chooser ρ]

def iterateLogged : Nat → List Frame → Search ρ → Logged ρ
  | 0, _, s => ⟨[], .ok (.unknown, s)⟩
  | calls + 1, frames, s =>
    match s.step with
    | .error fault => ⟨[.call s], .error fault⟩
    | .ok (.decision l, s') => (iterateLogged calls (⟨l, false⟩ :: frames) s').after [.call s]
    | .ok (.verdict .unsatisfied, s') =>
      (resumeLogged (iterateLogged calls) frames s').after [.call s]
    | .ok (.verdict v, s') => ⟨[.call s], .ok (v, s')⟩

def recurseLogged : Nat → Search ρ → Logged ρ
  | 0, s => ⟨[], .ok (.unknown, s)⟩
  | depth + 1, s =>
    match s.step with
    | .error fault => ⟨[.call s], .error fault⟩
    | .ok (.verdict v, s') => ⟨[.call s], .ok (v, s')⟩
    | .ok (.decision l, s₁) =>
      (recurseLogged depth s₁ |>.whenRefuted fun s₂ ↦
        match s₂.turn l with
        | .error fault => ⟨[.turn l s₂], .error fault⟩
        | .ok s₃ =>
          (recurseLogged depth s₃ |>.whenRefuted fun s₄ ↦
            match s₄.retreat with
            | .error fault => ⟨[.retreat s₄], .error fault⟩
            | .ok s₅ => ⟨[.retreat s₄], .ok (.unsatisfied, s₅)⟩).after [.turn l s₂]).after [.call s]

theorem result_iterateLogged (calls : Nat) (frames : List Frame) (s : Search ρ) :
    (iterateLogged calls frames s).result = iterateFrom calls frames s := by
  induction calls generalizing frames s with
  | zero => rfl
  | succ calls ih =>
    unfold iterateLogged iterateFrom
    cases s.step with
    | error fault => rfl
    | ok r =>
      obtain ⟨a, s'⟩ := r
      cases a with
      | decision l => exact ih _ s'
      | verdict v =>
        cases v with
        | unsatisfied =>
          simp only [Logged.result_after, result_resumeLogged]
          cases backtrack frames s' with
          | error fault => rfl
          | ok r =>
            obtain ⟨_ | frames', s''⟩ := r
            · rfl
            · exact ih frames' s''
        | satisfied => rfl
        | unknown => rfl

theorem result_recurseLogged (depth : Nat) (s : Search ρ) :
    (recurseLogged depth s).result = recurseTo depth s := by
  induction depth generalizing s with
  | zero => rfl
  | succ depth ih =>
    unfold recurseLogged recurseTo
    cases s.step with
    | error fault => rfl
    | ok r =>
      obtain ⟨a, s₁⟩ := r
      cases a with
      | verdict v => rfl
      | decision l =>
        simp only [Logged.result_after, Logged.result_whenRefuted, ih]
        cases recurseTo depth s₁ with
        | error fault => rfl
        | ok r =>
          obtain ⟨v, s₂⟩ := r
          cases v with
          | unsatisfied =>
            dsimp only
            cases s₂.turn l with
            | error fault => rfl
            | ok s₃ =>
              simp only [Logged.result_after, Logged.result_whenRefuted, ih]
              cases recurseTo depth s₃ with
              | error fault => rfl
              | ok r =>
                obtain ⟨v, s₄⟩ := r
                cases v with
                | unsatisfied =>
                  dsimp only
                  cases s₄.retreat <;> rfl
                | satisfied => rfl
                | unknown => rfl
          | satisfied => rfl
          | unknown => rfl

/-- The iterative form makes the moves of the tree. When that is refuted, it goes on from the frames
which were open. -/
theorem Explores.iterateLogged {depth : Nat} {s s' : Search ρ} {ms : List (Move ρ)} {v : Verdict}
    (h : Explores depth s ms v s') (calls : Nat) (frames : List Frame) :
    iterateLogged (callCount ms + calls) frames s =
      if v = .unsatisfied then (resumeLogged (iterateLogged calls) frames s').after ms
      else ⟨ms, .ok (v, s')⟩ := by
  -- What the frames below would do is left open, so that each subtree may be taken with the frame
  -- of its decision on top of them.
  induction h generalizing calls frames with
  | @settled _ s s' v h =>
    have hc : callCount [Move.call s] + calls = calls + 1 := Nat.add_comm _ _
    rw [hc, Search.iterateLogged, h]
    cases v <;> rfl
  | @kept _ s s₁ s₂ l v ms h h₁ hv ih =>
    have hc : callCount (.call s :: ms) + calls = callCount ms + calls + 1 := by
      simp only [callCount, Nat.add_right_comm]
    rw [hc, Search.iterateLogged, h]
    dsimp only
    rw [ih, if_neg hv, if_neg hv]
    rfl
  | @turned _ s s₁ s₂ s₃ s₄ l v ms ns h h₁ ht h₃ hv ih₁ ih₃ =>
    have hc : callCount (.call s :: (ms ++ .turn l s₂ :: ns)) + calls =
        callCount ms + (callCount ns + calls) + 1 := by
      simp only [callCount, callCount_append]
      omega
    rw [hc, Search.iterateLogged, h]
    dsimp only
    rw [ih₁, if_pos rfl, resumeLogged, if_neg Bool.noConfusion, ht]
    dsimp only
    rw [ih₃, if_neg hv, if_neg hv]
    simp [Logged.after]
  | @refuted _ s s₁ s₂ s₃ s₄ s₅ l ms ns h h₁ ht h₃ hr ih₁ ih₃ =>
    have hc : callCount (.call s :: (ms ++ .turn l s₂ :: (ns ++ [.retreat s₄]))) + calls =
        callCount ms + (callCount ns + calls) + 1 := by
      simp only [callCount, callCount_append]
      omega
    rw [hc, Search.iterateLogged, h]
    dsimp only
    rw [ih₁, if_pos rfl, resumeLogged, if_neg Bool.noConfusion, ht]
    dsimp only
    rw [ih₃, if_pos rfl, resumeLogged, if_pos rfl, hr, if_pos rfl]
    simp [Logged.after_after]

theorem Explores.recurseLogged {depth : Nat} {s s' : Search ρ} {ms : List (Move ρ)} {v : Verdict}
    (h : Explores depth s ms v s') : recurseLogged depth s = ⟨ms, .ok (v, s')⟩ := by
  induction h with
  | settled h => rw [Search.recurseLogged, h]
  | kept h h₁ hv ih =>
    rw [Search.recurseLogged, h]
    dsimp only
    rw [ih, Logged.whenRefuted_of_ne]
    · rfl
    · intro s hs
      cases hs
      exact hv rfl
  | turned h h₁ ht h₃ hv ih₁ ih₃ =>
    rw [Search.recurseLogged, h]
    dsimp only
    rw [ih₁, Logged.whenRefuted_of_eq rfl, ht]
    dsimp only
    rw [ih₃, Logged.whenRefuted_of_ne]
    · simp [Logged.after]
    · intro s hs
      cases hs
      exact hv rfl
  | refuted h h₁ ht h₃ hr ih₁ ih₃ =>
    rw [Search.recurseLogged, h]
    dsimp only
    rw [ih₁, Logged.whenRefuted_of_eq rfl, ht]
    dsimp only
    rw [ih₃, Logged.whenRefuted_of_eq rfl, hr]
    simp [Logged.after]

theorem callBound_pos (depth : Nat) : 0 < callBound depth := by
  rw [callBound, Nat.one_shiftLeft]
  exact Nat.two_pow_pos depth

theorem callBound_succ (depth : Nat) : callBound (depth + 1) = 2 * callBound depth :=
  Nat.shiftLeft_succ 1 depth

theorem Explores.callCount_lt {depth : Nat} {s s' : Search ρ} {ms : List (Move ρ)} {v : Verdict}
    (h : Explores depth s ms v s') : callCount ms < callBound depth := by
  induction h with
  | @settled depth =>
    have hp := callBound_pos depth
    simp only [callCount, callBound_succ]
    omega
  | kept h h₁ hv ih =>
    simp only [callCount, callBound_succ]
    omega
  | turned h h₁ ht h₃ hv ih₁ ih₃ =>
    simp only [callCount, callCount_append, callBound_succ]
    omega
  | refuted h h₁ ht h₃ hr ih₁ ih₃ =>
    simp only [callCount, callCount_append, callBound_succ]
    omega

theorem Explores.iterateLogged_of_callCount_le {depth : Nat} {s s' : Search ρ}
    {ms : List (Move ρ)} {v : Verdict} (h : Explores depth s ms v s') {calls : Nat}
    (hc : callCount ms ≤ calls) : Search.iterateLogged calls [] s = ⟨ms, .ok (v, s')⟩ := by
  obtain ⟨k, rfl⟩ := Nat.exists_eq_add_of_le hc
  rw [h.iterateLogged]
  split
  next hv => simp [hv, resumeLogged, Logged.after]
  next => rfl

theorem Explores.iterateLogged_of_le {depth : Nat} {s s' : Search ρ} {ms : List (Move ρ)}
    {v : Verdict} (h : Explores depth s ms v s') {calls : Nat} (hc : callBound depth ≤ calls) :
    Search.iterateLogged calls [] s = ⟨ms, .ok (v, s')⟩ :=
  h.iterateLogged_of_callCount_le (Nat.le_trans (Nat.le_of_lt h.callCount_lt) hc)

theorem Explores.iterate_and_recurse {s s' : Search ρ} {ms : List (Move ρ)} {v : Verdict}
    (h : Explores (s.problem.unvalued + 1) s ms v s') :
    s.iterate = .ok (v, s') ∧ s.recurse = .ok (v, s') := by
  constructor
  · rw [iterate, ← result_iterateLogged, h.iterateLogged_of_le (Nat.le_refl _)]
  · rw [recurse, ← result_recurseLogged, h.recurseLogged]

theorem exists_run {s : Search ρ} (hs : s.problem.Coherent) :
    ∃ v s', s.Explored v s' ∧ s.iterate = .ok (v, s') ∧ s.recurse = .ok (v, s') := by
  obtain ⟨ms, v, s', h⟩ := exists_explores hs (Nat.lt_succ_self _)
  exact ⟨v, s', h.explored hs, h.iterate_and_recurse⟩

end Dpll.Search
