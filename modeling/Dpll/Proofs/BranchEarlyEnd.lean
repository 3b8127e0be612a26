import Dpll.Proofs.CopyingSolver
import Dpll.Proofs.EarlyEnd

namespace Dpll.Branch

variable {n k : Nat} {f : Formula} {b b' : Branch} {m m' m₁ : Monitor} {l : Literal} {o : Outcome}

def sides (b : Branch) : Option (Branch × Branch) :=
  match b.simplify with
  | .ok (some b') =>
    b'.firstLiteral?.map fun l ↦ (b'.put (.ofAtom l.atom true), b'.put (.ofAtom l.atom false))
  | _ => none

theorem sides_of_conflict (hs : b.simplify = .ok none) : b.sides = none := by
  simp only [sides, hs]

theorem sides_of_found (hs : b.simplify = .ok (some b')) (hl : b'.firstLiteral? = none) :
    b.sides = none := by
  simp only [sides, hs, hl, Option.map_none]

theorem sides_of_decision (hs : b.simplify = .ok (some b')) (hl : b'.firstLiteral? = some l) :
    b.sides = some (b'.put (.ofAtom l.atom true), b'.put (.ofAtom l.atom false)) := by
  simp only [sides, hs, hl, Option.map_some]

theorem size_sides {bt bf : Branch} (h : b.sides = some (bt, bf)) :
    bt.formula.size < b.formula.size ∧ bf.formula.size < b.formula.size := by
  unfold sides at h
  split at h
  next b' hs =>
    obtain ⟨l, hl, he⟩ := Option.map_eq_some_iff.1 h
    cases he
    exact ⟨size_put_lt hs hl true, size_put_lt hs hl false⟩
  next => cases h

set_option linter.unusedVariables false in
/-- The monitors with which `search` makes its calls, in order. -/
def calls (b : Branch) (m : Monitor) : List Monitor :=
  m :: match m.call with
    | (true, _) => []
    | (false, m) =>
      match h : b.sides with
      | none => []
      | some (bt, bf) =>
        bt.calls m.countDecision ++
          match bt.search m.countDecision with
          | .ok (.unsatisfied, m) => bf.calls m.countBacktrack
          | _ => []
termination_by b.formula.size
decreasing_by
  · exact (size_sides h).1
  · exact (size_sides h).2

theorem mem_calls (b : Branch) (m : Monitor) : m ∈ b.calls m := by
  rw [calls]
  exact .head _

theorem calls_of_ended (hm : m.call = (true, m₁)) (b : Branch) : b.calls m = [m] := by
  rw [calls, hm]

theorem calls_of_settled (hm : m.call = (false, m₁)) (h : b.sides = none) : b.calls m = [m] := by
  rw [calls, hm]
  dsimp only
  split
  next => rfl
  next h' => cases h.symm.trans h'

theorem calls_of_decision (hm : m.call = (false, m₁)) (hs : b.simplify = .ok (some b'))
    (hl : b'.firstLiteral? = some l) :
    b.calls m = m :: ((b'.put (.ofAtom l.atom true)).calls m₁.countDecision ++
      match (b'.put (.ofAtom l.atom true)).search m₁.countDecision with
      | .ok (.unsatisfied, m) => (b'.put (.ofAtom l.atom false)).calls m.countBacktrack
      | _ => []) := by
  have h := sides_of_decision hs hl
  rw [calls, hm]
  dsimp only
  split
  next h' => cases h.symm.trans h'
  next h' =>
    cases h.symm.trans h'
    rfl

theorem LeftOf.side (h : b.LeftOf n f) (hs : b.simplify = .ok (some b'))
    (hl : b'.firstLiteral? = some l) (positive : Bool) :
    b'.valuation.Free (.ofAtom l.atom positive) ∧ (b'.put (.ofAtom l.atom positive)).LeftOf n f := by
  have hleft := (h.of_simplify_some hs).1
  have hf := hleft.free_of_firstLiteral? hl positive
  exact ⟨hf, hleft.put hf⟩

theorem Searched.search_eq (hx : b.Searched m o m') (h : b.LeftOf n f) :
    b.search m = .ok (o, m') := by
  induction hx with
  | ended hm => exact search_of_ended hm _
  | conflict hm hs => exact search_of_none hm hs
  | found hm hs hl => exact search_of_found hm hs hl
  | @kept _ _ _ _ _ _ o hm hs hl _ ho ih =>
    have hside := h.side hs hl
    rw [search_of_decision hm hs hl fun positive ↦ (hside positive).1, ih (hside true).2]
    cases o with
    | unsatisfied => exact absurd rfl ho
    | satisfied v | unknown => rfl
  | @turned _ _ _ _ _ _ _ o hm hs hl _ _ ho ih₁ ih₂ =>
    have hside := h.side hs hl
    rw [search_of_decision hm hs hl fun positive ↦ (hside positive).1, ih₁ (hside true).2]
    dsimp only
    rw [ih₂ (hside false).2]
    cases o with
    | unsatisfied => exact absurd rfl ho
    | satisfied v | unknown => rfl
  | refuted hm hs hl _ _ ih₁ ih₂ =>
    have hside := h.side hs hl
    rw [search_of_decision hm hs hl fun positive ↦ (hside positive).1, ih₁ (hside true).2]
    dsimp only
    rw [ih₂ (hside false).2]

theorem calls_of_kept {m₂ : Monitor} (hm : m.call = (false, m₁))
    (hs : b.simplify = .ok (some b')) (hl : b'.firstLiteral? = some l) (h : b.LeftOf n f)
    (h₁ : (b'.put (.ofAtom l.atom true)).Searched m₁.countDecision o m₂) (ho : o ≠ .unsatisfied) :
    b.calls m = m :: (b'.put (.ofAtom l.atom true)).calls m₁.countDecision := by
  rw [calls_of_decision hm hs hl, h₁.search_eq (h.side hs hl true).2]
  cases o with
  | unsatisfied => exact absurd rfl ho
  | satisfied v | unknown => rw [List.append_nil]

theorem calls_of_turned {m₂ : Monitor} (hm : m.call = (false, m₁))
    (hs : b.simplify = .ok (some b')) (hl : b'.firstLiteral? = some l) (h : b.LeftOf n f)
    (h₁ : (b'.put (.ofAtom l.atom true)).Searched m₁.countDecision .unsatisfied m₂) :
    b.calls m = m :: ((b'.put (.ofAtom l.atom true)).calls m₁.countDecision ++
      (b'.put (.ofAtom l.atom false)).calls m₂.countBacktrack) := by
  rw [calls_of_decision hm hs hl, h₁.search_eq (h.side hs hl true).2]

theorem Searched.map_calls (hx : b.Searched m o m') (h : b.LeftOf n f) :
    ∃ j, m'.counters.calls = m.counters.calls + j ∧
      (b.calls m).map (·.counters.calls) = List.range' m.counters.calls j := by
  induction hx with
  | ended hm =>
    refine ⟨1, (Monitor.later_of_call hm).calls, ?_⟩
    rw [calls_of_ended hm]
    rfl
  | conflict hm hs =>
    refine ⟨1, (Monitor.later_of_call hm).calls, ?_⟩
    rw [calls_of_settled hm (sides_of_conflict hs)]
    rfl
  | found hm hs hl =>
    refine ⟨1, (Monitor.later_of_call hm).calls, ?_⟩
    rw [calls_of_settled hm (sides_of_found hs hl)]
    rfl
  | kept hm hs hl h₁ ho ih =>
    obtain ⟨j, hj, hmap⟩ := ih (h.side hs hl true).2
    have hc : _ = _ + 1 := (Monitor.later_of_call hm).countDecision.calls
    refine ⟨j + 1, by omega, ?_⟩
    rw [calls_of_kept hm hs hl h h₁ ho, List.map_cons, hmap, hc, List.range'_succ]
  | turned hm hs hl h₁ h₂ _ ih₁ ih₂ | refuted hm hs hl h₁ h₂ ih₁ ih₂ =>
    obtain ⟨j₁, hj₁, hmap₁⟩ := ih₁ (h.side hs hl true).2
    obtain ⟨j₂, hj₂, hmap₂⟩ := ih₂ (h.side hs hl false).2
    have hc : _ = _ + 1 := (Monitor.later_of_call hm).countDecision.calls
    refine ⟨j₁ + j₂ + 1, ?_, ?_⟩
    · simp only [Monitor.countBacktrack] at hj₂ ⊢
      omega
    · rw [calls_of_turned hm hs hl h h₁, List.map_cons, List.map_append, hmap₁, hmap₂,
        Monitor.countBacktrack, hj₁, List.range'_append_1, hc, List.range'_succ]

/-- What the search with the monitor `w` comes to, next to one of the branch from `m` with no end to it:
the same, or an end at one of the calls. -/
def Echoed (k : Nat) (b : Branch) (m : Monitor) (o : Outcome) (m' w : Monitor) : Prop :=
  (∃ w', b.Searched w o w' ∧ m'.EchoedBy k w') ∨
    ∃ t w', t ∈ b.calls m ∧ t.CutTo k w' ∧ b.Searched w .unknown w'

theorem Echoed.of_call {w : Monitor} (hm : m.call = (false, m₁)) (he : m.EchoedBy k w)
    (h : ∀ w₁, w.call = (false, w₁) → m₁.EchoedBy k w₁ → b.Echoed k m o m' w) :
    b.Echoed k m o m' w := by
  obtain ⟨w₁, hw, he₁⟩ | ⟨w₁, hw, hcut⟩ := he.of_call hm
  · exact h w₁ hw he₁
  · exact .inr ⟨m, w₁, mem_calls b m, hcut, .ended hw⟩

theorem Searched.echo (hx : b.Searched m o m') (h : b.LeftOf n f) {w : Monitor}
    (he : m.EchoedBy k w) : b.Echoed k m o m' w := by
  induction hx generalizing w with
  | ended hm =>
    obtain ⟨_, _, hm', -⟩ := he.call
    cases hm.symm.trans hm'
  | conflict hm hs =>
    apply Echoed.of_call hm he
    intro w₁ hw he₁
    exact .inl ⟨w₁, .conflict hw hs, he₁⟩
  | found hm hs hl =>
    apply Echoed.of_call hm he
    intro w₁ hw he₁
    exact .inl ⟨w₁, .found hw hs hl, he₁⟩
  | kept hm hs hl h₁ ho ih =>
    apply Echoed.of_call hm he
    intro w₁ hw he₁
    have hcalls := calls_of_kept hm hs hl h h₁ ho
    obtain ⟨w₂, hx₁, he₂⟩ | ⟨t, w₂, ht, hcut, hx₁⟩ := ih (h.side hs hl true).2 he₁.countDecision
    · exact .inl ⟨w₂, .kept hw hs hl hx₁ ho, he₂⟩
    · exact .inr ⟨t, w₂, by simp [hcalls, ht], hcut, .kept hw hs hl hx₁ nofun⟩
  | turned hm hs hl h₁ h₂ ho ih₁ ih₂ =>
    apply Echoed.of_call hm he
    intro w₁ hw he₁
    have hcalls := calls_of_turned hm hs hl h h₁
    obtain ⟨w₂, hx₁, he₂⟩ | ⟨t, w₂, ht, hcut, hx₁⟩ := ih₁ (h.side hs hl true).2 he₁.countDecision
    · obtain ⟨w₃, hx₂, he₃⟩ | ⟨t, w₃, ht, hcut, hx₂⟩ :=
        ih₂ (h.side hs hl false).2 he₂.countBacktrack
      · exact .inl ⟨w₃, .turned hw hs hl hx₁ hx₂ ho, he₃⟩
      · exact .inr ⟨t, w₃, by simp [hcalls, ht], hcut, .turned hw hs hl hx₁ hx₂ nofun⟩
    · exact .inr ⟨t, w₂, by simp [hcalls, ht], hcut, .kept hw hs hl hx₁ nofun⟩
  | refuted hm hs hl h₁ h₂ ih₁ ih₂ =>
    apply Echoed.of_call hm he
    intro w₁ hw he₁
    have hcalls := calls_of_turned hm hs hl h h₁
    obtain ⟨w₂, hx₁, he₂⟩ | ⟨t, w₂, ht, hcut, hx₁⟩ := ih₁ (h.side hs hl true).2 he₁.countDecision
    · obtain ⟨w₃, hx₂, he₃⟩ | ⟨t, w₃, ht, hcut, hx₂⟩ :=
        ih₂ (h.side hs hl false).2 he₂.countBacktrack
      · exact .inl ⟨_, .refuted hw hs hl hx₁ hx₂, he₃.countBacktrack⟩
      · exact .inr ⟨t, w₃, by simp [hcalls, ht], hcut, .turned hw hs hl hx₁ hx₂ nofun⟩
    · exact .inr ⟨t, w₂, by simp [hcalls, ht], hcut, .kept hw hs hl hx₁ nofun⟩

end Dpll.Branch
