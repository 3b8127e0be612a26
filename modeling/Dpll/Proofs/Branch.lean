import Dpll.Proofs.Monitor
import Dpll.Proofs.Purity
import Dpll.Solver.Branch

namespace Dpll

namespace Formula

variable {f : Formula} {c : Clause} {l m : Literal} {M : Model}

theorem mem_reduce_iff : c ∈ f.reduce l ↔ ∃ d ∈ f, l ∉ d ∧ d.filter (· ≠ l.negate) = c := by
  simp [reduce, and_assoc]

theorem mem_of_mem_reduce (hc : c ∈ f.reduce l) (hm : m ∈ c) :
    (∃ d ∈ f, m ∈ d) ∧ m.atom ≠ l.atom := by
  obtain ⟨d, hd, hl, rfl⟩ := mem_reduce_iff.1 hc
  obtain ⟨hmd, hn⟩ := List.mem_filter.1 hm
  refine ⟨⟨d, hd, hmd⟩, ?_⟩
  intro ha
  rcases eq_or_eq_negate ha with rfl | rfl
  · exact hl hmd
  · simp at hn

theorem holds_reduce_iff (hl₀ : l ≠ 0) (hl : l.Holds M) : (f.reduce l).Holds M ↔ f.Holds M := by
  have hn : ¬ l.negate.Holds M := fun h ↦ (Literal.holds_negate hl₀).1 h hl
  constructor
  · intro hM d hd
    by_cases hld : l ∈ d
    · exact ⟨l, hld, hl⟩
    · obtain ⟨m, hm, hh⟩ := hM _ (mem_reduce_iff.2 ⟨d, hd, hld, rfl⟩)
      exact ⟨m, (List.mem_filter.1 hm).1, hh⟩
  · intro hM c hc
    obtain ⟨d, hd, -, rfl⟩ := mem_reduce_iff.1 hc
    obtain ⟨m, hm, hh⟩ := hM d hd
    refine ⟨m, List.mem_filter.2 ⟨hm, ?_⟩, hh⟩
    have hne : m ≠ l.negate := by
      rintro rfl
      exact hn hh
    simpa using hne

end Formula

namespace Branch

variable {n : Nat} {f : Formula} {b b' : Branch} {l : Literal} {ls : List Literal} {M : Model}

/-- What the assignments of a branch leave of a formula over the atoms `1` to `n`. No literal which
is left has a value, and the models of the valuation make true what is left just if they make the
formula true. -/
structure LeftOf (n : Nat) (f : Formula) (b : Branch) : Prop where
  size : b.valuation.size = n + 1
  free : ∀ c ∈ b.formula, ∀ l ∈ c, b.valuation.Free l
  holds_iff : ∀ M, b.valuation.Extended M → (b.formula.Holds M ↔ f.Holds M)

def put (b : Branch) (l : Literal) : Branch := ⟨b.formula.reduce l, b.valuation.make l⟩

theorem assert_of_free (h : b.valuation.Free l) : b.assert l = .ok (b.put l) := by
  rw [assert, Valuation.assign_of_free h]
  rfl

theorem LeftOf.put (h : b.LeftOf n f) (hl : b.valuation.Free l) : (b.put l).LeftOf n f where
  size := (Valuation.size_make b.valuation l).trans h.size
  free c hc m hm := by
    obtain ⟨⟨d, hd, hmd⟩, ha⟩ := Formula.mem_of_mem_reduce hc hm
    exact hl.make (h.free d hd m hmd) ha
  holds_iff M hM := by
    obtain ⟨hv, hh⟩ := (Valuation.extended_make_iff hl).1 hM
    exact (Formula.holds_reduce_iff hl.ne_zero hh).trans (h.holds_iff M hv)

theorem LeftOf.ne_zero (h : b.LeftOf n f) {c : Clause} (hc : c ∈ b.formula) (hl : l ∈ c) :
    l ≠ 0 :=
  (h.free c hc l hl).ne_zero

def putAll (b : Branch) (ls : List Literal) : Branch := ls.foldl put b

theorem LeftOf.putAll (h : b.LeftOf n f) (hf : ∀ l ∈ ls, b.valuation.Free l)
    (hn : (ls.map Literal.atom).Nodup) :
    b.assertAll ls = .ok (b.putAll ls) ∧ (b.putAll ls).LeftOf n f ∧
      ∀ M, (b.putAll ls).valuation.Extended M ↔ b.valuation.Extended M ∧ ∀ l ∈ ls, l.Holds M := by
  induction ls generalizing b with
  | nil => exact ⟨rfl, h, fun M ↦ (and_iff_left (by simp)).symm⟩
  | cons l ls ih =>
    obtain ⟨hl, hn⟩ := List.nodup_cons.1 hn
    have hfl := hf l (.head _)
    obtain ⟨ha, hleft, hM⟩ := ih (h.put hfl)
      (fun m hm ↦ hfl.make (hf m (.tail _ hm)) fun ha ↦ hl (ha ▸ List.mem_map_of_mem hm)) hn
    refine ⟨?_, hleft, ?_⟩
    · rw [assertAll, assert_of_free hfl]
      exact ha
    · intro M
      rw [List.forall_mem_cons, ← and_assoc, ← Valuation.extended_make_iff hfl]
      exact hM M

theorem unit_of_unitLiteral? (h : b.unitLiteral? = some l) : [l] ∈ b.formula := by
  obtain ⟨c, hc, hs⟩ := List.exists_of_findSome?_eq_some h
  unfold Clause.single? at hs
  split at hs
  next => cases hs; exact hc
  next => cases hs

theorem LeftOf.free_of_unitLiteral? (h : b.LeftOf n f) (hu : b.unitLiteral? = some l) :
    b.valuation.Free l :=
  h.free _ (unit_of_unitLiteral? hu) l (.head _)

theorem LeftOf.satisfiableUnder_unit (h : b.LeftOf n f) (hu : b.unitLiteral? = some l) :
    f.SatisfiableUnder (b.put l).valuation ↔ f.SatisfiableUnder b.valuation := by
  refine exists_congr fun M ↦ and_congr_left ?_
  intro hM
  refine (Valuation.extended_make_iff (h.free_of_unitLiteral? hu)).trans ?_
  apply and_iff_left_of_imp
  intro hv
  obtain ⟨m, hm, hh⟩ := (h.holds_iff M hv).2 hM _ (unit_of_unitLiteral? hu)
  rwa [List.mem_singleton.1 hm] at hh

theorem LeftOf.mem_pureLiterals_iff (h : b.LeftOf n f) :
    l ∈ b.pureLiterals ↔ l ∈ b.formula.flatten ∧ l.negate ∉ b.formula.flatten := by
  have hne : ∀ l ∈ b.formula.flatten, l ≠ 0 := by
    intro l hl
    obtain ⟨c, hc, hm⟩ := List.mem_flatten.1 hl
    exact h.ne_zero hc hm
  rw [pureLiterals, Dpll.mem_pureLiterals_iff hne]
  refine and_iff_right_of_imp fun ⟨hl, _⟩ ↦ ?_
  obtain ⟨c, hc, hm⟩ := List.mem_flatten.1 hl
  exact Nat.le_pred_of_lt (Valuation.contains_iff.1 (h.free c hc l hm).1).2

theorem LeftOf.free_of_mem_pureLiterals (h : b.LeftOf n f) (hl : l ∈ b.pureLiterals) :
    b.valuation.Free l := by
  obtain ⟨c, hc, hm⟩ := List.mem_flatten.1 (h.mem_pureLiterals_iff.1 hl).1
  exact h.free c hc l hm

theorem nodup_pureLiterals (b : Branch) : (b.pureLiterals.map Literal.atom).Nodup :=
  List.pairwise_map.2 ((pairwise_pureLiterals _ _).imp Nat.ne_of_lt)

theorem LeftOf.satisfiableUnder_pure (h : b.LeftOf n f) :
    f.SatisfiableUnder (b.putAll b.pureLiterals).valuation ↔ f.SatisfiableUnder b.valuation := by
  obtain ⟨-, -, hext⟩ := h.putAll (fun l hl ↦ h.free_of_mem_pureLiterals hl) b.nodup_pureLiterals
  constructor
  · rintro ⟨M, hv, hM⟩
    exact ⟨M, ((hext M).1 hv).1, hM⟩
  · -- A model may make a pure literal false. It is changed, not merely extended.
    rintro ⟨M, hv, hM⟩
    have hv' : b.valuation.Extended (M.makeAll b.pureLiterals) :=
      hv.makeAll fun l hl ↦ h.free_of_mem_pureLiterals hl
    refine ⟨M.makeAll b.pureLiterals, (hext _).2 ⟨hv', ?_⟩, ?_⟩
    · intro l hl
      apply Model.holds_makeAll (h.free_of_mem_pureLiterals hl).ne_zero hl
      intro hn
      exact (h.mem_pureLiterals_iff.1 hl).2 (h.mem_pureLiterals_iff.1 hn).1
    · apply (h.holds_iff _ hv').1
      intro c hc
      refine Clause.holds_makeAll (fun l hl ↦ h.ne_zero hc hl) ?_
        ((h.holds_iff M hv).2 hM c hc)
      intro l hl hn
      apply (h.mem_pureLiterals_iff.1 hn).2
      rw [Literal.negate_negate]
      exact List.mem_flatten.2 ⟨c, hc, hl⟩

/-- The literals which simplification makes true next: that of a unit clause, or else those which are
pure. -/
inductive Forced (b : Branch) : List Literal → Prop
  | unit {l : Literal} (he : [] ∉ b.formula) (hu : b.unitLiteral? = some l) : b.Forced [l]
  | pure (he : [] ∉ b.formula) (hu : b.unitLiteral? = none) (hp : b.pureLiterals ≠ []) :
    b.Forced b.pureLiterals

structure Settled (b : Branch) : Prop where
  nil_not_mem : [] ∉ b.formula
  unit : b.unitLiteral? = none
  pure : b.pureLiterals = []

theorem nil_mem_or_forced_or_settled (b : Branch) :
    [] ∈ b.formula ∨ (∃ ls, b.Forced ls) ∨ b.Settled := by
  by_cases he : [] ∈ b.formula
  · exact .inl he
  · right
    cases hu : b.unitLiteral? with
    | some l => exact .inl ⟨_, .unit he hu⟩
    | none =>
      by_cases hp : b.pureLiterals = []
      · exact .inr ⟨he, hu, hp⟩
      · exact .inl ⟨_, .pure he hu hp⟩

theorem LeftOf.free_of_forced (h : b.LeftOf n f) (hf : b.Forced ls) :
    ∀ l ∈ ls, b.valuation.Free l := by
  intro m hm
  cases hf with
  | unit he hu =>
    rw [List.mem_singleton.1 hm]
    exact h.free_of_unitLiteral? hu
  | pure he hu hp => exact h.free_of_mem_pureLiterals hm

theorem Forced.nodup (hf : b.Forced ls) : (ls.map Literal.atom).Nodup := by
  cases hf with
  | unit he hu => simp
  | pure he hu hp => exact b.nodup_pureLiterals

theorem LeftOf.satisfiableUnder_forced (h : b.LeftOf n f) (hf : b.Forced ls) :
    f.SatisfiableUnder (b.putAll ls).valuation ↔ f.SatisfiableUnder b.valuation := by
  cases hf with
  | unit he hu => exact h.satisfiableUnder_unit hu
  | pure he hu hp => exact h.satisfiableUnder_pure

theorem any_isEmpty_iff {f : Formula} : f.any (·.isEmpty) ↔ [] ∈ f := by
  simp [List.any_eq_true]

theorem simplify_of_nil_mem (h : [] ∈ b.formula) : b.simplify = .ok none := by
  rw [simplify, if_pos (any_isEmpty_iff.2 h)]

theorem Settled.simplify (h : b.Settled) : b.simplify = .ok (some b) := by
  rw [Branch.simplify, if_neg (mt any_isEmpty_iff.1 h.nil_not_mem)]
  split
  next hu => rw [h.unit] at hu; cases hu
  next =>
    split
    next => rfl
    next hp => rw [h.pure] at hp; cases hp

theorem assert_of_assertAll_singleton (h : b.assertAll [l] = .ok b') : b.assert l = .ok b' := by
  unfold assertAll at h
  split at h
  next => cases h
  next ha => cases h; exact ha

theorem Forced.simplify (hf : b.Forced ls) (ha : b.assertAll ls = .ok b') :
    b.simplify = b'.simplify := by
  rw [Branch.simplify]
  cases hf with
  | unit he hu =>
    have ha := assert_of_assertAll_singleton ha
    rw [if_neg (mt any_isEmpty_iff.1 he)]
    split
    next hu' =>
      cases hu.symm.trans hu'
      split
      next ha' => cases ha.symm.trans ha'
      next ha' => cases ha.symm.trans ha'; rfl
    next hu' => cases hu.symm.trans hu'
  | pure he hu hp =>
    rw [if_neg (mt any_isEmpty_iff.1 he)]
    split
    next hu' => cases hu.symm.trans hu'
    next =>
      split
      next hp' => exact absurd hp' hp
      next hp' =>
        rw [hp'] at ha
        split
        next ha' => cases ha.symm.trans ha'
        next ha' => cases ha.symm.trans ha'; rfl

theorem Forced.size_lt (hf : b.Forced ls) (ha : b.assertAll ls = .ok b') :
    b'.formula.size < b.formula.size := by
  cases hf with
  | unit he hu => exact size_assertAll_lt ha (mentions_of_unitLiteral? hu)
  | pure he hu hp =>
    obtain ⟨l, ls, hl⟩ := List.exists_cons_of_ne_nil hp
    rw [hl] at ha
    exact size_assertAll_lt ha (mentions_of_pureLiterals hl)

/-- Simplification ends without a fault. If it has an answer, that is a branch with models just if
there were any, and else there were none. -/
theorem LeftOf.simplify (h : b.LeftOf n f) :
    (b.simplify = .ok none ∧ ¬ f.SatisfiableUnder b.valuation) ∨
      ∃ b', b.simplify = .ok (some b') ∧ b'.LeftOf n f ∧ b'.Settled ∧
        (f.SatisfiableUnder b'.valuation ↔ f.SatisfiableUnder b.valuation) := by
  induction hs : b.formula.size using Nat.strongRecOn generalizing b with
  | _ k ih =>
    rcases b.nil_mem_or_forced_or_settled with he | ⟨ls, hf⟩ | hd
    · refine .inl ⟨simplify_of_nil_mem he, ?_⟩
      rintro ⟨M, hv, hM⟩
      exact Clause.not_holds_nil ((h.holds_iff M hv).2 hM [] he)
    · obtain ⟨ha, hleft, -⟩ := h.putAll (h.free_of_forced hf) hf.nodup
      have hlt := hf.size_lt ha
      rw [hf.simplify ha, ← h.satisfiableUnder_forced hf]
      exact ih _ (hs ▸ hlt) hleft rfl
    · exact .inr ⟨b, hd.simplify, h, hd, Iff.rfl⟩

theorem Settled.formula_eq_nil (h : b.Settled) (hl : b.firstLiteral? = none) : b.formula = [] := by
  cases hf : b.formula with
  | nil => rfl
  | cons c cs =>
    cases c with
    | nil => exact absurd (hf ▸ .head _) h.nil_not_mem
    | cons l c => simp [firstLiteral?, hf] at hl

theorem LeftOf.free_of_firstLiteral? (h : b.LeftOf n f) (hl : b.firstLiteral? = some l)
    (positive : Bool) : b.valuation.Free (.ofAtom l.atom positive) := by
  obtain ⟨c, hc, hm⟩ := Option.bind_eq_some_iff.1 hl
  have hf := h.free c (List.mem_of_mem_head? hc) l (List.mem_of_mem_head? hm)
  exact hf.of_atom_eq (Literal.atom_ofAtom _ _)

/-- The search of a branch, by way of its decisions. -/
inductive Searched : Branch → Monitor → Outcome → Monitor → Prop
  | ended {b : Branch} {m m₁ : Monitor} (hm : m.call = (true, m₁)) : Searched b m .unknown m₁
  | conflict {b : Branch} {m m₁ : Monitor} (hm : m.call = (false, m₁))
    (hs : b.simplify = .ok none) : Searched b m .unsatisfied m₁
  | found {b b' : Branch} {m m₁ : Monitor} (hm : m.call = (false, m₁))
    (hs : b.simplify = .ok (some b')) (hl : b'.firstLiteral? = none) :
    Searched b m (.satisfied b'.valuation) m₁
  | kept {b b' : Branch} {m m₁ m₂ : Monitor} {l : Literal} {o : Outcome}
    (hm : m.call = (false, m₁)) (hs : b.simplify = .ok (some b'))
    (hl : b'.firstLiteral? = some l)
    (h₁ : Searched (b'.put (.ofAtom l.atom true)) m₁.countDecision o m₂)
    (ho : o ≠ .unsatisfied) : Searched b m o m₂
  | turned {b b' : Branch} {m m₁ m₂ m₃ : Monitor} {l : Literal} {o : Outcome}
    (hm : m.call = (false, m₁)) (hs : b.simplify = .ok (some b'))
    (hl : b'.firstLiteral? = some l)
    (h₁ : Searched (b'.put (.ofAtom l.atom true)) m₁.countDecision .unsatisfied m₂)
    (h₂ : Searched (b'.put (.ofAtom l.atom false)) m₂.countBacktrack o m₃)
    (ho : o ≠ .unsatisfied) : Searched b m o m₃
  | refuted {b b' : Branch} {m m₁ m₂ m₃ : Monitor} {l : Literal}
    (hm : m.call = (false, m₁)) (hs : b.simplify = .ok (some b'))
    (hl : b'.firstLiteral? = some l)
    (h₁ : Searched (b'.put (.ofAtom l.atom true)) m₁.countDecision .unsatisfied m₂)
    (h₂ : Searched (b'.put (.ofAtom l.atom false)) m₂.countBacktrack .unsatisfied m₃) :
    Searched b m .unsatisfied m₃.countBacktrack

theorem search_of_ended {m m₁ : Monitor} (hm : m.call = (true, m₁)) (b : Branch) :
    b.search m = .ok (.unknown, m₁) := by
  rw [search, hm]

theorem search_of_none {m m₁ : Monitor} (hm : m.call = (false, m₁)) (hs : b.simplify = .ok none) :
    b.search m = .ok (.unsatisfied, m₁) := by
  rw [search, hm]
  dsimp only
  split
  next h => cases hs.symm.trans h
  next => rfl
  next h => cases hs.symm.trans h

theorem search_of_found {m m₁ : Monitor} (hm : m.call = (false, m₁))
    (hs : b.simplify = .ok (some b')) (hl : b'.firstLiteral? = none) :
    b.search m = .ok (.satisfied b'.valuation, m₁) := by
  rw [search, hm]
  dsimp only
  split
  next h => cases hs.symm.trans h
  next h => cases hs.symm.trans h
  next h =>
    cases hs.symm.trans h
    split
    next => rfl
    next h => cases hl.symm.trans h

theorem search_of_decision {m m₁ : Monitor} (hm : m.call = (false, m₁))
    (hs : b.simplify = .ok (some b')) (hl : b'.firstLiteral? = some l)
    (hf : ∀ positive, b'.valuation.Free (.ofAtom l.atom positive)) :
    b.search m =
      match (b'.put (.ofAtom l.atom true)).search m₁.countDecision with
      | .error fault => .error fault
      | .ok (.unsatisfied, m) =>
        match (b'.put (.ofAtom l.atom false)).search m.countBacktrack with
        | .error fault => .error fault
        | .ok (.unsatisfied, m) => .ok (.unsatisfied, m.countBacktrack)
        | .ok (o, m) => .ok (o, m)
      | .ok (o, m) => .ok (o, m) := by
  have ht := assert_of_free (hf true)
  have hf := assert_of_free (hf false)
  rw [search, hm]
  dsimp only
  split
  next h => cases hs.symm.trans h
  next h => cases hs.symm.trans h
  next h =>
    cases hs.symm.trans h
    split
    next h => cases hl.symm.trans h
    next h =>
      cases hl.symm.trans h
      split
      next h => cases ht.symm.trans h
      next h =>
        cases ht.symm.trans h
        cases (b'.put (.ofAtom l.atom true)).search m₁.countDecision with
        | error fault => rfl
        | ok r =>
          obtain ⟨o, m₂⟩ := r
          cases o with
          | unsatisfied =>
            dsimp only
            split
            next h => cases hf.symm.trans h
            next h =>
              cases hf.symm.trans h
              rfl
          | satisfied v => rfl
          | unknown => rfl

theorem size_put_lt (hs : b.simplify = .ok (some b')) (hl : b'.firstLiteral? = some l)
    (positive : Bool) : (b'.put (.ofAtom l.atom positive)).formula.size < b.formula.size := by
  have hm := mentions_of_firstLiteral? hl
  exact Nat.lt_of_lt_of_le (Formula.size_reduce_lt (by simpa using hm)) (size_simplify hs)

theorem LeftOf.search (h : b.LeftOf n f) (m : Monitor) :
    ∃ o m', b.search m = .ok (o, m') ∧ b.Searched m o m' := by
  induction hk : b.formula.size using Nat.strongRecOn generalizing b m with
  | _ k ih =>
    cases hm : m.call with
    | mk ended m₁ =>
    cases ended with
    | true => exact ⟨_, _, search_of_ended hm b, .ended hm⟩
    | false =>
      rcases h.simplify with ⟨hs, -⟩ | ⟨b', hs, hleft, hd, -⟩
      · exact ⟨_, _, search_of_none hm hs, .conflict hm hs⟩
      · cases hl : b'.firstLiteral? with
        | none => exact ⟨_, _, search_of_found hm hs hl, .found hm hs hl⟩
        | some l =>
          have hf := hleft.free_of_firstLiteral? hl
          have hlt := size_put_lt hs hl
          rw [search_of_decision hm hs hl hf]
          obtain ⟨o, m₂, h₁, hx₁⟩ := ih _ (hk ▸ hlt true) (hleft.put (hf true)) m₁.countDecision rfl
          rw [h₁]
          by_cases ho : o = .unsatisfied
          · subst ho
            obtain ⟨o, m₃, h₂, hx₂⟩ :=
              ih _ (hk ▸ hlt false) (hleft.put (hf false)) m₂.countBacktrack rfl
            simp only [h₂]
            by_cases ho : o = .unsatisfied
            · subst ho
              exact ⟨_, _, rfl, .refuted hm hs hl hx₁ hx₂⟩
            · refine ⟨o, m₃, ?_, .turned hm hs hl hx₁ hx₂ ho⟩
              cases o with
              | unsatisfied => exact absurd rfl ho
              | satisfied v => rfl
              | unknown => rfl
          · refine ⟨o, m₂, ?_, .kept hm hs hl hx₁ ho⟩
            cases o with
            | unsatisfied => exact absurd rfl ho
            | satisfied v => rfl
            | unknown => rfl

theorem LeftOf.of_simplify_none (h : b.LeftOf n f) (hs : b.simplify = .ok none) :
    ¬ f.SatisfiableUnder b.valuation := by
  rcases h.simplify with ⟨-, hn⟩ | ⟨b', hs', -⟩
  · exact hn
  · cases hs.symm.trans hs'

theorem LeftOf.of_simplify_some (h : b.LeftOf n f) (hs : b.simplify = .ok (some b')) :
    b'.LeftOf n f ∧ b'.Settled ∧
      (f.SatisfiableUnder b'.valuation ↔ f.SatisfiableUnder b.valuation) := by
  rcases h.simplify with ⟨hs', -⟩ | ⟨_, hs', hb⟩
  · cases hs.symm.trans hs'
  · cases hs.symm.trans hs'
    exact hb

/-- What an outcome says of the models of a formula which have the values of a valuation. -/
def Outcome.Right (n : Nat) (f : Formula) (v : Valuation) : Outcome → Prop
  | .satisfied w => w.size = n + 1 ∧ f.Holds (Model.ofList w.complete)
  | .unsatisfied => ¬ f.SatisfiableUnder v
  | .unknown => True

theorem Outcome.Right.of_ne {v w : Valuation} {o : Outcome} (h : o.Right n f v)
    (ho : o ≠ .unsatisfied) : o.Right n f w := by
  cases o with
  | satisfied u => exact h
  | unsatisfied => exact absurd rfl ho
  | unknown => exact h

theorem refuted_of_both (hf : ∀ positive, b.valuation.Free (.ofAtom l.atom positive))
    (ht : ¬ f.SatisfiableUnder (b.put (.ofAtom l.atom true)).valuation)
    (hn : ¬ f.SatisfiableUnder (b.put (.ofAtom l.atom false)).valuation) :
    ¬ f.SatisfiableUnder b.valuation := by
  rintro ⟨M, hv, hM⟩
  rcases (Valuation.extended_iff_or (hf true)).1 hv with hv | hv
  · exact ht ⟨M, hv, hM⟩
  · exact hn ⟨M, hv, hM⟩

theorem Searched.right {m m' : Monitor} {o : Outcome} (hx : b.Searched m o m')
    (h : b.LeftOf n f) :
    o.Right n f b.valuation ∧ (m.Endless → o ≠ .unknown ∧ m'.Endless) := by
  induction hx with
  | ended hm => exact ⟨trivial, fun he ↦ absurd (he.call hm).1 Bool.noConfusion⟩
  | conflict hm hs => exact ⟨h.of_simplify_none hs, fun he ↦ ⟨nofun, (he.call hm).2⟩⟩
  | @found b b' m m₁ hm hs hl =>
    obtain ⟨hleft, hd, -⟩ := h.of_simplify_some hs
    refine ⟨⟨hleft.size, (hleft.holds_iff _ (Valuation.extended_complete _)).1 ?_⟩,
      fun he ↦ ⟨nofun, (he.call hm).2⟩⟩
    rw [hd.formula_eq_nil hl]
    exact Formula.holds_nil
  | kept hm hs hl h₁ ho ih =>
    obtain ⟨hleft, hd, -⟩ := h.of_simplify_some hs
    obtain ⟨hr, he'⟩ := ih (hleft.put (hleft.free_of_firstLiteral? hl true))
    exact ⟨hr.of_ne ho, fun he ↦ he' (he.call hm).2.countDecision⟩
  | turned hm hs hl h₁ h₂ ho ih₁ ih₂ =>
    obtain ⟨hleft, hd, -⟩ := h.of_simplify_some hs
    have hf := hleft.free_of_firstLiteral? hl
    obtain ⟨-, he₁⟩ := ih₁ (hleft.put (hf true))
    obtain ⟨hr, he₂⟩ := ih₂ (hleft.put (hf false))
    exact ⟨hr.of_ne ho, fun he ↦ he₂ (he₁ (he.call hm).2.countDecision).2.countBacktrack⟩
  | refuted hm hs hl h₁ h₂ ih₁ ih₂ =>
    obtain ⟨hleft, hd, hsat⟩ := h.of_simplify_some hs
    have hf := hleft.free_of_firstLiteral? hl
    obtain ⟨hr₁, he₁⟩ := ih₁ (hleft.put (hf true))
    obtain ⟨hr₂, he₂⟩ := ih₂ (hleft.put (hf false))
    refine ⟨mt hsat.2 (refuted_of_both hf hr₁ hr₂), fun he ↦ ⟨nofun, ?_⟩⟩
    exact (he₂ (he₁ (he.call hm).2.countDecision).2.countBacktrack).2.countBacktrack

/-- The literals which the search of a branch makes true next, one after the other: those which
simplification does, or else that of a decision, which may be of either polarity. -/
inductive Next (b : Branch) : List Literal → Prop
  | forced {ls : List Literal} (hf : b.Forced ls) : b.Next ls
  | decided {l : Literal} (hd : b.Settled) (hl : b.firstLiteral? = some l) (positive : Bool) :
    b.Next [.ofAtom l.atom positive]

/-- The branches which the search of a branch may come to. -/
inductive Visits (b : Branch) : Branch → Prop
  | start : b.Visits b
  | next {b₁ b₂ : Branch} {ls : List Literal} (h : b.Visits b₁) (hn : b₁.Next ls)
    (ha : b₁.assertAll ls = .ok b₂) : b.Visits b₂

theorem LeftOf.next (h : b.LeftOf n f) (hn : b.Next ls) :
    (∀ l ∈ ls, b.valuation.Free l) ∧ (ls.map Literal.atom).Nodup := by
  cases hn with
  | forced hf => exact ⟨h.free_of_forced hf, hf.nodup⟩
  | @decided l hd hl positive =>
    refine ⟨?_, by simp⟩
    intro m hm
    rw [List.mem_singleton.1 hm]
    exact h.free_of_firstLiteral? hl positive

theorem Visits.leftOf (hv : b.Visits b') (h : b.LeftOf n f) : b'.LeftOf n f := by
  induction hv with
  | start => exact h
  | next hv hn ha ih =>
    obtain ⟨hf, hnd⟩ := ih.next hn
    obtain ⟨ha', hleft, -⟩ := ih.putAll hf hnd
    cases ha.symm.trans ha'
    exact hleft

theorem free_putAll (hf : ∀ m ∈ ls, b.valuation.Free m) (hn : (ls.map Literal.atom).Nodup)
    (hl : b.valuation.Free l) (ha : l.atom ∉ ls.map Literal.atom) :
    (b.putAll ls).valuation.Free l := by
  induction ls generalizing b with
  | nil => exact hl
  | cons k ls ih =>
    obtain ⟨hk, hn⟩ := List.nodup_cons.1 hn
    rw [List.map_cons, List.mem_cons, not_or] at ha
    have hfk := hf k (.head _)
    refine ih (fun m hm ↦ hfk.make (hf m (.tail _ hm)) fun he ↦ hk ?_) hn (hfk.make hl ha.1) ha.2
    exact he ▸ List.mem_map_of_mem hm

/-- Whenever a literal is made true, it has no value, even after others are made true with it. -/
theorem LeftOf.exists_assertAll (h : b.LeftOf n f) {ms : List Literal}
    (hn : b.Next (ls ++ l :: ms)) :
    ∃ b', b.assertAll ls = .ok b' ∧ b'.valuation.Free l := by
  obtain ⟨hf, hnd⟩ := h.next hn
  rw [List.map_append, List.map_cons, List.nodup_append] at hnd
  obtain ⟨hls, -, hdis⟩ := hnd
  have hfls : ∀ m ∈ ls, b.valuation.Free m := fun m hm ↦ hf m (List.mem_append_left _ hm)
  obtain ⟨ha, -, -⟩ := h.putAll hfls hls
  refine ⟨_, ha, free_putAll hfls hls (hf l (by simp)) ?_⟩
  intro hl
  exact hdis _ hl _ (.head _) rfl

theorem Visits.simplify {b₁ b₂ : Branch} (hv : b.Visits b₁) (h : b₁.LeftOf n f)
    (hs : b₁.simplify = .ok (some b₂)) : b.Visits b₂ := by
  induction hk : b₁.formula.size using Nat.strongRecOn generalizing b₁ with
  | _ k ih =>
    rcases b₁.nil_mem_or_forced_or_settled with he | ⟨ls, hf⟩ | hd
    · cases hs.symm.trans (simplify_of_nil_mem he)
    · obtain ⟨ha, hleft, -⟩ := h.putAll (h.free_of_forced hf) hf.nodup
      have hlt := hf.size_lt ha
      rw [hf.simplify ha] at hs
      exact ih _ (hk ▸ hlt) (hv.next (.forced hf) ha) hleft hs rfl
    · cases hs.symm.trans hd.simplify
      exact hv

theorem Visits.decision {b₁ b₂ b₃ : Branch} (hv : b.Visits b₁) (h : b₁.LeftOf n f)
    (hs : b₁.simplify = .ok (some b₂)) (hl : b₂.firstLiteral? = some l) {positive : Bool}
    (ha : b₂.assert (.ofAtom l.atom positive) = .ok b₃) : b.Visits b₃ := by
  apply (hv.simplify h hs).next (.decided (h.of_simplify_some hs).2.1 hl positive)
  rw [assertAll, ha]
  rfl

end Branch

end Dpll
