import Dpll.Formula.Room
import Dpll.Proofs.Branch
import Dpll.Proofs.Loading
import Dpll.Solver.Copying

namespace Dpll.CopyingSolver

variable {s₀ s s' : CopyingSolver} {n t t' : Nat} {sort : Bool} {taken f : Formula}
  {cs : List Clause} {info : Loaded} {M : Model}

theorem takeFrom_eq (n : Nat) (sort : Bool) (taken : Formula) (t : Nat) (cs : List Clause) :
    takeFrom n sort taken t cs =
      match cs.findSome? (Clause.fault? n) with
      | some fault => .error fault
      | none => .ok (taken.reverse ++ Formula.normals sort cs, t + Formula.tautologies sort cs) := by
  induction cs generalizing taken t with
  | nil => simp [takeFrom, Formula.normals, Formula.tautologies]
  | cons c cs ih =>
    unfold takeFrom
    rw [List.findSome?_cons, Formula.normals_cons, Formula.tautologies_cons]
    cases hf : c.fault? n with
    | some fault => rfl
    | none =>
      cases hc : c.normalize sort with
      | tautology d =>
        have hn : c.normal? sort = none := by rw [Clause.normal?, hc]
        simp only [ih, hn]
        split
        · rfl
        · simp; omega
      | clause d =>
        simp only [ih, Clause.normal?_eq_some_iff.2 hc]
        split
        · rfl
        · simp

theorem load_eq {σ : Type} [Storage] [ClauseSource σ] (s : CopyingSolver) (source : σ) :
    s.load source = (ClauseSource.reading s.config.sortClauses.value source).map
      fun (info, f) ↦ (info, { s with literals := info.header.literals, formula := f }) := by
  unfold load ClauseSource.reading
  cases ClauseSource.header source with
  | mk header rest =>
  cases header with
  | error fault => rfl
  | ok header =>
    dsimp only
    cases Formula.storageFault? header.clauses with
    | some fault => rfl
    | none =>
      dsimp only
      rw [takeFrom_eq]
      cases (ClauseSource.rest rest).1.findSome? (Clause.fault? header.literals) with
      | some fault => rfl
      | none => cases (ClauseSource.rest rest).2.1 <;> simp [Except.map]

theorem load_eq_ok {σ : Type} [Storage] [ClauseSource σ] {source : σ}
    (h : s₀.load source = .ok (info, s)) :
    ∃ f, ClauseSource.reading s₀.config.sortClauses.value source = .ok (info, f) ∧
      s = { s₀ with literals := info.header.literals, formula := f } := by
  rw [load_eq] at h
  obtain ⟨⟨_, f⟩, hr, he⟩ := exists_of_map_eq_ok h
  cases he
  exact ⟨f, hr, rfl⟩

theorem exists_load [Storage] (n : Nat) (cs : List Clause) (s₀ : CopyingSolver)
    (hcs : ∀ c ∈ cs, c.fault? n = none) (hroom : Formula.storageFault? cs.length = none) :
    ∃ info s, s₀.load (⟨n, cs⟩ : ClauseList) = .ok (info, s) := by
  rw [load_eq, ClauseList.reading_eq _ hcs hroom]
  exact ⟨_, _, rfl⟩

def root (s : CopyingSolver) : Branch := ⟨s.formula, .blank s.literals⟩

theorem leftOf_root (hn : ∀ c ∈ s.formula, c.Normal s.literals) :
    s.root.LeftOf s.literals s.formula where
  size := Valuation.size_blank _
  free c hc l hl := by
    have ha := Literal.atom_ne_zero ((hn c hc).ne_zero l hl)
    refine ⟨Valuation.contains_iff.2 ⟨ha, ?_⟩, ?_⟩
    · rw [root, Valuation.size_blank]
      exact Nat.lt_succ_of_le ((hn c hc).atom_le l hl)
    · rw [root, Valuation.value_blank, if_neg ha]
  holds_iff _ _ := Iff.rfl

theorem formula_of_source {σ : Type} [Storage] [ClauseSource σ] {source : σ}
    (h : s₀.load source = .ok (info, s)) :
    s.literals = info.header.literals ∧ (∀ c ∈ s.formula, c.Normal s.literals) ∧
      ∀ M, s.formula.Holds M ↔ Formula.Holds M (ClauseSource.clauses source) := by
  obtain ⟨f, hr, rfl⟩ := load_eq_ok h
  obtain ⟨-, -, hcs, -, -, rfl⟩ := ClauseSource.reading_eq_ok hr
  exact ⟨rfl, fun c ↦ Formula.normal_of_mem_normals hcs, fun M ↦ Formula.holds_normals hcs⟩

theorem formula_of_load [Storage] (h : s₀.load (⟨n, cs⟩ : ClauseList) = .ok (info, s)) :
    s.literals = n ∧ (∀ c ∈ s.formula, c.Normal n) ∧
      (∀ M, s.formula.Holds M ↔ Formula.Holds M cs) ∧ s.monitor = s₀.monitor := by
  obtain ⟨-, hf, hM⟩ := formula_of_source h
  obtain ⟨f, hr, rfl⟩ := load_eq_ok h
  have hn : ⟨n, cs.length⟩ = info.header := Except.ok.inj (ClauseSource.reading_eq_ok hr).1
  rw [← hn] at hf ⊢
  rw [ClauseList.clauses_eq] at hM
  exact ⟨rfl, hf, hM, rfl⟩

theorem exists_solve (hn : ∀ c ∈ s.formula, c.Normal s.literals) :
    ∃ o m, s.solve = .ok (respond o, { s with monitor := m }) ∧
      o.Right s.literals s.formula (.blank s.literals) ∧
      (s.monitor.Endless → o ≠ .unknown ∧ m.Endless) := by
  have hleft := leftOf_root hn
  obtain ⟨o, m, hs, hx⟩ := hleft.search s.monitor.start
  obtain ⟨hr, he⟩ := hx.right hleft
  have hs : Branch.search ⟨s.formula, .blank s.literals⟩ s.monitor.start = .ok (o, m) := hs
  exact ⟨o, m, by rw [solve, hs], hr, fun hm ↦ he hm.start⟩

theorem model_of_right {w v : Valuation} (h : (Branch.Outcome.satisfied w).Right n f v) :
    ∃ bs, (respond (.satisfied w)).assignment = some bs ∧ bs.length = n + 1 ∧
      bs[0]? = some false ∧ f.Holds (Model.ofList bs) := by
  obtain ⟨hsize, hM⟩ := h
  have hpos : 0 < w.size := by omega
  exact ⟨_, rfl, (Valuation.length_complete w).trans hsize, Valuation.complete_zero hpos, hM⟩

theorem not_satisfiable_of_right (h : Branch.Outcome.unsatisfied.Right n f (.blank n)) :
    ¬ f.Satisfiable := by
  rintro ⟨M, hM⟩
  exact h ⟨M, Valuation.extended_blank _ _, hM⟩

theorem solve_spec (hn : ∀ c ∈ s.formula, c.Normal s.literals) (hm : s.monitor.Endless) :
    ∃ r m, s.solve = .ok (r, { s with monitor := m }) ∧ m.Endless ∧
      r.Decides s.literals s.formula := by
  obtain ⟨o, m, hs, hr, he⟩ := exists_solve hn
  obtain ⟨hne, hm'⟩ := he hm
  refine ⟨respond o, m, hs, hm', ?_⟩
  cases o with
  | satisfied w => exact ⟨nofun, iff_of_true rfl ⟨_, hr.2⟩, nofun, fun _ ↦ model_of_right hr⟩
  | unsatisfied =>
    exact ⟨nofun, iff_of_false nofun (not_satisfiable_of_right hr), fun _ ↦ rfl, nofun⟩
  | unknown => exact absurd rfl hne

def solveTimes : Nat → CopyingSolver → Except Fault (List Response × CopyingSolver)
  | 0, s => .ok ([], s)
  | k + 1, s =>
    match s.solve with
    | .error fault => .error fault
    | .ok (r, s) =>
      match solveTimes k s with
      | .error fault => .error fault
      | .ok (rs, s) => .ok (r :: rs, s)

theorem solveTimes_spec (k : Nat) (hn : ∀ c ∈ s.formula, c.Normal s.literals)
    (hm : s.monitor.Endless) :
    ∃ rs s', solveTimes k s = .ok (rs, s') ∧ rs.length = k ∧
      ∀ r ∈ rs, r.Decides s.literals s.formula := by
  induction k generalizing s with
  | zero => exact ⟨[], s, rfl, rfl, by simp⟩
  | succ k ih =>
    obtain ⟨r, m, hs, hm', hr⟩ := solve_spec hn hm
    obtain ⟨rs, s', hrs, hlen, hd⟩ := ih (s := { s with monitor := m }) hn hm'
    refine ⟨r :: rs, s', by simp [solveTimes, hs, hrs], by simp [hlen], ?_⟩
    exact List.forall_mem_cons.2 ⟨hr, hd⟩

/-- Every solve after a formula is loaded decides it. On each branch which is visited, what is left
stands for the formula, and whenever a literal is made true, its atom has a place in the valuation
but no value. -/
theorem decides_of_solves [Storage] (h : s₀.load (⟨n, cs⟩ : ClauseList) = .ok (info, s))
    (hl : s₀.monitor.timeLimit = none) (ht : s₀.monitor.terminate = none) :
    (∀ k, ∃ rs s', s.solveTimes k = .ok (rs, s') ∧ rs.length = k ∧ ∀ r ∈ rs, r.Decides n cs) ∧
      ∀ b, s.root.Visits b →
        (∀ c ∈ b.formula, ∀ l ∈ c, b.valuation.contains l.atom) ∧
        (∀ ls l ms, b.Next (ls ++ l :: ms) → ∃ b', b.assertAll ls = .ok b' ∧
          b'.valuation.contains l.atom ∧ b'.valuation.value l.atom = none) ∧
        ∀ M, b.valuation.Extended M → (b.formula.Holds M ↔ Formula.Holds M cs) := by
  obtain ⟨rfl, hn, hM, hm⟩ := formula_of_load h
  constructor
  · intro k
    have hm : s.monitor.Endless := hm ▸ Monitor.endless_of_none hl ht
    obtain ⟨rs, s', hrs, hlen, hd⟩ := solveTimes_spec k hn hm
    exact ⟨rs, s', hrs, hlen, fun r hr ↦ (hd r hr).congr hM⟩
  · intro b hv
    have hleft := hv.leftOf (leftOf_root hn)
    refine ⟨fun c hc l hl ↦ (hleft.free c hc l hl).1, ?_, ?_⟩
    · intro ls l ms hnext
      obtain ⟨b', ha, hf⟩ := hleft.exists_assertAll hnext
      exact ⟨b', ha, hf⟩
    · intro M hM'
      exact (hleft.holds_iff M hM').trans (hM M)

theorem decides_of_solves_three :
    ∃ info s rs s', (ofConfig {} fun _ ↦ 0).load (⟨3, [[1, -1], [-1, 2, 2], [1, 2], [-2]]⟩ :
      ClauseList) = .ok (info, s) ∧ s.solveTimes 2 = .ok (rs, s') ∧ rs.length = 2 ∧
        ∀ r ∈ rs, r.verdict ≠ .satisfied := by
  obtain ⟨info, s, h⟩ := exists_load 3 [[1, -1], [-1, 2, 2], [1, 2], [-2]] (ofConfig {} fun _ ↦ 0)
    (by decide) (by decide)
  obtain ⟨hk, -⟩ := decides_of_solves h rfl rfl
  obtain ⟨rs, s', hrs, hlen, hd⟩ := hk 2
  refine ⟨info, s, rs, s', h, hrs, hlen, ?_⟩
  intro r hr hs
  obtain ⟨M, hM⟩ := (hd r hr).satisfied_iff.1 hs
  have hM : (M 1 = false ∨ M 2 = true) ∧ (M 1 = true ∨ M 2 = true) ∧ M 2 = false := by
    simpa [Formula.Holds, Clause.Holds, Literal.Holds, Literal.atom, Literal.positive] using hM
  simp [hM.2.2] at hM

end Dpll.CopyingSolver
