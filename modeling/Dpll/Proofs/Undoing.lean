import Dpll.Proofs.Reachable
import Dpll.Random.Choice

namespace Dpll

namespace ClauseStore

variable {s r : ClauseStore} {ls : List Literal} {v : Valuation} {d d' i time : Nat}

theorem invalidate_invalidate (h : d ≤ d') (s : ClauseStore) :
    (s.invalidate d').invalidate d = s.invalidate d := by
  obtain ⟨clauses, _ | k⟩ := s
  · rfl
  · simp [invalidate, SatisfactionCache.invalidate_invalidate h]

theorem Coherent.invalidate_length (h : s.Coherent ls) : s.invalidate ls.length = s := by
  obtain ⟨clauses, _ | k⟩ := s
  · rfl
  · simp [ClauseStore.invalidate, (h k rfl).invalidate_length]

/-- A store with the records of `s`, but for those made at `d` or later. -/
structure AgreesBelow (s : ClauseStore) (d : Nat) (r : ClauseStore) : Prop where
  sized : r.Sized
  invalidate : r.invalidate d = s.invalidate d

theorem AgreesBelow.examine (h : s.AgreesBelow d r) (hd : d ≤ time) (v : Valuation) (i : Nat) :
    s.AgreesBelow d (r.examine v time i).2 where
  sized := h.sized.examine v time i
  invalidate := by
    obtain ⟨he, -⟩ | ⟨k, hk, hn, hi, he, -⟩ := r.examine_cases v time i
    · rw [he, h.invalidate]
    · rw [he, ← h.invalidate, ClauseStore.invalidate, ClauseStore.invalidate, hk, Option.map_some,
        Option.map_some, SatisfactionCache.invalidate_record (h.sized k hk ▸ hi) hn hd]

theorem invalidate_scan {α : Type} (f : Clause → Clause.Status → Option α) (hs : s.Sized)
    (hd : d ≤ time) (v : Valuation) : (s.scan v time f).2.invalidate d = s.invalidate d :=
  (scanFrom_preserves (P := s.AgreesBelow d) (fun _ i hr ↦ hr.examine hd v i) ⟨hs, rfl⟩ _).invalidate

theorem invalidate_unsettled (hs : s.Sized) (hd : d ≤ time) (v : Valuation) :
    (s.unsettled v time).2.invalidate d = s.invalidate d :=
  (unsettledFrom_preserves (P := s.AgreesBelow d) (fun _ i hr ↦ hr.examine hd v i) ⟨hs, rfl⟩ _
    _).invalidate

end ClauseStore

namespace Operation

/-- Whether an operation assigns, undoes or asks, and does not search. -/
def Elementary : Operation → Prop
  | assign .. | rollback | isSatisfied | hasConflict | unitLiteral | pureLiterals
  | chooseDecision => True
  | add _ | propagate | assertPure | simplify | iterate _ | recurse _ | solve _ => False

/-- By how many the open levels become more, when an operation is so answered. -/
def levelChange : Operation → Answer → Int
  | assign _ _ true, .done => 1
  | rollback, .done => -1
  | _, _ => 0

end Operation

namespace Problem

variable {ρ : Type} {p q r s : Problem ρ} {l : Literal} {k : Nat}

/-- What there is of a problem `s` in one which came about after `l` was decided on, and in which `k`
levels were opened since. -/
structure Above (s : Problem ρ) (l : Literal) (k : Nat) (p : Problem ρ) : Prop where
  coherent : p.Coherent
  keeps : s.Keeps p
  literals : s.trail.literals.toList ++ [l] <+: p.trail.literals.toList
  levels : ∃ starts, starts.length = k ∧
    p.trail.levelStarts.toList = s.trail.levelStarts.toList ++ s.trail.depth :: starts
  store : p.store.invalidate s.trail.depth = s.store

theorem Coherent.above (hs : s.Coherent) (hl : s.valuation.Free l) :
    s.Above l 0 (s.put l true) where
  coherent := hs.put hl true
  keeps := keeps_put s l true
  literals := by rw [Problem.put, Trail.literals_put]
  levels := ⟨[], rfl, by rw [Problem.put, Trail.levelStarts_put_true]⟩
  store := by
    have h := hs.store.invalidate_length
    rwa [Array.length_toList] at h

theorem Above.lt_depth (h : s.Above l k p) : s.trail.depth < p.trail.depth := by
  have hl := h.literals.length_le
  rwa [List.length_append, Array.length_toList, Array.length_toList] at hl

theorem Above.put {m : Literal} (h : s.Above l k p) (hm : p.valuation.Free m) (decision : Bool) :
    s.Above l (k + if decision then 1 else 0) (p.put m decision) where
  coherent := h.coherent.put hm decision
  keeps := h.keeps.trans (keeps_put p m decision)
  literals := by
    rw [Problem.put, Trail.literals_put]
    exact h.literals.trans (List.prefix_append _ _)
  levels := by
    obtain ⟨starts, hk, hs⟩ := h.levels
    cases decision with
    | false => exact ⟨starts, hk, hs⟩
    | true =>
      refine ⟨starts ++ [p.trail.depth], by simp [hk], ?_⟩
      rw [Problem.put, Trail.levelStarts_put_true, hs, List.append_assoc, List.cons_append]
  store := h.store

theorem Above.examined (h : s.Above l k p) (he : p.Examined q)
    (hs : q.store.invalidate s.trail.depth = p.store.invalidate s.trail.depth) :
    s.Above l k q where
  coherent := he.coherent h.coherent
  keeps := h.keeps.trans he.keeps
  literals := he.trail ▸ h.literals
  levels := he.trail ▸ h.levels
  store := hs.trans h.store

theorem Above.rollback (h : s.Above l (k + 1) p) (hq : p.rollback = .ok q) : s.Above l k q := by
  have hcoherent := h.coherent.rollback hq
  have hkeeps := keeps_rollback hq
  obtain ⟨undone, trail, hc, rfl⟩ := rollback_eq_ok hq
  obtain ⟨i, hstarts, -, hlits⟩ := Trail.closeLevel_eq_some hc
  obtain ⟨starts, hk, hs⟩ := h.levels
  obtain rfl | ⟨starts, j, rfl⟩ := List.eq_nil_or_concat starts
  · cases hk
  · rw [List.concat_eq_append] at hk hs
    rw [← List.cons_append, ← List.append_assoc] at hs
    obtain ⟨hlevels, hj⟩ := List.append_inj' (hs.symm.trans hstarts) rfl
    obtain rfl : j = i := by simpa using hj
    have hi : j ≤ p.trail.literals.toList.length := by
      have hb := h.coherent.records.below j (by simp [hs])
      rw [Trail.depth, ← Array.length_toList] at hb
      omega
    have hdepth : trail.depth = j := by
      rw [Trail.depth, ← Array.length_toList, hlits, List.length_take_of_le hi]
    -- the level was opened with the decision already on the trail
    have hlt : s.trail.depth < j := by
      have hinc := h.coherent.records.increasing
      rw [hs, List.append_assoc, List.cons_append] at hinc
      have hcons := (List.pairwise_append.1 hinc).2.1
      exact (List.pairwise_cons.1 hcons).1 j (by simp)
    constructor
    case coherent => exact hcoherent
    case keeps => exact h.keeps.trans hkeeps
    case literals =>
      rw [hlits, List.prefix_take_iff]
      refine ⟨h.literals, ?_⟩
      rw [List.length_append, Array.length_toList]
      exact hlt
    case levels =>
      refine ⟨starts, ?_, hlevels.symm⟩
      rw [List.length_append] at hk
      exact Nat.succ.inj hk
    case store =>
      dsimp only
      rw [hdepth, ClauseStore.invalidate_invalidate (Nat.le_of_lt hlt), h.store]

theorem Above.rollback_zero (hs : s.Coherent) (h : s.Above l 0 p) :
    ∃ r, p.rollback = .ok r ∧ r = { s with phase := r.phase, source := r.source } := by
  obtain ⟨starts, hk, hstarts⟩ := h.levels
  obtain rfl := List.eq_nil_of_length_eq_zero hk
  have hgrows : (s.trail.put l true).Grows p.trail := by
    constructor
    · rw [Trail.literals_put]
      exact h.literals
    · apply Array.toList_inj.1
      rw [hstarts, Trail.levelStarts_put_true]
  obtain ⟨undone, hc⟩ := Trail.closeLevel_of_grows hgrows
  have hr := rollback_of_closeLevel hc
  have hkeeps := h.keeps.trans (keeps_rollback hr)
  have hv := (h.coherent.rollback hr).records.valuation_eq hs.records hkeeps.size
  have hatoms : p.atoms.clearAll undone = s.atoms :=
    congrArg₂ AtomTable.mk hv hkeeps.occurrences
  have hconfig : p.config = s.config := hkeeps.config
  refine ⟨_, hr, ?_⟩
  dsimp only
  rw [hatoms, hconfig, h.store]

variable [Chooser ρ] {os : List Operation} {o : Operation}

def levelChange (p : Problem ρ) : List Operation → Int
  | [] => 0
  | o :: os => o.levelChange (p.perform o).1 + (p.perform o).2.levelChange os

/-- A run of assignments, of undoing them and of queries, in which as many decisions are undone as are
made, and at no point more. -/
structure Nested (p : Problem ρ) (os : List Operation) : Prop where
  elementary : ∀ o ∈ os, o.Elementary
  above : ∀ os', os' <+: os → 0 ≤ p.levelChange os'
  settled : p.levelChange os = 0

theorem Above.perform (h : s.Above l k p) (ho : o.Elementary)
    (hk : 0 ≤ k + o.levelChange (p.perform o).1) :
    ∃ k' : Nat, (k' : Int) = k + o.levelChange (p.perform o).1 ∧ s.Above l k' (p.perform o).2 := by
  have hd : s.trail.depth ≤ p.latest := Nat.le_sub_one_of_lt h.lt_depth
  have hsized := h.coherent.store.sized
  have hquery {q : Problem ρ} (he : p.Examined q)
      (hs : q.store.invalidate s.trail.depth = p.store.invalidate s.trail.depth) :
      ∃ k' : Nat, (k' : Int) = k + 0 ∧ s.Above l k' q :=
    ⟨k, (Int.add_zero _).symm, h.examined he hs⟩
  cases o with
  | assign a b decision =>
    cases ha : p.assign a b decision with
    | error fault =>
      rw [Problem.perform, ha]
      exact ⟨k, by cases decision <;> exact (Int.add_zero _).symm, h⟩
    | ok q =>
      obtain ⟨hf, rfl⟩ := assign_eq_ok ha
      rw [Problem.perform, ha]
      refine ⟨_, ?_, h.put hf decision⟩
      cases decision <;> rfl
  | rollback =>
    cases hr : p.rollback with
    | error fault =>
      rw [Problem.perform, hr]
      exact ⟨k, (Int.add_zero _).symm, h⟩
    | ok q =>
      rw [Problem.perform, hr] at hk ⊢
      change (0 : Int) ≤ k + -1 at hk
      obtain ⟨k, rfl⟩ := Nat.exists_eq_succ_of_ne_zero (show k ≠ 0 by omega)
      refine ⟨k, ?_, h.rollback hr⟩
      change (k : Int) = ↑(k + 1) + -1
      omega
  | isSatisfied =>
    exact hquery (isSatisfied_spec h.coherent).2 (ClauseStore.invalidate_scan _ hsized hd _)
  | hasConflict =>
    exact hquery (hasConflict_spec h.coherent).2 (ClauseStore.invalidate_scan _ hsized hd _)
  | unitLiteral =>
    exact hquery (unitLiteral_spec h.coherent).2 (ClauseStore.invalidate_scan _ hsized hd _)
  | pureLiterals =>
    exact hquery (pureLiterals_spec h.coherent).2 (ClauseStore.invalidate_unsettled hsized hd _)
  | chooseDecision =>
    cases hc : p.chooseDecision with
    | error fault =>
      rw [Problem.perform, hc]
      exact ⟨k, (Int.add_zero _).symm, h⟩
    | ok r =>
      have hcoherent := h.coherent.chooseDecision hc
      obtain ⟨source, hq⟩ := exists_source_of_chooseDecision hc
      have hkeeps : p.Keeps r.2 := by
        rw [hq]
        exact ⟨rfl, rfl, rfl, rfl, rfl⟩
      rw [Problem.perform, hc]
      refine ⟨k, (Int.add_zero _).symm, hcoherent, h.keeps.trans hkeeps, ?_, ?_, ?_⟩
      · exact hq ▸ h.literals
      · exact hq ▸ h.levels
      · exact hq ▸ h.store
  | add | propagate | assertPure | simplify | iterate | recurse | solve => exact ho.elim

theorem Above.performAll (h : s.Above l k p) (hos : ∀ o ∈ os, o.Elementary)
    (hk : ∀ os', os' <+: os → 0 ≤ k + p.levelChange os') :
    ∃ k' : Nat, (k' : Int) = k + p.levelChange os ∧ s.Above l k' (p.performAll os).2 := by
  induction os generalizing p k with
  | nil => exact ⟨k, (Int.add_zero _).symm, h⟩
  | cons o os ih =>
    obtain ⟨ho, hos⟩ := List.forall_mem_cons.1 hos
    have hone := hk [o] (List.prefix_append [o] os)
    rw [levelChange, levelChange, Int.add_zero] at hone
    obtain ⟨k₁, hk₁, h₁⟩ := h.perform ho hone
    obtain ⟨k', hk', h'⟩ := ih h₁ hos fun os' hp ↦ by
      have hcons := hk (o :: os') (List.cons_prefix_cons.2 ⟨rfl, hp⟩)
      rw [levelChange] at hcons
      omega
    refine ⟨k', ?_, h'⟩
    rw [levelChange]
    omega

/-- Undoing a decision gives back the problem it was made in, but for the phase and the random source,
whatever was asked, assigned and undone since. -/
theorem rollback_exact (n : Nat) (config : Config) (source : ρ) (os ops : List Operation) (a : Atom)
    (b : Bool) :
    let s := ((empty n config source).performAll os).2
    ∀ p, s.assign a b true = .ok p → p.Nested ops →
      ∃ r, (p.performAll ops).2.rollback = .ok r ∧
        r = { s with phase := r.phase, source := r.source } ∧
        (s.trail.level = 0 → r.rollback = .error .noDecision) := by
  intro s p hp hn
  have hs : s.Coherent := coherent_performAll n config source os
  obtain ⟨hf, rfl⟩ := assign_eq_ok hp
  obtain ⟨k, hk, h⟩ := (hs.above hf).performAll hn.elementary fun os' hos' ↦ by
    have := hn.above os' hos'
    omega
  rw [hn.settled] at hk
  obtain rfl : k = 0 := by omega
  obtain ⟨r, hr, he⟩ := h.rollback_zero hs
  refine ⟨r, hr, he, fun hlevel ↦ rollback_eq_error_iff.2 ⟨?_, rfl⟩⟩
  rw [he]
  exact hlevel

theorem rollback_exact_three :
    let s := ((empty 3 (.forSolver .cached) (⟨[]⟩ : Script)).performAll
      [.add [1, 2], .add [2, 3], .add [-1, 3], .assign 2 true false, .isSatisfied]).2
    let ops : List Operation := [.unitLiteral, .assign 3 true true, .isSatisfied,
      .assign 1 false true, .chooseDecision, .rollback, .pureLiterals, .assign 3 true false]
    ∃ p r, s.assign 1 true true = .ok p ∧ (p.performAll ops).2.rollback = .ok r ∧
      r.store.cache.map (·.stack) = some [1, 0] ∧ r.valuation = s.valuation ∧
      r.rollback = .error .noDecision := by
  intro s ops
  have hf : s.valuation.Free 1 := ⟨by decide +kernel, by decide +kernel⟩
  have hp : s.assign 1 true true = .ok (s.put 1 true) := assert_of_free hf true
  have habove : ∀ os' ∈ ops.inits, 0 ≤ (s.put 1 true).levelChange os' := by decide +kernel
  obtain ⟨r, hr, he, hno⟩ := rollback_exact 3 (.forSolver .cached) (⟨[]⟩ : Script)
    [.add [1, 2], .add [2, 3], .add [-1, 3], .assign 2 true false, .isSatisfied] ops 1 true _ hp
    ⟨by simp [ops, Operation.Elementary], fun os' h ↦ habove os' ((List.mem_inits _ _).2 h),
      by decide +kernel⟩
  refine ⟨_, r, hp, hr, ?_, ?_, hno (by decide +kernel)⟩
  · rw [he]
    change s.store.cache.map (·.stack) = some [1, 0]
    decide +kernel
  · rw [he]
    rfl

end Problem

end Dpll
