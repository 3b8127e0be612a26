import Dpll.Proofs.Loading
import Dpll.Proofs.Reachable
import Dpll.Random.Choice

namespace Dpll

def Answer.isUnknown : Answer → Bool
  | .verdict .unknown _ => true
  | _ => false

theorem Phase.ofVerdict_eq_satisfiable {v : Verdict} (h : ofVerdict v = .satisfiable) :
    v = .satisfied := by
  cases v with
  | satisfied => rfl
  | unsatisfied | unknown => cases h

theorem Phase.ofVerdict_eq_unsatisfiable {v : Verdict} (h : ofVerdict v = .unsatisfiable) :
    v = .unsatisfied := by
  cases v with
  | unsatisfied => rfl
  | satisfied | unknown => cases h

namespace Search

variable {ρ : Type} {s s' : Search ρ} {v : Verdict}

theorem Explored.satisfiableUnder (h : s.Explored v s') (hv : v ≠ .unknown)
    (hs : s.problem.formula.SatisfiableUnder s.problem.valuation) :
    s.problem.formula.SatisfiableUnder s'.problem.valuation := by
  cases v with
  | satisfied => exact ⟨_, Valuation.extended_complete _, h.holds_complete⟩
  | unsatisfied => exact absurd hs (h.refuted rfl)
  | unknown => exact absurd rfl hv

end Search

namespace Problem

variable {ρ : Type} {p q : Problem ρ} {o : Operation}

/-- No model of the formula was lost by what was made true, or not all of them. -/
def Lossless (p : Problem ρ) : Prop :=
  p.formula.Satisfiable → p.formula.SatisfiableUnder p.valuation

theorem Lossless.of_eq (h : p.Lossless) (hf : q.formula = p.formula)
    (hv : p.formula.SatisfiableUnder p.valuation → p.formula.SatisfiableUnder q.valuation) :
    q.Lossless := by
  unfold Lossless
  rw [hf]
  exact fun hs ↦ hv (h hs)

theorem Lossless.of_examined (h : p.Lossless) (he : p.Examined q) : q.Lossless := by
  refine h.of_eq he.formula fun hs ↦ ?_
  rwa [he.valuation]

theorem Lossless.of_explored {m : Monitor} {v : Verdict} {s : Search ρ} (h : p.Lossless)
    (hx : Search.Explored ⟨p, m⟩ v s) (hv : v ≠ .unknown) : s.problem.Lossless :=
  h.of_eq hx.keeps.formula (hx.satisfiableUnder hv)

theorem Coherent.lossless_of_idle (h : p.Coherent) (ht : p.trail.literals.toList = []) :
    p.Lossless := by
  rintro ⟨M, hM⟩
  refine ⟨M, ?_, hM⟩
  intro a b hc hv
  have hl := (h.records.value_eq_some_iff (Valuation.contains_iff.1 hc).1 b).1 hv
  rw [ht] at hl
  cases hl

theorem Lossless.rollback (h : p.Lossless) (hq : p.rollback = .ok q) : q.Lossless := by
  obtain ⟨undone, trail, -, rfl⟩ := rollback_eq_ok hq
  refine h.of_eq rfl ?_
  rintro ⟨M, hM, hf⟩
  refine ⟨M, ?_, hf⟩
  intro a b hc hv
  have he : (p.atoms.clearAll undone).valuation = p.valuation.clearAll undone :=
    AtomTable.valuation_clearAll _ _
  rw [valuation, he] at hc hv
  rw [Valuation.value_clearAll] at hv
  split at hv
  next => cases hv
  next =>
    refine hM a b ?_ hv
    rwa [Valuation.contains_iff, Valuation.size_clearAll, ← Valuation.contains_iff] at hc

def Idle (p : Problem ρ) : Prop := p.phase = .input → p.trail.literals.toList = []

theorem Idle.changed (hp : p.Idle) (h : p.Changed o q) : q.Idle := by
  intro hq
  have hi : p.phase = .input := by
    by_contra hi
    exact h.phase_ne_input hi hq
  cases h with
  | advanced _ h => rw [h.paced.trail hq, hp hi]
  | stored => exact hp hi
  | undone h =>
    obtain ⟨undone, trail, hc, rfl⟩ := rollback_eq_ok h
    obtain ⟨i, -, -, hl⟩ := Trail.closeLevel_eq_some hc
    rw [hl, hp hi, List.take_nil]
  | solved hx hs => exact absurd hq (hs ▸ Phase.ofVerdict_ne_input _)

theorem lossless_settle {ε α : Type} {fault : ε → Fault} {answer : α → Answer × Problem ρ}
    {r : Except ε α} (hp : p.Lossless) (h : ∀ a, r = .ok a → (answer a).2.Lossless) :
    (p.settle fault answer r).2.Lossless := by
  cases r with
  | error e => exact hp
  | ok a => exact h a rfl

theorem Changed.before (h : p.Changed o q) (ho : o ≠ .rollback) : p.trail.Before q.trail := by
  cases h with
  | advanced _ h => exact h.before
  | stored => exact (Trail.Grows.refl _).before
  | undone => exact absurd rfl ho
  | solved hx => exact hx.before

theorem Coherent.true_of_before (hp : p.Coherent) (hq : q.Coherent)
    (ht : p.trail.Before q.trail) {c : Clause} (hc : c ∈ p.formula)
    (h : c.status p.valuation = .satisfied) : ∃ l ∈ c, q.valuation.truth l = some true := by
  obtain ⟨l, hl, htrue⟩ := Clause.status_eq_satisfied_iff.1 h
  have hl₀ := hp.ne_zero hc l hl
  have hm := ht.literals.subset ((hp.records.true_iff hl₀).1 htrue)
  exact ⟨l, hl, (hq.records.true_iff hl₀).2 hm⟩

variable [Chooser ρ]

/-- Models are lost just by an assignment by hand, or by a search which comes to no verdict. -/
theorem Lossless.perform (h : p.Lossless) (hi : p.Idle) (hp : p.Coherent)
    (ho : ∀ a b decision, o ≠ .assign a b decision)
    (hv : ¬ (p.perform o).1.isUnknown) : (p.perform o).2.Lossless := by
  cases o with
  | add c =>
    refine lossless_settle h fun r hr ↦ ?_
    have ht := (keeps_of_add (a := r.1) hr).2.2.1
    refine (hp.add (a := r.1) hr).lossless_of_idle ?_
    rw [ht]
    exact hi (add_eq_ok (a := r.1) hr).1
  | assign a b decision => exact absurd rfl (ho a b decision)
  | rollback => exact lossless_settle h fun q hq ↦ h.rollback hq
  | isSatisfied => exact h.of_examined (isSatisfied_spec hp).2
  | hasConflict => exact h.of_examined (hasConflict_spec hp).2
  | unitLiteral => exact h.of_examined (unitLiteral_spec hp).2
  | pureLiterals => exact h.of_examined (pureLiterals_spec hp).2
  | chooseDecision =>
    refine lossless_settle h fun r hr ↦ ?_
    obtain ⟨source, hq⟩ := exists_source_of_chooseDecision hr
    rw [hq]
    exact h
  | propagate =>
    obtain ⟨n, q, hq, hc, hM⟩ := propagate_spec hp
    rw [Problem.perform, hq]
    exact h.of_eq hc.formula (Exists.imp fun M hs ↦ ⟨(hM M hs.2).2 hs.1, hs.2⟩)
  | assertPure =>
    obtain ⟨n, q, hq, hc, hsat⟩ := assertPure_spec hp
    rw [Problem.perform, hq]
    exact h.of_eq hc.formula hsat.2
  | simplify =>
    obtain ⟨q, hq, hc, hsat⟩ := simplify_spec hp
    rw [Problem.perform, hq]
    exact h.of_eq hc.formula hsat.2
  | iterate m =>
    obtain ⟨v, s, hx, hr, -⟩ := Search.exists_run (s := ⟨p, m⟩) hp
    rw [Problem.perform, hr] at hv ⊢
    exact h.of_explored hx fun he ↦ hv (he ▸ rfl)
  | recurse m =>
    obtain ⟨v, s, hx, -, hr⟩ := Search.exists_run (s := ⟨p, m⟩) hp
    rw [Problem.perform, hr] at hv ⊢
    exact h.of_explored hx fun he ↦ hv (he ▸ rfl)
  | solve m =>
    obtain ⟨v, s, hr, hx, -⟩ := Search.solve_spec (s := ⟨p, m⟩) hp
    rw [Problem.perform, hr] at hv ⊢
    exact h.of_explored hx fun he ↦ hv (he ▸ rfl)

theorem Lossless.performAll {os : List Operation} (h : p.Lossless) (hi : p.Idle) (hp : p.Coherent)
    (ho : ∀ a b decision, .assign a b decision ∉ os)
    (hv : ∀ x ∈ (p.performAll os).1, ¬ x.isUnknown) : (p.performAll os).2.Lossless := by
  induction os generalizing p with
  | nil => exact h
  | cons o os ih =>
    have hl := h.perform hi hp (fun a b d he ↦ ho a b d (he ▸ .head _))
      (hv _ (.head _))
    exact ih hl (hi.changed (hp.changed_perform o)) (hp.perform o)
      (fun a b d hm ↦ ho a b d (.tail _ hm)) (fun x hx ↦ hv x (.tail _ hx))

theorem Coherent.onward_performAll {os : List Operation} (hp : p.Coherent)
    (ho : ∀ m, .solve m ∉ os) : p.phase.Onward (p.performAll os).2.phase := by
  induction os generalizing p with
  | nil => exact .refl _
  | cons o os ih =>
    have hc := (hp.changed_perform o).onward fun m he ↦ ho m (he ▸ .head _)
    exact hc.trans (ih (hp.perform o) fun m hm ↦ ho m (.tail _ hm))

theorem Coherent.before_performAll {os : List Operation} (hp : p.Coherent)
    (ho : .rollback ∉ os) : p.trail.Before (p.performAll os).2.trail := by
  induction os generalizing p with
  | nil => exact (Trail.Grows.refl _).before
  | cons o os ih =>
    have hc := (hp.changed_perform o).before fun he ↦ ho (he ▸ .head _)
    exact hc.trans (ih (hp.perform o) fun hm ↦ ho (.tail _ hm))

theorem kept_after_solve {m : Monitor} {v : Verdict} {s : Search ρ} {os : List Operation}
    (hx : Search.Explored ⟨p, m⟩ v s) (hs : s.problem.phase = .ofVerdict v)
    (ho : ∀ m, .solve m ∉ os) :
    (s.problem.performAll os).2.phase = .ofVerdict v ∧
      (s.problem.performAll os).2.formula = p.formula := by
  have hi : s.problem.phase ≠ .input := hs ▸ Phase.ofVerdict_ne_input v
  have hc := congrArg Array.toList (hx.coherent.fixed_performAll hi os).2
  exact ⟨((hx.coherent.onward_performAll ho).eq hi).trans hs, hc.trans hx.keeps.formula⟩

theorem true_after_solve {m : Monitor} {s : Search ρ} {os : List Operation}
    (hx : Search.Explored ⟨p, m⟩ .satisfied s) (ho : .rollback ∉ os) :
    ∀ c ∈ p.formula, ∃ l ∈ c, (s.problem.performAll os).2.valuation.truth l = some true := by
  intro c hc
  have hs := hx.coherent
  have hc' : c ∈ s.problem.formula := hx.keeps.formula ▸ hc
  exact hs.true_of_before (hs.leaves_performAll os).coherent (hs.before_performAll ho) hc'
    (hx.satisfied rfl c hc)

/-- What the phase of a problem tells after the latest solve. A problem said to be satisfiable is so by
its valuation, as long as no decision is undone after the solve. One said to be unsatisfiable is so
under the valuation which the solve began with, and altogether if that is not of values assigned by
hand, or by a search which came to no verdict. -/
theorem phase_performAll (n : Nat) (config : Config) (source : ρ) (os : List Operation) :
    let blank := empty n config source
    let r := (blank.performAll os).2
    ((∀ m, .solve m ∉ os) → r.verdict = .unknown) ∧
    ∀ before m after, os = before ++ .solve m :: after → (∀ m', .solve m' ∉ after) →
      let p := (blank.performAll before).2
      ∃ v s, Search.solve ⟨p, m⟩ = .ok (v, s) ∧ r.phase = .ofVerdict v ∧ r.formula = p.formula ∧
        (r.phase = .satisfiable → r.formula.Satisfiable ∧
          (.rollback ∉ after → ∀ c ∈ r.formula, ∃ l ∈ c, r.valuation.truth l = some true)) ∧
        (r.phase = .unsatisfiable → ¬ r.formula.SatisfiableUnder p.valuation ∧
          ((∀ a b decision, .assign a b decision ∉ before) →
            (∀ x ∈ (blank.performAll before).1, ¬ x.isUnknown) → ¬ r.formula.Satisfiable)) := by
  intro blank r
  have h₀ : blank.Coherent := coherent_empty n config source
  constructor
  · intro ho
    rcases h₀.onward_performAll ho with h | h
    · rw [verdict, h]
      rfl
    · rw [verdict, h]
      rfl
  · rintro before m after rfl ho p
    have hp : p.Coherent := coherent_performAll n config source before
    obtain ⟨v, s, hs, hx, -⟩ := Search.solve_spec (s := ⟨p, m⟩) hp
    have hr : r = (s.problem.performAll after).2 := by
      have hsolve : (p.perform (.solve m)).2 = s.problem := by
        rw [perform, hs]
        rfl
      rw [← hsolve]
      exact performAll_append blank before (.solve m :: after)
    have hphase := Search.phase_of_solve (s := ⟨p, m⟩) hp hs
    obtain ⟨hverdict, hformula⟩ := kept_after_solve hx hphase ho
    rw [← hr] at hverdict hformula
    refine ⟨v, s, hs, hverdict, hformula, ?_, ?_⟩
    · intro hsat
      obtain rfl := Phase.ofVerdict_eq_satisfiable (hverdict.symm.trans hsat)
      rw [hformula, hr]
      exact ⟨⟨_, hx.holds_complete⟩, true_after_solve hx⟩
    · intro hunsat
      obtain rfl := Phase.ofVerdict_eq_unsatisfiable (hverdict.symm.trans hunsat)
      rw [hformula]
      refine ⟨hx.refuted rfl, fun ha hu hsat ↦ ?_⟩
      have hl := Lossless.performAll (h₀.lossless_of_idle rfl) (fun _ ↦ rfl) h₀ ha hu
      exact hx.refuted rfl (hl hsat)

theorem phase_performAll_two :
    let m := Monitor.ofConfig {} fun _ ↦ 0
    let p := ((empty 2 {} (⟨[]⟩ : Script)).performAll
      [.add [1, 2], .add [-1, 2], .solve m, .assign 1 true true, .isSatisfied]).2
    let q := ((empty 1 {} (⟨[]⟩ : Script)).performAll
      [.add [1], .add [-1], .propagate, .solve m]).2
    (p.phase = .satisfiable ∧ ∀ c ∈ p.formula, ∃ l ∈ c, p.valuation.truth l = some true) ∧
      q.phase = .unsatisfiable ∧ ¬ q.formula.Satisfiable := by
  intro m p q
  have hp : p.phase = .satisfiable := by decide +kernel
  have hq : q.phase = .unsatisfiable := by decide +kernel
  obtain ⟨v, s, -, -, -, hsat, -⟩ := (phase_performAll 2 {} (⟨[]⟩ : Script)
    [.add [1, 2], .add [-1, 2], .solve m, .assign 1 true true, .isSatisfied]).2
    [.add [1, 2], .add [-1, 2]] m [.assign 1 true true, .isSatisfied] rfl (by simp)
  obtain ⟨w, u, -, -, -, -, hunsat⟩ := (phase_performAll 1 {} (⟨[]⟩ : Script)
    [.add [1], .add [-1], .propagate, .solve m]).2
    [.add [1], .add [-1], .propagate] m [] rfl (by simp)
  exact ⟨⟨hp, (hsat hp).2 (by simp)⟩, hq, (hunsat hq).2 (by simp) (by decide +kernel)⟩

/-- A problem is still said to be satisfiable when the decision which made it so is undone. One is
said to be unsatisfiable when just the value assigned to its atom makes it so. -/
theorem stale_phase :
    let m := Monitor.ofConfig {} fun _ ↦ 0
    let p := ((empty 1 {} (⟨[]⟩ : Script)).performAll
      [.add [1], .assign 1 true true, .solve m, .rollback]).2
    let q := ((empty 1 {} (⟨[]⟩ : Script)).performAll
      [.add [1], .assign 1 false true, .solve m]).2
    (p.phase = .satisfiable ∧ ¬ ∀ c ∈ p.formula, ∃ l ∈ c, p.valuation.truth l = some true) ∧
      q.phase = .unsatisfiable ∧ q.formula.Satisfiable := by
  refine ⟨?_, ?_, fun _ ↦ true, ?_⟩
  · decide +kernel
  · decide +kernel
  · decide +kernel

end Problem

end Dpll
