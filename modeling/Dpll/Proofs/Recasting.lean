import Dpll.Proofs.Reachable
import Dpll.Proofs.TrailSolver

namespace Dpll

/-- A change to a problem which does not show in its searches. The cache is left out, the literals of
each clause are put in another order, and the configuration keeps its heuristic and its form of
search. -/
structure Recast where
  config : Config → Config
  clause : Clause → Clause
  heuristic_config : ∀ c, (config c).heuristic = c.heuristic
  search_config : ∀ c, (config c).search = c.search
  perm_clause : ∀ c, (clause c).Perm c

variable {g : Recast}

theorem Clause.Normal.perm {n : Nat} {c d : Clause} (h : c.Normal n) (hp : d.Perm c) :
    d.Normal n where
  ne_zero l hl := h.ne_zero l (hp.mem_iff.1 hl)
  atom_le l hl := h.atom_le l (hp.mem_iff.1 hl)
  nodup := (hp.map _).nodup_iff.2 h.nodup

namespace Problem

variable {ρ : Type} {p q : Problem ρ} {l : Literal} {ls : List Literal}

def recast (g : Recast) (p : Problem ρ) : Problem ρ :=
  { p with config := g.config p.config, store := { clauses := p.store.clauses.map g.clause } }

@[simp] theorem atoms_recast (g : Recast) (p : Problem ρ) : (p.recast g).atoms = p.atoms := rfl

@[simp] theorem trail_recast (g : Recast) (p : Problem ρ) : (p.recast g).trail = p.trail := rfl

@[simp] theorem source_recast (g : Recast) (p : Problem ρ) : (p.recast g).source = p.source := rfl

@[simp] theorem valuation_recast (g : Recast) (p : Problem ρ) :
    (p.recast g).valuation = p.valuation := rfl

@[simp] theorem heuristic_recast (g : Recast) (p : Problem ρ) :
    (p.recast g).config.heuristic = p.config.heuristic := g.heuristic_config p.config

@[simp] theorem formula_recast (g : Recast) (p : Problem ρ) :
    (p.recast g).formula = p.formula.map g.clause := by
  simp [recast, formula, ClauseStore.formula]

theorem Coherent.recast (h : p.Coherent) (g : Recast) : (p.recast g).Coherent where
  records := h.records
  normal c hc := by
    rw [formula_recast] at hc
    obtain ⟨d, hd, rfl⟩ := List.mem_map.1 hc
    exact (h.normal d hd).perm (g.perm_clause d)
  store k hk := by cases hk

theorem status_recast (g : Recast) (c : Clause) (v : Valuation) :
    (g.clause c).status v = c.status v := Clause.status_perm (g.perm_clause c)

theorem hasEmpty_recast (g : Recast) (p : Problem ρ) :
    (p.recast g).store.hasEmpty = p.store.hasEmpty := by
  have he (c : Clause) : (g.clause c).isEmpty = c.isEmpty := (g.perm_clause c).isEmpty_eq
  simp [recast, ClauseStore.hasEmpty, he]

theorem mem_loose_recast (g : Recast) (p : Problem ρ) (l : Literal) :
    l ∈ (p.recast g).loose ↔ l ∈ p.loose := by
  simp [mem_loose_iff, status_recast, (g.perm_clause _).mem_iff]

theorem Examined.recast (h : p.Examined q) (g : Recast) : q.recast g = p.recast g := by
  obtain ⟨⟨clauses, cache⟩, hs, rfl⟩ := h
  have hc : clauses = p.store.clauses := hs.clauses
  rw [hc]
  rfl

theorem Examined.eq_of_recast (h : (p.recast g).Examined q) : q = p.recast g := by
  obtain ⟨store, hs, rfl⟩ := h
  rw [hs.uncached rfl]

/-- A query has the same answer after a recast, if its answer is known to be the same. -/
theorem query_recast {α : Type} {query : Problem ρ → α × Problem ρ} {spec : Problem ρ → α}
    (h : ∀ {p}, p.Coherent → (query p).1 = spec p ∧ p.Examined (query p).2)
    (hspec : spec (p.recast g) = spec p) (hp : p.Coherent) :
    query (p.recast g) = Prod.map id (recast g) (query p) := by
  obtain ⟨h₁, he⟩ := h hp
  obtain ⟨h₂, he'⟩ := h (hp.recast g)
  refine Prod.ext ?_ ?_
  · exact h₂.trans (hspec.trans h₁.symm)
  · exact he'.eq_of_recast.trans (he.recast g).symm

theorem isSatisfied_recast (h : p.Coherent) :
    (p.recast g).isSatisfied = Prod.map id (recast g) p.isSatisfied := by
  refine query_recast isSatisfied_spec ?_ h
  simp [status_recast]

theorem hasConflict_recast (h : p.Coherent) :
    (p.recast g).hasConflict = Prod.map id (recast g) p.hasConflict := by
  refine query_recast hasConflict_spec ?_ h
  simp [status_recast]

theorem unitLiteral_recast (h : p.Coherent) :
    (p.recast g).unitLiteral = Prod.map id (recast g) p.unitLiteral := by
  refine query_recast unitLiteral_spec ?_ h
  simp only [formula_recast, List.findSome?_map, Function.comp_def, status_recast, valuation_recast]

theorem pureLiterals_recast (h : p.Coherent) :
    (p.recast g).pureLiterals = Prod.map id (recast g) p.pureLiterals :=
  query_recast pureLiterals_spec (Dpll.pureLiterals_congr (mem_loose_recast g p)) h

theorem assign_recast (p : Problem ρ) (a : Atom) (b decision : Bool) :
    (p.recast g).assign a b decision = (p.assign a b decision).map (recast g) := by
  obtain ⟨config, phase, atoms, store, trail, source⟩ := p
  simp only [recast, assign]
  cases atoms.assign a b <;> rfl

theorem rollback_recast (p : Problem ρ) :
    (p.recast g).rollback = p.rollback.map (recast g) := by
  simp only [rollback, trail_recast]
  cases p.trail.closeLevel <;> rfl

theorem chooseDecision_recast [Chooser ρ] (p : Problem ρ) :
    (p.recast g).chooseDecision = p.chooseDecision.map (Prod.map id (recast g)) := by
  simp only [chooseDecision, heuristic_recast, valuation_recast, source_recast, atoms_recast]
  cases p.config.heuristic.value with
  | random => cases (Chooser.choose p.valuation.unvalued p.source).1 <;> rfl
  | greedy => cases p.atoms.greediest none 0 p.valuation.unvalued <;> rfl
  | first => cases p.valuation.unvalued.head? <;> rfl

theorem putAll_recast (p : Problem ρ) (ls : List Literal) :
    (p.recast g).putAll ls = (p.putAll ls).recast g := by
  induction ls generalizing p with
  | nil => rfl
  | cons l ls ih => exact ih (p.put l false)

theorem afterUnit_recast (h : p.Coherent) (l : Literal) :
    (p.recast g).afterUnit l = (p.afterUnit l).recast g := by
  rw [afterUnit, unitLiteral_recast h]
  rfl

theorem afterPure_recast (h : p.Coherent) : (p.recast g).afterPure = p.afterPure.recast g := by
  rw [afterPure, pureLiterals_recast h]
  exact putAll_recast _ _

theorem propagate_recast (h : p.Coherent) :
    (p.recast g).propagate = p.propagate.map (Prod.map id (recast g)) := by
  induction p, h using propagate_induction with
  | none p h hn =>
    have hn' : (p.recast g).unitLiteral.1 = none := by rwa [unitLiteral_recast h]
    rw [propagate_of_none hn, propagate_of_none hn', unitLiteral_recast h]
    rfl
  | some p h l hu ih =>
    have hu' : (p.recast g).unitLiteral.1 = some l := by rwa [unitLiteral_recast h]
    rw [propagate_of_some h hu, propagate_of_some (h.recast g) hu', afterUnit_recast h, ih]
    cases (p.afterUnit l).propagate <;> rfl

theorem assertPure_recast (h : p.Coherent) :
    (p.recast g).assertPure = p.assertPure.map (Prod.map id (recast g)) := by
  induction p, h using assertPure_induction with
  | nil p h hn =>
    have hn' : (p.recast g).pureLiterals.1 = [] := by rwa [pureLiterals_recast h]
    rw [assertPure_of_nil hn, assertPure_of_nil hn', pureLiterals_recast h]
    rfl
  | cons p h hl ih =>
    have hl' : (p.recast g).pureLiterals.1 ≠ [] := by rwa [pureLiterals_recast h]
    rw [assertPure_of_ne_nil h hl, assertPure_of_ne_nil (h.recast g) hl', afterPure_recast h, ih,
      pureLiterals_recast h]
    cases p.afterPure.assertPure <;> rfl

theorem simplify_recast (h : p.Coherent) :
    (p.recast g).simplify = p.simplify.map (recast g) := by
  induction p, h using simplify_induction with
  | round p h n q k r hq hr hc ih =>
    have hq' : (p.recast g).propagate = .ok (n, q.recast g) := by
      rw [propagate_recast h, hq]
      rfl
    have hr' : (q.recast g).assertPure = .ok (k, r.recast g) := by
      obtain ⟨_, _, hq₁, hc, -⟩ := propagate_spec h
      cases hq.symm.trans hq₁
      rw [assertPure_recast hc.coherent, hr]
      rfl
    rw [simplify_of_ok hq hr, simplify_of_ok hq' hr']
    split
    next => rfl
    next hnk => exact ih hnk

end Problem

namespace Search

variable {ρ : Type} {s s' : Search ρ} {v : Verdict}

def recast (g : Recast) (s : Search ρ) : Search ρ := ⟨s.problem.recast g, s.monitor⟩

theorem retreat_recast (s : Search ρ) : (s.recast g).retreat = s.retreat.map (recast g) := by
  simp only [retreat, recast, Problem.rollback_recast]
  cases s.problem.rollback <;> rfl

theorem turn_recast (s : Search ρ) (l : Literal) :
    (s.recast g).turn l = (s.turn l).map (recast g) := by
  simp only [turn, retreat_recast]
  cases s.retreat with
  | error fault => rfl
  | ok s =>
    simp only [Except.map, recast, Problem.assert, Problem.assign_recast]
    cases s.problem.assign l.negate.atom l.negate.positive true <;> rfl

variable [Chooser ρ]

theorem step_recast (hs : s.problem.Coherent) :
    (s.recast g).step = s.step.map (Prod.map id (recast g)) := by
  have hm : (s.recast g).monitor = s.monitor := rfl
  unfold step
  rw [hm]
  obtain ⟨ended, m⟩ := s.monitor.call
  cases ended with
  | true => rfl
  | false =>
    obtain ⟨p, hp, hc, -⟩ := Problem.simplify_spec hs
    have hp' : (s.recast g).problem.simplify = .ok (p.recast g) := by
      rw [recast, Problem.simplify_recast hs, hp]
      rfl
    have hi := (Problem.isSatisfied_spec hc.coherent).2.coherent hc.coherent
    simp only [hp, hp', Problem.isSatisfied_recast hc.coherent]
    cases hq : p.isSatisfied with
    | mk satisfied q =>
    rw [hq] at hi
    cases satisfied with
    | true => rfl
    | false =>
      simp only [Prod.map, id, Problem.hasConflict_recast hi]
      obtain ⟨conflict, r⟩ := q.hasConflict
      cases conflict with
      | true => rfl
      | false =>
        simp only [Problem.chooseDecision_recast]
        cases r.chooseDecision with
        | error fault => rfl
        | ok d =>
          obtain ⟨l, u⟩ := d
          simp only [Except.map, Prod.map, id, decideOn, Problem.assert, Problem.assign_recast]
          cases u.assign l.atom l.positive true <;> rfl

def Move.recast (g : Recast) : Move ρ → Move ρ
  | .call s => .call (s.recast g)
  | .turn l s => .turn l (s.recast g)
  | .retreat s => .retreat (s.recast g)

theorem Explores.recast {depth : Nat} {ms : List (Move ρ)} (h : Explores depth s ms v s')
    (hs : s.problem.Coherent) (g : Recast) :
    Explores depth (s.recast g) (ms.map (.recast g)) v (s'.recast g) := by
  induction h with
  | settled h => exact .settled (by rw [step_recast hs, h]; rfl)
  | kept h h₁ hv ih =>
    have hs₁ := (stepped_of_step hs h).coherent hs
    exact .kept (by rw [step_recast hs, h]; rfl) (ih hs₁) hv
  | turned h h₁ ht h₃ hv ih₁ ih₃ =>
    have hs₁ := (stepped_of_step hs h).coherent hs
    have hs₃ := coherent_turn (h₁.explored hs₁).coherent ht
    rw [List.map_cons, List.map_append, List.map_cons]
    exact .turned (by rw [step_recast hs, h]; rfl) (ih₁ hs₁) (by rw [turn_recast, ht]; rfl)
      (ih₃ hs₃) hv
  | refuted h h₁ ht h₃ hr ih₁ ih₃ =>
    have hs₁ := (stepped_of_step hs h).coherent hs
    have hs₃ := coherent_turn (h₁.explored hs₁).coherent ht
    rw [List.map_cons, List.map_append, List.map_cons, List.map_append]
    exact .refuted (by rw [step_recast hs, h]; rfl) (ih₁ hs₁) (by rw [turn_recast, ht]; rfl)
      (ih₃ hs₃) (by rw [retreat_recast, hr]; rfl)

theorem iterate_recast (hs : s.problem.Coherent) :
    (s.recast g).iterate = s.iterate.map (Prod.map id (recast g)) := by
  obtain ⟨ms, v, s', h⟩ := exists_explores hs (Nat.lt_succ_self _)
  have hg := h.recast hs g
  rw [h.iterate_and_recurse.1, hg.iterate_and_recurse.1]
  rfl

theorem recurse_recast (hs : s.problem.Coherent) :
    (s.recast g).recurse = s.recurse.map (Prod.map id (recast g)) := by
  obtain ⟨ms, v, s', h⟩ := exists_explores hs (Nat.lt_succ_self _)
  have hg := h.recast hs g
  rw [h.iterate_and_recurse.2, hg.iterate_and_recurse.2]
  rfl

theorem run_recast (hs : s.problem.Coherent) :
    (s.recast g).run = s.run.map (Prod.map id (recast g)) := by
  have hc : (s.recast g).problem.config.search = s.problem.config.search :=
    g.search_config s.problem.config
  unfold run
  rw [hc]
  cases s.problem.config.search.value with
  | iterative => exact iterate_recast hs
  | recursive => exact recurse_recast hs

theorem solve_recast (hs : s.problem.Coherent) :
    (s.recast g).solve = s.solve.map (Prod.map id (recast g)) := by
  have hs' : (s.inPhase .solving).problem.Coherent := coherent_inPhase hs _
  have hi : (s.recast g).inPhase .solving = (s.inPhase .solving).recast g := rfl
  have he : (s.recast g).problem.store.hasEmpty = s.problem.store.hasEmpty :=
    Problem.hasEmpty_recast g s.problem
  unfold solve
  rw [he, hi]
  split
  next => rfl
  next =>
    rw [run_recast hs']
    cases (s.inPhase .solving).run with
    | error fault => rfl
    | ok r =>
      obtain ⟨v, s⟩ := r
      cases v <;> rfl

end Search

namespace Problem

variable {ρ : Type} {p : Problem ρ}

theorem settle_map {f : Problem ρ → Problem ρ} {ε α : Type} {fault : ε → Fault}
    {answer : α → Answer × Problem ρ} {k : α → α} {r r' : Except ε α} (hr : r' = r.map k)
    (h : ∀ a, answer (k a) = Prod.map id f (answer a)) :
    (f p).settle fault answer r' = Prod.map id f (p.settle fault answer r) := by
  rw [hr]
  cases r with
  | error e => rfl
  | ok a => exact h a

variable [Chooser ρ]

theorem perform_recast {o : Operation} (h : p.Coherent) (ho : ∀ c, o ≠ .add c) :
    (p.recast g).perform o = Prod.map id (recast g) (p.perform o) := by
  cases o with
  | add c => exact absurd rfl (ho c)
  | assign a b decision => exact settle_map (assign_recast p a b decision) fun _ ↦ rfl
  | rollback => exact settle_map (rollback_recast p) fun _ ↦ rfl
  | isSatisfied => rw [perform, isSatisfied_recast h]; rfl
  | hasConflict => rw [perform, hasConflict_recast h]; rfl
  | unitLiteral => rw [perform, unitLiteral_recast h]; rfl
  | pureLiterals => rw [perform, pureLiterals_recast h]; rfl
  | chooseDecision => exact settle_map (chooseDecision_recast p) fun _ ↦ rfl
  | propagate => exact settle_map (propagate_recast h) fun _ ↦ rfl
  | assertPure => exact settle_map (assertPure_recast h) fun _ ↦ rfl
  | simplify => exact settle_map (simplify_recast h) fun _ ↦ rfl
  | iterate m => exact settle_map (Search.iterate_recast (s := ⟨p, m⟩) h) fun _ ↦ rfl
  | recurse m => exact settle_map (Search.recurse_recast (s := ⟨p, m⟩) h) fun _ ↦ rfl
  | solve m => exact settle_map (Search.solve_recast (s := ⟨p, m⟩) h) fun _ ↦ rfl

end Problem

namespace TrailSolver

def recast (g : Recast) (s : TrailSolver) : TrailSolver :=
  ⟨g.config s.config, s.problem.recast g, s.monitor⟩

theorem solve_recast [Chooser Pcg] {s : TrailSolver} (h : s.problem.Coherent) :
    (s.recast g).solve = s.solve.map (Prod.map id (recast g)) := by
  have hs := Search.solve_recast (s := ⟨s.problem, s.monitor.start⟩) (g := g) h
  have hg : Search.mk (s.recast g).problem (s.recast g).monitor.start =
      (Search.mk s.problem s.monitor.start).recast g := rfl
  unfold solve
  rw [hg, hs]
  cases (Search.mk s.problem s.monitor.start).solve <;> rfl

end TrailSolver

end Dpll
