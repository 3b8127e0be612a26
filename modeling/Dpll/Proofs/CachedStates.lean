import Dpll.Proofs.Reachable
import Dpll.Random.Choice
import Mathlib.Data.List.Perm.Subperm

namespace Dpll

namespace SatisfactionCache

variable {k : SatisfactionCache} {f : Formula} {ls : List Literal}

theorem Coherent.count_stack (h : k.Coherent f ls) (i : Nat) :
    k.stack.count i = if (k.time i).isSome then 1 else 0 := by
  rw [h.nodup.count]
  exact if_congr ((h.mem_stack i).trans Option.isSome_iff_exists.symm) rfl rfl

theorem Coherent.times_sorted (h : k.Coherent f ls) :
    (k.stack.reverse.filterMap k.time).Pairwise (· ≤ ·) := by
  rw [List.filterMap_reverse, List.pairwise_reverse, List.pairwise_filterMap]
  exact h.ordered.imp fun hij r hr s hs ↦ hij r s hr hs

theorem Coherent.length_stack_le (h : k.Coherent f ls) : k.stack.length ≤ f.length := by
  have hs : k.stack ⊆ List.range f.length := by
    intro i hi
    obtain ⟨r, hr⟩ := (h.mem_stack i).1 hi
    obtain ⟨-, c, hc, -⟩ := h.witness i r hr
    exact List.mem_range.2 (List.getElem?_eq_some_iff.1 hc).1
  simpa using (List.subperm_of_subset h.nodup hs).length_le

end SatisfactionCache

namespace Problem

variable {ρ : Type} {p q : Problem ρ}

/-- What holds of a problem with a cache: the stack holds each clause with a record once, the
records being in order, and by the time of its record a literal of the clause was made true. -/
structure CachesSoundly (p : Problem ρ) (k : SatisfactionCache) : Prop where
  cache : p.store.cache = some k
  once : ∀ i, k.stack.count i = if (k.time i).isSome then 1 else 0
  sorted : (k.stack.reverse.filterMap k.time).Pairwise (· ≤ ·)
  before : ∀ i r, k.time i = some r → r < p.trail.depth
  satisfied : ∀ i r, k.time i = some r →
    ∃ c, p.formula[i]? = some c ∧ ∃ l ∈ c, l ∈ p.trail.literals.toList.take (r + 1)
  length_le : k.stack.length ≤ p.clauseCount
  rollback : ∀ q, p.rollback = .ok q → ∃ k', q.store.cache = some k' ∧
    (∀ i, k'.time i = (k.time i).filter (· < q.trail.depth)) ∧
    k'.stack = k.stack.filter fun i ↦ (k.time i).any (· < q.trail.depth)

theorem Coherent.cachesSoundly (h : p.Coherent) (hs : p.store.cache.isSome) :
    ∃ k, p.CachesSoundly k := by
  obtain ⟨k, hk⟩ := Option.isSome_iff_exists.1 hs
  have hc := h.store k hk
  refine ⟨k, hk, hc.count_stack, hc.times_sorted, ?_, fun i r hr ↦ (hc.witness i r hr).2,
    hc.length_stack_le, ?_⟩
  · intro i r hr
    simpa [Trail.depth] using (hc.witness i r hr).1
  · intro q hq
    obtain ⟨undone, trail, -, rfl⟩ := rollback_eq_ok hq
    refine ⟨k.invalidate trail.depth, ?_, hc.time_invalidate _, hc.stack_invalidate _⟩
    simp [ClauseStore.invalidate, hk]

end Problem

namespace Search

variable {ρ : Type} {s s' : Search ρ} {v : Verdict}

def Move.state : Move ρ → Search ρ
  | .call s => s
  | .turn _ s => s
  | .retreat s => s

theorem Explored.leaves (h : s.Explored v s') : s.problem.Leaves s'.problem :=
  ⟨h.coherent, h.keeps.caching⟩

theorem leaves_of_decided {p q : Problem ρ} {l : Literal} (hp : s.problem.Simplified p)
    (hd : p.Decided l q) : s.problem.Leaves q :=
  ⟨hd.coherent, (hp.keeps.trans hd.keeps).caching⟩

variable [Chooser ρ]

theorem Explores.leaves_state {depth : Nat} {ms : List (Move ρ)} (h : Explores depth s ms v s')
    (hs : s.problem.Coherent) : ∀ move ∈ ms, s.problem.Leaves move.state.problem := by
  induction h with
  | settled h =>
    rintro move (_ | ⟨_, ⟨⟩⟩)
    exact ⟨hs, rfl⟩
  | kept h h₁ hv ih =>
    obtain ⟨p, hp, hd, -⟩ := (stepped_of_step hs h).decision
    rintro move (_ | ⟨_, hm⟩)
    · exact ⟨hs, rfl⟩
    · exact (leaves_of_decided hp hd).trans (ih hd.coherent move hm)
  | turned h h₁ ht h₃ hv ih₁ ih₃ =>
    obtain ⟨p, hp, hd, -⟩ := (stepped_of_step hs h).decision
    have hx₁ := h₁.explored hd.coherent
    obtain ⟨q, ht', hd'⟩ := hx₁.turn hp.coherent hd
    cases ht.symm.trans ht'
    have hl := leaves_of_decided hp hd
    intro move hm
    simp only [List.mem_cons, List.mem_append] at hm
    rcases hm with rfl | hm | rfl | hm
    · exact ⟨hs, rfl⟩
    · exact hl.trans (ih₁ hd.coherent move hm)
    · exact hl.trans hx₁.leaves
    · exact (leaves_of_decided hp hd').trans (ih₃ hd'.coherent move hm)
  | refuted h h₁ ht h₃ hr ih₁ ih₃ =>
    obtain ⟨p, hp, hd, -⟩ := (stepped_of_step hs h).decision
    have hx₁ := h₁.explored hd.coherent
    obtain ⟨q, ht', hd'⟩ := hx₁.turn hp.coherent hd
    cases ht.symm.trans ht'
    have hl := leaves_of_decided hp hd
    have hl' := leaves_of_decided hp hd'
    intro move hm
    simp only [List.mem_cons, List.mem_append, List.not_mem_nil, or_false] at hm
    rcases hm with rfl | hm | rfl | hm | rfl
    · exact ⟨hs, rfl⟩
    · exact hl.trans (ih₁ hd.coherent move hm)
    · exact hl.trans hx₁.leaves
    · exact hl'.trans (ih₃ hd'.coherent move hm)
    · exact hl'.trans (h₃.explored hd'.coherent).leaves

theorem cachesSoundly_state (hs : s.problem.Coherent) (hc : s.problem.store.cache.isSome)
    {move : Move ρ}
    (hm : move ∈ (iterateLogged (callBound (s.problem.unvalued + 1)) [] s).moves ∨
      move ∈ (recurseLogged (s.problem.unvalued + 1) s).moves) :
    ∃ k, move.state.problem.CachesSoundly k := by
  obtain ⟨ms, v, s', hx⟩ := exists_explores hs (Nat.lt_succ_self _)
  rw [hx.iterateLogged_of_le (Nat.le_refl _), hx.recurseLogged, or_self] at hm
  have hl := hx.leaves_state hs move hm
  exact hl.coherent.cachesSoundly (hl.caching.trans hc)

end Search

namespace Problem

variable {ρ : Type} [Chooser ρ]

/-- Whatever has been asked of a problem which caches satisfied clauses, its cache is sound. It is so
in every state in which a search from there makes a move. -/
theorem cachesSoundly_performAll (n : Nat) (config : Config) (source : ρ) (os : List Operation)
    (hc : config.cachesSatisfaction) :
    let p := ((empty n config source).performAll os).2
    (∃ k, p.CachesSoundly k) ∧
      ∀ (phase : Phase) (m : Monitor) (move : Search.Move ρ),
        (move ∈ (Search.iterateLogged (Search.callBound (p.unvalued + 1)) []
            ⟨{ p with phase }, m⟩).moves ∨
          move ∈ (Search.recurseLogged (p.unvalued + 1) ⟨{ p with phase }, m⟩).moves) →
        ∃ k, move.state.problem.CachesSoundly k := by
  intro p
  have hl := (coherent_empty n config source).leaves_performAll os
  have hp : p.store.cache.isSome := by
    rw [hl.caching]
    simp [empty, ClauseStore.empty, hc]
  refine ⟨hl.coherent.cachesSoundly hp, ?_⟩
  intro phase m move hm
  have hs : ({ p with phase } : Problem ρ).Coherent :=
    ⟨hl.coherent.records, hl.coherent.normal, hl.coherent.store⟩
  exact Search.cachesSoundly_state (s := ⟨{ p with phase }, m⟩) hs hp hm

theorem cachesSoundly_performAll_two :
    let config : Config := .forSolver .cached
    let p := ((empty 2 config (⟨[]⟩ : Script)).performAll
      [.add [1], .add [1, 2], .add [2], .assign 1 true false, .isSatisfied, .assign 2 true true,
        .isSatisfied]).2
    config.cachesSatisfaction ∧ (∃ k, p.CachesSoundly k) ∧
      p.store.cache.map (·.stack) = some [2, 1, 0] ∧
      (p.rollback.toOption.bind (·.store.cache)).map (·.stack) = some [1, 0] :=
  ⟨by decide, (cachesSoundly_performAll 2 (.forSolver .cached) (⟨[]⟩ : Script)
    [.add [1], .add [1, 2], .add [2], .assign 1 true false, .isSatisfied, .assign 2 true true,
      .isSatisfied] (by decide)).1, by decide +kernel, by decide +kernel⟩

end Problem

end Dpll
