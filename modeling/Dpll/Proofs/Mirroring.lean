import Dpll.Proofs.Loading
import Dpll.Proofs.Reachable
import Dpll.Random.Choice
import Mathlib.Data.List.Perm.Subperm

namespace Dpll

namespace Trail

variable {t : Trail} {v : Valuation}

def putAll (t : Trail) (ls : List Literal) : Trail := ls.foldl (·.put · false) t

/-- The trail of what was made true before any decision, and then of each decision with what was made
true until the next. -/
def layered (base : List Literal) (levels : List (Literal × List Literal)) : Trail :=
  levels.foldl (fun t level ↦ (t.put level.1 true).putAll level.2) (({} : Trail).putAll base)

theorem literals_putAll (t : Trail) (ls : List Literal) :
    (t.putAll ls).literals.toList = t.literals.toList ++ ls := by
  induction ls generalizing t with
  | nil => exact (List.append_nil _).symm
  | cons l ls ih =>
    rw [List.append_cons, ← literals_put t l false]
    exact ih (t.put l false)

theorem levelStarts_putAll (t : Trail) (ls : List Literal) :
    (t.putAll ls).levelStarts = t.levelStarts := by
  induction ls generalizing t with
  | nil => rfl
  | cons l ls ih => exact ih (t.put l false)

theorem layered_concat (base : List Literal) (levels : List (Literal × List Literal)) (l : Literal)
    (ls : List Literal) :
    layered base (levels ++ [(l, ls)]) = ((layered base levels).put l true).putAll ls := by
  rw [layered, List.foldl_append]
  rfl

theorem Records.exists_layered (h : t.Records v) :
    ∃ base levels, t = layered base levels ∧ levels.length = t.level := by
  -- The latest level is taken off the trail, and holds a literal as it starts below the depth.
  induction hn : t.level generalizing t v with
  | zero =>
    have hs : t.levelStarts = #[] := Array.size_eq_zero_iff.1 hn
    refine ⟨t.literals.toList, [], eq_of_toList ?_ ?_, rfl⟩
    · rw [layered, List.foldl_nil, literals_putAll]
      rfl
    · rw [layered, List.foldl_nil, levelStarts_putAll, hs]
  | succ n ih =>
    obtain ⟨undone, u, hc⟩ : ∃ undone u, t.closeLevel = some (undone, u) := by
      cases hc : t.closeLevel with
      | none =>
        rw [level, closeLevel_eq_none_iff.1 hc] at hn
        cases hn
      | some r => exact ⟨r.1, r.2, rfl⟩
    obtain ⟨i, hs, hundone, hl⟩ := closeLevel_eq_some hc
    have hi : i < t.literals.toList.length := h.below i (by simp [hs])
    have hlevel : u.level = n := by
      have hlen := congrArg List.length hs
      rw [List.length_append, List.length_singleton, Array.length_toList, Array.length_toList] at hlen
      exact Nat.succ.inj (hlen.symm.trans hn)
    obtain ⟨base, levels, hu, hlevels⟩ := ih (h.close hc) hlevel
    have hdepth : u.depth = i := by
      rw [depth, ← Array.length_toList, hl, List.length_take_of_le (Nat.le_of_lt hi)]
    refine ⟨base, levels ++ [(t.literals.toList[i], t.literals.toList.drop (i + 1))], ?_, ?_⟩
    · rw [layered_concat, ← hu]
      apply eq_of_toList
      · rw [literals_putAll, literals_put, hl, List.append_assoc, List.singleton_append,
          List.getElem_cons_drop, List.take_append_drop]
      · rw [levelStarts_putAll, levelStarts_put_true, hs, hdepth]
    · rw [List.length_append, hlevels, List.length_singleton]

theorem Records.level_le (h : t.Records v) : t.level ≤ t.depth := by
  have hn : t.levelStarts.toList.Nodup := h.increasing.imp Nat.ne_of_lt
  have hs : t.levelStarts.toList ⊆ List.range t.depth := by
    intro i hi
    exact List.mem_range.2 (h.below i hi)
  simpa [level] using (List.subperm_of_subset hn hs).length_le

end Trail

namespace Problem

variable {ρ : Type} {p q : Problem ρ} {n : Nat}

/-- What holds at all times of a problem over the atoms `1` to `n`: its trail and its valuation mirror
each other. -/
structure Mirrored (n : Nat) (p : Problem ρ) : Prop where
  size : p.valuation.size = n + 1
  sentinel : p.valuation.value 0 = some true
  value_iff : ∀ a b, 1 ≤ a → a ≤ n →
    (p.valuation.value a = some b ↔ Literal.ofAtom a b ∈ p.trail.literals.toList)
  nodup : (p.trail.literals.toList.map Literal.atom).Nodup
  atom_le : ∀ l ∈ p.trail.literals.toList, 1 ≤ l.atom ∧ l.atom ≤ n
  depth_le : p.trail.depth ≤ n
  increasing : p.trail.levelStarts.toList.Pairwise (· < ·)
  below : ∀ i ∈ p.trail.levelStarts.toList, i < p.trail.depth
  layered : ∃ base levels, p.trail = .layered base levels ∧ levels.length = p.trail.level
  level_le : p.trail.level ≤ p.trail.depth

theorem Coherent.mirrored (h : p.Coherent) (hs : p.valuation.size = n + 1) : p.Mirrored n where
  size := hs
  sentinel := h.records.sentinel
  value_iff a b h₁ _ := h.records.value_eq_some_iff (Nat.ne_of_gt h₁) b
  nodup := h.records.nodup
  atom_le l hl := by
    have ha := Literal.atom_ne_zero (h.records.ne_zero l hl)
    have hlt := h.records.lt_size hl
    rw [hs] at hlt
    exact ⟨Nat.pos_of_ne_zero ha, Nat.le_of_lt_succ hlt⟩
  depth_le := by
    have hd := h.depth_add
    rw [hs] at hd
    omega
  increasing := h.records.increasing
  below := h.records.below
  layered := h.records.exists_layered
  level_le := h.records.level_le

theorem Changed.size {o : Operation} (h : p.Changed o q) :
    q.valuation.size = p.valuation.size := by
  cases h with
  | advanced _ h => exact h.keeps.size
  | stored => rw [valuation_storeNormal]
  | undone h => exact (keeps_rollback h).size
  | solved hx => exact hx.keeps.size

theorem Changed.depth_le {o : Operation} (h : p.Changed o q) (hq : q.phase = .input) :
    q.trail.depth ≤ p.trail.depth := by
  cases h with
  | advanced _ h => rw [h.paced.trail hq]
  | stored => exact Nat.le_refl _
  | undone h =>
    obtain ⟨undone, trail, hc, rfl⟩ := rollback_eq_ok h
    obtain ⟨i, -, -, hl⟩ := Trail.closeLevel_eq_some hc
    have hlen := congrArg List.length hl
    rw [List.length_take, Array.length_toList] at hlen
    exact Nat.le_trans (Nat.le_of_eq hlen) (Nat.min_le_right _ _)
  | solved hx hs => exact absurd hq (hs ▸ Phase.ofVerdict_ne_input _)

variable [Chooser ρ]

/-- The operation is a solve, or it makes an assignment. A search which undoes all it has assigned has
made a decision at first. -/
inductive Engages (p : Problem ρ) : Operation → Prop
  | solve (m : Monitor) : Engages p (.solve m)
  | deepen {o : Operation} (h : p.trail.depth < (p.perform o).2.trail.depth) : Engages p o
  | iterate {m : Monitor} {v : Verdict} {s : Search ρ} (h : Search.iterate ⟨p, m⟩ = .ok (v, s))
    (hd : m.counters.decisions < s.monitor.counters.decisions) : Engages p (.iterate m)
  | recurse {m : Monitor} {v : Verdict} {s : Search ρ} (h : Search.recurse ⟨p, m⟩ = .ok (v, s))
    (hd : m.counters.decisions < s.monitor.counters.decisions) : Engages p (.recurse m)

theorem Coherent.phase_of_engages {o : Operation} (hp : p.Coherent) (h : p.Engages o) :
    (p.perform o).2.phase ≠ .input := by
  intro hi
  cases h with
  | solve m =>
    obtain ⟨v, s, hs, -⟩ := Search.solve_spec (s := ⟨p, m⟩) hp
    rw [Problem.perform, hs] at hi
    exact Phase.ofVerdict_ne_input v ((Search.phase_of_solve (s := ⟨p, m⟩) hp hs).symm.trans hi)
  | deepen hd => exact Nat.not_lt_of_le ((hp.changed_perform o).depth_le hi) hd
  | @iterate m v s h hd =>
    obtain ⟨ms, _, _, hx⟩ := Search.exists_explores (s := ⟨p, m⟩) hp (Nat.lt_succ_self _)
    cases h.symm.trans hx.iterate_and_recurse.1
    rw [Problem.perform, h] at hi
    exact Nat.ne_of_gt hd (hx.idle hp hi).2
  | @recurse m v s h hd =>
    obtain ⟨ms, _, _, hx⟩ := Search.exists_explores (s := ⟨p, m⟩) hp (Nat.lt_succ_self _)
    cases h.symm.trans hx.iterate_and_recurse.2
    rw [Problem.perform, h] at hi
    exact Nat.ne_of_gt hd (hx.idle hp hi).2

theorem Coherent.size_performAll (hp : p.Coherent) (os : List Operation) :
    (p.performAll os).2.valuation.size = p.valuation.size := by
  induction os generalizing p with
  | nil => rfl
  | cons o os ih => exact (ih (hp.perform o)).trans (hp.changed_perform o).size

theorem atomCount_performAll (n : Nat) (config : Config) (source : ρ) (os : List Operation) :
    ((empty n config source).performAll os).2.atomCount = n := by
  have hsize := (coherent_empty n config source).size_performAll os
  exact congrArg (· - 1) (hsize.trans (Valuation.size_blank n))

/-- Whatever has been asked of a problem, its trail and its valuation mirror each other. Once there was
an assignment or a solve, it has left the input phase, and its clauses stay as they were then. -/
theorem mirrored_performAll (n : Nat) (config : Config) (source : ρ) (os : List Operation) :
    let p := ((empty n config source).performAll os).2
    p.Mirrored n ∧ ∀ before o after, os = before ++ o :: after →
      let q := ((empty n config source).performAll before).2
      q.Engages o → p.phase ≠ .input ∧ p.store.clauses = q.store.clauses := by
  intro p
  have h₀ := coherent_empty n config source
  have hp : p.Coherent := coherent_performAll n config source os
  have hsize : p.valuation.size = n + 1 :=
    (h₀.size_performAll os).trans (Valuation.size_blank n)
  refine ⟨hp.mirrored hsize, ?_⟩
  rintro before o after rfl q he
  have hq : q.Coherent := coherent_performAll n config source before
  have hi := hq.phase_of_engages he
  have hr : p = ((q.perform o).2.performAll after).2 := performAll_append _ before (o :: after)
  obtain ⟨hphase, hclauses⟩ := (hq.perform o).fixed_performAll hi after
  rw [hr]
  exact ⟨hphase, hclauses.trans ((hq.changed_perform o).clauses hi)⟩

theorem mirrored_performAll_two :
    let blank := empty 2 {} (⟨[]⟩ : Script)
    let q := (blank.performAll [.add [1, 2]]).2
    let p := (blank.performAll
      [.add [1, 2], .assign 1 false true, .propagate, .rollback, .add [2]]).2
    p.Mirrored 2 ∧ q.Engages (.assign 1 false true) ∧ p.phase ≠ .input ∧
      p.store.clauses = q.store.clauses ∧ p.trail.depth = 0 := by
  have he : ((empty 2 {} (⟨[]⟩ : Script)).performAll [.add [1, 2]]).2.Engages
      (.assign 1 false true) := .deepen (by decide +kernel)
  have h := mirrored_performAll 2 {} (⟨[]⟩ : Script)
    [.add [1, 2], .assign 1 false true, .propagate, .rollback, .add [2]]
  obtain ⟨hphase, hclauses⟩ := h.2 [.add [1, 2]] _ [.propagate, .rollback, .add [2]] rfl he
  exact ⟨h.1, he, hphase, hclauses, by decide +kernel⟩

end Problem

end Dpll
