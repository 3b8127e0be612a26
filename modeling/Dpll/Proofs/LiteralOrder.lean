import Dpll.Proofs.Recasting
import Mathlib.Data.List.Perm.Basic

namespace Dpll

theorem Literal.ne_negate {l : Literal} (hl : l ≠ 0) : l ≠ l.negate := by
  intro h
  have hp := Literal.positive_negate hl
  rw [← h] at hp
  simp at hp

def Clause.Clashes (c : Clause) : Prop := ∃ l ∈ c, l.negate ∈ c

instance : DecidablePred Clause.Clashes :=
  fun c ↦ inferInstanceAs (Decidable (∃ l ∈ c, l.negate ∈ c))

/-- Formulas which have the same literals in each clause, once the clauses that clash are left out.
The order of the literals may differ, and how often each occurs. -/
def Formula.Alike (f g : Formula) : Prop :=
  List.Forall₂ (fun c d ↦ ∀ l, l ∈ c ↔ l ∈ d) (f.filter (¬ ·.Clashes)) (g.filter (¬ ·.Clashes))

def Recast.sorted : Recast where
  config c := { c with sortClauses := ({} : Config).sortClauses }
  clause := .sortByAtom
  heuristic_config _ := rfl
  search_config _ := rfl
  perm_clause := Clause.perm_sortByAtom

namespace Clause

variable {n : Nat} {c d : Clause} {sort sort' : Bool}

theorem normal?_eq_none_iff (hf : c.fault? n = none) : c.normal? sort = none ↔ c.Clashes := by
  unfold normal?
  split
  next d h =>
    refine iff_of_false nofun ?_
    rintro ⟨l, hl, hn⟩
    -- a literal and its negation would share their atom, which no stored clause has twice
    have hd := normal_of_normalize hf h
    have hl := (mem_normalize h l).2 hl
    have he := List.inj_on_of_nodup_map hd.nodup hl ((mem_normalize h _).2 hn)
      (Literal.atom_negate l).symm
    exact Literal.ne_negate (hd.ne_zero l hl) he
  next e h =>
    refine iff_of_true rfl ?_
    unfold normalize at h
    split at h
    next => cases h
    next e he =>
      obtain ⟨l, hl, hn⟩ := exists_of_distinct_tautology he
      exact ⟨l, hl, hn.resolve_left List.not_mem_nil⟩

theorem exists_normal? (sort : Bool) (hf : c.fault? n = none) (hc : ¬ c.Clashes) :
    ∃ d, c.normal? sort = some d := by
  rw [← Option.ne_none_iff_exists']
  exact mt (normal?_eq_none_iff hf).1 hc

theorem nodup_normal? (h : c.normal? sort = some d) : (d.map Literal.atom).Nodup := by
  obtain ⟨e, he, hp⟩ := normalize_eq_clause (normal?_eq_some_iff.1 h)
  exact (hp.map _).nodup_iff.2 (nodup_distinct he List.nodup_nil)

theorem perm_normal? {c' d' : Clause} (hl : ∀ l, l ∈ c ↔ l ∈ d) (hc : c.normal? sort = some c')
    (hd : d.normal? sort' = some d') : c'.Perm d' := by
  have hnc := (nodup_normal? hc).of_map _
  have hnd := (nodup_normal? hd).of_map _
  refine (List.perm_ext_iff_of_nodup hnc hnd).2 fun l ↦ ?_
  rw [mem_normalize (normal?_eq_some_iff.1 hc), hl, mem_normalize (normal?_eq_some_iff.1 hd)]

end Clause

namespace Formula

variable {n : Nat} {f g : Formula} {sort sort' : Bool}

theorem normals_filter (hf : ∀ c ∈ f, c.fault? n = none) :
    normals sort (f.filter (¬ ·.Clashes)) = f.normals sort := by
  rw [normals, normals, List.filterMap_filter]
  apply List.filterMap_congr
  intro c hc
  by_cases hclash : c.Clashes
  · simp [hclash, (Clause.normal?_eq_none_iff (hf c hc)).2 hclash]
  · simp [hclash]

theorem forall₂_normals (h : List.Forall₂ (fun c d ↦ ∀ l, l ∈ c ↔ l ∈ d) f g)
    (hf : ∀ c ∈ f, c.fault? n = none ∧ ¬ c.Clashes) (hg : ∀ c ∈ g, c.fault? n = none ∧ ¬ c.Clashes) :
    List.Forall₂ List.Perm (f.normals sort) (g.normals sort') := by
  induction h with
  | nil => exact .nil
  | cons hl _ ih =>
    obtain ⟨⟨hc, hf⟩, ⟨hd, hg⟩⟩ := List.forall_mem_cons.1 hf, List.forall_mem_cons.1 hg
    obtain ⟨c', hc'⟩ := Clause.exists_normal? sort hc.1 hc.2
    obtain ⟨d', hd'⟩ := Clause.exists_normal? sort' hd.1 hd.2
    rw [normals, normals, List.filterMap_cons_some hc', List.filterMap_cons_some hd']
    exact .cons (Clause.perm_normal? hl hc' hd') (ih hf hg)

theorem Alike.normals (h : f.Alike g) (hf : ∀ c ∈ f, c.fault? n = none)
    (hg : ∀ c ∈ g, c.fault? n = none) :
    List.Forall₂ List.Perm (f.normals sort) (g.normals sort') := by
  have hp {f : Formula} (hf : ∀ c ∈ f, c.fault? n = none) :
      ∀ c ∈ f.filter (¬ ·.Clashes), c.fault? n = none ∧ ¬ c.Clashes := by
    intro c hc
    obtain ⟨hc, hn⟩ := List.mem_filter.1 hc
    exact ⟨hf c hc, of_decide_eq_true hn⟩
  rw [← normals_filter hf, ← normals_filter hg]
  exact forall₂_normals h (hp hf) (hp hg)

end Formula

namespace Occurrences

theorem note_note (o : Occurrences) (b b' : Bool) : (o.note b).note b' = (o.note b').note b := by
  cases b <;> cases b' <;> rfl

end Occurrences

theorem AtomTable.note_note (t : AtomTable) (l m : Literal) :
    (t.note l).note m = (t.note m).note l := by
  have hmodify (xs : Array Occurrences) (a a' : Atom) (b b' : Bool) :
      (xs.modify a (·.note b)).modify a' (·.note b') =
        (xs.modify a' (·.note b')).modify a (·.note b) := by
    apply Array.ext (by simp)
    intro i hi hi'
    simp only [Array.getElem_modify]
    split <;> split <;> simp [Occurrences.note_note]
  simp only [note, hmodify]

theorem AtomTable.noteAll_perm (t : AtomTable) {c d : Clause} (h : c.Perm d) :
    t.noteAll c = t.noteAll d :=
  h.foldl_eq' (fun l _ m _ t ↦ note_note t l m) t

namespace Problem

variable {ρ : Type} {p q : Problem ρ} {f g : Formula}

theorem storeNormal_sorted {c d : Clause} (h : p.recast .sorted = q.recast .sorted) (hp : c.Perm d)
    (hn : (c.map Literal.atom).Nodup) :
    (p.storeNormal c).recast .sorted = (q.storeNormal d).recast .sorted := by
  have hs (r : Problem ρ) (e : Clause) : (r.storeNormal e).recast .sorted =
      { r.recast .sorted with
        atoms := (r.recast .sorted).atoms.noteAll e
        store := (r.recast .sorted).store.push e.sortByAtom } := by
    obtain ⟨config, phase, atoms, store, trail, source⟩ := r
    simp [recast, storeNormal, ClauseStore.push, Recast.sorted]
  rw [hs, hs, h, AtomTable.noteAll_perm _ hp, Clause.sortByAtom_eq_of_perm hp hn]

theorem storeAll_sorted (h : p.recast .sorted = q.recast .sorted)
    (hp : List.Forall₂ List.Perm f g) (hn : ∀ c ∈ f, (c.map Literal.atom).Nodup) :
    (p.storeAll f).recast .sorted = (q.storeAll g).recast .sorted := by
  induction hp generalizing p q with
  | nil => exact h
  | cons hc _ ih =>
    obtain ⟨hn, hf⟩ := List.forall_mem_cons.1 hn
    exact ih (storeNormal_sorted h hc hn) hf

end Problem

namespace TrailSolver

variable {n t t' : Nat} {p q : Problem Pcg} {s s' s₀ : TrailSolver} {cs ds : List Clause}
  {info info' : Loaded}

theorem eq_of_load [Storage] (h : s₀.load (⟨n, cs⟩ : ClauseList) = .ok (info, s)) :
    s = { s₀ with problem :=
      (Problem.seeded n s₀.config).storeAll (Formula.normals s₀.config.sortClauses.value cs) } := by
  obtain ⟨f, hr, rfl⟩ := load_eq_ok h
  obtain ⟨hheader, -, -, -, -, hf⟩ := ClauseSource.reading_eq_ok hr
  rw [hf, ← Except.ok.inj hheader, ClauseList.clauses_eq]

theorem exists_solve [Chooser Pcg] (h : s.problem.Coherent) : ∃ r s', s.solve = .ok (r, s') := by
  obtain ⟨v, s', hs, -⟩ := Search.solve_spec (s := ⟨s.problem, s.monitor.start⟩) h
  rw [solve, hs]
  exact ⟨_, _, rfl⟩

theorem solve_of_recast [Chooser Pcg] {g : Recast} (hs : s.problem.Coherent) (hs' : s'.problem.Coherent)
    (h : s.recast g = s'.recast g) :
    ∃ r u u', s.solve = .ok (r, u) ∧ s'.solve = .ok (r, u') ∧ u.recast g = u'.recast g := by
  obtain ⟨r, u, hu⟩ := exists_solve hs
  obtain ⟨r', u', hu'⟩ := exists_solve hs'
  have hr := solve_recast (g := g) hs
  rw [h, solve_recast hs', hu, hu'] at hr
  obtain ⟨rfl, he⟩ := Prod.mk.inj (Except.ok.inj hr)
  exact ⟨r', u, u', hu, hu', he.symm⟩

/-- A solve depends just on which literals the clauses have, and not on their order, on how often each
occurs or on clauses which clash. Nor does it matter whether clauses are sorted. -/
theorem solve_of_alike [Storage] [Chooser Pcg] (config : Config) (sort : Setting Bool)
    (p q : Problem Pcg) (m : Monitor)
    (hcs : ∀ c ∈ cs, c.fault? n = none) (hds : ∀ d ∈ ds, d.fault? n = none)
    (hroom : Formula.storageFault? cs.length = none)
    (hroom' : Formula.storageFault? ds.length = none) (h : Formula.Alike cs ds) :
    ∃ info s info' s' r u u',
      (TrailSolver.mk config p m).load (⟨n, cs⟩ : ClauseList) = .ok (info, s) ∧
      (TrailSolver.mk { config with sortClauses := sort } q m).load (⟨n, ds⟩ : ClauseList) =
        .ok (info', s') ∧
      s.solve = .ok (r, u) ∧ s'.solve = .ok (r, u') ∧ u.monitor = u'.monitor ∧
      u.problem.trail = u'.problem.trail ∧ u.problem.valuation = u'.problem.valuation := by
  obtain ⟨info, s, hs⟩ := exists_load n cs ⟨config, p, m⟩ hcs hroom
  obtain ⟨info', s', hs'⟩ :=
    exists_load n ds ⟨{ config with sortClauses := sort }, q, m⟩ hds hroom'
  have hstore : s.problem.recast .sorted = s'.problem.recast .sorted := by
    rw [eq_of_load hs, eq_of_load hs']
    refine Problem.storeAll_sorted rfl (h.normals hcs hds) ?_
    intro d hd
    obtain ⟨c, -, hc⟩ := List.mem_filterMap.1 hd
    exact Clause.nodup_normal? hc
  have hrecast : s.recast .sorted = s'.recast .sorted := by
    rw [recast, recast, hstore, eq_of_load hs, eq_of_load hs']
    rfl
  obtain ⟨r, u, u', hu, hu', he⟩ :=
    solve_of_recast (coherent_of_load hs) (coherent_of_load hs') hrecast
  have hproblem : u.problem.recast .sorted = u'.problem.recast .sorted :=
    congrArg TrailSolver.problem he
  exact ⟨info, s, info', s', r, u, u', hs, hs', hu, hu', (congrArg TrailSolver.monitor he :),
    (congrArg Problem.trail hproblem :), (congrArg Problem.valuation hproblem :)⟩

theorem solve_of_alike_three :
    ∃ r u u' s s' info info',
      (ofConfig {} fun _ ↦ 0).load (⟨3, [[1, 2], [-1, 3], [-2, -3]]⟩ : ClauseList) =
        .ok (info, s) ∧
      (ofConfig { sortClauses := ⟨"sort_clauses", false, true, false⟩ } fun _ ↦ 0).load
        (⟨3, [[2, 1, 2], [3, 1, -3], [3, -1], [-3, -2]]⟩ : ClauseList) = .ok (info', s') ∧
      s.solve = .ok (r, u) ∧ s'.solve = .ok (r, u') ∧ u.problem.trail = u'.problem.trail := by
  have ha : Formula.Alike [[1, 2], [-1, 3], [-2, -3]] [[2, 1, 2], [3, 1, -3], [3, -1], [-3, -2]] :=
    .cons (by grind) (.cons (by grind) (.cons (by grind) .nil))
  obtain ⟨info, s, info', s', r, u, u', hs, hs', hu, hu', -, ht, -⟩ :=
    solve_of_alike (n := 3) {} ⟨"sort_clauses", false, true, false⟩ (.seeded 0 {}) (.seeded 0 {})
      (.ofConfig {} fun _ ↦ 0) (by decide) (by decide) (by decide) (by decide) ha
  exact ⟨r, u, u', s, s', info, info', hs, hs', hu, hu', ht⟩

end TrailSolver

end Dpll
