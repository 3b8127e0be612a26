import Dpll.Problem
import Dpll.Proofs.Normal
import Dpll.Proofs.Scan
import Dpll.Proofs.Trail

namespace Dpll

@[simp] theorem AtomTable.valuation_noteAll (t : AtomTable) (ls : List Literal) :
    (t.noteAll ls).valuation = t.valuation := by
  induction ls generalizing t with
  | nil => rfl
  | cons l ls ih => exact ih (t.note l)

@[simp] theorem AtomTable.occurrences_clearAll (t : AtomTable) (ls : List Literal) :
    (t.clearAll ls).occurrences = t.occurrences := by
  induction ls generalizing t with
  | nil => rfl
  | cons l ls ih => exact ih (t.clear l.atom)

namespace Problem

variable {ρ : Type} {p q r : Problem ρ} {c : Clause} {l : Literal} {decision : Bool}

/-- What holds of a problem at all times: the trail records the valuation, the clauses are
normalized, and the cache is coherent with the trail. -/
structure Coherent (p : Problem ρ) : Prop where
  records : p.trail.Records p.valuation
  normal : ∀ c ∈ p.formula, c.Normal p.atomCount
  store : p.store.Coherent p.trail.literals.toList

def put (p : Problem ρ) (l : Literal) (decision : Bool) : Problem ρ :=
  { p with
    phase := p.phase.afterAssignment
    atoms := { p.atoms with valuation := p.valuation.make l }
    trail := p.trail.put l decision }

theorem assert_of_free (h : p.valuation.Free l) (decision : Bool) :
    p.assert l decision = .ok (p.put l decision) := by
  have ha := Valuation.assign_of_free h
  obtain ⟨config, phase, ⟨v, occurrences⟩, store, trail, source⟩ := p
  simp only [valuation] at ha
  simp only [assert, assign, AtomTable.assign, ha, Literal.ofAtom_atom_positive]
  rfl

theorem assign_eq_ok {a : Atom} {b : Bool} (h : p.assign a b decision = .ok q) :
    p.valuation.Free (.ofAtom a b) ∧ q = p.put (.ofAtom a b) decision := by
  have hf : p.valuation.Free (.ofAtom a b) := by
    obtain ⟨config, phase, atoms, store, trail, source⟩ := p
    simp only [assign] at h
    split at h
    next => cases h
    next hatoms => exact (Valuation.free_of_assign (AtomTable.assign_eq_ok hatoms)).1
  have ha : a ≠ 0 := by simpa using (Valuation.contains_iff.1 hf.1).1
  have hp := assert_of_free hf decision
  rw [assert, Literal.atom_ofAtom, Literal.positive_ofAtom ha, h] at hp
  exact ⟨hf, Except.ok.inj hp⟩

theorem rollback_of_closeLevel {undone : List Literal} {trail : Trail}
    (h : p.trail.closeLevel = some (undone, trail)) :
    p.rollback = .ok { p with
      atoms := p.atoms.clearAll undone
      store := p.store.invalidate trail.depth
      trail } := by
  unfold rollback
  rw [h]

theorem rollback_eq_ok (h : p.rollback = .ok q) :
    ∃ undone trail, p.trail.closeLevel = some (undone, trail) ∧ q = { p with
      atoms := p.atoms.clearAll undone
      store := p.store.invalidate trail.depth
      trail } := by
  unfold rollback at h
  split at h
  next => cases h
  next undone trail hc => exact ⟨undone, trail, hc, (Except.ok.inj h).symm⟩

theorem rollback_eq_error_iff {fault : ProblemFault} :
    p.rollback = .error fault ↔ p.trail.level = 0 ∧ fault = .noDecision := by
  rw [Trail.level, Array.size_eq_zero_iff, ← Trail.closeLevel_eq_none_iff, rollback]
  split
  next h => simp [h, eq_comm]
  next h => simp [h]

/-- The configuration, the clauses and the occurrences are the same, and so is the number of
atoms. There is a cache just if there was one. -/
structure Keeps (p q : Problem ρ) : Prop where
  config : q.config = p.config
  clauses : q.store.clauses = p.store.clauses
  caching : q.store.cache.isSome = p.store.cache.isSome
  occurrences : q.atoms.occurrences = p.atoms.occurrences
  size : q.valuation.size = p.valuation.size

theorem Keeps.refl (p : Problem ρ) : p.Keeps p := ⟨rfl, rfl, rfl, rfl, rfl⟩

theorem Keeps.trans (h : p.Keeps q) (h' : q.Keeps r) : p.Keeps r :=
  ⟨h'.config.trans h.config, h'.clauses.trans h.clauses, h'.caching.trans h.caching,
    h'.occurrences.trans h.occurrences, h'.size.trans h.size⟩

theorem Keeps.formula (h : p.Keeps q) : q.formula = p.formula := congrArg Array.toList h.clauses

theorem keeps_put (p : Problem ρ) (l : Literal) (decision : Bool) :
    p.Keeps (p.put l decision) :=
  ⟨rfl, rfl, rfl, rfl, Valuation.size_make p.valuation l⟩

theorem keeps_rollback (h : p.rollback = .ok q) : p.Keeps q := by
  obtain ⟨undone, trail, -, rfl⟩ := rollback_eq_ok h
  refine ⟨rfl, rfl, Option.isSome_map, AtomTable.occurrences_clearAll _ _, ?_⟩
  exact (congrArg Array.size (AtomTable.valuation_clearAll _ _)).trans (Valuation.size_clearAll _ _)

theorem Coherent.depth_add (h : p.Coherent) :
    p.trail.depth + p.unvalued + 1 = p.valuation.size := h.records.depth_add

theorem Coherent.unvalued_le (hp : p.Coherent) (hq : q.Coherent) (hk : p.Keeps q)
    (ht : p.trail.Before q.trail) : q.unvalued ≤ p.unvalued := by
  have hs := hk.size
  have hd := ht.depth_le
  rw [← hp.depth_add, ← hq.depth_add] at hs
  omega

theorem Coherent.extended_of_before (hp : p.Coherent) (hq : q.Coherent) (hk : p.Keeps q)
    (ht : p.trail.Before q.trail) {M : Model} (hM : q.valuation.Extended M) :
    p.valuation.Extended M := by
  intro a b hc hv
  have ha := (Valuation.contains_iff.1 hc).1
  have hl := ht.literals.subset ((hp.records.value_eq_some_iff ha b).1 hv)
  refine hM a b ?_ ((hq.records.value_eq_some_iff ha b).2 hl)
  rw [Valuation.contains_iff, hk.size, ← Valuation.contains_iff]
  exact hc

theorem Coherent.size_pos (h : p.Coherent) : 0 < p.valuation.size :=
  Valuation.lt_size_of_value h.records.sentinel

theorem Coherent.ne_zero (h : p.Coherent) (hc : c ∈ p.formula) : ∀ l ∈ c, l ≠ 0 :=
  (h.normal c hc).ne_zero

theorem Coherent.contains (h : p.Coherent) (hc : c ∈ p.formula) (hl : l ∈ c) :
    p.valuation.contains l.atom := by
  have hle : l.atom ≤ p.valuation.size - 1 := (h.normal c hc).atom_le l hl
  exact Valuation.contains_iff.2
    ⟨Literal.atom_ne_zero (h.ne_zero hc l hl), Nat.lt_of_le_pred h.size_pos hle⟩

theorem Coherent.free (h : p.Coherent) (hc : c ∈ p.formula) (hl : l ∈ c)
    (ht : p.valuation.truth l = none) : p.valuation.Free l :=
  ⟨h.contains hc hl, Valuation.truth_eq_none_iff.1 ht⟩

theorem Coherent.tracked (h : p.Coherent) :
    p.store.Tracked p.valuation p.trail.literals.toList :=
  fun _ hc _ hl ↦ h.records.true_iff (h.ne_zero hc _ hl)

theorem coherent_empty (n : Nat) (config : Config) (source : ρ) :
    (empty n config source).Coherent where
  records := Trail.records_blank n
  normal c hc := by
    have hn : c ∈ ([] : Formula) := hc
    cases hn
  store k hk := by
    have he : (ClauseStore.empty config.cachesSatisfaction).cache = some k := hk
    unfold ClauseStore.empty at he
    split at he
    next =>
      cases he
      exact SatisfactionCache.coherent_empty _
    next => cases he

theorem Coherent.put (h : p.Coherent) (hl : p.valuation.Free l) (decision : Bool) :
    (p.put l decision).Coherent where
  records := h.records.put hl decision
  normal c hc := by
    have hs : (p.put l decision).atomCount = p.atomCount :=
      congrArg (· - 1) (Valuation.size_make p.valuation l)
    rw [hs]
    exact h.normal c hc
  store k hk := by
    have hp : p.trail.literals.toList <+: (p.put l decision).trail.literals.toList := by
      simp [Problem.put]
    exact (h.store k hk).mono hp

theorem Coherent.assign (h : p.Coherent) {a : Atom} {b : Bool}
    (hq : p.assign a b decision = .ok q) : q.Coherent := by
  obtain ⟨hl, rfl⟩ := assign_eq_ok hq
  exact h.put hl decision

theorem Coherent.rollback (h : p.Coherent) (hq : p.rollback = .ok q) : q.Coherent := by
  obtain ⟨undone, trail, hc, rfl⟩ := rollback_eq_ok hq
  constructor
  case records =>
    have hr := h.records.close hc
    rwa [Problem.valuation, ← AtomTable.valuation_clearAll] at hr
  case normal =>
    intro c hc'
    have hs : (p.atoms.clearAll undone).count = p.atoms.count := by
      simp [AtomTable.count, Valuation.atomCount, AtomTable.valuation_clearAll]
    have hn := h.normal c hc'
    rwa [atomCount, ← hs] at hn
  case store =>
    intro k hk
    obtain ⟨k₀, hk₀, rfl⟩ := Option.map_eq_some_iff.1 hk
    obtain ⟨i, hs, -, hl⟩ := Trail.closeLevel_eq_some hc
    have hi : i ≤ p.trail.literals.toList.length := by
      have hb := h.records.below i (by simp [hs])
      exact Nat.le_of_lt (by simpa [Trail.depth] using hb)
    have hd : trail.depth = i := by
      rw [Trail.depth, ← Array.length_toList, hl, List.length_take_of_le hi]
    change (k₀.invalidate trail.depth).Coherent p.formula trail.literals.toList
    rw [hl, hd]
    exact (h.store k₀ hk₀).invalidate hi

structure Restores (p q : Problem ρ) : Prop where
  coherent : q.Coherent
  keeps : p.Keeps q
  trail : q.trail = p.trail
  valuation : q.valuation = p.valuation

/-- A problem with the trail and the valuation which a decision makes of those of another. -/
structure Decided (p : Problem ρ) (l : Literal) (q : Problem ρ) : Prop where
  free : p.valuation.Free l
  coherent : q.Coherent
  keeps : p.Keeps q
  trail : q.trail = p.trail.put l true
  valuation : q.valuation = p.valuation.make l

theorem Restores.put (h : p.Restores q) (hl : p.valuation.Free l) :
    p.Decided l (q.put l true) where
  free := hl
  coherent := h.coherent.put (h.valuation ▸ hl) true
  keeps := h.keeps.trans (keeps_put q l true)
  trail := congrArg (·.put l true) h.trail
  valuation := congrArg (·.make l) h.valuation

theorem Decided.unvalued (hp : p.Coherent) (h : p.Decided l q) : q.unvalued + 1 = p.unvalued := by
  have hs := h.keeps.size
  have hd := h.coherent.depth_add
  rw [h.trail, Trail.depth_put, hs, ← hp.depth_add] at hd
  omega

theorem Decided.rollback (hp : p.Coherent) (h : p.Decided l q) (hr : r.Coherent) (hk : q.Keeps r)
    (hg : q.trail.Grows r.trail) : ∃ s, r.rollback = .ok s ∧ p.Restores s := by
  rw [h.trail] at hg
  obtain ⟨undone, hc⟩ := Trail.closeLevel_of_grows hg
  have hs := rollback_of_closeLevel hc
  have hps := (h.keeps.trans hk).trans (keeps_rollback hs)
  have hcs := hr.rollback hs
  exact ⟨_, hs, hcs, hps, rfl, hcs.records.valuation_eq hp.records hps.size⟩

theorem Coherent.storeNormal (h : p.Coherent) (hc : c.Normal p.atomCount) :
    (p.storeNormal c).Coherent := by
  obtain ⟨config, phase, atoms, store, trail, source⟩ := p
  have hv : (atoms.noteAll c).valuation = atoms.valuation := AtomTable.valuation_noteAll _ _
  have hf : (store.push c).formula = store.formula ++ [c] := by
    simp [ClauseStore.push, ClauseStore.formula]
  constructor
  case records =>
    exact (congrArg trail.Records hv).mpr h.records
  case normal =>
    intro d hd
    have hn : (atoms.noteAll c).count = atoms.count := congrArg Valuation.atomCount hv
    change d ∈ (store.push c).formula at hd
    change d.Normal (atoms.noteAll c).count
    rw [hn]
    rw [hf, List.mem_append, List.mem_singleton] at hd
    rcases hd with hd | rfl
    · exact h.normal d hd
    · exact hc
  case store =>
    intro k hk
    obtain ⟨k₀, hk₀, rfl⟩ := Option.map_eq_some_iff.1 hk
    change k₀.extend.Coherent (store.push c).formula trail.literals.toList
    rw [hf]
    exact (h.store k₀ hk₀).extend c

theorem add_eq_ok {a : Addition} (h : p.add c = .ok (a, q)) :
    p.phase = .input ∧ c.fault? p.atomCount = none ∧
    ((∃ d, c.normalize p.config.sortClauses.value = .tautology d ∧ a = .tautology ∧ q = p) ∨
      ∃ d, c.normalize p.config.sortClauses.value = .clause d ∧ a = .stored ∧
        q = p.storeNormal d) := by
  unfold add at h
  split at h
  next => cases h
  next hp =>
    split at h
    next => cases h
    next hf =>
      refine ⟨not_not.1 hp, hf, ?_⟩
      split at h
      next d hd =>
        cases h
        exact .inl ⟨d, hd, rfl, rfl⟩
      next d hd =>
        cases h
        exact .inr ⟨d, hd, rfl, rfl⟩

theorem Coherent.add (h : p.Coherent) {a : Addition} (hq : p.add c = .ok (a, q)) :
    q.Coherent := by
  obtain ⟨-, hf, ⟨d, -, -, rfl⟩ | ⟨d, hd, -, rfl⟩⟩ := add_eq_ok hq
  · exact h
  · exact h.storeNormal (Clause.normal_of_normalize hf hd)

theorem Coherent.withStore (h : p.Coherent) {store : ClauseStore}
    (hs : ClauseStore.Examined p.trail.literals.toList p.store store) :
    ({ p with store } : Problem ρ).Coherent where
  records := h.records
  normal c hc := h.normal c (Eq.mp (congrArg (c ∈ ·) hs.formula) hc)
  store := hs.coherent

end Problem

end Dpll
