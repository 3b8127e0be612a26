import Dpll.Problem.Decision
import Dpll.Proofs.Coherence

namespace Dpll

theorem AtomTable.exists_of_greediest_some (t : AtomTable) (as : List Atom) (l : Literal)
    (count : Nat) :
    ∃ m, t.greediest (some l) count as = some m ∧ (m = l ∨ ∃ a ∈ as, ∃ b, m = .ofAtom a b) := by
  induction as generalizing l count with
  | nil => exact ⟨l, rfl, .inl rfl⟩
  | cons a as ih =>
    unfold greediest
    dsimp only
    split
    · obtain ⟨m, hm, h⟩ := ih (.ofAtom a (t.occurrencesOf a).leaning) (t.occurrencesOf a).most
      refine ⟨m, hm, .inr ?_⟩
      rcases h with rfl | ⟨x, hx, b, rfl⟩
      · exact ⟨a, .head _, _, rfl⟩
      · exact ⟨x, .tail _ hx, b, rfl⟩
    · obtain ⟨m, hm, h⟩ := ih l count
      refine ⟨m, hm, h.imp_right ?_⟩
      rintro ⟨x, hx, b, rfl⟩
      exact ⟨x, .tail _ hx, b, rfl⟩

theorem AtomTable.exists_of_greediest (t : AtomTable) {as : List Atom} (h : as ≠ []) :
    ∃ a ∈ as, ∃ b, t.greediest none 0 as = some (.ofAtom a b) := by
  cases as with
  | nil => exact absurd rfl h
  | cons a as =>
    unfold greediest
    obtain ⟨m, hm, rfl | ⟨x, hx, b, rfl⟩⟩ := t.exists_of_greediest_some as
      (.ofAtom a (t.occurrencesOf a).leaning) (t.occurrencesOf a).most
    · exact ⟨a, .head _, _, hm⟩
    · exact ⟨x, .tail _ hx, b, hm⟩

theorem Valuation.mem_unvalued {v : Valuation} {a : Atom} :
    a ∈ v.unvalued ↔ a < v.size ∧ v.value a = none := by
  rw [unvalued, Atom.collect_eq_filterMap, List.mem_filterMap]
  constructor
  · rintro ⟨x, hx, ha⟩
    split at ha
    next hn =>
      cases ha
      exact ⟨List.mem_range.1 hx, Option.isNone_iff_eq_none.1 hn⟩
    next => cases ha
  · rintro ⟨hs, hn⟩
    exact ⟨a, List.mem_range.2 hs, by rw [hn]; rfl⟩

namespace Problem

variable {ρ : Type} {p q : Problem ρ} {l : Literal}

theorem Coherent.free_of_mem_unvalued (h : p.Coherent) {a : Atom} (ha : a ∈ p.valuation.unvalued)
    (b : Bool) : p.valuation.Free (.ofAtom a b) := by
  obtain ⟨hs, hn⟩ := Valuation.mem_unvalued.1 ha
  have h₀ : a ≠ 0 := by
    rintro rfl
    have hz := h.records.sentinel
    rw [hn] at hz
    cases hz
  constructor
  · rw [Literal.atom_ofAtom]
    exact Valuation.contains_iff.2 ⟨h₀, hs⟩
  · rwa [Literal.atom_ofAtom]

theorem unvalued_ne_nil_of_free (h : p.valuation.Free l) : p.valuation.unvalued ≠ [] :=
  List.ne_nil_of_mem (Valuation.mem_unvalued.2 ⟨(Valuation.contains_iff.1 h.1).2, h.2⟩)

variable [Chooser ρ]

/-- Every heuristic decides on a literal without a value, unless there is none, and changes nothing
but the source of random choices. -/
theorem chooseDecision_spec (h : p.Coherent) (hu : p.valuation.unvalued ≠ []) :
    ∃ l source, p.chooseDecision = .ok (l, { p with source }) ∧ p.valuation.Free l := by
  unfold chooseDecision
  cases p.config.heuristic.value with
  | random =>
    obtain ⟨a, ha, hc⟩ := Chooser.exists_of_choose hu p.source
    refine ⟨.ofAtom a true, (Chooser.choose p.valuation.unvalued p.source).2, ?_,
      h.free_of_mem_unvalued ha true⟩
    simp only [hc]
    rfl
  | greedy =>
    obtain ⟨a, ha, b, hc⟩ := p.atoms.exists_of_greediest hu
    refine ⟨.ofAtom a b, p.source, ?_, h.free_of_mem_unvalued ha b⟩
    simp only [hc]
  | first =>
    obtain ⟨a, as, hc⟩ := List.exists_cons_of_ne_nil hu
    refine ⟨.ofAtom a true, p.source, ?_, h.free_of_mem_unvalued (hc ▸ .head _) true⟩
    simp [hc]

theorem exists_source_of_chooseDecision (h : p.chooseDecision = .ok (l, q)) :
    ∃ source, q = { p with source } := by
  unfold chooseDecision at h
  dsimp only at h
  split at h
  next => cases h
  next =>
    cases h
    exact ⟨_, rfl⟩

theorem Coherent.chooseDecision (h : p.Coherent) (hq : p.chooseDecision = .ok (l, q)) :
    q.Coherent := by
  obtain ⟨source, rfl⟩ := exists_source_of_chooseDecision hq
  exact ⟨h.records, h.normal, h.store⟩

end Problem

end Dpll
