import Dpll.Clause.Pure
import Dpll.Formula
import Dpll.Proofs.Valuation
import Mathlib.Data.List.Basic

namespace Dpll

namespace Sighting

variable {s : Sighting} {seen : Array Sighting} {ls : List Literal} {l : Literal} {a : Atom}
  {b : Bool}

def has (s : Sighting) (b : Bool) : Bool := if b then s.positive else s.negative

theorem has_note (s : Sighting) (p b : Bool) : (s.note p).has b = (s.has b || p == b) := by
  cases p <;> cases b <;> simp [note, has]

theorem only?_eq_some_iff : s.only? = some b ↔ s.has b ∧ ¬ s.has (!b) := by
  obtain ⟨p, q⟩ := s
  cases p <;> cases q <;> cases b <;> simp [only?, has]

theorem getD_modify (seen : Array Sighting) (l : Literal) (a : Atom) :
    (seen.modify l.atom (·.note l.positive)).getD a {} =
      if l.atom = a ∧ a < seen.size then (seen.getD a {}).note l.positive else seen.getD a {} := by
  simp only [Array.getD_eq_getD_getElem?, Array.getElem?_modify]
  by_cases ha : l.atom = a
  · by_cases hs : a < seen.size <;> simp [ha, hs]
  · simp [ha]

theorem has_foldl (ls : List Literal) (seen : Array Sighting) (ha : a < seen.size) (b : Bool) :
    ((ls.foldl (fun seen l ↦ seen.modify l.atom (·.note l.positive)) seen).getD a {}).has b ↔
      (seen.getD a {}).has b ∨ ∃ l ∈ ls, l.atom = a ∧ l.positive = b := by
  induction ls generalizing seen with
  | nil => simp
  | cons l ls ih =>
    rw [List.foldl_cons, ih _ (by simpa using ha), getD_modify]
    by_cases hl : l.atom = a
    · simp [hl, ha, has_note, or_assoc]
    · simp [hl]

theorem has_table {n : Nat} (ha : a ≤ n) (b : Bool) :
    ((table n ls).getD a {}).has b ↔ ∃ l ∈ ls, l.atom = a ∧ l.positive = b := by
  rw [table, has_foldl ls _ (by simpa using Nat.lt_succ_of_le ha)]
  have hn : (Array.getD (Array.replicate (n + 1) ({} : Sighting)) a {}).has b = false := by
    cases b <;> simp [has, Array.getD, Nat.lt_succ_of_le ha]
  rw [hn]
  simp

end Sighting

variable {n : Nat} {ls ps : List Literal} {l m : Literal} {M : Model} {c : Clause}

theorem exists_mem_iff {a : Atom} {b : Bool} (ha : a ≠ 0) :
    (∃ l ∈ ls, l.atom = a ∧ l.positive = b) ↔ Literal.ofAtom a b ∈ ls := by
  constructor
  · rintro ⟨l, hl, rfl, rfl⟩
    rwa [Literal.ofAtom_atom_positive]
  · intro hl
    exact ⟨_, hl, Literal.atom_ofAtom a b, Literal.positive_ofAtom ha b⟩

theorem mem_pureLiterals_iff (hls : ∀ l ∈ ls, l ≠ 0) :
    l ∈ pureLiterals n ls ↔ l.atom ≤ n ∧ l ∈ ls ∧ l.negate ∉ ls := by
  have hkey {a : Atom} (ha : a ≤ n) (b : Bool) :
      ((Sighting.table n ls).getD a {}).only? = some b ↔
        (∃ l ∈ ls, l.atom = a ∧ l.positive = b) ∧ ¬ ∃ l ∈ ls, l.atom = a ∧ l.positive = !b := by
    rw [Sighting.only?_eq_some_iff, Sighting.has_table ha, Sighting.has_table ha]
  rw [pureLiterals, Atom.collect_eq_filterMap, List.mem_filterMap]
  constructor
  · rintro ⟨a, ha, hs⟩
    obtain ⟨b, hb, rfl⟩ := Option.map_eq_some_iff.1 hs
    have ha := Nat.le_of_lt_succ (List.mem_range.1 ha)
    obtain ⟨hp, hn⟩ := (hkey ha b).1 hb
    have ha₀ : a ≠ 0 := by
      obtain ⟨m, hm, rfl, -⟩ := hp
      exact Literal.atom_ne_zero (hls m hm)
    rw [exists_mem_iff ha₀] at hp hn
    refine ⟨by rwa [Literal.atom_ofAtom], hp, ?_⟩
    rwa [← Literal.ofAtom_not_positive (hls _ hp), Literal.atom_ofAtom,
      Literal.positive_ofAtom ha₀]
  · rintro ⟨ha, hl, hn⟩
    have ha₀ := Literal.atom_ne_zero (hls l hl)
    refine ⟨l.atom, List.mem_range.2 (Nat.lt_succ_of_le ha), Option.map_eq_some_iff.2
      ⟨l.positive, (hkey ha _).2 ⟨⟨l, hl, rfl, rfl⟩, ?_⟩, Literal.ofAtom_atom_positive l⟩⟩
    rwa [exists_mem_iff ha₀, Literal.ofAtom_not_positive (hls l hl)]

theorem pureLiterals_congr (h : ∀ l, l ∈ ls ↔ l ∈ ps) : pureLiterals n ls = pureLiterals n ps := by
  rw [pureLiterals, pureLiterals, Atom.collect_eq_filterMap, Atom.collect_eq_filterMap]
  apply List.filterMap_congr
  intro a ha
  have ha := Nat.le_of_lt_succ (List.mem_range.1 ha)
  have hs : ((Sighting.table n ls).getD a {}).only? = ((Sighting.table n ps).getD a {}).only? := by
    apply Option.ext
    intro b
    simp only [Sighting.only?_eq_some_iff, Sighting.has_table ha, h]
  rw [hs]

theorem pairwise_pureLiterals (n : Nat) (ls : List Literal) :
    (pureLiterals n ls).Pairwise fun l m ↦ l.atom < m.atom := by
  rw [pureLiterals, Atom.collect_eq_filterMap]
  refine List.Pairwise.filterMap _ ?_ List.pairwise_lt_range
  intro a a' h l hl m hm
  obtain ⟨b, -, rfl⟩ := Option.map_eq_some_iff.1 hl
  obtain ⟨b', -, rfl⟩ := Option.map_eq_some_iff.1 hm
  rwa [Literal.atom_ofAtom, Literal.atom_ofAtom]

def Model.makeAll (M : Model) (ls : List Literal) : Model := fun a ↦
  if Literal.ofAtom a true ∈ ls then true
  else if Literal.ofAtom a false ∈ ls then false
  else M a

theorem Model.holds_makeAll (hl : l ≠ 0) (hm : l ∈ ls) (hn : l.negate ∉ ls) :
    l.Holds (M.makeAll ls) := by
  have he := Literal.ofAtom_atom_positive l
  have hneg := Literal.ofAtom_not_positive hl
  unfold Literal.Holds makeAll
  cases hp : l.positive <;> simp_all

theorem Model.makeAll_of_not_mem {a : Atom} (h : ∀ l ∈ ls, l.atom ≠ a) : M.makeAll ls a = M a := by
  have hn (b : Bool) : Literal.ofAtom a b ∉ ls := fun hm ↦ h _ hm (Literal.atom_ofAtom a b)
  simp [makeAll, hn]

theorem Valuation.Extended.makeAll {v : Valuation} (h : v.Extended M) (hf : ∀ l ∈ ls, v.Free l) :
    v.Extended (M.makeAll ls) := by
  intro a b hc hv
  refine (Model.makeAll_of_not_mem ?_).trans (h a b hc hv)
  intro l hl ha
  have hn := (hf l hl).2
  rw [ha, hv] at hn
  cases hn

theorem Clause.holds_makeAll (hc : ∀ l ∈ c, l ≠ 0) (hn : ∀ l ∈ c, l.negate ∉ ps)
    (h : c.Holds M) : c.Holds (M.makeAll ps) := by
  obtain ⟨l, hl, hM⟩ := h
  refine ⟨l, hl, ?_⟩
  by_cases hm : l ∈ ps
  · exact Model.holds_makeAll (hc l hl) hm (hn l hl)
  · refine (Model.makeAll_of_not_mem ?_).trans hM
    intro m hm' ha
    rcases Formula.eq_or_eq_negate ha with rfl | rfl
    · exact hm hm'
    · exact hn l hl hm'

end Dpll
