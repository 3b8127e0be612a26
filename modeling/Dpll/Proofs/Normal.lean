import Dpll.Clause.Normal
import Dpll.Formula
import Dpll.Semantics
import Mathlib.Data.List.Nodup
import Mathlib.Tactic.Common

namespace Dpll.Clause

variable {n : Nat} {c d seen : Clause} {l m : Literal} {M : Model}

/-- A clause over the atoms `1` to `n` in which no atom occurs twice. -/
structure Normal (n : Nat) (c : Clause) : Prop where
  ne_zero : ∀ l ∈ c, l ≠ 0
  atom_le : ∀ l ∈ c, l.atom ≤ n
  nodup : (c.map Literal.atom).Nodup

theorem literalFault?_eq_none_iff : literalFault? n l = none ↔ l ≠ 0 ∧ l.atom ≤ n := by
  unfold literalFault?
  split
  next h => simp [h]
  next h =>
    split
    next ha => simp [ha]
    next ha => simp [h, Nat.not_lt.1 ha]

theorem literalFault?_eq_some_iff {fault : ClauseFault} :
    literalFault? n l = some fault ↔
      l = 0 ∧ fault = .zeroLiteral ∨ l ≠ 0 ∧ n < l.atom ∧ fault = .atomOutOfRange l.atom := by
  unfold literalFault?
  split
  next h => simp [h, eq_comm]
  next h =>
    split
    next ha => simp [h, ha, eq_comm]
    next ha => simp [h, ha]

theorem fault?_eq_none_iff : c.fault? n = none ↔ ∀ l ∈ c, l ≠ 0 ∧ l.atom ≤ n := by
  simp only [fault?, List.findSome?_eq_none_iff, literalFault?_eq_none_iff]

theorem atom_ne_of_find?_eq_none (h : (seen.find? fun m ↦ m.atom = l.atom) = none) :
    l.atom ∉ seen.map Literal.atom := by
  intro hl
  obtain ⟨m, hm, ha⟩ := List.mem_map.1 hl
  have hn := List.find?_eq_none.1 h m hm
  simp [ha] at hn

theorem mem_of_find?_eq_some (h : (seen.find? fun m ↦ m.atom = l.atom) = some m) :
    m ∈ seen ∧ m.atom = l.atom := by
  exact ⟨List.mem_of_find?_eq_some h, by simpa using List.find?_some h⟩

theorem nodup_distinct (h : distinct seen c = .clause d) (hs : (seen.map Literal.atom).Nodup) :
    (d.map Literal.atom).Nodup := by
  induction c generalizing seen with
  | nil =>
    cases h
    rw [List.map_reverse]
    exact (List.reverse_perm _).nodup_iff.2 hs
  | cons l c ih =>
    unfold distinct at h
    split at h
    next hf => exact ih h (List.nodup_cons.2 ⟨atom_ne_of_find?_eq_none hf, hs⟩)
    next =>
      split at h
      next => exact ih h hs
      next => cases h

theorem mem_distinct (h : distinct seen c = .clause d) (l : Literal) :
    l ∈ d ↔ l ∈ seen ∨ l ∈ c := by
  induction c generalizing seen with
  | nil =>
    cases h
    simp
  | cons m c ih =>
    unfold distinct at h
    split at h
    next hf =>
      rw [ih h, List.mem_cons, List.mem_cons]
      tauto
    next k hf =>
      split at h
      next hk =>
        subst hk
        have hm := (mem_of_find?_eq_some hf).1
        rw [ih h, List.mem_cons]
        refine ⟨Or.imp_right .inr, ?_⟩
        rintro (hl | rfl | hl)
        · exact .inl hl
        · exact .inl hm
        · exact .inr hl
      next => cases h

theorem exists_of_distinct_tautology (h : distinct seen c = .tautology d) :
    ∃ l ∈ c, (l.negate ∈ seen ∨ l.negate ∈ c) := by
  induction c generalizing seen with
  | nil => cases h
  | cons m c ih =>
    unfold distinct at h
    split at h
    next =>
      obtain ⟨l, hl, hn⟩ := ih h
      rcases hn with hn | hn
      · rcases List.mem_cons.1 hn with hn | hn
        · exact ⟨l, .tail _ hl, .inr (hn ▸ .head _)⟩
        · exact ⟨l, .tail _ hl, .inl hn⟩
      · exact ⟨l, .tail _ hl, .inr (.tail _ hn)⟩
    next k hf =>
      obtain ⟨hk, ha⟩ := mem_of_find?_eq_some hf
      split at h
      next =>
        obtain ⟨l, hl, hn⟩ := ih h
        exact ⟨l, .tail _ hl, hn.imp_right (.tail _)⟩
      next hne =>
        have hn := (Formula.eq_or_eq_negate ha).resolve_left hne
        exact ⟨m, .head _, .inl (hn ▸ hk)⟩

theorem mergeByAtom_eq_merge (c d : Clause) :
    mergeByAtom c d = c.merge d fun l m ↦ decide (l.atom ≤ m.atom) := by
  induction c, d using mergeByAtom.induct with
  | case1 d => rw [mergeByAtom, List.nil_merge]
  | case2 c hc =>
    obtain ⟨l, c, rfl⟩ := List.exists_cons_of_ne_nil hc
    simp [mergeByAtom]
  | case3 l c m d h ih =>
    rw [mergeByAtom, if_pos h, ih, List.cons_merge_cons, if_pos (decide_eq_true h)]
  | case4 l c m d h ih =>
    rw [mergeByAtom, if_neg h, ih, List.cons_merge_cons, if_neg (by simpa using h)]

theorem sortByAtom_eq_mergeSort (c : Clause) :
    c.sortByAtom = c.mergeSort fun l m ↦ decide (l.atom ≤ m.atom) := by
  induction c using sortByAtom.induct with
  | case1 c h =>
    rw [sortByAtom, if_pos h]
    match c, h with
    | [], _ => exact List.mergeSort_nil.symm
    | [l], _ => exact (List.mergeSort_singleton l).symm
  | case2 c h ih₁ ih₂ =>
    rw [sortByAtom, if_neg h, mergeByAtom_eq_merge, ih₁, ih₂]
    match c with
    | [] | [_] => simp at h
    | l :: m :: c =>
      rw [List.mergeSort, List.MergeSort.Internal.splitInTwo_fst,
        List.MergeSort.Internal.splitInTwo_snd]

theorem perm_sortByAtom (c : Clause) : c.sortByAtom.Perm c := by
  rw [sortByAtom_eq_mergeSort]
  exact List.mergeSort_perm c _

theorem pairwise_sortByAtom (c : Clause) :
    c.sortByAtom.Pairwise fun l m ↦ l.atom ≤ m.atom := by
  rw [sortByAtom_eq_mergeSort]
  refine (List.pairwise_mergeSort ?_ ?_ c).imp of_decide_eq_true
  · intro k l m hkl hlm
    exact decide_eq_true (Nat.le_trans (of_decide_eq_true hkl) (of_decide_eq_true hlm))
  · intro l m
    simpa using Nat.le_total l.atom m.atom

theorem sortByAtom_eq_of_perm (h : c.Perm d) (hn : (c.map Literal.atom).Nodup) :
    c.sortByAtom = d.sortByAtom := by
  have hp : c.sortByAtom.Perm d.sortByAtom :=
    ((perm_sortByAtom c).trans h).trans (perm_sortByAtom d).symm
  refine hp.eq_of_pairwise ?_ (pairwise_sortByAtom c) (pairwise_sortByAtom d)
  intro l m hl hm hlm hml
  have hl := (perm_sortByAtom c).mem_iff.1 hl
  have hm := h.mem_iff.2 ((perm_sortByAtom d).mem_iff.1 hm)
  exact List.inj_on_of_nodup_map hn hl hm (Nat.le_antisymm hlm hml)

theorem normalize_eq_clause {sort : Bool} (h : c.normalize sort = .clause d) :
    ∃ e, distinct [] c = .clause e ∧ d.Perm e := by
  unfold normalize at h
  split at h
  next e he =>
    cases h
    refine ⟨e, he, ?_⟩
    cases sort
    · exact List.Perm.refl _
    · exact perm_sortByAtom e
  next => cases h

theorem mem_normalize {sort : Bool} (h : c.normalize sort = .clause d) (l : Literal) :
    l ∈ d ↔ l ∈ c := by
  obtain ⟨e, he, hp⟩ := normalize_eq_clause h
  rw [hp.mem_iff, mem_distinct he]
  simp

theorem normal_of_normalize {sort : Bool} (hf : c.fault? n = none)
    (h : c.normalize sort = .clause d) : d.Normal n := by
  have hc := fault?_eq_none_iff.1 hf
  obtain ⟨e, he, hp⟩ := normalize_eq_clause h
  constructor
  case ne_zero =>
    intro l hl
    exact (hc l ((mem_normalize h l).1 hl)).1
  case atom_le =>
    intro l hl
    exact (hc l ((mem_normalize h l).1 hl)).2
  case nodup =>
    exact (hp.map _).nodup_iff.2 (nodup_distinct he List.nodup_nil)

theorem holds_normalize_iff {sort : Bool} (h : c.normalize sort = .clause d) :
    d.Holds M ↔ c.Holds M := by
  unfold Holds
  simp only [mem_normalize h]

theorem holds_of_normalize_tautology {sort : Bool} (hc : ∀ l ∈ c, l ≠ 0)
    (h : c.normalize sort = .tautology d) (M : Model) : c.Holds M := by
  unfold normalize at h
  split at h
  next => cases h
  next e he =>
    obtain ⟨l, hl, hn⟩ := exists_of_distinct_tautology he
    have hn := hn.resolve_left List.not_mem_nil
    by_cases hM : l.Holds M
    · exact ⟨l, hl, hM⟩
    · exact ⟨l.negate, hn, (Literal.holds_negate (hc l hl)).2 hM⟩

def normal? (sort : Bool) (c : Clause) : Option Clause :=
  match c.normalize sort with
  | .clause d => some d
  | .tautology _ => none

theorem normal?_eq_some_iff {sort : Bool} :
    c.normal? sort = some d ↔ c.normalize sort = .clause d := by
  unfold normal?
  split
  next h => simp [h]
  next h => simp [h]

end Dpll.Clause

namespace Dpll.Formula

def normals (sort : Bool) (f : Formula) : Formula := f.filterMap (·.normal? sort)

theorem normals_cons (sort : Bool) (c : Clause) (f : Formula) :
    normals sort (c :: f) = (c.normal? sort).toList ++ f.normals sort := by
  rw [normals, normals, List.filterMap_cons]
  cases c.normal? sort <;> rfl

def tautologies (sort : Bool) (f : Formula) : Nat := f.countP fun c ↦ (c.normal? sort).isNone

theorem tautologies_cons (sort : Bool) (c : Clause) (f : Formula) :
    tautologies sort (c :: f) =
      f.tautologies sort + if (c.normal? sort).isNone then 1 else 0 :=
  List.countP_cons

theorem tautologies_add_length (sort : Bool) (f : Formula) :
    f.tautologies sort + (f.normals sort).length = f.length := by
  rw [tautologies, normals, List.length_filterMap_eq_countP, List.length_eq_countP_add_countP
    fun c : Clause ↦ (c.normal? sort).isNone]
  simp only [Bool.not_eq_true, Option.isNone_eq_false_iff, Bool.decide_eq_true]

variable {n : Nat} {sort : Bool} {f : Formula} {d : Clause} {M : Model}

theorem exists_of_mem_normals (hd : d ∈ f.normals sort) : ∃ c ∈ f, c.normalize sort = .clause d := by
  obtain ⟨c, hc, hn⟩ := List.mem_filterMap.1 hd
  exact ⟨c, hc, Clause.normal?_eq_some_iff.1 hn⟩

theorem normal_of_mem_normals (hf : ∀ c ∈ f, c.fault? n = none) (hd : d ∈ f.normals sort) :
    d.Normal n := by
  obtain ⟨c, hc, hn⟩ := exists_of_mem_normals hd
  exact Clause.normal_of_normalize (hf c hc) hn

theorem holds_normals (hf : ∀ c ∈ f, c.fault? n = none) : (f.normals sort).Holds M ↔ f.Holds M := by
  constructor
  · intro hM c hc
    cases hn : c.normalize sort with
    | clause d =>
      have hd := List.mem_filterMap.2 ⟨c, hc, Clause.normal?_eq_some_iff.2 hn⟩
      exact (Clause.holds_normalize_iff hn).1 (hM d hd)
    | tautology d =>
      have hne := fun l hl ↦ (Clause.fault?_eq_none_iff.1 (hf c hc) l hl).1
      exact Clause.holds_of_normalize_tautology hne hn M
  · intro hM d hd
    obtain ⟨c, hc, hn⟩ := exists_of_mem_normals hd
    exact (Clause.holds_normalize_iff hn).2 (hM c hc)

end Dpll.Formula
