import Dpll.ClauseStore
import Mathlib.Data.List.Infix
import Mathlib.Tactic.Common

namespace Dpll

namespace SatisfactionCache

variable {k : SatisfactionCache} {f : Formula} {ls ls' : List Literal} {c : Clause}
  {i r t d d' : Nat}

def time (k : SatisfactionCache) (i : Nat) : Option Nat := k.records.getD i none

/-- The stack holds the recorded clauses in the order of their records, and every record was made
when some literal of the clause was on the trail. -/
structure Coherent (k : SatisfactionCache) (f : Formula) (ls : List Literal) : Prop where
  size : k.records.size = f.length
  nodup : k.stack.Nodup
  mem_stack : ∀ i, i ∈ k.stack ↔ ∃ r, k.time i = some r
  ordered : k.stack.Pairwise fun i j ↦ ∀ r s, k.time i = some r → k.time j = some s → s ≤ r
  witness : ∀ i r, k.time i = some r →
    r < ls.length ∧ ∃ c, f[i]? = some c ∧ ∃ l ∈ c, l ∈ ls.take (r + 1)

theorem coherent_empty (ls : List Literal) : ({} : SatisfactionCache).Coherent [] ls := by
  constructor <;> simp [time]

theorem time_extend (k : SatisfactionCache) (i : Nat) : k.extend.time i = k.time i := by
  simp only [time, extend, Array.getD_eq_getD_getElem?, Array.getElem?_push]
  split
  next h => simp [h]
  next => rfl

theorem Coherent.extend (h : k.Coherent f ls) (c : Clause) : k.extend.Coherent (f ++ [c]) ls := by
  constructor
  case size => exact by simp [SatisfactionCache.extend, h.size]
  case nodup => exact h.nodup
  case mem_stack =>
    simp only [time_extend]
    exact h.mem_stack
  case ordered =>
    simp only [time_extend]
    exact h.ordered
  case witness =>
    intro i r hi
    rw [time_extend] at hi
    obtain ⟨hr, d, hd, hl⟩ := h.witness i r hi
    refine ⟨hr, d, ?_, hl⟩
    rw [List.getElem?_append_left (List.getElem?_eq_some_iff.1 hd).1]
    exact hd

theorem Coherent.mono (h : k.Coherent f ls) (hp : ls <+: ls') : k.Coherent f ls' := by
  refine ⟨h.size, h.nodup, h.mem_stack, h.ordered, ?_⟩
  intro i r hi
  obtain ⟨hr, c, hc, l, hl, ht⟩ := h.witness i r hi
  exact ⟨Nat.lt_of_lt_of_le hr hp.length_le, c, hc, l, hl, (hp.take (r + 1)).subset ht⟩

theorem time_record (hi : i < k.records.size) (t j : Nat) :
    (k.record i t).time j = if j = i then some t else k.time j := by
  simp only [time, record, Array.getD_eq_getD_getElem?, Array.getElem?_setIfInBounds]
  by_cases h : i = j
  · subst h
    simp [hi]
  · simp [h, Ne.symm h]

theorem Coherent.record (h : k.Coherent f ls) (hc : f[i]? = some c) (hn : k.time i = none)
    {l : Literal} (hl : l ∈ c) (hm : l ∈ ls) : (k.record i (ls.length - 1)).Coherent f ls := by
  have hi : i < k.records.size := h.size ▸ (List.getElem?_eq_some_iff.1 hc).1
  have hpos : 0 < ls.length := List.length_pos_of_mem hm
  have hstack : i ∉ k.stack := fun hmem ↦ by
    obtain ⟨r, hr⟩ := (h.mem_stack i).1 hmem
    rw [hn] at hr
    cases hr
  constructor
  case size =>
    simpa [SatisfactionCache.record] using h.size
  case nodup => exact List.nodup_cons.2 ⟨hstack, h.nodup⟩
  case mem_stack =>
    intro j
    rw [time_record hi, show (k.record i _).stack = i :: k.stack from rfl, List.mem_cons]
    by_cases hj : j = i
    · simp [hj]
    · simp [hj, h.mem_stack j]
  case ordered =>
    refine List.pairwise_cons.2 ⟨?_, h.ordered.imp_of_mem ?_⟩
    · intro j hj r s hr hs
      rw [time_record hi, if_pos rfl] at hr
      rw [time_record hi, if_neg (ne_of_mem_of_not_mem hj hstack)] at hs
      cases hr
      have hlt := (h.witness j s hs).1
      omega
    · intro a b ha hb hab r s hr hs
      rw [time_record hi, if_neg (ne_of_mem_of_not_mem ha hstack)] at hr
      rw [time_record hi, if_neg (ne_of_mem_of_not_mem hb hstack)] at hs
      exact hab r s hr hs
  case witness =>
    intro j r hj
    rw [time_record hi] at hj
    split at hj
    next he =>
      cases hj
      subst he
      refine ⟨by omega, c, hc, l, hl, ?_⟩
      rwa [Nat.sub_add_cancel hpos, List.take_length]
    next => exact h.witness j r hj

theorem getD_forget (records : Array (Option Nat)) (j i : Nat) :
    (records.setIfInBounds j none).getD i none = if i = j then none else records.getD i none := by
  simp only [Array.getD_eq_getD_getElem?, Array.getElem?_setIfInBounds]
  by_cases h : j = i
  · subst h
    by_cases hj : j < records.size <;> simp [hj]
  · simp [h, Ne.symm h]

structure Stacked (records : Array (Option Nat)) (stack : List Nat) : Prop where
  nodup : stack.Nodup
  mem_iff : ∀ i, i ∈ stack ↔ ∃ r, records.getD i none = some r
  ordered : stack.Pairwise fun i j ↦
    ∀ r s, records.getD i none = some r → records.getD j none = some s → s ≤ r

theorem Stacked.pop {records : Array (Option Nat)} {stack : List Nat} {j : Nat}
    (h : Stacked records (j :: stack)) : Stacked (records.setIfInBounds j none) stack := by
  obtain ⟨hj, hnodup⟩ := List.nodup_cons.1 h.nodup
  have hne {i : Nat} (hi : i ∈ stack) : i ≠ j := ne_of_mem_of_not_mem hi hj
  refine ⟨hnodup, ?_, ?_⟩
  · intro i
    rw [getD_forget]
    by_cases hi : i = j
    · simp [hi, hj]
    · simpa [hi] using h.mem_iff i
  · apply (List.pairwise_cons.1 h.ordered).2.imp_of_mem
    intro a b ha hb hab r s hr hs
    rw [getD_forget, if_neg (hne ha)] at hr
    rw [getD_forget, if_neg (hne hb)] at hs
    exact hab r s hr hs

theorem Stacked.le_top {records : Array (Option Nat)} {stack : List Nat} {i j r t : Nat}
    (h : Stacked records (j :: stack)) (ht : records.getD j none = some t)
    (hr : records.getD i none = some r) : r ≤ t := by
  rcases List.mem_cons.1 ((h.mem_iff i).2 ⟨r, hr⟩) with rfl | hi
  · rw [ht] at hr
    cases hr
    exact Nat.le_refl _
  · exact (List.pairwise_cons.1 h.ordered).1 i hi t r ht hr

theorem dropFrom_eq (depth : Nat) {records : Array (Option Nat)} {stack : List Nat}
    (h : Stacked records stack) :
    (dropFrom depth records stack).records.size = records.size ∧
    (dropFrom depth records stack).stack =
      stack.filter (fun i ↦ (records.getD i none).any (· < depth)) ∧
    ∀ i, (dropFrom depth records stack).time i =
      (records.getD i none).filter (· < depth) := by
  induction stack generalizing records with
  | nil =>
    refine ⟨rfl, rfl, ?_⟩
    intro i
    have hi : records.getD i none = none :=
      Option.eq_none_iff_forall_ne_some.2 fun r hr ↦ by simpa using (h.mem_iff i).2 ⟨r, hr⟩
    rw [hi]
    exact hi
  | cons j stack ih =>
    obtain ⟨t, ht⟩ := (h.mem_iff j).1 (.head _)
    unfold dropFrom
    rw [ht]
    dsimp only
    split
    next hle =>
      obtain ⟨hsize, hstack, htime⟩ := ih h.pop
      refine ⟨by simpa using hsize, ?_, ?_⟩
      · rw [hstack, List.filter_cons_of_neg (by simpa [ht] using hle)]
        apply List.filter_congr
        intro i hi
        rw [getD_forget, if_neg (ne_of_mem_of_not_mem hi (List.nodup_cons.1 h.nodup).1)]
      · intro i
        rw [htime, getD_forget]
        by_cases hi : i = j
        · rw [if_pos hi, hi, ht, Option.filter_some_neg (by simpa using hle)]
          rfl
        · simp [hi]
    next hlt =>
      have hkeep (i : Nat) (r : Nat) (hr : records.getD i none = some r) : r < depth := by
        have hle := h.le_top ht hr
        omega
      refine ⟨rfl, (List.filter_eq_self.2 ?_).symm, ?_⟩
      · intro i hi
        obtain ⟨r, hr⟩ := (h.mem_iff i).1 hi
        simpa [hr] using hkeep i r hr
      · intro i
        change records.getD i none = _
        cases hr : records.getD i none with
        | none => rfl
        | some r => exact (Option.filter_some_pos (by simpa using hkeep i r hr)).symm

theorem Coherent.stacked (h : k.Coherent f ls) : Stacked k.records k.stack :=
  ⟨h.nodup, h.mem_stack, h.ordered⟩

/-- Invalidation removes the records made at `depth` or later, and no others. -/
theorem Coherent.time_invalidate (h : k.Coherent f ls) (depth i : Nat) :
    (k.invalidate depth).time i = (k.time i).filter (· < depth) :=
  (dropFrom_eq depth h.stacked).2.2 i

theorem Coherent.stack_invalidate (h : k.Coherent f ls) (depth : Nat) :
    (k.invalidate depth).stack = k.stack.filter fun i ↦ (k.time i).any (· < depth) :=
  (dropFrom_eq depth h.stacked).2.1

theorem Coherent.time_of_invalidate (h : k.Coherent f ls) {depth : Nat}
    (hi : (k.invalidate depth).time i = some r) : k.time i = some r ∧ r < depth := by
  rw [h.time_invalidate] at hi
  simpa using hi

/-- When the trail is cut, the records made before the cut are good for what is left of it. -/
theorem Coherent.invalidate (h : k.Coherent f ls) {depth : Nat} (hd : depth ≤ ls.length) :
    (k.invalidate depth).Coherent f (ls.take depth) := by
  constructor
  case size =>
    exact (dropFrom_eq depth h.stacked).1.trans h.size
  case nodup =>
    rw [h.stack_invalidate]
    exact h.nodup.filter _
  case mem_stack =>
    intro i
    rw [h.stack_invalidate, h.time_invalidate, List.mem_filter, h.mem_stack]
    cases k.time i <;> simp
  case ordered =>
    rw [h.stack_invalidate]
    refine (h.ordered.sublist List.filter_sublist).imp fun hab r s hr hs ↦ ?_
    exact hab r s (h.time_of_invalidate hr).1 (h.time_of_invalidate hs).1
  case witness =>
    intro i r hi
    obtain ⟨hi, hr⟩ := h.time_of_invalidate hi
    obtain ⟨-, c, hc, l, hl, hm⟩ := h.witness i r hi
    refine ⟨by rwa [List.length_take_of_le hd], c, hc, l, hl, ?_⟩
    rwa [List.take_take, Nat.min_eq_left hr]

theorem dropFrom_dropFrom (h : d ≤ d') (records : Array (Option Nat)) (stack : List Nat) :
    (dropFrom d' records stack).invalidate d = dropFrom d records stack := by
  induction stack generalizing records with
  | nil => rfl
  | cons i stack ih =>
    have hstuck : (SatisfactionCache.mk records (i :: stack)).invalidate d =
        dropFrom d records (i :: stack) := rfl
    rw [dropFrom]
    split
    next t ht =>
      by_cases hd : d' ≤ t
      · rw [if_pos hd, ih, dropFrom, ht]
        exact (if_pos (Nat.le_trans h hd)).symm
      · rw [if_neg hd, hstuck]
    next => exact hstuck

theorem invalidate_invalidate (h : d ≤ d') (k : SatisfactionCache) :
    (k.invalidate d').invalidate d = k.invalidate d :=
  dropFrom_dropFrom h k.records k.stack

theorem Coherent.invalidate_length (h : k.Coherent f ls) : k.invalidate ls.length = k := by
  obtain ⟨records, stack⟩ := k
  cases stack with
  | nil => rfl
  | cons i stack =>
    obtain ⟨r, hr⟩ := (h.mem_stack i).1 (.head _)
    have hlt := (h.witness i r hr).1
    rw [SatisfactionCache.invalidate, dropFrom]
    rw [time] at hr
    simp only [hr, if_neg (Nat.not_le.2 hlt)]

theorem invalidate_record (hi : i < k.records.size) (hn : k.time i = none) (hd : d ≤ t) :
    (k.record i t).invalidate d = k.invalidate d := by
  obtain ⟨records, stack⟩ := k
  have hr : records[i]? = some none := by
    rw [time, Array.getD_eq_getD_getElem?] at hn
    rw [Array.getElem?_eq_getElem hi] at hn ⊢
    exact congrArg some hn
  have hget : (records.setIfInBounds i (some t)).getD i none = some t := by
    simp [hi]
  have hset : (records.setIfInBounds i (some t)).setIfInBounds i none = records := by
    apply Array.ext_getElem?
    intro j
    rw [Array.setIfInBounds_setIfInBounds, Array.getElem?_setIfInBounds]
    by_cases hj : i = j
    · rw [if_pos hj, if_pos hi, ← hj, hr]
    · rw [if_neg hj]
  rw [record, invalidate, dropFrom, hget]
  dsimp only
  rw [if_pos hd, hset]
  rfl

end SatisfactionCache

end Dpll
