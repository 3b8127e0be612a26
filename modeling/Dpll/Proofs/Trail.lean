import Dpll.AtomTable
import Dpll.Proofs.Valuation
import Dpll.Trail

namespace Dpll

namespace Valuation

def clearAll (v : Valuation) (ls : List Literal) : Valuation :=
  ls.foldl (fun v l ↦ v.clear l.atom) v

@[simp] theorem size_clearAll (v : Valuation) (ls : List Literal) :
    (v.clearAll ls).size = v.size := by
  induction ls generalizing v with
  | nil => rfl
  | cons l ls ih => exact (ih (v.clear l.atom)).trans (size_clear v l.atom)

theorem value_clearAll (v : Valuation) (ls : List Literal) (x : Atom) :
    (v.clearAll ls).value x = if ∃ l ∈ ls, l.atom = x then none else v.value x := by
  induction ls generalizing v with
  | nil => simp [clearAll]
  | cons l ls ih =>
    have h := ih (v.clear l.atom)
    rw [value_clear] at h
    rw [show v.clearAll (l :: ls) = (v.clear l.atom).clearAll ls from rfl, h]
    by_cases hx : l.atom = x
    · simp [hx]
    · simp [hx, Ne.symm hx]

end Valuation

theorem AtomTable.valuation_clearAll (t : AtomTable) (ls : List Literal) :
    (t.clearAll ls).valuation = t.valuation.clearAll ls := by
  induction ls generalizing t with
  | nil => rfl
  | cons l ls ih => exact ih (t.clear l.atom)

namespace Trail

variable {t u : Trail} {v w : Valuation} {l : Literal}

/-- Every value came about by a literal on the trail. Each atom is on the trail once, and no level
is empty. -/
structure Records (t : Trail) (v : Valuation) : Prop where
  sentinel : v.value 0 = some true
  true_iff : ∀ {l : Literal}, l ≠ 0 → (v.truth l = some true ↔ l ∈ t.literals.toList)
  ne_zero : ∀ l ∈ t.literals.toList, l ≠ 0
  nodup : (t.literals.toList.map Literal.atom).Nodup
  increasing : t.levelStarts.toList.Pairwise (· < ·)
  below : ∀ i ∈ t.levelStarts.toList, i < t.depth

def put (t : Trail) (l : Literal) (decision : Bool) : Trail :=
  (if decision then t.openLevel else t).push l

@[simp] theorem literals_put (t : Trail) (l : Literal) (decision : Bool) :
    (t.put l decision).literals.toList = t.literals.toList ++ [l] := by
  cases decision <;> simp [put, push, openLevel]

theorem levelStarts_put_false (t : Trail) (l : Literal) :
    (t.put l false).levelStarts = t.levelStarts := rfl

theorem levelStarts_put_true (t : Trail) (l : Literal) :
    (t.put l true).levelStarts.toList = t.levelStarts.toList ++ [t.depth] := by
  simp [put, push, openLevel, depth]

@[simp] theorem depth_put (t : Trail) (l : Literal) (decision : Bool) :
    (t.put l decision).depth = t.depth + 1 := by
  cases decision <;> simp [put, push, openLevel, depth]

theorem eq_of_toList (hl : t.literals.toList = u.literals.toList)
    (hs : t.levelStarts.toList = u.levelStarts.toList) : t = u := by
  obtain ⟨⟨ls⟩, ⟨ss⟩⟩ := t
  obtain ⟨⟨ms⟩, ⟨rs⟩⟩ := u
  simp_all

theorem records_blank (n : Nat) : (withRoom n).Records (.blank n) where
  sentinel := Valuation.value_blank n 0
  true_iff {l} hl := by
    have ha := Literal.atom_ne_zero hl
    simp [Valuation.truth_eq_true_iff, Valuation.value_blank, ha, withRoom]
  ne_zero l hl := by simp [withRoom] at hl
  nodup := by simp [withRoom]
  increasing := by simp [withRoom]
  below i hi := by simp [withRoom] at hi

theorem Records.value_eq_some_iff (h : t.Records v) {a : Atom} (ha : a ≠ 0) (b : Bool) :
    v.value a = some b ↔ Literal.ofAtom a b ∈ t.literals.toList := by
  rw [← h.true_iff (Literal.ofAtom_ne_zero ha b), Valuation.truth_eq_true_iff,
    Literal.atom_ofAtom, Literal.positive_ofAtom ha]

theorem Records.valuation_eq (h : t.Records v) (h' : t.Records w) (hs : v.size = w.size) :
    v = w := by
  apply Valuation.eq_of_value hs
  intro a
  by_cases ha : a = 0
  · rw [ha, h.sentinel, h'.sentinel]
  · apply Option.ext
    intro b
    rw [h.value_eq_some_iff ha, h'.value_eq_some_iff ha]

theorem Records.atom_ne (h : t.Records v) (hl : v.Free l) :
    ∀ m ∈ t.literals.toList, m.atom ≠ l.atom := by
  intro m hm ha
  have ht := Valuation.truth_eq_true_iff.1 ((h.true_iff (h.ne_zero m hm)).2 hm)
  rw [ha, hl.2] at ht
  cases ht

theorem Records.lt_size (h : t.Records v) (hl : l ∈ t.literals.toList) : l.atom < v.size := by
  have ht := (h.true_iff (h.ne_zero l hl)).2 hl
  exact Valuation.lt_size_of_value (Valuation.truth_eq_true_iff.1 ht)

theorem Records.depth_add (h : t.Records v) : t.depth + v.unvaluedCount + 1 = v.size := by
  have hp : (0 :: t.literals.toList.map Literal.atom).Perm
      ((List.range v.size).filter fun a ↦ (v.value a).isSome) := by
    refine (List.perm_ext_iff_of_nodup (List.nodup_cons.2 ⟨?_, h.nodup⟩)
      (List.nodup_range.filter _)).2 ?_
    · intro h₀
      obtain ⟨l, hl, ha⟩ := List.mem_map.1 h₀
      exact Literal.atom_ne_zero (h.ne_zero l hl) ha
    · intro a
      rw [List.mem_cons, List.mem_map, List.mem_filter, List.mem_range]
      constructor
      · rintro (rfl | ⟨l, hl, rfl⟩)
        · exact ⟨Valuation.lt_size_of_value h.sentinel, by rw [h.sentinel]; rfl⟩
        · have ht := Valuation.truth_eq_true_iff.1 ((h.true_iff (h.ne_zero l hl)).2 hl)
          exact ⟨h.lt_size hl, by rw [ht]; rfl⟩
      · rintro ⟨-, hv⟩
        by_cases ha : a = 0
        · exact .inl ha
        · obtain ⟨b, hb⟩ := Option.isSome_iff_exists.1 hv
          exact .inr ⟨_, (h.value_eq_some_iff ha b).1 hb, Literal.atom_ofAtom a b⟩
  have hlen := hp.length_eq
  rw [List.length_cons, List.length_map, Array.length_toList] at hlen
  rw [← Valuation.length_filter_value v, ← hlen, depth]
  omega

theorem Records.put (h : t.Records v) (hl : v.Free l) (decision : Bool) :
    (t.put l decision).Records (v.make l) := by
  have hl₀ := hl.ne_zero
  constructor
  case sentinel =>
    rw [hl.value_make, if_neg (Literal.atom_ne_zero hl₀).symm]
    exact h.sentinel
  case true_iff =>
    intro m hm
    rw [literals_put, List.mem_append, List.mem_singleton, ← h.true_iff hm,
      Valuation.truth_eq_true_iff, Valuation.truth_eq_true_iff, hl.value_make]
    split
    next ha =>
      rw [ha, hl.2]
      constructor
      · intro hp
        exact .inr (Literal.eq_of_atom_eq ha (Option.some.inj hp).symm)
      · rintro (hp | rfl)
        · cases hp
        · rfl
    next ha =>
      have hne : m ≠ l := fun he ↦ ha (he ▸ rfl)
      simp [hne]
  case ne_zero =>
    intro m hm
    rw [literals_put, List.mem_append, List.mem_singleton] at hm
    rcases hm with hm | rfl
    · exact h.ne_zero m hm
    · exact hl₀
  case nodup =>
    rw [literals_put, List.map_append, List.map_singleton]
    refine List.nodup_append.2 ⟨h.nodup, by simp, ?_⟩
    intro a ha b hb
    obtain ⟨m, hm, rfl⟩ := List.mem_map.1 ha
    rw [List.mem_singleton.1 hb]
    exact h.atom_ne hl m hm
  case increasing =>
    cases decision
    · exact h.increasing
    · rw [levelStarts_put_true]
      refine List.pairwise_append.2 ⟨h.increasing, by simp, ?_⟩
      intro i hi j hj
      rw [List.mem_singleton.1 hj]
      exact h.below i hi
  case below =>
    intro i hi
    rw [depth_put]
    cases decision
    · exact Nat.lt_succ_of_lt (h.below i hi)
    · rw [levelStarts_put_true, List.mem_append, List.mem_singleton] at hi
      rcases hi with hi | rfl
      · exact Nat.lt_succ_of_lt (h.below i hi)
      · omega

theorem closeLevel_eq_none_iff : t.closeLevel = none ↔ t.levelStarts = #[] := by
  simp [closeLevel]

theorem closeLevel_eq_some {undone : List Literal} (h : t.closeLevel = some (undone, u)) :
    ∃ i, t.levelStarts.toList = u.levelStarts.toList ++ [i] ∧
      undone = t.literals.toList.drop i ∧ u.literals.toList = t.literals.toList.take i := by
  obtain ⟨i, hi, he⟩ := Option.map_eq_some_iff.1 h
  cases he
  refine ⟨i, ?_, ?_, by simp⟩
  · rw [← Array.getLast?_toList] at hi
    obtain ⟨starts, hs⟩ := List.getLast?_eq_some_iff.1 hi
    rw [Array.toList_pop, hs, List.dropLast_concat]
  · rw [Array.toList_extract, List.extract_eq_take_drop, List.take_of_length_le (by simp)]

theorem Records.value_zero_clearAll (h : t.Records v) (d : Nat) :
    (v.clearAll (t.literals.toList.drop d)).value 0 = some true := by
  rw [Valuation.value_clearAll, if_neg]
  · exact h.sentinel
  · rintro ⟨m, hm, ha⟩
    exact Literal.atom_ne_zero (h.ne_zero m (List.mem_of_mem_drop hm)) ha

theorem Records.value_clearAll_iff (h : t.Records v) (d : Nat) {a : Atom} (ha : a ≠ 0) (b : Bool) :
    (v.clearAll (t.literals.toList.drop d)).value a = some b ↔
      Literal.ofAtom a b ∈ t.literals.toList.take d := by
  have hsplit := List.take_append_drop d t.literals.toList
  have hnodup := h.nodup
  rw [← hsplit, List.map_append, List.nodup_append] at hnodup
  have hv := h.value_eq_some_iff ha b
  rw [← hsplit, List.mem_append] at hv
  rw [Valuation.value_clearAll]
  split
  next hk =>
    obtain ⟨m, hm, hma⟩ := hk
    refine iff_of_false nofun fun hl ↦ ?_
    refine hnodup.2.2 _ (List.mem_map_of_mem hl) _ (List.mem_map_of_mem hm) ?_
    rw [Literal.atom_ofAtom, hma]
  next hk =>
    rw [hv]
    exact or_iff_left fun hl ↦ hk ⟨_, hl, Literal.atom_ofAtom a b⟩

theorem Records.close {undone : List Literal} (h : t.Records v)
    (hc : t.closeLevel = some (undone, u)) : u.Records (v.clearAll undone) := by
  obtain ⟨i, hs, rfl, hl⟩ := closeLevel_eq_some hc
  have hsub : u.literals.toList.Sublist t.literals.toList := hl ▸ List.take_sublist _ _
  have hinc := h.increasing
  rw [hs, List.pairwise_append] at hinc
  constructor
  case sentinel => exact h.value_zero_clearAll i
  case true_iff =>
    intro m hm
    rw [Valuation.truth_eq_true_iff, h.value_clearAll_iff i (Literal.atom_ne_zero hm),
      Literal.ofAtom_atom_positive, hl]
  case ne_zero =>
    intro m hm
    exact h.ne_zero m (hsub.subset hm)
  case nodup => exact h.nodup.sublist (hsub.map _)
  case increasing => exact hinc.1
  case below =>
    intro j hj
    have hi : i ≤ t.literals.toList.length := by
      have hb := h.below i (by simp [hs])
      rw [depth, ← Array.length_toList] at hb
      omega
    rw [depth, ← Array.length_toList, hl, List.length_take_of_le hi]
    exact hinc.2.2 j hj i (List.mem_singleton.2 rfl)

/-- A trail with more literals, but no more levels. -/
structure Grows (t u : Trail) : Prop where
  literals : t.literals.toList <+: u.literals.toList
  levelStarts : u.levelStarts = t.levelStarts

theorem Grows.refl (t : Trail) : t.Grows t := ⟨List.prefix_refl _, rfl⟩

theorem Grows.trans {s : Trail} (h : s.Grows t) (h' : t.Grows u) : s.Grows u :=
  ⟨h.literals.trans h'.literals, h'.levelStarts.trans h.levelStarts⟩

theorem grows_put (t : Trail) (l : Literal) : t.Grows (t.put l false) :=
  ⟨by simp, levelStarts_put_false t l⟩

/-- A trail on which neither literals nor levels were taken off. -/
structure Before (t u : Trail) : Prop where
  literals : t.literals.toList <+: u.literals.toList
  levelStarts : t.levelStarts.toList <+: u.levelStarts.toList

theorem Grows.before (h : t.Grows u) : t.Before u :=
  ⟨h.literals, h.levelStarts ▸ List.prefix_refl _⟩

theorem Before.trans {s : Trail} (h : s.Before t) (h' : t.Before u) : s.Before u :=
  ⟨h.literals.trans h'.literals, h.levelStarts.trans h'.levelStarts⟩

theorem getElem?_of_isPrefix {α : Type} {xs ys : Array α} {i : Nat} {x : α}
    (h : xs.toList <+: ys.toList) (hx : xs[i]? = some x) : ys[i]? = some x := by
  obtain ⟨hi, rfl⟩ := Array.getElem?_eq_some_iff.1 hx
  rw [← Array.getElem?_toList]
  exact List.prefix_iff_getElem?.1 h i hi

theorem Before.depth_le (h : t.Before u) : t.depth ≤ u.depth := by
  simpa [depth] using h.literals.length_le

theorem before_put (t : Trail) (l : Literal) (decision : Bool) : t.Before (t.put l decision) := by
  cases decision
  · exact (grows_put t l).before
  · exact ⟨by simp, by simp [levelStarts_put_true]⟩

/-- Undoing a decision, and whatever was made true because of it, gives the trail before it. -/
theorem closeLevel_of_grows (h : (t.put l true).Grows u) :
    ∃ undone, u.closeLevel = some (undone, t) := by
  have hs : u.levelStarts.toList = t.levelStarts.toList ++ [t.depth] := by
    rw [h.levelStarts, levelStarts_put_true]
  cases hc : u.closeLevel with
  | none =>
    rw [closeLevel_eq_none_iff] at hc
    simp [hc] at hs
  | some r =>
    obtain ⟨undone, t'⟩ := r
    obtain ⟨i, hs', -, hl⟩ := closeLevel_eq_some hc
    obtain ⟨hlevels, hi⟩ := List.append_inj' (hs.symm.trans hs') rfl
    obtain rfl : t.depth = i := by simpa using hi
    obtain ⟨rest, hrest⟩ := h.literals
    have ht : t' = t := by
      refine eq_of_toList ?_ hlevels.symm
      rw [hl, ← hrest, literals_put, List.append_assoc, List.take_append_of_le_length (by simp [depth])]
      exact List.take_of_length_le (by simp [depth])
    exact ⟨undone, by rw [ht]⟩

end Trail

end Dpll
