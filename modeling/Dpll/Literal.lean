namespace Dpll

/-- Atoms are numbered from one. Zero is the number of no atom. -/
abbrev Atom := Nat

@[inline] def Atom.collect {α : Type} (n : Nat) (f : Atom → Option α) : List α :=
  n.foldRev (fun a _ found ↦
    match f a with
    | some x => x :: found
    | none => found) []

theorem Atom.collect_eq_filterMap {α : Type} (n : Nat) (f : Atom → Option α) :
    Atom.collect n f = (List.range n).filterMap f := by
  have h (found : List α) : n.foldRev (fun a _ found ↦
      match f a with
      | some x => x :: found
      | none => found) found = (List.range n).filterMap f ++ found := by
    induction n generalizing found with
    | zero => rfl
    | succ n ih =>
      rw [Nat.foldRev_succ, ih, List.range_succ, List.filterMap_append]
      cases hf : f n <;> simp [hf]
  simpa [collect] using h []

/-- A literal in DIMACS code: `a` asserts the atom `a`, and `-a` denies it. -/
abbrev Literal := Int

namespace Literal

def ofAtom (a : Atom) (positive : Bool) : Literal := if positive then a else -a

@[inline] def atom (l : Literal) : Atom := l.natAbs

@[inline] def positive (l : Literal) : Bool := decide (0 < l)

def negate (l : Literal) : Literal := -l

/-- As `ofAtom`, for an atom kept in a 32 bit word. The word is read as signed. -/
def ofWord (a : UInt32) (positive : Bool) : Literal :=
  if positive then a.toInt32.toInt else -a.toInt32.toInt

/-- The greatest atom of which both literals fit a signed 32 bit word. -/
def greatestAtom : Atom := UInt32.size / 2 - 1

def fits (l : Literal) : Bool :=
  decide (Int32.minValue.toInt ≤ l) && decide (l ≤ Int32.maxValue.toInt)

@[simp] theorem atom_ofAtom (a : Atom) (b : Bool) : (ofAtom a b).atom = a := by
  cases b <;> simp [ofAtom, atom]

@[simp] theorem atom_negate (l : Literal) : l.negate.atom = l.atom := by
  simp [negate, atom]

@[simp] theorem ofAtom_atom_positive (l : Literal) : ofAtom l.atom l.positive = l := by
  by_cases h : 0 < l
  · simpa [ofAtom, atom, positive, h] using Int.natAbs_of_nonneg (Int.le_of_lt h)
  · have := Int.ofNat_natAbs_of_nonpos (Int.not_lt.1 h)
    simp [ofAtom, atom, positive, h, this]

/-- An atom of the documented range is kept in a word without change. -/
theorem ofWord_eq_ofAtom {a : UInt32} (h : a.toNat ≤ greatestAtom) (b : Bool) :
    ofWord a b = ofAtom a.toNat b := by
  have hlt : 2 * a.toNat < 2 ^ 32 := by
    have hg : a.toNat ≤ 2 ^ 31 - 1 := h
    omega
  have hi : a.toInt32.toInt = a.toNat := BitVec.toInt_eq_toNat_of_lt hlt
  cases b <;> simp only [ofWord, ofAtom, hi]

theorem atom_eq_zero_iff {l : Literal} : l.atom = 0 ↔ l = 0 := Int.natAbs_eq_zero

theorem atom_ne_zero {l : Literal} (hl : l ≠ 0) : l.atom ≠ 0 := mt atom_eq_zero_iff.1 hl

theorem ofAtom_ne_zero {a : Atom} (ha : a ≠ 0) (b : Bool) : ofAtom a b ≠ 0 := by
  rw [Ne, ← atom_eq_zero_iff, atom_ofAtom]
  exact ha

theorem positive_ofAtom {a : Atom} (ha : a ≠ 0) (b : Bool) : (ofAtom a b).positive = b := by
  cases b
  · simp [ofAtom, positive]
  · simpa [ofAtom, positive] using Nat.pos_of_ne_zero ha

theorem positive_negate {l : Literal} (hl : l ≠ 0) : l.negate.positive = !l.positive := by
  rcases Int.lt_or_gt_of_ne hl with h | h
  · simp [positive, negate, h, Int.le_of_lt h]
  · simp [positive, negate, h, Int.le_of_lt h]

@[simp] theorem negate_negate (l : Literal) : l.negate.negate = l := Int.neg_neg l

@[simp] theorem negate_eq_zero_iff {l : Literal} : l.negate = 0 ↔ l = 0 := Int.neg_eq_zero

theorem eq_of_atom_eq {l m : Literal} (ha : l.atom = m.atom) (hp : l.positive = m.positive) :
    l = m := by
  rw [← ofAtom_atom_positive l, ha, hp, ofAtom_atom_positive]

theorem ofAtom_not_positive {l : Literal} (hl : l ≠ 0) :
    ofAtom l.atom (!l.positive) = l.negate := by
  refine eq_of_atom_eq (by simp) ?_
  rw [positive_ofAtom (atom_ne_zero hl), positive_negate hl]

end Literal

end Dpll
