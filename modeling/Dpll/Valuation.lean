import Dpll.Fault

namespace Dpll

/-- A partial valuation, with the value of atom `a` at index `a`.
Index zero belongs to no atom, and holds a value so that it is never taken for an unvalued one. -/
abbrev Valuation := Array (Option Bool)

namespace Valuation

def blank (n : Nat) : Valuation := #[some true] ++ Array.replicate n none

@[inline] def value (v : Valuation) (a : Atom) : Option Bool := v.getD a none

@[inline] def truth (v : Valuation) (l : Literal) : Option Bool := (v.value l.atom).map (· == l.positive)

def atomCount (v : Valuation) : Nat := v.size - 1

def pairs (v : Valuation) : List (Atom × Option Bool) :=
  (List.range v.size).tail.map fun a ↦ (a, v.value a)

def unvalued (v : Valuation) : List Atom :=
  Atom.collect v.size fun a ↦ if (v.value a).isNone then some a else none

def unvaluedCount (v : Valuation) : Nat := v.count none

def contains (v : Valuation) (a : Atom) : Bool := a != 0 && decide (a < v.size)

def assign (v : Valuation) (a : Atom) (b : Bool) : Except ProblemFault Valuation :=
  if v.contains a then
    match v.value a with
    | some _ => .error (.alreadyAssigned a)
    | none => .ok (v.setIfInBounds a (some b))
  else .error (.unknownAtom a)

def clear (v : Valuation) (a : Atom) : Valuation := v.setIfInBounds a none

/-- Every atom without a value is taken to be false, and so is index zero. -/
def complete (v : Valuation) : List Bool :=
  match v.toList with
  | [] => []
  | _ :: values => false :: values.map fun x ↦ x.getD false

theorem unvaluedCount_assign {v w : Valuation} {a : Atom} {b : Bool} (h : v.assign a b = .ok w) :
    w.unvaluedCount + 1 = v.unvaluedCount := by
  unfold assign at h
  split at h
  next hc =>
    split at h
    next => cases h
    next hn =>
      have ha : a < v.size := by simp_all [contains]
      have hv : v[a] = none := by simpa [value, Array.getD, ha] using hn
      cases h
      have hp : 0 < v.count none := Array.count_pos_iff.2 (hv ▸ Array.getElem_mem ha)
      simp only [unvaluedCount, Array.setIfInBounds, ha, dite_true]
      rw [Array.count_set ha, hv]
      simpa using Nat.sub_add_cancel hp
  next => cases h

end Valuation

end Dpll
