import Dpll.Clause

namespace Dpll

structure Sighting where
  positive : Bool := false
  negative : Bool := false
  deriving DecidableEq

namespace Sighting

def note (s : Sighting) (positive : Bool) : Sighting :=
  if positive then { s with positive := true } else { s with negative := true }

def only? (s : Sighting) : Option Bool := if s.positive = s.negative then none else some s.positive

def table (n : Nat) (ls : List Literal) : Array Sighting :=
  ls.foldl (fun seen l ↦ seen.modify l.atom (·.note l.positive)) (Array.replicate (n + 1) {})

end Sighting

/-- The literals whose negation does not occur, one for each atom up to `n`, in order of atom. -/
def pureLiterals (n : Nat) (ls : List Literal) : List Literal :=
  let seen := Sighting.table n ls
  Atom.collect (n + 1) fun a ↦ (seen.getD a {}).only?.map (Literal.ofAtom a)

namespace Sighting

/-- Whether the table has noted nothing but literals of which `P` holds. -/
def Only (P : Literal → Prop) (seen : Array Sighting) : Prop :=
  ∀ a, ((seen.getD a {}).positive → P (.ofAtom a true)) ∧
    ((seen.getD a {}).negative → P (.ofAtom a false))

theorem only_note {P : Literal → Prop} {seen : Array Sighting} {l : Literal}
    (h : Only P seen) (hl : P l) : Only P (seen.modify l.atom (·.note l.positive)) := by
  intro a
  by_cases ha : l.atom = a ∧ a < seen.size
  · obtain ⟨rfl, hs⟩ := ha
    have ho := h l.atom
    have hl' : P (.ofAtom l.atom l.positive) := by simpa using hl
    simp only [Array.getD_eq_getD_getElem?, Array.getElem?_modify] at ho ⊢
    simp only [hs, Array.getElem?_eq_getElem, Option.getD_some] at ho
    cases hp : l.positive <;> simp_all [note]
  · have : (seen.modify l.atom (·.note l.positive)).getD a {} = seen.getD a {} := by
      simp only [Array.getD_eq_getD_getElem?, Array.getElem?_modify]
      split
      next he =>
        have : ¬ a < seen.size := fun hs ↦ ha ⟨he, hs⟩
        simp [Array.getElem?_eq_none (Nat.not_lt.1 this)]
      next => rfl
    rw [this]
    exact h a

theorem only_foldl {P : Literal → Prop} (ls : List Literal) (hP : ∀ l ∈ ls, P l)
    (seen : Array Sighting) (h : Only P seen) :
    Only P (ls.foldl (fun seen l ↦ seen.modify l.atom (·.note l.positive)) seen) := by
  induction ls generalizing seen with
  | nil => exact h
  | cons l ls ih =>
    exact ih (fun m hm ↦ hP m (.tail _ hm)) _ (only_note h (hP l (.head _)))

theorem only_table (n : Nat) (ls : List Literal) : Only (· ∈ ls) (table n ls) := by
  refine only_foldl ls (fun _ h ↦ h) _ fun a ↦ ?_
  by_cases ha : a < n + 1 <;> simp [Array.getD, ha]

end Sighting

theorem mem_of_mem_pureLiterals {n : Nat} {ls : List Literal} {l : Literal}
    (h : l ∈ pureLiterals n ls) : l ∈ ls := by
  rw [pureLiterals, Atom.collect_eq_filterMap] at h
  obtain ⟨a, -, ha⟩ := List.mem_filterMap.1 h
  have ho := Sighting.only_table n ls a
  simp only [Sighting.only?] at ha
  split at ha
  next => cases ha
  next hne =>
    cases ha
    cases hp : ((Sighting.table n ls).getD a {}).positive
    · exact ho.2 (Bool.not_eq_false _ ▸ fun hn ↦ hne (hp.trans hn.symm))
    · exact ho.1 hp

end Dpll
