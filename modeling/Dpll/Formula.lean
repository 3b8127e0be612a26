import Dpll.Clause.Pure

namespace Dpll

def Clause.single? : Clause → Option Literal
  | [l] => some l
  | _ => none

namespace Formula

def size (f : Formula) : Nat := f.flatten.length

/-- The formula that is left when a literal is made true: the clauses which have it are dropped, and
its negation is dropped from the others. -/
def reduce (f : Formula) (l : Literal) : Formula :=
  (f.filter (l ∉ ·)).map fun c ↦ c.filter (· ≠ l.negate)

def Mentions (f : Formula) (a : Atom) : Prop := ∃ l ∈ f.flatten, l.atom = a

theorem size_cons (c : Clause) (f : Formula) : size (c :: f) = c.length + size f := by
  simp [size]

theorem reduce_cons (c : Clause) (f : Formula) (l : Literal) :
    reduce (c :: f) l = if l ∈ c then reduce f l else c.filter (· ≠ l.negate) :: reduce f l := by
  unfold reduce
  by_cases h : l ∈ c <;> simp [h]

theorem size_reduce_le (f : Formula) (l : Literal) : (f.reduce l).size ≤ f.size := by
  induction f with
  | nil => simp [reduce, size]
  | cons c f ih =>
    rw [reduce_cons, size_cons]
    split
    next => omega
    next =>
      have := List.length_filter_le (· ≠ l.negate) c
      rw [size_cons]
      omega

theorem eq_or_eq_negate {l m : Literal} (h : m.atom = l.atom) : m = l ∨ m = l.negate :=
  Int.natAbs_eq_natAbs_iff.1 h

theorem size_reduce_lt {f : Formula} {l : Literal} (h : f.Mentions l.atom) :
    (f.reduce l).size < f.size := by
  induction f with
  | nil => obtain ⟨m, hm, -⟩ := h; cases hm
  | cons c f ih =>
    have hle := size_reduce_le f l
    have hc := List.length_filter_le (· ≠ l.negate) c
    rw [reduce_cons, size_cons]
    obtain ⟨m, hm, ha⟩ := h
    rw [List.flatten_cons, List.mem_append] at hm
    split
    next hl =>
      have := List.length_pos_of_mem hl
      omega
    next hl =>
      rw [size_cons]
      rcases hm with hm | hm
      · rcases eq_or_eq_negate ha with rfl | rfl
        · exact absurd hm hl
        · have : (c.filter (· ≠ l.negate)).length < c.length :=
            List.length_filter_lt_length_iff_exists.2 ⟨_, hm, by simp⟩
          omega
      · have := ih ⟨m, hm, ha⟩
        omega

end Formula

end Dpll
