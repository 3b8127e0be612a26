import Dpll.Random.Chooser
import Dpll.Random.Source

namespace Dpll

/-- A coin whose flips are the bits of the words of a source, from the highest bit of each on. -/
structure Coin (ρ : Type) where
  source : ρ
  word : UInt32 := 0
  left : Nat := 0

namespace Coin

variable {ρ : Type} [RandomSource ρ]

def isHeads (word : UInt32) (i : Nat) : Bool := word >>> i.toUInt32 &&& 1 == 0

@[inline] def flip : Coin ρ → Bool × Coin ρ
  | ⟨source, _, 0⟩ =>
    let (word, source) := RandomSource.next source
    (isHeads word 31, ⟨source, word, 31⟩)
  | ⟨source, word, left + 1⟩ => (isHeads word left, ⟨source, word, left⟩)

@[specialize] def allHeads : Nat → Coin ρ → Bool × Coin ρ
  | 0, c => (true, c)
  | n + 1, c =>
    match c.flip with
    | (true, c) => allHeads n c
    | (false, c) => (false, c)

def batch (n d : Nat) : Nat := min 32 (max 1 (d.log2 - n.log2 - 1))

/-- True with a chance of `n` in `d`. With each round the chance is doubled by heads, and by tails
either lost or, if it was above a half, left as what exceeds the half. -/
@[specialize] def chance : Nat → Nat → Nat → Coin ρ → Bool × Coin ρ
  | 0, _, _, c => (false, c)
  | rounds + 1, n, d, c =>
    if d ≤ n then (true, c)
    else
      match c.allHeads (batch n d) with
      | (true, c) => chance rounds (n <<< batch n d) d c
      | (false, c) =>
        if batch n d = 1 ∧ d < 2 * n then chance rounds (2 * n - d) d c else (false, c)

/-- More rounds than are ever flipped, as each round ends a chance for half of the flips. -/
def rounds : Nat := UInt32.size

@[inline] def oneIn (d : Nat) (c : Coin ρ) : Bool × Coin ρ :=
  match c.allHeads (min 32 d.log2) with
  | (true, c) => chance rounds (1 <<< min 32 d.log2) d c
  | (false, c) => (false, c)

/-- Goes through a list, of which `seen` elements came before, and takes the `k`-th with a chance of
one in `k` in place of the element taken before. -/
@[specialize] def pick {α : Type} (seen : Nat) (taken : Option α) : List α → Coin ρ → Option α × Coin ρ
  | [], c => (taken, c)
  | x :: rest, c =>
    let (won, c) := c.oneIn (seen + 1)
    pick (seen + 1) (if won then some x else taken) rest c

theorem oneIn_one (c : Coin ρ) : c.oneIn 1 = (true, c) := by
  obtain ⟨k, hk⟩ : ∃ k, rounds = k + 1 := ⟨UInt32.size - 1, rfl⟩
  have hl : min 32 (Nat.log2 1) = 0 := rfl
  simp [oneIn, hl, allHeads, hk, chance]

theorem exists_of_pick_some {α : Type} (xs : List α) (seen : Nat) (x : α) (c : Coin ρ) :
    ∃ y, (pick seen (some x) xs c).1 = some y ∧ (y = x ∨ y ∈ xs) := by
  induction xs generalizing seen x c with
  | nil => exact ⟨x, rfl, .inl rfl⟩
  | cons z xs ih =>
    unfold pick
    rcases c.oneIn (seen + 1) with ⟨won, c⟩
    cases won
    · obtain ⟨y, hy, hm⟩ := ih (seen + 1) x c
      exact ⟨y, hy, hm.imp_right (.tail _)⟩
    · obtain ⟨y, hy, hm⟩ := ih (seen + 1) z c
      exact ⟨y, hy, .inr (List.mem_cons.2 hm)⟩

end Coin

namespace RandomSource

variable {ρ : Type} [RandomSource ρ]

/-- Some element of a list, each as likely as the others. Bits left over from a choice are lost. -/
def choose {α : Type} (xs : List α) (r : ρ) : Option α × ρ :=
  let (taken, c) := Coin.pick 0 none xs { source := r }
  (taken, c.source)

theorem exists_of_choose {α : Type} {xs : List α} (h : xs ≠ []) (r : ρ) :
    ∃ x ∈ xs, (choose xs r).1 = some x := by
  cases xs with
  | nil => exact absurd rfl h
  | cons x xs =>
    obtain ⟨y, hy, hm⟩ := Coin.exists_of_pick_some xs 1 x ({ source := r } : Coin ρ)
    refine ⟨y, List.mem_cons.2 hm, ?_⟩
    unfold choose Coin.pick
    rw [Coin.oneIn_one]
    exact hy

instance chooser : Chooser ρ where
  choose
  choose_nil _ := rfl
  exists_of_choose

end RandomSource

end Dpll
