import Dpll.Random.Pcg
import Mathlib.Algebra.Ring.GeomSum
import Mathlib.NumberTheory.Multiplicity
import Mathlib.RingTheory.Coprime.Lemmas
import Mathlib.Tactic.Ring

namespace Dpll.Pcg

open Finset

section Powers

variable {a : ℤ} (ha : 4 ∣ a - 1) (hne : a ≠ 1)
include ha

theorem isCoprime_two_pow (k n : ℕ) : IsCoprime (2 ^ k) (a ^ n) := by
  obtain ⟨b, hb⟩ := ha
  have h : IsCoprime (2 : ℤ) a := ⟨-2 * b, 1, by linarith⟩
  exact h.pow

include hne

/-- A sum of powers has the factor two as often as the number of its terms. -/
theorem emultiplicity_powers (n : ℕ) :
    emultiplicity 2 (∑ k ∈ range n, a ^ k) = emultiplicity 2 (n : ℤ) := by
  have hodd : ¬ 2 ∣ a := by omega
  have hm := Int.two_pow_sub_pow' n ha hodd
  rw [one_pow, ← geom_sum_mul, emultiplicity_mul Int.prime_two, add_comm] at hm
  have hfin : FiniteMultiplicity 2 (a - 1) :=
    Int.finiteMultiplicity_iff.2 ⟨by decide, sub_ne_zero.2 hne⟩
  exact WithTop.add_left_cancel (finiteMultiplicity_iff_emultiplicity_ne_top.1 hfin) hm

theorem two_pow_dvd_powers_mul_iff (k n : ℕ) (d : ℤ) :
    2 ^ k ∣ (∑ i ∈ range n, a ^ i) * d ↔ 2 ^ k ∣ (n : ℤ) * d := by
  rw [pow_dvd_iff_le_emultiplicity, pow_dvd_iff_le_emultiplicity, emultiplicity_mul Int.prime_two,
    emultiplicity_mul Int.prime_two, emultiplicity_powers ha hne]

theorem powers_mul_modEq_iff (k i j : ℕ) (d : ℤ) :
    (∑ n ∈ range i, a ^ n) * d ≡ (∑ n ∈ range j, a ^ n) * d [ZMOD 2 ^ k] ↔
      (i : ℤ) * d ≡ j * d [ZMOD 2 ^ k] := by
  wlog h : i ≤ j
  · rw [Int.modEq_comm, this ha hne k j i d (Nat.le_of_not_le h), Int.modEq_comm]
  obtain ⟨n, rfl⟩ := Nat.exists_eq_add_of_le h
  have hs : (∑ m ∈ range (i + n), a ^ m) * d - (∑ m ∈ range i, a ^ m) * d =
      a ^ i * ((∑ m ∈ range n, a ^ m) * d) := by
    simp only [sum_range_add, pow_add, ← mul_sum]
    ring
  have hn : ((i + n : ℕ) : ℤ) * d - i * d = n * d := by
    push_cast
    ring
  rw [Int.modEq_iff_dvd, Int.modEq_iff_dvd, hs, hn, ← two_pow_dvd_powers_mul_iff ha hne]
  exact ⟨(isCoprime_two_pow ha k i).dvd_of_dvd_mul_left, fun hd ↦ hd.mul_left _⟩

end Powers

theorem next_snd (g : Pcg) : (RandomSource.next g).2 = g.step := rfl

theorem skip_eq_iterate (n : ℕ) (g : Pcg) : RandomSource.skip n g = step^[n] g := by
  induction n generalizing g with
  | zero => rfl
  | succ n ih => rw [Function.iterate_succ_apply, ← ih, ← next_snd, RandomSource.skip]

theorem increment_step (g : Pcg) : g.step.increment = g.increment := by
  rw [step]

theorem increment_iterate (n : ℕ) (g : Pcg) : (step^[n] g).increment = g.increment := by
  induction n with
  | zero => rfl
  | succ n ih => rw [Function.iterate_succ_apply', increment_step, ih]

theorem state_step (g : Pcg) : (g.step.state.toNat : ℤ) ≡
    multiplier.toNat * g.state.toNat + g.increment.toNat [ZMOD 2 ^ 64] := by
  have h : g.step.state.toNat =
      (multiplier.toNat * g.state.toNat + g.increment.toNat) % 2 ^ 64 := by
    rw [step, UInt64.toNat_add, UInt64.toNat_mul, Nat.mod_add_mod, Nat.mul_comm]
  rw [h]
  push_cast
  exact Int.mod_modEq _ _

theorem toNat_multiplier : multiplier.toNat = 6364136223846793005 := by decide

/-- By how much the first step moves the state, as a number not yet cut to 64 bits. -/
def stride (g : Pcg) : ℕ := (multiplier.toNat - 1) * g.state.toNat + g.increment.toNat

theorem state_iterate (n : ℕ) (g : Pcg) : ((step^[n] g).state.toNat : ℤ) ≡
    g.state.toNat + (∑ k ∈ range n, (multiplier.toNat : ℤ) ^ k) * g.stride [ZMOD 2 ^ 64] := by
  induction n with
  | zero => simp
  | succ n ih =>
    have hm : ((multiplier.toNat - 1 : ℕ) : ℤ) = multiplier.toNat - 1 := by
      rw [toNat_multiplier]
      rfl
    have hs : (multiplier.toNat : ℤ) * (g.state.toNat +
        (∑ k ∈ range n, (multiplier.toNat : ℤ) ^ k) * g.stride) + g.increment.toNat =
        g.state.toNat + (∑ k ∈ range (n + 1), (multiplier.toNat : ℤ) ^ k) * g.stride := by
      rw [geom_sum_succ, stride, Nat.cast_add, Nat.cast_mul, hm]
      ring
    rw [Function.iterate_succ_apply', ← hs, ← increment_iterate n g]
    exact (state_step _).trans ((ih.mul_left _).add_right _)

theorem modEq_div_gcd_iff {m d i j : ℕ} (hm : 0 < m) :
    i ≡ j [MOD m / Nat.gcd m d] ↔ i * d ≡ j * d [MOD m] := by
  refine ⟨fun h ↦ (h.mul_right' d).of_dvd ?_, Nat.ModEq.cancel_right_div_gcd hm⟩
  rw [← Nat.mul_div_right_comm (Nat.gcd_dvd_left m d), Nat.mul_div_assoc m (Nat.gcd_dvd_right m d)]
  exact Nat.dvd_mul_right _ _

theorem div_gcd_eq_iff_odd {k : ℕ} (hk : k ≠ 0) (d : ℕ) :
    2 ^ k / Nat.gcd (2 ^ k) d = 2 ^ k ↔ Odd d := by
  rw [Nat.div_eq_self, or_iff_right (Nat.two_pow_pos k).ne', ← Nat.coprime_iff_gcd_eq_one,
    Nat.coprime_pow_left_iff (Nat.pos_of_ne_zero hk), Nat.coprime_two_left]

/-- The number of steps after which the states come round. -/
def period (g : Pcg) : ℕ := 2 ^ 64 / Nat.gcd (2 ^ 64) g.stride

theorem state_iterate_eq_iff (g : Pcg) (i j : ℕ) :
    (step^[i] g).state = (step^[j] g).state ↔ i ≡ j [MOD g.period] := by
  have ha : (4 : ℤ) ∣ multiplier.toNat - 1 := by
    rw [toNat_multiplier]
    decide
  have hne : (multiplier.toNat : ℤ) ≠ 1 := by
    rw [toNat_multiplier]
    decide
  have hlt (n : ℕ) := (step^[n] g).state.toNat_lt
  have hmod : (step^[i] g).state = (step^[j] g).state ↔
      ((step^[i] g).state.toNat : ℤ) ≡ (step^[j] g).state.toNat [ZMOD 2 ^ 64] := by
    rw [← UInt64.toNat_inj]
    constructor
    · intro h
      rw [h]
    · intro h
      exact Nat.ModEq.eq_of_lt_of_lt (Int.natCast_modEq_iff.1 (by exact_mod_cast h)) (hlt i) (hlt j)
  rw [period, modEq_div_gcd_iff (Nat.two_pow_pos 64), hmod, ← Int.natCast_modEq_iff, Nat.cast_mul,
    Nat.cast_mul, Nat.cast_pow, Nat.cast_ofNat, ← powers_mul_modEq_iff ha hne]
  constructor
  · intro h
    exact Int.ModEq.add_left_cancel' _ (((state_iterate i g).symm.trans h).trans (state_iterate j g))
  · intro h
    exact ((state_iterate i g).trans (h.add_left _)).trans (state_iterate j g).symm

theorem period_eq_iff_odd (g : Pcg) : g.period = 2 ^ 64 ↔ Odd g.increment.toNat := by
  rw [period, div_gcd_eq_iff_odd (by decide), stride, toNat_multiplier, Nat.odd_iff, Nat.odd_iff]
  omega

theorem state_ofSeed (seed : UInt64) : (ofSeed seed).state = seed + seedIncrement := by
  rw [ofSeed]

theorem increment_ofSeed (seed : UInt64) : (ofSeed seed).increment = seedIncrement := by
  rw [ofSeed]

theorem toNat_seedIncrement : seedIncrement.toNat = 3215534235932367344 := by decide

theorem odd_state_ofSeed (seed : UInt64) : Odd (ofSeed seed).state.toNat ↔ Odd seed.toNat := by
  have htwo : 2 ∣ 2 ^ 64 := by decide
  rw [state_ofSeed, UInt64.toNat_add, toNat_seedIncrement, Nat.odd_iff, Nat.odd_iff,
    Nat.mod_mod_of_dvd _ htwo]
  omega

theorem stride_ofSeed (seed : UInt64) :
    ∃ m, (ofSeed seed).stride = 4 * m ∧ (Odd m ↔ Odd seed.toNat) := by
  have ha : Odd 1591034055961698251 := by decide
  have hc : Even 803883558983091836 := by decide
  refine ⟨1591034055961698251 * (ofSeed seed).state.toNat + 803883558983091836, ?_, ?_⟩
  · rw [stride, toNat_multiplier, increment_ofSeed, toNat_seedIncrement]
    omega
  · rw [Nat.odd_add, iff_true_right hc, Nat.odd_mul, and_iff_right ha, odd_state_ofSeed]

theorem period_ofSeed (seed : UInt64) :
    (ofSeed seed).period ∣ 2 ^ 62 ∧ ((ofSeed seed).period = 2 ^ 62 ↔ Odd seed.toNat) := by
  obtain ⟨m, hm, hodd⟩ := stride_ofSeed seed
  have hpow : 2 ^ 64 = 4 * 2 ^ 62 := by norm_num
  have hp : (ofSeed seed).period = 2 ^ 62 / Nat.gcd (2 ^ 62) m := by
    rw [period, hm, hpow, Nat.gcd_mul_left, Nat.mul_div_mul_left _ _ (by decide)]
  rw [hp, ← hodd]
  exact ⟨Nat.div_dvd_of_dvd (Nat.gcd_dvd_left _ _), div_gcd_eq_iff_odd (by decide) m⟩

/-- The states of a generator come round after its period, and within it no two of them are the same. The
period is full just if the increment is odd. As that of a seeded generator is even, its period is no more
than a quarter of the full one, and as much just for the odd seeds. -/
theorem period_exact (g : Pcg) (seed : UInt64) :
    (∀ i j, (RandomSource.skip i g).state = (RandomSource.skip j g).state ↔ i ≡ j [MOD g.period]) ∧
    (g.period = 2 ^ 64 ↔ Odd g.increment.toNat) ∧
    (ofSeed seed).period ∣ 2 ^ 62 ∧ ((ofSeed seed).period = 2 ^ 62 ↔ Odd seed.toNat) := by
  refine ⟨fun i j ↦ ?_, period_eq_iff_odd g, period_ofSeed seed⟩
  rw [skip_eq_iterate, skip_eq_iterate]
  exact state_iterate_eq_iff g i j

/-- From this seed the state never changes, and so all words drawn are the same. -/
theorem seed_at_rest :
    let g := ofSeed 254872864731142684
    (∀ n, RandomSource.skip n g = g) ∧
      ∃ i j, i < j ∧ j < 2 ^ 64 ∧
        (RandomSource.skip i g).state = (RandomSource.skip j g).state := by
  intro g
  have hstep : g.step = g := by decide +kernel
  have hrest (n : ℕ) : RandomSource.skip n g = g := by
    rw [skip_eq_iterate, Function.iterate_fixed hstep]
  exact ⟨hrest, 0, 1, Nat.one_pos, by norm_num, by rw [hrest, hrest]⟩

end Dpll.Pcg
