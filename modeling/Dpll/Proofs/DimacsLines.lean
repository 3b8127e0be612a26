import Dpll.Dimacs.Grammar
import Mathlib.Data.List.TakeWhile
import Mathlib.Tactic.Common

namespace Dpll

namespace Decimal

theorem value_eq_zero_iff {ds : List Nat} : value ds = 0 ↔ ∀ d ∈ ds, d = 0 := by
  have h (n : Nat) : ds.foldl (fun n d ↦ n * 10 + d) n = 0 ↔ n = 0 ∧ ∀ d ∈ ds, d = 0 := by
    induction ds generalizing n with
    | nil => simp
    | cons d ds ih =>
      rw [List.foldl_cons, ih, List.forall_mem_cons, ← and_assoc]
      exact and_congr_left fun _ ↦ by omega
  simpa [value] using h 0

end Decimal

theorem Literal.fits_iff {l : Int} : fits l ↔ -2 ^ 31 ≤ l ∧ l ≤ 2 ^ 31 - 1 := by
  rw [fits, Bool.and_eq_true, decide_eq_true_iff, decide_eq_true_iff]
  exact .rfl

theorem Literal.ofAtom_lt_zero {n : Nat} {negative : Bool} (h : ofAtom n (!negative) ≠ 0) :
    ofAtom n (!negative) < 0 ↔ negative := by
  cases negative <;> simp [ofAtom] at *
  omega

theorem Literal.ofAtom_natAbs {l : Int} (h : l ≠ 0) : ofAtom l.natAbs (!decide (l < 0)) = l := by
  rcases Int.lt_or_gt_of_ne h with hl | hl
  · simp only [ofAtom, hl, decide_true, Bool.not_true, Bool.false_eq_true, if_false]
    exact (Int.neg_eq_comm.1 (Int.ofNat_natAbs_of_nonpos (Int.le_of_lt hl)).symm)
  · have hn : ¬ l < 0 := Int.not_lt.2 (Int.le_of_lt hl)
    simp only [ofAtom, hn, decide_false, Bool.not_false, if_true]
    exact Int.natAbs_of_nonneg (Int.le_of_lt hl)

namespace Dimacs

variable {line rest bs digits : Bytes} {n : Nat} {l : Literal} {c : Clause} {h : Header}

theorem isDigit_and_digitValue_eq_zero {b : UInt8} :
    isDigit b ∧ digitValue b = 0 ↔ b = byte '0' := by
  constructor
  · rintro ⟨hd, hv⟩
    have hle : byte '0' ≤ b := by
      rw [isDigit, Bool.and_eq_true] at hd
      exact of_decide_eq_true hd.1
    rw [digitValue, UInt8.toNat_sub_of_le _ _ hle] at hv
    have hle := UInt8.le_iff_toNat_le.1 hle
    exact UInt8.toNat_inj.1 (by omega)
  · rintro rfl
    decide

theorem numeral_zero_iff : Numeral 0 bs ↔ bs ≠ [] ∧ ∀ b ∈ bs, b = byte '0' := by
  constructor
  · intro h
    refine ⟨h.ne_nil, fun b hb ↦ isDigit_and_digitValue_eq_zero.1 ⟨h.digits b hb, ?_⟩⟩
    exact Decimal.value_eq_zero_iff.1 h.value _ (List.mem_map_of_mem hb)
  · rintro ⟨hne, hb⟩
    have hd := fun b h ↦ isDigit_and_digitValue_eq_zero.2 (hb b h)
    refine ⟨hne, fun b h ↦ (hd b h).1, Decimal.value_eq_zero_iff.2 ?_⟩
    simp only [List.forall_mem_map]
    exact fun b h ↦ (hd b h).2

def NoDigit (line : Bytes) : Prop := ∀ b ∈ line.head?, ¬ isDigit b

theorem noDigit_dropWhile (line : Bytes) : NoDigit (line.dropWhile isDigit) := by
  intro b hb
  have h := List.head?_dropWhile_not isDigit line
  rw [Option.mem_def.1 hb] at h
  exact ne_true_of_eq_false h

theorem NoDigit.takeWhile (h : NoDigit line) : line.takeWhile isDigit = [] := by
  cases line with
  | nil => rfl
  | cons b line => exact List.takeWhile_cons_of_neg (h b rfl)

theorem NoDigit.dropWhile (h : NoDigit line) : line.dropWhile isDigit = line := by
  cases line with
  | nil => rfl
  | cons b line => exact List.dropWhile_cons_of_neg (h b rfl)

theorem natural_eq_ok_iff :
    natural line = .ok (n, rest) ↔
      ∃ digits, line = digits ++ rest ∧ Numeral n digits ∧ n < UInt64.size ∧ NoDigit rest := by
  unfold natural
  dsimp only
  rw [Decimal.below?_eq _ (by decide)]
  constructor
  · intro h
    by_cases hlt : Decimal.value ((line.takeWhile isDigit).map digitValue) < UInt64.size
    · rw [if_pos hlt] at h
      dsimp only at h
      split at h
      next => cases h
      next hne =>
        cases h
        exact ⟨_, List.takeWhile_append_dropWhile.symm,
          ⟨mt List.isEmpty_iff.2 hne, fun _ ↦ List.mem_takeWhile_imp, rfl⟩, hlt,
          noDigit_dropWhile line⟩
    · rw [if_neg hlt] at h
      cases h
  · rintro ⟨digits, rfl, hn, hlt, hr⟩
    rw [List.takeWhile_append_of_pos hn.digits, List.dropWhile_append_of_pos hn.digits,
      hr.takeWhile, hr.dropWhile, List.append_nil, hn.value, if_pos hlt]
    exact if_neg (mt List.isEmpty_iff.1 hn.ne_nil)

theorem atEnd_iff : atEnd line ↔ LineEnd line := by
  constructor
  · intro h
    unfold atEnd at h
    dsimp only at h
    rw [Bool.or_eq_true, List.isEmpty_iff, decide_eq_true_iff] at h
    split at h
    next hc =>
      obtain ⟨line, rfl⟩ := List.head?_eq_some_iff.1 hc
      rcases h with rfl | rfl
      · exact .carriage
      · exact .carriageNewline
    next =>
      rcases h with rfl | rfl
      · exact .none
      · exact .newline
  · rintro (_ | _ | _ | _) <;> decide

theorem LineEnd.noDigit (h : LineEnd line) : NoDigit line := by
  cases h <;> simp [NoDigit] <;> decide

theorem expectEnd_eq_ok_iff {u : Unit} : expectEnd line = .ok u ↔ LineEnd line := by
  rw [← atEnd_iff, expectEnd]
  split
  next h => exact iff_of_true rfl h
  next h => exact iff_of_false nofun h

theorem sign_minus (negative : Bool) (hd : digits ≠ []) (hb : ∀ b ∈ digits, isDigit b) :
    sign (minus negative ++ (digits ++ rest)) = (negative, digits ++ rest) := by
  cases negative with
  | true => rfl
  | false =>
    obtain ⟨b, bs, rfl⟩ := List.exists_cons_of_ne_nil hd
    have hne : b ≠ byte '-' := by
      rintro rfl
      exact absurd (hb _ (.head _)) (by decide)
    simp [sign, minus, hne]

theorem minus_sign (line : Bytes) : minus (sign line).1 ++ (sign line).2 = line := by
  unfold sign
  split
  next h =>
    obtain ⟨bs, rfl⟩ := List.head?_eq_some_iff.1 h
    rfl
  next => rfl

theorem literal_eq_ok_iff :
    literal line = .ok (l, rest) ↔
      ∃ negative n digits, line = minus negative ++ (digits ++ rest) ∧ Numeral n digits ∧
        l = .ofAtom n !negative ∧ l.fits ∧ NoDigit rest := by
  unfold literal
  constructor
  · intro h
    split at h
    next => cases h
    next n rest' hn =>
      obtain ⟨digits, hd, hv, -, hr⟩ := natural_eq_ok_iff.1 hn
      dsimp only at h
      split at h
      next hf =>
        cases h
        exact ⟨(sign line).1, n, digits, by rw [← hd, minus_sign], hv, rfl, hf, hr⟩
      next => cases h
  · rintro ⟨negative, n, digits, rfl, hn, rfl, hf, hr⟩
    have hlt : n < UInt64.size := by
      have hl := Literal.fits_iff.1 hf
      have ha : Int.natAbs (Literal.ofAtom n !negative) = n := Literal.atom_ofAtom n _
      simp only [UInt64.size]
      omega
    rw [sign_minus negative hn.ne_nil hn.digits, natural_eq_ok_iff.2 ⟨digits, rfl, hn, hlt, hr⟩]
    exact if_pos hf

theorem clause_of_clauseLine (h : ClauseLine c line) : clause line = .ok c := by
  induction h with
  | @zero zeros ending negative hz h he =>
    have hl : literal (minus negative ++ (zeros ++ ending)) = .ok (0, ending) :=
      literal_eq_ok_iff.2
        ⟨negative, 0, zeros, rfl, numeral_zero_iff.2 ⟨hz, h⟩, by cases negative <;> rfl, by decide,
          he.noDigit⟩
    rw [clause, hl]
    cases ending with
    | nil => rfl
    | cons b ending =>
      have hu : expectEnd (b :: ending) = .ok () := expectEnd_eq_ok_iff.2 he
      dsimp only
      rw [if_pos rfl, hu]
      rfl
  | @literal l c digits line h₀ hl hd hc ih =>
    have hl' : literal (minus (decide (l < 0)) ++ (digits ++ byte ' ' :: line)) =
        .ok (l, byte ' ' :: line) := by
      refine literal_eq_ok_iff.2 ⟨_, _, digits, rfl, hd, ?_, Literal.fits_iff.2 hl, ?_⟩
      · exact (Literal.ofAtom_natAbs h₀).symm
      · rintro _ ⟨⟩
        decide
    rw [clause, hl']
    dsimp only
    rw [if_neg h₀, if_pos rfl, ih]
    rfl

theorem clauseLine_nil (h : literal line = .ok (0, rest)) (he : LineEnd rest) :
    ClauseLine [] line := by
  obtain ⟨negative, n, digits, rfl, hn, hl, -, -⟩ := literal_eq_ok_iff.1 h
  have h₀ : n = 0 := by
    rw [← Literal.atom_ofAtom n, ← hl]
    rfl
  subst h₀
  obtain ⟨hne, hz⟩ := numeral_zero_iff.1 hn
  exact .zero negative hne hz he

theorem clauseLine_cons (h : literal line = .ok (l, byte ' ' :: rest)) (hl : l ≠ 0)
    (hc : ClauseLine c rest) : ClauseLine (l :: c) line := by
  obtain ⟨negative, n, digits, rfl, hn, rfl, hf, -⟩ := literal_eq_ok_iff.1 h
  have hs : negative = decide (Literal.ofAtom n (!negative) < 0) := by
    rw [decide_eq_decide.2 (Literal.ofAtom_lt_zero hl), Bool.decide_coe]
  have hd : Numeral (Int.natAbs (Literal.ofAtom n !negative)) digits := by
    rwa [show Int.natAbs (Literal.ofAtom n !negative) = n from Literal.atom_ofAtom n _]
  have hcl := ClauseLine.literal hl (Literal.fits_iff.1 hf) hd hc
  rwa [← hs] at hcl

theorem clauseLine_of_clause (h : clause line = .ok c) : ClauseLine c line := by
  fun_induction clause line generalizing c with
  | case1 line fault hl => cases h
  | case2 line hl =>
    cases h
    exact clauseLine_nil hl .none
  | case3 line l hl hne => cases h
  | case4 line b rest hl =>
    cases he : expectEnd (b :: rest) with
    | error fault => rw [he] at h; cases h
    | ok _ =>
      rw [he] at h
      cases h
      exact clauseLine_nil hl (expectEnd_eq_ok_iff.1 he)
  | case5 line l rest hne hl ih =>
    cases hc : clause rest with
    | error fault => rw [hc] at h; cases h
    | ok c' =>
      rw [hc] at h
      cases h
      exact clauseLine_cons hl hne (ih hc)
  | case6 line l b rest hl hne hb => cases h

theorem clause_eq_ok_iff : clause line = .ok c ↔ ClauseLine c line :=
  ⟨clauseLine_of_clause, clause_of_clauseLine⟩

theorem expect_eq_ok_iff {fault : LineFault} {b : UInt8} :
    expect fault b line = .ok rest ↔ line = b :: rest := by
  cases line with
  | nil => exact iff_of_false nofun nofun
  | cons x line =>
    by_cases h : x = b
    · simp [expect, h]
    · simp [expect, h]

theorem expectAll_eq_ok_iff {fault : LineFault} :
    expectAll fault bs line = .ok rest ↔ line = bs ++ rest := by
  induction bs generalizing line with
  | nil => simp [expectAll, pure, Except.pure]
  | cons b bs ih =>
    rw [expectAll, List.foldlM_cons]
    constructor
    · intro h
      cases hx : expect fault b line with
      | error e => rw [hx] at h; cases h
      | ok line' =>
        rw [hx] at h
        rw [expect_eq_ok_iff.1 hx, ih.1 h]
        rfl
    · rintro rfl
      rw [List.cons_append, expect_eq_ok_iff.2 rfl]
      exact ih.2 rfl

theorem bind_eq_ok_iff {ε α β : Type} {x : Except ε α} {f : α → Except ε β} {b : β} :
    x >>= f = .ok b ↔ ∃ a, x = .ok a ∧ f a = .ok b := by
  cases x with
  | error e => exact iff_of_false nofun nofun
  | ok a => exact ⟨fun h ↦ ⟨a, rfl, h⟩, fun ⟨_, ha, h⟩ ↦ by cases ha; exact h⟩

theorem specification_eq_ok_iff : specification line = .ok h ↔ HeaderLine h line := by
  simp only [specification, bind_eq_ok_iff, expectAll_eq_ok_iff, expect_eq_ok_iff,
    natural_eq_ok_iff, expectEnd_eq_ok_iff, Prod.exists]
  constructor
  · rintro ⟨_, rfl, n, _, ⟨ns, rfl, hn, -⟩, _, rfl, m, _, ⟨ms, rfl, hm, hlt, -⟩, _, he, hs⟩
    split at hs
    next => cases hs
    next hle =>
      cases hs
      exact .counts hn hm he (Nat.le_of_not_lt hle) (Nat.le_of_lt_succ hlt)
  · rintro (⟨hn, hm, he, hn', hm'⟩)
    refine ⟨_, rfl, _, _, ⟨_, rfl, hn, ?_, ?_⟩, _, rfl, _, _,
      ⟨_, rfl, hm, Nat.lt_succ_of_le hm', he.noDigit⟩, (), he, if_neg (Nat.not_lt_of_le hn')⟩
    · exact Nat.lt_of_le_of_lt hn' (by decide)
    · rintro _ ⟨⟩
      decide

end Dimacs

end Dpll
