import Mathlib.Algebra.Order.Field.Rat
import Mathlib.Data.Nat.Prime.Basic
import Mathlib.NumberTheory.Padics.PadicVal.Basic
import Mathlib.Tactic.NormNum.Prime

/-!
# Divisibility of scaled decimals

When a number `v * 10 ^ i` is an integer multiple of another one `m * 10 ^ j`, by the factors 2 and
5 of the two mantissas and what is left of the second one without them.
-/

namespace Scaled

/-! ## Stripping a factor -/

/-- The factors `p` of a number, at most `n` of them, and what is left without them. -/
def strip (p : ℕ) : ℕ → ℕ → ℕ × ℕ
  | 0, m => (0, m)
  | n + 1, m => if m % p = 0 then ((strip p n (m / p)).1 + 1, (strip p n (m / p)).2) else (0, m)

section Strip

variable {p n m : ℕ}

lemma strip_eq : p ^ (strip p n m).1 * (strip p n m).2 = m := by
  induction n generalizing m with
  | zero => simp [strip]
  | succ n ih =>
    rw [strip]
    split_ifs with hdvd
    · rw [Nat.pow_succ', Nat.mul_assoc, ih, Nat.mul_div_cancel' (Nat.dvd_of_mod_eq_zero hdvd)]
    · simp

/-- With enough turns no factor is left. -/
lemma strip_rest (hp : 1 < p) (hm : 0 < m) (hlt : m < p ^ n) : ¬ p ∣ (strip p n m).2 := by
  induction n generalizing m with
  | zero =>
    rw [Nat.pow_zero] at hlt
    omega
  | succ n ih =>
    rw [strip]
    split_ifs with hdvd
    · have hle : p ≤ m := Nat.le_of_dvd hm (Nat.dvd_of_mod_eq_zero hdvd)
      refine ih (Nat.div_pos hle (by omega)) ?_
      rwa [Nat.div_lt_iff_lt_mul (by omega), ← Nat.pow_succ]
    · exact fun h => hdvd (Nat.mod_eq_zero_of_dvd h)

/-- All the factors are counted. -/
lemma strip_count [hp : Fact p.Prime] (hm : 0 < m) (hlt : m < p ^ n) :
    (strip p n m).1 = padicValNat p m := by
  have hrest := strip_rest hp.out.one_lt hm hlt
  have hne : (strip p n m).2 ≠ 0 := by
    intro h
    rw [h] at hrest
    exact hrest (dvd_zero p)
  conv_rhs => rw [← strip_eq (p := p) (n := n) (m := m)]
  rw [padicValNat.mul (pow_ne_zero _ hp.out.ne_zero) hne, padicValNat.prime_pow,
    padicValNat.eq_zero_of_not_dvd hrest, Nat.add_zero]

/-- Zero has every factor, as often as is asked for. -/
lemma strip_zero : (strip p n 0).1 = n := by
  induction n with
  | zero => rfl
  | succ n ih => simp [strip, ih]

lemma strip_rest_dvd : (strip p n m).2 ∣ m := Dvd.intro_left _ strip_eq

end Strip

/-! ## Multiples -/

/-- The first decimal is an integer multiple of the second one. -/
def IsMultiple (v i m j : ℤ) : Prop := ∃ q : ℤ, (v : ℚ) * 10 ^ i = q * ((m : ℚ) * 10 ^ j)

/-- Zero is a multiple of everything. -/
lemma isMultiple_zero (i m j : ℤ) : IsMultiple 0 i m j := ⟨0, by simp⟩

/-- Only the difference of the exponents matters. -/
lemma isMultiple_shift (v i m j : ℤ) : IsMultiple v i m j ↔ IsMultiple v (i - j) m 0 := by
  have hpow : (10 : ℚ) ^ i = 10 ^ (i - j) * 10 ^ j := by
    rw [← zpow_add₀ (by norm_num), sub_add_cancel]
  have hne : (10 : ℚ) ^ j ≠ 0 := zpow_ne_zero _ (by norm_num)
  refine exists_congr fun q => ?_
  rw [hpow, zpow_zero, mul_one, ← mul_assoc, ← mul_assoc, mul_left_inj' hne]

/-- The sign does not matter. -/
lemma isMultiple_natAbs (v i m j : ℤ) : IsMultiple v i m j ↔ IsMultiple v.natAbs i m j := by
  rcases Int.natAbs_eq v with h | h
  · rw [← h]
  · generalize hn : (v.natAbs : ℤ) = n at h ⊢
    subst h
    constructor
    · rintro ⟨q, hq⟩
      exact ⟨-q, by push_cast at hq ⊢; linarith⟩
    · rintro ⟨q, hq⟩
      exact ⟨-q, by push_cast at hq ⊢; linarith⟩

/-- Without exponents a multiple is one of the mantissas. -/
lemma isMultiple_int (v m : ℤ) : IsMultiple v 0 m 0 ↔ m ∣ v := by
  constructor
  · rintro ⟨q, hq⟩
    refine ⟨q, ?_⟩
    rw [zpow_zero, mul_one, mul_one, mul_comm (q : ℚ)] at hq
    exact_mod_cast hq
  · rintro ⟨q, rfl⟩
    exact ⟨q, by push_cast; ring⟩

section Natural

variable {v m : ℕ}

/-- A shift to the left multiplies the first mantissa. -/
lemma isMultiple_left (k : ℕ) : IsMultiple v k m 0 ↔ m ∣ v * 10 ^ k := by
  rw [← Int.natCast_dvd_natCast]
  constructor
  · rintro ⟨q, hq⟩
    refine ⟨q, ?_⟩
    rw [zpow_zero, mul_one, zpow_natCast, mul_comm (q : ℚ)] at hq
    exact_mod_cast hq
  · rintro ⟨q, hq⟩
    refine ⟨q, ?_⟩
    rw [zpow_zero, mul_one, zpow_natCast, mul_comm (q : ℚ)]
    exact_mod_cast hq

/-- A shift to the right multiplies the second one. -/
lemma isMultiple_right (k : ℕ) : IsMultiple v (-k) m 0 ↔ m * 10 ^ k ∣ v := by
  rw [← Int.natCast_dvd_natCast]
  have hne : (10 : ℚ) ^ k ≠ 0 := pow_ne_zero _ (by norm_num)
  constructor
  · rintro ⟨q, hq⟩
    refine ⟨q, ?_⟩
    rw [zpow_zero, mul_one, zpow_neg, zpow_natCast, ← div_eq_mul_inv, div_eq_iff hne] at hq
    push_cast
    rw [mul_comm, ← mul_assoc]
    exact_mod_cast hq
  · rintro ⟨q, hq⟩
    refine ⟨q, ?_⟩
    rw [zpow_zero, mul_one, zpow_neg, zpow_natCast, ← div_eq_mul_inv, div_eq_iff hne,
      mul_comm (q : ℚ), mul_right_comm]
    exact_mod_cast hq

/-- A product of powers of 2 and 5 and a number that has neither divides where each part does. -/
lemma parts_dvd {b c r : ℕ} (h2 : ¬ 2 ∣ r) (h5 : ¬ 5 ∣ r) {x : ℕ} :
    2 ^ b * (5 ^ c * r) ∣ x ↔ 2 ^ b ∣ x ∧ 5 ^ c ∣ x ∧ r ∣ x := by
  have hr2 : (2 ^ b).Coprime r :=
    Nat.Coprime.pow_left _ ((Nat.prime_two.coprime_iff_not_dvd).mpr h2)
  have hr5 : (5 ^ c).Coprime r :=
    Nat.Coprime.pow_left _ ((Nat.prime_five.coprime_iff_not_dvd).mpr h5)
  have h25 : (2 ^ b).Coprime (5 ^ c) := Nat.Coprime.pow _ _ (by decide)
  constructor
  · intro h
    have hrest : 5 ^ c * r ∣ x := dvd_of_mul_left_dvd h
    exact ⟨dvd_of_mul_right_dvd h, dvd_of_mul_right_dvd hrest, dvd_of_mul_left_dvd hrest⟩
  · rintro ⟨hb, hc, hr⟩
    exact (Nat.Coprime.mul_right h25 hr2).mul_dvd_of_dvd_of_dvd hb
      (hr5.mul_dvd_of_dvd_of_dvd hc hr)

/-- A number without factors 2 and 5 divides whatever the decimal shift. -/
lemma coprime_dvd_shift {r : ℕ} (h2 : ¬ 2 ∣ r) (h5 : ¬ 5 ∣ r) (k x : ℕ) :
    r ∣ x * 10 ^ k ↔ r ∣ x := by
  have hr : r.Coprime (10 ^ k) := by
    rw [show 10 = 2 * 5 from rfl, Nat.mul_pow]
    exact Nat.Coprime.mul_right
      (Nat.Coprime.pow_right _ ((Nat.prime_two.coprime_iff_not_dvd).mpr h2).symm)
      (Nat.Coprime.pow_right _ ((Nat.prime_five.coprime_iff_not_dvd).mpr h5).symm)
  exact hr.dvd_mul_right

/-- What is stripped of the second mantissa may come from the first one or from the shift. -/
theorem isMultiple_iff (hv : 0 < v) {b c r : ℕ} (h2 : ¬ 2 ∣ r) (h5 : ¬ 5 ∣ r) (k : ℤ) :
    IsMultiple v k ((2 ^ b * (5 ^ c * r) : ℕ) : ℤ) 0 ↔
      (b : ℤ) ≤ k + padicValNat 2 v ∧ (c : ℤ) ≤ k + padicValNat 5 v ∧ r ∣ v := by
  have : Fact (Nat.Prime 5) := ⟨Nat.prime_five⟩
  have hval : ∀ p : ℕ, [Fact p.Prime] → p ∣ 10 → ¬ p ^ 2 ∣ 10 → ∀ n : ℕ,
      padicValNat p (v * 10 ^ n) = padicValNat p v + n := by
    intro p hp hdvd hsq n
    have hone : padicValNat p 10 = 1 := by
      have h1 := (padicValNat_dvd_iff_le (by norm_num : (10 : ℕ) ≠ 0) (p := p) (n := 1)).mp
        (by simpa using hdvd)
      have h2 := mt (padicValNat_dvd_iff_le (by norm_num : (10 : ℕ) ≠ 0) (p := p) (n := 2)).mpr hsq
      omega
    have hpow : padicValNat p (10 ^ n) = n * padicValNat p 10 :=
      padicValNat.pow 10 n
    rw [padicValNat.mul hv.ne' (by positivity), hpow, hone, mul_one]
  obtain ⟨n, rfl | rfl⟩ := k.eq_nat_or_neg
  · rw [isMultiple_left, parts_dvd h2 h5, coprime_dvd_shift h2 h5,
      padicValNat_dvd_iff_le (by positivity), padicValNat_dvd_iff_le (by positivity),
      hval 2 (by norm_num) (by norm_num), hval 5 (by norm_num) (by norm_num)]
    refine and_congr ?_ (and_congr_left fun _ => ?_) <;> omega
  · have hsplit : 2 ^ b * (5 ^ c * r) * 10 ^ n = 2 ^ (b + n) * (5 ^ (c + n) * r) := by
      rw [show 10 = 2 * 5 from rfl, Nat.mul_pow, Nat.pow_add, Nat.pow_add]
      ring
    rw [isMultiple_right, hsplit, parts_dvd h2 h5, padicValNat_dvd_iff_le hv.ne',
      padicValNat_dvd_iff_le hv.ne']
    refine and_congr ?_ (and_congr_left fun _ => ?_) <;> omega

end Natural

end Scaled
