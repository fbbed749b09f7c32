import Mathlib.Data.Rat.Cast.Order
import Mathlib.Order.WithBot
import Mathlib.Tactic.IntervalCases
import Mathlib.Tactic.Positivity
import Mathlib.Tactic.Ring
import Teptris.Dom.Rounding

/-!
# Comparing and converting doubles

The comparisons of C on doubles, by the value a double stands for, and the conversions between
doubles and 64-bit integers.
-/

namespace Teptris.Double

/-! ## Comparisons -/

/-- The value of a finite double. -/
def value (f : Double) : ℚ := if f.signBit then -f.magnitude else f.magnitude

/-- The value of a double that is no NaN, infinities included. -/
def ext (f : Double) : WithBot (WithTop ℚ) :=
  if f.isInf then if f.signBit then ⊥ else ((⊤ : WithTop ℚ) : WithBot (WithTop ℚ))
  else ((f.value : WithTop ℚ) : WithBot (WithTop ℚ))

/-- `a == b`. -/
def eq (a b : Double) : Bool := !a.isNan && !b.isNan && decide (a.ext = b.ext)

/-- `a < b`. -/
def lt (a b : Double) : Bool := !a.isNan && !b.isNan && decide (a.ext < b.ext)

/-- `a <= b`. -/
def le (a b : Double) : Bool := !a.isNan && !b.isNan && decide (a.ext ≤ b.ext)

section Finite

variable {a b : Double}

lemma not_isNan (h : a.isFinite = true) : a.isNan = false := by
  rw [isFinite, Bool.and_eq_true] at h
  simpa using h.1

lemma not_isInf (h : a.isFinite = true) : a.isInf = false := by
  rw [isFinite, Bool.and_eq_true] at h
  simpa using h.2

lemma ext_finite (h : a.isFinite = true) :
    a.ext = ((a.value : WithTop ℚ) : WithBot (WithTop ℚ)) := by
  rw [ext, not_isInf h]
  rfl

/-- Finite doubles compare as their values do. -/
lemma eq_iff (ha : a.isFinite = true) (hb : b.isFinite = true) :
    a.eq b = true ↔ a.value = b.value := by
  simp [eq, not_isNan ha, not_isNan hb, ext_finite ha, ext_finite hb]

lemma lt_iff (ha : a.isFinite = true) (hb : b.isFinite = true) :
    a.lt b = true ↔ a.value < b.value := by
  simp [lt, not_isNan ha, not_isNan hb, ext_finite ha, ext_finite hb]

lemma le_iff (ha : a.isFinite = true) (hb : b.isFinite = true) :
    a.le b = true ↔ a.value ≤ b.value := by
  simp [le, not_isNan ha, not_isNan hb, ext_finite ha, ext_finite hb]

end Finite

/-! ## Doubles by their fields -/

/-- The positive double with these fields. -/
def ofFields (e f : ℕ) : Double := ⟨UInt64.ofNat (e * 2 ^ 52 + f)⟩

section Fields

variable {e f : ℕ}

lemma ofFields_toNat (he : e < 2047) (hf : f < 2 ^ 52) :
    (ofFields e f).bits.toNat = e * 2 ^ 52 + f := by
  have hlt : e * 2 ^ 52 + f < 2 ^ 64 := by omega
  rw [ofFields, UInt64.toNat_ofNat', Nat.mod_eq_of_lt hlt]

lemma expBits_ofFields (he : e < 2047) (hf : f < 2 ^ 52) :
    (ofFields e f).expBits.toNat = e := by
  have hmask : (0x7FF : UInt64).toNat = 2 ^ 11 - 1 := rfl
  have hshift : (52 : UInt64).toNat % 64 = 52 := rfl
  rw [expBits, UInt64.toNat_and, hmask, Nat.and_two_pow_sub_one_eq_mod, UInt64.toNat_shiftRight,
    hshift, ofFields_toNat he hf, Nat.shiftRight_eq_div_pow]
  omega

lemma fracBits_ofFields (he : e < 2047) (hf : f < 2 ^ 52) :
    (ofFields e f).fracBits.toNat = f := by
  have hmask : (0xFFFFFFFFFFFFF : UInt64).toNat = 2 ^ 52 - 1 := rfl
  rw [fracBits, UInt64.toNat_and, hmask, Nat.and_two_pow_sub_one_eq_mod, ofFields_toNat he hf]
  omega

lemma signBit_ofFields (he : e < 2047) (hf : f < 2 ^ 52) : (ofFields e f).signBit = false := by
  have hshift : (63 : UInt64).toNat % 64 = 63 := rfl
  rw [signBit, beq_eq_false_iff_ne]
  intro h
  have hone := congrArg UInt64.toNat h
  rw [UInt64.toNat_shiftRight, hshift, ofFields_toNat he hf, Nat.shiftRight_eq_div_pow] at hone
  have hlit : (1 : UInt64).toNat = 1 := rfl
  omega

/-- An exponent below the last one is that of a finite double. -/
lemma isFinite_of_expBits {d : Double} (h : d.expBits.toNat < 2047) : d.isFinite = true := by
  have hne : d.expBits ≠ 0x7FF := by
    intro heq
    rw [heq] at h
    exact absurd h (by decide)
  have hbeq : (d.expBits == 0x7FF) = false := by rwa [beq_eq_false_iff_ne]
  simp [isFinite, isNan, isInf, hbeq]

lemma isFinite_ofFields (he : e < 2047) (hf : f < 2 ^ 52) : (ofFields e f).isFinite = true :=
  isFinite_of_expBits (by rwa [expBits_ofFields he hf])

lemma magnitude_ofFields (he : e < 2047) (hf : f < 2 ^ 52) (hpos : 0 < e) :
    (ofFields e f).magnitude = (2 ^ 52 + f) * 2 ^ ((e : ℤ) - 1075) := by
  have hne : (ofFields e f).expBits ≠ 0 := by
    intro heq
    have hz := expBits_ofFields he hf
    rw [heq] at hz
    simp at hz
    omega
  rw [magnitude, if_neg hne, expBits_ofFields he hf, fracBits_ofFields he hf]

end Fields

/-! ## The grid of doubles -/

/-- From `2 ^ e` on every double is a multiple of `2 ^ (e - 52)`. -/
lemma magnitude_multiple {d : Double} {e : ℤ} (he : -1022 ≤ e) (hle : 2 ^ e ≤ d.magnitude) :
    ∃ m : ℕ, d.magnitude = m * 2 ^ (e - 52) := by
  have htwo : (0 : ℚ) < 2 := by norm_num
  have hfrac : (d.fracBits.toNat : ℚ) < 2 ^ 52 := by exact_mod_cast fracBits_lt d
  rw [magnitude] at hle ⊢
  split_ifs at hle ⊢ with hexp
  · -- no double without an exponent gets that far
    exfalso
    have hsmall : (d.fracBits.toNat : ℚ) * 2 ^ (-1074 : ℤ) < 2 ^ (52 : ℤ) * 2 ^ (-1074 : ℤ) :=
      mul_lt_mul_of_pos_right (by exact_mod_cast hfrac) (zpow_pos htwo _)
    rw [← zpow_add₀ htwo.ne'] at hsmall
    have hmono : (2 : ℚ) ^ (52 + -1074 : ℤ) ≤ 2 ^ e := zpow_le_zpow_right₀ (by norm_num) (by omega)
    exact absurd (lt_of_le_of_lt hle hsmall) (not_lt.mpr hmono)
  · generalize hx : (d.expBits.toNat : ℤ) = x at hle ⊢
    have hlt : (2 : ℚ) ^ e < 2 ^ (x - 1022) := by
      refine lt_of_le_of_lt hle ?_
      have hbound : (2 ^ 52 + (d.fracBits.toNat : ℚ)) < 2 ^ (53 : ℤ) := by
        have : (2 : ℚ) ^ (53 : ℤ) = 2 ^ 52 + 2 ^ 52 := by norm_num
        linarith
      have hscale : (2 : ℚ) ^ (x - 1022) = 2 ^ (53 : ℤ) * 2 ^ (x - 1075) := by
        rw [← zpow_add₀ htwo.ne']
        congr 1
        ring
      rw [hscale]
      exact mul_lt_mul_of_pos_right hbound (zpow_pos htwo (x - 1075))
    have hexps : e < x - 1022 := (zpow_lt_zpow_iff_right₀ (by norm_num)).mp hlt
    obtain ⟨k, hk⟩ := Int.eq_ofNat_of_zero_le (show 0 ≤ x - 1075 - (e - 52) by omega)
    refine ⟨(2 ^ 52 + d.fracBits.toNat) * 2 ^ k, ?_⟩
    have hsplit : (2 : ℚ) ^ (x - 1075) = 2 ^ k * 2 ^ (e - 52) := by
      rw [← zpow_natCast, ← zpow_add₀ htwo.ne', ← hk]
      congr 1
      ring
    rw [hsplit]
    push_cast
    ring

lemma magnitude_nonneg (d : Double) : 0 ≤ d.magnitude := by
  have hscale : ∀ e : ℤ, 0 ≤ (2 : ℚ) ^ e := zpow_nonneg (by norm_num)
  rw [magnitude]
  split_ifs
  · exact mul_nonneg (Nat.cast_nonneg _) (hscale _)
  · exact mul_nonneg (by positivity) (hscale _)

/-- A multiple of the grid at `2 ^ e` within half a step of `n` is the nearest double. -/
lemma isNearest_of_grid {d : Double} (hd : d.isFinite = true) {n : ℚ} {e : ℤ} (he : -1022 ≤ e)
    (hlow : 2 ^ e ≤ n) (hbounded : n < 2 ^ 1024 - 2 ^ 970) {q : ℕ} (hq52 : 2 ^ 52 ≤ q)
    (hq : d.magnitude = q * 2 ^ (e - 52)) (hnear : 2 * |n - q * 2 ^ (e - 52)| ≤ 2 ^ (e - 52))
    (htie : 2 * |n - q * 2 ^ (e - 52)| = 2 ^ (e - 52) → d.fracBits.toNat % 2 = 0) :
    d.IsNearest n := by
  have hu : (0 : ℚ) < 2 ^ (e - 52) := zpow_pos (by norm_num) _
  have hbase : (2 : ℚ) ^ e = 2 ^ 52 * 2 ^ (e - 52) := by
    rw [← zpow_natCast, ← zpow_add₀ (by norm_num)]
    congr 1
    push_cast
    ring
  rw [hbase] at hlow
  -- a double off the grid lies below it, and farther away
  have hoff : ∀ g : Double, ¬ 2 ^ e ≤ g.magnitude → |n - d.magnitude| < |n - g.magnitude| := by
    intro g hg
    rw [hbase, not_le] at hg
    rw [hq, abs_of_pos (show 0 < n - g.magnitude by linarith)]
    rcases le_or_gt (q * 2 ^ (e - 52) : ℚ) n with hle | hgt
    · rw [abs_of_nonneg (by linarith)]
      have hstep : (2 : ℚ) ^ 52 * 2 ^ (e - 52) ≤ q * 2 ^ (e - 52) :=
        mul_le_mul_of_nonneg_right (by exact_mod_cast hq52) hu.le
      linarith
    · have hbig : 2 ^ 52 < q := by
        by_contra hle
        have heq : q = 2 ^ 52 := by omega
        rw [heq] at hgt
        push_cast at hgt
        linarith
      have hstep : ((2 : ℚ) ^ 52 + 1) * 2 ^ (e - 52) ≤ q * 2 ^ (e - 52) :=
        mul_le_mul_of_nonneg_right (by exact_mod_cast hbig) hu.le
      rw [abs_of_neg (by linarith)] at hnear ⊢
      linarith
  -- another multiple is no nearer than half a step
  have hon : ∀ g : Double, 2 ^ e ≤ g.magnitude → g.magnitude ≠ d.magnitude →
      2 ^ (e - 52) ≤ |n - g.magnitude| + |n - d.magnitude| := by
    intro g hg hne
    obtain ⟨m, hm⟩ := magnitude_multiple he hg
    have hmq : (m : ℤ) ≠ q := by
      rintro heq
      rw [hm, hq] at hne
      exact hne (by rw [show m = q by exact_mod_cast heq])
    have hone : (1 : ℚ) ≤ |((m : ℤ) - q : ℤ)| := by
      exact_mod_cast Int.one_le_abs (sub_ne_zero.mpr hmq)
    have hdist : |g.magnitude - d.magnitude| = |(((m : ℤ) - q : ℤ) : ℚ)| * 2 ^ (e - 52) := by
      rw [hm, hq, ← sub_mul, abs_mul, abs_of_pos hu]
      push_cast
      rfl
    calc (2 : ℚ) ^ (e - 52) ≤ |(((m : ℤ) - q : ℤ) : ℚ)| * 2 ^ (e - 52) :=
          le_mul_of_one_le_left hu.le (by exact_mod_cast hone)
      _ = |g.magnitude - d.magnitude| := hdist.symm
      _ ≤ |g.magnitude - n| + |n - d.magnitude| := abs_sub_le _ _ _
      _ = |n - g.magnitude| + |n - d.magnitude| := by rw [abs_sub_comm g.magnitude n]
  rw [← hq] at hnear htie
  refine ⟨hd, hbounded, fun g _ => ?_, fun g _ heq => ?_⟩
  · by_cases hg : 2 ^ e ≤ g.magnitude
    · by_cases hsame : g.magnitude = d.magnitude
      · rw [hsame]
      · have := hon g hg hsame
        linarith
    · exact (hoff g hg).le
  · by_cases hg : 2 ^ e ≤ g.magnitude
    · by_cases hsame : g.magnitude = d.magnitude
      · exact .inl hsame
      · have := hon g hg hsame
        exact .inr (htie (by linarith))
    · exact absurd heq (hoff g hg).ne'

/-! ## From integers -/

/-- A natural number below `2 ^ 64`, rounded to the nearest double, of two to the even one. -/
def ofNat (n : ℕ) : Double :=
  if n = 0 then ⟨0⟩
  else
    let e := n.log2
    if e ≤ 52 then ofFields (1023 + e) (n * 2 ^ (52 - e) - 2 ^ 52)
    else
      let s := e - 52
      let q := n / 2 ^ s
      let r := n % 2 ^ s
      let q := if 2 ^ s < 2 * r ∨ 2 ^ s = 2 * r ∧ q % 2 = 1 then q + 1 else q
      if q = 2 ^ 53 then ofFields (1024 + e) 0 else ofFields (1023 + e) (q - 2 ^ 52)

/-- A number of less than 53 digits is a double. -/
lemma ofNat_exact {n : ℕ} (hn : n < 2 ^ 53) :
    (ofNat n).isFinite = true ∧ (ofNat n).magnitude = n ∧ (ofNat n).signBit = false := by
  rw [ofNat]
  by_cases hzero : n = 0
  · rw [if_pos hzero, hzero]
    refine ⟨by decide, ?_, by decide⟩
    have hexp : (⟨0⟩ : Double).expBits = 0 := by decide
    have hfrac : (⟨0⟩ : Double).fracBits.toNat = 0 := by decide
    rw [magnitude, if_pos hexp, hfrac]
    simp
  rw [if_neg hzero]
  have hlow := Nat.log2_self_le hzero
  have hhigh : n < 2 ^ (n.log2 + 1) := Nat.lt_log2_self
  have he : n.log2 ≤ 52 := by
    by_contra hgt
    have := Nat.pow_le_pow_right Nat.two_pos (show 53 ≤ n.log2 by omega)
    omega
  dsimp only
  rw [if_pos he]
  generalize n.log2 = e at hlow hhigh he ⊢
  have hsplit : (2 : ℕ) ^ 52 = 2 ^ e * 2 ^ (52 - e) := by rw [← Nat.pow_add, Nat.add_sub_cancel' he]
  have hge : 2 ^ 52 ≤ n * 2 ^ (52 - e) := by
    rw [hsplit]
    exact Nat.mul_le_mul_right _ hlow
  have hlt : n * 2 ^ (52 - e) < 2 ^ 53 := by
    have htop : (2 : ℕ) ^ 53 = 2 ^ (e + 1) * 2 ^ (52 - e) := by
      rw [← Nat.pow_add]
      congr 1
      omega
    rw [htop]
    exact Nat.mul_lt_mul_of_pos_right hhigh (Nat.two_pow_pos _)
  have hf : n * 2 ^ (52 - e) - 2 ^ 52 < 2 ^ 52 := by omega
  refine ⟨isFinite_ofFields (by omega) hf, ?_, signBit_ofFields (by omega) hf⟩
  rw [magnitude_ofFields (by omega) hf (by omega), Nat.cast_sub hge]
  have hscale : (2 : ℚ) ^ (((1023 + e : ℕ) : ℤ) - 1075) = (2 ^ (52 - e))⁻¹ := by
    rw [← zpow_natCast, ← zpow_neg]
    congr 1
    omega
  have hpow : (2 : ℚ) ^ (52 - e) ≠ 0 := pow_ne_zero _ (by norm_num)
  rw [hscale]
  simp only [Nat.cast_mul, Nat.cast_pow, Nat.cast_ofNat]
  rw [add_sub_cancel, mul_inv_cancel_right₀ hpow]

/-- A larger number is rounded to the nearest double. -/
lemma ofNat_rounded {n : ℕ} (hn : 2 ^ 53 ≤ n) (hlt : n < 2 ^ 64) :
    (ofNat n).IsNearest n ∧ (ofNat n).signBit = false := by
  have hzero : n ≠ 0 := by omega
  have hlow := Nat.log2_self_le hzero
  have hhigh : n < 2 ^ (n.log2 + 1) := Nat.lt_log2_self
  have he : ¬ n.log2 ≤ 52 := by
    intro hle
    have := Nat.pow_le_pow_right Nat.two_pos (show n.log2 + 1 ≤ 53 by omega)
    omega
  have he64 : n.log2 < 64 := (Nat.log2_lt hzero).mpr hlt
  rw [ofNat, if_neg hzero]
  dsimp only
  rw [if_neg he]
  generalize n.log2 = e at hlow hhigh he he64 ⊢
  obtain ⟨s, rfl⟩ : ∃ s, e = 52 + s := ⟨e - 52, by omega⟩
  have hs : 0 < s := by omega
  rw [show 52 + s - 52 = s by omega]
  have hdiv := Nat.div_add_mod n (2 ^ s)
  have hmod := Nat.mod_lt n (Nat.two_pow_pos s)
  have hq52 : 2 ^ 52 ≤ n / 2 ^ s := by
    rw [Nat.le_div_iff_mul_le (Nat.two_pow_pos s), ← Nat.pow_add]
    exact hlow
  have hq53 : n / 2 ^ s < 2 ^ 53 := by
    rw [Nat.div_lt_iff_lt_mul (Nat.two_pow_pos s), ← Nat.pow_add]
    rwa [show 53 + s = 52 + s + 1 by omega]
  have heven : 2 * 2 ^ (s - 1) = 2 ^ s := by rw [← Nat.pow_succ']; congr 1; omega
  generalize n / 2 ^ s = q₀ at hdiv hq52 hq53 ⊢
  generalize n % 2 ^ s = r at hdiv hmod ⊢
  -- the multiple that is chosen
  obtain ⟨q, hq, hqlow, hqhigh, hnear, htie⟩ : ∃ q,
      (if 2 ^ s < 2 * r ∨ 2 ^ s = 2 * r ∧ q₀ % 2 = 1 then q₀ + 1 else q₀) = q ∧
        2 ^ 52 ≤ q ∧ q ≤ 2 ^ 53 ∧ 2 * |(n : ℤ) - q * 2 ^ s| ≤ 2 ^ s ∧
        (2 * |(n : ℤ) - q * 2 ^ s| = 2 ^ s → q % 2 = 0) := by
    have hz : (n : ℤ) = 2 ^ s * q₀ + r := by exact_mod_cast hdiv.symm
    have hpow : ((2 ^ s : ℕ) : ℤ) = 2 ^ s := by push_cast; rfl
    split_ifs with hup
    · refine ⟨q₀ + 1, rfl, by omega, by omega, ?_⟩
      have hdist : |(n : ℤ) - ((q₀ + 1 : ℕ) : ℤ) * 2 ^ s| = 2 ^ s - r := by
        rw [hz, abs_of_nonpos] <;> push_cast
        · ring
        · have : (r : ℤ) < 2 ^ s := by exact_mod_cast hmod
          linarith
      rw [hdist, ← hpow]
      omega
    · refine ⟨q₀, rfl, hq52, hq53.le, ?_⟩
      have hdist : |(n : ℤ) - (q₀ : ℤ) * 2 ^ s| = r := by
        rw [hz, abs_of_nonneg]
        · ring
        · have : (0 : ℤ) ≤ r := Int.natCast_nonneg r
          linarith
      rw [hdist, ← hpow]
      omega
  rw [hq]
  have hgrid : (2 : ℚ) ^ (((52 + s : ℕ) : ℤ) - 52) = 2 ^ s := by
    rw [← zpow_natCast]
    congr 1
    omega
  have hbase : (2 : ℚ) ^ ((52 + s : ℕ) : ℤ) ≤ n := by
    rw [zpow_natCast]
    exact_mod_cast hlow
  have hbounded : (n : ℚ) < 2 ^ 1024 - 2 ^ 970 := by
    have htop : (n : ℚ) < 2 ^ 64 := by exact_mod_cast hlt
    have hunit : (2 : ℚ) ^ 64 ≤ 2 ^ 970 := pow_le_pow_right₀ (by norm_num) (by norm_num)
    have hlast : (2 : ℚ) ^ 1024 = 2 ^ 970 * 2 ^ 54 := by rw [← pow_add]
    rw [hlast]
    generalize (2 : ℚ) ^ 970 = unit at hunit ⊢
    linarith
  have hnearQ : 2 * |(n : ℚ) - q * 2 ^ (((52 + s : ℕ) : ℤ) - 52)| ≤
      2 ^ (((52 + s : ℕ) : ℤ) - 52) := by
    rw [hgrid]
    exact_mod_cast hnear
  have htieQ : 2 * |(n : ℚ) - q * 2 ^ (((52 + s : ℕ) : ℤ) - 52)| =
      2 ^ (((52 + s : ℕ) : ℤ) - 52) → q % 2 = 0 := by
    rw [hgrid]
    intro h
    exact htie (by exact_mod_cast h)
  have hround := fun d (hd : d.isFinite = true) => isNearest_of_grid hd (by omega) hbase hbounded
    hqlow (q := q) (d := d)
  split_ifs with hcarry
  · have hf : (0 : ℕ) < 2 ^ 52 := by norm_num
    refine ⟨hround _ (isFinite_ofFields (by omega) hf) ?_ hnearQ fun _ => ?_,
      signBit_ofFields (by omega) hf⟩
    · rw [magnitude_ofFields (by omega) hf (by omega), hgrid, hcarry]
      have hscale : (2 : ℚ) ^ (((1024 + (52 + s) : ℕ) : ℤ) - 1075) = 2 * 2 ^ s := by
        rw [← pow_succ', ← zpow_natCast]
        congr 1
        push_cast
        ring
      rw [hscale]
      push_cast
      ring
    · rw [fracBits_ofFields (by omega) hf]
  · have hf : q - 2 ^ 52 < 2 ^ 52 := by omega
    refine ⟨hround _ (isFinite_ofFields (by omega) hf) ?_ hnearQ fun h => ?_,
      signBit_ofFields (by omega) hf⟩
    · rw [magnitude_ofFields (by omega) hf (by omega), hgrid, Nat.cast_sub hqlow]
      have hscale : (2 : ℚ) ^ (((1023 + (52 + s) : ℕ) : ℤ) - 1075) = 2 ^ s := by
        rw [← zpow_natCast]
        congr 1
        push_cast
        ring
      rw [hscale]
      simp only [Nat.cast_pow, Nat.cast_ofNat]
      rw [add_sub_cancel]
    · rw [fracBits_ofFields (by omega) hf]
      have := htieQ h
      omega

/-- Below `2 ^ 64` a number is converted to the nearest double. -/
theorem ofNat_isNearest {n : ℕ} (hn : n < 2 ^ 64) :
    (ofNat n).IsNearest n ∧ (ofNat n).signBit = false := by
  by_cases hsmall : n < 2 ^ 53
  · obtain ⟨hfinite, hmag, hsign⟩ := ofNat_exact hsmall
    rw [← hmag]
    exact ⟨isNearest_magnitude hfinite, hsign⟩
  · exact ofNat_rounded (Nat.le_of_not_lt hsmall) hn

/-! ## Signs -/

lemma expBits_negate (f : Double) : f.negate.expBits = f.expBits := by
  rw [expBits, expBits, negate]
  apply UInt64.eq_of_toBitVec_eq
  ext i hi
  simp only [UInt64.toBitVec_and, UInt64.toBitVec_shiftRight, UInt64.toBitVec_xor,
    BitVec.getElem_and]
  interval_cases i <;> simp

lemma fracBits_negate (f : Double) : f.negate.fracBits = f.fracBits := by
  rw [fracBits, fracBits, negate]
  apply UInt64.eq_of_toBitVec_eq
  ext i hi
  simp only [UInt64.toBitVec_and, UInt64.toBitVec_xor, BitVec.getElem_and, BitVec.getElem_xor]
  interval_cases i <;> simp

lemma signBit_eq (f : Double) : f.signBit = decide (2 ^ 63 ≤ f.bits.toNat) := by
  have hshift : (63 : UInt64).toNat % 64 = 63 := rfl
  have hlt := f.bits.toNat_lt
  have hnat : (f.bits >>> 63).toNat = f.bits.toNat / 2 ^ 63 := by
    rw [UInt64.toNat_shiftRight, hshift, Nat.shiftRight_eq_div_pow]
  have hone : (1 : UInt64).toNat = 1 := rfl
  rw [signBit, Bool.eq_iff_iff, beq_iff_eq, decide_eq_true_iff, ← UInt64.toNat_inj, hnat]
  omega

lemma signBit_negate (f : Double) : f.negate.signBit = !f.signBit := by
  have hbit : ∀ b : UInt64, decide (2 ^ 63 ≤ b.toNat) = b.toNat.testBit 63 := by
    intro b
    have hlt := b.toNat_lt
    rw [Nat.testBit_eq_decide_div_mod_eq, decide_eq_decide]
    omega
  have hmask : (0x8000000000000000 : UInt64).toNat.testBit 63 = true := rfl
  rw [signBit_eq, signBit_eq, hbit, hbit, negate, UInt64.toNat_xor, Nat.testBit_xor, hmask]
  simp

lemma isFinite_negate (f : Double) : f.negate.isFinite = f.isFinite := by
  rw [isFinite, isFinite, isNan, isNan, isInf, isInf, expBits_negate, fracBits_negate]

lemma magnitude_negate (f : Double) : f.negate.magnitude = f.magnitude := by
  rw [magnitude, magnitude, expBits_negate, fracBits_negate]

/-- Rounding does not look at the sign. -/
lemma IsNearest.negate {f : Double} {m : ℚ} (h : f.IsNearest m) : f.negate.IsNearest m where
  finite := by rw [isFinite_negate, h.finite]
  bounded := h.bounded
  le g hg := by
    rw [magnitude_negate]
    exact h.le g hg
  tie g hg heq := by
    rw [magnitude_negate] at heq ⊢
    rw [fracBits_negate]
    exact h.tie g hg heq

/-! ## From signed integers -/

/-- `(double)i`. -/
def ofInt64 (i : Int64) : Double :=
  if i.toInt < 0 then (ofNat i.toInt.natAbs).negate else ofNat i.toInt.natAbs

/-- A signed number is converted to the nearest double. -/
theorem ofInt64_isNearest (i : Int64) :
    (ofInt64 i).IsNearest i.toInt.natAbs ∧ (ofInt64 i).signBit = decide (i.toInt < 0) := by
  have hlt : i.toInt.natAbs < 2 ^ 64 := by
    have := i.toInt_lt
    have := i.le_toInt
    omega
  obtain ⟨hnear, hsign⟩ := ofNat_isNearest hlt
  rw [ofInt64]
  split_ifs with hneg
  · exact ⟨hnear.negate, by rw [signBit_negate, hsign, decide_eq_true hneg]; rfl⟩
  · exact ⟨hnear, by rw [hsign, decide_eq_false hneg]⟩

/-- `(int64_t)f`; a value that is out of range is undefined in C, and `out` is what it gives. -/
def toInt64 (out : Int64) (f : Double) : Int64 :=
  if f.isFinite ∧ -(2 ^ 63 : ℤ) ≤ f.value.num.tdiv f.value.den ∧
      f.value.num.tdiv f.value.den < 2 ^ 63 then
    Int64.ofInt (f.value.num.tdiv f.value.den)
  else out

end Teptris.Double
