import Mathlib.Algebra.Order.Ring.Rat
import Mathlib.Tactic.Linarith
import Mathlib.Tactic.NormNum
import Teptris.Dom.Float

/-!
# The value of a double

The rational number a finite double stands for, and rounding to the nearest double with ties to
an even fraction, by sign and magnitude.
-/

namespace Teptris.Double

/-- Neither a NaN nor an infinity. -/
def isFinite (f : Double) : Bool := !f.isNan && !f.isInf

/-- The absolute value of a finite double. -/
def magnitude (f : Double) : ℚ :=
  if f.expBits = 0 then f.fracBits.toNat * 2 ^ (-1074 : ℤ)
  else (2 ^ 52 + f.fracBits.toNat) * 2 ^ ((f.expBits.toNat : ℤ) - 1075)

/-- The double is the nearest to the magnitude, the even one of two. -/
structure IsNearest (f : Double) (m : ℚ) : Prop where
  /-- It is finite. -/
  finite : f.isFinite = true
  /-- The magnitude does not round to an infinity. -/
  bounded : m < 2 ^ 1024 - 2 ^ 970
  /-- No finite double is nearer. -/
  le (g : Double) (hg : g.isFinite = true) : |m - f.magnitude| ≤ |m - g.magnitude|
  /-- Of two as near, it is the even one. -/
  tie (g : Double) (hg : g.isFinite = true) (h : |m - g.magnitude| = |m - f.magnitude|) :
    g.magnitude = f.magnitude ∨ f.fracBits.toNat % 2 = 0

lemma fracBits_lt (f : Double) : f.fracBits.toNat < 2 ^ 52 := by
  have hmask : (0xFFFFFFFFFFFFF : UInt64).toNat = 2 ^ 52 - 1 := rfl
  have hle : f.fracBits.toNat ≤ 2 ^ 52 - 1 := by
    rw [fracBits, UInt64.toNat_and, hmask]
    exact Nat.and_le_right
  omega

/-- The exponent of a finite double. -/
lemma expBits_lt {f : Double} (h : f.isFinite = true) : f.expBits.toNat < 2047 := by
  have hmask : (0x7FF : UInt64).toNat = 2047 := rfl
  have hle : f.expBits.toNat ≤ 2047 := by
    rw [expBits, UInt64.toNat_and, hmask]
    exact Nat.and_le_right
  have hne : f.expBits.toNat ≠ 2047 := by
    intro heq
    have hexp : f.expBits = 0x7FF := UInt64.toNat_inj.mp heq
    simp only [isFinite, isNan, isInf, hexp, beq_self_eq_true, Bool.true_and, Bool.and_eq_true,
      Bool.not_eq_true', bne_eq_false_iff_eq, beq_eq_false_iff_ne] at h
    exact h.2 h.1
  omega

/-- No finite double reaches the magnitudes that round to an infinity. -/
lemma magnitude_lt {f : Double} (h : f.isFinite = true) : f.magnitude < 2 ^ 1024 - 2 ^ 970 := by
  have hfrac : (f.fracBits.toNat : ℚ) ≤ 2 ^ 52 - 1 := by
    have := fracBits_lt f
    rw [le_sub_iff_add_le]
    exact_mod_cast this
  have hpos (e : ℤ) : 0 ≤ (2 : ℚ) ^ e := (zpow_pos (by norm_num) e).le
  -- in units of `2 ^ 970`
  have hunit : (1 : ℚ) ≤ 2 ^ 970 := one_le_pow₀ (by norm_num)
  have htop : (2 : ℚ) ^ 1024 = 2 ^ 970 * 2 ^ 54 := by rw [← pow_add]
  have hlast : (2 : ℚ) ^ (971 : ℤ) = 2 ^ 970 * 2 := by
    rw [show (971 : ℤ) = ((970 + 1 : ℕ) : ℤ) from rfl, zpow_natCast, pow_succ]
  rw [magnitude, htop]
  generalize (2 : ℚ) ^ 970 = unit at hunit hlast ⊢
  split_ifs
  · have hscale : (2 : ℚ) ^ (-1074 : ℤ) ≤ 1 := zpow_le_one_of_nonpos₀ (by norm_num) (by norm_num)
    have hprod : (f.fracBits.toNat : ℚ) * 2 ^ (-1074 : ℤ) ≤ (2 ^ 52 - 1) * 1 :=
      mul_le_mul hfrac hscale (hpos _) (by norm_num)
    refine lt_of_le_of_lt hprod ?_
    linarith only [hunit]
  · have hexp := expBits_lt h
    have hscale : (2 : ℚ) ^ ((f.expBits.toNat : ℤ) - 1075) ≤ 2 ^ (971 : ℤ) :=
      zpow_le_zpow_right₀ (by norm_num) (by omega)
    have hprod : (2 ^ 52 + (f.fracBits.toNat : ℚ)) * 2 ^ ((f.expBits.toNat : ℤ) - 1075) ≤
        (2 ^ 52 + (2 ^ 52 - 1)) * 2 ^ (971 : ℤ) :=
      mul_le_mul (by linarith) hscale (hpos _) (by norm_num)
    rw [hlast] at hprod
    refine lt_of_le_of_lt hprod ?_
    linarith only [hunit]

/-- A double is the nearest to its own magnitude. -/
lemma isNearest_magnitude {f : Double} (h : f.isFinite = true) : f.IsNearest f.magnitude where
  finite := h
  bounded := magnitude_lt h
  le g _ := by
    rw [sub_self, abs_zero]
    exact abs_nonneg _
  tie g _ heq := by
    rw [sub_self, abs_zero, abs_eq_zero, sub_eq_zero] at heq
    exact .inl heq.symm

end Teptris.Double
