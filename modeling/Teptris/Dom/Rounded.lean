import Teptris.Dom.Compare

/-!
# Integers as doubles

The double an integer of 64 bits is rounded to stands for an integer too, and where it is
`2 ^ 63`.
-/

namespace Teptris.Double

/-! ## The doubles around `2 ^ 63` -/

/-- `2 ^ 63`. -/
def top63 : Double := ofFields 1086 0

/-- The double below `2 ^ 63`. -/
def below63 : Double := ofFields 1085 (2 ^ 52 - 1)

lemma top63_finite : top63.isFinite = true := isFinite_ofFields (by norm_num) (by norm_num)

lemma below63_finite : below63.isFinite = true := isFinite_ofFields (by norm_num) (by norm_num)

lemma magnitude_top63 : top63.magnitude = 2 ^ 63 := by
  rw [top63, magnitude_ofFields (by norm_num) (by norm_num) (by norm_num)]
  norm_num

lemma magnitude_below63 : below63.magnitude = 2 ^ 63 - 1024 := by
  rw [below63, magnitude_ofFields (by norm_num) (by norm_num) (by norm_num)]
  norm_num

/-- The double below `2 ^ 63` is an odd one. -/
lemma fracBits_below63 {d : Double} (h : d.magnitude = 2 ^ 63 - 1024) :
    d.fracBits.toNat % 2 = 1 := by
  have hlt := fracBits_lt d
  have hfrac : (d.fracBits.toNat : ℚ) < 2 ^ 52 := by exact_mod_cast hlt
  rw [magnitude] at h
  split_ifs at h with hexp
  · exfalso
    have hscale : (2 : ℚ) ^ (-1074 : ℤ) ≤ 1 := zpow_le_one_of_nonpos₀ (by norm_num) (by norm_num)
    have hpos : (0 : ℚ) < 2 ^ (-1074 : ℤ) := zpow_pos (by norm_num) _
    have hprod : (d.fracBits.toNat : ℚ) * 2 ^ (-1074 : ℤ) ≤ 2 ^ 52 * 1 :=
      mul_le_mul hfrac.le hscale hpos.le (by norm_num)
    rw [h] at hprod
    norm_num at hprod
  · generalize hx : (d.expBits.toNat : ℤ) - 1075 = x at h
    have hbase : (0 : ℚ) < 2 ^ x := zpow_pos (by norm_num) _
    have hle : x < 11 := by
      by_contra hge
      have hmono : (2 : ℚ) ^ (11 : ℤ) ≤ 2 ^ x := zpow_le_zpow_right₀ (by norm_num) (by omega)
      have hfirst : (2 : ℚ) ^ 52 * 2 ^ (11 : ℤ) ≤ (2 ^ 52 + d.fracBits.toNat) * 2 ^ x :=
        mul_le_mul (by linarith [Nat.cast_nonneg (α := ℚ) d.fracBits.toNat]) hmono (by norm_num)
          (by positivity)
      rw [h] at hfirst
      norm_num at hfirst
    have hge : 9 < x := by
      by_contra hlt
      have hmono : (2 : ℚ) ^ x ≤ 2 ^ (9 : ℤ) := zpow_le_zpow_right₀ (by norm_num) (by omega)
      have hlast : ((2 : ℚ) ^ 52 + d.fracBits.toNat) * 2 ^ x ≤ (2 ^ 52 + 2 ^ 52) * 2 ^ (9 : ℤ) :=
        mul_le_mul (by linarith) hmono hbase.le (by norm_num)
      rw [h] at hlast
      norm_num at hlast
    obtain rfl : x = 10 := by omega
    have hnat : ((2 ^ 52 + d.fracBits.toNat : ℕ) : ℚ) = (2 ^ 53 - 1 : ℕ) := by
      push_cast
      have hten : (2 : ℚ) ^ (10 : ℤ) = 1024 := by norm_num
      rw [hten] at h
      norm_num at h ⊢
      linarith
    have := Nat.cast_injective (R := ℚ) hnat
    omega

/-! ## Integers -/

/-- The double an integer is rounded to. -/
structure Rounds (d : Double) (z : ℤ) : Prop where
  /-- Its magnitude is the nearest one. -/
  near : d.IsNearest z.natAbs
  /-- A negative number has its sign. -/
  neg : z < 0 → d.signBit = true
  /-- A positive number has none. -/
  pos : 0 < z → d.signBit = false

/-- The conversion of C rounds. -/
lemma rounds_ofInt64 (i : Int64) : (ofInt64 i).Rounds i.toInt where
  near := (ofInt64_isNearest i).1
  neg h := by rw [(ofInt64_isNearest i).2, decide_eq_true h]
  pos h := by rw [(ofInt64_isNearest i).2, decide_eq_false (by omega)]

section Near

variable {d : Double} {n : ℕ}

/-- The nearest double to an integer is one. -/
lemma IsNearest.integral (h : d.IsNearest n) : ∃ k : ℕ, d.magnitude = k := by
  by_cases hsmall : n < 2 ^ 53
  · obtain ⟨hfinite, hmag, -⟩ := ofNat_exact hsmall
    have hzero := h.le _ hfinite
    rw [hmag, sub_self, abs_zero, abs_nonpos_iff, sub_eq_zero] at hzero
    exact ⟨n, hzero.symm⟩
  · -- from `2 ^ 52` on every double is an integer
    have hn : (2 : ℚ) ^ 53 ≤ n := by exact_mod_cast Nat.le_of_not_lt hsmall
    have hge : (2 : ℚ) ^ (52 : ℤ) ≤ d.magnitude := by
      have hfinite : (ofFields 1076 0).isFinite = true :=
        isFinite_ofFields (by norm_num) (by norm_num)
      have hmag : (ofFields 1076 0).magnitude = 2 ^ 53 := by
        rw [magnitude_ofFields (by norm_num) (by norm_num) (by norm_num)]
        norm_num
      have hle := h.le _ hfinite
      rw [hmag, abs_of_nonneg (a := (n : ℚ) - 2 ^ 53) (by linarith)] at hle
      have hdist := (abs_le.mp hle).2
      have hpow : (2 : ℚ) ^ (52 : ℤ) ≤ 2 ^ 53 := by norm_num
      linarith
    obtain ⟨m, hm⟩ := magnitude_multiple (by norm_num) hge
    exact ⟨m, by rw [hm]; norm_num⟩

/-- Up to `2 ^ 63` it is no larger, and where it gets there. -/
lemma IsNearest.top (h : d.IsNearest n) (hn : n ≤ 2 ^ 63) :
    ∃ k : ℕ, d.magnitude = k ∧ k ≤ 2 ^ 63 ∧ (k = 2 ^ 63 ↔ 2 ^ 63 - 512 ≤ n) := by
  obtain ⟨k, hk⟩ := h.integral
  have hnQ : (n : ℚ) ≤ 2 ^ 63 := by exact_mod_cast hn
  have htop := h.le _ top63_finite
  have hbelow := h.le _ below63_finite
  rw [magnitude_top63, hk, abs_sub_comm (n : ℚ) (2 ^ 63),
    abs_of_nonneg (a := 2 ^ 63 - (n : ℚ)) (by linarith)] at htop
  rw [magnitude_below63, hk] at hbelow
  have hkle : (k : ℚ) ≤ 2 ^ 63 := by linarith [(abs_le.mp htop).1]
  refine ⟨k, hk, by exact_mod_cast hkle, ?_, ?_⟩
  · rintro rfl
    by_contra hlt
    have hltQ : (n : ℚ) < 2 ^ 63 - 512 := by
      have : (n : ℚ) + 512 < ((2 ^ 63 : ℕ) : ℚ) := by exact_mod_cast (by omega : n + 512 < 2 ^ 63)
      push_cast at this
      linarith
    push_cast at hbelow
    rw [abs_sub_comm, abs_of_nonneg (by linarith)] at hbelow
    rcases abs_cases ((n : ℚ) - (2 ^ 63 - 1024)) with ⟨heq, -⟩ | ⟨heq, -⟩ <;> linarith
  · intro hge
    have hgeQ : (2 : ℚ) ^ 63 - 512 ≤ n := by
      have : ((2 ^ 63 : ℕ) : ℚ) ≤ (n : ℚ) + 512 := by exact_mod_cast (by omega : 2 ^ 63 ≤ n + 512)
      push_cast at this
      linarith
    -- on the grid of 1024 there are two candidates
    have hlow : (2 : ℚ) ^ (62 : ℤ) ≤ d.magnitude := by
      rw [hk]
      have hpow : (2 : ℚ) ^ (62 : ℤ) ≤ 2 ^ 63 - 1024 := by norm_num
      linarith [(abs_le.mp htop).2]
    obtain ⟨m, hm⟩ := magnitude_multiple (by norm_num) hlow
    have hgrid : k = 1024 * m := by
      have : (k : ℚ) = ((1024 * m : ℕ) : ℚ) := by
        rw [← hk, hm]
        norm_num
        ring
      exact_mod_cast this
    have hklow : 2 ^ 63 - 1024 ≤ k := by
      have : ((2 ^ 63 : ℕ) : ℚ) ≤ (k : ℚ) + 1024 := by
        push_cast
        linarith [(abs_le.mp htop).2]
      have : 2 ^ 63 ≤ k + 1024 := by exact_mod_cast this
      omega
    have hkhigh : k ≤ 2 ^ 63 := by exact_mod_cast hkle
    by_contra hne
    have hkval : k = 2 ^ 63 - 1024 := by omega
    have hkQ : (k : ℚ) = 2 ^ 63 - 1024 := by
      rw [hkval]
      norm_num
    -- the lower one is as near only from the middle, and is odd
    have hmid : (n : ℚ) = 2 ^ 63 - 512 := by
      rw [hkQ, abs_of_nonneg (by linarith)] at htop
      linarith
    have htie := h.tie _ top63_finite (by
      rw [magnitude_top63, hk, hkQ, hmid]
      norm_num)
    rw [magnitude_top63, hk, hkQ] at htie
    rcases htie with heq | heven
    · norm_num at heq
    · have hodd := fracBits_below63 (hk.trans hkQ)
      omega

end Near

/-- A 64-bit integer is rounded to an integer, which is `2 ^ 63` for the last 512 of them. -/
lemma Rounds.value {d : Double} {z : ℤ} (h : d.Rounds z) (hlo : -2 ^ 63 ≤ z) (hhi : z < 2 ^ 63) :
    ∃ y : ℤ, d.value = y ∧ -2 ^ 63 ≤ y ∧ y ≤ 2 ^ 63 ∧ (y = 2 ^ 63 ↔ 2 ^ 63 - 512 ≤ z) := by
  obtain ⟨k, hk, hkle, htop⟩ := h.near.top (by omega)
  rw [Double.value, hk]
  rcases lt_trichotomy z 0 with hneg | rfl | hpos
  · refine ⟨-(k : ℤ), ?_, by omega, by omega, by omega⟩
    rw [if_pos (h.neg hneg)]
    push_cast
    rfl
  · have hzero : k = 0 := by
      have hle := h.near.le ⟨0⟩ (by decide)
      have hmag : (⟨0⟩ : Double).magnitude = 0 :=
        (ofNat_exact (n := 0) (by decide)).2.1.trans (by simp)
      rw [hmag, hk] at hle
      simpa using hle
    refine ⟨0, ?_, by omega, by omega, by omega⟩
    rw [hzero]
    simp
  · refine ⟨k, ?_, by omega, by omega, by omega⟩
    rw [h.pos hpos]
    simp

end Teptris.Double
