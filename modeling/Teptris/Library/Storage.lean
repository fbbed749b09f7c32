import Mathlib.Algebra.Order.Group.Nat
import Mathlib.Data.List.Basic
import Mathlib.Tactic.Common

/-!
# Sizes and storages

Arithmetic on `size_t` values, whose sums wrap, and storages of a fixed size: a list of cells, which
are written only below its length (`Storage.write`).  `realloc` is a parameter that may refuse any
request and says nothing of the cells it adds.
-/

namespace Storage

/-! ## Sizes -/

/-- A `size_t` value. -/
def wrapSize (n : ℕ) : ℕ := n % 2 ^ 64

/-- A difference of `size_t` values. -/
def subSize (n m : ℕ) : ℕ := wrapSize (n + (2 ^ 64 - m))

/-- `PTRDIFF_MAX`, the size of the largest object. -/
def ptrdiffMax : ℕ := 2 ^ 63 - 1

lemma wrapSize_lt (n : ℕ) : wrapSize n < 2 ^ 64 := Nat.mod_lt _ (Nat.two_pow_pos 64)

lemma wrapSize_of_lt {n : ℕ} (h : n < 2 ^ 64) : wrapSize n = n := Nat.mod_eq_of_lt h

lemma subSize_of_le {n m : ℕ} (hn : n < 2 ^ 64) (h : m ≤ n) : subSize n m = n - m := by
  unfold subSize wrapSize
  omega

/-- Doubling a capacity at most `n` times, until there is room for `need`. -/
def doubleWithin (need : ℕ) : ℕ → ℕ → Option ℕ
  | 0, _ => none
  | n + 1, cap => if cap < need then doubleWithin need n (wrapSize (cap * 2)) else some cap

/-- `while (cap < need) cap *= 2;`, `none` where it does not end. -/
def doubleSize (need cap : ℕ) : Option ℕ := doubleWithin need 65 cap

lemma wrapSize_mul (n m : ℕ) : wrapSize (wrapSize n * m) = wrapSize (n * m) := by
  unfold wrapSize
  rw [Nat.mod_mul_mod]

lemma doubleWithin_eq_none_iff {need n cap : ℕ} (hcap : cap < 2 ^ 64) :
    doubleWithin need n cap = none ↔ ∀ k < n, wrapSize (cap * 2 ^ k) < need := by
  induction n generalizing cap with
  | zero => simp [doubleWithin]
  | succ n ih =>
    have hfirst : wrapSize (cap * 2 ^ 0) = cap := by
      rw [Nat.pow_zero, Nat.mul_one, wrapSize_of_lt hcap]
    have hnext : ∀ k, wrapSize (wrapSize (cap * 2) * 2 ^ k) = wrapSize (cap * 2 ^ (k + 1)) := by
      intro k
      rw [wrapSize_mul, Nat.pow_succ', Nat.mul_assoc]
    rw [doubleWithin]
    split_ifs with hlt
    · rw [ih (wrapSize_lt _)]
      constructor
      · intro h k hk
        cases k with
        | zero => rwa [hfirst]
        | succ k => exact hnext k ▸ h k (by omega)
      · exact fun h k hk => hnext k ▸ h (k + 1) (by omega)
    · constructor
      · intro h
        cases h
      · exact fun h => absurd (hfirst ▸ h 0 (by omega)) hlt

/-- The loop does not end where no doubling has room: the capacity becomes zero and stays so. -/
lemma doubleSize_eq_none_iff {need cap : ℕ} (hcap : cap < 2 ^ 64) :
    doubleSize need cap = none ↔ ∀ k, wrapSize (cap * 2 ^ k) < need := by
  have hzero : ∀ k, 64 ≤ k → wrapSize (cap * 2 ^ k) = 0 := fun k hk =>
    Nat.mod_eq_zero_of_dvd (Nat.dvd_mul_left_of_dvd (Nat.pow_dvd_pow 2 hk) _)
  rw [doubleSize, doubleWithin_eq_none_iff hcap]
  constructor
  · intro h k
    rcases Nat.lt_or_ge k 65 with hk | hk
    · exact h k hk
    · rw [hzero k (by omega), ← hzero 64 (Nat.le_refl _)]
      exact h 64 (by omega)
  · exact fun h k _ => h k

/-- Where it ends there is room. -/
lemma le_of_doubleSize {need cap m : ℕ} (h : doubleSize need cap = some m) : need ≤ m := by
  have hwithin : ∀ n cap, doubleWithin need n cap = some m → need ≤ m := by
    intro n
    induction n with
    | zero => simp [doubleWithin]
    | succ n ih =>
      intro cap hn
      rw [doubleWithin] at hn
      split_ifs at hn with hlt
      · exact ih _ hn
      · obtain rfl := Option.some.inj hn
        exact Nat.not_lt.mp hlt
  exact hwithin _ _ h

/-! ## Storages -/

variable {α : Type}

/-- Cells are written from `i` on; `none` where one of them is not there. -/
def write (mem : List α) (i : ℕ) (xs : List α) : Option (List α) :=
  if i + xs.length ≤ mem.length then some (mem.take i ++ xs ++ mem.drop (i + xs.length)) else none

lemma write_of_le {mem xs : List α} {i : ℕ} (h : i + xs.length ≤ mem.length) :
    write mem i xs = some (mem.take i ++ xs ++ mem.drop (i + xs.length)) := if_pos h

/-- A write inside leaves the size, and what stands in front of it. -/
lemma write_spec {mem xs : List α} {i : ℕ} (h : i + xs.length ≤ mem.length) :
    ∃ mem', write mem i xs = some mem' ∧ mem'.length = mem.length ∧
      mem'.take (i + xs.length) = mem.take i ++ xs := by
  have htake : (mem.take i).length = i := List.length_take_of_le (by omega)
  refine ⟨_, write_of_le h, ?_, ?_⟩
  · simp only [List.length_append, List.length_drop, htake]
    omega
  · rw [List.take_append_of_le_length (by rw [List.length_append, htake]),
      List.take_of_length_le (by rw [List.length_append, htake])]

/-- What `realloc` gives: the old cells as far as there is room, and others behind them. -/
def realloc (grant : ℕ → Option (List α)) (old : Option (List α)) (n : ℕ) : Option (List α) :=
  (grant n).map fun fresh => (old.getD []).take n ++ fresh.drop (old.getD []).length

/-- What `realloc` promises: storages of the size that is asked for, and none above the largest
object. -/
structure GrantSound (grant : ℕ → Option (List α)) : Prop where
  /-- The size. -/
  length : ∀ n fresh, grant n = some fresh → fresh.length = n
  /-- No larger object. -/
  bounded : ∀ n fresh, grant n = some fresh → n ≤ ptrdiffMax

/-- A storage that is made longer. -/
lemma realloc_spec {grant : ℕ → Option (List α)} (hg : GrantSound grant) {old : Option (List α)}
    {n : ℕ} {mem : List α} (h : realloc grant old n = some mem) (hn : (old.getD []).length ≤ n) :
    mem.length = n ∧ n ≤ ptrdiffMax ∧
      ∀ k ≤ (old.getD []).length, mem.take k = (old.getD []).take k := by
  obtain ⟨fresh, hfresh, rfl⟩ := Option.map_eq_some_iff.mp h
  have hlen := hg.length n fresh hfresh
  refine ⟨?_, hg.bounded n fresh hfresh, fun k hk => ?_⟩
  · rw [List.length_append, List.take_of_length_le hn, List.length_drop, hlen]
    omega
  · rw [List.take_of_length_le hn, List.take_append_of_le_length hk]

end Storage
