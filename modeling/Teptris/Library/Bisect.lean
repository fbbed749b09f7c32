import Mathlib.Data.Nat.Basic
import Mathlib.Tactic.Common

/-!
# Binary search

A binary search over positions `lo`, …, `hi - 1` that is steered by a comparison: `lt` sends it
below the middle, `gt` above it.  Where the comparison is monotone the search finds a position
that compares equal whenever there is one (`bisect_isSome_iff`).
-/

namespace Bisect

/-- A position from `lo` to `hi - 1` that compares equal; `n` bounds the number of turns. -/
def search (cmp : ℕ → Ordering) : ℕ → ℕ → ℕ → Option ℕ
  | 0, _, _ => none
  | n + 1, lo, hi =>
    if lo < hi then
      let mid := (lo + (hi - 1)) / 2
      match cmp mid with
      | .lt => search cmp n lo mid
      | .gt => search cmp n (mid + 1) hi
      | .eq => some mid
    else none

/-- The search over the positions below `n`. -/
def bisect (cmp : ℕ → Ordering) (n : ℕ) : Option ℕ := search cmp n 0 n

variable {cmp : ℕ → Ordering}

/-- What is found compares equal. -/
lemma eq_of_search {n lo hi k : ℕ} (h : search cmp n lo hi = some k) :
    cmp k = .eq ∧ lo ≤ k ∧ k < hi := by
  induction n generalizing lo hi with
  | zero => exact absurd h (by simp [search])
  | succ n ih =>
    rw [search] at h
    by_cases hlt : lo < hi
    · rw [if_pos hlt] at h
      cases hc : cmp ((lo + (hi - 1)) / 2) with
      | lt =>
        simp only [hc] at h
        obtain ⟨he, hl, hh⟩ := ih h
        exact ⟨he, hl, by omega⟩
      | gt =>
        simp only [hc] at h
        obtain ⟨he, hl, hh⟩ := ih h
        exact ⟨he, by omega, hh⟩
      | eq =>
        simp only [hc, Option.some.injEq] at h
        subst h
        exact ⟨hc, by omega, by omega⟩
    · rw [if_neg hlt] at h
      exact absurd h (by simp)

/-- An equal position is found where the comparison steers towards it. -/
lemma search_isSome {n lo hi k : ℕ} (hk : cmp k = .eq) (hlo : lo ≤ k) (hhi : k < hi)
    (hn : hi - lo ≤ n) (below : ∀ i, lo ≤ i → i < k → cmp i = .gt)
    (above : ∀ i, k < i → i < hi → cmp i = .lt) : (search cmp n lo hi).isSome := by
  induction n generalizing lo hi with
  | zero => omega
  | succ n ih =>
    have hlt : lo < hi := by omega
    rw [search, if_pos hlt]
    have hmid : lo ≤ (lo + (hi - 1)) / 2 ∧ (lo + (hi - 1)) / 2 < hi := by omega
    rcases Nat.lt_trichotomy ((lo + (hi - 1)) / 2) k with hm | hm | hm
    · simp only [below _ hmid.1 hm]
      exact ih (by omega) hhi (by omega) (fun i hi' hik => below i (by omega) hik) above
    · rw [hm]
      simp only [hk, Option.isSome_some]
    · simp only [above _ hm hmid.2]
      exact ih hlo hm (by omega) below (fun i hki hi' => above i hki (by omega))

/-- Where the comparison steers towards every equal position, the search finds one exactly when
there is one. -/
lemma bisect_isSome_iff {n : ℕ}
    (below : ∀ i k, i < k → k < n → cmp k = .eq → cmp i = .gt)
    (above : ∀ i k, k < i → i < n → cmp k = .eq → cmp i = .lt) :
    (bisect cmp n).isSome ↔ ∃ k, k < n ∧ cmp k = .eq := by
  constructor
  · intro h
    obtain ⟨k, hk⟩ := Option.isSome_iff_exists.mp h
    obtain ⟨he, -, hlt⟩ := eq_of_search hk
    exact ⟨k, hlt, he⟩
  · rintro ⟨k, hk, he⟩
    exact search_isSome he (Nat.zero_le k) hk (Nat.le_refl _)
      (fun i _ hi => below i k hi hk he) (fun i hi hn => above i k hi hn he)

end Bisect
