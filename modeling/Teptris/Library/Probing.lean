import Mathlib.Algebra.Group.Nat.Defs
import Mathlib.Data.List.Basic
import Mathlib.Tactic.Common

/-!
# Linear probing

An array of slots, as many as a power of two, is searched from the home slot of a hash on, slot by
slot and round the end, for the first one that a test accepts.  One round decides the search: it
finds the slot the unbounded loop stops at (`stopsAt_iff`), and finds none where that loop does not
end (`find_eq_none_iff`).

What such a table keeps when free slots are filled is `Reaches`: between the home of a hash and
its slot none is free.  Everything that reaches its slot is found (`exists_find_of_reaches`).
-/

namespace Probing

variable {σ : Type*}

/-- A position masked to `cap` slots. -/
def wrap (cap x : ℕ) : ℕ := x &&& (cap - 1)

/-- The loop `while (!stop(slots[i])) i = (i + 1) & mask`, for at most `n` slots. -/
def walk (stop : σ → Bool) (slots : List σ) : ℕ → ℕ → Option ℕ
  | 0, _ => none
  | n + 1, i =>
    if slots[i]?.any stop then some i else walk stop slots n (wrap slots.length (i + 1))

/-- One round from the home slot of a hash. -/
def find (stop : σ → Bool) (slots : List σ) (hash : ℕ) : Option ℕ :=
  walk stop slots slots.length (wrap slots.length hash)

/-- From slot `i` the loop without a bound stops at slot `j`. -/
inductive StopsAt (stop : σ → Bool) (slots : List σ) : ℕ → ℕ → Prop
  | here {i : ℕ} (h : slots[i]?.any stop = true) : StopsAt stop slots i i
  | next {i j : ℕ} (h : slots[i]?.any stop = false)
      (hrest : StopsAt stop slots (wrap slots.length (i + 1)) j) : StopsAt stop slots i j

/-- As many slots as a power of two. -/
def Masked (slots : List σ) : Prop := ∃ k, slots.length = 2 ^ k

lemma Masked.pos {slots : List σ} (h : Masked slots) : 0 < slots.length := by
  obtain ⟨k, hk⟩ := h
  rw [hk]
  exact Nat.two_pow_pos k

lemma Masked.set {slots : List σ} (h : Masked slots) (i : ℕ) (s : σ) : Masked (slots.set i s) := by
  rwa [Masked, List.length_set]

lemma Masked.wrap_eq {slots : List σ} (h : Masked slots) (x : ℕ) :
    wrap slots.length x = x % slots.length := by
  obtain ⟨k, hk⟩ := h
  rw [wrap, hk, Nat.and_two_pow_sub_one_eq_mod]

/-- Some slot from `i` on is at a distance below the number of slots. -/
lemma exists_distance {n : ℕ} (i : ℕ) {j : ℕ} (hj : j < n) : ∃ d < n, j = (i + d) % n := by
  have hi : i % n < n := Nat.mod_lt i (by omega)
  have hmod : ∀ d, (i + d) % n = (i % n + d) % n := fun d => (Nat.mod_add_mod i n d).symm
  by_cases hle : i % n ≤ j
  · refine ⟨j - i % n, by omega, ?_⟩
    rw [hmod, Nat.add_sub_cancel' hle, Nat.mod_eq_of_lt hj]
  · refine ⟨j + n - i % n, by omega, ?_⟩
    rw [hmod, Nat.add_sub_cancel' (by omega), Nat.add_mod_right, Nat.mod_eq_of_lt hj]

section Search

variable {stop free : σ → Bool} {slots : List σ} {hash i j : ℕ}

/-! ## The search -/

/-- The walk finds the first slot within its reach that stops it. -/
lemma walk_eq_some_iff (hm : Masked slots) (n : ℕ) (hi : i < slots.length) :
    walk stop slots n i = some j ↔
      ∃ d < n, j = (i + d) % slots.length ∧ slots[j]?.any stop = true ∧
        ∀ e < d, slots[(i + e) % slots.length]?.any stop = false := by
  induction n generalizing i with
  | zero => simp [walk]
  | succ n ih =>
    have hself : (i + 0) % slots.length = i := Nat.mod_eq_of_lt hi
    have hnext : ∀ d, ((i + 1) % slots.length + d) % slots.length =
        (i + (d + 1)) % slots.length := by
      intro d
      rw [Nat.mod_add_mod, Nat.add_assoc, Nat.add_comm 1 d]
    rw [walk]
    by_cases hstop : slots[i]?.any stop = true
    · rw [if_pos hstop, Option.some.injEq]
      constructor
      · rintro rfl
        exact ⟨0, Nat.succ_pos n, hself.symm, hstop, fun e he => absurd he (Nat.not_lt_zero e)⟩
      · rintro ⟨d, -, hd, -, hbefore⟩
        cases d with
        | zero => rw [hd, hself]
        | succ d =>
          have hfirst := hbefore 0 (Nat.succ_pos d)
          rw [hself, hstop] at hfirst
          exact absurd hfirst (by decide)
    · rw [if_neg hstop, hm.wrap_eq, ih (Nat.mod_lt _ hm.pos)]
      constructor
      · rintro ⟨d, hd, hj, hat, hbefore⟩
        refine ⟨d + 1, by omega, by rw [hj, hnext], hat, fun e he => ?_⟩
        cases e with
        | zero => rwa [hself, ← Bool.not_eq_true]
        | succ e => rw [← hnext]; exact hbefore e (by omega)
      · rintro ⟨d, hd, hj, hat, hbefore⟩
        cases d with
        | zero =>
          rw [hj, hself] at hat
          exact absurd hat hstop
        | succ d =>
          refine ⟨d, by omega, by rw [hj, hnext], hat, fun e he => ?_⟩
          rw [hnext]
          exact hbefore (e + 1) (by omega)

/-- One round finds the first slot behind the home of the hash that stops it. -/
lemma find_eq_some_iff (hm : Masked slots) :
    find stop slots hash = some j ↔
      ∃ d < slots.length, j = (hash + d) % slots.length ∧ slots[j]?.any stop = true ∧
        ∀ e < d, slots[(hash + e) % slots.length]?.any stop = false := by
  rw [find, hm.wrap_eq, walk_eq_some_iff hm _ (Nat.mod_lt _ hm.pos)]
  simp only [Nat.mod_add_mod]

/-- A slot that stops the walk is not missed. -/
lemma exists_walk (hm : Masked slots) (hi : i < slots.length) (hj : slots[j]?.any stop = true) :
    ∃ j', walk stop slots slots.length i = some j' := by
  have hlt : j < slots.length := by
    by_contra hge
    rw [List.getElem?_eq_none (Nat.le_of_not_lt hge)] at hj
    exact absurd hj (by simp)
  obtain ⟨d, hd, rfl⟩ := exists_distance i hlt
  -- the nearest of them
  induction d using Nat.strongRecOn with
  | ind d ih =>
    by_cases hnear : ∃ e < d, slots[(i + e) % slots.length]?.any stop = true
    · obtain ⟨e, he, hat⟩ := hnear
      exact ih e he (by omega) hat (Nat.mod_lt _ hm.pos)
    · refine ⟨_, (walk_eq_some_iff hm _ hi).mpr ⟨d, hd, rfl, hj, fun e he => ?_⟩⟩
      rw [← Bool.not_eq_true]
      exact fun hat => hnear ⟨e, he, hat⟩

/-- A round finds nothing exactly where no slot stops it. -/
lemma find_eq_none_iff (hm : Masked slots) :
    find stop slots hash = none ↔ ∀ s ∈ slots, stop s = false := by
  have hhome : wrap slots.length hash < slots.length := by
    rw [hm.wrap_eq]
    exact Nat.mod_lt _ hm.pos
  constructor
  · intro hnone s hs
    rw [← Bool.not_eq_true]
    intro hstop
    obtain ⟨j, hj⟩ := List.getElem?_of_mem hs
    obtain ⟨j', hj'⟩ :=
      exists_walk hm hhome (show slots[j]?.any stop = true by rw [hj]; exact hstop)
    rw [find, hj'] at hnone
    exact absurd hnone (by simp)
  · intro hall
    rw [Option.eq_none_iff_forall_ne_some]
    intro j hj
    obtain ⟨d, -, -, hat, -⟩ := (find_eq_some_iff hm).mp hj
    obtain ⟨s, hs, hstop⟩ := (Option.any_eq_true _ _).mp hat
    rw [hall s (List.mem_of_getElem? hs)] at hstop
    exact absurd hstop (by decide)

/-- One round finds the slot at which the loop without a bound stops. -/
theorem stopsAt_iff (hm : Masked slots) (hi : i < slots.length) :
    StopsAt stop slots i j ↔ walk stop slots slots.length i = some j := by
  constructor
  · intro h
    have hat : slots[j]?.any stop = true := by
      induction h with
      | here hat => exact hat
      | next _ _ ih => exact ih (by rw [hm.wrap_eq]; exact Nat.mod_lt _ hm.pos)
    obtain ⟨j', hj'⟩ := exists_walk hm hi hat
    suffices hsame : j = j' by rw [hj', hsame]
    -- the loop passes the slots of the walk
    have hpass : ∀ n {i}, walk stop slots n i = some j' → StopsAt stop slots i j → j = j' := by
      intro n
      induction n with
      | zero => exact fun hw => absurd hw (by simp [walk])
      | succ n ih =>
        intro i hw hs
        rw [walk] at hw
        cases hs with
        | here hstop =>
          rw [if_pos hstop] at hw
          exact Option.some.inj hw
        | next hgo hrest =>
          rw [if_neg (by simp [hgo])] at hw
          exact ih hw hrest
    exact hpass _ hj' h
  · have hstop : ∀ n {i}, walk stop slots n i = some j → StopsAt stop slots i j := by
      intro n
      induction n with
      | zero => exact fun hw => absurd hw (by simp [walk])
      | succ n ih =>
        intro i hw
        rw [walk] at hw
        split_ifs at hw with hat
        · obtain rfl := Option.some.inj hw
          exact .here hat
        · exact .next (by simpa using hat) (ih hw)
    exact hstop _

/-- Tests that agree on the slots stop a search alike. -/
lemma find_congr {stop' : σ → Bool} (h : ∀ s ∈ slots, stop s = stop' s) :
    find stop slots hash = find stop' slots hash := by
  have hany : ∀ i : ℕ, slots[i]?.any stop = slots[i]?.any stop' := by
    intro i
    cases hi : slots[i]? with
    | none => rfl
    | some s => exact h s (List.mem_of_getElem? hi)
  have hwalk : ∀ n i, walk stop slots n i = walk stop' slots n i := by
    intro n
    induction n with
    | zero => exact fun _ => rfl
    | succ n ih =>
      intro i
      rw [walk, walk, hany, ih]
  exact hwalk _ _

/-! ## Slots and their homes -/

/-- No slot between the home of the hash and slot `j` is free. -/
def Reaches (free : σ → Bool) (slots : List σ) (hash j : ℕ) : Prop :=
  ∃ d < slots.length, j = (hash + d) % slots.length ∧
    ∀ e < d, slots[(hash + e) % slots.length]?.any free = false

/-- What a search stops at is reached, if free slots stop it. -/
lemma reaches_of_find (hm : Masked slots) (hfree : ∀ s, free s = true → stop s = true)
    (h : find stop slots hash = some j) : Reaches free slots hash j := by
  obtain ⟨d, hd, hj, -, hbefore⟩ := (find_eq_some_iff hm).mp h
  refine ⟨d, hd, hj, fun e he => ?_⟩
  have hgo := hbefore e he
  rw [← Bool.not_eq_true] at hgo ⊢
  intro hat
  refine hgo ?_
  rw [Option.any_eq_true] at hat ⊢
  obtain ⟨s, hs, hsf⟩ := hat
  exact ⟨s, hs, hfree s hsf⟩

/-- A search stops at a slot that it accepts. -/
lemma stop_of_find (hm : Masked slots) (h : find stop slots hash = some j) :
    ∃ s, slots[j]? = some s ∧ stop s = true := by
  obtain ⟨-, -, -, hat, -⟩ := (find_eq_some_iff hm).mp h
  obtain ⟨s, hs, hstop⟩ := (Option.any_eq_true _ _).mp hat
  exact ⟨s, hs, hstop⟩

/-- A slot that is reached stops a search that accepts it, there or at another used slot before
it. -/
theorem exists_find_of_reaches (hm : Masked slots) (hr : Reaches free slots hash j) {s : σ}
    (hs : slots[j]? = some s) (hused : free s = false) (hstop : stop s = true) :
    ∃ j' s', find stop slots hash = some j' ∧ slots[j']? = some s' ∧ free s' = false ∧
      stop s' = true := by
  obtain ⟨d, hd, hj, hbefore⟩ := hr
  have hat : slots[j]?.any stop = true := by rw [hs]; exact hstop
  have hhome : wrap slots.length hash < slots.length := by
    rw [hm.wrap_eq]
    exact Nat.mod_lt _ hm.pos
  obtain ⟨j', hj'⟩ := exists_walk hm hhome hat
  obtain ⟨d', hd', hpos, hstop', hbefore'⟩ := (find_eq_some_iff hm).mp hj'
  obtain ⟨s', hs', hs'stop⟩ := (Option.any_eq_true _ _).mp hstop'
  refine ⟨j', s', hj', hs', ?_, hs'stop⟩
  rcases Nat.lt_trichotomy d' d with hlt | rfl | hgt
  · have hnot := hbefore d' hlt
    rw [← hpos, hs'] at hnot
    exact hnot
  · rw [hpos, ← hj, hs] at hs'
    rwa [← Option.some.inj hs']
  · have hnot := hbefore' d hgt
    rw [← hj, hat] at hnot
    exact absurd hnot (by decide)

/-! ## Filling a slot -/

/-- Filling a slot closes no way. -/
lemma Reaches.set (hr : Reaches free slots hash j) {s : σ} (hused : free s = false) (i : ℕ) :
    Reaches free (slots.set i s) hash j := by
  obtain ⟨d, hd, hj, hbefore⟩ := hr
  refine ⟨d, by rwa [List.length_set], by rwa [List.length_set], fun e he => ?_⟩
  rw [List.length_set, List.getElem?_set]
  split_ifs
  · exact hused
  · rfl
  · exact hbefore e he

/-- A search for a free slot succeeds where one is left. -/
lemma exists_find_free (hm : Masked slots) (hfree : 0 < slots.countP free) (hash : ℕ) :
    ∃ j, find free slots hash = some j := by
  rw [← Option.isSome_iff_exists, ← Option.ne_none_iff_isSome]
  intro hnone
  obtain ⟨s, hs, hsf⟩ := List.countP_pos_iff.mp hfree
  rw [(find_eq_none_iff hm).mp hnone s hs] at hsf
  exact absurd hsf (by decide)

/-- Filling a free slot leaves one less. -/
lemma countP_set_free {s s' : σ} (hj : slots[j]? = some s) (hs : free s = true)
    (hused : free s' = false) : (slots.set j s').countP free + 1 = slots.countP free := by
  obtain ⟨hlt, hget⟩ := List.getElem?_eq_some_iff.mp hj
  have hpos : 0 < slots.countP free :=
    List.countP_pos_iff.mpr ⟨s, List.mem_of_getElem? hj, hs⟩
  rw [List.countP_set hlt, hget, hs, hused, if_pos rfl, if_neg (by decide)]
  omega

end Search

end Probing
