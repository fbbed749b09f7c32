import Mathlib.Data.Nat.Basic
import Mathlib.Logic.Relation
import Mathlib.Tactic.Common

/-!
# Passages through a machine

A machine moves between configurations, pairs of a state and a position.  A part of it that is
entered at `e` and left at `x` is described by the relation `R` its passages realise between
positions: whoever enters at `i` can leave at every `j` with `R i j`, and every run that goes on
to the goal leaves it at such a `j` (`Passage`).  Parts compose as relations do: one behind the
other (`Passage.comp`), side by side (`Passage.split`) and in a loop (`Passage.star`), so that a
machine built from parts is read off the way it was put together, without a look at its runs.
-/

namespace Machine

variable {Q P : Type*}

/-! ## Relations -/

/-- `R` taken `k` times. -/
def power (R : P → P → Prop) : ℕ → P → P → Prop
  | 0 => Eq
  | k + 1 => Relation.Comp R (power R k)

/-- One more turn may also come last. -/
lemma power_succ' (R : P → P → Prop) (k : ℕ) :
    ∀ i j, power R (k + 1) i j ↔ Relation.Comp (power R k) R i j := by
  induction k with
  | zero =>
    intro i j
    constructor
    · rintro ⟨x, hx, rfl⟩
      exact ⟨i, rfl, hx⟩
    · rintro ⟨x, rfl, hx⟩
      exact ⟨j, hx, rfl⟩
  | succ k ih =>
    intro i j
    constructor
    · rintro ⟨x, hx, hj⟩
      obtain ⟨y, hy, hj⟩ := (ih x j).mp hj
      exact ⟨y, ⟨x, hx, hy⟩, hj⟩
    · rintro ⟨y, ⟨x, hx, hy⟩, hj⟩
      exact ⟨x, hx, (ih x j).mpr ⟨y, hy, hj⟩⟩

/-- Powers of the identity are the identity. -/
lemma power_eq (k : ℕ) : ∀ i j : P, power Eq k i j ↔ i = j := by
  induction k with
  | zero => exact fun i j => Iff.rfl
  | succ k ih =>
    intro i j
    constructor
    · rintro ⟨x, rfl, hj⟩
      exact (ih i j).mp hj
    · intro h
      exact ⟨i, rfl, (ih i j).mpr h⟩

/-- Powers compose. -/
lemma power_add (R : P → P → Prop) (m k : ℕ) :
    ∀ i j, power R (m + k) i j ↔ Relation.Comp (power R m) (power R k) i j := by
  induction m with
  | zero =>
    intro i j
    rw [Nat.zero_add]
    constructor
    · exact fun h => ⟨i, rfl, h⟩
    · rintro ⟨x, rfl, h⟩
      exact h
  | succ m ih =>
    intro i j
    rw [Nat.add_right_comm]
    constructor
    · rintro ⟨x, hx, hj⟩
      obtain ⟨y, hy, hj⟩ := (ih x j).mp hj
      exact ⟨y, ⟨x, hx, hy⟩, hj⟩
    · rintro ⟨y, ⟨x, hx, hy⟩, hj⟩
      exact ⟨x, hx, (ih x j).mpr ⟨y, hy, hj⟩⟩

/-- The closure of a relation is the union of its powers. -/
lemma reflTransGen_iff_power (R : P → P → Prop) (i j : P) :
    Relation.ReflTransGen R i j ↔ ∃ k, power R k i j := by
  constructor
  · intro h
    induction h using Relation.ReflTransGen.head_induction_on with
    | refl => exact ⟨0, rfl⟩
    | head hstep _ ih =>
      obtain ⟨k, hk⟩ := ih
      exact ⟨k + 1, _, hstep, hk⟩
  · rintro ⟨k, hk⟩
    induction k generalizing i with
    | zero =>
      obtain rfl : i = j := hk
      exact .refl
    | succ k ih =>
      obtain ⟨x, hx, hk⟩ := hk
      exact .head hx (ih x hk)

/-- The turns of an optional relation are the turns of the relation, as many as there are. -/
lemma power_or_eq (R : P → P → Prop) (n : ℕ) :
    ∀ i j, power (fun i j => R i j ∨ i = j) n i j ↔ ∃ k ≤ n, power R k i j := by
  induction n with
  | zero =>
    intro i j
    constructor
    · exact fun h => ⟨0, le_rfl, h⟩
    · rintro ⟨k, hk, h⟩
      obtain rfl : k = 0 := Nat.le_zero.mp hk
      exact h
  | succ n ih =>
    intro i j
    constructor
    · rintro ⟨x, hx, hj⟩
      obtain ⟨k, hk, hj⟩ := (ih x j).mp hj
      rcases hx with hx | rfl
      · exact ⟨k + 1, Nat.succ_le_succ hk, x, hx, hj⟩
      · exact ⟨k, Nat.le_succ_of_le hk, hj⟩
    · rintro ⟨k, hk, hj⟩
      cases k with
      | zero => exact ⟨i, Or.inr rfl, (ih i j).mpr ⟨0, Nat.zero_le n, hj⟩⟩
      | succ k =>
        obtain ⟨x, hx, hj⟩ := hj
        exact ⟨x, Or.inl hx, (ih x j).mpr ⟨k, Nat.le_of_succ_le_succ hk, hj⟩⟩

/-! ## Runs -/

/-- From the configuration the goal is reached in `n` steps. -/
inductive Run (step : Q × P → Q × P → Prop) (goal : Q × P → Prop) : ℕ → Q × P → Prop
  /-- The goal itself. -/
  | done {c : Q × P} (h : goal c) : Run step goal 0 c
  /-- A step in front of a run. -/
  | step {n : ℕ} {c c' : Q × P} (h : step c c') (hr : Run step goal n c') : Run step goal (n + 1) c

variable {step : Q × P → Q × P → Prop} {goal : Q × P → Prop}

/-- The goal is in reach when a configuration with a run to it is. -/
lemma exists_run_of_reach {c c' : Q × P} (h : Relation.ReflTransGen step c c') (hc : goal c') :
    ∃ n, Run step goal n c := by
  induction h using Relation.ReflTransGen.head_induction_on with
  | refl => exact ⟨0, .done hc⟩
  | head hstep _ ih =>
    obtain ⟨n, hn⟩ := ih
    exact ⟨n + 1, .step hstep hn⟩

/-- What a run reaches. -/
lemma Run.reach {n : ℕ} {c : Q × P} (h : Run step goal n c) :
    ∃ c', Relation.ReflTransGen step c c' ∧ goal c' := by
  induction h with
  | done h => exact ⟨_, .refl, h⟩
  | step h _ ih =>
    obtain ⟨c', hc', hg⟩ := ih
    exact ⟨c', .head h hc', hg⟩

/-- A run from outside the goal begins with a step. -/
lemma Run.first {n : ℕ} {c : Q × P} (h : Run step goal n c) (hc : ¬ goal c) :
    ∃ m c', n = m + 1 ∧ step c c' ∧ Run step goal m c' := by
  cases h with
  | done h => exact absurd h hc
  | step h hr => exact ⟨_, _, rfl, h, hr⟩

/-! ## Passages -/

/-- Entering at `e`, the machine can leave at `x` exactly along `R`. -/
structure Passage (step : Q × P → Q × P → Prop) (goal : Q × P → Prop) (e x : Q)
    (R : P → P → Prop) : Prop where
  /-- Every pair of `R` is realised. -/
  complete : ∀ i j, R i j → Relation.ReflTransGen step (e, i) (x, j)
  /-- Every run to the goal leaves along `R`. -/
  sound : ∀ n i, Run step goal n (e, i) → ∃ j m, m ≤ n ∧ R i j ∧ Run step goal m (x, j)

namespace Passage

variable {e x y a b : Q} {R S : P → P → Prop}

/-- Passages along equivalent relations. -/
lemma congr (h : Passage step goal e x R) (hRS : ∀ i j, R i j ↔ S i j) :
    Passage step goal e x S := by
  constructor
  · intro i j hij
    exact h.complete i j ((hRS i j).mpr hij)
  · intro n i hr
    obtain ⟨j, m, hm, hij, hr⟩ := h.sound n i hr
    exact ⟨j, m, hm, (hRS i j).mp hij, hr⟩

/-- Staying where one is. -/
lemma refl (step : Q × P → Q × P → Prop) (goal : Q × P → Prop) (e : Q) :
    Passage step goal e e Eq := by
  constructor
  · rintro i j rfl
    exact .refl
  · intro n i hr
    exact ⟨i, n, le_rfl, rfl, hr⟩

/-- One part behind the other. -/
lemma comp (h₁ : Passage step goal e x R) (h₂ : Passage step goal x y S) :
    Passage step goal e y (Relation.Comp R S) := by
  constructor
  · rintro i j ⟨k, hk, hj⟩
    exact (h₁.complete i k hk).trans (h₂.complete k j hj)
  · intro n i hr
    obtain ⟨k, m, hm, hk, hr⟩ := h₁.sound n i hr
    obtain ⟨j, l, hl, hj, hr⟩ := h₂.sound m k hr
    exact ⟨j, l, Nat.le_trans hl hm, ⟨k, hk, hj⟩, hr⟩

/-- A state whose moves all lead to `x`. -/
lemma single (hstep : ∀ i c, step (e, i) c ↔ ∃ j, R i j ∧ c = (x, j))
    (hgoal : ∀ i, ¬ goal (e, i)) : Passage step goal e x R := by
  constructor
  · intro i j hij
    exact .single ((hstep i (x, j)).mpr ⟨j, hij, rfl⟩)
  · intro n i hr
    obtain ⟨m, c, rfl, hc, hr⟩ := hr.first (hgoal i)
    obtain ⟨j, hij, rfl⟩ := (hstep i c).mp hc
    exact ⟨j, m, Nat.le_succ m, hij, hr⟩

/-- Two parts side by side behind a state that leads to both. -/
lemma split (hstep : ∀ i c, step (e, i) c ↔ c = (a, i) ∨ c = (b, i))
    (hgoal : ∀ i, ¬ goal (e, i)) (ha : Passage step goal a x R) (hb : Passage step goal b x S) :
    Passage step goal e x (fun i j => R i j ∨ S i j) := by
  constructor
  · intro i j hij
    rcases hij with hij | hij
    · exact .head ((hstep i (a, i)).mpr (Or.inl rfl)) (ha.complete i j hij)
    · exact .head ((hstep i (b, i)).mpr (Or.inr rfl)) (hb.complete i j hij)
  · intro n i hr
    obtain ⟨m, c, rfl, hc, hr⟩ := hr.first (hgoal i)
    rcases (hstep i c).mp hc with rfl | rfl
    · obtain ⟨j, l, hl, hij, hr⟩ := ha.sound m i hr
      exact ⟨j, l, Nat.le_succ_of_le hl, Or.inl hij, hr⟩
    · obtain ⟨j, l, hl, hij, hr⟩ := hb.sound m i hr
      exact ⟨j, l, Nat.le_succ_of_le hl, Or.inr hij, hr⟩

/-- A part that leads back to the state in front of it. -/
lemma star (hstep : ∀ i c, step (e, i) c ↔ c = (a, i) ∨ c = (x, i))
    (hgoal : ∀ i, ¬ goal (e, i)) (ha : Passage step goal a e R) :
    Passage step goal e x (Relation.ReflTransGen R) := by
  constructor
  · intro i j hij
    induction hij using Relation.ReflTransGen.head_induction_on with
    | refl => exact .single ((hstep j (x, j)).mpr (Or.inr rfl))
    | head hR _ ih =>
      exact .trans (.head ((hstep _ _).mpr (Or.inl rfl)) (ha.complete _ _ hR)) ih
  · intro n
    -- every turn through the part spends a step, so the induction is on the length of the run
    induction n using Nat.strong_induction_on with
    | _ n ih =>
      intro i hr
      obtain ⟨m, c, rfl, hc, hr⟩ := hr.first (hgoal i)
      rcases (hstep i c).mp hc with rfl | rfl
      · obtain ⟨k, l, hl, hik, hr⟩ := ha.sound m i hr
        obtain ⟨j, l', hl', hkj, hr⟩ := ih l (by omega) k hr
        exact ⟨j, l', by omega, .head hik hkj, hr⟩
      · exact ⟨i, m, Nat.le_succ m, .refl, hr⟩

/-- A machine that is entered at `e` and stops at its exit `x`. -/
lemma reach_iff {j : P} (h : Passage step (· = (x, j)) e x R) (hstop : ∀ k c, ¬ step (x, k) c)
    (i : P) : Relation.ReflTransGen step (e, i) (x, j) ↔ R i j := by
  constructor
  · intro hreach
    obtain ⟨n, hn⟩ : ∃ n, Run step (· = (x, j)) n (e, i) := exists_run_of_reach hreach rfl
    obtain ⟨k, m, -, hk, hrun⟩ := h.sound n i hn
    cases hrun with
    | done hgoal =>
      obtain rfl : k = j := congrArg Prod.snd hgoal
      exact hk
    | step hstep _ => exact absurd hstep (hstop k _)
  · exact h.complete i j

end Passage

end Machine
