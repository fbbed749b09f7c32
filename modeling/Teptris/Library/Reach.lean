import Mathlib.Data.Nat.Basic
import Mathlib.Logic.Relation
import Mathlib.Tactic.Common

/-!
# Reachable states

Two facts about searching a graph.  `Frontier` is the invariant of a search with a stack of
states still to be looked at: when the stack is empty what the search has seen is what can be
reached (`Frontier.done`).  `Layered.reach_succ_iff` takes the reachable configurations of a
machine that reads a text apart by the position they stand at: those at the next position are
reached by reading one symbol and then moving without reading.
-/

namespace Reach

variable {Q : Type*}

/-! ## Searching with a stack -/

/-- What holds of a search from the states `seed` along `next`: `seen` is what it has met, and
the states on the stack are those of them whose successors are still to come. -/
structure Frontier (next : Q → Q → Prop) (seed seen : Q → Prop) (stack : List Q) : Prop where
  /-- What is seen is reachable. -/
  sound : ∀ q, seen q → ∃ s, seed s ∧ Relation.ReflTransGen next s q
  /-- The search begins with its seeds. -/
  seeds : ∀ q, seed q → seen q
  /-- The successors of a state off the stack are seen. -/
  closed : ∀ q, seen q → q ∉ stack → ∀ t, next q t → seen t
  /-- The stack holds seen states. -/
  stacked : ∀ q ∈ stack, seen q

variable {next : Q → Q → Prop} {seed seen seen' : Q → Prop} {stack stack' : List Q}

/-- A search that has seen its seeds, all of them on the stack. -/
lemma Frontier.start (hseen : ∀ q, seen q ↔ seed q) (hstack : ∀ q, q ∈ stack ↔ seed q) :
    Frontier next seed seen stack := by
  constructor
  · intro q hq
    exact ⟨q, (hseen q).mp hq, .refl⟩
  · exact fun q hq => (hseen q).mpr hq
  · intro q hq hn
    exact absurd ((hstack q).mpr ((hseen q).mp hq)) hn
  · exact fun q hq => (hseen q).mpr ((hstack q).mp hq)

/-- Taking a state from the stack and putting its new successors there. -/
lemma Frontier.pop {q : Q} (h : Frontier next seed seen (q :: stack))
    (hseen : ∀ t, seen' t ↔ seen t ∨ next q t)
    (hstack : ∀ t, t ∈ stack' ↔ t ∈ stack ∨ (next q t ∧ ¬ seen t)) :
    Frontier next seed seen' stack' := by
  have hq : seen q := h.stacked q List.mem_cons_self
  constructor
  · intro t ht
    rcases (hseen t).mp ht with ht | ht
    · exact h.sound t ht
    · obtain ⟨s, hs, hsq⟩ := h.sound q hq
      exact ⟨s, hs, hsq.tail ht⟩
  · exact fun t ht => (hseen t).mpr (Or.inl (h.seeds t ht))
  · intro t ht hn u hu
    by_cases hts : seen t
    · by_cases htq : t = q
      · subst htq
        exact (hseen u).mpr (Or.inr hu)
      · have hoff : t ∉ q :: stack := by
          intro hmem
          rcases List.mem_cons.mp hmem with hmem | hmem
          · exact htq hmem
          · exact hn ((hstack t).mpr (Or.inl hmem))
        exact (hseen u).mpr (Or.inl (h.closed t hts hoff u hu))
    · rcases (hseen t).mp ht with ht | ht
      · exact absurd ht hts
      · exact absurd ((hstack t).mpr (Or.inr ⟨ht, hts⟩)) hn
  · intro t ht
    rcases (hstack t).mp ht with ht | ⟨ht, -⟩
    · exact (hseen t).mpr (Or.inl (h.stacked t (List.mem_cons_of_mem q ht)))
    · exact (hseen t).mpr (Or.inr ht)

/-- A finished search has seen exactly what is reachable. -/
lemma Frontier.done (h : Frontier next seed seen []) (q : Q) :
    seen q ↔ ∃ s, seed s ∧ Relation.ReflTransGen next s q := by
  constructor
  · exact h.sound q
  · rintro ⟨s, hs, hsq⟩
    induction hsq with
    | refl => exact h.seeds s hs
    | tail _ hstep ih => exact h.closed _ ih List.not_mem_nil _ hstep

/-! ## Configurations by position -/

/-- A machine on a text: a step stays at its position along `eps` or reads one symbol along
`read`. -/
structure Layered (step : Q × ℕ → Q × ℕ → Prop) (eps read : ℕ → Q → Q → Prop) : Prop where
  /-- The steps. -/
  step_iff : ∀ q i t j, step (q, i) (t, j) ↔ (j = i ∧ eps i q t) ∨ (j = i + 1 ∧ read i q t)

variable {step : Q × ℕ → Q × ℕ → Prop} {eps read : ℕ → Q → Q → Prop}

/-- A machine on a text does not go back. -/
lemma Layered.le (h : Layered step eps read) {c c' : Q × ℕ}
    (hr : Relation.ReflTransGen step c c') : c.2 ≤ c'.2 := by
  induction hr with
  | refl => exact Nat.le_refl _
  | @tail b d _ hstep ih =>
    obtain ⟨q, i⟩ := b
    obtain ⟨t, j⟩ := d
    rcases (h.step_iff q i t j).mp hstep with ⟨rfl, -⟩ | ⟨rfl, -⟩
    · exact ih
    · exact Nat.le_succ_of_le ih

/-- Moving without reading. -/
lemma Layered.reach_of_eps (h : Layered step eps read) {i : ℕ} {q t : Q}
    (hr : Relation.ReflTransGen (eps i) q t) : Relation.ReflTransGen step (q, i) (t, i) := by
  induction hr with
  | refl => exact .refl
  | tail _ hstep ih => exact ih.tail ((h.step_iff _ _ _ _).mpr (Or.inl ⟨rfl, hstep⟩))

/-- What is reached at the position of the start. -/
lemma Layered.reach_start_iff (h : Layered step eps read) (s q : Q) (i : ℕ) :
    Relation.ReflTransGen step (s, i) (q, i) ↔ Relation.ReflTransGen (eps i) s q := by
  constructor
  · intro hr
    suffices H : ∀ c, Relation.ReflTransGen step (s, i) c → c.2 = i →
        Relation.ReflTransGen (eps i) s c.1 from H (q, i) hr rfl
    intro c hc
    induction hc with
    | refl => exact fun _ => .refl
    | @tail b d hb hstep ih =>
      obtain ⟨u, k⟩ := b
      obtain ⟨t, j⟩ := d
      rintro rfl
      have hle : j ≤ k := h.le hb
      rcases (h.step_iff u k t j).mp hstep with ⟨rfl, he⟩ | ⟨hj, -⟩
      · exact (ih rfl).tail he
      · exact absurd hle (by omega)
  · exact h.reach_of_eps

/-- What is reached one position further on. -/
lemma Layered.reach_succ_iff (h : Layered step eps read) (s q : Q) {i p : ℕ} (hp : i ≤ p) :
    Relation.ReflTransGen step (s, i) (q, p + 1) ↔
      ∃ t, (∃ u, Relation.ReflTransGen step (s, i) (u, p) ∧ read p u t) ∧
        Relation.ReflTransGen (eps (p + 1)) t q := by
  constructor
  · intro hr
    suffices H : ∀ c, Relation.ReflTransGen step (s, i) c → c.2 = p + 1 →
        ∃ t, (∃ u, Relation.ReflTransGen step (s, i) (u, p) ∧ read p u t) ∧
          Relation.ReflTransGen (eps (p + 1)) t c.1 from H (q, p + 1) hr rfl
    intro c hc
    induction hc with
    | refl => exact fun hi => absurd hp (by omega)
    | @tail b d hb hstep ih =>
      obtain ⟨u, k⟩ := b
      obtain ⟨t, j⟩ := d
      rintro rfl
      rcases (h.step_iff u k t (p + 1)).mp hstep with ⟨rfl, he⟩ | ⟨hk, hread⟩
      · obtain ⟨t', ht', het⟩ := ih rfl
        exact ⟨t', ht', het.tail he⟩
      · obtain rfl : k = p := by omega
        exact ⟨t, ⟨u, hb, hread⟩, .refl⟩
  · rintro ⟨t, ⟨u, hu, hread⟩, het⟩
    have hstep : step (u, p) (t, p + 1) := (h.step_iff u p t (p + 1)).mpr (Or.inr ⟨rfl, hread⟩)
    exact (hu.tail hstep).trans (h.reach_of_eps het)

end Reach
