import Mathlib.Data.Finset.Card
import Mathlib.Data.Finset.Filter
import Mathlib.Data.Finset.Range
import Mathlib.Tactic.Common

/-!
# Strides

A walk over a list that stops at some of its elements: at each stop it says how many elements it
covers behind it and goes on from the one after those.  Two walks over one list stop equally
often up to the elements at which only one of them stops (`stops_le_iff`).
-/

namespace Strides

variable {α : Type*} (cover : α → List α → ℕ)

/-- Whether the walk stops, element by element; the first `skip` elements are covered. -/
def marks : ℕ → List α → List Bool
  | _, [] => []
  | skip + 1, _ :: rest => false :: marks skip rest
  | 0, b :: rest => true :: marks (cover b rest) rest

/-- The number of stops. -/
def stops (skip : ℕ) (s : List α) : ℕ := (marks cover skip s).count true

/-- The walk from the first element stops at position `j`. -/
def StopsAt (s : List α) (j : ℕ) : Prop := (marks cover 0 s)[j]? = some true

instance (s : List α) (j : ℕ) : Decidable (StopsAt cover s j) :=
  inferInstanceAs (Decidable (_ = _))

lemma marks_length : ∀ (skip : ℕ) (s : List α), (marks cover skip s).length = s.length
  | _, [] => rfl
  | skip + 1, _ :: rest => congrArg (· + 1) (marks_length skip rest)
  | 0, b :: rest => congrArg (· + 1) (marks_length (cover b rest) rest)

/-- The number of places of a value in a list. -/
lemma count_true_eq_card (l : List Bool) :
    l.count true = ((Finset.range l.length).filter fun j => l[j]? = some true).card := by
  induction l using List.reverseRecOn with
  | nil => rfl
  | append_singleton l b ih =>
    have hold : (Finset.range l.length).filter (fun j => (l ++ [b])[j]? = some true) =
        (Finset.range l.length).filter fun j => l[j]? = some true :=
      Finset.filter_congr fun j hj => by rw [List.getElem?_append_left (Finset.mem_range.1 hj)]
    rw [List.count_append, ih, List.length_append, List.length_singleton, Finset.range_add_one,
      Finset.filter_insert, hold]
    cases b with
    | false => simp
    | true => simp

/-- The stops are the positions the walk stops at. -/
lemma stops_eq_card (s : List α) :
    stops cover 0 s = ((Finset.range s.length).filter (StopsAt cover s)).card := by
  rw [stops, count_true_eq_card, marks_length]
  rfl

section Compare

variable (p q : α → List α → ℕ) (s : List α)

/-- The positions at which the walk `p` stops and the walk `q` does not. -/
def onlyFirst : Finset ℕ :=
  (Finset.range s.length).filter fun j => StopsAt p s j ∧ ¬ StopsAt q s j

/-- What two walks stop at is what both stop at and what one of them stops at. -/
lemma stops_add_onlyFirst : stops p 0 s + (onlyFirst q p s).card =
    stops q 0 s + (onlyFirst p q s).card := by
  have hboth : ∀ p q : α → List α → ℕ, stops p 0 s =
      ((Finset.range s.length).filter fun j => StopsAt p s j ∧ StopsAt q s j).card +
        (onlyFirst p q s).card := fun p q => by
    rw [stops_eq_card, ← Finset.card_filter_add_card_filter_not (StopsAt q s), onlyFirst,
      Finset.filter_filter, Finset.filter_filter]
  have hp := hboth p q
  have hq := hboth q p
  simp only [and_comm] at hp hq
  omega

/-- One walk stops at most `k` times more often than the other where the stops of its own are at
most `k` more than those it leaves out. -/
theorem stops_le_iff (k : ℕ) :
    stops p 0 s ≤ stops q 0 s + k ↔ (onlyFirst p q s).card ≤ (onlyFirst q p s).card + k := by
  have h := stops_add_onlyFirst p q s
  omega

end Compare

end Strides
