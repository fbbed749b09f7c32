import Mathlib.Data.List.DropRight
import Mathlib.Data.List.TakeWhile
import Mathlib.Tactic.Common

/-!
# Leading and trailing runs

A scanner reads the elements in front that satisfy a predicate and goes on behind them, with
`takeWhile` and `dropWhile`.  A run is read off a text exactly when nothing behind it could belong
to it (`Runs.cut`), so that what a scanner accepts is a run with any such text behind it
(`Runs.cut_iff`).  A run at the end is given back the same way (`Runs.trail`).
-/

namespace Runs

variable {α : Type*} {p : α → Bool} {a b s : List α}

/-- A run is cut off where it ends. -/
lemma cut (ha : ∀ c ∈ a, p c = true) (hb : ∀ c ∈ b.head?, p c = false) :
    (a ++ b).takeWhile p = a ∧ (a ++ b).dropWhile p = b := by
  rw [List.takeWhile_append_of_pos ha, List.dropWhile_append_of_pos ha]
  cases b with
  | nil => simp
  | cons c cs =>
    have hc : p c = false := hb c rfl
    simp [hc]

/-- A run that is cut off and what is left behind it. -/
lemma cut_iff {P : List α → Prop} (hP : ∀ a, P a → ∀ c ∈ a, p c = true) :
    P (s.takeWhile p) ∧ s.dropWhile p = b ↔
      ∃ a, P a ∧ s = a ++ b ∧ ∀ c ∈ b.head?, p c = false := by
  constructor
  · rintro ⟨ha, rfl⟩
    refine ⟨_, ha, List.takeWhile_append_dropWhile.symm, fun c hc => ?_⟩
    have hstop := List.head?_dropWhile_not p s
    rw [Option.mem_def.1 hc] at hstop
    exact hstop
  · rintro ⟨a, ha, rfl, hb⟩
    obtain ⟨htake, hdrop⟩ := cut (hP a ha) hb
    rw [htake]
    exact ⟨ha, hdrop⟩

/-- A run at the end is given back. -/
lemma trail (ha : ∀ c ∈ a.getLast?, p c = false) (hb : ∀ c ∈ b, p c = true) :
    (a ++ b).rdropWhile p = a := by
  have hself : a.rdropWhile p = a :=
    List.rdropWhile_eq_self_iff.mpr fun hne => by
      rw [ha _ (List.getLast?_eq_some_getLast hne)]
      exact Bool.false_ne_true
  rw [List.rdropWhile, List.reverse_append, List.dropWhile_append_of_pos (by simpa using hb)]
  exact hself

/-- An element of no run stays in front of the run at the end. -/
lemma mem_rdropWhile {c : α} (hc : c ∈ a) (hp : p c = false) : c ∈ a.rdropWhile p := by
  rw [← List.rdropWhile_append_rtakeWhile (p := p) (l := a)] at hc
  refine (List.mem_append.mp hc).resolve_right fun h => ?_
  rw [List.mem_rtakeWhile_imp h] at hp
  cases hp

/-- A run in front ends before an element of no run. -/
lemma mem_of_mem_takeWhile {c d : α} (hd : p d = false)
    (h : c ∈ (a ++ d :: b).takeWhile p) : c ∈ a := by
  rw [List.takeWhile_append] at h
  split_ifs at h with hlen
  · simpa [hd] using h
  · exact (List.takeWhile_prefix p).subset h

end Runs
