import Mathlib.Data.Nat.Basic
import Mathlib.Tactic.Common

/-!
# Loops that can fail

A `for (;;)` loop over an explicit state is a function `turn` that either stops with a
result, goes on from a new state, or fails.  `Loop.loop` runs it with a budget taken from
the size of the first state.  As soon as every turn shrinks the state the budget never runs
out, and `loop` satisfies the unfolding equation `Loop.loop_eq` of the unbounded loop; the
remaining rules (`Loop.loop_rec`, `Loop.loop_invariant`, `Loop.loop_mapError`) are the ones
proofs about a particular loop use.
-/

namespace Loop

universe u v w

variable {σ : Type u} {β : Type v} {ε : Type w}

/-- One turn of a loop: go on from a new state, or stop with a result. -/
inductive Turn (σ : Type u) (β : Type v) where
  /-- Go on from the state `s`. -/
  | next (s : σ)
  /-- Leave the loop with the result `b`. -/
  | stop (b : β)

/-- At most `n` turns from the state `s`; `stuck` is the failure of a spent budget. -/
def iterate (turn : σ → Except ε (Turn σ β)) (stuck : ε) : ℕ → σ → Except ε β
  | 0, _ => .error stuck
  | n + 1, s =>
    match turn s with
    | .error e => .error e
    | .ok (.stop b) => .ok b
    | .ok (.next s') => iterate turn stuck n s'

/-- The loop from the state `s`, with one turn more than the size of `s`. -/
def loop (turn : σ → Except ε (Turn σ β)) (stuck : ε) (size : σ → ℕ) (s : σ) : Except ε β :=
  iterate turn stuck (size s + 1) s

/-- Every turn that goes on leaves a smaller state. -/
def Shrinks (turn : σ → Except ε (Turn σ β)) (size : σ → ℕ) : Prop :=
  ∀ s s', turn s = .ok (.next s') → size s' < size s

variable {turn : σ → Except ε (Turn σ β)} {stuck : ε} {size : σ → ℕ}

/-- A budget above the size of the state gives a result that does not depend on it. -/
lemma iterate_eq_of_lt (h : Shrinks turn size) :
    ∀ (n m : ℕ) (s : σ), size s < n → size s < m →
      iterate turn stuck n s = iterate turn stuck m s := by
  intro n
  induction n with
  | zero => intro m s hn; exact absurd hn (Nat.not_lt_zero _)
  | succ n ih =>
    intro m s hn hm
    obtain _ | m := m
    · exact absurd hm (Nat.not_lt_zero _)
    rw [iterate, iterate]
    cases ht : turn s with
    | error e => rfl
    | ok t =>
      cases t with
      | stop b => rfl
      | next s' =>
        have hs : size s' < size s := h s s' ht
        exact ih m s' (by omega) (by omega)

/-- The unfolding equation of a loop whose turns shrink the state. -/
lemma loop_eq (h : Shrinks turn size) (s : σ) :
    loop turn stuck size s =
      match turn s with
      | .error e => .error e
      | .ok (.stop b) => .ok b
      | .ok (.next s') => loop turn stuck size s' := by
  rw [loop, iterate]
  cases ht : turn s with
  | error e => rfl
  | ok t =>
    cases t with
    | stop b => rfl
    | next s' =>
      have hs : size s' < size s := h s s' ht
      exact iterate_eq_of_lt h _ _ s' (by omega) (by omega)

/-- A loop whose first turn goes on is the loop from the new state. -/
lemma loop_next (h : Shrinks turn size) {s s' : σ} (ht : turn s = .ok (.next s')) :
    loop turn stuck size s = loop turn stuck size s' := by
  rw [loop_eq h, ht]

/-- A loop whose first turn stops has its result. -/
lemma loop_stop {s : σ} {b : β} (ht : turn s = .ok (.stop b)) :
    loop turn stuck size s = .ok b := by
  rw [loop, iterate, ht]

/-- A loop whose first turn fails fails the same way. -/
lemma loop_error {s : σ} {e : ε} (ht : turn s = .error e) :
    loop turn stuck size s = .error e := by
  rw [loop, iterate, ht]

/-- Induction along the turns of a loop that shrinks the state. -/
lemma loop_rec (h : Shrinks turn size) {P : σ → Except ε β → Prop}
    (error : ∀ s e, turn s = .error e → P s (.error e))
    (stop : ∀ s b, turn s = .ok (.stop b) → P s (.ok b))
    (next : ∀ s s' r, turn s = .ok (.next s') → P s' r → P s r) (s : σ) :
    P s (loop turn stuck size s) := by
  induction hn : size s using Nat.strong_induction_on generalizing s with
  | _ n ih =>
    rw [loop_eq h]
    cases ht : turn s with
    | error e => exact error s e ht
    | ok t =>
      cases t with
      | stop b => exact stop s b ht
      | next s' => exact next s s' _ ht (ih (size s') (hn ▸ h s s' ht) s' rfl)

/-- The failure of a spent budget never shows. -/
lemma loop_stuck (h : Shrinks turn size) (stuck' : ε) (s : σ) :
    loop turn stuck size s = loop turn stuck' size s := by
  refine loop_rec h (P := fun s r => r = loop turn stuck' size s) ?_ ?_ ?_ s
  · exact fun s e ht => (loop_error ht).symm
  · exact fun s b ht => (loop_stop ht).symm
  · exact fun s s' r ht hr => by rw [hr, loop_next h ht]

/-- What every turn preserves holds of the state the loop stops in. -/
lemma loop_invariant {I : σ → Prop} {Q : β → Prop}
    (next : ∀ s s', I s → turn s = .ok (.next s') → I s')
    (stop : ∀ s b, I s → turn s = .ok (.stop b) → Q b) {s : σ} {b : β} (hs : I s)
    (hb : loop turn stuck size s = .ok b) : Q b := by
  have go : ∀ (n : ℕ) (s : σ), I s → iterate turn stuck n s = .ok b → Q b := by
    intro n
    induction n with
    | zero => intro s _ hr; exact absurd hr (by simp [iterate])
    | succ n ih =>
      intro s hs hr
      rw [iterate] at hr
      cases ht : turn s with
      | error e => rw [ht] at hr; exact absurd hr (by simp)
      | ok t =>
        rw [ht] at hr
        cases t with
        | stop b' =>
          obtain rfl : b' = b := by simpa using hr
          exact stop s b' hs ht
        | next s' => exact ih s' (next s s' hs ht) hr
  exact go _ s hs hb

/-- Loops whose turns agree on the states they meet agree. -/
lemma loop_congr {turn' : σ → Except ε (Turn σ β)} {I : σ → Prop}
    (same : ∀ s, I s → turn s = turn' s)
    (next : ∀ s s', I s → turn s = .ok (.next s') → I s') {s : σ} (hs : I s) :
    loop turn stuck size s = loop turn' stuck size s := by
  have go : ∀ (n : ℕ) (s : σ), I s → iterate turn stuck n s = iterate turn' stuck n s := by
    intro n
    induction n with
    | zero => intro s _; rfl
    | succ n ih =>
      intro s hs
      rw [iterate, iterate, ← same s hs]
      cases ht : turn s with
      | error e => rfl
      | ok t =>
        cases t with
        | stop b => rfl
        | next s' => exact ih s' (next s s' hs ht)
  exact go _ s hs

/-- Renaming the failures of a loop is renaming those of its turns. -/
lemma loop_mapError {ε' : Type w} (f : ε → ε') (s : σ) :
    (loop turn stuck size s).mapError f =
      loop (fun s => (turn s).mapError f) (f stuck) size s := by
  have go : ∀ (n : ℕ) (s : σ), (iterate turn stuck n s).mapError f =
      iterate (fun s => (turn s).mapError f) (f stuck) n s := by
    intro n
    induction n with
    | zero => intro s; rfl
    | succ n ih =>
      intro s
      rw [iterate, iterate]
      cases ht : turn s with
      | error e => rfl
      | ok t =>
        cases t with
        | stop b => rfl
        | next s' => exact ih s'
  exact go _ s

/-- A failure of a loop is the failure of a turn in a state the loop meets. -/
lemma loop_fails (h : Shrinks turn size) {I : σ → Prop} {F : ε → Prop}
    (next : ∀ s s', I s → turn s = .ok (.next s') → I s')
    (fail : ∀ s e, I s → turn s = .error e → F e) {s : σ} {e : ε} (hs : I s)
    (he : loop turn stuck size s = .error e) : F e := by
  refine loop_rec h (P := fun s r => I s → r = .error e → F e) ?_ ?_ ?_ s hs he
  · intro s e' ht hs he
    obtain rfl := Except.error.inj he
    exact fail s e' hs ht
  · intro s b ht hs he
    cases he
  · intro s s' r ht hr hs he
    exact hr (next s s' hs ht) he

/-! ## Results up to failures of a kind -/

/-- The result `x` is the result `y`, or a failure of the kind `F`. -/
def UpTo {α : Type v} (F : ε → Prop) (x y : Except ε α) : Prop :=
  x = y ∨ ∃ e, x = .error e ∧ F e

variable {α : Type v} {F : ε → Prop} {x y : Except ε α}

lemma UpTo.refl (x : Except ε α) : UpTo F x x := .inl rfl

/-- A success is not lost. -/
lemma UpTo.ok (h : UpTo F x y) {a : α} (hx : x = .ok a) : y = .ok a := by
  rcases h with rfl | ⟨e, he, -⟩
  · exact hx
  · exact absurd (he.symm.trans hx) (by simp)

/-- To compare what is made of two such results, make it of one result, and of a failure of the
kind. -/
@[elab_as_elim]
lemma UpTo.elim {C : Except ε α → Except ε α → Prop} (h : UpTo F x y) (same : ∀ z, C z z)
    (fails : ∀ e z, F e → C (.error e) z) : C x y := by
  rcases h with rfl | ⟨e, rfl, he⟩
  · exact same x
  · exact fails e y he

lemma UpTo.map {γ : Type v} (h : UpTo F x y) (f : α → γ) : UpTo F (x.map f) (y.map f) := by
  rcases h with rfl | ⟨e, rfl, he⟩
  · exact .refl _
  · exact .inr ⟨e, rfl, he⟩

/-- Loops agree up to failures of a kind where their turns do. -/
lemma loop_upTo {turn' : σ → Except ε (Turn σ β)} (h : ∀ s, UpTo F (turn s) (turn' s)) (s : σ) :
    UpTo F (loop turn stuck size s) (loop turn' stuck size s) := by
  have go : ∀ (n : ℕ) (s : σ), UpTo F (iterate turn stuck n s) (iterate turn' stuck n s) := by
    intro n
    induction n with
    | zero => exact fun s => .refl _
    | succ n ih =>
      intro s
      rw [iterate, iterate]
      rcases h s with hturn | ⟨e, he, hF⟩
      · rw [hturn]
        cases turn' s with
        | error e => exact .refl _
        | ok t =>
          cases t with
          | stop b => exact .refl _
          | next s' => exact ih s'
      · rw [he]
        exact .inr ⟨e, rfl, hF⟩
  exact go _ s

end Loop
