import Teptris.Library.Reach
import Teptris.Schema.RegexEmit

/-!
# Running the automaton

`closure` marks what is reached without reading (`marked_closure_iff`): its loop is a search with
a stack, and its stamps tell the states seen in this generation from those of earlier ones.
`stepMarks` reads a code point, but it stamps the states of the next generation into the cells
that hold those of the last one; a state that is overwritten before its turn is lost.  Where that
happens to no state that counts (`Overwritten`) the marks are the configurations a run of `Move`
comes to, from one position to the next (`Visits.next`).
-/

namespace Teptris

open Relation

/-! ## Stamps -/

/-- A state bears a stamp of the generation. -/
lemma markedAt_iff {gen : ℤ} {mark : List ℤ} {q : ℕ} :
    markedAt gen mark q = true ↔ ∃ m, mark[q]? = some m ∧ unmarked gen m = false := by
  unfold markedAt unmarked
  cases mark[q]? with
  | none => simp
  | some m =>
    simp only [Option.some.injEq, exists_eq_left', decide_eq_true_iff, decide_eq_false_iff_not]
    omega

/-- Only states have cells. -/
lemma lt_of_markedAt {gen : ℤ} {mark : List ℤ} {q : ℕ} (h : markedAt gen mark q = true) :
    q < mark.length := by
  obtain ⟨m, hm, -⟩ := markedAt_iff.mp h
  exact (List.getElem?_eq_some_iff.mp hm).1

/-- The stamp a target gets. -/
lemma unmarked_self (gen : ℤ) : unmarked gen gen = false := by simp [unmarked]

/-- The stamp of a closed state. -/
lemma unmarked_neg (gen : ℤ) : unmarked gen (-gen) = false := by simp [unmarked]

/-- No stamp is of a later generation. -/
def Stamped (gen : ℤ) (mark : List ℤ) : Prop := ∀ m ∈ mark, -gen ≤ m ∧ m ≤ gen

/-- A new generation begins without marks. -/
lemma Stamped.unmarked_next {gen : ℤ} {mark : List ℤ} (h : Stamped gen mark) (q : ℕ) :
    markedAt (gen + 1) mark q = false := by
  by_contra hq
  obtain ⟨m, hm, hu⟩ := markedAt_iff.mp (by simpa using hq)
  have hb := h m (List.mem_of_getElem? hm)
  simp only [unmarked, decide_eq_false_iff_not] at hu
  omega

/-- Stamps stay below those of the generation when one of its own is set. -/
lemma Stamped.set {gen : ℤ} {mark : List ℤ} (h : Stamped gen mark) {m : ℤ}
    (hm : -gen ≤ m ∧ m ≤ gen) (q : ℕ) : Stamped gen (mark.set q m) := by
  intro x hx
  rcases List.mem_or_eq_of_mem_set hx with hx | rfl
  · exact h x hx
  · exact hm

/-- Stamping an unmarked cell. -/
lemma markedAt_set {gen m : ℤ} {mark : List ℤ} {t : ℕ} (hm : unmarked gen m = false)
    (ht : t < mark.length) (q : ℕ) :
    markedAt gen (mark.set t m) q = true ↔ markedAt gen mark q = true ∨ q = t := by
  rw [markedAt_iff, markedAt_iff]
  by_cases hq : t = q
  · subst hq
    rw [List.getElem?_set_self ht]
    simp [hm]
  · rw [List.getElem?_set_ne hq]
    have hq' : ¬ q = t := fun h => hq h.symm
    simp [hq']

/-! ## The closure -/

variable {s : List ℕ} {states : List RState} {gen : ℤ} {pos : ℕ}

/-- The moves that do not read, between states. -/
def EpsMove (s : List ℕ) (states : List RState) (pos q t : ℕ) : Prop :=
  t < states.length ∧ ∃ st, states[q]? = some st ∧ some t ∈ closureTargets s st pos

/-- The targets that get a new mark. -/
def Fresh (mark : List ℤ) (targets : List (Option ℕ)) (t : ℕ) : Prop :=
  t < mark.length ∧ some t ∈ targets

/-- What pushing some targets does to marks and stack. -/
structure Pushed (gen : ℤ) (targets : List (Option ℕ)) (st st' : List ℤ × List ℕ) : Prop where
  /-- There are as many cells. -/
  length : st'.1.length = st.1.length
  /-- The targets are marked. -/
  marked : ∀ t, markedAt gen st'.1 t = true ↔ markedAt gen st.1 t = true ∨ Fresh st.1 targets t
  /-- Those that were not marked are on the stack. -/
  stacked : ∀ t, t ∈ st'.2 ↔
    t ∈ st.2 ∨ (Fresh st.1 targets t ∧ ¬ markedAt gen st.1 t = true)
  /-- What goes to the stack is no longer unmarked. -/
  size : closureSize gen st' = closureSize gen st
  /-- No later stamp appears. -/
  stamped : 0 ≤ gen → Stamped gen st.1 → Stamped gen st'.1

/-- One target. -/
lemma pushTarget_pushed (gen : ℤ) (st : List ℤ × List ℕ) (target : Option ℕ) :
    Pushed gen [target] st (pushTarget gen st target) := by
  cases target with
  | none => constructor <;> simp [pushTarget, Fresh]
  | some t =>
    unfold pushTarget
    simp only
    cases ht : st.1[t]? with
    | none =>
      have hge : ¬ t < st.1.length := by
        intro hlt
        simp [List.getElem?_eq_getElem hlt] at ht
      simp only [Option.any_none, Bool.false_eq_true, if_false]
      constructor
      · rfl
      · intro u
        constructor
        · exact Or.inl
        · rintro (hu | ⟨hlt, hu⟩)
          · exact hu
          · obtain rfl : u = t := by simpa using hu
            exact absurd hlt hge
      · intro u
        constructor
        · exact Or.inl
        · rintro (hu | ⟨⟨hlt, hu⟩, -⟩)
          · exact hu
          · obtain rfl : u = t := by simpa using hu
            exact absurd hlt hge
      · rfl
      · exact fun _ h => h
    | some m =>
      have hlt : t < st.1.length := (List.getElem?_eq_some_iff.mp ht).1
      have hget : st.1[t] = m := (List.getElem?_eq_some_iff.mp ht).2
      cases hu : unmarked gen m with
      | true =>
        have hno : ¬ markedAt gen st.1 t = true := by
          rw [markedAt_iff]
          simp [ht, hu]
        simp only [Option.any_some, hu, if_true]
        constructor
        · simp
        · intro u
          simp only [markedAt_set (unmarked_self gen) hlt, Fresh, List.mem_singleton,
            Option.some.injEq]
          grind
        · intro u
          simp only [List.mem_cons, Fresh, Option.some.injEq]
          grind
        · simp only [closureSize, List.length_cons]
          have hpos : 0 < st.1.countP (unmarked gen) :=
            List.countP_pos_iff.mpr ⟨m, List.mem_of_getElem? ht, hu⟩
          rw [List.countP_set hlt, hget, hu, unmarked_self]
          simp only [if_true, Bool.false_eq_true, if_false]
          omega
        · exact fun hg h => h.set ⟨by omega, by omega⟩ t
      | false =>
        have hyes : markedAt gen st.1 t = true := markedAt_iff.mpr ⟨m, ht, hu⟩
        simp only [Option.any_some, hu, Bool.false_eq_true, if_false]
        constructor
        · rfl
        · intro u
          constructor
          · exact Or.inl
          · rintro (h | ⟨-, h⟩)
            · exact h
            · obtain rfl : u = t := by simpa using h
              exact hyes
        · intro u
          constructor
          · exact Or.inl
          · rintro (h | ⟨⟨-, h⟩, hn⟩)
            · exact h
            · obtain rfl : u = t := by simpa using h
              exact absurd hyes hn
        · rfl
        · exact fun _ h => h

/-- All targets of a state. -/
lemma foldl_pushTarget_pushed (gen : ℤ) (targets : List (Option ℕ)) :
    ∀ st : List ℤ × List ℕ, Pushed gen targets st (targets.foldl (pushTarget gen) st) := by
  induction targets with
  | nil => intro st; constructor <;> simp [Fresh]
  | cons target targets ih =>
    intro st
    have h₁ := pushTarget_pushed gen st target
    have h₂ := ih (pushTarget gen st target)
    rw [List.foldl_cons]
    constructor
    · rw [h₂.length, h₁.length]
    · intro t
      rw [h₂.marked, h₁.marked]
      simp only [Fresh, h₁.length, List.mem_cons]
      grind
    · intro t
      rw [h₂.stacked, h₁.stacked, h₁.marked]
      simp only [Fresh, h₁.length, List.mem_cons]
      grind
    · rw [h₂.size, h₁.size]
    · exact fun hg hs => h₂.stamped hg (h₁.stamped hg hs)

/-- Setting a stamp of the generation leaves no more cells unmarked. -/
lemma countP_set_le (mark : List ℤ) (q : ℕ) :
    (mark.set q (-gen)).countP (unmarked gen) ≤ mark.countP (unmarked gen) := by
  by_cases hq : q < mark.length
  · rw [List.countP_set hq, unmarked_neg]
    simp
  · rw [List.set_eq_of_length_le (by omega)]

/-- The loop of `closure` ends. -/
lemma closureTurn_shrinks (s : List ℕ) (states : List RState) (gen : ℤ) (pos : ℕ) :
    Loop.Shrinks (closureTurn s states gen pos) (closureSize gen) := by
  rintro ⟨mark, stack⟩ st' h
  unfold closureTurn at h
  cases stack with
  | nil => exact absurd h (by simp)
  | cons q stack =>
    simp only [Except.ok.injEq, Loop.Turn.next.injEq] at h
    subst h
    generalize (states[q]?).elim [] (fun rs => closureTargets s rs pos) = targets
    have hsize := (foldl_pushTarget_pushed gen targets (mark, stack)).size
    have hle := @countP_set_le gen (targets.foldl (pushTarget gen) (mark, stack)).1 q
    simp only [closureSize, List.length_cons] at hsize ⊢
    omega

/-- The targets of a state that have a cell. -/
lemma fresh_iff_epsMove {mark : List ℤ} (hlen : mark.length = states.length) (q t : ℕ) :
    Fresh mark ((states[q]?).elim [] fun rs => closureTargets s rs pos) t ↔
      EpsMove s states pos q t := by
  unfold Fresh EpsMove
  rw [hlen]
  cases states[q]? with
  | none => simp
  | some st => simp

/-- `closure` marks what is reached without reading from what was marked. -/
theorem marked_closure_iff {mark : List ℤ} (hlen : mark.length = states.length) (hgen : 0 < gen)
    (hopen : ∀ q : ℕ, mark[q]? ≠ some (-gen)) (hst : Stamped gen mark) :
    (closure s states mark gen pos).length = states.length ∧
      Stamped gen (closure s states mark gen pos) ∧
      ∀ q, markedAt gen (closure s states mark gen pos) q = true ↔
        ∃ t, markedAt gen mark t = true ∧ ReflTransGen (EpsMove s states pos) t q := by
  -- the marks so far are those of a search whose stack holds the open states
  let I : List ℤ × List ℕ → Prop := fun st =>
    st.1.length = states.length ∧ Stamped gen st.1 ∧
      Reach.Frontier (EpsMove s states pos) (fun q => markedAt gen mark q = true)
        (fun q => markedAt gen st.1 q = true) st.2
  have hmarked : ∀ q, markedAt gen mark q = true ↔ mark[q]? = some gen := by
    intro q
    unfold markedAt
    simp [hopen q]
  have hstart : I (mark, ((List.range states.length).filter
      fun i => mark[i]? = some gen).reverse) := by
    refine ⟨hlen, hst, Reach.Frontier.start (fun q => Iff.rfl) ?_⟩
    intro q
    rw [List.mem_reverse, List.mem_filter, List.mem_range, hmarked]
    constructor
    · rintro ⟨-, hq⟩
      exact of_decide_eq_true hq
    · intro hq
      refine ⟨?_, decide_eq_true hq⟩
      rw [← hlen]
      exact (List.getElem?_eq_some_iff.mp hq).1
  have hnext : ∀ st st', I st → closureTurn s states gen pos st = .ok (.next st') → I st' := by
    rintro ⟨mark', stack⟩ st' ⟨hl, hs, hf⟩ h
    unfold closureTurn at h
    cases stack with
    | nil => exact absurd h (by simp)
    | cons q stack =>
      simp only [Except.ok.injEq, Loop.Turn.next.injEq] at h
      subst h
      have hfresh := fun t => @fresh_iff_epsMove s states pos mark' hl q t
      generalize (states[q]?).elim [] (fun rs => closureTargets s rs pos) = targets at hfresh ⊢
      have hp := foldl_pushTarget_pushed gen targets (mark', stack)
      have hq : markedAt gen mark' q = true := hf.stacked q List.mem_cons_self
      have hqlt : q < (targets.foldl (pushTarget gen) (mark', stack)).1.length := by
        rw [hp.length]
        exact lt_of_markedAt hq
      refine ⟨?_, ?_, ?_⟩
      · rw [List.length_set, hp.length, hl]
      · exact (hp.stamped (by omega) hs).set ⟨by omega, by omega⟩ q
      · refine hf.pop ?_ ?_
        · intro t
          rw [markedAt_set (unmarked_neg gen) hqlt, hp.marked, hfresh]
          constructor
          · rintro (h | rfl)
            · exact h
            · exact Or.inl hq
          · exact Or.inl
        · intro t
          rw [hp.stacked, hfresh]
  have hstop : ∀ st mark', I st → closureTurn s states gen pos st = .ok (.stop mark') →
      mark'.length = states.length ∧ Stamped gen mark' ∧ ∀ q, markedAt gen mark' q = true ↔
        ∃ t, markedAt gen mark t = true ∧ ReflTransGen (EpsMove s states pos) t q := by
    rintro ⟨mark', stack⟩ mark'' ⟨hl, hs, hf⟩ h
    unfold closureTurn at h
    cases stack with
    | cons q stack => exact absurd h (by simp)
    | nil =>
      obtain rfl : mark' = mark'' := by simpa using h
      exact ⟨hl, hs, hf.done⟩
  have hok : ∃ mark', Loop.loop (closureTurn s states gen pos) () (closureSize gen)
      (mark, ((List.range states.length).filter fun i => mark[i]? = some gen).reverse) =
        .ok mark' := by
    refine Loop.loop_rec (closureTurn_shrinks s states gen pos)
      (P := fun _ r => ∃ mark', r = .ok mark') ?_ ?_ ?_ _
    · intro st e h
      unfold closureTurn at h
      cases hst : st.2 with
      | nil => rw [hst] at h; exact absurd h (by simp)
      | cons q stack => rw [hst] at h; exact absurd h (by simp)
    · exact fun st b _ => ⟨b, rfl⟩
    · exact fun st st' r _ hr => hr
  obtain ⟨mark', hmark'⟩ := hok
  unfold closure
  simp only [hmark']
  exact Loop.loop_invariant hnext hstop hstart hmark'

/-! ## Configurations -/

/-- The moves that read a code point, between states. -/
def ReadMove (s : List ℕ) (states : List RState) (pos q t : ℕ) : Prop :=
  t < states.length ∧ ∃ st x, states[q]? = some st ∧ st.kind = .char ∧ s[pos]? = some x ∧
    clsMatch st x = true ∧ st.a = some t

/-- The moves to states. -/
def StateMove (s : List ℕ) (states : List RState) (c c' : ℕ × ℕ) : Prop :=
  Move s states c c' ∧ c'.1 < states.length

/-- How a state is left. -/
lemma leaves_iff (st : RState) (i j t : ℕ) :
    (∃ isB, st.target isB = some t ∧ st.Leaves s isB i j) ↔
      (j = i ∧ some t ∈ closureTargets s st i) ∨
        (j = i + 1 ∧ st.kind = .char ∧
          ∃ x, s[i]? = some x ∧ clsMatch st x = true ∧ st.a = some t) := by
  unfold RState.Leaves closureTargets RState.target Reads Stands AtWordBoundary
  cases hk : st.kind <;> simp only [Bool.exists_bool] <;> grind

/-- A move stays where it is or reads one code point. -/
lemma stateMove_layered (s : List ℕ) (states : List RState) :
    Reach.Layered (StateMove s states) (EpsMove s states) (ReadMove s states) := by
  constructor
  intro q i t j
  unfold StateMove EpsMove ReadMove Move
  simp only
  constructor
  · rintro ⟨⟨st, isB, hst, ht, hl⟩, hlt⟩
    rcases (leaves_iff st i j t).mp ⟨isB, ht, hl⟩ with ⟨hj, hm⟩ | ⟨hj, hk, x, hx, hc, ha⟩
    · exact Or.inl ⟨hj, hlt, st, hst, hm⟩
    · exact Or.inr ⟨hj, hlt, st, x, hst, hk, hx, hc, ha⟩
  · rintro (⟨hj, hlt, st, hst, hm⟩ | ⟨hj, hlt, st, x, hst, hk, hx, hc, ha⟩)
    · obtain ⟨isB, ht, hl⟩ := (leaves_iff st i j t).mpr (Or.inl ⟨hj, hm⟩)
      exact ⟨⟨st, isB, hst, ht, hl⟩, hlt⟩
    · obtain ⟨isB, ht, hl⟩ := (leaves_iff st i j t).mpr (Or.inr ⟨hj, hk, x, hx, hc, ha⟩)
      exact ⟨⟨st, isB, hst, ht, hl⟩, hlt⟩

/-- A state is reached through states. -/
lemma stateMove_reach_iff {c c' : ℕ × ℕ} (hc : c'.1 < states.length) :
    ReflTransGen (StateMove s states) c c' ↔ ReflTransGen (Move s states) c c' := by
  constructor
  · exact fun h => h.lift id fun _ _ hm => hm.1
  · intro h
    induction h with
    | refl => exact .refl
    | @tail b d _ hstep ih =>
      obtain ⟨st, isB, hst, -⟩ := id hstep
      exact (ih (List.getElem?_eq_some_iff.mp hst).1).tail ⟨hstep, hc⟩

/-- A run does not leave the text. -/
lemma stateMove_le_length {c c' : ℕ × ℕ} (h : ReflTransGen (StateMove s states) c c')
    (hc : c.2 ≤ s.length) : c'.2 ≤ s.length := by
  induction h with
  | refl => exact hc
  | @tail b d _ hstep ih =>
    obtain ⟨q, i⟩ := b
    obtain ⟨t, j⟩ := d
    rcases ((stateMove_layered s states).step_iff q i t j).mp hstep with ⟨rfl, -⟩ | ⟨rfl, hr⟩
    · exact ih
    · obtain ⟨-, st, x, -, -, hx, -⟩ := hr
      exact (List.getElem?_eq_some_iff.mp hx).1

/-! ## Reading -/

/-- A marked `RS_CHAR` takes the code point and leads to `t`. -/
def Takes (states : List RState) (prev : ℤ) (mark : List ℤ) (cp q t : ℕ) : Prop :=
  markedAt prev mark q = true ∧
    ∃ st, states[q]? = some st ∧ st.kind = .char ∧ clsMatch st cp = true ∧ st.a = some t

/-- No marked state is overwritten by an earlier one and then has a turn to take. -/
def NoClash (states : List RState) (prev : ℤ) (mark : List ℤ) (cp : ℕ) : Prop :=
  ∀ q t u, q < t → Takes states prev mark cp q t → ¬ Takes states prev mark cp t u

/-- The cells after the turns of the first `k` states: the targets of those that take the code
point are stamped, the others are as they were. -/
lemma foldl_stepMark {prev : ℤ} {mark : List ℤ} {cp : ℕ} (hlen : mark.length = states.length)
    (hprev : 0 < prev) (hst : Stamped prev mark) (hclash : NoClash states prev mark cp) (k : ℕ)
    (hk : k ≤ states.length) :
    let mark' := (List.range k).foldl (stepMark states (prev + 1) prev cp) mark
    mark'.length = mark.length ∧ ∀ u < mark.length,
      ((∃ q < k, Takes states prev mark cp q u) → mark'[u]? = some (prev + 1)) ∧
      ((¬ ∃ q < k, Takes states prev mark cp q u) → mark'[u]? = mark[u]?) := by
  induction k with
  | zero =>
    refine ⟨rfl, fun u _ => ⟨?_, fun _ => rfl⟩⟩
    rintro ⟨q, hq, -⟩
    exact absurd hq (Nat.not_lt_zero q)
  | succ k ih =>
    obtain ⟨hl, hcells⟩ := ih (by omega)
    intro mark'
    have hmark' : mark' = stepMark states (prev + 1) prev cp
        ((List.range k).foldl (stepMark states (prev + 1) prev cp) mark) k := by
      simp only [mark', List.range_succ, List.foldl_append, List.foldl_cons, List.foldl_nil]
    generalize (List.range k).foldl (stepMark states (prev + 1) prev cp) mark = markₖ at *
    have hkl : k < mark.length := by omega
    -- whether the state keeps the stamp it had
    have hturn : (∃ u, Takes states prev mark cp k u) → markₖ[k]? = mark[k]? := by
      rintro ⟨u, hu⟩
      refine (hcells k hkl).2 ?_
      rintro ⟨q, hq, hqk⟩
      exact hclash q k u hq hqk hu
    have hmarkedₖ : markedAt prev markₖ k = true →
        markedAt prev mark k = true ∧ markₖ[k]? = mark[k]? := by
      intro hm
      by_cases hh : ∃ q < k, Takes states prev mark cp q k
      · have hcell := (hcells k hkl).1 hh
        unfold markedAt at hm
        simp only [hcell, Option.some.injEq, decide_eq_true_iff] at hm
        omega
      · have hcell := (hcells k hkl).2 hh
        unfold markedAt at hm ⊢
        rw [hcell] at hm
        exact ⟨hm, hcell⟩
    have hstep : (∃ u, u < mark.length ∧ Takes states prev mark cp k u ∧
        mark' = markTarget (prev + 1) markₖ u) ∨
        ((∀ u < mark.length, ¬ Takes states prev mark cp k u) ∧ mark' = markₖ) := by
      rw [hmark']
      unfold stepMark
      cases hm : markedAt prev markₖ k with
      | false =>
        right
        refine ⟨?_, by simp⟩
        intro u _ hu
        have hcell := hturn ⟨u, hu⟩
        have := hu.1
        unfold markedAt at hm this
        rw [hcell] at hm
        simp [this] at hm
      | true =>
        simp only [if_true]
        obtain ⟨hmk, -⟩ := hmarkedₖ hm
        cases hs : states[k]? with
        | none =>
          right
          refine ⟨?_, rfl⟩
          rintro u - ⟨-, st, hst', -⟩
          simp [hs] at hst'
        | some st =>
          simp only
          by_cases hc : st.kind = .char ∧ clsMatch st cp = true
          · rw [if_pos hc]
            cases ha : st.a with
            | none =>
              right
              refine ⟨?_, rfl⟩
              rintro u - ⟨-, st', hst', -, -, ha'⟩
              obtain rfl : st = st' := by simpa [hs] using hst'
              simp [ha] at ha'
            | some u =>
              by_cases hu : u < mark.length
              · exact Or.inl ⟨u, hu, ⟨hmk, st, hs, hc.1, hc.2, ha⟩, rfl⟩
              · right
                refine ⟨?_, ?_⟩
                · rintro v hv ⟨-, st', hst', -, -, ha'⟩
                  obtain rfl : st = st' := by simpa [hs] using hst'
                  obtain rfl : u = v := by simpa [ha] using ha'
                  exact hu hv
                · unfold markTarget
                  simp only [Option.elim_some]
                  rw [List.getElem?_eq_none (by omega)]
                  rfl
          · rw [if_neg hc]
            right
            refine ⟨?_, rfl⟩
            rintro u - ⟨-, st', hst', hkind, hcm, -⟩
            obtain rfl : st = st' := by simpa [hs] using hst'
            exact hc ⟨hkind, hcm⟩
    rcases hstep with ⟨v, hv, htakes, hm'⟩ | ⟨hno, hm'⟩
    · -- the target is stamped, now or already
      have hcell : ∀ u, mark'[u]? = if v = u then some (prev + 1) else markₖ[u]? := by
        intro u
        rw [hm']
        unfold markTarget
        have hvl : v < markₖ.length := by omega
        cases hu : unmarked (prev + 1) markₖ[v] with
        | true =>
          rw [List.getElem?_eq_getElem hvl, Option.any_some, hu, if_pos rfl, List.getElem?_set]
          by_cases hvu : v = u
          · simp [hvu, hvu ▸ hvl]
          · simp [hvu]
        | false =>
          rw [List.getElem?_eq_getElem hvl, Option.any_some, hu, if_neg (by simp)]
          by_cases hvu : v = u
          · subst hvu
            rw [if_pos rfl, List.getElem?_eq_getElem hvl]
            by_cases hh : ∃ q < k, Takes states prev mark cp q v
            · rw [← List.getElem?_eq_getElem hvl]
              exact (hcells v hv).1 hh
            · have hsame := (hcells v hv).2 hh
              rw [List.getElem?_eq_getElem hvl, List.getElem?_eq_getElem hv,
                Option.some.injEq] at hsame
              have hb := hst mark[v] (List.getElem_mem hv)
              rw [hsame] at hu
              simp only [unmarked, decide_eq_false_iff_not] at hu
              omega
          · rw [if_neg hvu]
      refine ⟨?_, ?_⟩
      · rw [hm']
        unfold markTarget
        split_ifs <;> simp [hl]
      · intro u hu
        rw [hcell u]
        constructor
        · rintro ⟨q, hq, hqu⟩
          by_cases hvu : v = u
          · rw [if_pos hvu]
          · rw [if_neg hvu]
            rcases Nat.lt_succ_iff_lt_or_eq.mp hq with hq | rfl
            · exact (hcells u hu).1 ⟨q, hq, hqu⟩
            · obtain ⟨-, st, hs, -, -, ha⟩ := htakes
              obtain ⟨-, st', hs', -, -, ha'⟩ := hqu
              obtain rfl : st = st' := by simpa [hs] using hs'
              exact absurd (by simpa [ha] using ha') hvu
        · intro hnone
          have hvu : v ≠ u := by
            rintro rfl
            exact hnone ⟨k, Nat.lt_succ_self k, htakes⟩
          rw [if_neg hvu]
          refine (hcells u hu).2 ?_
          rintro ⟨q, hq, hqu⟩
          exact hnone ⟨q, Nat.lt_succ_of_lt hq, hqu⟩
    · rw [hm']
      refine ⟨hl, ?_⟩
      intro u hu
      have hiff : (∃ q < k + 1, Takes states prev mark cp q u) ↔
          ∃ q < k, Takes states prev mark cp q u := by
        constructor
        · rintro ⟨q, hq, hqu⟩
          rcases Nat.lt_succ_iff_lt_or_eq.mp hq with hq | rfl
          · exact ⟨q, hq, hqu⟩
          · exact absurd hqu (hno u hu)
        · rintro ⟨q, hq, hqu⟩
          exact ⟨q, Nat.lt_succ_of_lt hq, hqu⟩
      rw [hiff]
      exact hcells u hu

/-- What `stepMarks` marks when no marked state is overwritten. -/
lemma markedAt_stepMarks_iff {prev : ℤ} {mark : List ℤ} {cp : ℕ}
    (hlen : mark.length = states.length) (hprev : 0 < prev) (hst : Stamped prev mark)
    (hclash : NoClash states prev mark cp) :
    let mark' := stepMarks states mark (prev + 1) prev cp
    mark'.length = states.length ∧ Stamped (prev + 1) mark' ∧
      (∀ q : ℕ, mark'[q]? ≠ some (-(prev + 1))) ∧
      ∀ u, markedAt (prev + 1) mark' u = true ↔
        u < states.length ∧ ∃ q, Takes states prev mark cp q u := by
  intro mark'
  obtain ⟨hl, hcells⟩ := foldl_stepMark hlen hprev hst hclash states.length (Nat.le_refl _)
  change mark'.length = mark.length at hl
  change ∀ u < mark.length,
    ((∃ q < states.length, Takes states prev mark cp q u) → mark'[u]? = some (prev + 1)) ∧
    ((¬ ∃ q < states.length, Takes states prev mark cp q u) → mark'[u]? = mark[u]?) at hcells
  have hbound : ∀ (u : ℕ) (m : ℤ), mark[u]? = some m → -prev ≤ m ∧ m ≤ prev :=
    fun u m hm => hst m (List.mem_of_getElem? hm)
  have hcell : ∀ (u : ℕ) (m : ℤ), mark'[u]? = some m → m = prev + 1 ∨ (-prev ≤ m ∧ m ≤ prev) := by
    intro u m hm
    have hu : u < mark.length := by
      rw [← hl]
      exact (List.getElem?_eq_some_iff.mp hm).1
    by_cases hh : ∃ q < states.length, Takes states prev mark cp q u
    · left
      rw [(hcells u hu).1 hh] at hm
      simpa [eq_comm] using hm
    · right
      rw [(hcells u hu).2 hh] at hm
      exact hbound u m hm
  refine ⟨by omega, ?_, ?_, ?_⟩
  · intro m hm
    obtain ⟨u, hu, rfl⟩ := List.mem_iff_getElem.mp hm
    rcases hcell u _ (List.getElem?_eq_getElem hu) with h | h <;> omega
  · intro u hu
    rcases hcell u _ hu with h | h <;> omega
  · intro u
    constructor
    · intro hm
      obtain ⟨m, hmu, hun⟩ := markedAt_iff.mp hm
      have hu : u < mark.length := by
        rw [← hl]
        exact (List.getElem?_eq_some_iff.mp hmu).1
      refine ⟨by omega, ?_⟩
      by_contra hno
      have hh : ¬ ∃ q < states.length, Takes states prev mark cp q u := by
        rintro ⟨q, -, hq⟩
        exact hno ⟨q, hq⟩
      rw [(hcells u hu).2 hh] at hmu
      have hb := hbound u m hmu
      simp only [unmarked, decide_eq_false_iff_not] at hun
      omega
    · rintro ⟨hu, q, hq⟩
      have hqlt : q < states.length := by
        rw [← hlen]
        exact lt_of_markedAt hq.1
      exact markedAt_iff.mpr ⟨prev + 1, (hcells u (by omega)).1 ⟨q, hqlt, hq⟩, unmarked_self _⟩

/-! ## The search -/

/-- `int` arithmetic does not wrap below `2 ^ 31`. -/
lemma wrapInt_of_lt {x : ℤ} (h0 : 0 ≤ x) (h : x < 2147483648) : wrapInt x = x := by
  unfold wrapInt
  rw [Int.bmod_eq_of_le] <;> omega

/-- A mark is overwritten before its turn: of two `RS_CHAR` states that a run from `start` reaches
at `pos` and that both take the code point there, the first leads to the second and stands before
it. -/
def Overwritten (s : List ℕ) (re : SchRegex) (start pos : ℕ) : Prop :=
  ∃ x q t u stq stt, s[pos]? = some x ∧
    ReflTransGen (Move s re.states) (re.start, start) (q, pos) ∧
    ReflTransGen (Move s re.states) (re.start, start) (t, pos) ∧ q < t ∧
    re.states[q]? = some stq ∧ stq.kind = .char ∧ clsMatch stq x = true ∧ stq.a = some t ∧
    re.states[t]? = some stt ∧ stt.kind = .char ∧ clsMatch stt x = true ∧ stt.a = some u

variable {re : SchRegex}

/-- The marks are the states a run from `start` reaches at a position. -/
structure Visits (s : List ℕ) (re : SchRegex) (start : ℕ) (pos : ℕ) (gen : ℤ) (mark : List ℤ) :
    Prop where
  /-- Every state has a cell. -/
  length : mark.length = re.states.length
  /-- No stamp is of a later generation. -/
  stamped : Stamped gen mark
  /-- The marked states are reached. -/
  marked : ∀ q, markedAt gen mark q = true ↔
    ReflTransGen (StateMove s re.states) (re.start, start) (q, pos)

/-- One turn of the inner loop goes on to the next position. -/
lemma Visits.next {start : ℕ} {mark : List ℤ} {cp : ℕ} (h : Visits s re start pos gen mark)
    (hkept : ¬ Overwritten s re start pos) (hgen : 0 < gen) (hcp : s[pos]? = some cp)
    (hstart : start ≤ pos) :
    Visits s re start (pos + 1) (gen + 1)
      (closure s re.states (stepMarks re.states mark (gen + 1) gen cp) (gen + 1) (pos + 1)) := by
  have hlt : ∀ q, markedAt gen mark q = true → q < re.states.length := by
    intro q hq
    rw [← h.length]
    exact lt_of_markedAt hq
  have hreach : ∀ q, markedAt gen mark q = true →
      ReflTransGen (Move s re.states) (re.start, start) (q, pos) := by
    intro q hq
    exact (stateMove_reach_iff (hlt q hq)).mp ((h.marked q).mp hq)
  have hclash : NoClash re.states gen mark cp := by
    rintro q t u hqt ⟨hq, stq, hstq, hkq, hcq, haq⟩ ⟨ht, stt, hstt, hkt, hct, hat⟩
    exact hkept ⟨cp, q, t, u, stq, stt, hcp, hreach q hq, hreach t ht, hqt, hstq, hkq, hcq, haq,
      hstt, hkt, hct, hat⟩
  obtain ⟨hl, hs, hopen, hm⟩ := markedAt_stepMarks_iff h.length hgen h.stamped hclash
  obtain ⟨hl', hs', hm'⟩ := @marked_closure_iff s re.states _ (pos + 1) _ hl (by omega) hopen hs
  constructor
  · exact hl'
  · exact hs'
  · intro q
    rw [hm', (stateMove_layered s re.states).reach_succ_iff re.start q hstart]
    have hseed : ∀ t, markedAt (gen + 1) (stepMarks re.states mark (gen + 1) gen cp) t = true ↔
        ∃ u, ReflTransGen (StateMove s re.states) (re.start, start) (u, pos) ∧
          ReadMove s re.states pos u t := by
      intro t
      rw [hm]
      constructor
      · rintro ⟨ht, u, hu, st, hst, hk, hc, ha⟩
        exact ⟨u, (h.marked u).mp hu, ht, st, cp, hst, hk, hcp, hc, ha⟩
      · rintro ⟨u, hu, ht, st, x, hst, hk, hx, hc, ha⟩
        obtain rfl : cp = x := by simpa [hcp] using hx
        exact ⟨ht, u, (h.marked u).mpr hu, st, hst, hk, hc, ha⟩
    simp only [hseed]

/-- The marks at the start of the inner loop. -/
lemma visits_start {start : ℕ} {mark : List ℤ} (hlen : mark.length = re.states.length)
    (hst : Stamped gen mark) (hgen : 0 ≤ gen) (hs : re.start < re.states.length) :
    Visits s re start start (gen + 1)
      (closure s re.states (markTarget (gen + 1) mark re.start) (gen + 1) start) := by
  have hunm : markedAt (gen + 1) mark re.start = false := hst.unmarked_next _
  have hcell : (mark[re.start]?).any (unmarked (gen + 1)) = true := by
    have hlt : re.start < mark.length := by omega
    rw [List.getElem?_eq_getElem hlt]
    by_contra hno
    have : markedAt (gen + 1) mark re.start = true :=
      markedAt_iff.mpr ⟨_, List.getElem?_eq_getElem hlt, by simpa using hno⟩
    rw [this] at hunm
    exact absurd hunm (by simp)
  have hmt : markTarget (gen + 1) mark re.start = mark.set re.start (gen + 1) := by
    unfold markTarget
    rw [if_pos hcell]
  have hst' : Stamped (gen + 1) (mark.set re.start (gen + 1)) := by
    intro m hm
    rcases List.mem_or_eq_of_mem_set hm with hm | rfl
    · have := hst m hm
      omega
    · omega
  have hopen : ∀ q : ℕ, (mark.set re.start (gen + 1))[q]? ≠ some (-(gen + 1)) := by
    intro q hq
    rcases List.mem_or_eq_of_mem_set (List.mem_of_getElem? hq) with hm | heq
    · have := hst _ hm
      omega
    · omega
  rw [hmt]
  obtain ⟨hl, hs', hm⟩ := @marked_closure_iff s re.states _ start _
    (by rw [List.length_set, hlen]) (by omega) hopen hst'
  constructor
  · exact hl
  · exact hs'
  · intro q
    rw [hm, (stateMove_layered s re.states).reach_start_iff]
    have hseed : ∀ t, markedAt (gen + 1) (mark.set re.start (gen + 1)) t = true ↔ t = re.start := by
      intro t
      rw [markedAt_set (unmarked_self _) (by omega), hst.unmarked_next]
      simp
    simp only [hseed, exists_eq_left]

end Teptris
