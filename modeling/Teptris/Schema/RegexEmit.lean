import Teptris.Schema.RegexSemantics

/-!
# Emitted fragments

What the automaton of a tree can do.  A fragment occupies the states from some index on, and
`Realises` says that in every automaton that agrees with those states and sends the dangling
tail to some state `t`, the passages from the entry to `t` are the matches of a relation.  The
rules for one state, for fragments in a row, for alternations and for repetitions follow the
cases of `emit_node`; `emitNode_realises` puts them together.
-/

namespace Teptris

open Machine

/-! ## Moves -/

/-- A state can be left through a slot. -/
def RState.Leaves (s : List ℕ) (st : RState) (isB : Bool) (i j : ℕ) : Prop :=
  match st.kind with
  | .split => j = i
  | .char => isB = false ∧ Reads s (fun x => clsMatch st x = true) i j
  | .bol => isB = false ∧ Stands (· = 0) i j
  | .eol => isB = false ∧ Stands (s.length ≤ ·) i j
  | .wordb => isB = false ∧ Stands (AtWordBoundary s) i j
  | .nwordb => isB = false ∧ Stands (¬ AtWordBoundary s ·) i j
  | .match => False

/-- The target of a slot. -/
def RState.target (st : RState) (isB : Bool) : Option ℕ := if isB then st.b else st.a

/-- One move of the automaton over a text. -/
def Move (s : List ℕ) (states : List RState) (c c' : ℕ × ℕ) : Prop :=
  ∃ st isB, states[c.1]? = some st ∧ st.target isB = some c'.1 ∧ st.Leaves s isB c.2 c'.2

/-- A split leads to both its targets. -/
lemma move_split_iff {s : List ℕ} {states : List RState} {q a b : ℕ} {st : RState}
    (hst : states[q]? = some st) (hk : st.kind = .split) (ha : st.a = some a)
    (hb : st.b = some b) (i : ℕ) (c : ℕ × ℕ) :
    Move s states (q, i) c ↔ c = (a, i) ∨ c = (b, i) := by
  obtain ⟨t, j⟩ := c
  have hl : ∀ isB, st.Leaves s isB i j ↔ j = i := by
    intro isB
    unfold RState.Leaves
    rw [hk]
  unfold Move
  constructor
  · rintro ⟨st', isB, hst', ht, hj⟩
    obtain rfl : st = st' := by simpa [hst] using hst'
    obtain rfl : j = i := (hl isB).mp hj
    cases isB with
    | false =>
      left
      simpa [RState.target, ha, eq_comm] using ht
    | true =>
      right
      simpa [RState.target, hb, eq_comm] using ht
  · rintro (h | h)
    · obtain ⟨rfl, rfl⟩ := Prod.mk.injEq .. ▸ h
      exact ⟨st, false, hst, ha, (hl false).mpr rfl⟩
    · obtain ⟨rfl, rfl⟩ := Prod.mk.injEq .. ▸ h
      exact ⟨st, true, hst, hb, (hl true).mpr rfl⟩

/-- A state of another kind is left through its first slot. -/
lemma move_first_iff {s : List ℕ} {states : List RState} {q t : ℕ} {st : RState}
    (hst : states[q]? = some st) (hk : st.kind ≠ .split) (ha : st.a = some t) (i : ℕ)
    (c : ℕ × ℕ) : Move s states (q, i) c ↔ ∃ j, st.Leaves s false i j ∧ c = (t, j) := by
  obtain ⟨u, j⟩ := c
  have hb : ∀ i j, ¬ st.Leaves s true i j := by
    intro i j
    unfold RState.Leaves
    cases hkind : st.kind <;> simp_all
  unfold Move
  constructor
  · rintro ⟨st', isB, hst', ht, hl⟩
    obtain rfl : st = st' := by simpa [hst] using hst'
    cases isB with
    | true => exact absurd hl (hb _ _)
    | false =>
      refine ⟨j, hl, ?_⟩
      simpa [RState.target, ha, eq_comm] using ht
  · rintro ⟨k, hl, hc⟩
    obtain ⟨rfl, rfl⟩ := Prod.mk.injEq .. ▸ hc
    exact ⟨st, false, hst, ha, hl⟩

/-! ## Threading -/

/-- A state whose slots on the tail go to `target`. -/
def RState.patch (tail : List PSlot) (target : Option ℕ) (q : ℕ) (st : RState) : RState :=
  { st with
    a := if ⟨q, false⟩ ∈ tail then target else st.a
    b := if ⟨q, true⟩ ∈ tail then target else st.b }

/-- A state off the tail is not changed. -/
lemma RState.patch_of_notMem {tail : List PSlot} {target : Option ℕ} {q : ℕ} {st : RState}
    (h : ∀ sl ∈ tail, sl.state ≠ q) : st.patch tail target q = st := by
  have ha : (⟨q, false⟩ : PSlot) ∉ tail := fun hm => h _ hm rfl
  have hb : (⟨q, true⟩ : PSlot) ∉ tail := fun hm => h _ hm rfl
  simp only [RState.patch, if_neg ha, if_neg hb]

/-- A state sees the slots of its own only. -/
lemma RState.patch_congr {tail tail' : List PSlot} {target : Option ℕ} {q : ℕ} {st : RState}
    (h : ∀ isB, (⟨q, isB⟩ : PSlot) ∈ tail ↔ ⟨q, isB⟩ ∈ tail') :
    st.patch tail target q = st.patch tail' target q := by
  simp only [RState.patch, h]

/-- What threading does to each state. -/
lemma getElem?_fragThread (n : List RState) (tail : List PSlot) (target : Option ℕ) (q : ℕ) :
    (fragThread n tail target)[q]? = (n[q]?).map (RState.patch tail target q) := by
  induction tail generalizing n with
  | nil =>
    have hid : RState.patch [] target q = id := by
      funext st
      exact RState.patch_of_notMem (by simp)
    rw [hid, Option.map_id]
    rfl
  | cons slot tail ih =>
    obtain ⟨p, isB⟩ := slot
    have hcons : fragThread n (⟨p, isB⟩ :: tail) target =
        fragThread (n.modify p (·.aim isB target)) tail target := rfl
    rw [hcons, ih, List.getElem?_modify]
    cases n[q]? with
    | none => rfl
    | some st =>
      simp only [Option.map_some, Option.map_eq_map, Option.some.injEq]
      by_cases hp : p = q
      · subst hp
        cases isB <;> simp [RState.patch, RState.aim]
      · have hq : ¬ q = p := fun h => hp h.symm
        simp [RState.patch, hp, hq]

/-- Threading adds no state. -/
@[simp] lemma length_fragThread (n : List RState) (tail : List PSlot) (target : Option ℕ) :
    (fragThread n tail target).length = n.length := by
  induction tail generalizing n with
  | nil => rfl
  | cons slot tail ih =>
    have hcons : fragThread n (slot :: tail) target =
        fragThread (n.modify slot.state (·.aim slot.isB target)) tail target := rfl
    rw [hcons, ih, List.length_modify]

/-- The states of `n` are still there. -/
structure Keeps (n n' : List RState) : Prop where
  /-- No state is taken away. -/
  le : n.length ≤ n'.length
  /-- No state is changed. -/
  get : ∀ q < n.length, n'[q]? = n[q]?

/-- All states stay. -/
lemma Keeps.refl (n : List RState) : Keeps n n := ⟨Nat.le_refl _, fun _ _ => rfl⟩

/-- States that stay twice. -/
lemma Keeps.trans {n₁ n₂ n₃ : List RState} (h₁ : Keeps n₁ n₂) (h₂ : Keeps n₂ n₃) :
    Keeps n₁ n₃ := by
  constructor
  · exact Nat.le_trans h₁.le h₂.le
  · intro q hq
    rw [h₂.get q (Nat.lt_of_lt_of_le hq h₁.le), h₁.get q hq]

/-- A new state stands behind the others. -/
lemma Keeps.push (n : List RState) (st : RState) : Keeps n (n ++ [st]) := by
  constructor
  · simp
  · intro q hq
    exact List.getElem?_append_left hq

/-- Threading slots of later states. -/
lemma Keeps.thread {n n' : List RState} (h : Keeps n n') {tail : List PSlot}
    (htail : ∀ sl ∈ tail, n.length ≤ sl.state) (target : Option ℕ) :
    Keeps n (fragThread n' tail target) := by
  constructor
  · rw [length_fragThread]
    exact h.le
  · intro q hq
    rw [getElem?_fragThread, h.get q hq]
    cases n[q]? with
    | none => rfl
    | some st =>
      rw [Option.map_some, RState.patch_of_notMem]
      intro sl hsl heq
      have := htail sl hsl
      omega

/-- Changing a later state. -/
lemma Keeps.modify {n n' : List RState} (h : Keeps n n') {p : ℕ} (hp : n.length ≤ p)
    (f : RState → RState) : Keeps n (n'.modify p f) := by
  constructor
  · rw [List.length_modify]
    exact h.le
  · intro q hq
    have hpq : p ≠ q := by omega
    rw [List.getElem?_modify, h.get q hq]
    simp [hpq]

/-- `nstate` adds one state. -/
lemma nstate_ok {n n' : List RState} {st : RState} {q : ℕ} (h : nstate n st = .ok (q, n')) :
    q = n.length ∧ n' = n ++ [st] := by
  unfold nstate at h
  by_cases hc : regexMaxStates ≤ n.length
  · rw [if_pos hc] at h
    exact absurd h (by simp)
  · rw [if_neg hc] at h
    simpa [eq_comm] using h

/-! ## Fragments -/

/-- An automaton that has the states of `n` from `lo` on, with the tail sent to `t`. -/
def Agrees (states n : List RState) (lo : ℕ) (tail : List PSlot) (t : ℕ) : Prop :=
  ∀ q, lo ≤ q → q < n.length → states[q]? = (n[q]?).map (RState.patch tail (some t) q)

/-- No goal lies from `lo` to `hi`. -/
def Outside (goal : ℕ × ℕ → Prop) (lo hi : ℕ) : Prop := ∀ q i, lo ≤ q → q < hi → ¬ goal (q, i)

/-- The fragment on the states from `lo` on realises a relation between positions. -/
structure Realises (s : List ℕ) (lo : ℕ) (n : List RState) (f : Frag) (R : ℕ → ℕ → Prop) :
    Prop where
  /-- The fragment begins at `lo`. -/
  le : lo ≤ n.length
  /-- The tail belongs to it. -/
  tail : ∀ sl ∈ f.tail, lo ≤ sl.state ∧ sl.state < n.length
  /-- Without an entry nothing is read. -/
  eps : f.entry = none → ∀ i j, R i j ↔ i = j
  /-- From the entry the tail is reached along the relation. -/
  passage : ∀ e, f.entry = some e → ∀ states t goal, Agrees states n lo f.tail t →
    Outside goal lo n.length → Passage (Move s states) goal e t R

namespace Realises

variable {s : List ℕ} {lo : ℕ} {n n' : List RState} {f g : Frag} {R S : ℕ → ℕ → Prop}

/-- Equivalent relations are realised alike. -/
lemma congr (h : Realises s lo n f R) (hRS : ∀ i j, R i j ↔ S i j) : Realises s lo n f S := by
  constructor
  · exact h.le
  · exact h.tail
  · intro hf i j
    rw [← hRS, h.eps hf]
  · intro e he states t goal hM hg
    exact (h.passage e he states t goal hM hg).congr hRS

/-- Only the states of the fragment matter. -/
lemma congr_states (h : Realises s lo n f R) (hlen : n'.length = n.length)
    (hget : ∀ q, lo ≤ q → q < n.length → n'[q]? = n[q]?) : Realises s lo n' f R := by
  constructor
  · rw [hlen]
    exact h.le
  · rw [hlen]
    exact h.tail
  · exact h.eps
  · intro e he states t goal hM hg
    rw [hlen] at hg
    refine h.passage e he states t goal ?_ hg
    intro q hlo hq
    rw [hM q hlo (by omega), hget q hlo hq]

/-- The empty fragment. -/
lemma eps_frag (s : List ℕ) (n : List RState) : Realises s n.length n .eps Eq := by
  constructor
  · exact Nat.le_refl _
  · intro sl hsl
    exact absurd hsl (by simp [Frag.eps])
  · exact fun _ i j => Iff.rfl
  · intro e he
    exact absurd he (by simp [Frag.eps])

/-- One state that is left through its first slot. -/
lemma state {st : RState} (hk : st.kind ≠ .split) (ha : ∀ t i j,
    ({ st with a := some t } : RState).Leaves s false i j ↔ R i j)
    (h : emitState n st = .ok (f, n')) :
    Keeps n n' ∧ f.entry ≠ none ∧ Realises s n.length n' f R := by
  unfold emitState at h
  cases hn : nstate n st with
  | error e =>
    rw [hn] at h
    exact absurd h (by simp [bind, Except.bind])
  | ok p =>
    obtain ⟨q, n₁⟩ := p
    rw [hn] at h
    obtain ⟨rfl, rfl⟩ := nstate_ok hn
    obtain ⟨rfl, rfl⟩ : f = { entry := some n.length, tail := [⟨n.length, false⟩] } ∧
        n' = n ++ [st] := by
      simpa [bind, Except.bind, eq_comm] using h
    refine ⟨Keeps.push n st, by simp, ?_⟩
    constructor
    · simp
    · intro sl hsl
      obtain rfl : sl = ⟨n.length, false⟩ := by simpa using hsl
      simp
    · intro he
      exact absurd he (by simp)
    · intro e he states t goal hM hg
      obtain rfl : n.length = e := by simpa using he
      have hget : states[n.length]? = some { st with a := some t } := by
        rw [hM n.length (Nat.le_refl _) (by simp)]
        simp [RState.patch]
      refine Passage.single ?_ ?_
      · intro i c
        rw [move_first_iff hget hk rfl]
        simp only [ha]
      · intro i
        exact hg n.length i (Nat.le_refl _) (by simp)

/-- Where a slot that leads to the fragment goes: to its entry, or on to the target. -/
lemma enter (h : Realises s lo n f R) {states : List RState} {t : ℕ} {goal : ℕ × ℕ → Prop}
    (hM : Agrees states n lo f.tail t) (hg : Outside goal lo n.length) :
    Passage (Move s states) goal (f.entry.getD t) t R := by
  cases he : f.entry with
  | some e => exact h.passage e he states t goal hM hg
  | none => exact (Passage.refl (Move s states) goal t).congr fun i j => (h.eps he i j).symm

/-- A fragment and, with its tail threaded to it, another one behind it.  The second has an
entry whenever the first one has: an entry that is not there takes the tail with it. -/
lemma append (hf : Realises s lo n f R) (hg : Realises s n.length n' g S)
    (hsome : f.entry ≠ none → g.entry ≠ none)
    (hget : ∀ q < n.length, n'[q]? = (n[q]?).map (RState.patch f.tail g.entry q)) :
    Realises s lo n' { entry := f.entry.or g.entry, tail := g.tail } (Relation.Comp R S) := by
  constructor
  · exact Nat.le_trans hf.le hg.le
  · intro sl hsl
    have := hg.tail sl hsl
    have := hf.le
    omega
  · intro he i j
    have hfe : f.entry = none := by
      cases hfe : f.entry with
      | none => rfl
      | some e => simp [hfe] at he
    have hge : g.entry = none := by simpa [hfe] using he
    constructor
    · rintro ⟨k, hk, hj⟩
      rw [hf.eps hfe] at hk
      rw [hg.eps hge] at hj
      exact hk.trans hj
    · rintro rfl
      exact ⟨i, (hf.eps hfe i i).mpr rfl, (hg.eps hge i i).mpr rfl⟩
  · intro e he states t goal hM hgoal
    have hlo := hf.le
    have hhi := hg.le
    have hpg : ∀ e', g.entry = some e' → Passage (Move s states) goal e' t S := by
      intro e' he'
      refine hg.passage e' he' states t goal ?_ ?_
      · intro q hq hq'
        exact hM q (Nat.le_trans hlo hq) hq'
      · intro q i hq hq'
        exact hgoal q i (Nat.le_trans hlo hq) hq'
    cases hfe : f.entry with
    | none =>
      have hge : g.entry = some e := by simpa [hfe] using he
      refine (hpg e hge).congr ?_
      intro i j
      constructor
      · exact fun h => ⟨i, (hf.eps hfe i i).mpr rfl, h⟩
      · rintro ⟨k, hk, hj⟩
        rw [hf.eps hfe] at hk
        exact hk ▸ hj
    | some e₁ =>
      obtain rfl : e₁ = e := by simpa [hfe] using he
      obtain ⟨e', he'⟩ := Option.ne_none_iff_exists'.mp (hsome (by simp [hfe]))
      refine (hf.passage e₁ hfe states e' goal ?_ ?_).comp (hpg e' he')
      · intro q hq hq'
        rw [hM q hq (by omega), hget q hq', he']
        cases n[q]? with
        | none => rfl
        | some st =>
          simp only [Option.map_some, Option.some.injEq]
          refine RState.patch_of_notMem ?_
          intro sl hsl heq
          have := (hg.tail sl hsl).1
          omega
      · intro q i hq hq'
        exact hgoal q i hq (by omega)

/-- `append` for states that are threaded behind the second fragment. -/
lemma thread {n₁ : List RState} (hf : Realises s lo n f R) (hk : Keeps n n₁)
    (hg : Realises s n.length n₁ g S) (hsome : f.entry ≠ none → g.entry ≠ none) :
    Realises s lo (fragThread n₁ f.tail g.entry)
      { entry := f.entry.or g.entry, tail := g.tail } (Relation.Comp R S) := by
  refine hf.append ?_ hsome ?_
  · refine hg.congr_states (length_fragThread _ _ _) ?_
    intro q hq hq'
    rw [getElem?_fragThread]
    cases n₁[q]? with
    | none => rfl
    | some st =>
      rw [Option.map_some, RState.patch_of_notMem]
      intro sl hsl heq
      have := (hf.tail sl hsl).2
      omega
  · intro q hq
    rw [getElem?_fragThread, hk.get q hq]

/-- A split in front of a fragment that may be left out. -/
lemma optional {st : RState} {e : ℕ} (hf : Realises s (lo + 1) n f R) (he : f.entry = some e)
    (hst : n[lo]? = some st) (hk : st.kind = .split) (ha : st.a = some e) :
    Realises s lo n { entry := some lo, tail := ⟨lo, true⟩ :: f.tail }
      (fun i j => R i j ∨ i = j) := by
  have hlo : lo + 1 ≤ n.length := hf.le
  have hoff : ∀ isB, (⟨lo, isB⟩ : PSlot) ∉ f.tail := by
    intro isB hm
    exact absurd (hf.tail _ hm).1 (Nat.not_succ_le_self lo)
  constructor
  · omega
  · intro sl hsl
    rcases List.mem_cons.mp hsl with rfl | hsl
    · exact ⟨Nat.le_refl _, hlo⟩
    · have := hf.tail sl hsl
      omega
  · intro h
    exact absurd h (by simp)
  · intro e' he' states t goal hM hg
    obtain rfl : lo = e' := by simpa using he'
    have hget := hM lo (Nat.le_refl _) hlo
    rw [hst, Option.map_some] at hget
    have hbody : Passage (Move s states) goal e t R := by
      refine hf.passage e he states t goal ?_ ?_
      · intro q hq hq'
        rw [hM q (by omega) hq']
        cases n[q]? with
        | none => rfl
        | some st =>
          simp only [Option.map_some, Option.some.injEq]
          refine RState.patch_congr ?_
          intro isB
          have hne : ¬ q = lo := by omega
          simp [hne]
      · intro q i hq hq'
        exact hg q i (by omega) hq'
    refine Passage.split ?_ ?_ hbody (Passage.refl (Move s states) goal t)
    · exact move_split_iff hget hk (by simp [RState.patch, hoff, ha]) (by simp [RState.patch])
    · intro i
      exact hg lo i (Nat.le_refl _) hlo

/-- A split in front of a fragment that leads back to it. -/
lemma loop {st : RState} {e : ℕ} (hf : Realises s (lo + 1) n f R) (he : f.entry = some e)
    (hst : n[lo]? = some st) (hk : st.kind = .split) (ha : st.a = some e) :
    Realises s lo (fragThread n f.tail (some lo)) { entry := some lo, tail := [⟨lo, true⟩] }
      (Relation.ReflTransGen R) := by
  have hlo : lo + 1 ≤ n.length := hf.le
  have hoff : ∀ sl ∈ f.tail, sl.state ≠ lo := by
    intro sl hsl heq
    have := (hf.tail sl hsl).1
    omega
  constructor
  · rw [length_fragThread]
    omega
  · intro sl hsl
    obtain rfl : sl = ⟨lo, true⟩ := by simpa using hsl
    rw [length_fragThread]
    exact ⟨Nat.le_refl _, hlo⟩
  · intro h
    exact absurd h (by simp)
  · intro e' he' states t goal hM hg
    obtain rfl : lo = e' := by simpa using he'
    rw [length_fragThread] at hg
    have hget := hM lo (Nat.le_refl _) (by rw [length_fragThread]; exact hlo)
    rw [getElem?_fragThread, hst, Option.map_some, Option.map_some,
      RState.patch_of_notMem hoff] at hget
    have hbody : Passage (Move s states) goal e lo R := by
      refine hf.passage e he states lo goal ?_ ?_
      · intro q hq hq'
        rw [hM q (by omega) (by rw [length_fragThread]; exact hq'), getElem?_fragThread]
        cases n[q]? with
        | none => rfl
        | some st =>
          simp only [Option.map_some, Option.some.injEq]
          refine RState.patch_of_notMem ?_
          intro sl hsl heq
          obtain rfl : sl = ⟨lo, true⟩ := by simpa using hsl
          have : lo = q := heq
          omega
      · intro q i hq hq'
        exact hg q i (by omega) hq'
    refine Passage.star ?_ ?_ hbody
    · exact move_split_iff hget hk (by simp [RState.patch, ha]) (by simp [RState.patch])
    · intro i
      exact hg lo i (Nat.le_refl _) hlo

end Realises

end Teptris
