import Mathlib.Algebra.BigOperators.Intervals
import Mathlib.Tactic.Linarith
import Mathlib.Tactic.Ring
import Teptris.Schema.RegexSearch

/-!
# The stamps of a search

`sch_regex_search` never clears its marks: each round, at a start or behind a code point, has a
generation of its own, and a mark counts if it is the generation or its negative.  The counter is
an `int` and the number of rounds grows with the square of the text.
-/

namespace Teptris

open Relation

/-! ## Rounds -/

/-- A round of the search: the marks that `closure` is run on belong to a new generation. -/
structure Round where
  /-- `start`. -/
  start : ℕ
  /-- The position `closure` is called with. -/
  pos : ℕ
  /-- `gen` before it is incremented. -/
  last : ℤ
  /-- The marks the round before has left. -/
  before : List ℤ
  /-- The code point the round has read, none at a start. -/
  read : Option ℕ

namespace Round

variable (re : SchRegex) (s : List ℕ) (c : Round)

/-- `gen`. -/
def gen : ℤ := wrapInt (c.last + 1)

/-- The marks `closure` is called with. -/
def seeded : List ℤ :=
  match c.read with
  | none => markTarget c.gen c.before re.start
  | some cp => stepMarks re.states c.before c.gen c.last cp

/-- The marks `closure` leaves. -/
def after : List ℤ := closure s re.states (c.seeded re) c.gen c.pos

/-- The match state is marked. -/
def matched : Bool := markedAt c.gen (c.after re s) re.match

/-- The round behind the next code point. -/
def next (cp : ℕ) : Round :=
  { start := c.start, pos := c.pos + 1, last := c.gen, before := c.after re s, read := some cp }

/-- The round at the next start. -/
def restart : Round :=
  { start := c.start + 1, pos := c.start + 1, last := c.gen, before := c.after re s, read := none }

end Round

/-- The first round. -/
def firstRound (re : SchRegex) : Round :=
  { start := 0, pos := 0, last := 0, before := List.replicate re.states.length 0, read := none }

/-- The rounds of a search. -/
inductive SearchRound (re : SchRegex) (s : List ℕ) : Round → Prop
  /-- At the start of the text. -/
  | first : SearchRound re s (firstRound re)
  /-- The inner loop goes on. -/
  | next {c : Round} {cp : ℕ} (h : SearchRound re s c) (hm : c.matched re s = false)
      (hcp : s[c.pos]? = some cp) : SearchRound re s (c.next re s cp)
  /-- The outer loop goes on when the inner one has come to the end. -/
  | restart {c : Round} (h : SearchRound re s c) (hm : c.matched re s = false)
      (hpos : s.length ≤ c.pos) (hstart : c.start < s.length) : SearchRound re s (c.restart re s)

/-- The generation of a round is in the range of `int`, and a state bears a stamp of it only if
the round has written the stamp. -/
structure Round.Sound (re : SchRegex) (s : List ℕ) (c : Round) : Prop where
  /-- `gen++` does not overflow. -/
  range : c.last + 1 ≤ 2147483647
  /-- The marks `closure` is called with. -/
  seeded : ∀ q, markedAt c.gen (c.seeded re) q = true → (c.seeded re)[q]? ≠ c.before[q]?
  /-- The marks it leaves. -/
  after : ∀ q, markedAt c.gen (c.after re s) q = true → (c.after re s)[q]? ≠ c.before[q]?

/-- The rounds of a text of `n` code points up to the one at a position, from a start on: one
for each position of the earlier starts, and those of this start. -/
def rounds (n start pos : ℕ) : ℕ := (∑ k ∈ Finset.range start, (n + 1 - k)) + (pos - start) + 1

/-! ## Marks stay below the generation -/

variable {re : SchRegex} {s : List ℕ} {gen : ℤ} {mark : List ℤ}

lemma markTarget_stamped (hgen : 0 ≤ gen) (h : Stamped gen mark) (t : ℕ) :
    Stamped gen (markTarget gen mark t) := by
  unfold markTarget
  split_ifs
  · exact h.set ⟨by omega, by omega⟩ t
  · exact h

lemma stepMarks_stamped (hgen : 0 ≤ gen) (h : Stamped gen mark) (states : List RState) (prev : ℤ)
    (cp : ℕ) : Stamped gen (stepMarks states mark gen prev cp) := by
  rw [stepMarks]
  refine List.foldlRecOn _ _ h fun mark hmark i _ => ?_
  unfold stepMark
  split_ifs
  · cases states[i]? with
    | none => exact hmark
    | some st =>
      simp only
      split_ifs
      · cases st.a with
        | none => exact hmark
        | some t => exact markTarget_stamped hgen hmark t
      · exact hmark
  · exact hmark

lemma closure_stamped (hgen : 0 ≤ gen) (h : Stamped gen mark) (states : List RState) (pos : ℕ) :
    Stamped gen (closure s states mark gen pos) := by
  rw [closure]
  split
  next mark' hloop =>
    refine Loop.loop_invariant (I := fun st => Stamped gen st.1) (Q := Stamped gen) ?_ ?_ h hloop
    · rintro ⟨mark, stack⟩ st' hst hturn
      unfold closureTurn at hturn
      cases stack with
      | nil => exact absurd hturn (by simp)
      | cons q stack =>
        simp only [Except.ok.injEq, Loop.Turn.next.injEq] at hturn
        subst hturn
        have hpushed := foldl_pushTarget_pushed gen
          ((states[q]?).elim [] fun rs => closureTargets s rs pos) (mark, stack)
        exact (hpushed.stamped hgen hst).set (m := -gen) ⟨by omega, by omega⟩ q
    · rintro ⟨mark, stack⟩ mark' hst hturn
      unfold closureTurn at hturn
      cases stack with
      | nil =>
        obtain rfl : mark = mark' := by simpa using hturn
        exact hst
      | cons q stack => exact absurd hturn (by simp)
  next => exact h

lemma Stamped.mono {gen' : ℤ} (h : Stamped gen mark) (hle : gen ≤ gen') : Stamped gen' mark :=
  fun m hm => by have := h m hm; omega

/-! ## Rounds and the loops -/

variable {c : Round}

/-- The positions of a round. -/
lemma SearchRound.bounds (h : SearchRound re s c) : c.start ≤ c.pos ∧ c.pos ≤ s.length := by
  induction h with
  | first => simp [firstRound]
  | next h hm hcp ih =>
    have hlt := (List.getElem?_eq_some_iff.1 hcp).1
    exact ⟨by simp only [Round.next]; omega, hlt⟩
  | restart h hm hpos hstart ih => exact ⟨Nat.le_refl _, hstart⟩

/-- What the loops still give behind a round. -/
def Round.result (re : SchRegex) (s : List ℕ) (c : Round) : Bool :=
  let (matched, gen, mark) := searchAt re s (s.drop c.pos) c.pos c.gen (c.after re s)
  matched || match s.drop c.start with
    | [] => false
    | _ :: rest => searchFrom re s rest (c.start + 1) gen mark

lemma result_matched (hm : c.matched re s = true) : c.result re s = true := by
  have hat : searchAt re s (s.drop c.pos) c.pos c.gen (c.after re s) =
      (true, c.gen, c.after re s) := by
    rw [searchAt.eq_def]
    exact if_pos hm
  rw [Round.result, hat]
  rfl

lemma result_next {cp : ℕ} (hm : c.matched re s = false) (hcp : s[c.pos]? = some cp) :
    c.result re s = (c.next re s cp).result re s := by
  have hdrop : s.drop c.pos = cp :: s.drop (c.pos + 1) := by
    obtain ⟨hlt, rfl⟩ := List.getElem?_eq_some_iff.1 hcp
    exact List.drop_eq_getElem_cons hlt
  have hat : searchAt re s (s.drop c.pos) c.pos c.gen (c.after re s) =
      searchAt re s (s.drop (c.pos + 1)) (c.pos + 1) (c.next re s cp).gen
        ((c.next re s cp).after re s) := by
    rw [hdrop, searchAt, if_neg (by rw [← Round.matched, hm]; simp)]
    rfl
  rw [Round.result, hat]
  rfl

lemma result_end (hm : c.matched re s = false) (hpos : s.length ≤ c.pos) :
    c.result re s = if c.start < s.length then (c.restart re s).result re s else false := by
  have hat : searchAt re s (s.drop c.pos) c.pos c.gen (c.after re s) =
      (false, c.gen, c.after re s) := by
    rw [List.drop_eq_nil_of_le hpos, searchAt, if_neg (by rw [← Round.matched, hm]; simp)]
  rw [Round.result, hat]
  split_ifs with hstart
  · rw [List.drop_eq_getElem_cons hstart]
    simp only [Bool.false_or]
    rw [searchFrom.eq_def]
    rfl
  · rw [List.drop_eq_nil_of_le (Nat.not_lt.1 hstart)]
    rfl

/-- What the search gives is what its loops give behind any of its rounds. -/
lemma SearchRound.result_eq (h : SearchRound re s c) :
    searchFrom re s s 0 0 (List.replicate re.states.length 0) = c.result re s := by
  induction h with
  | first =>
    rw [searchFrom.eq_def]
    rfl
  | next h hm hcp ih => rw [ih, result_next hm hcp]
  | restart h hm hpos hstart ih => rw [ih, result_end hm hpos, if_pos hstart]

/-- The loops find a match only in a round. -/
lemma SearchRound.exists_matched (h : SearchRound re s c) (hr : c.result re s = true) :
    ∃ c', SearchRound re s c' ∧ c'.matched re s = true := by
  -- the rounds that are left, by the starts and then by the positions
  generalize hn : s.length - c.start = n
  induction n using Nat.strong_induction_on generalizing c with
  | _ n ihn =>
    generalize hk : s.length - c.pos = k
    induction k generalizing c with
    | zero =>
      cases hm : c.matched re s with
      | true => exact ⟨c, h, hm⟩
      | false =>
        rw [result_end hm (by omega)] at hr
        split_ifs at hr with hstart
        exact ihn (s.length - (c.start + 1)) (by omega)
          (h.restart hm (by omega) hstart) hr rfl
    | succ k ihk =>
      cases hm : c.matched re s with
      | true => exact ⟨c, h, hm⟩
      | false =>
        have hcp : s[c.pos]? = some s[c.pos] := List.getElem?_eq_getElem (by omega)
        rw [result_next hm hcp] at hr
        exact ihk (h.next hm hcp) hr hn (by simp only [Round.next]; omega)

/-- `sch_regex_search` finds a match exactly when one of its rounds marks the match state. -/
theorem schRegexSearch_iff_round (hne : re.states ≠ []) :
    schRegexSearch re s s.length = true ↔ ∃ c, SearchRound re s c ∧ c.matched re s = true := by
  have hsearch : schRegexSearch re s s.length =
      searchFrom re s s 0 0 (List.replicate re.states.length 0) := by
    rw [schRegexSearch, if_neg (by simpa using hne), if_neg (by omega)]
    simp
  rw [hsearch]
  constructor
  · intro h
    exact SearchRound.first.exists_matched (SearchRound.first.result_eq ▸ h)
  · rintro ⟨c, h, hm⟩
    rw [h.result_eq, result_matched hm]

/-! ## Sound rounds -/

/-- What the round before leaves to a round whose counter has not overflowed. -/
structure Round.Exact (s : List ℕ) (c : Round) : Prop where
  /-- The counter has counted the rounds. -/
  counted : c.last + 1 = rounds s.length c.start c.pos
  /-- No mark is of a later generation. -/
  stamped : Stamped c.last c.before

/-- The generation of a round whose counter is in range. -/
lemma Round.gen_eq (h : 0 ≤ c.last) (hrange : c.last + 1 ≤ 2147483647) : c.gen = c.last + 1 :=
  wrapInt_of_lt (by omega) (by omega)

/-- The marks of a round. -/
lemma Round.stamped (h : Stamped c.last c.before) (h0 : 0 ≤ c.last) (hgen : c.gen = c.last + 1) :
    Stamped c.gen (c.seeded re) ∧ Stamped c.gen (c.after re s) := by
  have hbefore : Stamped c.gen c.before := h.mono (by omega)
  have hseeded : Stamped c.gen (c.seeded re) := by
    rw [Round.seeded]
    cases c.read with
    | none => exact markTarget_stamped (by omega) hbefore re.start
    | some cp => exact stepMarks_stamped (by omega) hbefore re.states c.last cp
  exact ⟨hseeded, closure_stamped (by omega) hseeded re.states c.pos⟩

/-- The counter has counted the round. -/
lemma Round.Exact.nonneg (h : c.Exact s) : 0 ≤ c.last := by
  have hcount := h.counted
  rw [rounds] at hcount
  omega

/-- A new generation finds none of its stamps. -/
lemma Round.Exact.sound (h : c.Exact s) (hrange : c.last + 1 ≤ 2147483647) : c.Sound re s := by
  have h0 := h.nonneg
  have hfresh : ∀ q, markedAt c.gen c.before q = false := by
    rw [Round.gen_eq h0 hrange]
    exact h.stamped.unmarked_next
  have hwritten : ∀ (mark : List ℤ) (q : ℕ), markedAt c.gen mark q = true →
      mark[q]? ≠ c.before[q]? := by
    intro mark q hq heq
    have hold := hfresh q
    rw [markedAt, ← heq, ← markedAt, hq] at hold
    exact absurd hold (by simp)
  exact ⟨hrange, hwritten _, hwritten _⟩

lemma rounds_next (n start pos : ℕ) (h : start ≤ pos) :
    rounds n start (pos + 1) = rounds n start pos + 1 := by
  simp only [rounds]
  omega

lemma rounds_restart (n start : ℕ) (h : start ≤ n) :
    rounds n (start + 1) (start + 1) = rounds n start n + 1 := by
  simp only [rounds, Finset.sum_range_succ]
  omega

/-- The counter counts the round behind the next code point. -/
lemma Round.Exact.next (h : c.Exact s) (hpos : c.start ≤ c.pos) (hrange : c.last + 1 ≤ 2147483647)
    (cp : ℕ) : (c.next re s cp).Exact s := by
  have hgen := Round.gen_eq h.nonneg hrange
  constructor
  · simp only [Round.next, rounds_next _ _ _ hpos, hgen, h.counted]
    push_cast
    rfl
  · exact (Round.stamped h.stamped h.nonneg hgen).2

/-- The counter counts the round at the next start. -/
lemma Round.Exact.restart (h : c.Exact s) (hpos : c.pos = s.length) (hstart : c.start < s.length)
    (hrange : c.last + 1 ≤ 2147483647) : (c.restart re s).Exact s := by
  have hgen := Round.gen_eq h.nonneg hrange
  constructor
  · simp only [Round.restart, rounds_restart _ _ hstart.le, hgen, h.counted, hpos]
    push_cast
    rfl
  · exact (Round.stamped h.stamped h.nonneg hgen).2

/-- The first round is counted. -/
lemma firstRound_exact (re : SchRegex) (s : List ℕ) : (firstRound re).Exact s := by
  constructor
  · simp [firstRound, rounds]
  · simp [firstRound, Stamped]

/-- As long as the rounds stay in the range of `int`, the counter counts them. -/
lemma SearchRound.exact
    (hall : ∀ c, SearchRound re s c → c.last + 1 = rounds s.length c.start c.pos →
      c.last + 1 ≤ 2147483647) (h : SearchRound re s c) : c.Exact s := by
  induction h with
  | first => exact firstRound_exact re s
  | @next c cp h hm hcp ih => exact ih.next h.bounds.1 (hall c h ih.counted) cp
  | @restart c h hm hpos hstart ih =>
    exact ih.restart (Nat.le_antisymm h.bounds.2 hpos) hstart (hall c h ih.counted)

/-- In every search the generations are in range and the stamps are fresh, exactly as long as the
rounds the search comes to are no more than an `int` can count. -/
theorem stamps_sound_iff (re : SchRegex) (s : List ℕ) :
    (∀ c, SearchRound re s c → c.Sound re s) ↔
      ∀ c, SearchRound re s c → rounds s.length c.start c.pos ≤ 2147483647 := by
  constructor
  · intro hall c h
    have hexact := h.exact fun c h _ => (hall c h).range
    have hrange := (hall c h).range
    rw [hexact.counted] at hrange
    exact_mod_cast hrange
  · intro hall c h
    have hin : ∀ c, SearchRound re s c → c.last + 1 = rounds s.length c.start c.pos →
        c.last + 1 ≤ 2147483647 := fun c h heq => by
      rw [heq]
      exact_mod_cast hall c h
    have hexact := h.exact hin
    exact hexact.sound (hin c h hexact.counted)

/-! ## Texts that are too long -/

/-- The rounds that end at a start, in closed form. -/
lemma two_mul_rounds {n start : ℕ} (h : start ≤ n) (pos : ℕ) :
    2 * rounds n start pos = start * (2 * n + 3 - start) + 2 * (pos - start) + 2 := by
  have hsum : ∀ k ≤ n, 2 * ∑ i ∈ Finset.range k, (n + 1 - i) = k * (2 * n + 3 - k) := by
    intro k
    induction k with
    | zero => simp
    | succ k ih =>
      intro hk
      rw [Finset.sum_range_succ, Nat.mul_add, ih (by omega)]
      obtain ⟨m, rfl⟩ : ∃ m, n = k + 1 + m := ⟨n - (k + 1), by omega⟩
      have h1 : 2 * (k + 1 + m) + 3 - k = k + 2 * m + 5 := by omega
      have h2 : 2 * (k + 1 + m) + 3 - (k + 1) = k + 2 * m + 4 := by omega
      have h3 : k + 1 + m + 1 - k = m + 2 := by omega
      rw [h1, h2, h3]
      ring
  rw [rounds]
  have := hsum start h
  omega

/-- A text of up to 65534 code points has no more rounds than an `int` can count. -/
lemma rounds_of_short {n start pos : ℕ} (hn : n ≤ 65534) (hstart : start ≤ pos) (hpos : pos ≤ n) :
    rounds n start pos ≤ 2147483647 := by
  have hclosed := two_mul_rounds (hstart.trans hpos) pos
  obtain ⟨d, hd⟩ := Nat.exists_eq_add_of_le (hstart.trans hpos)
  have hle : 2 * rounds n start pos ≤ (n + 1) * (n + 2) := by
    have h1 : 2 * n + 3 - start = start + 2 * d + 3 := by omega
    rw [hclosed, h1]
    have h2 : pos - start ≤ d := by omega
    rw [hd]
    nlinarith
  have hmax : (n + 1) * (n + 2) ≤ 65535 * 65536 := Nat.mul_le_mul (by omega) (by omega)
  omega

/-- Searches in texts of up to 65534 code points stay in range. -/
theorem stamps_sound_of_short (hs : s.length ≤ 65534) (h : SearchRound re s c) :
    c.Sound re s := by
  have hin : ∀ c, SearchRound re s c → c.last + 1 = rounds s.length c.start c.pos →
      c.last + 1 ≤ 2147483647 := by
    intro c h heq
    rw [heq]
    exact_mod_cast rounds_of_short hs h.bounds.1 h.bounds.2
  exact (h.exact hin).sound (hin c h (h.exact hin).counted)

/-- The automaton of the pattern `b`. -/
def onlyB : SchRegex where
  states := [{ RState.new .char with ranges := [⟨0x62, 0x62⟩], a := some 1 }, .new .match]
  start := 0
  «match» := 1

lemma onlyB_compiled : schRegexCompile [] [0x62] = .ok onlyB := rfl

/-- The match state of `onlyB` is marked by no closure that is not called with it. -/
lemma closure_onlyB (hgen : 0 < gen) (hmark : mark[1]? = some 0) (pos : ℕ) :
    (closure s onlyB.states mark gen pos)[1]? = some 0 := by
  rw [closure]
  split
  next mark' hloop =>
    refine Loop.loop_invariant (I := fun st => st.1[1]? = some 0 ∧ 1 ∉ st.2)
      (Q := fun mark => mark[1]? = some 0) ?_ ?_ ⟨hmark, ?_⟩ hloop
    · rintro ⟨mark, stack⟩ st' ⟨hcell, hstack⟩ hturn
      unfold closureTurn at hturn
      cases stack with
      | nil => exact absurd hturn (by simp)
      | cons q stack =>
        have htargets : ((onlyB.states[q]?).elim [] fun rs => closureTargets s rs pos) = [] := by
          match q with
          | 0 => rfl
          | 1 => rfl
          | q + 2 => rfl
        rw [List.mem_cons, not_or] at hstack
        simp only [htargets, List.foldl_nil, Except.ok.injEq, Loop.Turn.next.injEq] at hturn
        subst hturn
        exact ⟨by rw [List.getElem?_set_ne (Ne.symm hstack.1)]; exact hcell, hstack.2⟩
    · rintro ⟨mark, stack⟩ mark' ⟨hcell, -⟩ hturn
      unfold closureTurn at hturn
      cases stack with
      | nil =>
        obtain rfl : mark = mark' := by simpa using hturn
        exact hcell
      | cons q stack => exact absurd hturn (by simp)
    · simp only [List.mem_reverse, List.mem_filter, hmark, not_and]
      intro _ h
      simp at h
      omega
  next => exact hmark

/-- No state of `onlyB` takes the letter `a`. -/
lemma stepMarks_onlyB (prev : ℤ) : stepMarks onlyB.states mark gen prev 0x61 = mark := by
  have hturn : ∀ mark i, stepMark onlyB.states gen prev 0x61 mark i = mark := by
    intro mark i
    unfold stepMark
    split_ifs
    · match i with
      | 0 => exact if_neg (by decide)
      | 1 => exact if_neg (by decide)
      | i + 2 => rfl
    · rfl
  rw [stepMarks]
  exact List.foldlRecOn (motive := (· = mark)) _ _ rfl fun b hb i _ => (hturn b i).trans hb

/-- In a text of letters `a` no round of `onlyB` marks the match state. -/
lemma onlyB_unmatched {n : ℕ} (hgen : ∀ c, SearchRound onlyB (List.replicate n 0x61) c → 0 < c.gen)
    (h : SearchRound onlyB (List.replicate n 0x61) c) :
    (c.after onlyB (List.replicate n 0x61))[1]? = some 0 := by
  have hstart : ∀ c : Round, c.read = none → c.before[1]? = some 0 →
      (c.seeded onlyB)[1]? = some 0 := by
    intro c hread hb
    simp only [Round.seeded, hread, markTarget]
    split_ifs
    · rw [List.getElem?_set_ne (by decide)]
      exact hb
    · exact hb
  induction h with
  | first => exact closure_onlyB (hgen _ .first) (hstart _ rfl rfl) _
  | @next c cp h hm hcp ih =>
    obtain rfl : cp = 0x61 := List.eq_of_mem_replicate (List.mem_of_getElem? hcp)
    refine closure_onlyB (hgen _ (h.next hm hcp)) ?_ _
    rw [Round.seeded, Round.next]
    simp only [stepMarks_onlyB]
    exact ih
  | restart h hm hpos hs ih =>
    exact closure_onlyB (hgen _ (h.restart hm hpos hs)) (hstart _ rfl ih) _

/-- A search that finds nothing comes to every start and every position behind it. -/
lemma SearchRound.all (hun : ∀ c, SearchRound re s c → c.matched re s = false) :
    ∀ start ≤ s.length, ∀ pos ≤ s.length, start ≤ pos →
      ∃ c, SearchRound re s c ∧ c.start = start ∧ c.pos = pos := by
  have hrow : ∀ {c : Round}, SearchRound re s c → ∀ k, c.pos + k ≤ s.length →
      ∃ c', SearchRound re s c' ∧ c'.start = c.start ∧ c'.pos = c.pos + k := by
    intro c h k
    induction k with
    | zero => exact fun _ => ⟨c, h, rfl, rfl⟩
    | succ k ih =>
      intro hk
      obtain ⟨c', h', hs, hp⟩ := ih (by omega)
      have hcp : s[c'.pos]? = some s[c'.pos] := List.getElem?_eq_getElem (by omega)
      exact ⟨_, h'.next (hun c' h') hcp, hs, by simp only [Round.next, hp]; omega⟩
  intro start hstart
  induction start with
  | zero =>
    intro pos hpos _
    obtain ⟨c, h, hs, hp⟩ := hrow (@SearchRound.first re s) pos
      (by simpa [firstRound] using hpos)
    exact ⟨c, h, hs, by simpa [firstRound] using hp⟩
  | succ start ih =>
    intro pos hpos hle
    obtain ⟨c, h, hs, hp⟩ := ih (by omega) s.length (Nat.le_refl _) (by omega)
    have hnext := h.restart (hun c h) (by omega) (by omega)
    obtain ⟨c', h', hs', hp'⟩ := hrow hnext (pos - (start + 1))
      (by simp only [Round.restart, hs]; omega)
    exact ⟨c', h', by simp [hs', Round.restart, hs],
      by simp only [hp', Round.restart, hs]; omega⟩

/-- The search for `b` in `n` letters `a` comes to its last round. -/
lemma onlyB_rounds {n : ℕ}
    (hsound : ∀ c, SearchRound onlyB (List.replicate n 0x61) c →
      c.Sound onlyB (List.replicate n 0x61)) : rounds n n n ≤ 2147483647 := by
  have hexact : ∀ c, SearchRound onlyB (List.replicate n 0x61) c →
      c.Exact (List.replicate n 0x61) := fun c h => h.exact fun c h _ => (hsound c h).range
  have hgen : ∀ c, SearchRound onlyB (List.replicate n 0x61) c → 0 < c.gen := fun c h => by
    have hcount := (hexact c h).counted
    rw [rounds] at hcount
    rw [Round.gen_eq (by omega) (hsound c h).range]
    omega
  have hun : ∀ c, SearchRound onlyB (List.replicate n 0x61) c →
      c.matched onlyB (List.replicate n 0x61) = false := fun c h => by
    by_contra hm
    obtain ⟨m, hcell, hmark⟩ := markedAt_iff.1 (Bool.eq_true_of_not_eq_false hm)
    obtain rfl : 0 = m := Option.some.inj ((onlyB_unmatched hgen h).symm.trans hcell)
    have hpos := hgen c h
    simp only [unmarked, decide_eq_false_iff_not] at hmark
    omega
  obtain ⟨c, h, hs, hp⟩ := SearchRound.all hun n (by simp) n (by simp) (Nat.le_refl _)
  have hcount := (hexact c h).counted
  have hrange := (hsound c h).range
  rw [hs, hp, List.length_replicate] at hcount
  omega

/-- In 65536 letters `a` the pattern `b` is looked for in more rounds than an `int` can count. -/
theorem stamps_overflow : ¬ ∀ table pattern re, schRegexCompile table pattern = .ok re →
    ∀ s : List ℕ, s.length ≤ 2147483647 → ∀ c, SearchRound re s c → c.Sound re s := by
  intro hall
  have hsound := hall [] [0x62] onlyB onlyB_compiled (List.replicate 65536 0x61)
    (by rw [List.length_replicate]; decide)
  have hcount := onlyB_rounds hsound
  have hclosed := @two_mul_rounds 65536 65536 (Nat.le_refl _) 65536
  omega

end Teptris
