import Teptris.Schema.RegexAutomaton
import Teptris.Schema.RegexDecode
import Teptris.Schema.RegexParse
import Teptris.Schema.RegexStamps

/-!
# What a search finds

`sch_regex_is_match` against the meaning of the pattern tree.  A search takes the positions of a
text by their starts and then by their ends, and stops at the first match.  As long as its rounds
are no more than an `int` counts and no mark is overwritten before its turn, the marks of every
round are the states a run of the automaton comes to (`SearchRound.right`), and the search finds a
match exactly when the tree matches somewhere in the text (`schRegexIsMatch_iff`).
-/

namespace Teptris

open Relation

/-! ## The entry of a fragment -/

section Entry

variable {emit : List RState → Emitted}

/-- Behind `n` no state is taken away, and the entry of the fragment is one of the states. -/
structure Entered (n : List RState) (f : Frag) (n' : List RState) : Prop where
  /-- The states stay. -/
  le : n.length ≤ n'.length
  /-- The entry is a state. -/
  entry : ∀ e, f.entry = some e → e < n'.length

/-- An emitter of fragments whose entries are states. -/
def EntersStates (emit : List RState → Emitted) : Prop :=
  ∀ n f n', emit n = .ok (f, n') → Entered n f n'

/-- More states in front. -/
lemma Entered.trans {n n₁ n' : List RState} {f : Frag} (hle : n.length ≤ n₁.length)
    (h : Entered n₁ f n') : Entered n f n' :=
  ⟨hle.trans h.le, h.entry⟩

/-- More states behind. -/
lemma Entered.mono {n n₁ n' : List RState} {f : Frag} (h : Entered n f n₁)
    (hle : n₁.length ≤ n'.length) : Entered n f n' :=
  ⟨h.le.trans hle, fun e he => (h.entry e he).trans_le hle⟩

/-- The empty fragment. -/
lemma Entered.eps (n : List RState) : Entered n .eps n :=
  ⟨Nat.le_refl _, fun e he => by cases he⟩

lemma emitState_enters (st : RState) : EntersStates (emitState · st) := by
  intro n f n' h
  obtain ⟨⟨q, n₁⟩, hq, h⟩ := bind_ok h
  obtain ⟨rfl, rfl⟩ := nstate_ok hq
  obtain ⟨rfl, rfl⟩ := Prod.mk.inj (Except.ok.inj h)
  constructor
  · simp
  · intro e he
    obtain rfl := Option.some.inj he
    simp

lemma emitCopies_enters (hemit : EntersStates emit) (k : ℕ) :
    ∀ {n₀ n f f' n'}, Entered n₀ f n → emitCopies emit k f n = .ok (f', n') →
      Entered n₀ f' n' := by
  induction k with
  | zero =>
    intro n₀ n f f' n' hf h
    obtain ⟨rfl, rfl⟩ := Prod.mk.inj (Except.ok.inj h)
    exact hf
  | succ k ih =>
    intro n₀ n f f' n' hf h
    obtain ⟨⟨piece, n₁⟩, hp, h⟩ := bind_ok h
    have hle := (hemit _ _ _ hp).le
    refine ih (f := { f with tail := piece.tail }) ?_ h
    exact ⟨(hf.mono hle).le.trans (by simp), fun e he => by simpa using (hf.mono hle).entry e he⟩

lemma emitMandatory_enters (hemit : EntersStates emit) (qmin : ℕ) :
    EntersStates (emitMandatory emit qmin) := by
  intro n f n' h
  cases qmin with
  | zero =>
    obtain ⟨rfl, rfl⟩ := Prod.mk.inj (Except.ok.inj h)
    exact .eps n
  | succ k =>
    obtain ⟨⟨piece, n₁⟩, hp, h⟩ := bind_ok h
    exact emitCopies_enters hemit k (hemit _ _ _ hp) h

/-- A split with a body behind it. -/
lemma split_enters (hemit : EntersStates emit) {n n₁ n₂ : List RState} {f body : Frag} {q : ℕ}
    (hs : nstate n (.new .split) = .ok (q, n₁))
    (hb : emit (fragThread n₁ f.tail (some q)) = .ok (body, n₂)) :
    n.length ≤ n₂.length ∧ q < n₂.length := by
  obtain ⟨rfl, rfl⟩ := nstate_ok hs
  have hle := (hemit _ _ _ hb).le
  rw [length_fragThread, List.length_append, List.length_singleton] at hle
  omega

lemma emitUnbounded_enters (hemit : EntersStates emit) (qmin : ℕ) {n₀ n f f' n'}
    (hf : Entered n₀ f n) (h : emitUnbounded emit qmin f n = .ok (f', n')) :
    Entered n₀ f' n' := by
  obtain ⟨⟨split, n₁⟩, hs, h⟩ := bind_ok h
  obtain ⟨⟨body, n₂⟩, hb, h⟩ := bind_ok h
  obtain ⟨hle, hsplit⟩ := split_enters hemit hs hb
  cases he : body.entry with
  | none =>
    simp only [he] at h
    cases h
  | some e =>
    simp only [he] at h
    obtain ⟨rfl, rfl⟩ := Prod.mk.inj (Except.ok.inj h)
    constructor
    · simpa using hf.le.trans hle
    · intro e he
      rw [length_fragThread, List.length_modify]
      split_ifs at he
      · exact (hf.mono hle).entry e he
      · obtain rfl := Option.some.inj he
        exact hsplit

lemma emitOptional_enters (hemit : EntersStates emit) (k : ℕ) :
    ∀ {n₀ n f f' n'}, Entered n₀ f n → emitOptional emit k f n = .ok (f', n') →
      Entered n₀ f' n' := by
  induction k with
  | zero =>
    intro n₀ n f f' n' hf h
    obtain ⟨rfl, rfl⟩ := Prod.mk.inj (Except.ok.inj h)
    exact hf
  | succ k ih =>
    intro n₀ n f f' n' hf h
    obtain ⟨⟨split, n₁⟩, hs, h⟩ := bind_ok h
    obtain ⟨⟨body, n₂⟩, hb, h⟩ := bind_ok h
    obtain ⟨hle, hsplit⟩ := split_enters hemit hs hb
    refine ih ?_ h
    constructor
    · simpa using hf.le.trans hle
    · intro e he
      rw [List.length_modify]
      simp only at he
      split_ifs at he
      · obtain rfl := Option.some.inj he
        exact hsplit
      · exact (hf.mono hle).entry e he

lemma emitQuant_enters {qmin : ℕ} {qmax : Option ℕ}
    (hemit : EntersStates emit) : EntersStates (emitQuant emit qmin qmax) := by
  intro n f n' h
  unfold emitQuant at h
  split_ifs at h
  · obtain ⟨rfl, rfl⟩ := Prod.mk.inj (Except.ok.inj h)
    exact .eps n
  · obtain ⟨⟨f₁, n₁⟩, hm, h⟩ := bind_ok h
    have hf := emitMandatory_enters hemit qmin _ _ _ hm
    cases qmax with
    | none => exact emitUnbounded_enters hemit qmin hf h
    | some m =>
      simp only at h
      split_ifs at h
      · exact emitUnbounded_enters hemit qmin hf h
      · exact emitOptional_enters hemit _ hf h

lemma emitSeq_enters {rs : List Ra} (hrs : ∀ r ∈ rs, EntersStates (emitNode r)) :
    ∀ {n₀ n f f' n'}, Entered n₀ f n → emitSeq rs f n = .ok (f', n') → Entered n₀ f' n' := by
  induction rs with
  | nil =>
    intro n₀ n f f' n' hf h
    rw [emitSeq] at h
    obtain ⟨rfl, rfl⟩ := Prod.mk.inj (Except.ok.inj h)
    exact hf
  | cons r rs ih =>
    intro n₀ n f f' n' hf h
    rw [emitSeq] at h
    obtain ⟨⟨piece, n₁⟩, hp, h⟩ := bind_ok h
    have hpiece := hrs r (by simp) _ _ _ hp
    refine ih (fun q hq => hrs q (by simp [hq])) ?_ h
    constructor
    · simpa using hf.le.trans hpiece.le
    · intro e he
      rw [length_fragThread]
      rcases Option.or_eq_some_iff.mp he with he | ⟨-, he⟩
      · exact (hf.mono hpiece.le).entry e he
      · exact hpiece.entry e he

lemma emitOthers_le {rs : List Ra} (hrs : ∀ r ∈ rs, EntersStates (emitNode r)) :
    ∀ {prev merged n merged' n'}, emitOthers rs prev merged n = .ok (merged', n') →
      n.length ≤ n'.length := by
  induction rs with
  | nil =>
    intro prev merged n merged' n' h
    rw [emitOthers] at h
    obtain ⟨-, rfl⟩ := Prod.mk.inj (Except.ok.inj h)
    exact Nat.le_refl _
  | cons r rs ih =>
    intro prev merged n merged' n' h
    rw [emitOthers] at h
    obtain ⟨⟨b, n₁⟩, hb, h⟩ := bind_ok h
    have hle := (hrs r (by simp) _ _ _ hb).le
    simp only at h
    split_ifs at h
    · have hlen := length_hookBranch prev true b merged n₁
      rw [Except.ok.inj h] at hlen
      exact hle.trans (Nat.le_of_eq hlen.symm)
    · obtain ⟨⟨s2, n₂⟩, hs, h⟩ := bind_ok h
      obtain ⟨-, rfl⟩ := nstate_ok hs
      have hrest := ih (fun q hq => hrs q (by simp [hq])) h
      simp only [length_hookBranch, List.length_modify, List.length_append] at hrest
      omega

mutual

/-- The entry of a node is one of the states. -/
theorem emitNode_enters : ∀ r : Ra, EntersStates (emitNode r)
  | .char cp ci => by
    intro n f n' h
    rw [emitNode] at h
    exact emitState_enters _ n f n' h
  | .any => by
    intro n f n' h
    rw [emitNode] at h
    exact emitState_enters _ n f n' h
  | .cls ranges negated => by
    intro n f n' h
    rw [emitNode] at h
    exact emitState_enters _ n f n' h
  | .bol => by
    intro n f n' h
    rw [emitNode] at h
    exact emitState_enters _ n f n' h
  | .eol => by
    intro n f n' h
    rw [emitNode] at h
    exact emitState_enters _ n f n' h
  | .wordb => by
    intro n f n' h
    rw [emitNode] at h
    exact emitState_enters _ n f n' h
  | .nwordb => by
    intro n f n' h
    rw [emitNode] at h
    exact emitState_enters _ n f n' h
  | .seq pieces => by
    intro n f n' h
    rw [emitNode] at h
    exact emitSeq_enters (everyOf_enters pieces) (.eps n) h
  | .alt first others => by
    intro n f n' h
    rw [emitNode] at h
    split_ifs at h
    · exact emitNode_enters first n f n' h
    · obtain ⟨⟨split, n₁⟩, hs, h⟩ := bind_ok h
      obtain ⟨⟨b, n₂⟩, hb, h⟩ := bind_ok h
      obtain ⟨⟨merged, n₃⟩, ho, h⟩ := bind_ok h
      have hfirst := (emitNode_enters first _ b n₂ hb).le
      have hothers : (hookBranch split false b [] n₂).2.length ≤ n₃.length :=
        emitOthers_le (everyOf_enters others) ho
      obtain ⟨rfl, rfl⟩ := Prod.mk.inj (Except.ok.inj h)
      obtain ⟨rfl, rfl⟩ := nstate_ok hs
      rw [List.length_append, List.length_singleton] at hfirst
      rw [length_hookBranch] at hothers
      constructor
      · omega
      · intro e he
        obtain rfl := Option.some.inj he
        omega
  | .quant child qmin qmax => by
    intro n f n' h
    rw [emitNode] at h
    exact emitQuant_enters (emitNode_enters child) n f n' h

/-- The nodes of a list. -/
theorem everyOf_enters : ∀ rs : List Ra, ∀ r ∈ rs, EntersStates (emitNode r)
  | [], _, hr => absurd hr List.not_mem_nil
  | q :: qs, r, hr => by
    rcases List.mem_cons.mp hr with heq | hr
    · rw [heq]
      exact emitNode_enters q
    · exact everyOf_enters qs r hr

end

/-- The start and the match of an automaton are states of it. -/
theorem emitRegex_states_lt {r : Ra} {re : SchRegex} (h : emitRegex r = .ok re) :
    re.start < re.states.length ∧ re.match < re.states.length := by
  unfold emitRegex at h
  obtain ⟨⟨f, n⟩, hf, h⟩ := bind_ok h
  obtain ⟨⟨m, n'⟩, hm, h⟩ := bind_ok h
  obtain ⟨rfl, rfl⟩ := nstate_ok hm
  have hentry := (emitNode_enters r [] f n hf).entry
  obtain rfl := Except.ok.inj h
  simp only [length_fragThread, List.length_append, List.length_singleton]
  cases he : f.entry with
  | none => exact ⟨Nat.lt_succ_self _, Nat.lt_succ_self _⟩
  | some e => exact ⟨(hentry e he).trans (Nat.lt_succ_self _), Nat.lt_succ_self _⟩

end Entry

/-! ## The order of the search -/

/-- No match of the tree comes before the position: none begins at an earlier start, or at this
one and ends earlier.  A search comes to such positions only. -/
structure Ra.Sought (s : List ℕ) (r : Ra) (start pos : ℕ) : Prop where
  /-- The position is not in front of the start. -/
  start_le : start ≤ pos
  /-- It lies in the text. -/
  le_length : pos ≤ s.length
  /-- What comes before it is no match. -/
  unmatched : ∀ i j, r.Matches s i j → ¬ (i < start ∨ i = start ∧ j < pos)

/-- An `int` counts the code points and the rounds up to a match. -/
structure Ra.Counted (s : List ℕ) (r : Ra) : Prop where
  /-- The length is an `int`. -/
  length : s.length ≤ 2147483647
  /-- So is the generation of every round. -/
  rounds : ∀ start pos, r.Sought s start pos → rounds s.length start pos ≤ 2147483647

/-- No mark is overwritten before its turn, up to a match. -/
def Ra.Undisturbed (s : List ℕ) (r : Ra) (re : SchRegex) : Prop :=
  ∀ start pos, r.Sought s start pos → ¬ r.Matches s start pos → ¬ Overwritten s re start pos

/-- The positions of a text of up to 65534 code points are counted. -/
lemma Ra.counted_of_short {s : List ℕ} (hs : s.length ≤ 65534) (r : Ra) : r.Counted s := by
  constructor
  · omega
  · intro start pos h
    exact rounds_of_short hs h.start_le h.le_length

section Search

variable {s : List ℕ} {r : Ra} {re : SchRegex} {c : Round}

/-- The automaton runs along the matches of the tree. -/
structure Runs (s : List ℕ) (re : SchRegex) (r : Ra) : Prop where
  /-- The start is a state. -/
  start_lt : re.start < re.states.length
  /-- The match is a state. -/
  match_lt : re.match < re.states.length
  /-- It is reached along the matches. -/
  reach_iff : ∀ i j,
    ReflTransGen (Move s re.states) (re.start, i) (re.match, j) ↔ r.Matches s i j

/-- A compiled tree runs along its matches. -/
lemma runs_of_emitRegex (s : List ℕ) (hr : r.every goodNode = true) (h : emitRegex r = .ok re) :
    Runs s re r :=
  ⟨(emitRegex_states_lt h).1, (emitRegex_states_lt h).2, emitRegex_reach_iff s hr h⟩

/-- A match goes forward and does not leave the text. -/
lemma Runs.bounds (h : Runs s re r) {i j : ℕ} (hm : r.Matches s i j) (hi : i ≤ s.length) :
    i ≤ j ∧ j ≤ s.length := by
  have hreach := (stateMove_reach_iff h.match_lt).mpr ((h.reach_iff i j).mpr hm)
  exact ⟨(stateMove_layered s re.states).le hreach, stateMove_le_length hreach hi⟩

/-- A round is right: it is counted, no match comes before it, and its marks are the states a run
from its start comes to. -/
structure Round.Right (re : SchRegex) (s : List ℕ) (r : Ra) (c : Round) : Prop where
  /-- The counter has counted it. -/
  exact : c.Exact s
  /-- No match comes before it. -/
  sought : r.Sought s c.start c.pos
  /-- Its marks are the states reached. -/
  visits : Visits s re c.start c.pos c.gen (c.after re s)

/-- The counter of a round that comes before every match has not overflowed. -/
lemma Round.Exact.range (h : c.Exact s) (hcount : r.Counted s)
    (hsought : r.Sought s c.start c.pos) : c.last + 1 ≤ 2147483647 := by
  rw [h.counted]
  exact_mod_cast hcount.rounds _ _ hsought

/-- A right round marks the match state exactly where the tree matches. -/
lemma Round.Right.matched_iff (h : c.Right re s r) (hruns : Runs s re r) :
    c.matched re s = true ↔ r.Matches s c.start c.pos := by
  rw [Round.matched, h.visits.marked, stateMove_reach_iff hruns.match_lt, hruns.reach_iff]

/-- A round at a start is right if it is counted and no match comes before it. -/
lemma Round.right_of_start (hruns : Runs s re r) (hcount : r.Counted s) (hread : c.read = none)
    (hpos : c.pos = c.start) (hlen : c.before.length = re.states.length) (hexact : c.Exact s)
    (hsought : r.Sought s c.start c.pos) : c.Right re s r := by
  have hgen := Round.gen_eq hexact.nonneg (hexact.range hcount hsought)
  refine ⟨hexact, hsought, ?_⟩
  rw [Round.after, Round.seeded, hread, hpos, hgen]
  exact visits_start hlen hexact.stamped hexact.nonneg hruns.start_lt

/-- The first round is right. -/
lemma firstRound_right (hruns : Runs s re r) (hcount : r.Counted s) :
    (firstRound re).Right re s r := by
  refine Round.right_of_start hruns hcount rfl rfl (by simp [firstRound])
    (firstRound_exact re s) ?_
  constructor
  · exact Nat.le_refl 0
  · exact Nat.zero_le _
  · intro i j _ hbefore
    simp only [firstRound] at hbefore
    omega

/-- The round behind the next code point is right. -/
lemma Round.Right.next (h : c.Right re s r) (hruns : Runs s re r) (hcount : r.Counted s)
    (hund : r.Undisturbed s re) (hm : c.matched re s = false) {cp : ℕ}
    (hcp : s[c.pos]? = some cp) : (c.next re s cp).Right re s r := by
  have hno : ¬ r.Matches s c.start c.pos := by
    rw [← h.matched_iff hruns, hm]
    simp
  have hlt : c.pos < s.length := (List.getElem?_eq_some_iff.mp hcp).1
  have hrange := h.exact.range hcount h.sought
  have hgen := Round.gen_eq h.exact.nonneg hrange
  have hexact : (c.next re s cp).Exact s := h.exact.next h.sought.start_le hrange cp
  have hsought : r.Sought s c.start (c.pos + 1) := by
    constructor
    · exact Nat.le_succ_of_le h.sought.start_le
    · exact hlt
    · intro i j hij hbefore
      by_cases hhere : i = c.start ∧ j = c.pos
      · obtain ⟨rfl, rfl⟩ := hhere
        exact hno hij
      · exact h.sought.unmatched i j hij (by omega)
  have hgen' : (c.next re s cp).gen = c.gen + 1 :=
    Round.gen_eq hexact.nonneg (hexact.range hcount hsought)
  have hpos : 0 < c.gen := by
    have := h.exact.nonneg
    omega
  refine ⟨hexact, hsought, ?_⟩
  rw [Round.after, Round.seeded, hgen']
  exact h.visits.next (hund _ _ h.sought hno) hpos hcp h.sought.start_le

/-- The round at the next start is right. -/
lemma Round.Right.restart (h : c.Right re s r) (hruns : Runs s re r) (hcount : r.Counted s)
    (hm : c.matched re s = false) (hpos : s.length ≤ c.pos) (hstart : c.start < s.length) :
    (c.restart re s).Right re s r := by
  have hno : ¬ r.Matches s c.start c.pos := by
    rw [← h.matched_iff hruns, hm]
    simp
  have hend : c.pos = s.length := Nat.le_antisymm h.sought.le_length hpos
  refine Round.right_of_start hruns hcount rfl rfl h.visits.length
    (h.exact.restart hend hstart (h.exact.range hcount h.sought)) ?_
  constructor
  · exact Nat.le_refl _
  · exact hstart
  · intro i j hij hbefore
    simp only [Round.restart] at hbefore
    obtain ⟨hle, hlen⟩ := hruns.bounds hij (by omega)
    by_cases hhere : i = c.start ∧ j = c.pos
    · obtain ⟨rfl, rfl⟩ := hhere
      exact hno hij
    · exact h.sought.unmatched i j hij (by omega)

/-- Every round of a search is right. -/
theorem SearchRound.right (hruns : Runs s re r) (hcount : r.Counted s)
    (hund : r.Undisturbed s re) (h : SearchRound re s c) : c.Right re s r := by
  induction h with
  | first => exact firstRound_right hruns hcount
  | next _ hm hcp ih => exact ih.next hruns hcount hund hm hcp
  | restart _ hm hpos hstart ih => exact ih.restart hruns hcount hm hpos hstart

/-- The search finds a match exactly when the tree has one. -/
theorem schRegexSearch_iff (hruns : Runs s re r) (hcount : r.Counted s)
    (hund : r.Undisturbed s re) : schRegexSearch re s s.length = true ↔ r.Occurs s := by
  have hne : re.states ≠ [] := by
    intro hnil
    have hlt := hruns.start_lt
    rw [hnil] at hlt
    exact absurd hlt (Nat.not_lt_zero _)
  rw [schRegexSearch_iff_round hne]
  constructor
  · rintro ⟨c, h, hm⟩
    have hright := h.right hruns hcount hund
    exact ⟨c.start, c.pos, hright.sought.start_le.trans hright.sought.le_length,
      (hright.matched_iff hruns).mp hm⟩
  · rintro ⟨i, j, hi, hij⟩
    by_contra hnone
    push Not at hnone
    have hun : ∀ c, SearchRound re s c → c.matched re s = false := fun c h => by
      simpa using hnone c h
    obtain ⟨hle, hlen⟩ := hruns.bounds hij hi
    obtain ⟨c, h, rfl, rfl⟩ := SearchRound.all hun i hi j hlen hle
    have hm := ((h.right hruns hcount hund).matched_iff hruns).mpr hij
    rw [hun c h] at hm
    exact absurd hm (by simp)

end Search

/-! ## Patterns and texts -/

/-- What an accepted pattern is compiled from. -/
lemma schRegexCompile_ok {table : List UcProp} {pattern : Bytes} {re : SchRegex} {r : Ra}
    {c : PCtx} (h : schRegexCompile table pattern = .ok re)
    (hr : regexTree table pattern = (some r, c)) : emitRegex r = .ok re := by
  unfold schRegexCompile at h
  rw [hr] at h
  simp only at h
  split_ifs at h
  cases he : emitRegex r with
  | error msg =>
    rw [he] at h
    cases h
  | ok re' =>
    rw [he] at h
    rw [Except.ok.inj h]

/-- The search decodes a text of valid UTF-8 to its characters. -/
lemma schRegexIsMatch_encode (re : SchRegex) {text : List Char} (hlen : text.length ≤ 2147483647) :
    schRegexIsMatch re (text.flatMap String.utf8EncodeChar) =
      schRegexSearch re (text.map Char.toNat) (text.map Char.toNat).length := by
  have hwrap : wrapInt ((text.map Char.toNat).length : ℤ) = (text.map Char.toNat).length := by
    rw [List.length_map]
    exact wrapInt_of_lt (by omega) (by omega)
  rw [schRegexIsMatch, decodeCps_encode, hwrap]

/-- The automaton of the pattern `a?b`. -/
def optionalA : SchRegex where
  states := [{ RState.new .split with a := some 1, b := some 2 },
    { RState.new .char with ranges := [⟨0x61, 0x61⟩], a := some 2 },
    { RState.new .char with ranges := [⟨0x62, 0x62⟩], a := some 3 }, .new .match]
  start := 0
  «match» := 3

end Teptris
