import Teptris.Schema.RegexEmit

/-!
# The automaton of a tree

Every case of `emit_node` gives a fragment that realises what its tree matches
(`emitNode_emits`), provided the empty pieces of each sequence stand in front and the ranges of
each class ascend.  For the whole automaton this says that the match state is reached from the
start exactly along the matches of the tree (`emitRegex_reach_iff`).
-/

namespace Teptris

open Machine

/-! ## Classes -/

/-- The comparison of `cls_match` with one range. -/
def rangeCompare (ranges : List RaRange) (cp i : ℕ) : Ordering :=
  match ranges[i]? with
  | some r => if cp < r.lo then .lt else if r.hi < cp then .gt else .eq
  | none => .lt

/-- Equal compares a range that holds the code point. -/
lemma rangeCompare_eq_iff {ranges : List RaRange} {cp i : ℕ} :
    rangeCompare ranges cp i = .eq ↔ ∃ r, ranges[i]? = some r ∧ r.lo ≤ cp ∧ cp ≤ r.hi := by
  unfold rangeCompare
  cases ranges[i]? with
  | none => simp
  | some r => grind

/-- The ranges of an ascending list, two at a time. -/
lemma ascendingRanges_pairwise {ranges : List RaRange} (h : ascendingRanges ranges = true) :
    (∀ r ∈ ranges, r.lo ≤ r.hi) ∧ ranges.Pairwise fun r t => r.hi < t.lo := by
  induction ranges with
  | nil => exact ⟨by simp, .nil⟩
  | cons r rs ih =>
    rw [ascendingRanges, Bool.and_eq_true, Bool.and_eq_true, List.all_eq_true] at h
    obtain ⟨⟨hr, hlt⟩, hrs⟩ := h
    obtain ⟨hne, hpw⟩ := ih hrs
    constructor
    · intro t ht
      rcases List.mem_cons.mp ht with rfl | ht
      · exact of_decide_eq_true hr
      · exact hne t ht
    · refine .cons ?_ hpw
      intro t ht
      exact of_decide_eq_true (hlt t ht)

/-- The binary search finds a range of an ascending class exactly when there is one. -/
lemma bisect_inRanges {ranges : List RaRange} (h : ascendingRanges ranges = true) (cp : ℕ) :
    (Bisect.bisect (rangeCompare ranges cp) ranges.length).isSome ↔ InRanges ranges cp := by
  obtain ⟨hne, hpw⟩ := ascendingRanges_pairwise h
  have hsorted := List.pairwise_iff_getElem.mp hpw
  rw [Bisect.bisect_isSome_iff]
  · simp only [rangeCompare_eq_iff]
    constructor
    · rintro ⟨k, _, r, hr, hcp⟩
      exact ⟨r, List.mem_of_getElem? hr, hcp⟩
    · rintro ⟨r, hr, hcp⟩
      obtain ⟨k, hk, rfl⟩ := List.mem_iff_getElem.mp hr
      exact ⟨k, hk, ranges[k], List.getElem?_eq_getElem hk, hcp⟩
  · intro i k hik hk he
    obtain ⟨r, hr, hcp⟩ := rangeCompare_eq_iff.mp he
    have hi : i < ranges.length := by omega
    have hlt := hsorted i k hi hk hik
    have hle := hne ranges[i] (List.getElem_mem hi)
    rw [List.getElem?_eq_getElem hk, Option.some.injEq] at hr
    subst hr
    have hge : ¬ cp < ranges[i].lo := by omega
    have hgt : ranges[i].hi < cp := by omega
    unfold rangeCompare
    simp only [List.getElem?_eq_getElem hi, if_neg hge, if_pos hgt]
  · intro i k hki hi he
    obtain ⟨r, hr, hcp⟩ := rangeCompare_eq_iff.mp he
    have hk : k < ranges.length := by omega
    have hlt := hsorted k i hk hi hki
    rw [List.getElem?_eq_getElem hk, Option.some.injEq] at hr
    subst hr
    have hgt : cp < ranges[i].lo := by omega
    unfold rangeCompare
    simp only [List.getElem?_eq_getElem hi, if_pos hgt]

/-- `cls_match` on ascending ranges. -/
lemma clsMatch_iff {st : RState} (hany : st.any = false) (h : ascendingRanges st.ranges = true)
    (cp : ℕ) : clsMatch st cp = true ↔ ClassAccepts st.ranges st.negated cp := by
  have hb := bisect_inRanges h cp
  unfold clsMatch ClassAccepts
  rw [hany, if_neg (by simp)]
  change (if st.negated = true then
    !(Bisect.bisect (rangeCompare st.ranges cp) st.ranges.length).isSome
    else (Bisect.bisect (rangeCompare st.ranges cp) st.ranges.length).isSome) = true ↔ _
  rw [← hb]
  cases st.negated <;> simp

/-! ## Emitters -/

/-- An emitter puts a fragment behind the states there are; it has an entry unless `eps`. -/
def Emits (s : List ℕ) (emit : List RState → Emitted) (eps : Bool) (R : ℕ → ℕ → Prop) : Prop :=
  ∀ n f n', emit n = .ok (f, n') →
    Keeps n n' ∧ (f.entry = none ↔ eps = true) ∧ Realises s n.length n' f R

/-- Emitters of one state. -/
lemma emits_state {s : List ℕ} {st : RState} {R : ℕ → ℕ → Prop} (hk : st.kind ≠ .split)
    (ha : ∀ t i j, ({ st with a := some t } : RState).Leaves s false i j ↔ R i j) :
    Emits s (emitState · st) false R := by
  intro n f n' h
  obtain ⟨hkeep, hne, hr⟩ := Realises.state hk ha h
  exact ⟨hkeep, by simp [hne], hr⟩

/-- A state that reads a code point. -/
lemma emits_char {s : List ℕ} {st : RState} {p : ℕ → Prop} (hk : st.kind = .char)
    (hp : ∀ x, clsMatch st x = true ↔ p x) : Emits s (emitState · st) false (Reads s p) := by
  refine emits_state (by simp [hk]) ?_
  intro t i j
  unfold RState.Leaves
  simp only [hk]
  constructor
  · rintro ⟨-, x, hx, hcm, hj⟩
    exact ⟨x, hx, (hp x).mp hcm, hj⟩
  · rintro ⟨x, hx, hpx, hj⟩
    exact ⟨trivial, x, hx, (hp x).mpr hpx, hj⟩

/-- A step of an `Except` computation that succeeds. -/
lemma bind_ok {ε α β : Type} {x : Except ε α} {f : α → Except ε β} {b : β}
    (h : (x >>= f) = .ok b) : ∃ a, x = .ok a ∧ f a = .ok b := by
  cases x with
  | error e => exact absurd h (by simp [bind, Except.bind])
  | ok a => exact ⟨a, rfl, h⟩

section Repetition

variable {s : List ℕ} {emit : List RState → Emitted} {eps : Bool} {R A : ℕ → ℕ → Prop}

/-- A piece with the same entry as the fragment in front of it, as to being there. -/
lemma or_of_none_iff {a b : Option ℕ} (h : a = none → b = none) : a.or b = a := by
  cases a with
  | none => simpa using h rfl
  | some _ => rfl

/-- The copies of a piece come one behind the other. -/
lemma emitCopies_emits (hemit : Emits s emit eps R) {n₀ : List RState} (k : ℕ) :
    ∀ {A f n f' n'}, Keeps n₀ n → (f.entry = none ↔ eps = true) → Realises s n₀.length n f A →
      emitCopies emit k f n = .ok (f', n') →
        Keeps n₀ n' ∧ (f'.entry = none ↔ eps = true) ∧
          Realises s n₀.length n' f' (Relation.Comp A (power R k)) := by
  induction k with
  | zero =>
    intro A f n f' n' hk he hf h
    obtain ⟨rfl, rfl⟩ : f = f' ∧ n = n' := by simpa [emitCopies] using h
    refine ⟨hk, he, hf.congr ?_⟩
    intro i j
    constructor
    · exact fun h => ⟨j, h, rfl⟩
    · rintro ⟨x, hx, rfl⟩
      exact hx
  | succ k ih =>
    intro A f n f' n' hk he hf h
    rw [emitCopies] at h
    obtain ⟨⟨piece, n₁⟩, hp, h⟩ := bind_ok h
    obtain ⟨hk₁, he₁, hg⟩ := hemit n piece n₁ hp
    have hor : f.entry.or piece.entry = f.entry :=
      or_of_none_iff fun hf => he₁.mpr (he.mp hf)
    have happ := hf.thread hk₁ hg (fun hne h => hne (he.mpr (he₁.mp h)))
    rw [hor] at happ
    have htail : ∀ sl ∈ f.tail, n₀.length ≤ sl.state := fun sl hsl => (hf.tail sl hsl).1
    obtain ⟨hk', he', hr'⟩ := ih (f := { f with tail := piece.tail })
      ((hk.trans hk₁).thread htail piece.entry) he happ h
    rw [Relation.comp_assoc] at hr'
    exact ⟨hk', he', hr'⟩

/-- The mandatory copies. -/
lemma emitMandatory_emits (hemit : Emits s emit eps R) {qmin : ℕ} :
    Emits s (emitMandatory emit qmin) (qmin = 0 || eps) (power R qmin) := by
  intro n f n' h
  unfold emitMandatory at h
  cases qmin with
  | zero =>
    obtain ⟨rfl, rfl⟩ : Frag.eps = f ∧ n = n' := by simpa using h
    exact ⟨Keeps.refl n, by simp [Frag.eps], Realises.eps_frag s n⟩
  | succ k =>
    obtain ⟨⟨first, n₁⟩, hp, h⟩ := bind_ok h
    obtain ⟨hk₁, he₁, hg⟩ := hemit n first n₁ hp
    obtain ⟨hk', he', hr'⟩ := emitCopies_emits hemit k hk₁ he₁ hg h
    exact ⟨hk', by simpa using he', hr'⟩

/-- A split, the fragment in front threaded to it and a body behind it. -/
lemma split_body (hemit : Emits s emit eps R) {n n₁ n₂ : List RState} {f body : Frag} {q : ℕ}
    (hsplit : nstate n (.new .split) = .ok (q, n₁)) (htail : ∀ sl ∈ f.tail, sl.state < n.length)
    (hbody : emit (fragThread n₁ f.tail (some q)) = .ok (body, n₂)) :
    q = n.length ∧ Keeps (fragThread n f.tail (some q)) (n₂.modify q (·.aim false body.entry)) ∧
      (body.entry = none ↔ eps = true) ∧
      Realises s (n.length + 1) (n₂.modify q (·.aim false body.entry)) body R ∧
      (n₂.modify q (·.aim false body.entry))[n.length]? =
        some { RState.new .split with a := body.entry } := by
  obtain ⟨rfl, rfl⟩ := nstate_ok hsplit
  obtain ⟨hk, he, hr⟩ := hemit _ body n₂ hbody
  have hlen : (fragThread (n ++ [RState.new .split]) f.tail (some n.length)).length =
      n.length + 1 := by
    simp
  have hnew : n₂[n.length]? = some (RState.new .split) := by
    rw [hk.get n.length (by omega), getElem?_fragThread]
    simp only [List.getElem?_concat_length, Option.map_some, Option.some.injEq]
    refine RState.patch_of_notMem ?_
    intro sl hsl heq
    have := htail sl hsl
    omega
  refine ⟨rfl, ?_, he, ?_, ?_⟩
  · constructor
    · have := hk.le
      rw [List.length_modify, length_fragThread]
      omega
    · intro q hq
      rw [length_fragThread] at hq
      have hne : ¬ n.length = q := by omega
      rw [List.getElem?_modify, hk.get q (by omega), getElem?_fragThread, getElem?_fragThread,
        List.getElem?_append_left hq]
      simp [hne]
  · rw [hlen] at hr
    refine hr.congr_states (List.length_modify _ _ _) ?_
    intro q hq hq'
    have hne : ¬ n.length = q := by omega
    rw [List.getElem?_modify]
    simp [hne]
  · rw [List.getElem?_modify, hnew]
    simp [RState.aim]

/-- The optional copies behind a fragment. -/
lemma emitOptional_emits (hemit : Emits s emit eps R) {n₀ : List RState} (k : ℕ) :
    ∀ {A f n f' n'}, Keeps n₀ n → (eps = true → f.entry = none) → Realises s n₀.length n f A →
      emitOptional emit k f n = .ok (f', n') →
        Keeps n₀ n' ∧ (f'.entry = none ↔ f.entry = none ∧ (k = 0 ∨ eps = true)) ∧
          Realises s n₀.length n' f'
            (Relation.Comp A (power (fun i j => R i j ∨ i = j) k)) := by
  induction k with
  | zero =>
    intro A f n f' n' hk he hf h
    obtain ⟨rfl, rfl⟩ : f = f' ∧ n = n' := by simpa [emitOptional] using h
    refine ⟨hk, by simp, hf.congr ?_⟩
    intro i j
    constructor
    · exact fun h => ⟨j, h, rfl⟩
    · rintro ⟨x, hx, rfl⟩
      exact hx
  | succ k ih =>
    intro A f n f' n' hk he hf h
    rw [emitOptional] at h
    obtain ⟨⟨q, n₁⟩, hq, h⟩ := bind_ok h
    obtain ⟨⟨body, n₂⟩, hb, h⟩ := bind_ok h
    obtain ⟨hqn, hkeep, heb, hrb, hst⟩ :=
      split_body hemit hq (fun sl hsl => (hf.tail sl hsl).2) hb
    have hlo : ∀ sl ∈ f.tail, n₀.length ≤ sl.state := fun sl hsl => (hf.tail sl hsl).1
    have hk' := (hk.thread hlo (some q)).trans hkeep
    -- the fragment so far and the split behind it, which is an entry when the body has one
    have hstep : Realises s n₀.length (n₂.modify q (·.aim false body.entry))
        { entry := if f.entry.isNone ∧ body.entry.isSome then some q else f.entry
          tail := ⟨q, true⟩ :: body.tail } (Relation.Comp A fun i j => R i j ∨ i = j) := by
      cases hbe : body.entry with
      | some e =>
        rw [hbe] at hrb hst
        have happ := hf.append (hrb.optional hbe hst rfl rfl) (by simp) (fun q' hq' => by
          rw [← hbe, hkeep.get q' (by rw [length_fragThread]; exact hq'), getElem?_fragThread, hqn])
        subst hqn
        have hor : (if f.entry.isNone = true ∧ (some e).isSome = true then some n.length
            else f.entry) = f.entry.or (some n.length) := by
          cases f.entry <;> simp
        rw [hor]
        exact happ
      | none =>
        have hfe : f.entry = none := he (heb.mp hbe)
        rw [hbe] at hrb
        constructor
        · have := hk'.le
          simpa using this
        · intro sl hsl
          have := hrb.le
          have := hf.le
          rcases List.mem_cons.mp hsl with rfl | hsl
          · constructor <;> simp only <;> omega
          · have := hrb.tail sl hsl
            omega
        · intro _ i j
          constructor
          · rintro ⟨x, hx, hx' | rfl⟩
            · rw [hf.eps hfe] at hx
              rw [hrb.eps hbe] at hx'
              exact hx.trans hx'
            · exact (hf.eps hfe i x).mp hx
          · rintro rfl
            exact ⟨i, (hf.eps hfe i i).mpr rfl, Or.inr rfl⟩
        · intro e hentry
          exact absurd hentry (by simp [hfe])
    obtain ⟨hk'', he'', hr''⟩ := ih hk' (by
      intro heps
      simp [he heps, heb.mpr heps]) hstep h
    rw [Relation.comp_assoc] at hr''
    refine ⟨hk'', ?_, hr''⟩
    rw [he'']
    cases hbe : body.entry with
    | none =>
      have heps := heb.mp hbe
      simp [heps, he heps]
    | some e =>
      have heps : ¬ eps = true := fun h => by simp [heb.mpr h] at hbe
      cases f.entry <;> simp [heps]

/-- The unbounded tail behind a fragment; its body has an entry. -/
lemma emitUnbounded_emits (hemit : Emits s emit eps R) {n₀ n n' : List RState} {f f' : Frag}
    {qmin : ℕ} (hk : Keeps n₀ n) (he : f.entry = none ↔ qmin = 0 ∨ eps = true)
    (hf : Realises s n₀.length n f A) (h : emitUnbounded emit qmin f n = .ok (f', n')) :
    eps = false ∧ Keeps n₀ n' ∧ f'.entry ≠ none ∧
      Realises s n₀.length n' f' (Relation.Comp A (Relation.ReflTransGen R)) := by
  unfold emitUnbounded at h
  obtain ⟨⟨q, n₁⟩, hq, h⟩ := bind_ok h
  obtain ⟨⟨body, n₂⟩, hb, h⟩ := bind_ok h
  obtain ⟨hqn, hkeep, heb, hrb, hst⟩ :=
    split_body hemit hq (fun sl hsl => (hf.tail sl hsl).2) hb
  cases hbe : body.entry with
  | none =>
    simp only [hbe] at h
    exact absurd h (by simp)
  | some e =>
    have heps : eps = false := by
      cases heps : eps with
      | false => rfl
      | true => exact absurd (heb.mpr heps) (by simp [hbe])
    simp only [hbe, Except.ok.injEq, Prod.mk.injEq] at h
    obtain ⟨rfl, rfl⟩ := h
    rw [hbe] at hrb hst hkeep
    have hbody : ∀ sl ∈ body.tail, n.length ≤ sl.state := by
      intro sl hsl
      have := (hrb.tail sl hsl).1
      omega
    have hbody' : ∀ sl ∈ body.tail, (fragThread n f.tail (some q)).length ≤ sl.state := by
      rw [length_fragThread]
      exact hbody
    have hkeep' := hkeep.thread hbody' (some q)
    have hlo : ∀ sl ∈ f.tail, n₀.length ≤ sl.state := fun sl hsl => (hf.tail sl hsl).1
    have hk' := (hk.thread hlo (some q)).trans hkeep'
    have hor : (if 1 ≤ qmin then f.entry else some q) = f.entry.or (some q) := by
      by_cases hq0 : qmin = 0
      · rw [if_neg (by omega), he.mpr (Or.inl hq0)]
        rfl
      · have hne : f.entry ≠ none := fun hn => by
          rcases he.mp hn with h0 | h1
          · exact hq0 h0
          · simp [heps] at h1
        rw [if_pos (by omega)]
        cases hfe : f.entry with
        | none => exact absurd hfe hne
        | some _ => rfl
    rw [hor]
    refine ⟨heps, hk', by simp, ?_⟩
    subst hqn
    refine hf.append (hrb.loop hbe hst rfl rfl) (by simp) ?_
    intro p hp
    rw [hkeep'.get p (by rw [length_fragThread]; exact hp), getElem?_fragThread]

/-- A repetition. -/
lemma emitQuant_emits {qmin : ℕ} {qmax : Option ℕ}
    (hemit : qmax ≠ some 0 → Emits s emit eps R) (hq : ∀ m, qmax = some m → qmin ≤ m) :
    Emits s (emitQuant emit qmin qmax) (qmax = some 0 || eps)
      (fun i j => ∃ k, qmin ≤ k ∧ (∀ m, qmax = some m → k ≤ m) ∧ power R k i j) := by
  intro n f n' h
  unfold emitQuant at h
  by_cases h0 : qmax = some 0
  · rw [if_pos h0] at h
    obtain ⟨rfl, rfl⟩ : Frag.eps = f ∧ n = n' := by simpa using h
    refine ⟨Keeps.refl n, by simp [Frag.eps, h0], (Realises.eps_frag s n).congr ?_⟩
    intro i j
    constructor
    · rintro rfl
      exact ⟨0, hq 0 h0, fun m _ => Nat.zero_le m, rfl⟩
    · rintro ⟨k, -, hk, hp⟩
      obtain rfl : k = 0 := Nat.le_zero.mp (hk 0 h0)
      exact hp
  · rw [if_neg h0] at h
    obtain ⟨⟨f₁, n₁⟩, hm, h⟩ := bind_ok h
    obtain ⟨hk₁, he₁, hr₁⟩ := emitMandatory_emits (hemit h0) n f₁ n₁ hm
    rw [Bool.or_eq_true, decide_eq_true_iff] at he₁
    cases hqm : qmax with
    | none =>
      simp only [hqm] at h
      obtain ⟨heps, hk', hne, hr'⟩ := emitUnbounded_emits (hemit h0) hk₁ he₁ hr₁ h
      refine ⟨hk', by simp [hne, heps], hr'.congr ?_⟩
      intro i j
      constructor
      · rintro ⟨x, hx, hj⟩
        obtain ⟨k, hk⟩ := (reflTransGen_iff_power R x j).mp hj
        exact ⟨qmin + k, Nat.le_add_right _ _, by simp, (power_add R qmin k i j).mpr ⟨x, hx, hk⟩⟩
      · rintro ⟨k, hk, -, hp⟩
        obtain ⟨d, rfl⟩ := Nat.exists_eq_add_of_le hk
        obtain ⟨x, hx, hj⟩ := (power_add R qmin d i j).mp hp
        exact ⟨x, hx, (reflTransGen_iff_power R x j).mpr ⟨d, hj⟩⟩
    | some m =>
      have hle : qmin ≤ m := hq m hqm
      have hm0 : m ≠ 0 := fun hz => h0 (by rw [hqm, hz])
      simp only [hqm, if_neg (Nat.not_lt.mpr hle)] at h
      obtain ⟨hk', he', hr'⟩ :=
        emitOptional_emits (hemit h0) (m - qmin) hk₁ (fun heps => he₁.mpr (Or.inr heps)) hr₁ h
      refine ⟨hk', ?_, hr'.congr ?_⟩
      · rw [he', he₁]
        cases eps with
        | true => simp
        | false =>
          simp only [Bool.or_false, Option.some.injEq, decide_eq_true_iff, Bool.false_eq_true,
            or_false]
          omega
      · intro i j
        constructor
        · rintro ⟨x, hx, hj⟩
          obtain ⟨k, hk, hj⟩ := (power_or_eq R (m - qmin) x j).mp hj
          refine ⟨qmin + k, Nat.le_add_right _ _, ?_, (power_add R qmin k i j).mpr ⟨x, hx, hj⟩⟩
          intro m' hm'
          obtain rfl : m = m' := by simpa using hm'
          omega
        · rintro ⟨k, hk, hkm, hp⟩
          obtain ⟨d, rfl⟩ := Nat.exists_eq_add_of_le hk
          obtain ⟨x, hx, hj⟩ := (power_add R qmin d i j).mp hp
          have := hkm m rfl
          exact ⟨x, hx, (power_or_eq R (m - qmin) x j).mpr ⟨d, by omega, hj⟩⟩

end Repetition

/-! ## Sequences -/

/-- The pieces of a sequence behind the fragment of those in front of them. -/
lemma emitSeq_emits {s : List ℕ} {rs : List Ra}
    (hrs : ∀ r ∈ rs, Emits s (emitNode r) r.pureEpsilon (r.Matches s)) {n₀ : List RState} :
    ∀ {A f n f' n'}, Keeps n₀ n →
      (if f.entry = none then epsilonsFirst rs = true else ∀ r ∈ rs, r.pureEpsilon = false) →
      Realises s n₀.length n f A → emitSeq rs f n = .ok (f', n') →
        Keeps n₀ n' ∧ (f'.entry = none ↔ f.entry = none ∧ allEpsilon rs = true) ∧
          Realises s n₀.length n' f' (Relation.Comp A (SeqMatches s rs)) := by
  induction rs with
  | nil =>
    intro A f n f' n' hk _ hf h
    obtain ⟨rfl, rfl⟩ : f = f' ∧ n = n' := by simpa [emitSeq] using h
    refine ⟨hk, by simp [allEpsilon], hf.congr ?_⟩
    intro i j
    constructor
    · exact fun h => ⟨j, h, rfl⟩
    · rintro ⟨x, hx, rfl⟩
      exact hx
  | cons r rs ih =>
    intro A f n f' n' hk hc hf h
    rw [emitSeq] at h
    obtain ⟨⟨piece, n₁⟩, hp, h⟩ := bind_ok h
    obtain ⟨hk₁, he₁, hg⟩ := hrs r List.mem_cons_self n piece n₁ hp
    have hsome : f.entry ≠ none → piece.entry ≠ none := by
      intro hne hpe
      rw [if_neg hne] at hc
      rw [he₁, hc r List.mem_cons_self] at hpe
      exact absurd hpe (by simp)
    have htail : ∀ sl ∈ f.tail, n₀.length ≤ sl.state := fun sl hsl => (hf.tail sl hsl).1
    have hc' : if f.entry.or piece.entry = none then epsilonsFirst rs = true
        else ∀ q ∈ rs, q.pureEpsilon = false := by
      cases hfe : f.entry with
      | some e =>
        rw [if_neg (by simp [hfe])] at hc
        rw [if_neg (by simp)]
        exact fun q hq => hc q (List.mem_cons_of_mem r hq)
      | none =>
        rw [if_pos hfe, epsilonsFirst] at hc
        cases hre : r.pureEpsilon with
        | true =>
          rw [hre, if_pos rfl] at hc
          rw [if_pos (by simpa using he₁.mpr hre)]
          exact hc
        | false =>
          rw [hre, if_neg (by simp), List.all_eq_true] at hc
          have hpe : piece.entry ≠ none := fun hn => by simp [he₁.mp hn] at hre
          rw [if_neg (by simpa using hpe)]
          exact fun q hq => by simpa using hc q hq
    obtain ⟨hk', he', hr'⟩ := ih (fun q hq => hrs q (List.mem_cons_of_mem r hq))
      ((hk.trans hk₁).thread htail piece.entry) hc' (hf.thread hk₁ hg hsome) h
    rw [Relation.comp_assoc] at hr'
    refine ⟨hk', ?_, hr'⟩
    rw [he', allEpsilon, Bool.and_eq_true]
    simp only [Option.or_eq_none_iff, he₁, and_assoc]

/-! ## Alternations -/

/-- The slots of a hooked branch are those of its tail and, without an entry, the slot it hangs
on. -/
lemma mem_hookBranch {q : ℕ} {isB : Bool} {b : Frag} {merged : List PSlot} {n : List RState}
    {sl : PSlot} : sl ∈ (hookBranch q isB b merged n).1 ↔
      sl ∈ merged ∨ (b.entry = none ∧ sl = ⟨q, isB⟩) ∨ sl ∈ b.tail := by
  unfold hookBranch
  cases b.entry with
  | none => simp
  | some e => simp

/-- Hooking a branch adds no state. -/
@[simp] lemma length_hookBranch (q : ℕ) (isB : Bool) (b : Frag) (merged : List PSlot)
    (n : List RState) : (hookBranch q isB b merged n).2.length = n.length := by
  unfold hookBranch
  cases b.entry with
  | none => rfl
  | some e => exact List.length_modify _ _ _

/-- Hooking a branch changes the state it hangs on. -/
lemma getElem?_hookBranch_of_ne {q p : ℕ} {isB : Bool} {b : Frag} {merged : List PSlot}
    {n : List RState} (h : p ≠ q) : (hookBranch q isB b merged n).2[p]? = n[p]? := by
  unfold hookBranch
  cases b.entry with
  | none => rfl
  | some e =>
    have hq : ¬ q = p := fun hqp => h hqp.symm
    simp only [List.getElem?_modify]
    simp [hq]

/-- The state a branch hangs on. -/
lemma getElem?_hookBranch_self {q : ℕ} {isB : Bool} {b : Frag} {merged : List PSlot}
    {n : List RState} {st : RState} (h : n[q]? = some st) :
    (hookBranch q isB b merged n).2[q]? =
      some (if b.entry = none then st else st.aim isB b.entry) := by
  unfold hookBranch
  cases b.entry with
  | none => simpa using h
  | some e =>
    simp only [List.getElem?_modify, h]
    simp

/-- The branches behind the first one, hung on the second slot of the split `prev`. -/
structure Hangs (s : List ℕ) (prev : ℕ) (merged : List PSlot) (n : List RState)
    (merged' : List PSlot) (n' : List RState) (R : ℕ → ℕ → Prop) : Prop where
  /-- States are added. -/
  le : n.length ≤ n'.length
  /-- Of the states before them only the split changes. -/
  get : ∀ q < n.length, q ≠ prev → n'[q]? = n[q]?
  /-- It changes in its second slot. -/
  split : ∀ st, n[prev]? = some st → ∃ b, n'[prev]? = some { st with b := b }
  /-- The slots there were stay. -/
  old : ∀ sl ∈ merged, sl ∈ merged'
  /-- The new slots belong to the branches or are the second slot of the split. -/
  tail : ∀ sl ∈ merged', sl ∈ merged ∨ sl = ⟨prev, true⟩ ∨
    (n.length ≤ sl.state ∧ sl.state < n'.length)
  /-- The second slot of the split leads to the branches. -/
  passage : ∀ states t goal, Agrees states n' n.length merged' t →
    states[prev]? = (n'[prev]?).map (RState.patch merged' (some t) prev) →
    Outside goal n.length n'.length →
    ∃ st e, states[prev]? = some st ∧ st.b = some e ∧ Passage (Move s states) goal e t R

/-- A branch on new states is entered from an automaton that agrees with later ones. -/
lemma Realises.enter_later {s : List ℕ} {n n₁ n' states : List RState} {b : Frag}
    {R : ℕ → ℕ → Prop} {merged' : List PSlot} {t : ℕ} {goal : ℕ × ℕ → Prop}
    (hb : Realises s n.length n₁ b R) (hle : n₁.length ≤ n'.length)
    (hget : ∀ q, n.length ≤ q → q < n₁.length → n'[q]? = n₁[q]?)
    (htail : ∀ q isB, n.length ≤ q → q < n₁.length → (⟨q, isB⟩ ∈ merged' ↔ ⟨q, isB⟩ ∈ b.tail))
    (hM : Agrees states n' n.length merged' t) (hg : Outside goal n.length n'.length) :
    Passage (Move s states) goal (b.entry.getD t) t R := by
  refine hb.enter ?_ ?_
  · intro q hq hq'
    rw [hM q hq (by omega), hget q hq hq']
    cases n₁[q]? with
    | none => rfl
    | some st =>
      simp only [Option.map_some, Option.some.injEq]
      exact RState.patch_congr fun isB => htail q isB hq hq'
  · intro q i hq hq'
    exact hg q i hq (by omega)

/-- The loop over the branches behind the first one. -/
lemma emitOthers_hangs {s : List ℕ} {rs : List Ra}
    (hrs : ∀ r ∈ rs, Emits s (emitNode r) r.pureEpsilon (r.Matches s)) (hne : rs ≠ []) :
    ∀ {prev st merged n merged' n'}, n[prev]? = some st → (⟨prev, true⟩ : PSlot) ∉ merged →
      (∀ sl ∈ merged, sl.state < n.length) → emitOthers rs prev merged n = .ok (merged', n') →
        Hangs s prev merged n merged' n' (AnyMatches s rs) := by
  induction rs with
  | nil => exact absurd rfl hne
  | cons r rs ih =>
    intro prev st merged n merged' n' hst hprev hmerged h
    have hlt : prev < n.length := (List.getElem?_eq_some_iff.mp hst).1
    rw [emitOthers] at h
    obtain ⟨⟨b, n₁⟩, hb, h⟩ := bind_ok h
    obtain ⟨hk₁, _, hr⟩ := hrs r List.mem_cons_self n b n₁ hb
    have hle₁ := hk₁.le
    have hst₁ : n₁[prev]? = some st := by rw [hk₁.get prev hlt, hst]
    by_cases hnil : rs = []
    · -- the last branch hangs on the split itself
      subst hnil
      simp only [List.isEmpty_nil, if_true, Except.ok.injEq] at h
      have hmem := fun sl => @mem_hookBranch prev true b merged n₁ sl
      have hself := @getElem?_hookBranch_self prev true b merged n₁ st hst₁
      have hget := fun q hq => @getElem?_hookBranch_of_ne prev q true b merged n₁ hq
      have hlen := length_hookBranch prev true b merged n₁
      simp only [h] at hmem hself hget hlen
      constructor
      · omega
      · intro q hq hqp
        rw [hget q hqp, hk₁.get q hq]
      · intro st' hst'
        obtain rfl : st = st' := by simpa [hst] using hst'
        rw [hself]
        cases b.entry with
        | none => exact ⟨st.b, rfl⟩
        | some e => exact ⟨some e, rfl⟩
      · exact fun sl hsl => (hmem sl).mpr (Or.inl hsl)
      · intro sl hsl
        rcases (hmem sl).mp hsl with hsl | ⟨-, hsl⟩ | hsl
        · exact Or.inl hsl
        · exact Or.inr (Or.inl hsl)
        · have := hr.tail sl hsl
          right; right
          omega
      · intro states t goal hM hp hg
        rw [hself, Option.map_some] at hp
        refine ⟨_, b.entry.getD t, hp, ?_, ?_⟩
        · cases hbe : b.entry with
          | none =>
            have hm : (⟨prev, true⟩ : PSlot) ∈ merged' :=
              (hmem _).mpr (Or.inr (Or.inl ⟨hbe, rfl⟩))
            simp [RState.patch, hm]
          | some e =>
            have hm : (⟨prev, true⟩ : PSlot) ∉ merged' := by
              intro hm
              rcases (hmem _).mp hm with hm | ⟨hn, -⟩ | hm
              · exact hprev hm
              · simp [hbe] at hn
              · have : n.length ≤ prev := (hr.tail _ hm).1
                omega
            simp [RState.patch, RState.aim, hm]
        · refine (hr.enter_later (by omega) ?_ ?_ hM hg).congr ?_
          · intro q hq _
            exact hget q (by omega)
          · intro q isB hq _
            constructor
            · intro hm
              rcases (hmem _).mp hm with hm | ⟨-, heq⟩ | hm
              · have : q < n.length := hmerged _ hm
                omega
              · have : q = prev := congrArg PSlot.state heq
                omega
              · exact hm
            · exact fun hm => (hmem _).mpr (Or.inr (Or.inr hm))
          · intro i j
            simp [AnyMatches]
    · -- the branch gets a split of its own, whose second slot leads to the others
      simp only [List.isEmpty_iff, if_neg hnil] at h
      obtain ⟨⟨p, n₂⟩, hs, h⟩ := bind_ok h
      obtain ⟨hp, hn₂⟩ := nstate_ok hs
      generalize hn₃ : n₂.modify prev (·.aim true (some p)) = n₃ at h
      have hlen₃ : n₃.length = n₁.length + 1 := by
        rw [← hn₃, List.length_modify, hn₂]
        simp
      have hget₃ : ∀ q, q ≠ prev → q < n₁.length → n₃[q]? = n₁[q]? := by
        intro q hq hq'
        have hne' : ¬ prev = q := fun h => hq h.symm
        rw [← hn₃, hn₂, List.getElem?_modify, List.getElem?_append_left hq']
        simp [hne']
      have hprev₃ : n₃[prev]? = some { st with b := some p } := by
        rw [← hn₃, hn₂, List.getElem?_modify, List.getElem?_append_left (by omega), hst₁]
        simp [RState.aim]
      have hnew₃ : n₃[p]? = some (RState.new .split) := by
        have hne' : ¬ prev = p := by omega
        rw [← hn₃, hn₂, List.getElem?_modify, hp]
        rw [hp] at hne'
        simp [hne']
      have hmem := fun {sl} => @mem_hookBranch p false b merged n₃ sl
      have hself := @getElem?_hookBranch_self p false b merged _ _ hnew₃
      have hge₃ : ∀ q, q ≠ p → (hookBranch p false b merged n₃).2[q]? = n₃[q]? :=
        fun q hq => getElem?_hookBranch_of_ne hq
      have hlen₄ := length_hookBranch p false b merged n₃
      generalize hookBranch p false b merged n₃ = hooked at h hmem hself hge₃ hlen₄
      obtain ⟨merged₁, n₄⟩ := hooked
      simp only at h hmem hself hge₃ hlen₄
      have hbt : ∀ sl ∈ b.tail, n.length ≤ sl.state ∧ sl.state < p := by
        intro sl hsl
        have := hr.tail sl hsl
        omega
      have hih := ih (fun q hq => hrs q (List.mem_cons_of_mem r hq)) hnil hself
        (by
          intro hm
          rcases hmem.mp hm with hm | ⟨-, heq⟩ | hm
          · have : p < n.length := hmerged _ hm
            omega
          · exact absurd heq (by simp)
          · have : p < p := (hbt _ hm).2
            omega)
        (by
          intro sl hsl
          rcases hmem.mp hsl with hm | ⟨-, rfl⟩ | hm
          · have := hmerged _ hm
            omega
          · simp only
            omega
          · have := (hbt _ hm).2
            omega) h
      have hle' := hih.le
      have hpne : prev ≠ p := by omega
      have hprev' : n'[prev]? = some { st with b := some p } := by
        rw [hih.get prev (by omega) hpne, hge₃ prev hpne, hprev₃]
      -- which slots of states up to the split are among the exits
      have hexit : ∀ q isB, q ≤ p → ((⟨q, isB⟩ : PSlot) ∈ merged' ↔
          (⟨q, isB⟩ : PSlot) ∈ merged₁ ∨ (q = p ∧ isB = true ∧ (⟨q, isB⟩ : PSlot) ∈ merged')) := by
        intro q isB hq
        constructor
        · intro hm
          rcases hih.tail _ hm with hm' | heq | hm'
          · exact Or.inl hm'
          · obtain ⟨rfl, rfl⟩ := PSlot.mk.injEq .. ▸ heq
            exact Or.inr ⟨rfl, rfl, hm⟩
          · have : n₄.length ≤ q := hm'.1
            omega
        · rintro (hm | ⟨-, -, hm⟩)
          · exact hih.old _ hm
          · exact hm
      constructor
      · omega
      · intro q hq hqp
        rw [hih.get q (by omega) (by omega), hge₃ q (by omega), hget₃ q hqp (by omega),
          hk₁.get q hq]
      · intro st' hst'
        obtain rfl : st = st' := by simpa [hst] using hst'
        exact ⟨some p, hprev'⟩
      · exact fun sl hsl => hih.old _ (hmem.mpr (Or.inl hsl))
      · intro sl hsl
        rcases hih.tail _ hsl with hm | rfl | hm
        · rcases hmem.mp hm with hm | ⟨-, rfl⟩ | hm
          · exact Or.inl hm
          · right; right
            constructor <;> simp only <;> omega
          · have := hbt _ hm
            right; right
            omega
        · right; right
          constructor <;> simp only <;> omega
        · right; right
          omega
      · intro states t goal hM hpr hg
        rw [hprev', Option.map_some] at hpr
        have hpt : (⟨prev, true⟩ : PSlot) ∉ merged' := by
          intro hm
          rcases (hexit prev true (by omega)).mp hm with hm | ⟨heq, -⟩
          · rcases hmem.mp hm with hm | ⟨-, heq⟩ | hm
            · exact hprev hm
            · exact absurd heq (by simp)
            · have : n.length ≤ prev := (hbt _ hm).1
              omega
          · exact hpne heq
        refine ⟨_, p, hpr, by simp [RState.patch, hpt], ?_⟩
        have hsp := hM p (by omega) (by omega)
        obtain ⟨st₂, e, hst₂, hb₂, hrest⟩ := hih.passage states t goal
          (fun q hq hq' => hM q (by omega) hq') hsp
          (fun q i hq hq' => hg q i (by omega) hq')
        have hbranch : Passage (Move s states) goal (b.entry.getD t) t (r.Matches s) := by
          refine @Realises.enter_later _ _ _ n' _ _ _ _ _ _ hr (by omega) ?_ ?_ hM hg
          · intro q hq hq'
            rw [hih.get q (by omega) (by omega), hge₃ q (by omega), hget₃ q (by omega) hq']
          · intro q isB hq hq'
            rw [hexit q isB (by omega)]
            constructor
            · rintro (hm | ⟨heq, -⟩)
              · rcases hmem.mp hm with hm | ⟨-, heq⟩ | hm
                · have : q < n.length := hmerged _ hm
                  omega
                · have : q = p := congrArg PSlot.state heq
                  omega
                · exact hm
              · omega
            · exact fun hm => Or.inl (hmem.mpr (Or.inr (Or.inr hm)))
        obtain ⟨b', hb'⟩ := hih.split _ hself
        rw [hb', Option.map_some] at hsp
        obtain rfl : _ = st₂ := Option.some.inj (hsp.symm.trans hst₂)
        refine Passage.split ?_ (fun i => hg p i (by omega) (by omega)) hbranch hrest
        refine move_split_iff hsp ?_ ?_ hb₂
        · cases b.entry <;> rfl
        · cases hbe : b.entry with
          | none =>
            have hm : (⟨p, false⟩ : PSlot) ∈ merged' :=
              hih.old _ (hmem.mpr (Or.inr (Or.inl ⟨hbe, rfl⟩)))
            simp [RState.patch, hm]
          | some e' =>
            have hm : (⟨p, false⟩ : PSlot) ∉ merged' := by
              intro hm
              rcases (hexit p false (Nat.le_refl _)).mp hm with hm | ⟨-, hf, -⟩
              · rcases hmem.mp hm with hm | ⟨hn, -⟩ | hm
                · have : p < n.length := hmerged _ hm
                  omega
                · simp [hbe] at hn
                · have : p < p := (hbt _ hm).2
                  omega
              · exact absurd hf (by simp)
            simp [RState.patch, RState.aim, hm]

/-- An alternation of at least two branches. -/
lemma emitAlt_emits {s : List ℕ} {first : Ra} {others : List Ra} (hne : others ≠ [])
    (hfirst : Emits s (emitNode first) first.pureEpsilon (first.Matches s))
    (hothers : ∀ r ∈ others, Emits s (emitNode r) r.pureEpsilon (r.Matches s)) :
    Emits s (emitNode (.alt first others)) false ((Ra.alt first others).Matches s) := by
  intro n f n' h
  rw [emitNode, if_neg (by simpa using hne)] at h
  obtain ⟨⟨p, n₁⟩, hs, h⟩ := bind_ok h
  obtain ⟨hp, hn₁⟩ := nstate_ok hs
  obtain ⟨⟨b, n₂⟩, hb, h⟩ := bind_ok h
  obtain ⟨hk₂, _, hr⟩ := hfirst n₁ b n₂ hb
  have hlen₁ : n₁.length = n.length + 1 := by
    rw [hn₁]
    simp
  have hle₂ := hk₂.le
  have hnew : n₂[p]? = some (RState.new .split) := by
    rw [hk₂.get p (by omega), hn₁, hp]
    simp
  have hmem := fun sl => @mem_hookBranch p false b [] n₂ sl
  have hself := @getElem?_hookBranch_self p false b [] n₂ _ hnew
  have hget := fun q hq => @getElem?_hookBranch_of_ne p q false b [] n₂ hq
  have hlen := length_hookBranch p false b [] n₂
  dsimp only at h
  generalize hookBranch p false b [] n₂ = hooked at h hmem hself hget hlen
  obtain ⟨merged, n₃⟩ := hooked
  obtain ⟨⟨merged', n₄⟩, ho, h⟩ := bind_ok h
  simp only at hmem hself hget hlen ho
  obtain ⟨rfl, rfl⟩ : { entry := some p, tail := merged' } = f ∧ n₄ = n' := by simpa using h
  have hbt : ∀ sl ∈ b.tail, p < sl.state ∧ sl.state < n₂.length := by
    intro sl hsl
    have := hr.tail sl hsl
    omega
  have hin : ∀ sl ∈ merged, sl = ⟨p, false⟩ ∨ sl ∈ b.tail := by
    intro sl hsl
    rcases (hmem sl).mp hsl with hm | ⟨-, hm⟩ | hm
    · exact absurd hm (by simp)
    · exact Or.inl hm
    · exact Or.inr hm
  have hang := emitOthers_hangs hothers hne hself
    (by
      intro hm
      rcases hin _ hm with heq | hm
      · exact absurd heq (by simp)
      · have : p < p := (hbt _ hm).1
        omega)
    (by
      intro sl hsl
      rcases hin sl hsl with rfl | hm
      · simp only
        omega
      · have := (hbt sl hm).2
        omega) ho
  have hle' := hang.le
  refine ⟨?_, by simp, ?_⟩
  · constructor
    · omega
    · intro q hq
      rw [hang.get q (by omega) (by omega), hget q (by omega), hk₂.get q (by omega), hn₁,
        List.getElem?_append_left hq]
  · constructor
    · omega
    · intro sl hsl
      rcases hang.tail sl hsl with hm | rfl | hm
      · rcases hin sl hm with rfl | hm
        · constructor <;> simp only <;> omega
        · have := hbt sl hm
          omega
      · constructor <;> simp only <;> omega
      · omega
    · intro he
      exact absurd he (by simp)
    · intro e he states t goal hM hg
      obtain rfl : p = e := by simpa using he
      have hsp := hM p (by omega) (by omega)
      obtain ⟨st, e', hst, hb', hrest⟩ := hang.passage states t goal
        (fun q hq hq' => hM q (by omega) hq') hsp (fun q i hq hq' => hg q i (by omega) hq')
      have hbranch : Passage (Move s states) goal (b.entry.getD t) t (first.Matches s) := by
        refine @Realises.enter_later _ _ _ n₄ _ _ _ _ _ _ hr (by omega) ?_ ?_
          (fun q hq => hM q (by omega))
          (fun q i hq => hg q i (by omega))
        · intro q hq hq'
          rw [hang.get q (by omega) (by omega), hget q (by omega)]
        · intro q isB hq hq'
          constructor
          · intro hm
            rcases hang.tail _ hm with hm | heq | hm
            · rcases hin _ hm with heq | hm
              · have : q = p := congrArg PSlot.state heq
                omega
              · exact hm
            · have : q = p := congrArg PSlot.state heq
              omega
            · have : n₃.length ≤ q := hm.1
              omega
          · exact fun hm => hang.old _ ((hmem _).mpr (Or.inr (Or.inr hm)))
      obtain ⟨b'', hb''⟩ := hang.split _ hself
      rw [hb'', Option.map_some] at hsp
      obtain rfl : _ = st := Option.some.inj (hsp.symm.trans hst)
      refine Passage.split ?_ (fun i => hg p i (by omega) (by omega)) hbranch hrest
      refine move_split_iff hsp ?_ ?_ hb'
      · cases b.entry <;> rfl
      · cases hbe : b.entry with
        | none =>
          have hm : (⟨p, false⟩ : PSlot) ∈ merged' :=
            hang.old _ ((hmem _).mpr (Or.inr (Or.inl ⟨hbe, rfl⟩)))
          simp [RState.patch, hm]
        | some e' =>
          have hm : (⟨p, false⟩ : PSlot) ∉ merged' := by
            intro hm
            rcases hang.tail _ hm with hm | heq | hm
            · rcases (hmem _).mp hm with hm | ⟨hn, -⟩ | hm
              · exact absurd hm (by simp)
              · simp [hbe] at hn
              · have : p < p := (hbt _ hm).1
                omega
            · exact absurd heq (by simp)
            · have : n₃.length ≤ p := hm.1
              omega
          simp [RState.patch, RState.aim, hm]

/-! ## All nodes -/

/-- The conditions on the nodes of a tree under which it is emitted rightly. -/
def goodNode (r : Ra) : Bool := formedNode r && (splicedNode r && ascendingNode r)

/-- The conditions on the nodes are those on the tree. -/
lemma every_goodNode (r : Ra) :
    r.every goodNode = (r.wellFormed && (r.spliced && r.ascending)) := by
  unfold goodNode Ra.wellFormed Ra.spliced Ra.ascending
  rw [every_and, every_and]

/-- No range holds anything. -/
lemma inRanges_nil (x : ℕ) : InRanges [] x ↔ False := by simp [InRanges]

/-- The first range or one of the others. -/
lemma inRanges_cons (r : RaRange) (rs : List RaRange) (x : ℕ) :
    InRanges (r :: rs) x ↔ (r.lo ≤ x ∧ x ≤ r.hi) ∨ InRanges rs x := by
  simp [InRanges]

/-- The two ranges of a folded letter. -/
lemma charAccepts_iff {cp : ℕ} {ci : Bool}
    (h : (!ci || ('a'.toNat ≤ cp && cp ≤ 'z'.toNat)) = true) (x : ℕ) :
    clsMatch { RState.new .char with
      ranges := if ci then [⟨foldCp cp - 32, foldCp cp - 32⟩, ⟨cp, cp⟩] else [⟨cp, cp⟩] } x = true ↔
      CharAccepts cp ci x := by
  cases ci with
  | false =>
    rw [clsMatch_iff rfl (by simp [ascendingRanges])]
    simp only [ClassAccepts, inRanges_cons, inRanges_nil, CharAccepts, RState.new,
      Bool.false_eq_true, if_false, or_false, iff_true]
    omega
  | true =>
    obtain ⟨hlo, hhi⟩ : 97 ≤ cp ∧ cp ≤ 122 := by simpa using h
    have hfold : foldCp cp = cp := by
      unfold foldCp
      rw [if_neg]
      show ¬ (65 ≤ cp ∧ cp ≤ 90)
      omega
    rw [clsMatch_iff rfl (by simp [ascendingRanges, hfold]; omega)]
    simp only [ClassAccepts, inRanges_cons, inRanges_nil, CharAccepts, RState.new, hfold, if_true,
      or_false, iff_true]
    have hx : foldCp x = if 65 ≤ x ∧ x ≤ 90 then x + 32 else x := rfl
    rw [hx]
    by_cases hup : 65 ≤ x ∧ x ≤ 90
    · rw [if_pos hup]
      omega
    · rw [if_neg hup]
      omega

mutual

/-- Every tree whose emitted nodes meet their conditions is emitted as what it matches. -/
theorem emitNode_emits (s : List ℕ) : ∀ r : Ra, r.every goodNode = true →
    Emits s (emitNode r) r.pureEpsilon (r.Matches s)
  | .char cp ci, h => by
    have hci : (!ci || ('a'.toNat ≤ cp && cp ≤ 'z'.toNat)) = true := by
      simpa [Ra.every, goodNode, formedNode, splicedNode, ascendingNode] using h
    have hch := @emits_char s _ _ rfl (charAccepts_iff hci)
    intro n f n' hn
    rw [emitNode] at hn
    simpa [Ra.Matches, Ra.pureEpsilon] using hch n f n' hn
  | .any, _ => by
    intro n f n' hn
    rw [emitNode] at hn
    exact emits_char (s := s) (p := fun _ => True) rfl (by simp [clsMatch]) n f n' hn
  | .cls ranges negated, h => by
    have hasc : ascendingRanges ranges = true := by
      simpa [Ra.every, goodNode, formedNode, splicedNode, ascendingNode] using h
    intro n f n' hn
    rw [emitNode] at hn
    exact emits_char rfl (clsMatch_iff rfl hasc) n f n' hn
  | .bol, _ => by
    intro n f n' hn
    rw [emitNode] at hn
    exact emits_state (by simp [RState.new])
      (by simp [RState.Leaves, RState.new, Ra.Matches]) n f n' hn
  | .eol, _ => by
    intro n f n' hn
    rw [emitNode] at hn
    exact emits_state (by simp [RState.new])
      (by simp [RState.Leaves, RState.new, Ra.Matches]) n f n' hn
  | .wordb, _ => by
    intro n f n' hn
    rw [emitNode] at hn
    exact emits_state (by simp [RState.new])
      (by simp [RState.Leaves, RState.new, Ra.Matches]) n f n' hn
  | .nwordb, _ => by
    intro n f n' hn
    rw [emitNode] at hn
    exact emits_state (by simp [RState.new])
      (by simp [RState.Leaves, RState.new, Ra.Matches]) n f n' hn
  | .seq pieces, h => by
    obtain ⟨hfirst, hrs⟩ : epsilonsFirst pieces = true ∧ everyOf goodNode pieces = true := by
      simpa [Ra.every, goodNode, formedNode, splicedNode, ascendingNode] using h
    intro n f n' hn
    rw [emitNode] at hn
    obtain ⟨hk, he, hr⟩ := emitSeq_emits (everyOf_emits s pieces hrs) (Keeps.refl n)
      (by simpa [Frag.eps] using hfirst) (Realises.eps_frag s n) hn
    refine ⟨hk, by simpa [Frag.eps, Ra.pureEpsilon] using he, hr.congr ?_⟩
    intro i j
    constructor
    · rintro ⟨x, rfl, hj⟩
      exact hj
    · exact fun hj => ⟨i, rfl, hj⟩
  | .alt first others, h => by
    obtain ⟨hfirst, hrs⟩ : first.every goodNode = true ∧ everyOf goodNode others = true := by
      simpa [Ra.every, goodNode, formedNode, splicedNode, ascendingNode] using h
    by_cases hne : others = []
    · intro n f n' hn
      rw [emitNode, if_pos (by simp [hne])] at hn
      obtain ⟨hk, he, hr⟩ := emitNode_emits s first hfirst n f n' hn
      refine ⟨hk, by simpa [Ra.pureEpsilon, hne] using he, hr.congr ?_⟩
      intro i j
      simp [Ra.Matches, AnyMatches, hne]
    · have hpe : (Ra.alt first others).pureEpsilon = false := by
        simp [Ra.pureEpsilon, hne]
      rw [hpe]
      exact emitAlt_emits hne (emitNode_emits s first hfirst) (everyOf_emits s others hrs)
  | .quant child qmin qmax, h => by
    obtain ⟨hq, hc⟩ : qmax.all (qmin ≤ ·) = true ∧
        (qmax = some 0 ∨ child.every goodNode = true) := by
      simpa [Ra.every, goodNode, formedNode, splicedNode, ascendingNode] using h
    have hbounds : ∀ m, qmax = some m → qmin ≤ m := by
      intro m hm
      simpa [hm] using hq
    have hchild : qmax ≠ some 0 → Emits s (emitNode child) child.pureEpsilon (child.Matches s) :=
      fun h0 => emitNode_emits s child (hc.resolve_left h0)
    intro n f n' hn
    rw [emitNode] at hn
    exact emitQuant_emits hchild hbounds n f n' hn

/-- The trees of a list. -/
theorem everyOf_emits (s : List ℕ) : ∀ rs : List Ra, everyOf goodNode rs = true →
    ∀ r ∈ rs, Emits s (emitNode r) r.pureEpsilon (r.Matches s)
  | [], _, _, hr => absurd hr List.not_mem_nil
  | q :: qs, h, r, hr => by
    obtain ⟨hq, hqs⟩ : q.every goodNode = true ∧ everyOf goodNode qs = true := by
      simpa [everyOf] using h
    rcases List.mem_cons.mp hr with heq | hr
    · rw [heq]
      exact emitNode_emits s q hq
    · exact everyOf_emits s qs hqs r hr

end

/-- The match state of a compiled tree is reached from the start along the matches of the
tree. -/
theorem emitRegex_reach_iff (s : List ℕ) {r : Ra} {re : SchRegex} (hr : r.every goodNode = true)
    (h : emitRegex r = .ok re) (i j : ℕ) :
    Relation.ReflTransGen (Move s re.states) (re.start, i) (re.match, j) ↔ r.Matches s i j := by
  unfold emitRegex at h
  obtain ⟨⟨f, n⟩, hf, h⟩ := bind_ok h
  obtain ⟨⟨m, n'⟩, hm, h⟩ := bind_ok h
  obtain ⟨hmn, hn'⟩ := nstate_ok hm
  obtain ⟨_, _, hreal⟩ := emitNode_emits s r hr [] f n hf
  obtain rfl : (⟨fragThread n' f.tail (some m), f.entry.getD m, m⟩ : SchRegex) = re := by
    simpa using h
  have hpass : Passage (Move s (fragThread n' f.tail (some m))) (· = (m, j)) (f.entry.getD m) m
      (r.Matches s) := by
    refine hreal.enter ?_ ?_
    · intro q _ hq
      rw [getElem?_fragThread, hn', List.getElem?_append_left hq]
    · intro q i _ hq heq
      have : q = m := congrArg Prod.fst heq
      omega
  -- the match state is left by no move
  have hstop : ∀ k c, ¬ Move s (fragThread n' f.tail (some m)) (m, k) c := by
    rintro k c ⟨st, isB, hst, -, hl⟩
    rw [getElem?_fragThread, hn', hmn, List.getElem?_concat_length, Option.map_some] at hst
    obtain rfl := Option.some.inj hst
    exact hl
  exact hpass.reach_iff hstop i

end Teptris
