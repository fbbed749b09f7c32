import Teptris.Library.Utf8
import Teptris.Parse.Run

/-!
# Progress

Every routine of the parser leaves a suffix of its input, a proper one where it reads anything,
never stops inside a UTF-8 sequence, and never passes the byte DEL.  `Reaches` and `Behind` say so;
the loops of the parser shrink their state by them, so that each satisfies its unfolding equation.
-/

namespace Teptris

open Loop

/-! ## Positions -/

/-- `r'` is a later position in the input `r`, between two characters. -/
structure Reaches (r r' : Bytes) : Prop where
  /-- What is left is a suffix. -/
  suffix : r' <:+ r
  /-- The position is not inside a sequence. -/
  valid : Utf8.Valid r → Utf8.Valid r'
  /-- No DEL was passed. -/
  clean : Ch.del ∈ r → Ch.del ∈ r'

/-- `r'` is a position in the input `r` behind at least one byte. -/
structure Behind (r r' : Bytes) : Prop extends Reaches r r' where
  /-- Something was read. -/
  lt : r'.length < r.length

lemma Reaches.refl (r : Bytes) : Reaches r r := ⟨List.suffix_rfl, id, id⟩

lemma Reaches.trans {r s t : Bytes} (h : Reaches r s) (h' : Reaches s t) : Reaches r t :=
  ⟨h'.suffix.trans h.suffix, fun hr => h'.valid (h.valid hr), fun hr => h'.clean (h.clean hr)⟩

lemma Reaches.length_le {r s : Bytes} (h : Reaches r s) : s.length ≤ r.length :=
  h.suffix.length_le

lemma Behind.trans_reaches {r s t : Bytes} (h : Behind r s) (h' : Reaches s t) : Behind r t :=
  ⟨h.toReaches.trans h', lt_of_le_of_lt h'.length_le h.lt⟩

lemma Reaches.trans_behind {r s t : Bytes} (h : Reaches r s) (h' : Behind s t) : Behind r t :=
  ⟨h.trans h'.toReaches, lt_of_lt_of_le h'.lt h.length_le⟩

lemma Behind.trans {r s t : Bytes} (h : Behind r s) (h' : Behind s t) : Behind r t :=
  h.trans_reaches h'.toReaches

/-- A byte below DEL is below `0x80`. -/
lemma ascii_of_lt {c : UInt8} (hc : c < Ch.del) : c < 0x80 := UInt8.lt_trans hc (by decide)

/-- Right behind a byte below DEL, and text without DEL. -/
lemma behind_append {a r : Bytes} {c : UInt8} (ha : Ch.del ∉ a) (hc : c < Ch.del) :
    Behind (a ++ c :: r) r where
  suffix := ⟨a ++ [c], by simp⟩
  valid h := (h.split (ascii_of_lt hc)).2
  clean h := by
    rcases List.mem_append.mp h with h | h
    · exact absurd h ha
    · rcases List.mem_cons.mp h with rfl | h
      · exact absurd hc (UInt8.lt_irrefl _)
      · exact h
  lt := by simp only [List.length_append, List.length_cons]; omega

/-- Behind a byte below DEL in front. -/
lemma behind_cons {r : Bytes} {c : UInt8} (hc : c < Ch.del) : Behind (c :: r) r :=
  behind_append (a := []) List.not_mem_nil hc

/-- Behind a first byte that is known and below DEL. -/
lemma behind_drop_one {r : Bytes} {c : UInt8} (h : r.head? = some c) (hc : c < Ch.del) :
    Behind r (r.drop 1) := by
  obtain _ | ⟨d, r⟩ := r
  · simp at h
  · obtain rfl : d = c := by simpa using h
    exact behind_cons hc

/-- Behind two first bytes that are known and below DEL. -/
lemma behind_drop_two {r : Bytes} {c d : UInt8} (h : r.head? = some c) (hc : c < Ch.del)
    (h' : r[1]? = some d) (hd : d < Ch.del) : Behind r (r.drop 2) := by
  obtain _ | ⟨c', _ | ⟨d', r⟩⟩ := r
  · simp at h
  · simp at h'
  · obtain rfl : c' = c := by simpa using h
    obtain rfl : d' = d := by simpa using h'
    exact (behind_cons hc).trans (behind_cons hd)

/-- Behind an inner byte, where all bytes up to it are below DEL. -/
lemma behind_drop {r : Bytes} {n : ℕ} (hn : n < r.length) (h : ∀ i ≤ n, byteAt r i < Ch.del) :
    Behind r (r.drop (n + 1)) := by
  have hsplit : r = r.take n ++ byteAt r n :: r.drop (n + 1) := by
    conv_lhs => rw [← List.take_append_drop n r, List.drop_eq_getElem_cons hn]
    simp [byteAt, hn]
  have hclean : Ch.del ∉ r.take n := by
    intro hmem
    obtain ⟨i, hi, hget⟩ := List.getElem_of_mem hmem
    have hlt : i < n := by
      rw [List.length_take] at hi
      omega
    have hbyte : byteAt r i = Ch.del := by
      rw [List.getElem_take] at hget
      rw [byteAt, List.getD_eq_getElem?_getD, List.getElem?_eq_getElem (by omega), Option.getD_some,
        hget]
    exact absurd (hbyte ▸ h i (Nat.le_of_lt hlt)) (UInt8.lt_irrefl _)
  have := behind_append (r := r.drop (n + 1)) hclean (h n (Nat.le_refl n))
  rwa [← hsplit] at this

/-- Behind a stretch of bytes below DEL. -/
lemma reaches_dropWhile {p : UInt8 → Bool} (hp : ∀ c, p c = true → c < Ch.del) (r : Bytes) :
    Reaches r (r.dropWhile p) := by
  induction r with
  | nil => exact Reaches.refl _
  | cons c cs ih =>
    by_cases hc : p c = true
    · rw [List.dropWhile_cons_of_pos hc]
      exact (behind_cons (hp c hc)).toReaches.trans ih
    · rw [List.dropWhile_cons_of_neg hc]
      exact Reaches.refl _

/-- Behind a stretch that is not empty. -/
lemma behind_dropWhile {p : UInt8 → Bool} (hp : ∀ c, p c = true → c < Ch.del) {c : UInt8}
    {cs : Bytes} (hc : p c = true) : Behind (c :: cs) ((c :: cs).dropWhile p) := by
  rw [List.dropWhile_cons_of_pos hc]
  exact (behind_cons (hp c hc)).trans_reaches (reaches_dropWhile hp cs)

/-- Behind a stretch that took something. -/
lemma behind_dropWhile' {p : UInt8 → Bool} (hp : ∀ c, p c = true → c < Ch.del) {r : Bytes}
    (h : r.takeWhile p ≠ []) : Behind r (r.dropWhile p) := by
  obtain _ | ⟨c, cs⟩ := r
  · simp at h
  · by_cases hc : p c = true
    · exact behind_dropWhile hp hc
    · simp [hc] at h

/-! ## The character classes are below DEL -/

lemma isWs_lt {c : UInt8} (h : isWs c = true) : c < Ch.del := by grind [isWs]

lemma isDec_lt {c : UInt8} (h : isDec c = true) : c < Ch.del := by grind [isDec]

lemma isHex_lt {c : UInt8} (h : isHex c = true) : c < Ch.del := by grind [isHex, isDec]

lemma isBareKey_lt {c : UInt8} (h : isBareKey c = true) : c < Ch.del := by grind [isBareKey, isDec]

lemma digitFor_lt {c : UInt8} {radix : ℕ} (h : digitFor c radix = true) : c < Ch.del := by
  simp only [digitFor] at h
  split_ifs at h
  · exact isDec_lt h
  · exact isHex_lt h
  · grind
  · have : c = 0x30 ∨ c = 0x31 := by simpa using h
    rcases this with rfl | rfl <;> decide

lemma reaches_skipWs (r : Bytes) : Reaches r (skipWs r) := reaches_dropWhile (fun _ => isWs_lt) r

/-! ## White space, comments and line ends -/

/-- A comment ends before a line end, or with the input. -/
lemma commentBody_spec {r r' : Bytes} (h : commentBody r = .ok r') :
    ∃ a, r = a ++ r' ∧ Ch.del ∉ a ∧ ∀ c ∈ r'.head?, c < 0x80 := by
  induction r with
  | nil =>
    obtain rfl : [] = r' := by simpa [commentBody] using h
    exact ⟨[], rfl, List.not_mem_nil, by simp⟩
  | cons c cs ih =>
    rw [commentBody] at h
    split_ifs at h with h1 h2 h3 h4
    · obtain rfl : c :: cs = r' := by simpa using h
      exact ⟨[], rfl, List.not_mem_nil,
        by simp only [List.head?_cons, Option.mem_some_iff, forall_eq', h1]; decide⟩
    · obtain rfl : c :: cs = r' := by simpa using h
      exact ⟨[], rfl, List.not_mem_nil,
        by simp only [List.head?_cons, Option.mem_some_iff, forall_eq', h2]; decide⟩
    · exact absurd h failAt_ne_ok
    · exact absurd h failAt_ne_ok
    · obtain ⟨a, rfl, hclean, ha⟩ := ih h
      refine ⟨c :: a, rfl, ?_, ha⟩
      intro hmem
      rcases List.mem_cons.mp hmem with rfl | hmem
      · exact h4 (by decide)
      · exact hclean hmem

lemma reaches_commentBody {r r' : Bytes} (h : commentBody r = .ok r') : Reaches r r' := by
  obtain ⟨a, rfl, hclean, ha⟩ := commentBody_spec h
  exact ⟨List.suffix_append a r', fun hv => hv.of_append_right ha,
    fun hmem => (List.mem_append.mp hmem).resolve_left hclean⟩

/-- A comment takes at least its `#`. -/
lemma behind_skipComment {r r' : Bytes} (hr : r.head? = some Ch.hash)
    (h : skipComment r = .ok r') : Behind r r' :=
  (behind_drop_one hr (by decide)).trans_reaches (reaches_commentBody h)

lemma skipWsNlTurn_next {r r' : Bytes} (h : skipWsNlTurn r = .ok (.next r')) : Behind r r' := by
  obtain _ | ⟨c, cs⟩ := r
  · simp [skipWsNlTurn] at h
  simp only [skipWsNlTurn] at h
  split_ifs at h with h1 h2 h3 h4
  · obtain rfl : cs = r' := by simpa using h
    exact behind_cons (isWs_lt h1)
  · obtain rfl : cs = r' := by simpa using h
    exact behind_cons (h2 ▸ by decide)
  · obtain rfl : cs.drop 1 = r' := by simpa using h
    exact (behind_cons (h3.1 ▸ by decide)).trans (behind_drop_one h3.2 (by decide))
  · obtain ⟨s, hs, hr⟩ := map_eq_ok_iff.mp h
    obtain rfl : s = r' := by simpa using hr
    exact behind_skipComment (by simp [h4]) hs
  · simp at h

lemma skipWsNlTurn_stop {r r' : Bytes} (h : skipWsNlTurn r = .ok (.stop r')) : r' = r := by
  obtain _ | ⟨c, cs⟩ := r
  · simpa [skipWsNlTurn, eq_comm] using h
  simp only [skipWsNlTurn] at h
  split_ifs at h with h1 h2 h3 h4
  · simp at h
  · simp at h
  · simp at h
  · obtain ⟨s, -, hr⟩ := map_eq_ok_iff.mp h
    exact absurd hr (by simp)
  · exact (by simpa using h : c :: cs = r').symm

lemma skipWsNl_shrinks : Shrinks skipWsNlTurn List.length :=
  fun _ _ h => (skipWsNlTurn_next h).lt

lemma reaches_skipWsNl {r r' : Bytes} (h : skipWsNl r = .ok r') : Reaches r r' := by
  refine loop_invariant (I := Reaches r) (Q := Reaches r) ?_ ?_ (Reaches.refl r) h
  · intro s s' hs hn
    exact hs.trans (skipWsNlTurn_next hn).toReaches
  · intro s s' hs hn
    rwa [skipWsNlTurn_stop hn]

lemma skipArrayGapTurn_next {r r' : Bytes} (h : skipArrayGapTurn r = .ok (.next r')) :
    Behind r r' := by
  rw [skipArrayGapTurn] at h
  have hws : Reaches r (r.dropWhile isWs) := reaches_skipWs r
  generalize r.dropWhile isWs = q at h hws
  obtain _ | ⟨c, cs⟩ := q
  · simp at h
  dsimp only at h
  split_ifs at h with h1 h2 h3
  · obtain rfl : cs = r' := by simpa using h
    exact hws.trans_behind (behind_cons (h1 ▸ by decide))
  · obtain ⟨s, -, hr⟩ := map_eq_ok_iff.mp h
    exact absurd hr (by simp)
  · obtain ⟨s, -, hr⟩ := map_eq_ok_iff.mp h
    exact absurd hr (by simp)
  · simp at h

lemma skipArrayGapTurn_stop {r r' : Bytes} (h : skipArrayGapTurn r = .ok (.stop r')) :
    Reaches r r' := by
  rw [skipArrayGapTurn] at h
  have hws : Reaches r (r.dropWhile isWs) := reaches_skipWs r
  generalize r.dropWhile isWs = q at h hws
  obtain _ | ⟨c, cs⟩ := q
  · obtain rfl : [] = r' := by simpa using h
    exact hws
  dsimp only at h
  split_ifs at h with h1 h2 h3
  · simp at h
  · obtain ⟨s, hs, hr⟩ := map_eq_ok_iff.mp h
    obtain rfl : s = r' := by simpa using hr
    exact hws.trans (reaches_skipWsNl hs)
  · obtain ⟨s, hs, hr⟩ := map_eq_ok_iff.mp h
    obtain rfl : s = r' := by simpa using hr
    exact hws.trans (reaches_skipWsNl hs)
  · obtain rfl : c :: cs = r' := by simpa using h
    exact hws

lemma skipArrayGap_shrinks : Shrinks skipArrayGapTurn List.length :=
  fun _ _ h => (skipArrayGapTurn_next h).lt

lemma reaches_skipArrayGap {r r' : Bytes} (h : skipArrayGap r = .ok r') : Reaches r r' := by
  refine loop_invariant (I := Reaches r) (Q := Reaches r) ?_ ?_ (Reaches.refl r) h
  · intro s s' hs hn
    exact hs.trans (skipArrayGapTurn_next hn).toReaches
  · intro s s' hs hn
    exact hs.trans (skipArrayGapTurn_stop hn)

lemma reaches_lineEnd {r r' : Bytes} (h : lineEnd r = .ok r') : Reaches r r' := by
  obtain _ | ⟨c, cs⟩ := r
  · obtain rfl : [] = r' := by simpa [lineEnd] using h
    exact Reaches.refl _
  rw [lineEnd] at h
  split_ifs at h with h1 h2
  · obtain rfl : cs = r' := by simpa using h
    exact (behind_cons (h1 ▸ by decide)).toReaches
  · obtain rfl : cs.drop 1 = r' := by simpa using h
    exact ((behind_cons (h2.1 ▸ by decide)).trans (behind_drop_one h2.2 (by decide))).toReaches
  · exact absurd h failAt_ne_ok

lemma reaches_finishLine {r r' : Bytes} (h : finishLine r = .ok r') : Reaches r r' := by
  simp only [finishLine] at h
  split_ifs at h with h1
  · cases hs : skipComment (skipWs r) with
    | error e => simp [hs] at h
    | ok s =>
      rw [hs] at h
      exact (reaches_skipWs r).trans
        ((behind_skipComment h1 hs).toReaches.trans (reaches_lineEnd h))
  · exact (reaches_skipWs r).trans (reaches_lineEnd h)

/-! ## Strings -/

/-- A hexadecimal digit is less than sixteen. -/
lemma hexVal_lt {c : UInt8} (h : isHex c = true) : hexVal c < 16 := by
  simp only [isHex, isDec, Bool.or_eq_true, Bool.and_eq_true, decide_eq_true_eq,
    UInt8.le_iff_toNat_le] at h
  have hlower : ∀ i < 6, (0x61 + i ||| 0x20) - 0x61 + 10 < 16 := by decide
  have hupper : ∀ i < 6, (0x41 + i ||| 0x20) - 0x61 + 10 < 16 := by decide
  rw [hexVal]
  split_ifs with hd
  · have : c.toNat ≤ 0x39 := UInt8.le_iff_toNat_le.mp hd
    omega
  · rw [UInt8.le_iff_toNat_le] at hd
    rw [UInt8.toNat_or]
    rcases h with (h | ⟨h, h'⟩) | ⟨h, h'⟩
    · exact absurd h.2 hd
    · obtain ⟨i, hi⟩ := Nat.exists_eq_add_of_le h
      rw [hi] at h' ⊢
      exact hlower i (Nat.lt_succ_of_le (Nat.add_le_add_iff_left.mp h'))
    · obtain ⟨i, hi⟩ := Nat.exists_eq_add_of_le h
      rw [hi] at h' ⊢
      exact hupper i (Nat.lt_succ_of_le (Nat.add_le_add_iff_left.mp h'))

lemma readHex_spec {digits v cp : ℕ} {r r' : Bytes} (h : readHex digits v r = .ok (cp, r')) :
    Reaches r r' ∧ cp < (v + 1) * 16 ^ digits := by
  induction digits generalizing v r with
  | zero =>
    obtain ⟨rfl, rfl⟩ : v = cp ∧ r = r' := by simpa [readHex] using h
    exact ⟨Reaches.refl _, by omega⟩
  | succ digits ih =>
    obtain _ | ⟨c, cs⟩ := r
    · simp [readHex] at h
    rw [readHex] at h
    split_ifs at h with hc
    swap
    · exact absurd h failAt_ne_ok
    obtain ⟨hr, hcp⟩ := ih h
    refine ⟨(behind_cons (isHex_lt hc)).toReaches.trans hr, lt_of_lt_of_le hcp ?_⟩
    have hv : v * 16 + hexVal c + 1 ≤ (v + 1) * 16 := by
      have := hexVal_lt hc
      omega
    calc (v * 16 + hexVal c + 1) * 16 ^ digits
        ≤ (v + 1) * 16 * 16 ^ digits := Nat.mul_le_mul_right _ hv
      _ = (v + 1) * 16 ^ (digits + 1) := by rw [Nat.pow_succ', Nat.mul_assoc]

/-- A continuation byte made of six bits. -/
lemma isCont_sixBits (x : ℕ) : Utf8.IsCont (UInt8.ofNat (0x80 ||| (x &&& 0x3F))) := by
  have hx : x &&& 0x3F < 64 := lt_of_le_of_lt Nat.and_le_right (by decide)
  have hall : ∀ i : Fin 64, Utf8.IsCont (UInt8.ofNat (0x80 ||| i.val)) := by
    simp only [Utf8.IsCont]
    decide
  exact hall ⟨_, hx⟩

/-- The encoding of a scalar value is well formed. -/
lemma utf8Put_valid {cp : ℕ} (hmax : cp ≤ 0x10FFFF) (hsur : ¬ (0xD800 ≤ cp ∧ cp ≤ 0xDFFF)) :
    Utf8.Valid (utf8Put cp) := by
  rw [utf8Put]
  split_ifs with h1 h2 h3
  · refine Utf8.valid_of_ascii ?_
    simp only [List.mem_singleton, forall_eq, UInt8.lt_iff_toNat_lt, UInt8.toNat_ofNat']
    have : (0x80 : UInt8).toNat = 0x80 := rfl
    omega
  · refine (Utf8.Multi.two ?_ ?_ (isCont_sixBits _)).valid
    all_goals
      have hall : ∀ i : Fin 32, 2 ≤ i.val →
          0xC2 ≤ UInt8.ofNat (0xC0 ||| i.val) ∧ UInt8.ofNat (0xC0 ||| i.val) ≤ 0xDF := by decide
      have hi : cp >>> 6 < 32 := by rw [Nat.shiftRight_eq_div_pow]; omega
      have h2 : 2 ≤ cp >>> 6 := by rw [Nat.shiftRight_eq_div_pow]; omega
    · exact (hall ⟨_, hi⟩ h2).1
    · exact (hall ⟨_, hi⟩ h2).2
  · have hi : cp >>> 12 < 16 := by rw [Nat.shiftRight_eq_div_pow]; omega
    have hj : cp >>> 6 &&& 0x3F < 64 := lt_of_le_of_lt Nat.and_le_right (by decide)
    have hmid : cp >>> 6 &&& 0x3F = cp / 64 % 64 := by
      rw [Nat.shiftRight_eq_div_pow]
      exact Nat.and_two_pow_sub_one_eq_mod _ 6
    have hlead : cp >>> 12 = cp / 4096 := Nat.shiftRight_eq_div_pow _ _
    have hrange : ∀ i : Fin 16,
        0xE0 ≤ UInt8.ofNat (0xE0 ||| i.val) ∧ UInt8.ofNat (0xE0 ||| i.val) ≤ 0xEF ∧
        (UInt8.ofNat (0xE0 ||| i.val) = 0xE0 → i.val = 0) ∧
        (UInt8.ofNat (0xE0 ||| i.val) = 0xED → i.val = 13) := by decide
    have hcont : ∀ j : Fin 64,
        (32 ≤ j.val → 0xA0 ≤ UInt8.ofNat (0x80 ||| j.val)) ∧
        (j.val < 32 → UInt8.ofNat (0x80 ||| j.val) < 0xA0) := by decide
    obtain ⟨ha, ha', hE0, hED⟩ := hrange ⟨_, hi⟩
    obtain ⟨hlow, hhigh⟩ := hcont ⟨_, hj⟩
    refine (Utf8.Multi.three ha ha' (isCont_sixBits _) (isCont_sixBits _) ?_ ?_).valid
    · intro h
      have h0 : cp >>> 12 = 0 := hE0 h
      exact hlow (by simp only; omega)
    · intro h
      have h0 : cp >>> 12 = 13 := hED h
      exact hhigh (by simp only; omega)
  · have hi : cp >>> 18 < 5 := by rw [Nat.shiftRight_eq_div_pow]; omega
    have hj : cp >>> 12 &&& 0x3F < 64 := lt_of_le_of_lt Nat.and_le_right (by decide)
    have hmid : cp >>> 12 &&& 0x3F = cp / 4096 % 64 := by
      rw [Nat.shiftRight_eq_div_pow]
      exact Nat.and_two_pow_sub_one_eq_mod _ 6
    have hlead : cp >>> 18 = cp / 262144 := Nat.shiftRight_eq_div_pow _ _
    have hrange : ∀ i : Fin 5,
        0xF0 ≤ UInt8.ofNat (0xF0 ||| i.val) ∧ UInt8.ofNat (0xF0 ||| i.val) ≤ 0xF4 ∧
        (UInt8.ofNat (0xF0 ||| i.val) = 0xF0 → i.val = 0) ∧
        (UInt8.ofNat (0xF0 ||| i.val) = 0xF4 → i.val = 4) := by decide
    have hcont : ∀ j : Fin 64,
        (16 ≤ j.val → 0x90 ≤ UInt8.ofNat (0x80 ||| j.val)) ∧
        (j.val < 16 → UInt8.ofNat (0x80 ||| j.val) < 0x90) := by decide
    obtain ⟨ha, ha', hF0, hF4⟩ := hrange ⟨_, hi⟩
    obtain ⟨hlow, hhigh⟩ := hcont ⟨_, hj⟩
    refine (Utf8.Multi.four ha ha' (isCont_sixBits _) (isCont_sixBits _) (isCont_sixBits _)
      ?_ ?_).valid
    · intro h
      have h0 : cp >>> 18 = 0 := hF0 h
      exact hlow (by simp only; omega)
    · intro h
      have h0 : cp >>> 18 = 4 := hF4 h
      exact hhigh (by simp only; omega)

lemma reaches_trimLines (r : Bytes) : Reaches r (trimLines r) := by
  fun_induction trimLines r with
  | case1 => exact Reaches.refl _
  | case2 c h =>
    refine (behind_cons ?_).toReaches
    simp only [Bool.or_eq_true, decide_eq_true_eq] at h
    rcases h with h | rfl
    · exact isWs_lt h
    · decide
  | case3 c h => exact Reaches.refl _
  | case4 c d ds h ih =>
    refine (behind_cons ?_).toReaches.trans ih
    simp only [Bool.or_eq_true, decide_eq_true_eq] at h
    rcases h with h | rfl
    · exact isWs_lt h
    · decide
  | case5 c d ds h hcr ih =>
    obtain ⟨rfl, rfl⟩ := hcr
    exact (behind_cons (by decide)).toReaches.trans ((behind_cons (by decide)).toReaches.trans ih)
  | case6 c d ds h hcr => exact Reaches.refl _

lemma hexEscape_spec {r r' o : Bytes} (h : hexEscape 2 r = .ok (o, r')) :
    Reaches r r' ∧ Utf8.Valid o := by
  rw [hexEscape] at h
  cases hx : readHex 2 0 r with
  | error e => simp [hx] at h
  | ok x =>
    obtain ⟨cp, s⟩ := x
    rw [hx] at h
    obtain ⟨rfl, rfl⟩ : utf8Put cp = o ∧ s = r' := by simpa using h
    obtain ⟨hr, hcp⟩ := readHex_spec hx
    exact ⟨hr, utf8Put_valid (by omega) (by omega)⟩

lemma unicodeEscape_spec {digits : ℕ} {r r' o : Bytes} (h : unicodeEscape digits r = .ok (o, r')) :
    Reaches r r' ∧ Utf8.Valid o := by
  rw [unicodeEscape] at h
  cases hx : readHex digits 0 r with
  | error e => simp [hx] at h
  | ok x =>
    obtain ⟨cp, s⟩ := x
    simp only [hx] at h
    split_ifs at h with hcp
    · exact absurd h failAt_ne_ok
    · obtain ⟨rfl, rfl⟩ : utf8Put cp = o ∧ s = r' := by simpa using h
      obtain ⟨hsur, hmax⟩ := not_or.mp hcp
      exact ⟨(readHex_spec hx).1, utf8Put_valid (by omega) hsur⟩

/-- A short escape is ASCII on both sides. -/
lemma shortEscape_lt {e b : UInt8} (h : shortEscape e = some b) : e < Ch.del ∧ b < 0x80 := by
  grind [shortEscape]

/-- An escape ends between two characters, and stands for well-formed text. -/
lemma scanEscape_spec {ml : Bool} {r r' o : Bytes} (h : scanEscape ml r = .ok (o, r')) :
    Reaches r r' ∧ Utf8.Valid o := by
  obtain _ | ⟨e, es⟩ := r
  · simp [scanEscape] at h
  rw [scanEscape] at h
  by_cases hml : (ml && (isWs e || e = Ch.lf || e = Ch.cr)) = true
  · rw [if_pos hml] at h
    split_ifs at h with hnl
    · obtain ⟨rfl, rfl⟩ : [] = o ∧ trimLines (e :: es) = r' := by simpa using h
      exact ⟨reaches_trimLines _, .nil⟩
    · exact absurd h failAt_ne_ok
  rw [if_neg hml] at h
  cases hs : shortEscape e with
  | some b =>
    simp only [hs] at h
    obtain ⟨rfl, rfl⟩ : [b] = o ∧ es = r' := by simpa using h
    obtain ⟨he, hb⟩ := shortEscape_lt hs
    exact ⟨(behind_cons he).toReaches, .ascii hb .nil⟩
  | none =>
    simp only [hs] at h
    split_ifs at h with hx hu hU
    · obtain ⟨hr, ho⟩ := hexEscape_spec h
      exact ⟨(behind_cons (hx ▸ by decide)).toReaches.trans hr, ho⟩
    · obtain ⟨hr, ho⟩ := unicodeEscape_spec h
      exact ⟨(behind_cons (hu ▸ by decide)).toReaches.trans hr, ho⟩
    · obtain ⟨hr, ho⟩ := unicodeEscape_spec h
      exact ⟨(behind_cons (hU ▸ by decide)).toReaches.trans hr, ho⟩
    · exact absurd h failAt_ne_ok

/-- A run of bytes below `0x80` at the cut between decoded text and input. -/
lemma valid_replicate_cut {out r : Bytes} {c : UInt8} (hc : c < 0x80) (n m : ℕ)
    (h : Utf8.Valid (out ++ (List.replicate n c ++ r))) :
    Utf8.Valid (out ++ List.replicate m c) ∧ Utf8.Valid r ∨ n = 0 := by
  obtain _ | n := n
  · exact .inr rfl
  · left
    rw [List.replicate_succ, List.cons_append] at h
    obtain ⟨hout, hr⟩ := h.split hc
    refine ⟨hout.append (Utf8.valid_of_ascii ?_), ?_⟩
    · intro d hd
      exact List.eq_of_mem_replicate hd ▸ hc
    · refine hr.of_append_right' ?_
      intro d hd
      exact List.eq_of_mem_replicate hd ▸ hc

/-- What a turn of a scanner does to the decoded text and the input. -/
structure Scanned (s s' : Bytes × Bytes) : Prop where
  /-- The input only shrinks. -/
  suffix : s'.2 <:+ s.2
  /-- It shrinks. -/
  lt : s'.2.length < s.2.length
  /-- Text and input together stay well formed. -/
  valid : Utf8.Valid (s.1 ++ s.2) → Utf8.Valid (s'.1 ++ s'.2)
  /-- No DEL was passed. -/
  clean : Ch.del ∈ s.2 → Ch.del ∈ s'.2

/-- What the last turn of a scanner does. -/
structure ScanStopped (s s' : Bytes × Bytes) : Prop where
  /-- The input only shrinks. -/
  suffix : s'.2 <:+ s.2
  /-- It shrinks. -/
  lt : s'.2.length < s.2.length
  /-- Text and input are well formed each. -/
  valid : Utf8.Valid (s.1 ++ s.2) → Utf8.Valid s'.1 ∧ Utf8.Valid s'.2
  /-- No DEL was passed. -/
  clean : Ch.del ∈ s.2 → Ch.del ∈ s'.2

/-- The quotes in front of an input, and what follows them. -/
lemma replicate_append_drop (quote : UInt8) (r : Bytes) :
    List.replicate (r.takeWhile (· = quote)).length quote ++
      r.drop (r.takeWhile (· = quote)).length = r := by
  induction r with
  | nil => rfl
  | cons c cs ih =>
    by_cases hc : c = quote
    · simp [hc, List.replicate_succ, ih]
    · simp [hc]

lemma scanQuotes_spec {quote : UInt8} (hq : quote < Ch.del) {out r : Bytes}
    (hr : r.head? = some quote) {t : Turn (Bytes × Bytes) (Bytes × Bytes)}
    (h : scanQuotes quote out r = .ok t) :
    ∃ o n, (t = .next (o, r.drop n) ∨ t = .stop (o, r.drop n)) ∧ 0 < n ∧ n ≤ r.length ∧
      (Utf8.Valid (out ++ r) → Utf8.Valid o ∧ Utf8.Valid (r.drop n)) ∧
      (Ch.del ∈ r → Ch.del ∈ r.drop n) := by
  have hlen : 0 < (r.takeWhile (· = quote)).length := by
    obtain _ | ⟨d, r⟩ := r
    · simp at hr
    · obtain rfl : d = quote := by simpa using hr
      simp
  have hle : (r.takeWhile (· = quote)).length ≤ r.length := (List.takeWhile_prefix _).length_le
  have hsplit := replicate_append_drop quote r
  simp only [scanQuotes] at h
  generalize (r.takeWhile (· = quote)).length = run at h hlen hle hsplit
  generalize (if 3 ≤ run then run - 3 else run) = content at h
  have hvalid : ∀ m, Utf8.Valid (out ++ r) →
      Utf8.Valid (out ++ List.replicate m quote) ∧ Utf8.Valid (r.drop run) := by
    intro m hv
    rw [← hsplit] at hv
    rcases valid_replicate_cut (ascii_of_lt hq) run m hv with hv | rfl
    · exact hv
    · omega
  have hclean : Ch.del ∈ r → Ch.del ∈ r.drop run := by
    intro hmem
    rw [← hsplit] at hmem
    rcases List.mem_append.mp hmem with hmem | hmem
    · exact absurd (List.eq_of_mem_replicate hmem ▸ hq) (UInt8.lt_irrefl _)
    · exact hmem
  split_ifs at h with h6 h2
  · exact absurd h failAt_ne_ok
  · obtain rfl := Except.ok.inj h
    exact ⟨_, run, .inl rfl, hlen, hle, hvalid content, hclean⟩
  · obtain rfl := Except.ok.inj h
    exact ⟨_, run, .inr rfl, hlen, hle, hvalid content, hclean⟩

variable {quote : UInt8} {escape : Option (Bytes → Except Diag (Bytes × Bytes))} {ml : Bool}

/-- An escape routine ends between two characters, and gives well-formed text. -/
def EscapeOk (escape : Option (Bytes → Except Diag (Bytes × Bytes))) : Prop :=
  ∀ f ∈ escape, ∀ r o r', f r = .ok (o, r') → Reaches r r' ∧ Utf8.Valid o

lemma scanTurn_next (hq : quote < Ch.del) (hesc : EscapeOk escape) {s s' : Bytes × Bytes}
    (h : scanTurn quote escape ml s = .ok (.next s')) : Scanned s s' := by
  obtain ⟨out, _ | ⟨c, cs⟩⟩ := s
  · simp [scanTurn] at h
  simp only [scanTurn] at h
  split_ifs at h with hquote hml hbs hlf hml hcr hcrlf hctl
  · obtain ⟨o, n, hn, hpos, hle, hv, hclean⟩ := scanQuotes_spec hq (by simp [hquote]) h
    obtain rfl : s' = (o, (c :: cs).drop n) := by simpa using hn
    refine ⟨List.drop_suffix _ _, ?_, fun hval => (hv hval).1.append (hv hval).2, hclean⟩
    simp only [List.length_drop]
    omega
  · simp at h
  · obtain ⟨f, rfl⟩ := Option.isSome_iff_exists.mp hbs.2
    simp only [Option.getD_some] at h
    cases hf : f cs with
    | error e => simp [hf] at h
    | ok x =>
      obtain ⟨o, r⟩ := x
      obtain rfl : (out ++ o, r) = s' := by simpa [hf] using h
      obtain ⟨hr, ho⟩ := hesc f rfl cs o r hf
      refine ⟨hr.suffix.trans (List.suffix_cons _ _), Nat.lt_succ_of_le hr.length_le, ?_,
        fun hmem => hr.clean ((behind_cons (hbs.1 ▸ by decide)).clean hmem)⟩
      intro hval
      obtain ⟨hout, hcs⟩ := hval.split (hbs.1 ▸ by decide)
      exact (hout.append ho).append (hr.valid hcs)
  · obtain rfl : (out ++ [Ch.lf], cs) = s' := by simpa using h
    refine ⟨List.suffix_cons _ _, by simp, fun hval => ?_, (behind_cons (hlf ▸ by decide)).clean⟩
    simpa [← hlf] using hval
  · exact absurd h failAt_ne_ok
  · obtain rfl : (out ++ [Ch.lf], cs.drop 1) = s' := by simpa using h
    have hbehind := behind_drop_one hcrlf.2 (by decide)
    refine ⟨hbehind.suffix.trans (List.suffix_cons _ _), Nat.lt_succ_of_lt hbehind.lt, ?_,
      fun hmem => hbehind.clean ((behind_cons (hcr ▸ by decide)).clean hmem)⟩
    intro hval
    obtain ⟨hout, hcs⟩ := hval.split (hcr ▸ by decide)
    exact (hout.append (Utf8.valid_of_ascii (by simp; decide))).append (hbehind.valid hcs)
  · exact absurd h failAt_ne_ok
  · exact absurd h failAt_ne_ok
  · obtain rfl : (out ++ [c], cs) = s' := by simpa using h
    refine ⟨List.suffix_cons _ _, by simp, fun hval => by simpa using hval, fun hmem => ?_⟩
    rcases List.mem_cons.mp hmem with rfl | hmem
    · exact absurd (by decide) hctl
    · exact hmem

lemma scanTurn_stop (hq : quote < Ch.del) {s s' : Bytes × Bytes}
    (h : scanTurn quote escape ml s = .ok (.stop s')) : ScanStopped s s' := by
  obtain ⟨out, _ | ⟨c, cs⟩⟩ := s
  · simp [scanTurn] at h
  simp only [scanTurn] at h
  split_ifs at h with hquote hml hbs hlf hml hcr hcrlf hctl
  · obtain ⟨o, n, hn, hpos, hle, hv, hclean⟩ := scanQuotes_spec hq (by simp [hquote]) h
    obtain rfl : s' = (o, (c :: cs).drop n) := by simpa using hn
    refine ⟨List.drop_suffix _ _, ?_, hv, hclean⟩
    simp only [List.length_drop]
    omega
  · obtain rfl : (out, cs) = s' := by simpa using h
    exact ⟨List.suffix_cons _ _, by simp, fun hval => hval.split (ascii_of_lt (hquote ▸ hq)),
      (behind_cons (hquote ▸ hq)).clean⟩
  · split at h <;> simp at h
  · simp at h
  · exact absurd h failAt_ne_ok
  · simp at h
  · exact absurd h failAt_ne_ok
  · exact absurd h failAt_ne_ok
  · simp at h

lemma scan_shrinks (hq : quote < Ch.del) (hesc : EscapeOk escape) :
    Shrinks (scanTurn quote escape ml) (fun s => s.2.length) :=
  fun _ _ h => (scanTurn_next hq hesc h).lt

/-- A scanned string is well-formed text, and the scan ends behind its closing quote. -/
lemma scan_spec (hq : quote < Ch.del) (hesc : EscapeOk escape) {r r' str : Bytes}
    (h : loop (scanTurn quote escape ml) Diag.stuck (fun s => s.2.length) ([], r) =
      .ok (str, r')) : Behind r r' ∧ (Utf8.Valid r → Utf8.Valid str) := by
  have hinv := loop_invariant
    (I := fun s => s.2 <:+ r ∧ (Utf8.Valid r → Utf8.Valid (s.1 ++ s.2)) ∧
      (Ch.del ∈ r → Ch.del ∈ s.2))
    (Q := fun s => s.2 <:+ r ∧ s.2.length < r.length ∧
      (Utf8.Valid r → Utf8.Valid s.1 ∧ Utf8.Valid s.2) ∧ (Ch.del ∈ r → Ch.del ∈ s.2))
    (fun s s' hs hn => by
      have hstep := scanTurn_next hq hesc hn
      exact ⟨hstep.suffix.trans hs.1, fun hv => hstep.valid (hs.2.1 hv),
        fun hmem => hstep.clean (hs.2.2 hmem)⟩)
    (fun s s' hs hn => by
      have hstep := scanTurn_stop hq hn
      exact ⟨hstep.suffix.trans hs.1, lt_of_lt_of_le hstep.lt hs.1.length_le,
        fun hv => hstep.valid (hs.2.1 hv), fun hmem => hstep.clean (hs.2.2 hmem)⟩)
    (s := ([], r)) ⟨List.suffix_rfl, id, id⟩ h
  obtain ⟨hsuf, hlt, hval, hclean⟩ := hinv
  exact ⟨⟨⟨hsuf, fun hv => (hval hv).2, hclean⟩, hlt⟩, fun hv => (hval hv).1⟩

lemma escapeOk_scanEscape (ml : Bool) : EscapeOk (some (scanEscape ml)) := by
  intro f hf r o r' h
  obtain rfl : scanEscape ml = f := by simpa using hf
  exact scanEscape_spec h

lemma escapeOk_none : EscapeOk none := by
  intro f hf
  simp at hf

lemma scanBasic_spec {ml : Bool} {r r' str : Bytes} (h : scanBasic ml r = .ok (str, r')) :
    Behind r r' ∧ (Utf8.Valid r → Utf8.Valid str) :=
  scan_spec (by decide) (escapeOk_scanEscape ml) h

lemma scanLiteral_spec {ml : Bool} {r r' str : Bytes} (h : scanLiteral ml r = .ok (str, r')) :
    Behind r r' ∧ (Utf8.Valid r → Utf8.Valid str) :=
  scan_spec (by decide) escapeOk_none h

end Teptris
