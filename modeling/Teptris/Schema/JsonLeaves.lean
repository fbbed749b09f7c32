import Teptris.Schema.JsonRead

/-!
# Strings and numbers of schema texts

`jstring` against the strings of RFC 8259, and `jnumber` against its numbers: a string is read if
and only if it is one (`jstring_iff`), and a number token is an integer of 64 bits or what
`strtod` reads (`jnumber_of`).
-/

namespace Teptris

/-! ## Escapes -/

lemma jhex_eq (c : UInt8) : jhex c = Json.hexVal c := by
  rw [jhex, Json.hexVal]
  by_cases hdec : 0x30 ≤ c ∧ c ≤ 0x39
  · rw [if_pos hdec, if_pos hdec]
  · rw [if_neg hdec, if_neg hdec]
    by_cases hlower : 0x61 ≤ c ∧ c ≤ 0x66
    · have hupper : ¬ (0x41 ≤ c ∧ c ≤ 0x46) := by grind
      rw [if_pos hlower, if_neg hupper, if_pos hlower]
      congr 1
      have : 0x61 ≤ c.toNat := UInt8.le_iff_toNat_le.mp hlower.1
      omega
    · by_cases hupper : 0x41 ≤ c ∧ c ≤ 0x46
      · rw [if_neg hlower, if_pos hupper, if_pos hupper]
        congr 1
        have : 0x41 ≤ c.toNat := UInt8.le_iff_toNat_le.mp hupper.1
        omega
      · rw [if_neg hlower, if_neg hupper, if_neg hupper, if_neg hlower]

/-- Four digits, one after the other. -/
lemma jhex4_cons (a b c d : UInt8) (t : Bytes) :
    jhex4 (a :: b :: c :: d :: t) = Json.hex4 [a, b, c, d] := by
  simp only [jhex4, List.take_succ_cons, List.take_zero, List.foldl_cons, List.foldl_nil, jhex_eq,
    Json.hex4, List.mapM_cons, List.mapM_nil]
  cases Json.hexVal a <;> cases Json.hexVal b <;> cases Json.hexVal c <;> cases Json.hexVal d <;>
    simp

/-- Bits above and bits below. -/
lemma or_shift (k x y b : ℕ) (hb : b < 2 ^ k) (hx : x = 2 ^ k * y) : x ||| b = x + b := by
  rw [hx, Nat.two_pow_add_eq_or_of_lt hb]

lemma jputUtf8_eq {cp : ℕ} (h : cp < 0x110000) : jputUtf8 cp = Json.encode cp := by
  have hlow : ∀ x : ℕ, 0x80 ||| x &&& 0x3F = 0x80 + x % 64 := by
    intro x
    rw [Nat.and_two_pow_sub_one_eq_mod x 6]
    exact or_shift 6 _ 2 _ (Nat.mod_lt _ (by norm_num)) (by norm_num)
  rw [jputUtf8, Json.encode]
  by_cases h1 : cp < 0x80
  · rw [if_pos h1, if_pos h1]
  · rw [if_neg h1, if_neg h1]
    by_cases h2 : cp < 0x800
    · rw [if_pos h2, if_pos h2, hlow, Nat.shiftRight_eq_div_pow,
        or_shift 6 0xC0 3 _ (by omega) (by norm_num)]
    · rw [if_neg h2, if_neg h2]
      by_cases h3 : cp < 0x10000
      · rw [if_pos h3, if_pos h3, hlow, hlow, Nat.shiftRight_eq_div_pow, Nat.shiftRight_eq_div_pow,
          or_shift 5 0xE0 7 _ (by omega) (by norm_num)]
      · rw [if_neg h3, if_neg h3, hlow, hlow, hlow, Nat.shiftRight_eq_div_pow,
          Nat.shiftRight_eq_div_pow, Nat.shiftRight_eq_div_pow,
          or_shift 4 0xF0 15 _ (by omega) (by norm_num)]

lemma jshort_eq (e : UInt8) : jshort e = Json.shortEscape e := by
  rw [jshort, Json.shortEscape]
  grind

lemma jsonDigit_lt {c : UInt8} {v : ℕ} (h : Json.hexVal c = some v) : v < 16 := by
  rw [Json.hexVal] at h
  split_ifs at h with hdec hupper hlower
  · have := UInt8.le_iff_toNat_le.mp hdec.2
    simp at h this
    omega
  · have := UInt8.le_iff_toNat_le.mp hupper.2
    simp at h this
    omega
  · have := UInt8.le_iff_toNat_le.mp hlower.2
    simp at h this
    omega

lemma hex4_lt {a b c d : UInt8} {v : ℕ} (h : Json.hex4 [a, b, c, d] = some v) : v < 0x10000 := by
  simp only [Json.hex4, List.mapM_cons, List.mapM_nil] at h
  cases ha : Json.hexVal a <;> cases hb : Json.hexVal b <;> cases hc : Json.hexVal c <;>
    cases hd : Json.hexVal d <;> simp [ha, hb, hc, hd] at h
  have := jsonDigit_lt ha
  have := jsonDigit_lt hb
  have := jsonDigit_lt hc
  have := jsonDigit_lt hd
  omega

/-- An escape behind `\u` is taken by both readers, or by none. -/
lemma jescapeU_eq (t : Bytes) :
    (match jescapeU t with
      | .error _ => none
      | .ok (cp, t) => if 0xD800 ≤ cp ∧ cp ≤ 0xDFFF then none else some (jputUtf8 cp, t)) =
      Json.readUnicode t := by
  by_cases hlen : t.length < 4
  · rw [jescapeU, if_pos hlen, Json.readUnicode]
    cases Json.hex4 (t.take 4) with
    | none => rfl
    | some hi => exact (if_pos hlen).symm
  · obtain ⟨a, b, c, d, r, rfl⟩ := Json.exists_four (Nat.le_of_not_lt hlen)
    rw [jescapeU, if_neg hlen, jhex4_cons, Json.readUnicode]
    simp only [List.take_succ_cons, List.take_zero, if_neg hlen, List.drop_succ_cons,
      List.drop_zero]
    cases hhex : Json.hex4 [a, b, c, d] with
    | none => rfl
    | some hi =>
      have hhi := hex4_lt hhex
      dsimp only
      by_cases hplain : hi < 0xD800 ∨ 0xE000 ≤ hi
      · have hnot : ¬ (0xD800 ≤ hi ∧ hi ≤ 0xDBFF ∧ 6 ≤ r.length ∧ r.take 2 = [0x5C, 0x75]) := by
          omega
        rw [if_neg hnot, if_pos hplain]
        dsimp only
        rw [if_neg (by omega), jputUtf8_eq (by omega)]
      · rw [if_neg hplain]
        have hlone : ∀ q : Bytes, (if 0xD800 ≤ hi ∧ hi ≤ 0xDFFF then none
            else some (jputUtf8 hi, q)) = (none : Option (Bytes × Bytes)) := fun q =>
          if_pos (by omega)
        by_cases hpair : 6 ≤ r.length ∧ r.take 2 = [0x5C, 0x75]
        · obtain ⟨hr, htwo⟩ := hpair
          obtain ⟨r, rfl⟩ : ∃ r', r = 0x5C :: 0x75 :: r' :=
            ⟨r.drop 2, by rw [← List.take_append_drop 2 r, htwo]; rfl⟩
          obtain ⟨a', b', c', d', r, rfl⟩ := Json.exists_four (t := r) (by simpa using hr)
          simp only [List.drop_succ_cons, List.drop_zero, jhex4_cons, List.take_succ_cons,
            List.take_zero, List.length_cons]
          cases hhex' : Json.hex4 [a', b', c', d'] with
          | none =>
            split_ifs
            · exact hlone _
            · exact hlone _
          | some lo =>
            dsimp only
            by_cases hok : hi ≤ 0xDBFF ∧ 0xDC00 ≤ lo ∧ lo ≤ 0xDFFF
            · have hhigh : 0xD800 ≤ hi := by omega
              have hlow : 0xDC00 ≤ lo ∧ lo < 0xE000 := by omega
              simp only [hhigh, hok, hlow, true_and, and_self, Nat.le_add_left, if_true]
              rw [if_neg (by omega), jputUtf8_eq (by omega), if_pos ⟨by omega, trivial⟩]
              rfl
            · rw [if_neg (c := _ ∧ _ ∧ _ ∧ _ ∧ _) (by omega)]
              split_ifs
              · omega
              · exact hlone _
              · exact hlone _
        · have hnot : ¬ (0xD800 ≤ hi ∧ hi ≤ 0xDBFF ∧ 6 ≤ r.length ∧ r.take 2 = [0x5C, 0x75]) :=
            fun h => hpair h.2.2
          rw [if_neg hnot]
          dsimp only
          rw [hlone]
          cases Json.hex4 ((List.drop 2 r).take 4) with
          | none => rfl
          | some lo =>
            refine (if_neg fun h => hpair ⟨?_, h.2.1⟩).symm
            have := h.1
            simp only [List.length_cons] at this
            omega

/-! ## Strings -/

/-- A result, without its message. -/
def JResult.toOption {α : Type} : JResult α → Option α
  | .error _ => none
  | .ok a => some a

lemma jchar_eq {ch : UInt8} (h : ch ≠ 0x22) (t : Bytes) :
    (jchar ch t).toOption = Json.readChar (ch :: t) := by
  rw [jchar.eq_def, Json.readChar.eq_def]
  dsimp only
  by_cases hctl : ch < 0x20
  · have hslash : ch ≠ 0x5C := by
      rintro rfl
      exact absurd hctl (by decide)
    rw [if_pos hctl, if_neg hslash, if_neg fun hc => absurd hc.1 (UInt8.not_le.mpr hctl)]
    rfl
  · rw [if_neg hctl]
    by_cases hslash : ch = 0x5C
    · rw [if_neg (not_not.mpr hslash), if_pos hslash]
      cases t with
      | nil => rfl
      | cons e t =>
        dsimp only
        by_cases hu : e = 0x75
        · rw [if_pos hu, if_pos hu, ← jescapeU_eq]
          cases jescapeU t with
          | error f => rfl
          | ok p =>
            dsimp only
            split_ifs <;> rfl
        · rw [if_neg hu, if_neg hu, ← jshort_eq]
          cases jshort e <;> rfl
    · rw [if_pos hslash, if_neg hslash, if_pos ⟨UInt8.not_lt.mp hctl, h⟩]
      rfl

lemma jrebuild_eq (n : ℕ) (t : Bytes) : (jrebuild n t).toOption = Json.readChars n t := by
  induction n generalizing t with
  | zero => rfl
  | succ n ih =>
    cases t with
    | nil => rfl
    | cons ch t =>
      rw [jrebuild, Json.readChars]
      by_cases hquote : ch = 0x22
      · subst hquote
        rfl
      · have hchar := jchar_eq hquote t
        rw [if_neg hquote, if_neg (by simpa using hquote), ← hchar]
        cases jchar ch t with
        | error f => rfl
        | ok p =>
          have hrest := ih p.2
          simp only [JResult.toOption]
          rw [← hrest]
          cases jrebuild n p.2 <;> rfl

lemma toOption_eq_some {α : Type} {x : JResult α} {a : α} : x.toOption = some a ↔ x = .ok a := by
  cases x with
  | error f => simp [JResult.toOption]
  | ok b => simp [JResult.toOption]

/-- The bytes the fast scan steps over stand for themselves. -/
lemma isChars_of_isPlainChar {t : Bytes} (h : ∀ c ∈ t, isPlainChar c = true) :
    Json.IsChars t t := by
  induction t with
  | nil => exact .nil
  | cons c t ih =>
    have hc := h c List.mem_cons_self
    simp only [isPlainChar, Bool.and_eq_true, bne_iff_ne, decide_eq_true_eq] at hc
    exact .cons (.unescaped hc.2 hc.1.1 hc.1.2) (ih fun d hd => h d (List.mem_cons_of_mem c hd))

/-- The reader of strings steps over them, too. -/
lemma readChars_plain {p : Bytes} (h : ∀ c ∈ p, isPlainChar c = true) (n : ℕ) (t : Bytes) :
    Json.readChars (n + p.length) (p ++ t) =
      (Json.readChars n t).map fun r => (p ++ r.1, r.2) := by
  induction p with
  | nil => simp
  | cons c p ih =>
    have hc := h c List.mem_cons_self
    simp only [isPlainChar, Bool.and_eq_true, bne_iff_ne, decide_eq_true_eq] at hc
    have hchar : Json.readChar (c :: (p ++ t)) = some ([c], p ++ t) :=
      Json.readChar_eq (.unescaped hc.2 hc.1.1 hc.1.2) (p ++ t)
    rw [List.cons_append, List.length_cons, ← Nat.add_assoc, Json.readChars,
      if_neg (by simpa using hc.1.1), hchar]
    simp only [ih fun d hd => h d (List.mem_cons_of_mem c hd), Option.map_map]
    rfl

lemma jstring_eq (t : Bytes) : (jstring t).toOption = Json.readChars (t.length + 1) t := by
  have hplain : ∀ c ∈ t.takeWhile isPlainChar, isPlainChar c = true :=
    fun c hc => List.mem_takeWhile_imp hc
  have hsplit : t.takeWhile isPlainChar ++ t.dropWhile isPlainChar = t :=
    List.takeWhile_append_dropWhile
  have hlen : (t.dropWhile isPlainChar).length + 1 + (t.takeWhile isPlainChar).length =
      t.length + 1 := by
    conv_rhs => rw [← hsplit]
    rw [List.length_append]
    omega
  have hread := readChars_plain hplain ((t.dropWhile isPlainChar).length + 1)
    (t.dropWhile isPlainChar)
  rw [hlen, hsplit] at hread
  rw [hread, jstring.eq_def]
  cases t.dropWhile isPlainChar with
  | nil => rfl
  | cons ch q =>
    dsimp only
    by_cases hquote : ch = 0x22
    · subst hquote
      simp [Json.readChars, JResult.toOption]
    · rw [if_neg hquote, List.length_cons, ← jrebuild_eq]
      cases jrebuild (q.length + 1 + 1) (ch :: q) <;> rfl

/-- `jstring` reads the strings of RFC 8259, and nothing else. -/
lemma jstring_iff {t s r : Bytes} :
    jstring t = .ok (s, r) ↔ ∃ k, Json.IsChars k s ∧ t = k ++ 0x22 :: r := by
  rw [← toOption_eq_some, jstring_eq]
  constructor
  · exact Json.readChars_sound
  · rintro ⟨k, hk, rfl⟩
    exact Json.readChars_eq hk (by rw [List.length_append]; omega) r

/-! ## Numbers -/

/-- A token is written as an integer, and that is an `int64_t`. -/
def IsInt64 (tok : Bytes) (i : Int64) : Prop :=
  ∃ (neg : Bool) (ds : Bytes), Json.IsInt ds ∧ tok = (if neg then [0x2D] else []) ++ ds ∧
    i.toInt = if neg then -(Json.digitsVal ds : ℤ) else Json.digitsVal ds

/-- The number of a token: an `int64_t` exactly, if it is written as one, and else what `strtod`
reads. -/
inductive IsJNum (strtod : Bytes → Double) : Bytes → JNum → Prop
  /-- An integer. -/
  | int {tok : Bytes} {i : Int64} (h : IsInt64 tok i) : IsJNum strtod tok (.int i)
  /-- Another number. -/
  | num {tok : Bytes} {neg : Bool} {mag : ℚ} (h : Json.IsNumber tok neg mag)
      (hnot : ∀ i, ¬ IsInt64 tok i) : IsJNum strtod tok (.num (strtod tok))

section Numbers

variable {strtod : Bytes → Double} {tok : Bytes} {neg : Bool} {mag : ℚ}

/-- A digit is no sign. -/
lemma head_signed {ds : Bytes} (hne : ds ≠ []) (hd : ∀ c ∈ ds.head?, Json.isDigit c = true) :
    decide (((if neg then [0x2D] else []) ++ ds).head? = some Ch.minus) = neg ∧
      (if neg then ((if neg then [0x2D] else []) ++ ds).drop 1
        else (if neg then [0x2D] else []) ++ ds) = ds := by
  obtain ⟨c, ds, rfl⟩ := List.exists_cons_of_ne_nil hne
  have hc : c ≠ Ch.minus := by
    rintro rfl
    exact absurd (hd _ rfl) (by decide)
  cases neg <;> simp [hc, Ch.minus]

lemma jnumber_int {i : Int64} (h : IsInt64 tok i) : jnumber strtod tok = .int i := by
  obtain ⟨neg, ds, hint, rfl, hi⟩ := h
  obtain ⟨hhead, hdrop⟩ := @head_signed neg _ hint.ne_nil fun c hc =>
    hint.digits c (List.mem_of_mem_head? hc)
  have hall : ds.all isDec = true := List.all_eq_true.mpr hint.digits
  have hlow := i.le_toInt
  have hhigh := i.toInt_lt
  rw [jnumber, hhead]
  simp only [hdrop]
  have hval : (if neg then -(decVal ds : ℤ) else decVal ds) = i.toInt := hi.symm
  rw [hval, if_pos ⟨hint.ne_nil, hall, hlow, hhigh⟩, Int64.ofInt_toInt]

lemma jnumber_num (h : Json.IsNumber tok neg mag) (hnot : ∀ i, ¬ IsInt64 tok i) :
    jnumber strtod tok = .num (strtod tok) := by
  obtain ⟨int, frac, ds, exp, e, hint, hfrac, hexp, rfl, -⟩ := h
  have hne : int ++ frac ++ exp ≠ [] := by
    simp [hint.ne_nil]
  obtain ⟨c, int', rfl⟩ := List.exists_cons_of_ne_nil hint.ne_nil
  obtain ⟨hhead, hdrop⟩ := @head_signed neg _ hne fun d hd => by
    obtain rfl := Option.some.inj hd
    exact hint.digits c List.mem_cons_self
  rw [← List.append_assoc, ← List.append_assoc] at hhead hdrop
  rw [jnumber, hhead]
  simp only [hdrop]
  refine if_neg fun hok => hnot (.ofInt (if neg then -(decVal (c :: int' ++ frac ++ exp) : ℤ)
    else decVal (c :: int' ++ frac ++ exp))) ⟨neg, c :: int' ++ frac ++ exp, ?_, by simp, ?_⟩
  · -- Digits only leave neither a fraction nor an exponent.
    have hall := List.all_eq_true.mp hok.2.1
    have hnofrac : frac = [] := by
      cases hfrac with
      | absent => rfl
      | digits => exact absurd (hall 0x2E (by simp)) (by decide)
    have hnoexp : exp = [] := by
      cases hexp with
      | absent => rfl
      | unsigned hmark | signed hmark =>
        have hmem := hall _ (List.mem_append_right _ (List.mem_cons_self ..))
        rcases hmark with rfl | rfl <;> exact absurd hmem (by decide)
    rwa [hnofrac, hnoexp, List.append_nil, List.append_nil]
  · rw [Int64.toInt_ofInt_of_le (by exact hok.2.2.1) (by exact hok.2.2.2)]
    rfl

/-- A number token is read as its number. -/
lemma isJNum_jnumber (h : Json.IsNumber tok neg mag) : IsJNum strtod tok (jnumber strtod tok) := by
  by_cases hint : ∃ i, IsInt64 tok i
  · obtain ⟨i, hi⟩ := hint
    rw [jnumber_int hi]
    exact .int hi
  · rw [jnumber_num h fun i hi => hint ⟨i, hi⟩]
    exact .num h fun i hi => hint ⟨i, hi⟩

lemma IsJNum.eq {n : JNum} (h : IsJNum strtod tok n) : jnumber strtod tok = n := by
  cases h with
  | int h => exact jnumber_int h
  | num h hnot => exact jnumber_num h hnot

/-- Its token is a number of the grammar. -/
lemma IsJNum.isNumber {n : JNum} (h : IsJNum strtod tok n) :
    ∃ neg mag, Json.IsNumber tok neg mag := by
  cases h with
  | int h =>
    obtain ⟨neg, ds, hint, rfl, -⟩ := h
    exact ⟨neg, _, ds, [], [], [], 0, hint, .absent, .absent, by simp, rfl⟩
  | num h => exact ⟨_, _, h⟩

end Numbers

end Teptris
