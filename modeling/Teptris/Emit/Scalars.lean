import Teptris.Emit.Decimal
import Teptris.Emit.Quoted

/-!
# Scalars read back

The texts of `emit_value` for strings, numbers, booleans and datetimes against
`teptris_parse_value`: each is read as the scalar it was written for, where a NaN comes back as
the one NaN the parser knows.  What the conversions of doubles have to do for that is
`FloatConv.RoundTrips`.
-/

namespace Teptris

/-! ## Digits in front of something else -/

section Digits

variable {ds q : Bytes}

/-- A byte of the digits. -/
lemma byteAt_digits (hds : ∀ c ∈ ds, isDec c = true) {i : ℕ} (hi : i < ds.length) :
    isDec (byteAt (ds ++ q) i) = true := by
  rw [byteAt, List.getD_eq_getElem?_getD, List.getElem?_append_left hi,
    List.getElem?_eq_getElem hi, Option.getD_some]
  exact hds _ (List.getElem_mem hi)

/-- The byte behind the digits. -/
lemma byteAt_behind : byteAt (ds ++ q) ds.length = q.head?.getD 0 := by
  rw [byteAt, List.getD_eq_getElem?_getD, List.getElem?_append_right (Nat.le_refl _), Nat.sub_self,
    List.head?_eq_getElem?]

/-- Digits in front of neither a digit, a minus nor a colon are no date and no time. -/
lemma datetimeLookahead_digits (hds : ∀ c ∈ ds, isDec c = true)
    (hq : ∀ c ∈ q.head?, isDec c = false ∧ c ≠ Ch.minus ∧ c ≠ Ch.colon) :
    datetimeLookahead (ds ++ q) = false := by
  have hbehind : isDec (byteAt (ds ++ q) ds.length) = false ∧
      byteAt (ds ++ q) ds.length ≠ Ch.minus ∧ byteAt (ds ++ q) ds.length ≠ Ch.colon := by
    rw [byteAt_behind]
    cases hhead : q.head? with
    | none => decide
    | some c => exact hq c (by simp [hhead])
  have hmark : ∀ {c : UInt8} {i : ℕ}, isDec c = false → byteAt (ds ++ q) i = c →
      ¬ i < ds.length := by
    intro c i hc hi hlt
    have := byteAt_digits (q := q) hds hlt
    rw [hi, hc] at this
    exact absurd this (by decide)
  have hstop : ∀ {i : ℕ}, digAt (ds ++ q) i = true → i ≠ ds.length := by
    rintro i hi rfl
    rw [digAt, hbehind.1] at hi
    exact absurd hi (by decide)
  rw [datetimeLookahead, Bool.or_eq_false_iff]
  constructor
  · by_contra hdate
    simp only [dateShape, Bool.not_eq_false, Bool.and_eq_true, decide_eq_true_eq, beq_iff_eq]
      at hdate
    obtain ⟨⟨⟨⟨⟨⟨⟨⟨⟨⟨-, h4⟩, -⟩, h0⟩, h1⟩, h2⟩, h3⟩, -⟩, -⟩, -⟩, -⟩ := hdate
    have hlen := hmark (by decide) h4
    have hne : (4 : ℕ) ≠ ds.length := fun h => hbehind.2.1 (h ▸ h4)
    have := hstop h0
    have := hstop h1
    have := hstop h2
    have := hstop h3
    omega
  · by_contra htime
    simp only [timeShape, Bool.not_eq_false, Bool.and_eq_true, decide_eq_true_eq, beq_iff_eq]
      at htime
    obtain ⟨⟨⟨⟨⟨-, h2⟩, h0⟩, h1⟩, -⟩, -⟩ := htime
    have hlen := hmark (by decide) h2
    have hne : (2 : ℕ) ≠ ds.length := fun h => hbehind.2.2 (h ▸ h2)
    have := hstop h0
    have := hstop h1
    omega

/-- Nothing a number goes on with stands in front of it. -/
def Halts (q : Bytes) : Prop := ∀ c ∈ q.head?, isDec c = false ∧ c ≠ Ch.under

lemma Ends.halts (h : Ends q) : Halts q :=
  fun c hc => ⟨h.not_dec c hc, by rintro rfl; exact h.head_ne (by decide) hc⟩

lemma Halts.not_dec (h : Halts q) : ∀ c ∈ q.head?, isDec c = false := fun c hc => (h c hc).1

lemma Halts.not_under (h : Halts q) : q.head? ≠ some Ch.under := fun hc => (h _ hc).2 rfl

/-- A run of digits is scanned to its end. -/
lemma scanRunFrom_digits (hds : ∀ c ∈ ds, isDec c = true) (hq : Halts q) {buf : Bytes} {prev : Bool}
    (hprev : ds = [] → prev = true) (hlen : buf.length + ds.length < numMax)
    (hne : buf ++ ds ≠ []) : scanRunFrom 10 buf prev (ds ++ q) = .ok (buf ++ ds, q) := by
  induction ds generalizing buf prev with
  | nil =>
    have hfinish : scanRunFrom.finish buf prev q = .ok (buf, q) := by
      rw [List.append_nil] at hne
      have hlen0 : buf.length ≠ 0 := by simpa using hne
      rw [scanRunFrom.finish, if_neg hlen0, hprev rfl]
      rfl
    rw [List.nil_append, List.append_nil]
    cases q with
    | nil => exact hfinish
    | cons c cs =>
      have hc := hq c rfl
      have hdigit : digitFor c 10 = false := hc.1
      rw [scanRunFrom, if_neg (by simp [hdigit]), if_neg hc.2]
      exact hfinish
  | cons c ds ih =>
    have hdigit : digitFor c 10 = true := hds c (by simp)
    rw [List.length_cons] at hlen
    rw [List.cons_append, scanRunFrom, if_pos hdigit, if_neg (by omega),
      ih (fun d hd => hds d (by simp [hd])) (fun _ => rfl)
        (by rw [List.length_append, List.length_singleton]; omega) (by simp)]
    simp

lemma scanRun_digits (hds : ∀ c ∈ ds, isDec c = true) (hq : Halts q) (hlen : ds.length < numMax)
    (hne : ds ≠ []) : scanRun 10 (ds ++ q) = .ok (ds, q) :=
  scanRunFrom_digits hds hq (fun h => absurd h hne) (by simpa using hlen) hne

/-- More digits make a number no smaller. -/
lemma le_decFrom (m : ℕ) (ds : Bytes) : m ≤ decFrom m ds := by
  induction ds generalizing m with
  | nil => exact Nat.le_refl m
  | cons c ds ih =>
    have hstep : decFrom m (c :: ds) = decFrom (m * 10 + (c.toNat - 0x30)) ds := rfl
    have := ih (m * 10 + (c.toNat - 0x30))
    rw [hstep]
    omega

/-- Digits bound their number. -/
lemma decFrom_lt (hds : ∀ c ∈ ds, isDec c = true) (m : ℕ) :
    decFrom m ds < (m + 1) * 10 ^ ds.length := by
  induction ds generalizing m with
  | nil => simp [decFrom]
  | cons c ds ih =>
    have hc : c.toNat - 0x30 ≤ 9 := by
      have := hds c (by simp)
      simp only [isDec, Bool.and_eq_true, decide_eq_true_eq, UInt8.le_iff_toNat_le] at this
      have h39 : (0x39 : UInt8).toNat = 57 := rfl
      omega
    have hstep : decFrom m (c :: ds) = decFrom (m * 10 + (c.toNat - 0x30)) ds := rfl
    have hih := ih (fun d hd => hds d (by simp [hd])) (m * 10 + (c.toNat - 0x30))
    have hmul : (m * 10 + (c.toNat - 0x30) + 1) * 10 ^ ds.length ≤
        (m + 1) * 10 ^ (ds.length + 1) := by
      rw [Nat.pow_succ', ← Nat.mul_assoc]
      exact Nat.mul_le_mul_right _ (by omega)
    rw [hstep, List.length_cons]
    exact lt_of_lt_of_le hih hmul

/-- The digits of a number below `2 ^ 64` are summed up without overflow. -/
lemma magFrom_digits (hds : ∀ c ∈ ds, isDec c = true) {m : ℕ} (h : decFrom m ds < 2 ^ 64) :
    magFrom 10 m ds = some (decFrom m ds) := by
  induction ds generalizing m with
  | nil => rfl
  | cons c ds ih =>
    have hdec := hds c (by simp)
    have hval : hexVal c = c.toNat - 0x30 := by
      simp only [isDec, Bool.and_eq_true, decide_eq_true_eq] at hdec
      rw [hexVal, if_pos hdec.2]
    have hstep : decFrom m (c :: ds) = decFrom (m * 10 + (c.toNat - 0x30)) ds := rfl
    rw [hstep] at h ⊢
    have hle := le_decFrom (m * 10 + (c.toNat - 0x30)) ds
    rw [magFrom, hval, if_neg (by omega)]
    exact ih (fun d hd => hds d (by simp [hd])) h

/-- A number without a leading zero has no radix prefix. -/
lemma radixOf_digits (hne : ds ≠ [])
    (hlead : ds.head? = some Ch.zero → ds = [Ch.zero])
    (hq : ∀ c ∈ q.head?, c ≠ 0x78 ∧ c ≠ 0x6F ∧ c ≠ 0x62) : radixOf (ds ++ q) = none := by
  rw [radixOf]
  split_ifs with hz h16 h8 h2
  all_goals try rfl
  all_goals
    exfalso
    rw [List.head?_append_of_ne_nil _ hne] at hz
    rw [hlead hz] at *
    have hsecond : ([Ch.zero] ++ q)[1]? = q.head? := by cases q <;> rfl
  · rw [hsecond] at h16
    exact (hq _ h16).1 rfl
  · rw [hsecond] at h8
    exact (hq _ h8).2.1 rfl
  · rw [hsecond] at h2
    exact (hq _ h2).2.2 rfl

/-- What `teptris_parse_number` does behind the sign of a decimal number. -/
lemma parseUnsigned_digits (fc : FloatConv) (signedInput neg : Bool)
    (hds : ∀ c ∈ ds, isDec c = true) (hne : ds ≠ [])
    (hlead : ds.head? = some Ch.zero → ds = [Ch.zero])
    (hq : ∀ c ∈ q.head?, c ≠ 0x78 ∧ c ≠ 0x6F ∧ c ≠ 0x62) :
    parseUnsigned fc signedInput neg (ds ++ q) = decimal fc signedInput neg (ds ++ q) := by
  have hradix := radixOf_digits hne hlead hq
  obtain ⟨c, cs, rfl⟩ := List.exists_cons_of_ne_nil hne
  have hc := hds c (by simp)
  obtain ⟨-, -, -, -, -, -, hi, hn, -, -⟩ := isDec_dispatch hc
  rw [List.cons_append] at hradix ⊢
  simp only [parseUnsigned, if_neg hi, if_neg hn, hc, Bool.not_true, Bool.false_eq_true, if_false,
    hradix]

end Digits

/-! ## Integers -/

/-- What follows a scalar starts no fraction and no exponent. -/
lemma Ends.not_mark {r : Bytes} (h : Ends r) : atFloatMark r = false := by
  have h1 : r.head? ≠ some Ch.dot := h.head_ne (by decide)
  have h2 : r.head? ≠ some 0x65 := h.head_ne (by decide)
  have h3 : r.head? ≠ some 0x45 := h.head_ne (by decide)
  simp [atFloatMark, atExp, h1, h2, h3]

/-- What follows a scalar is no radix mark. -/
lemma Ends.not_radix {r : Bytes} (h : Ends r) :
    ∀ c ∈ r.head?, c ≠ 0x78 ∧ c ≠ 0x6F ∧ c ≠ 0x62 := by
  intro c hc
  refine ⟨?_, ?_, ?_⟩ <;> rintro rfl <;> exact h.head_ne (by decide) hc

/-- An integer is read with its sign. -/
lemma decimal_integer (fc : FloatConv) (signedInput neg : Bool) {t : Bytes} {mag : ℕ}
    (ht : IsDecimal t mag) (hmag : mag < 2 ^ 64) (hlen : t.length < numMax) {r : Bytes}
    (hr : Ends r) : decimal fc signedInput neg (t ++ r) = signedInteger neg mag r := by
  obtain ⟨htake, hdrop⟩ := Runs.cut ht.digits hr.not_dec
  have hzero : ¬ (t.head? = some Ch.zero ∧ 1 < t.length) := by
    rintro ⟨hz, hlong⟩
    rw [ht.lead hz] at hlong
    simp at hlong
  have hpos : 0 < t.length := List.length_pos_iff.mpr ht.ne_nil
  rw [decimal]
  simp only [htake, hdrop]
  by_cases hplain : 0 < t.length ∧ t.length ≤ 18 ∧ r.head? ≠ some Ch.under
  · -- at most eighteen digits fit without a check
    have hsmall : mag < 10 ^ 18 := by
      have hlt := decFrom_lt ht.digits 0
      rw [← ht.val]
      refine lt_of_lt_of_le hlt ?_
      rw [Nat.zero_add, Nat.one_mul]
      exact Nat.pow_le_pow_right (by decide) hplain.2.1
    rw [if_pos hplain, if_neg hzero, hr.not_mark, ht.val, signedInteger, if_neg Bool.false_ne_true]
    cases neg
    · rw [if_neg Bool.false_ne_true, if_neg Bool.false_ne_true, if_neg (by omega)]
    · rw [if_pos rfl, if_pos rfl, if_neg (by omega), if_neg (by omega)]
  · have hval : decFrom 0 t = mag := ht.val
    have hsum := magFrom_digits (m := 0) ht.digits (by rw [hval]; exact hmag)
    rw [if_neg hplain, slowDecimal, scanRun_digits ht.digits hr.halts hlen ht.ne_nil]
    simp only [if_neg hzero, hr.not_mark, Bool.false_eq_true, if_false, hsum, hval]

/-- The sign and the magnitude of an integer are the integer. -/
lemma signedInteger_natAbs (v : Int64) (r : Bytes) :
    signedInteger (decide (v < 0)) v.toInt.natAbs r = .ok (.integer v, r) := by
  have hle := natAbs_toInt_lt v
  have hlt := v.toInt_lt
  have hmin : (-2 ^ 63 : ℤ) ≤ v.toInt := v.le_toInt
  have hneg : v < 0 ↔ v.toInt < 0 := Int64.lt_iff_toInt_lt
  rw [signedInteger]
  by_cases h : v < 0
  · have hvneg := hneg.mp h
    simp only [h, decide_true, if_true]
    rw [if_neg (by omega)]
    congr 3
    split_ifs with hbound
    · apply Int64.toInt_inj.mp
      rw [Int64.toInt_minValue]
      omega
    · apply Int64.toInt_inj.mp
      rw [Int64.toInt_neg, Int64.toInt_ofNat_of_lt (by omega)]
      rw [Int.bmod_eq_of_le (by omega) (by omega)]
      omega
  · have hvpos : ¬ v.toInt < 0 := fun hc => h (hneg.mpr hc)
    simp only [h, decide_false, Bool.false_eq_true, if_false]
    rw [if_neg (by omega)]
    congr 3
    apply Int64.toInt_inj.mp
    rw [Int64.toInt_ofNat_of_lt (by omega)]
    omega

/-! ## Values of digits -/

lemma length_decText_le (n mag : ℕ) : (decText n mag).length ≤ n := by
  induction n generalizing mag with
  | zero => exact Nat.le_refl 0
  | succ n ih =>
    have := ih (mag / 10)
    rw [decText]
    split_ifs
    · simp
    · rw [List.length_append, List.length_singleton]
      omega

lemma length_natText_le (mag : ℕ) : (natText mag).length ≤ 20 := length_decText_le 20 mag

section Dispatch

variable (fc : FloatConv) (array inline : Bytes → Res Node)

/-- What stands behind the leading digits of a number. -/
def LeadsOn (q : Bytes) : Prop :=
  ∀ c ∈ q.head?, isDec c = false ∧ c ≠ Ch.minus ∧ c ≠ Ch.colon ∧ c ≠ 0x78 ∧ c ≠ 0x6F ∧ c ≠ 0x62

lemma Ends.leadsOn {r : Bytes} (h : Ends r) : LeadsOn r := by
  intro c hc
  refine ⟨h.not_dec c hc, ?_, ?_, h.not_radix c hc⟩ <;> rintro rfl <;>
    exact h.head_ne (by decide) hc

/-- A decimal number with or without a minus sign is read behind its sign. -/
lemma valueDispatch_decimal (neg : Bool) {ds q : Bytes} (hds : ∀ c ∈ ds, isDec c = true)
    (hne : ds ≠ []) (hlead : ds.head? = some Ch.zero → ds = [Ch.zero]) (hq : LeadsOn q) :
    valueDispatch fc array inline ((if neg then [Ch.minus] else []) ++ (ds ++ q)) =
      decimal fc neg neg (ds ++ q) := by
  have hunsigned := parseUnsigned_digits fc neg neg hds hne hlead fun c hc =>
    (hq c hc).2.2.2
  cases neg
  · have hlook := datetimeLookahead_digits hds fun c hc =>
      ⟨(hq c hc).1, (hq c hc).2.1, (hq c hc).2.2.1⟩
    have hnumber : parseNumber fc false (ds ++ q) = decimal fc false false (ds ++ q) := hunsigned
    rw [if_neg Bool.false_ne_true, List.nil_append, ← hnumber]
    obtain ⟨c, cs, rfl⟩ := List.exists_cons_of_ne_nil hne
    rw [List.cons_append] at hlook ⊢
    rw [valueDispatch_digit fc array inline (hds c (by simp)), hlook, if_neg Bool.false_ne_true]
  · have hsigned : parseNumber fc true (Ch.minus :: (ds ++ q)) = decimal fc true true (ds ++ q) :=
      hunsigned
    rw [if_pos rfl, List.singleton_append, ← hsigned]
    rfl

/-- The text of an integer is read as that integer. -/
lemma valueDispatch_integer (v : Int64) {r : Bytes} (hr : Ends r) :
    valueDispatch fc array inline (emitI64 v ++ r) = .ok (.integer v, r) := by
  have hlt := natAbs_toInt_lt v
  have hdec := @isDecimal_natText v.toInt.natAbs (by omega)
  have hlen : (natText v.toInt.natAbs).length < numMax :=
    lt_of_le_of_lt (length_natText_le _) (by decide)
  have htext : emitI64 v ++ r =
      (if decide (v < 0) then [Ch.minus] else []) ++ (natText v.toInt.natAbs ++ r) := by
    simp [emitI64]
  rw [htext, valueDispatch_decimal fc array inline _ hdec.digits hdec.ne_nil hdec.lead hr.leadsOn,
    decimal_integer fc _ _ hdec (by omega) hlen hr, signedInteger_natAbs]

end Dispatch

/-! ## Floats -/

/-- Conversions that keep a finite double: `ryu` writes digits that round to it, and whatever
rounds to it is read as it. -/
structure FloatConv.RoundTrips (fc : FloatConv) (f : Double) : Prop where
  /-- The digits round to it. -/
  writes : fc.Writes f
  /-- They fit the buffer of `emit_float`. -/
  length : (fc.ryuD2s f).length ≤ 24
  /-- `ryu` reads a number that rounds to it as it, or declines. -/
  ryu {t : Bytes} {mag : ℚ} (h : Json.IsNumber t f.signBit mag) (hnear : f.IsNearest mag) :
    ∀ g ∈ fc.ryuS2d t, g = f
  /-- `strtod` reads a number that rounds to it as it. -/
  strtod {t : Bytes} {mag : ℚ} (h : Json.IsNumber t f.signBit mag) (hnear : f.IsNearest mag) :
    fc.strtod t = f
  /-- A product of doubles is rounded once. -/
  mul {m k : ℕ} (hm : m < 10 ^ 15) (hk : k ≤ 22) (hnear : f.IsNearest (m * 10 ^ k)) :
    (if f.signBit then (fc.mulPow10 m k).negate else fc.mulPow10 m k) = f
  /-- A quotient of doubles is rounded once. -/
  div {m k : ℕ} (hm : m < 10 ^ 15) (hk : k ≤ 22) (hnear : f.IsNearest (m / 10 ^ k)) :
    (if f.signBit then (fc.divPow10 m k).negate else fc.divPow10 m k) = f

/-- Whoever reads a copied number, `ryu` or `strtod`. -/
lemma FloatConv.RoundTrips.readDouble {fc : FloatConv} {f : Double} (h : fc.RoundTrips f)
    {t : Bytes} {mag : ℚ} (ht : Json.IsNumber t f.signBit mag) (hnear : f.IsNearest mag) :
    Teptris.readDouble fc t = f := by
  rw [Teptris.readDouble]
  cases hryu : fc.ryuS2d t with
  | none => exact h.strtod ht hnear
  | some g => exact h.ryu ht hnear g hryu

/-- One exact product or quotient of doubles, and the sign. -/
lemma FloatConv.RoundTrips.scaled {fc : FloatConv} {f : Double} (h : fc.RoundTrips f) {m : ℕ}
    {k : ℤ} (hm : m < 10 ^ 15) (hlow : -22 ≤ k) (hhigh : k ≤ 22)
    (hnear : f.IsNearest (m * 10 ^ k)) :
    (if f.signBit = true then
        (if 0 ≤ k then fc.mulPow10 m k.toNat else fc.divPow10 m (-k).toNat).negate
      else if 0 ≤ k then fc.mulPow10 m k.toNat else fc.divPow10 m (-k).toNat) = f := by
  by_cases hpos : 0 ≤ k
  · have hmul := h.mul hm (k := k.toNat) (by omega)
      (by rwa [← zpow_natCast, Int.toNat_of_nonneg hpos])
    simpa only [if_pos hpos] using hmul
  · have hdiv := h.div hm (k := (-k).toNat) (by omega)
      (by rwa [div_eq_mul_inv, ← zpow_natCast, Int.toNat_of_nonneg (by omega), ← zpow_neg,
        neg_neg])
    simpa only [if_neg hpos] using hdiv

/-- One digit of the saturating exponent. -/
def expStep (e : ℕ) (c : UInt8) : ℕ := if e < 100000 then e * 10 + (c.toNat - 0x30) else e

/-- The saturating exponent is exact where it has not saturated. -/
lemma foldl_expStep (ds : Bytes) (e : ℕ) :
    (100000 ≤ e → ds.foldl expStep e = e) ∧
      (ds.foldl expStep e < 100000 → ds.foldl expStep e = decFrom e ds) := by
  induction ds generalizing e with
  | nil => exact ⟨fun _ => rfl, fun _ => rfl⟩
  | cons c ds ih =>
    have hcons : (c :: ds).foldl expStep e = ds.foldl expStep (expStep e c) := rfl
    have hdec : decFrom e (c :: ds) = decFrom (e * 10 + (c.toNat - 0x30)) ds := rfl
    rw [hcons, hdec]
    by_cases he : e < 100000
    · rw [expStep, if_pos he]
      exact ⟨fun hge => by omega, (ih _).2⟩
    · rw [expStep, if_neg he, (ih e).1 (by omega)]
      exact ⟨fun _ => rfl, fun hlt => absurd hlt he⟩

lemma expVal_eq {ds : Bytes} (h : expVal ds ≤ 400) : expVal ds = decVal ds :=
  (foldl_expStep ds 0).2 (by
    have hfold : ds.foldl expStep 0 = expVal ds := rfl
    omega)

namespace FloatParts

/-- The fraction with its point. -/
def fracText (p : FloatParts) : Bytes := if p.frac = [] then [] else Ch.dot :: p.frac

lemma text_eq (p : FloatParts) : p.text = p.int ++ p.fracText ++ p.expText := rfl

variable {p : FloatParts} {r : Bytes}

/-- What follows the fraction. -/
lemma expText_head (hr : Ends r) :
    ∀ c ∈ (p.expText ++ r).head?, isDec c = false ∧ c ≠ Ch.under ∧ c ≠ Ch.dot := by
  rw [expText]
  cases p.exp with
  | none => exact fun c hc => ⟨hr.not_dec c hc, (hr.halts c hc).2, (hr.not_number c hc).2⟩
  | some e =>
    intro c hc
    obtain rfl := Option.some.inj hc
    decide

lemma halts_exp (hr : Ends r) : Halts (p.expText ++ r) :=
  fun c hc => ⟨(expText_head hr c hc).1, (expText_head hr c hc).2.1⟩

/-- What follows the leading digits is a point or an exponent. -/
lemma mark_head (h : p.Ok) :
    (p.fracText ++ (p.expText ++ r)).head? = some Ch.dot ∨
      (p.fracText ++ (p.expText ++ r)).head? = some 0x65 := by
  rw [fracText]
  split_ifs with hfrac
  · rw [expText]
    cases hexp : p.exp with
    | none => exact absurd hexp (h.mark hfrac)
    | some e => exact .inr rfl
  · exact .inl rfl

lemma atFloatMark_text (h : p.Ok) : atFloatMark (p.fracText ++ (p.expText ++ r)) = true := by
  rcases mark_head (r := r) h with hhead | hhead <;> simp [atFloatMark, atExp, hhead]

lemma leadsOn_text (h : p.Ok) : LeadsOn (p.fracText ++ (p.expText ++ r)) := by
  intro c hc
  rcases mark_head (r := r) h with hhead | hhead <;>
    obtain rfl := Option.some.inj (hhead.symm.trans hc) <;> decide

lemma halts_text (h : p.Ok) : Halts (p.fracText ++ (p.expText ++ r)) := by
  intro c hc
  rcases mark_head (r := r) h with hhead | hhead <;>
    obtain rfl := Option.some.inj (hhead.symm.trans hc) <;> decide

/-- The zero-copy path finds the fraction. -/
lemma fracSpan_text (h : p.Ok) (hr : Ends r) :
    fracSpan (p.fracText ++ (p.expText ++ r)) = some (p.frac, p.expText ++ r) := by
  obtain ⟨htake, hdrop⟩ := Runs.cut h.frac fun c hc => (expText_head (p := p) hr c hc).1
  have hstop : (p.expText ++ r).head? ≠ some Ch.under := (halts_exp hr).not_under
  have hdot : (p.expText ++ r).head? ≠ some Ch.dot := fun hc => (expText_head hr _ hc).2.2 rfl
  rw [fracSpan, fracText]
  by_cases hfrac : p.frac = []
  · rw [if_pos hfrac, List.nil_append, if_neg hdot, hfrac]
  · rw [if_neg hfrac, List.cons_append, List.head?_cons, if_pos rfl]
    simp only [List.drop_succ_cons, List.drop_zero, htake, hdrop]
    rw [if_neg (not_or.mpr ⟨hfrac, hstop⟩)]

/-- The digits of an exponent, behind its sign. -/
lemma intText_spec {e : ℤ} (he : e.natAbs < 10 ^ 20) (hr : Ends r) :
    decide ((intText e ++ r).head? = some Ch.minus) = decide (e < 0) ∧
      atSign (intText e ++ r) = decide (e < 0) ∧
      (if decide (e < 0) then (intText e ++ r).drop 1 else intText e ++ r) =
        natText e.natAbs ++ r ∧
      intText e = (if decide (e < 0) then [Ch.minus] else []) ++ natText e.natAbs ∧
      (natText e.natAbs ++ r).takeWhile isDec = natText e.natAbs ∧
      (natText e.natAbs ++ r).dropWhile isDec = r := by
  have hdec := isDecimal_natText he
  obtain ⟨htake, hdrop⟩ := Runs.cut hdec.digits hr.not_dec
  by_cases hneg : e < 0
  · simp [intText, hneg, atSign, htake, hdrop]
  · obtain ⟨d, ds, hd⟩ := List.exists_cons_of_ne_nil hdec.ne_nil
    have hdigit : isDec d = true := hdec.digits d (by simp [hd])
    have hsign : d ≠ Ch.plus ∧ d ≠ Ch.minus := by
      constructor <;> rintro rfl <;> exact absurd hdigit (by decide)
    have hhead : (natText e.natAbs ++ r).head? = some d := by rw [hd]; rfl
    simp [intText, hneg, atSign, htake, hdrop, hhead, hsign]

/-- The zero-copy path finds the exponent, up to saturation. -/
lemma expSpan_text (h : p.Ok) (hr : Ends r) :
    ∃ e10, expSpan (p.expText ++ r) = some (e10, r) ∧
      (e10.natAbs ≤ 400 → e10 = p.exp.getD 0) := by
  rw [expText]
  cases hexp : p.exp with
  | none =>
    have hmark : atExp r = false := by
      have := hr.not_mark
      rw [atFloatMark, Bool.or_eq_false_iff] at this
      exact this.2
    exact ⟨0, by simp [expSpan, hmark], fun _ => rfl⟩
  | some e =>
    have he := h.exp e hexp
    have hdec := isDecimal_natText he
    obtain ⟨hminus, hsign, hbody, -, htake, hdrop⟩ := intText_spec he hr
    refine ⟨if decide (e < 0) then -(expVal (natText e.natAbs) : ℤ) else expVal (natText e.natAbs),
      ?_, fun hle => ?_⟩
    · have hat : atExp (0x65 :: intText e ++ r) = true := rfl
      have hstop : ¬ (natText e.natAbs = [] ∨ r.head? = some Ch.under) :=
        not_or.mpr ⟨hdec.ne_nil, hr.halts.not_under⟩
      rw [expSpan, if_pos hat]
      simp only [List.cons_append, List.drop_succ_cons, List.drop_zero, hminus, hsign, hbody, htake,
        hdrop, if_neg hstop]
    · have hsmall : expVal (natText e.natAbs) ≤ 400 := by
        split_ifs at hle <;> omega
      have hval : expVal (natText e.natAbs) = e.natAbs := (expVal_eq hsmall).trans hdec.val
      rw [hval, Option.getD_some]
      split_ifs with hneg
      · have := of_decide_eq_true hneg
        omega
      · have : ¬ e < 0 := fun hc => hneg (decide_eq_true hc)
        omega

/-- A mark, and no digits but those of the exponent, are copied. -/
lemma copyExp_text (h : p.Ok) (hr : Ends r) {fbuf : Bytes} (hlen : fbuf.length + 25 ≤ numMax * 2) :
    copyExp fbuf (p.expText ++ r) = .ok (some (fbuf ++ p.expText, r)) := by
  have hmax : numMax * 2 = 1024 := rfl
  rw [copyExp, expText]
  cases hexp : p.exp with
  | none =>
    have hmark : atExp r = false := (Bool.or_eq_false_iff.mp hr.not_mark).2
    simp [hmark]
  | some e =>
    have he := h.exp e hexp
    have hdec := isDecimal_natText he
    have hdigits := length_natText_le e.natAbs
    obtain ⟨-, hsign, hbody, htext, htake, hdrop⟩ := intText_spec he hr
    have hat : atExp (0x65 :: intText e ++ r) = true := rfl
    have hcopied : (if decide (e < 0) then fbuf ++ [0x65] ++ (intText e ++ r).take 1
        else fbuf ++ [0x65]) = fbuf ++ [0x65] ++ if decide (e < 0) then [Ch.minus] else [] := by
      rw [htext]
      split_ifs <;> simp
    have hroom : (natText e.natAbs).take (numMax * 2 -
        (fbuf ++ [0x65] ++ if decide (e < 0) then [Ch.minus] else []).length) =
        natText e.natAbs := by
      refine List.take_of_length_le ?_
      have hone : (if decide (e < 0) then [Ch.minus] else [] : Bytes).length ≤ 1 := by
        split_ifs <;> simp
      simp only [List.length_append, List.length_singleton]
      omega
    rw [if_pos hat]
    simp only [List.cons_append, List.drop_succ_cons, List.drop_zero, hsign, hcopied, hbody, htake,
      hdrop, if_neg hdec.ne_nil, if_neg hr.halts.not_under, hroom]
    rw [htext]
    simp

/-- The copying path copies the number. -/
lemma floatCopy_text (h : p.Ok) (hr : Ends r) (neg : Bool)
    (hlen : p.int.length + p.frac.length ≤ 900) :
    floatCopy neg p.int (p.fracText ++ (p.expText ++ r)) =
      .ok (some ((if neg then [Ch.minus] else []) ++ p.text, r)) := by
  have hmax : numMax * 2 = 1024 := rfl
  have hone : (if neg then [Ch.minus] else [] : Bytes).length ≤ 1 := by split_ifs <;> simp
  rw [floatCopy, text_eq, fracText]
  by_cases hfrac : p.frac = []
  · have hdot : (p.expText ++ r).head? ≠ some Ch.dot := fun hc => (expText_head hr _ hc).2.2 rfl
    rw [if_pos hfrac, List.nil_append, if_neg hdot, copyExp_text h hr, List.append_nil,
      List.append_assoc]
    rw [List.length_append]
    omega
  · obtain ⟨htake, hdrop⟩ := Runs.cut h.frac
      fun c hc => (expText_head (p := p) hr c hc).1
    have hstop : (p.expText ++ r).head? ≠ some Ch.under := (halts_exp hr).not_under
    have hroom : p.frac.take (numMax * 2 - 16 -
        ((if neg then [Ch.minus] else []) ++ p.int ++ [Ch.dot]).length) = p.frac := by
      refine List.take_of_length_le ?_
      simp only [List.length_append, List.length_singleton]
      omega
    rw [if_neg hfrac, List.cons_append, List.head?_cons, if_pos rfl]
    simp only [List.drop_succ_cons, List.drop_zero, htake, hdrop, if_neg hfrac, if_neg hstop, hroom]
    rw [copyExp_text h hr]
    · simp
    · simp only [List.length_append, List.length_singleton]
      omega

/-- The slow path copies the number. -/
lemma slowDecimal_text (fc : FloatConv) (h : p.Ok) (hr : Ends r) (neg : Bool)
    (hint : p.int.length < numMax) (hlen : p.frac.length < numMax) :
    slowDecimal fc neg (p.int ++ (p.fracText ++ (p.expText ++ r))) =
      .ok (.float (readDouble fc ((if neg then [Ch.minus] else []) ++ p.text)), r) := by
  have hzero : ¬ (p.int.head? = some Ch.zero ∧ 1 < p.int.length) := by
    rintro ⟨hz, hlong⟩
    rw [h.int.zero hz] at hlong
    simp at hlong
  have hfrac : ∀ fbuf, slowFrac fbuf (p.fracText ++ (p.expText ++ r)) =
      .ok (fbuf ++ p.fracText, p.expText ++ r) := by
    intro fbuf
    rw [slowFrac, fracText]
    split_ifs with hnil hdot hdot
    · exact absurd rfl (expText_head hr _ hdot).2.2
    · rw [List.nil_append, List.append_nil]
    · have hrun := scanRun_digits h.frac (halts_exp (p := p) hr) hlen hnil
      simp only [List.cons_append, List.drop_succ_cons, List.drop_zero, hrun]
      simp
    · exact absurd rfl hdot
  have hexp : ∀ fbuf, slowExp fbuf (p.expText ++ r) = .ok (fbuf ++ p.expText, r) := by
    intro fbuf
    rw [slowExp, expText]
    cases hexp : p.exp with
    | none =>
      have hmark : atExp r = false := (Bool.or_eq_false_iff.mp hr.not_mark).2
      simp [hmark]
    | some e =>
      have he := h.exp e hexp
      have hdec := isDecimal_natText he
      obtain ⟨-, hsign, hbody, htext, -, -⟩ := intText_spec he hr
      have hat : atExp (0x65 :: intText e ++ r) = true := rfl
      have hrun := scanRun_digits hdec.digits hr.halts
        (lt_of_le_of_lt (length_natText_le e.natAbs) (by decide)) hdec.ne_nil
      have hcopied : (if decide (e < 0) then (intText e ++ r).take 1 else []) =
          if decide (e < 0) then [Ch.minus] else [] := by
        rw [htext]
        split_ifs <;> simp
      rw [if_pos hat]
      simp only [List.cons_append, List.drop_succ_cons, List.drop_zero, hsign, hbody, hrun, hcopied]
      rw [htext]
      simp
  rw [slowDecimal, scanRun_digits h.int.digits (halts_text h) hint h.int.ne_nil]
  simp only [if_neg hzero, atFloatMark_text h, if_true, hfrac, hexp, text_eq, List.append_assoc]

/-- The zero-copy path gives the double, or gives up. -/
lemma floatFast_text {fc : FloatConv} {f : Double} (hf : fc.RoundTrips f) (h : p.Ok)
    (hnear : f.IsNearest p.magnitude) (hr : Ends r) {x : Double × Bytes}
    (hx : floatFast fc f.signBit (p.int ++ (p.fracText ++ (p.expText ++ r))) p.int
      (p.fracText ++ (p.expText ++ r)) = some x) : x = (f, r) := by
  obtain ⟨e10, hspan, he10⟩ := expSpan_text (p := p) h hr
  rw [floatFast] at hx
  simp only [fracSpan_text h hr, hspan] at hx
  by_cases hsmall : e10.natAbs ≤ 400 ∧ p.int.length + (p.frac.take 18).length ≤ 15 ∧
      -22 ≤ e10 - ((p.frac.take 18).length : ℤ) ∧ e10 - ((p.frac.take 18).length : ℤ) ≤ 22
  · rw [if_pos hsmall] at hx
    obtain ⟨hexp, hdigits, hlow, hhigh⟩ := hsmall
    have hall : p.frac.take 18 = p.frac := by
      rw [List.length_take] at hdigits
      exact List.take_of_length_le (by omega)
    rw [hall] at hx hdigits hlow hhigh
    have hbound : decVal (p.int ++ p.frac) < 10 ^ 15 := by
      have hlt := decFrom_lt (isDec_append h.int.digits h.frac) 0
      refine lt_of_lt_of_le hlt ?_
      rw [Nat.zero_add, Nat.one_mul]
      exact Nat.pow_le_pow_right (by decide) (by rw [List.length_append]; omega)
    have hmag : decFrom (decVal p.int) p.frac % 2 ^ 64 = decVal (p.int ++ p.frac) := by
      rw [decVal, decVal, ← decFrom_append]
      exact Nat.mod_eq_of_lt (lt_trans hbound (by decide))
    have hval : p.magnitude = (decVal (p.int ++ p.frac) : ℚ) * 10 ^ (e10 - p.frac.length) := by
      rw [he10 hexp]
      rfl
    rw [hval] at hnear
    rw [hmag, hf.scaled hbound hlow hhigh hnear] at hx
    exact (Option.some.inj hx).symm
  · -- the span of the number, read by `ryu`
    rw [if_neg hsmall] at hx
    have htake : (p.int ++ (p.fracText ++ (p.expText ++ r))).take
        ((p.int ++ (p.fracText ++ (p.expText ++ r))).length - r.length) = p.text := by
      rw [text_eq, ← List.append_assoc, ← List.append_assoc, List.length_append,
        Nat.add_sub_cancel, List.take_left']
      rfl
    have hnum := isNumber_sign h.isNumber f.signBit
    have htext : (if f.signBit = true then Ch.minus :: p.text else p.text) =
        (if f.signBit then [Ch.minus] else []) ++ p.text := by
      split_ifs <;> rfl
    rw [htake, htext] at hx
    split at hx
    next dv hryu =>
      rw [hf.ryu hnum hnear dv hryu] at hx
      exact (Option.some.inj hx).symm
    · exact absurd hx (by simp)

/-- A number with a point or an exponent is read as the double it rounds to. -/
lemma decimal_text {fc : FloatConv} {f : Double} (hf : fc.RoundTrips f) (h : p.Ok)
    (hnear : f.IsNearest p.magnitude) (hr : Ends r) (hint : p.int.length ≤ 400)
    (hfrac : p.frac.length ≤ 400) :
    decimal fc f.signBit f.signBit (p.int ++ (p.fracText ++ (p.expText ++ r))) =
      .ok (.float f, r) := by
  have hmax : numMax = 512 := rfl
  have hnum := isNumber_sign h.isNumber f.signBit
  have hint' : ∀ c ∈ p.int, isDec c = true := h.int.digits
  obtain ⟨htake, hdrop⟩ := Runs.cut hint' (halts_text (r := r) h).not_dec
  have hzero : ¬ (p.int.head? = some Ch.zero ∧ 1 < p.int.length) := by
    rintro ⟨hz, hlong⟩
    rw [h.int.zero hz] at hlong
    simp at hlong
  have hslow := slowDecimal_text fc h hr f.signBit (by omega) (by omega)
  rw [hf.readDouble hnum hnear] at hslow
  rw [decimal]
  simp only [htake, hdrop]
  by_cases hplain : 0 < p.int.length ∧ p.int.length ≤ 18 ∧
      (p.fracText ++ (p.expText ++ r)).head? ≠ some Ch.under
  · have hroute : (!f.signBit || f.signBit) = true := by cases f.signBit <;> rfl
    rw [if_pos hplain, if_neg hzero, if_pos (atFloatMark_text h), decimalFloat, hroute, if_pos rfl]
    split
    next dv q hfast =>
      obtain ⟨rfl, rfl⟩ := Prod.mk.inj (floatFast_text hf h hnear hr hfast)
      rfl
    · rw [floatCopy_text h hr f.signBit (by omega)]
      simp only [hf.readDouble hnum hnear]
  · rw [if_neg hplain, hslow]

end FloatParts

/-! ## The bits of a double -/

lemma Double.expBits_toNat (f : Double) : f.expBits.toNat = f.bits.toNat / 2 ^ 52 % 2 ^ 11 := by
  have hmask : (0x7FF : UInt64).toNat = 2 ^ 11 - 1 := rfl
  have hshift : (52 : UInt64).toNat % 64 = 52 := rfl
  rw [expBits, UInt64.toNat_and, UInt64.toNat_shiftRight, hmask, hshift,
    Nat.and_two_pow_sub_one_eq_mod, Nat.shiftRight_eq_div_pow]

lemma Double.fracBits_toNat (f : Double) : f.fracBits.toNat = f.bits.toNat % 2 ^ 52 := by
  have hmask : (0xFFFFFFFFFFFFF : UInt64).toNat = 2 ^ 52 - 1 := rfl
  rw [fracBits, UInt64.toNat_and, hmask, Nat.and_two_pow_sub_one_eq_mod]

lemma Double.signBit_iff (f : Double) : f.signBit = true ↔ f.bits.toNat / 2 ^ 63 = 1 := by
  have hshift : (63 : UInt64).toNat % 64 = 63 := rfl
  rw [signBit, beq_iff_eq, ← UInt64.toNat_inj, UInt64.toNat_shiftRight, hshift,
    Nat.shiftRight_eq_div_pow]
  rfl

/-- An infinity is its sign. -/
lemma Double.eq_inf {f : Double} (h : f.isInf = true) : f = Double.inf f.signBit := by
  rw [isInf, Bool.and_eq_true, beq_iff_eq, beq_iff_eq] at h
  have hexp := f.expBits_toNat
  have hfrac := f.fracBits_toNat
  have hsign := f.signBit_iff
  have hlt := f.bits.toNat_lt
  rw [h.1] at hexp
  rw [h.2] at hfrac
  have h7ff : (0x7FF : UInt64).toNat = 2047 := rfl
  have hzero : (0 : UInt64).toNat = 0 := rfl
  rw [h7ff] at hexp
  rw [hzero] at hfrac
  have hbits : f.bits = (Double.inf f.signBit).bits := by
    rw [← UInt64.toNat_inj, inf]
    cases hs : f.signBit
    · have hpos : (0x7FF0000000000000 : UInt64).toNat = 2047 * 2 ^ 52 := rfl
      have hne : ¬ f.bits.toNat / 2 ^ 63 = 1 := fun hc => by simp [hsign.mpr hc] at hs
      simp only [Bool.false_eq_true, if_false, hpos]
      omega
    · have hneg : (0xFFF0000000000000 : UInt64).toNat = 4095 * 2 ^ 52 := rfl
      have hone := hsign.mp hs
      simp only [if_true, hneg]
      omega
  obtain ⟨bits⟩ := f
  exact congrArg Double.mk hbits

/-! ## Scalars -/

section Scalar

variable (fc : FloatConv) (array inline : Bytes → Res Node) {r : Bytes}

/-- The text of a finite double is read as that double. -/
lemma valueDispatch_finite {f : Double} (hfinite : f.isFinite = true) (hf : fc.RoundTrips f)
    (hr : Ends r) : valueDispatch fc array inline (emitFloat fc f ++ r) = .ok (.float f, r) := by
  obtain ⟨d, ds, e, htext, hshort, hnear⟩ := hf.writes
  obtain ⟨p, hok, hbody, hmag, hint, hfrac, -⟩ := floatBody_parts hshort
  have hlen := hf.length
  rw [htext, List.length_append, List.length_cons, List.length_append, List.length_cons] at hlen
  have hdigits : ds.length ≤ 24 := by
    by_cases hds : ds = []
    · simp [hds]
    · rw [if_neg hds, List.length_cons] at hlen
      omega
  have hexp : e - ((d :: ds).length : ℤ) + 1 = e - ds.length := by
    rw [List.length_cons]
    push_cast
    ring
  rw [hexp] at hmag
  rw [← hmag] at hnear
  rw [List.length_cons] at hint hfrac
  have hread := FloatParts.decimal_text hf hok hnear hr (by omega) (by omega)
  rw [emitFloat_eq hfinite htext hshort, ← hbody, FloatParts.text_eq]
  simp only [List.append_assoc]
  rw [valueDispatch_decimal fc array inline f.signBit hok.int.digits hok.int.ne_nil hok.int.zero
    (FloatParts.leadsOn_text hok), hread]

/-- A float as it is read back: the parser knows one NaN. -/
def Double.reread (f : Double) : Double := if f.isNan then .nan else f

/-- The text of a float is read as that float. -/
lemma valueDispatch_float {f : Double} (hf : f.isFinite = true → fc.RoundTrips f) (hr : Ends r) :
    valueDispatch fc array inline (emitFloat fc f ++ r) = .ok (.float f.reread, r) := by
  by_cases hnan : f.isNan = true
  · rw [emitFloat, if_pos hnan, Double.reread, if_pos hnan]
    rfl
  rw [Double.reread, if_neg hnan]
  by_cases hinf : f.isInf = true
  · have hbits := Double.eq_inf hinf
    rw [emitFloat, if_neg hnan, if_pos hinf]
    cases hsign : f.signBit
    · rw [hsign] at hbits
      rw [hbits]
      rfl
    · rw [hsign] at hbits
      rw [hbits]
      rfl
  · have hfinite : f.isFinite = true := by simp [Double.isFinite, hnan, hinf]
    exact valueDispatch_finite fc array inline hfinite (hf hfinite) hr

/-- The text of a datetime in range is read as that datetime. -/
lemma valueDispatch_datetime {kind : DtKind} {dt : Datetime} (h : dt.Ok kind) (hr : Ends r) :
    valueDispatch fc array inline (emitDt kind dt ++ r) = .ok (.datetime kind dt, r) := by
  obtain ⟨hread, hlook⟩ := parseDatetime_emitDt h hr
  generalize emitDt kind dt ++ r = t at hread hlook
  have hfirst : digAt t 0 = true := by
    simp only [datetimeLookahead, dateShape, timeShape, Bool.or_eq_true, Bool.and_eq_true] at hlook
    tauto
  obtain _ | ⟨c, cs⟩ := t
  · exact absurd hfirst (by decide)
  · have hc : isDec c = true := hfirst
    rw [valueDispatch_digit fc array inline hc, if_pos hlook, hread]

/-- A boolean is read back. -/
lemma valueDispatch_boolean (b : Bool) :
    valueDispatch fc array inline (boolText b ++ r) = .ok (.boolean b, r) := by
  cases b <;> rfl

/-- A string is read back. -/
lemma valueDispatch_string (s : Bytes) (hr : Ends r) :
    valueDispatch fc array inline (emitStringValue s ++ r) = .ok (.string s, r) := by
  have hread := parseString_emit s hr
  have hhead : (emitStringValue s ++ r).head? = some Ch.dquote ∨
      (emitStringValue s ++ r).head? = some Ch.squote := by
    rw [emitStringValue]
    split_ifs
    · exact .inr rfl
    · exact .inl rfl
  generalize emitStringValue s ++ r = t at hread hhead
  obtain _ | ⟨c, cs⟩ := t
  · simp at hhead
  · rw [valueDispatch, if_pos (by simpa using hhead), hread]

end Scalar

end Teptris
