import Mathlib.Data.List.TakeWhile
import Teptris.Emit.Text
import Teptris.Library.Runs
import Teptris.Parse.DateTime
import Teptris.Parse.Number

/-!
# Numbers and datetimes read back

The writers of `emit_shared.h` against the readers of the parser: the digits of a number have its
value, and the text of a datetime in range is read as that datetime.
-/

namespace Teptris

/-! ## Digits -/

lemma digitChar_toNat {d : ℕ} (h : d < 10) : (digitChar d).toNat = 0x30 + d := by
  rw [digitChar, UInt8.toNat_ofNat']
  omega

lemma isDec_digitChar {d : ℕ} (h : d < 10) : isDec (digitChar d) = true := by
  have hval := digitChar_toNat h
  simp only [isDec, Bool.and_eq_true, decide_eq_true_eq, UInt8.le_iff_toNat_le, hval]
  constructor
  · show 48 ≤ 48 + d
    omega
  · show 48 + d ≤ 57
    omega

lemma decFrom_append (m : ℕ) (a b : Bytes) : decFrom m (a ++ b) = decFrom (decFrom m a) b := by
  simp [decFrom]

/-- The loop of `emit_i64` writes the digits of its number, without a leading zero. -/
lemma decText_spec {n mag : ℕ} (hn : 0 < n) (h : mag < 10 ^ n) :
    decVal (decText n mag) = mag ∧ (∀ c ∈ decText n mag, isDec c = true) ∧
      decText n mag ≠ [] ∧ ((decText n mag).head? = some Ch.zero → mag = 0) := by
  induction n generalizing mag with
  | zero => omega
  | succ n ih =>
    have hdigit : mag % 10 < 10 := Nat.mod_lt _ (by decide)
    by_cases hlead : mag / 10 = 0
    · have hsmall : mag % 10 = mag := by omega
      rw [decText, if_pos hlead, List.nil_append, hsmall]
      rw [hsmall] at hdigit
      refine ⟨?_, ?_, by simp, ?_⟩
      · simp [decFrom, digitChar_toNat hdigit]
      · simpa using isDec_digitChar hdigit
      · intro hz
        have hval := digitChar_toNat hdigit
        rw [Option.some.inj hz] at hval
        have : (Ch.zero : UInt8).toNat = 48 := rfl
        omega
    · have hpos : 0 < n := by
        rcases Nat.eq_zero_or_pos n with rfl | hpos
        · omega
        · exact hpos
      have hbound : mag / 10 < 10 ^ n := by
        rw [Nat.pow_succ] at h
        omega
      obtain ⟨hval, hdec, hne, hzero⟩ := ih hpos hbound
      rw [decText, if_neg hlead]
      refine ⟨?_, ?_, by simp, ?_⟩
      · have hsnoc := decFrom_append 0 (decText n (mag / 10)) [digitChar (mag % 10)]
        rw [decVal] at hval ⊢
        rw [hsnoc, hval]
        simp only [decFrom, List.foldl_cons, List.foldl_nil, digitChar_toNat hdigit]
        omega
      · intro c hc
        rcases List.mem_append.mp hc with hc | hc
        · exact hdec c hc
        · obtain rfl := List.mem_singleton.mp hc
          exact isDec_digitChar hdigit
      · intro hz
        rw [List.head?_append_of_ne_nil _ hne] at hz
        exact absurd (hzero hz) hlead

/-- The digits of a magnitude. -/
structure IsDecimal (t : Bytes) (mag : ℕ) : Prop where
  /-- The value. -/
  val : decVal t = mag
  /-- Digits. -/
  digits : ∀ c ∈ t, isDec c = true
  /-- At least one. -/
  ne_nil : t ≠ []
  /-- No leading zero. -/
  lead : t.head? = some Ch.zero → t = [Ch.zero]

lemma isDecimal_natText {mag : ℕ} (h : mag < 10 ^ 20) : IsDecimal (natText mag) mag := by
  obtain ⟨hval, hdec, hne, hzero⟩ := decText_spec (by decide) h
  refine ⟨hval, hdec, hne, fun hz => ?_⟩
  rw [natText, hzero hz]
  rfl

/-- The magnitude of an integer has at most nineteen digits. -/
lemma natAbs_toInt_lt (v : Int64) : v.toInt.natAbs ≤ 2 ^ 63 := by
  have h1 := v.le_toInt
  have h2 := v.toInt_lt
  omega

/-! ## Dates and times -/

/-- Nothing that a scalar goes on with: the end of the input, a line or a value. -/
def Ends (r : Bytes) : Prop :=
  ∀ c ∈ r.head?, c = Ch.lf ∨ c = Ch.comma ∨ c = Ch.rbrack ∨ c = Ch.rbrace

lemma ends_nil : Ends [] := by simp [Ends]

/-- What follows a scalar starts with no digit. -/
lemma Ends.not_dec {r : Bytes} (h : Ends r) : ∀ c ∈ r.head?, isDec c = false := by
  intro c hc
  rcases h c hc with rfl | rfl | rfl | rfl <;> decide

/-- What follows a scalar starts with none of these bytes. -/
lemma Ends.head_ne {r : Bytes} (h : Ends r) {c : UInt8}
    (hc : c ≠ Ch.lf ∧ c ≠ Ch.comma ∧ c ≠ Ch.rbrack ∧ c ≠ Ch.rbrace) : r.head? ≠ some c := by
  intro hr
  have := h c hr
  tauto

/-- The value of a digit. -/
lemma digitChar_sub {d : ℕ} (h : d < 10) : (digitChar d).toNat - 0x30 = d := by
  rw [digitChar_toNat h]
  omega

/-- The fraction loop on the last digits of a number. -/
lemma frac_fold (n a q : ℕ) :
    (((List.range (n + 1)).map fun i => digitChar (q / 10 ^ (n - i) % 10)).foldl
      (fun (s : ℕ × ℕ) c => (s.1 + (c.toNat - 0x30) * s.2, s.2 / 10)) (a, 10 ^ n)).1 =
    a + q % 10 ^ (n + 1) := by
  have hdigit : ∀ k, (digitChar (q / k % 10)).toNat - 0x30 = q / k % 10 :=
    fun k => digitChar_sub (Nat.mod_lt _ (by decide))
  induction n generalizing a with
  | zero => simpa using hdigit 1
  | succ n ih =>
    have hunit : 10 ^ (n + 1) / 10 = 10 ^ n := by
      rw [Nat.pow_succ, Nat.mul_div_cancel _ (by decide)]
    have htail : ∀ i, n + 1 - (i + 1) = n - i := fun i => by omega
    rw [List.range_succ_eq_map, List.map_cons, List.map_map, List.foldl_cons, Nat.sub_zero, hdigit,
      hunit]
    simp only [Function.comp_def, Nat.succ_eq_add_one, htail]
    have hsplit :
        q % 10 ^ (n + 1 + 1) = q % 10 ^ (n + 1) + 10 ^ (n + 1) * (q / 10 ^ (n + 1) % 10) :=
      Nat.mod_pow_succ
    rw [ih, hsplit, Nat.mul_comm (q / 10 ^ (n + 1) % 10)]
    omega

/-- Nine digits of a fraction. -/
lemma fracNanos_digits {ns : ℕ} (h : ns < 1000000000) :
    fracNanos ((List.range 9).map fun i => digitChar (ns / 10 ^ (8 - i) % 10)) = ns := by
  have hmod : ns % 10 ^ (8 + 1) = ns := Nat.mod_eq_of_lt h
  have hfold := frac_fold 8 0 ns
  rw [hmod, Nat.zero_add] at hfold
  exact hfold

/-- Zeros at the end of a fraction do not count. -/
lemma fracNanos_zeros (ds : Bytes) {zs : Bytes} (h : ∀ c ∈ zs, c = Ch.zero) :
    fracNanos (ds ++ zs) = fracNanos ds := by
  rw [fracNanos, fracNanos, List.foldl_append]
  generalize ds.foldl (fun (s : ℕ × ℕ) c => (s.1 + (c.toNat - 0x30) * s.2, s.2 / 10))
    (0, 100000000) = s
  induction zs generalizing s with
  | nil => rfl
  | cons z zs ih =>
    obtain rfl := h z (by simp)
    have hval : (Ch.zero : UInt8).toNat - 0x30 = 0 := rfl
    rw [List.foldl_cons, ih fun c hc => h c (by simp [hc]), hval]
    simp

/-- The fraction of `emit_dt` has the nanoseconds it writes. -/
lemma nanosText_spec {ns : ℕ} (h : ns < 1000000000) (hne : ns ≠ 0) :
    fracNanos (nanosText ns) = ns ∧ nanosText ns ≠ [] ∧ ∀ c ∈ nanosText ns, isDec c = true := by
  have hfull := fracNanos_digits h
  have hdec : ∀ c ∈ (List.range 9).map fun i => digitChar (ns / 10 ^ (8 - i) % 10),
      isDec c = true := by
    intro c hc
    obtain ⟨i, -, rfl⟩ := List.mem_map.mp hc
    exact isDec_digitChar (Nat.mod_lt _ (by decide))
  rw [nanosText]
  generalize ((List.range 9).map fun i => digitChar (ns / 10 ^ (8 - i) % 10)) = ds at hfull hdec
  have hsplit : ds = (ds.reverse.dropWhile (· = Ch.zero)).reverse ++
      (ds.reverse.takeWhile (· = Ch.zero)).reverse := by
    rw [← List.reverse_append, List.takeWhile_append_dropWhile, List.reverse_reverse]
  have hzeros : ∀ c ∈ (ds.reverse.takeWhile (· = Ch.zero)).reverse, c = Ch.zero := by
    intro c hc
    simpa using List.mem_takeWhile_imp (List.mem_reverse.mp hc)
  have htrim : fracNanos (ds.reverse.dropWhile (· = Ch.zero)).reverse = ns := by
    rw [← fracNanos_zeros _ hzeros, ← hsplit, hfull]
  refine ⟨htrim, ?_, ?_⟩
  · intro hnil
    rw [hnil] at htrim
    exact hne htrim.symm
  · intro c hc
    refine hdec c ?_
    rw [hsplit]
    exact List.mem_append_left _ hc

/-- A fraction is read up to its end. -/
lemma parseFrac_text (start : Bytes) {ns : ℕ} (h : ns < 1000000000) {r : Bytes}
    (hr : ∀ c ∈ r.head?, isDec c = false ∧ c ≠ Ch.dot) :
    parseFrac start ((if ns ≠ 0 then Ch.dot :: nanosText ns else []) ++ r) = .ok (ns, r) := by
  by_cases hne : ns = 0
  · have hdot : r.head? ≠ some Ch.dot := fun hc => (hr _ hc).2 rfl
    simp [parseFrac, hne, hdot]
  · obtain ⟨hval, hnil, hdec⟩ := nanosText_spec h hne
    obtain ⟨htake, hdrop⟩ := Runs.cut hdec fun c hc => (hr c hc).1
    simp [parseFrac, hne, htake, hdrop, hnil, hval]

/-- Two digits are read back. -/
lemma digits_at {v : ℕ} (h : v < 100) {p : Bytes} {i : ℕ} (hhi : byteAt p i = digitChar (v / 10))
    (hlo : byteAt p (i + 1) = digitChar (v % 10)) :
    d2 p i = v ∧ digAt p i = true ∧ digAt p (i + 1) = true := by
  have hdiv : v / 10 < 10 := by omega
  have hmod : v % 10 < 10 := Nat.mod_lt _ (by decide)
  refine ⟨?_, ?_, ?_⟩
  · rw [d2, hhi, hlo, digitChar_sub hdiv, digitChar_sub hmod]
    omega
  · rw [digAt, hhi, isDec_digitChar hdiv]
  · rw [digAt, hlo, isDec_digitChar hmod]

/-- The hours, minutes and seconds of `emit_dt`. -/
def hmsText (dt : Datetime) : Bytes :=
  putDigits2 dt.hour.toNat ++ [Ch.colon] ++ putDigits2 dt.minute.toNat ++ [Ch.colon] ++
    putDigits2 dt.second.toNat

/-- A clock is read up to its fraction. -/
lemma parseClock_text {dt : Datetime} (h : dt.TimeOk) {need : ℕ} (hneed : need ≤ 8)
    (start r : Bytes) : parseClock need start (hmsText dt ++ r) =
      .ok (dt.hour.toNat, dt.minute.toNat, dt.second.toNat, r) := by
  have hh : dt.hour.toNat < 100 := by have := h.hour; omega
  have hm : dt.minute.toNat < 100 := by have := h.minute; omega
  have hs : dt.second.toNat < 100 := by have := h.second; omega
  obtain ⟨hhour, -⟩ := digits_at hh (p := hmsText dt ++ r) (i := 0) rfl rfl
  obtain ⟨hminute, -⟩ := digits_at hm (p := hmsText dt ++ r) (i := 3) rfl rfl
  obtain ⟨hsecond, hd6, hd7⟩ := digits_at hs (p := hmsText dt ++ r) (i := 6) rfl rfl
  have hlen : 8 ≤ (hmsText dt ++ r).length := by simp [hmsText, putDigits2]
  have hcolon : byteAt (hmsText dt ++ r) 5 = Ch.colon := rfl
  have hdrop : (hmsText dt ++ r).drop 8 = r := rfl
  have hfields : ¬ ((hmsText dt ++ r).length < 8 ∨ (!digAt (hmsText dt ++ r) 6) = true ∨
      (!digAt (hmsText dt ++ r) 7) = true) := by
    rw [hd6, hd7]
    simpa using hlen
  rw [parseClock, if_pos ⟨by omega, hcolon⟩, if_neg hfields, checkClock, hhour, hminute, hsecond,
    hdrop, if_neg (by have := h.hour; omega), if_neg (by have := h.minute; omega),
    if_neg (by have := h.second; omega)]

lemma clockText_eq (dt : Datetime) : clockText dt = hmsText dt ++
    (if dt.nanosecond.toNat ≠ 0 then Ch.dot :: nanosText dt.nanosecond.toNat else []) := by
  have hzero : dt.nanosecond = 0 ↔ dt.nanosecond.toNat = 0 := by
    rw [← UInt32.toNat_inj]
    rfl
  simp only [clockText, hmsText, ne_eq, hzero]

/-- The year as `emit_dt` reads it. -/
lemma year_toNat {dt : Datetime} {y : ℕ} (h : dt.DateOk y) : dt.year.toUInt32.toNat = y := by
  have hy := h.year.2
  have hval : (Int32.ofNat y).toUInt32.toNat = y % 2 ^ 32 := rfl
  rw [h.year.1]
  omega

/-- A date is read back, with what follows it. -/
lemma dateText_fields {dt : Datetime} {y : ℕ} (h : dt.DateOk y) (r : Bytes) :
    num4 (dateText dt ++ r) 0 = y ∧ d2 (dateText dt ++ r) 5 = dt.month.toNat ∧
      d2 (dateText dt ++ r) 8 = dt.day.toNat ∧ (dateText dt ++ r).drop 10 = r ∧
      dateShape (dateText dt ++ r) = true := by
  have hyear := year_toNat h
  have hy := h.year.2
  have hmonth : dt.month.toNat < 100 := by have := h.month; omega
  have hdim := daysInMonth_le y dt.month.toNat
  have hday : dt.day.toNat < 100 := by have := h.day; omega
  have hhi : dt.year.toUInt32.toNat / 100 < 100 := by omega
  have hlo : dt.year.toUInt32.toNat % 100 < 100 := Nat.mod_lt _ (by decide)
  obtain ⟨h0, h0', h1'⟩ := digits_at hhi (p := dateText dt ++ r) (i := 0) rfl rfl
  obtain ⟨h2, h2', h3'⟩ := digits_at hlo (p := dateText dt ++ r) (i := 2) rfl rfl
  obtain ⟨h5, h5', h6'⟩ := digits_at hmonth (p := dateText dt ++ r) (i := 5) rfl rfl
  obtain ⟨h8, h8', h9'⟩ := digits_at hday (p := dateText dt ++ r) (i := 8) rfl rfl
  have hlen : 10 ≤ (dateText dt ++ r).length := by simp [dateText, putDigits2, putDigits4]
  have hminus : byteAt (dateText dt ++ r) 4 = Ch.minus ∧ byteAt (dateText dt ++ r) 7 = Ch.minus :=
    ⟨rfl, rfl⟩
  refine ⟨?_, h5, h8, rfl, ?_⟩
  · rw [num4, h0, h2]
    omega
  · rw [dateShape, decide_eq_true hlen]
    simp [hminus, h0', h1', h2', h3', h5', h6', h8', h9']

/-- The clock and the fraction of `emit_dt` are read back. -/
lemma parseTime_text {dt : Datetime} (h : dt.TimeOk) {need : ℕ} (hneed : need ≤ 8)
    (start : Bytes) {r : Bytes} (hr : ∀ c ∈ r.head?, isDec c = false ∧ c ≠ Ch.dot) :
    ∃ q, parseClock need start (clockText dt ++ r) =
        .ok (dt.hour.toNat, dt.minute.toNat, dt.second.toNat, q) ∧
      parseFrac start q = .ok (dt.nanosecond.toNat, r) := by
  rw [clockText_eq, List.append_assoc]
  exact ⟨_, parseClock_text h hneed start _, parseFrac_text start h.nanosecond hr⟩

/-- What follows a scalar goes on neither as digits nor as a fraction. -/
lemma Ends.not_number {r : Bytes} (h : Ends r) :
    ∀ c ∈ r.head?, isDec c = false ∧ c ≠ Ch.dot := by
  intro c hc
  refine ⟨h.not_dec c hc, ?_⟩
  rintro rfl
  exact h.head_ne (by decide) hc

/-- An offset goes on neither as digits nor as a fraction. -/
lemma offsetText_head (dt : Datetime) (r : Bytes) :
    ∀ c ∈ (offsetText dt ++ r).head?, isDec c = false ∧ c ≠ Ch.dot := by
  intro c hc
  rw [offsetText] at hc
  split_ifs at hc <;> obtain rfl := Option.some.inj hc <;> decide

/-- A signed offset is read back. -/
lemma parseOffset_signed {sign : UInt8} (hsign : sign = Ch.minus ∨ sign = Ch.plus) {oh om : ℕ}
    (hoh : oh ≤ 23) (hom : om ≤ 59) (start : Bytes) (dt : Datetime) (r : Bytes) :
    parseOffset start (sign :: (putDigits2 oh ++ Ch.colon :: (putDigits2 om ++ r))) dt =
      .ok (.datetime .datetimeOffset
        { dt with
          offsetSeconds := if sign = Ch.minus then -Int32.ofNat (oh * 3600 + om * 60)
            else Int32.ofNat (oh * 3600 + om * 60) }, r) := by
  obtain ⟨p, hp⟩ : ∃ p, p = sign :: (putDigits2 oh ++ Ch.colon :: (putDigits2 om ++ r)) := ⟨_, rfl⟩
  obtain ⟨h1, h1', h2'⟩ := digits_at (v := oh) (by omega) (p := p) (i := 1) (hp ▸ rfl) (hp ▸ rfl)
  obtain ⟨h4, h4', h5'⟩ := digits_at (v := om) (by omega) (p := p) (i := 4) (hp ▸ rfl) (hp ▸ rfl)
  have hcolon : byteAt p 3 = Ch.colon := hp ▸ rfl
  have hfirst : byteAt p 0 = sign := hp ▸ rfl
  have hlen : 6 ≤ p.length := by simp [hp, putDigits2]
  have hdrop : p.drop 6 = r := hp ▸ rfl
  have hz : ¬ (p.head? = some 0x5A ∨ p.head? = some 0x7A) := by
    rw [hp]
    rcases hsign with rfl | rfl <;>
      exact not_or.mpr ⟨by simp [Ch.minus, Ch.plus], by simp [Ch.minus, Ch.plus]⟩
  have hoffset : hasOffset p = true := by
    have hbyte : hasOffset.atSignByte sign = true := by rcases hsign with rfl | rfl <;> decide
    rw [hasOffset, hfirst, hbyte, decide_eq_true hlen, h1', h2', hcolon, h4', h5']
    rfl
  rw [← hp, parseOffset, if_neg hz, if_pos hoffset, h1, h4, if_neg (by omega), hfirst, hdrop]

section Offset

variable {oh om : ℕ}

lemma toInt_offset (hoh : oh ≤ 23) (hom : om ≤ 59) :
    (Int32.ofNat (oh * 3600 + om * 60)).toInt = (oh * 3600 + om * 60 : ℕ) :=
  Int32.toInt_ofNat_of_lt (by omega)

lemma toInt_neg_offset (hoh : oh ≤ 23) (hom : om ≤ 59) :
    (-Int32.ofNat (oh * 3600 + om * 60)).toInt = -(oh * 3600 + om * 60 : ℕ) := by
  rw [Int32.toInt_neg, toInt_offset hoh hom]
  exact Int.bmod_eq_of_le (by omega) (by omega)

end Offset

/-- An offset is below a day. -/
lemma offset_natAbs {dt : Datetime} (h : dt.OffsetOk) : dt.offsetSeconds.toInt.natAbs < 86400 := by
  obtain ⟨oh, hoh, om, hom, hoff | hoff⟩ := h
  · rw [hoff, toInt_offset hoh hom]
    omega
  · rw [hoff, toInt_neg_offset hoh hom]
    omega

/-- The offset of `emit_dt` is read back. -/
lemma parseOffset_text {dt : Datetime} (h : dt.OffsetOk) (start : Bytes) (dt' : Datetime)
    (r : Bytes) : parseOffset start (offsetText dt ++ r) dt' =
      .ok (.datetime .datetimeOffset { dt' with offsetSeconds := dt.offsetSeconds }, r) := by
  by_cases hz : dt.offsetSeconds = 0
  · simp [offsetText, parseOffset, hz]
  obtain ⟨oh, hoh, om, hom, hoff⟩ := h
  have hint := toInt_offset hoh hom
  have hneg := toInt_neg_offset hoh hom
  have hne : oh * 3600 + om * 60 ≠ 0 := by
    intro h0
    rw [h0] at hoff
    rcases hoff with hoff | hoff <;> exact hz hoff
  have hzero : (0 : Int32).toInt = 0 := rfl
  have hhours : (oh * 3600 + om * 60) / 3600 = oh := by omega
  have hminutes : (oh * 3600 + om * 60) % 3600 / 60 = om := by omega
  have htext : dt.offsetSeconds.toInt.natAbs = oh * 3600 + om * 60 →
      offsetText dt ++ r = (if dt.offsetSeconds < 0 then Ch.minus else Ch.plus) ::
        (putDigits2 oh ++ Ch.colon :: (putDigits2 om ++ r)) := by
    intro habs
    rw [offsetText, if_neg hz]
    simp only [habs, hhours, hminutes]
    simp
  rcases hoff with hoff | hoff
  · have hpos : ¬ dt.offsetSeconds < 0 := by
      rw [Int32.lt_iff_toInt_lt, hoff, hint]
      omega
    rw [htext (by rw [hoff, hint]; omega), if_neg hpos,
      parseOffset_signed (.inr rfl) hoh hom, if_neg (by decide), hoff]
  · have hlt : dt.offsetSeconds < 0 := by
      rw [Int32.lt_iff_toInt_lt, hoff, hneg]
      omega
    rw [htext (by rw [hoff, hneg]; omega), if_pos hlt,
      parseOffset_signed (.inl rfl) hoh hom, if_pos rfl, hoff]

/-- Behind a date and a time that end here, there is no offset. -/
lemma parseOffset_ends {r : Bytes} (hr : Ends r) (start : Bytes) (dt : Datetime) :
    parseOffset start r dt = .ok (.datetime .datetimeLocal dt, r) := by
  have hz : ¬ (r.head? = some 0x5A ∨ r.head? = some 0x7A) := by
    rintro (h | h)
    · exact hr.head_ne (by decide) h
    · exact hr.head_ne (by decide) h
  have hoffset : hasOffset r = false := by
    cases r with
    | nil => rfl
    | cons c cs =>
      have hsign : hasOffset.atSignByte c = false := by
        rcases hr c rfl with rfl | rfl | rfl | rfl <;> decide
      simp [hasOffset, byteAt, hsign]
  rw [parseOffset, if_neg hz, hoffset]
  rfl

/-- A clock is not a date, and its shape is that of a time. -/
lemma clockText_shape {dt : Datetime} (h : dt.TimeOk) (r : Bytes) :
    byteAt (clockText dt ++ r) 4 ≠ Ch.minus ∧ timeShape (clockText dt ++ r) = true := by
  have hh : dt.hour.toNat < 100 := by have := h.hour; omega
  have hm : dt.minute.toNat < 100 := by have := h.minute; omega
  obtain ⟨-, h0, h1⟩ := digits_at hh (p := clockText dt ++ r) (i := 0) rfl rfl
  obtain ⟨-, h3, h4⟩ := digits_at hm (p := clockText dt ++ r) (i := 3) rfl rfl
  have hlen : 5 ≤ (clockText dt ++ r).length := by
    simp [clockText, putDigits2]
  have hcolon : byteAt (clockText dt ++ r) 2 = Ch.colon := rfl
  constructor
  · intro hminus
    rw [digAt, hminus] at h4
    exact absurd h4 (by decide)
  · rw [timeShape, decide_eq_true hlen, hcolon, h0, h1, h3, h4]
    rfl

/-- Behind a date, `T` and a clock are a time. -/
lemma hasTime_text {dt : Datetime} (h : dt.TimeOk) (r : Bytes) :
    hasTime (0x54 :: (clockText dt ++ r)) = true := by
  have hh : dt.hour.toNat < 100 := by have := h.hour; omega
  have hm : dt.minute.toNat < 100 := by have := h.minute; omega
  obtain ⟨-, h1, h2⟩ := digits_at hh (p := 0x54 :: (clockText dt ++ r)) (i := 1) rfl rfl
  obtain ⟨-, h4, h5⟩ := digits_at hm (p := 0x54 :: (clockText dt ++ r)) (i := 4) rfl rfl
  have hlen : 6 ≤ (0x54 :: (clockText dt ++ r)).length := by
    simp [clockText, putDigits2]
  have hcolon : byteAt (0x54 :: (clockText dt ++ r)) 3 = Ch.colon := rfl
  rw [hasTime, decide_eq_true hlen, h1, h2, hcolon, h4, h5]
  rfl

/-- Behind a date that ends here, there is no time. -/
lemma hasTime_ends {r : Bytes} (hr : Ends r) : hasTime r = false := by
  have h1 : r.head? ≠ some 0x54 := hr.head_ne (by decide)
  have h2 : r.head? ≠ some 0x74 := hr.head_ne (by decide)
  have h3 : r.head? ≠ some Ch.sp := hr.head_ne (by decide)
  simp [hasTime, h1, h2, h3]

/-- A date alone is read back. -/
lemma parseDateLed_date {dt : Datetime} {y : ℕ} (h : dt.DateOk y) {r : Bytes} (hr : Ends r) :
    parseDateLed (dateText dt ++ r) =
      .ok (.datetime .dateLocal { year := dt.year, month := dt.month, day := dt.day }, r) := by
  obtain ⟨hyear, hmonth, hday, hdrop, -⟩ := dateText_fields h r
  have hm := h.month
  have hd := h.day
  rw [parseDateLed, hyear, hmonth, hday, hdrop, if_neg (by omega), if_neg (by omega)]
  simp only [hasTime_ends hr, UInt8.ofNat_toNat, ← h.year.1, Bool.not_false, if_true]

/-- A date and a time are read back, up to their offset. -/
lemma parseDateLed_time {dt : Datetime} {y : ℕ} (h : dt.DateOk y) (ht : dt.TimeOk) {r : Bytes}
    (hr : ∀ c ∈ r.head?, isDec c = false ∧ c ≠ Ch.dot) :
    parseDateLed (dateText dt ++ 0x54 :: (clockText dt ++ r)) =
      parseOffset (dateText dt ++ 0x54 :: (clockText dt ++ r)) r
        { dt with offsetSeconds := 0 } := by
  obtain ⟨hyear, hmonth, hday, hdrop, -⟩ := dateText_fields h (0x54 :: (clockText dt ++ r))
  have hm := h.month
  have hd := h.day
  obtain ⟨q, hclock, hfrac⟩ := parseTime_text ht (show 6 ≤ 8 by decide)
    (dateText dt ++ 0x54 :: (clockText dt ++ r)) hr
  rw [parseDateLed, hyear, hmonth, hday, hdrop, if_neg (by omega), if_neg (by omega)]
  simp only [hasTime_text ht, Bool.not_true, Bool.false_eq_true, if_false, List.drop_succ_cons,
    List.drop_zero, hclock, hfrac, UInt8.ofNat_toNat, UInt32.ofNat_toNat, ← h.year.1]

/-- The text of a datetime in range is read as that datetime. -/
theorem parseDatetime_emitDt {kind : DtKind} {dt : Datetime} (h : dt.Ok kind) {r : Bytes}
    (hr : Ends r) : parseDatetime (emitDt kind dt ++ r) = .ok (.datetime kind dt, r) ∧
      datetimeLookahead (emitDt kind dt ++ r) = true := by
  have hdate : ∀ {y}, dt.DateOk y → ∀ q, byteAt (dateText dt ++ q) 4 = Ch.minus ∧
      datetimeLookahead (dateText dt ++ q) = true := by
    intro y hd q
    obtain ⟨-, -, -, -, hshape⟩ := dateText_fields hd q
    exact ⟨rfl, by rw [datetimeLookahead, hshape, Bool.true_or]⟩
  cases kind with
  | datetimeOffset =>
    obtain ⟨⟨y, hd⟩, ht, ho⟩ := h
    have htext : emitDt .datetimeOffset dt ++ r =
        dateText dt ++ 0x54 :: (clockText dt ++ (offsetText dt ++ r)) := by simp [emitDt]
    obtain ⟨hminus, hlook⟩ := hdate hd (0x54 :: (clockText dt ++ (offsetText dt ++ r)))
    rw [htext]
    refine ⟨?_, hlook⟩
    rw [parseDatetime, if_pos hminus, parseDateLed_time hd ht (offsetText_head dt r),
      parseOffset_text ho]
  | datetimeLocal =>
    obtain ⟨⟨y, hd⟩, ht, ho⟩ := h
    have htext : emitDt .datetimeLocal dt ++ r = dateText dt ++ 0x54 :: (clockText dt ++ r) := by
      simp [emitDt]
    obtain ⟨hminus, hlook⟩ := hdate hd (0x54 :: (clockText dt ++ r))
    rw [htext]
    refine ⟨?_, hlook⟩
    rw [parseDatetime, if_pos hminus, parseDateLed_time hd ht hr.not_number, parseOffset_ends hr,
      ← ho]
  | dateLocal =>
    obtain ⟨⟨y, hd⟩, ⟨h1, h2, h3, h4⟩, ho⟩ := h
    obtain ⟨hminus, hlook⟩ := hdate hd r
    refine ⟨?_, hlook⟩
    have hfields : dt = { year := dt.year, month := dt.month, day := dt.day } := by
      cases dt
      simp_all
    rw [emitDt, parseDatetime, if_pos hminus, parseDateLed_date hd hr, ← hfields]
  | timeLocal =>
    obtain ⟨⟨h1, h2, h3⟩, ht, ho⟩ := h
    obtain ⟨hminus, hshape⟩ := clockText_shape ht r
    obtain ⟨q, hclock, hfrac⟩ := parseTime_text ht (show 8 ≤ 8 by decide) (clockText dt ++ r)
      hr.not_number
    have hfields : dt = { hour := dt.hour, minute := dt.minute, second := dt.second,
                          nanosecond := dt.nanosecond } := by
      cases dt
      simp_all
    refine ⟨?_, by rw [emitDt, datetimeLookahead, hshape, Bool.or_true]⟩
    rw [emitDt, parseDatetime, if_neg hminus, parseTimeOnly, hclock]
    simp only [hfrac, UInt8.ofNat_toNat, UInt32.ofNat_toNat]
    rw [← hfields]

end Teptris
