import Mathlib.Tactic.IntervalCases
import Teptris.Grammar.Number
import Teptris.Library.Runs

/-!
# Date-times and their grammar

What `teptris_parse_datetime` reads, against the date-times of TOML 1.1: the same texts with the
same fields, and times with a fraction right behind the minutes besides.
-/

namespace Teptris

/-! ## Clocks -/

/-- The readers of a clock and of what stands behind it. -/
lemma clock_reads {t : Bytes} {h m : ℕ} (ht : Toml.IsClock t h m) (r : Bytes) :
    d2 (t ++ r) 0 = h ∧ d2 (t ++ r) 3 = m ∧ (t ++ r).drop 5 = r ∧ (t ++ r).drop 8 = r.drop 3 ∧
      byteAt (t ++ r) 5 = byteAt r 0 ∧ d2 (t ++ r) 6 = d2 r 1 ∧ digAt (t ++ r) 6 = digAt r 1 ∧
      digAt (t ++ r) 7 = digAt r 2 ∧ (t ++ r).length = r.length + 5 := by
  obtain ⟨a, b, c, d, rfl, -, -, -, -, rfl, rfl⟩ := ht.bytes
  exact ⟨rfl, rfl, rfl, rfl, rfl, rfl, rfl, rfl, by simp⟩

/-- The shape of a time is a clock. -/
lemma timeShape_iff {p : Bytes} :
    timeShape p = true ↔ ∃ t h m r, Toml.IsClock t h m ∧ p = t ++ r := by
  constructor
  · intro h
    simp only [timeShape, Bool.and_eq_true, decide_eq_true_eq, beq_iff_eq] at h
    obtain ⟨⟨⟨⟨⟨hlen, hcolon⟩, h0⟩, h1⟩, h3⟩, h4⟩ := h
    obtain ⟨a, b, c, d, e, r, rfl⟩ : ∃ a b c d e r, p = a :: b :: c :: d :: e :: r := by
      rcases p with _ | ⟨a, _ | ⟨b, _ | ⟨c, _ | ⟨d, _ | ⟨e, r⟩⟩⟩⟩⟩ <;>
        first
        | exact ⟨_, _, _, _, _, _, rfl⟩
        | simp at hlen
    obtain rfl : c = Ch.colon := hcolon
    exact ⟨[a, b] ++ Ch.colon :: [d, e], _, _, r,
      ⟨Toml.isDigits_two.mpr ⟨a, b, rfl, h0, h1, rfl⟩,
        Toml.isDigits_two.mpr ⟨d, e, rfl, h3, h4, rfl⟩⟩, rfl⟩
  · rintro ⟨t, h, m, r, ht, rfl⟩
    obtain ⟨a, b, c, d, rfl, ha, hb, hc, hd, -, -⟩ := ht.bytes
    have hfields : digAt ([a, b, 0x3A, c, d] ++ r) 0 = true ∧
        digAt ([a, b, 0x3A, c, d] ++ r) 1 = true ∧ digAt ([a, b, 0x3A, c, d] ++ r) 3 = true ∧
        digAt ([a, b, 0x3A, c, d] ++ r) 4 = true := ⟨ha, hb, hc, hd⟩
    have hcolon : byteAt ([a, b, 0x3A, c, d] ++ r) 2 = Ch.colon := rfl
    have hlen : 5 ≤ ([a, b, 0x3A, c, d] ++ r).length := by simp
    rw [timeShape, decide_eq_true hlen, hcolon, hfields.1, hfields.2.1, hfields.2.2.1,
      hfields.2.2.2]
    rfl

lemma checkClock_iff {start p q : Bytes} {s n h m s' : ℕ} :
    checkClock start p s n = .ok (h, m, s', q) ↔
      (d2 p 0 ≤ 23 ∧ d2 p 3 ≤ 59 ∧ s ≤ 60) ∧ h = d2 p 0 ∧ m = d2 p 3 ∧ s' = s ∧ q = p.drop n := by
  rw [checkClock]
  split_ifs with hhour hminute hsecond
  · simp only [failAt_ne_ok, false_iff]
    omega
  · simp only [failAt_ne_ok, false_iff]
    omega
  · simp only [failAt_ne_ok, false_iff]
    omega
  · rw [Except.ok.injEq, Prod.mk.injEq, Prod.mk.injEq, Prod.mk.injEq]
    constructor
    · rintro ⟨rfl, rfl, rfl, rfl⟩
      exact ⟨by omega, rfl, rfl, rfl, rfl⟩
    · rintro ⟨-, rfl, rfl, rfl, rfl⟩
      exact ⟨rfl, rfl, rfl, rfl⟩

/-- Three bytes. -/
lemma exists_three {r : Bytes} (h : 3 ≤ r.length) : ∃ a b c q, r = a :: b :: c :: q := by
  match r, h with
  | a :: b :: c :: q, _ => exact ⟨a, b, c, q, rfl⟩

/-- What is read behind a clock: nothing, or the seconds. -/
lemma parseClock_sound {need : ℕ} {start t r q : Bytes} {h m h' m' s : ℕ}
    (ht : Toml.IsClock t h m) (hread : parseClock need start (t ++ r) = .ok (h', m', s, q)) :
    Toml.IsHourMinute t h m ∧ h' = h ∧ m' = m ∧
      (s = 0 ∧ q = r ∨ ∃ ts, Toml.IsDigits 2 ts s ∧ s ≤ 60 ∧ r = Ch.colon :: (ts ++ q)) := by
  obtain ⟨hh, hm, hdrop, hdrop', hcolon, hsecond, hd6, hd7, hlen⟩ := clock_reads ht r
  rw [parseClock] at hread
  split_ifs at hread with hseconds hbad
  · exact absurd hread failAt_ne_ok
  · obtain ⟨⟨hhour, hminute, hsec⟩, rfl, rfl, rfl, rfl⟩ := checkClock_iff.mp hread
    rw [hh] at hhour
    rw [hm] at hminute
    simp only [not_or, Bool.not_eq_true', Bool.not_eq_false, hd6, hd7] at hbad
    obtain ⟨a, b, c, q, rfl⟩ := exists_three (r := r) (by omega)
    obtain rfl : a = Ch.colon := hcolon.symm.trans hseconds.2
    refine ⟨⟨ht, hhour, hminute⟩, hh, hm, .inr ⟨[b, c], ?_, hsec, ?_⟩⟩
    · rw [hsecond]
      exact Toml.isDigits_two.mpr ⟨b, c, rfl, hbad.2.1, hbad.2.2, rfl⟩
    · rw [hdrop']
      rfl
  · obtain ⟨⟨hhour, hminute, -⟩, rfl, rfl, rfl, rfl⟩ := checkClock_iff.mp hread
    rw [hh] at hhour
    rw [hm] at hminute
    exact ⟨⟨ht, hhour, hminute⟩, hh, hm, .inl ⟨rfl, hdrop⟩⟩

/-- A clock without seconds is read. -/
lemma parseClock_minutes {need : ℕ} {t r : Bytes} {h m : ℕ} (ht : Toml.IsHourMinute t h m)
    (hr : ∀ c ∈ r.head?, c ≠ Ch.colon) (start : Bytes) :
    parseClock need start (t ++ r) = .ok (h, m, 0, r) := by
  obtain ⟨hh, hm, hdrop, -, hcolon, -⟩ := clock_reads ht.text r
  have hnone : byteAt r 0 ≠ Ch.colon := by
    cases r with
    | nil => exact show (0 : UInt8) ≠ Ch.colon by decide
    | cons c cs => exact hr c rfl
  rw [parseClock, if_neg (fun hc => hnone (hcolon.symm.trans hc.2)), checkClock_iff, hh, hm, hdrop]
  exact ⟨⟨ht.hour, ht.minute, Nat.zero_le _⟩, rfl, rfl, rfl, rfl⟩

/-- A clock with seconds is read. -/
lemma parseClock_seconds {need : ℕ} (hneed : need ≤ 8) {t ts : Bytes} {h m s : ℕ}
    (ht : Toml.IsHourMinute t h m) (hs : Toml.IsDigits 2 ts s) (hle : s ≤ 60) (start r : Bytes) :
    parseClock need start (t ++ Ch.colon :: (ts ++ r)) = .ok (h, m, s, r) := by
  obtain ⟨hh, hm, -, hdrop, hcolon, hsecond, hd6, hd7, hlen⟩ :=
    clock_reads ht.text (Ch.colon :: (ts ++ r))
  obtain ⟨a, b, rfl, ha, hb, rfl⟩ := Toml.isDigits_two.mp hs
  have hd6 : digAt (t ++ Ch.colon :: ([a, b] ++ r)) 6 = true := hd6.trans ha
  have hd7 : digAt (t ++ Ch.colon :: ([a, b] ++ r)) 7 = true := hd7.trans hb
  have hlen : 8 ≤ (t ++ Ch.colon :: ([a, b] ++ r)).length := by
    rw [hlen]
    simp
  rw [parseClock, if_pos ⟨by omega, hcolon⟩, hd6, hd7, if_neg (by simpa using hlen), checkClock_iff,
    hh, hm, hdrop, hsecond]
  exact ⟨⟨ht.hour, ht.minute, hle⟩, rfl, rfl, rfl, rfl⟩

/-! ## Fractions -/

/-- Digits behind others count by their place. -/
lemma decFrom_eq (m : ℕ) (ds : Bytes) : decFrom m ds = m * 10 ^ ds.length + decVal ds := by
  induction ds generalizing m with
  | nil => simp [decFrom]
  | cons c cs ih =>
    have hstep : ∀ n, decFrom n (c :: cs) =
        (n * 10 + (c.toNat - 0x30)) * 10 ^ cs.length + decVal cs := fun _ => ih _
    have hfirst : decVal (c :: cs) = (0 * 10 + (c.toNat - 0x30)) * 10 ^ cs.length + decVal cs :=
      hstep 0
    rw [hstep, hfirst, List.length_cons, Nat.pow_succ']
    ring

/-- The digits of a fraction from the unit `10 ^ k` on. -/
lemma frac_units {ds : Bytes} (hds : ∀ c ∈ ds, isDec c = true) (a k : ℕ) :
    (ds.foldl (fun (s : ℕ × ℕ) c => (s.1 + (c.toNat - 0x30) * s.2, s.2 / 10)) (a, 10 ^ k)).1 =
      a + decVal ds * 10 ^ (k + 1) / 10 ^ ds.length := by
  have hzero : ∀ (ds : Bytes) (a : ℕ), (ds.foldl (fun (s : ℕ × ℕ) c =>
      (s.1 + (c.toNat - 0x30) * s.2, s.2 / 10)) (a, 0)).1 = a := by
    intro ds
    induction ds with
    | nil => exact fun _ => rfl
    | cons c cs ih => exact fun a => (by simpa using ih a)
  induction ds generalizing a k with
  | nil => simp [decFrom]
  | cons c cs ih =>
    have hcs : ∀ c ∈ cs, isDec c = true := fun d hd => hds d (by simp [hd])
    have hval : decVal (c :: cs) = (c.toNat - 0x30) * 10 ^ cs.length + decVal cs := by
      have hfirst : decVal (c :: cs) = decFrom (0 * 10 + (c.toNat - 0x30)) cs := rfl
      rw [hfirst, decFrom_eq, Nat.zero_mul, Nat.zero_add]
    have hlt : decVal cs < 10 ^ cs.length := by
      have := decFrom_lt hcs 0
      rwa [Nat.zero_add, Nat.one_mul] at this
    have hstep : decVal (c :: cs) * 10 ^ (k + 1) / 10 ^ (c :: cs).length =
        (c.toNat - 0x30) * 10 ^ k + decVal cs * 10 ^ k / 10 ^ cs.length := by
      rw [hval, List.length_cons, Nat.pow_succ, Nat.pow_succ, ← Nat.mul_assoc,
        Nat.mul_div_mul_right _ _ (by decide), Nat.add_mul, Nat.mul_right_comm, Nat.add_comm,
        Nat.add_mul_div_right _ _ (by positivity), Nat.add_comm]
    rw [hstep, List.foldl_cons, ← Nat.add_assoc]
    cases k with
    | zero =>
      have hsmall : decVal cs * 10 ^ 0 / 10 ^ cs.length = 0 := by
        rw [Nat.pow_zero, Nat.mul_one]
        exact Nat.div_eq_of_lt hlt
      rw [hsmall]
      simpa using hzero cs (a + (c.toNat - 0x30))
    | succ k =>
      have hunit : 10 ^ (k + 1) / 10 = 10 ^ k := by
        rw [Nat.pow_succ, Nat.mul_div_cancel _ (by decide)]
      rw [hunit, ih hcs]

/-- The nanoseconds of a fraction are its value, truncated. -/
lemma fracNanos_eq {ds : Bytes} (hds : ∀ c ∈ ds, isDec c = true) :
    fracNanos ds = Toml.digitsVal ds * 10 ^ 9 / 10 ^ ds.length := by
  have := frac_units hds 0 8
  rwa [Nat.zero_add] at this

/-- A fraction is below a second. -/
lemma secFrac_lt {t : Bytes} {ns : ℕ} (h : Toml.IsSecFrac t ns) : ns < 10 ^ 9 := by
  obtain ⟨hds, hne⟩ := h
  have hlt := decFrom_lt hds 0
  rw [Nat.zero_add, Nat.one_mul] at hlt
  refine Nat.div_lt_of_lt_mul ?_
  exact Nat.mul_lt_mul_of_pos_right hlt (by decide)

/-- What is read behind a clock: nothing, or a fraction. -/
lemma parseFrac_sound {start p q : Bytes} {ns : ℕ} (h : parseFrac start p = .ok (ns, q)) :
    ns = 0 ∧ q = p ∨ ∃ tf, Toml.IsSecFrac tf ns ∧ p = tf ++ q := by
  rw [parseFrac] at h
  split_ifs at h with hdot
  · dsimp only at h
    split_ifs at h with hnone
    · exact absurd h failAt_ne_ok
    · obtain ⟨rfl, rfl⟩ := Prod.mk.inj (Except.ok.inj h)
      have hdec : ∀ c ∈ (p.drop 1).takeWhile isDec, isDec c = true :=
        fun c hc => List.mem_takeWhile_imp hc
      refine .inr ⟨Ch.dot :: (p.drop 1).takeWhile isDec, ?_, ?_⟩
      · rw [fracNanos_eq hdec]
        exact ⟨hdec, hnone⟩
      · rw [List.cons_append, List.takeWhile_append_dropWhile]
        obtain ⟨cs, rfl⟩ := List.head?_eq_some_iff.mp hdot
        rfl
  · obtain ⟨rfl, rfl⟩ := Prod.mk.inj (Except.ok.inj h)
    exact .inl ⟨rfl, rfl⟩

/-- A fraction is read up to its end. -/
lemma parseFrac_complete {tf q : Bytes} {ns : ℕ} (h : Toml.IsSecFrac tf ns)
    (hq : ∀ c ∈ q.head?, isDec c = false) (start : Bytes) :
    parseFrac start (tf ++ q) = .ok (ns, q) := by
  obtain @⟨ds, hds, hne⟩ := h
  have hdec : ∀ c ∈ ds, isDec c = true := hds
  obtain ⟨htake, hdrop⟩ := Runs.cut hdec hq
  rw [parseFrac, List.cons_append, List.head?_cons, if_pos rfl]
  dsimp only
  rw [List.drop_succ_cons, List.drop_zero, htake, hdrop, if_neg hne, fracNanos_eq hds]

lemma parseFrac_none {q : Bytes} (hq : q.head? ≠ some Ch.dot) (start : Bytes) :
    parseFrac start q = .ok (0, q) := by
  rw [parseFrac, if_neg hq]

/-! ## Times -/

/-- The times that are read: those of the grammar, and a fraction right behind the minutes. -/
def IsReadTime (t : Bytes) (v : Toml.Time) : Prop := Toml.IsTime t v ∨ Toml.IsMinuteFraction t v

/-- What is read from a clock on is a time. -/
lemma time_sound {need : ℕ} {start t r p q : Bytes} {h m h' m' s ns : ℕ} (ht : Toml.IsClock t h m)
    (hclock : parseClock need start (t ++ r) = .ok (h', m', s, p))
    (hfrac : parseFrac start p = .ok (ns, q)) :
    ∃ tt, t ++ r = tt ++ q ∧ IsReadTime tt ⟨h', m', s, ns⟩ := by
  obtain ⟨hhm, rfl, rfl, hseconds⟩ := parseClock_sound ht hclock
  rcases hseconds with ⟨rfl, rfl⟩ | ⟨ts, hs, hle, rfl⟩
  · rcases parseFrac_sound hfrac with ⟨rfl, rfl⟩ | ⟨tf, hf, rfl⟩
    · exact ⟨t, rfl, .inl (.minutes hhm)⟩
    · exact ⟨t ++ tf, (List.append_assoc _ _ _).symm, .inr (.mk hhm hf)⟩
  · rcases parseFrac_sound hfrac with ⟨rfl, rfl⟩ | ⟨tf, hf, rfl⟩
    · exact ⟨t ++ Ch.colon :: ts, by simp, .inl (.seconds hhm hs hle)⟩
    · exact ⟨t ++ Ch.colon :: (ts ++ tf), by simp, .inl (.fraction hhm hs hle hf)⟩

/-- Nothing that a time goes on with. -/
def EndsTime (q : Bytes) : Prop :=
  ∀ c ∈ q.head?, isDec c = false ∧ c ≠ Ch.dot ∧ c ≠ Ch.colon

/-- A time is read up to its end. -/
lemma time_complete {need : ℕ} (hneed : need ≤ 8) {t q : Bytes} {v : Toml.Time}
    (ht : IsReadTime t v) (hq : EndsTime q) (start : Bytes) :
    ∃ p, parseClock need start (t ++ q) = .ok (v.hour, v.minute, v.second, p) ∧
      parseFrac start p = .ok (v.nanosecond, q) := by
  have hcolon : ∀ c ∈ q.head?, c ≠ Ch.colon := fun c hc => (hq c hc).2.2
  have hdot : q.head? ≠ some Ch.dot := fun hc => (hq _ hc).2.1 rfl
  have hdec : ∀ c ∈ q.head?, isDec c = false := fun c hc => (hq c hc).1
  have hfirst : ∀ {tf : Bytes} {ns : ℕ}, Toml.IsSecFrac tf ns →
      ∀ c ∈ (tf ++ q).head?, c ≠ Ch.colon := by
    intro tf ns hf c hc
    obtain ⟨hds, hne⟩ := hf
    obtain rfl := Option.some.inj hc
    decide
  rcases ht with ht | ht
  · cases ht with
    | minutes ht => exact ⟨q, parseClock_minutes ht hcolon start, parseFrac_none hdot start⟩
    | seconds ht hs hle =>
      rw [List.append_assoc]
      exact ⟨q, parseClock_seconds hneed ht hs hle start q, parseFrac_none hdot start⟩
    | @fraction t ts tf h m s ns ht hs hle hf =>
      rw [List.append_assoc, List.cons_append, List.append_assoc]
      exact ⟨tf ++ q, parseClock_seconds hneed ht hs hle start _, parseFrac_complete hf hdec start⟩
  · obtain @⟨t, tf, h, m, ns, ht, hf⟩ := ht
    rw [List.append_assoc]
    exact ⟨tf ++ q, parseClock_minutes ht (hfirst hf) start, parseFrac_complete hf hdec start⟩

/-! ## Offsets -/

/-- The date-time behind an offset. -/
def Datetime.withOffset (dt : Datetime) (o : ℤ) : Datetime :=
  { dt with offsetSeconds := Int32.ofInt o }

/-- The shape of a numeric offset is a sign and a clock. -/
lemma hasOffset_iff {p : Bytes} : hasOffset p = true ↔
    ∃ c t h m r, (c = Ch.plus ∨ c = Ch.minus) ∧ Toml.IsClock t h m ∧ p = c :: (t ++ r) := by
  have hshape : hasOffset p = (hasOffset.atSignByte (byteAt p 0) && timeShape (p.drop 1)) := by
    have hlen : decide (6 ≤ p.length) = decide (5 ≤ (p.drop 1).length) := by
      rw [List.length_drop]
      exact decide_eq_decide.mpr (by omega)
    simp only [hasOffset, timeShape, digAt, byteAt_drop, hlen]
    ac_rfl
  rw [hshape, Bool.and_eq_true, timeShape_iff]
  constructor
  · rintro ⟨hsign, t, h, m, r, ht, hp⟩
    cases p with
    | nil => exact absurd hsign (by decide)
    | cons c cs =>
      refine ⟨c, t, h, m, r, ?_, ht, by rw [← hp]; rfl⟩
      simpa [hasOffset.atSignByte, byteAt] using hsign
  · rintro ⟨c, t, h, m, r, hc, ht, rfl⟩
    exact ⟨by simpa [hasOffset.atSignByte, byteAt] using hc, t, h, m, r, ht, rfl⟩

/-- A numeric offset is read where it is in range. -/
lemma parseOffset_numeric {c : UInt8} (hc : c = Ch.plus ∨ c = Ch.minus) {t : Bytes} {h m : ℕ}
    (ht : Toml.IsClock t h m) (start r : Bytes) (dt : Datetime) :
    parseOffset start (c :: (t ++ r)) dt =
      if 23 < h ∨ 59 < m then failAt start .errSyntax "invalid UTC offset"
      else .ok (.datetime .datetimeOffset (dt.withOffset
        (if c = Ch.minus then -(h * 3600 + m * 60 : ℕ) else (h * 3600 + m * 60 : ℕ))), r) := by
  have hz : ¬ ((c :: (t ++ r)).head? = some 0x5A ∨ (c :: (t ++ r)).head? = some 0x7A) := by
    rw [List.head?_cons]
    rcases hc with rfl | rfl <;> decide
  have hoffset : hasOffset (c :: (t ++ r)) = true := hasOffset_iff.mpr ⟨c, t, h, m, r, hc, ht, rfl⟩
  obtain ⟨hh, hm, hdrop, -⟩ := clock_reads ht r
  have hh : d2 (c :: (t ++ r)) 1 = h := hh
  have hm : d2 (c :: (t ++ r)) 4 = m := hm
  have hdrop : (c :: (t ++ r)).drop 6 = r := hdrop
  have hfirst : byteAt (c :: (t ++ r)) 0 = c := rfl
  have hsecs : ∀ n : ℕ, (if c = Ch.minus then -Int32.ofNat n else Int32.ofNat n) =
      Int32.ofInt (if c = Ch.minus then -n else n) := by
    intro n
    split_ifs
    · rw [← Int32.neg_ofInt, Int32.ofInt_eq_ofNat]
    · rw [Int32.ofInt_eq_ofNat]
  rw [parseOffset, if_neg hz, if_pos hoffset, hh, hm, hfirst, hdrop]
  dsimp only
  rw [hsecs]
  rfl

/-- What is read behind a date and a time: an offset, or nothing. -/
lemma parseOffset_sound {start p q : Bytes} {dt : Datetime} {v : Node}
    (h : parseOffset start p dt = .ok (v, q)) :
    (∃ tz o, Toml.IsOffset tz o ∧ p = tz ++ q ∧ v = .datetime .datetimeOffset (dt.withOffset o)) ∨
      q = p ∧ v = .datetime .datetimeLocal dt := by
  by_cases hz : p.head? = some 0x5A ∨ p.head? = some 0x7A
  · rw [parseOffset, if_pos hz] at h
    obtain ⟨rfl, rfl⟩ := Prod.mk.inj (Except.ok.inj h)
    rcases hz with hz | hz <;> obtain ⟨cs, rfl⟩ := List.head?_eq_some_iff.mp hz
    · exact .inl ⟨_, _, .upper, rfl, rfl⟩
    · exact .inl ⟨_, _, .lower, rfl, rfl⟩
  · by_cases hoffset : hasOffset p = true
    · obtain ⟨c, t, hour, minute, r, hc, ht, rfl⟩ := hasOffset_iff.mp hoffset
      rw [parseOffset_numeric hc ht] at h
      split_ifs at h with hrange hminus
      · exact absurd h failAt_ne_ok
      · obtain ⟨rfl, rfl⟩ := Prod.mk.inj (Except.ok.inj h)
        subst hminus
        exact .inl ⟨_, _, .west ⟨ht, by omega, by omega⟩, rfl, rfl⟩
      · obtain ⟨rfl, rfl⟩ := Prod.mk.inj (Except.ok.inj h)
        obtain rfl := hc.resolve_right hminus
        exact .inl ⟨_, _, .east ⟨ht, by omega, by omega⟩, rfl, rfl⟩
    · rw [parseOffset, if_neg hz, if_neg hoffset] at h
      obtain ⟨rfl, rfl⟩ := Prod.mk.inj (Except.ok.inj h)
      exact .inr ⟨rfl, rfl⟩

/-- An offset is read. -/
lemma parseOffset_complete {tz : Bytes} {o : ℤ} (h : Toml.IsOffset tz o) (start q : Bytes)
    (dt : Datetime) : parseOffset start (tz ++ q) dt =
      .ok (.datetime .datetimeOffset (dt.withOffset o), q) := by
  cases h with
  | upper => rfl
  | lower => rfl
  | east ht =>
    have hrange := not_or.mpr ⟨Nat.not_lt.mpr ht.hour, Nat.not_lt.mpr ht.minute⟩
    exact (parseOffset_numeric (.inl rfl) ht.text start q dt).trans (if_neg hrange)
  | west ht =>
    have hrange := not_or.mpr ⟨Nat.not_lt.mpr ht.hour, Nat.not_lt.mpr ht.minute⟩
    exact (parseOffset_numeric (.inr rfl) ht.text start q dt).trans (if_neg hrange)

/-- Where nothing of an offset stands, a local date-time ends. -/
lemma parseOffset_none {q : Bytes} (hq : ∀ c ∈ q.head?, c ≠ 0x5A ∧ c ≠ 0x7A ∧ c ≠ Ch.plus ∧
    c ≠ Ch.minus) (start : Bytes) (dt : Datetime) :
    parseOffset start q dt = .ok (.datetime .datetimeLocal dt, q) := by
  have hz : ¬ (q.head? = some 0x5A ∨ q.head? = some 0x7A) := by
    rintro (hc | hc)
    · exact (hq _ hc).1 rfl
    · exact (hq _ hc).2.1 rfl
  have hoffset : ¬ hasOffset q = true := by
    intro hshape
    obtain ⟨c, t, h, m, r, hc, -, rfl⟩ := hasOffset_iff.mp hshape
    rcases hc with rfl | rfl
    · exact (hq _ rfl).2.2.1 rfl
    · exact (hq _ rfl).2.2.2 rfl
  rw [parseOffset, if_neg hz, if_neg hoffset]

/-! ## Dates -/

/-- The readers of a date. -/
lemma date_reads {t : Bytes} {d : Toml.Date} (ht : Toml.IsDateText t d) (r : Bytes) :
    num4 (t ++ r) 0 = d.year ∧ d2 (t ++ r) 5 = d.month ∧ d2 (t ++ r) 8 = d.day ∧
      (t ++ r).drop 10 = r ∧ byteAt (t ++ r) 4 = Ch.minus ∧ dateShape (t ++ r) = true := by
  obtain ⟨hy, hm, hd⟩ := ht
  obtain ⟨t₁, v₁, t₂, v₂, h₁, h₂, rfl, rfl⟩ := Toml.isDigits_four.mp hy
  obtain ⟨a, b, rfl, ha, hb, rfl⟩ := Toml.isDigits_two.mp h₁
  obtain ⟨c, d, rfl, hc, hd', rfl⟩ := Toml.isDigits_two.mp h₂
  obtain ⟨e, f, rfl, he, hf, rfl⟩ := Toml.isDigits_two.mp hm
  obtain ⟨g, h, rfl, hg, hh, rfl⟩ := Toml.isDigits_two.mp hd
  refine ⟨rfl, rfl, rfl, rfl, rfl, ?_⟩
  have hdec : isDec a = true ∧ isDec b = true ∧ isDec c = true ∧ isDec d = true ∧
      isDec e = true ∧ isDec f = true ∧ isDec g = true ∧ isDec h = true :=
    ⟨ha, hb, hc, hd', he, hf, hg, hh⟩
  simp [dateShape, digAt, byteAt, hdec]

/-- The shape of a date is a date by its numbers. -/
lemma dateShape_iff {p : Bytes} :
    dateShape p = true ↔ ∃ t d r, Toml.IsDateText t d ∧ p = t ++ r := by
  constructor
  · intro h
    simp only [dateShape, Bool.and_eq_true, decide_eq_true_eq, beq_iff_eq] at h
    obtain ⟨⟨⟨⟨⟨⟨⟨⟨⟨⟨hlen, hfirst⟩, hsecond⟩, h0⟩, h1⟩, h2⟩, h3⟩, h5⟩, h6⟩, h8⟩, h9⟩ := h
    obtain ⟨a, b, c, d, x, e, f, y, g, i, r, rfl⟩ : ∃ a b c d x e f y g i r,
        p = a :: b :: c :: d :: x :: e :: f :: y :: g :: i :: r := by
      rcases p with _ | ⟨a, _ | ⟨b, _ | ⟨c, _ | ⟨d, _ | ⟨x, _ | ⟨e, _ | ⟨f, _ | ⟨y, _ | ⟨g, _ |
        ⟨i, r⟩⟩⟩⟩⟩⟩⟩⟩⟩⟩ <;>
        first
        | exact ⟨_, _, _, _, _, _, _, _, _, _, _, rfl⟩
        | simp at hlen
    obtain rfl : x = Ch.minus := hfirst
    obtain rfl : y = Ch.minus := hsecond
    refine ⟨([a, b] ++ [c, d]) ++ Ch.minus :: ([e, f] ++ Ch.minus :: [g, i]), _, r,
      ⟨Toml.isDigits_four.mpr ⟨_, _, _, _, Toml.isDigits_two.mpr ⟨a, b, rfl, h0, h1, rfl⟩,
        Toml.isDigits_two.mpr ⟨c, d, rfl, h2, h3, rfl⟩, rfl, rfl⟩,
        Toml.isDigits_two.mpr ⟨e, f, rfl, h5, h6, rfl⟩,
        Toml.isDigits_two.mpr ⟨g, i, rfl, h8, h9, rfl⟩⟩, rfl⟩
  · rintro ⟨t, d, r, ht, rfl⟩
    exact (date_reads ht r).2.2.2.2.2

/-- `days_in_month` is the length of the month. -/
lemma daysInMonth_eq (y : ℕ) {m : ℕ} (hm : 1 ≤ m ∧ m ≤ 12) :
    daysInMonth y m = Toml.monthLength y m := by
  obtain ⟨hlow, hhigh⟩ := hm
  interval_cases m <;> rfl

/-! ## Date-times -/

/-- No date. -/
def noDate : Toml.Date := ⟨0, 0, 0⟩

/-- No time. -/
def noTime : Toml.Time := ⟨0, 0, 0, 0⟩

/-- A stored date-time with these fields. -/
def datetimeOf (d : Toml.Date) (t : Toml.Time) : Datetime where
  year := Int32.ofNat d.year
  month := UInt8.ofNat d.month
  day := UInt8.ofNat d.day
  hour := UInt8.ofNat t.hour
  minute := UInt8.ofNat t.minute
  second := UInt8.ofNat t.second
  nanosecond := UInt32.ofNat t.nanosecond

/-- The node of a date-time. -/
def datetimeNode : Toml.Datetime → Node
  | .offset d t o => .datetime .datetimeOffset ((datetimeOf d t).withOffset o)
  | .localDatetime d t => .datetime .datetimeLocal (datetimeOf d t)
  | .localDate d => .datetime .dateLocal (datetimeOf d noTime)
  | .localTime t => .datetime .timeLocal (datetimeOf noDate t)

/-- A date-led value whose date is valid is read on from its date. -/
lemma parseDateLed_read {td : Bytes} {d : Toml.Date} (hd : Toml.IsDate td d) (r : Bytes) :
    parseDateLed (td ++ r) =
      if !hasTime r then .ok (.datetime .dateLocal (datetimeOf d noTime), r)
      else
        match parseClock 6 (td ++ r) (r.drop 1) with
        | .error e => .error e
        | .ok (h, m, s, p) =>
          match parseFrac (td ++ r) p with
          | .error e => .error e
          | .ok (ns, p) => parseOffset (td ++ r) p (datetimeOf d ⟨h, m, s, ns⟩) := by
  obtain ⟨hy, hm, hday, hdrop, -⟩ := date_reads hd.text r
  have hmonth := hd.month
  have hrange := hd.day
  rw [← daysInMonth_eq _ hmonth] at hrange
  rw [parseDateLed, hy, hm, hday, hdrop]
  dsimp only
  rw [if_neg (by omega), if_neg (by omega)]
  rfl

/-- A date that is read is valid. -/
lemma parseDateLed_valid {td r : Bytes} {d : Toml.Date} (hd : Toml.IsDateText td d)
    {x : Node × Bytes} (h : parseDateLed (td ++ r) = .ok x) : Toml.IsDate td d := by
  obtain ⟨hy, hm, hday, hdrop, -⟩ := date_reads hd r
  rw [parseDateLed, hy, hm, hday] at h
  dsimp only at h
  by_cases hmonth : d.month < 1 ∨ 12 < d.month
  · rw [if_pos hmonth] at h
    exact absurd h failAt_ne_ok
  rw [if_neg hmonth] at h
  by_cases hrange : d.day < 1 ∨ daysInMonth d.year d.month < d.day
  · rw [if_pos hrange] at h
    exact absurd h failAt_ne_ok
  have hmonth' : 1 ≤ d.month ∧ d.month ≤ 12 := by omega
  rw [daysInMonth_eq _ hmonth'] at hrange
  exact ⟨hd, hmonth', by omega⟩

/-- The shape of a time behind a date is a delimiter and a clock. -/
lemma hasTime_iff {p : Bytes} : hasTime p = true ↔
    ∃ c t h m r, Toml.IsDelim c ∧ Toml.IsClock t h m ∧ p = c :: (t ++ r) := by
  have hshape : hasTime p = ((p.head? = some 0x54 || p.head? = some 0x74 || p.head? = some Ch.sp) &&
      timeShape (p.drop 1)) := by
    have hlen : decide (6 ≤ p.length) = decide (5 ≤ (p.drop 1).length) := by
      rw [List.length_drop]
      exact decide_eq_decide.mpr (by omega)
    simp only [hasTime, timeShape, digAt, byteAt_drop, hlen]
    ac_rfl
  rw [hshape, Bool.and_eq_true, timeShape_iff]
  constructor
  · rintro ⟨hdelim, t, h, m, r, ht, hp⟩
    cases p with
    | nil => exact absurd hdelim (by decide)
    | cons c cs =>
      refine ⟨c, t, h, m, r, ?_, ht, by rw [← hp]; rfl⟩
      simpa [Toml.IsDelim, or_assoc] using hdelim
  · rintro ⟨c, t, h, m, r, hc, ht, rfl⟩
    exact ⟨by simpa [Toml.IsDelim, or_assoc] using hc, t, h, m, r, ht, rfl⟩

/-- What is read as a date-time is one, with its fields. -/
lemma parseDatetime_sound {p q : Bytes} {v : Node} (hlook : datetimeLookahead p = true)
    (h : parseDatetime p = .ok (v, q)) :
    ∃ w x, p = w ++ q ∧ Toml.IsDatetime IsReadTime w x ∧ v = datetimeNode x := by
  rw [datetimeLookahead, Bool.or_eq_true] at hlook
  by_cases hdate : dateShape p = true
  · obtain ⟨td, d, r, htext, rfl⟩ := dateShape_iff.mp hdate
    rw [parseDatetime, if_pos (date_reads htext r).2.2.2.2.1] at h
    have hd := parseDateLed_valid htext h
    rw [parseDateLed_read hd] at h
    by_cases htime : hasTime r = true
    · obtain ⟨c, tc, hour, minute, s, hc, hclock, rfl⟩ := hasTime_iff.mp htime
      rw [htime, Bool.not_true, if_neg (by decide), List.drop_succ_cons, List.drop_zero] at h
      cases hseconds : parseClock 6 (td ++ c :: (tc ++ s)) (tc ++ s) with
      | error e =>
        rw [hseconds] at h
        cases h
      | ok x =>
        obtain ⟨h', m', s', p⟩ := x
        rw [hseconds] at h
        dsimp only at h
        cases hfrac : parseFrac (td ++ c :: (tc ++ s)) p with
        | error e =>
          rw [hfrac] at h
          cases h
        | ok x =>
          obtain ⟨ns, p'⟩ := x
          rw [hfrac] at h
          dsimp only at h
          obtain ⟨tt, htt, ht⟩ := time_sound hclock hseconds hfrac
          rw [htt]
          rcases parseOffset_sound h with ⟨tz, o, ho, rfl, rfl⟩ | ⟨rfl, rfl⟩
          · exact ⟨td ++ c :: (tt ++ tz), _, by simp, .offset hd hc ht ho, rfl⟩
          · exact ⟨td ++ c :: tt, _, by simp, .localDatetime hd hc ht, rfl⟩
    · rw [Bool.not_eq_true] at htime
      rw [htime] at h
      obtain ⟨rfl, rfl⟩ := Prod.mk.inj (Except.ok.inj h)
      exact ⟨td, _, rfl, .localDate hd, rfl⟩
  · have htime := hlook.resolve_left hdate
    obtain ⟨t, hour, minute, r, hclock, rfl⟩ := timeShape_iff.mp htime
    have hled : ¬ byteAt (t ++ r) 4 = Ch.minus := by
      obtain ⟨a, b, c, d, rfl, -, -, -, hd, -, -⟩ := hclock.bytes
      rintro (rfl : d = Ch.minus)
      exact absurd hd (by decide)
    rw [parseDatetime, if_neg hled, parseTimeOnly] at h
    cases hseconds : parseClock 8 (t ++ r) (t ++ r) with
    | error e =>
      rw [hseconds] at h
      cases h
    | ok x =>
      obtain ⟨h', m', s', p⟩ := x
      rw [hseconds] at h
      dsimp only at h
      cases hfrac : parseFrac (t ++ r) p with
      | error e =>
        rw [hfrac] at h
        cases h
      | ok x =>
        obtain ⟨ns, p'⟩ := x
        rw [hfrac] at h
        obtain ⟨rfl, rfl⟩ := Prod.mk.inj (Except.ok.inj h)
        obtain ⟨tt, htt, ht⟩ := time_sound hclock hseconds hfrac
        exact ⟨tt, _, htt, .localTime ht, rfl⟩

/-- What stands behind a value: the end of the buffer, a line end, a comma, a closing bracket or
a comment. -/
structure ValueEnd (t : Bytes) : Prop where
  /-- The first byte. -/
  head : ∀ c ∈ t.head?, c = Ch.lf ∨ c = Ch.cr ∨ c = Ch.comma ∨ c = Ch.rbrack ∨ c = Ch.rbrace ∨
    c = Ch.hash
  /-- A CR stands before a LF. -/
  cr : t.head? = some Ch.cr → t[1]? = some Ch.lf

/-- A value goes on with nothing of that. -/
lemma ValueEnd.ne {t : Bytes} (h : ValueEnd t) : ∀ c ∈ t.head?, isDec c = false ∧ c ≠ Ch.dot ∧
    c ≠ Ch.colon ∧ c ≠ 0x5A ∧ c ≠ 0x7A ∧ c ≠ Ch.plus ∧ c ≠ Ch.minus ∧ c ≠ 0x54 ∧ c ≠ 0x74 ∧
    c ≠ Ch.sp := by
  intro c hc
  rcases h.head c hc with rfl | rfl | rfl | rfl | rfl | rfl <;> decide

lemma ValueEnd.endsTime {t : Bytes} (h : ValueEnd t) : EndsTime t := fun c hc =>
  ⟨(h.ne c hc).1, (h.ne c hc).2.1, (h.ne c hc).2.2.1⟩

/-- A time starts with a clock. -/
lemma IsReadTime.clock {tt : Bytes} {t : Toml.Time} (h : IsReadTime tt t) :
    ∃ tc r, tt = tc ++ r ∧ Toml.IsClock tc t.hour t.minute := by
  rcases h with h | h
  · obtain ⟨tc, r, rfl, ht, -⟩ := h.head
    exact ⟨tc, r, rfl, ht.text⟩
  · obtain ⟨tc, r, rfl, ht⟩ := h.head
    exact ⟨tc, _, rfl, ht.text⟩

/-- Behind a date, a time is read, and then its offset. -/
lemma parseDateLed_timed {td tt q : Bytes} {c : UInt8} {d : Toml.Date} {t : Toml.Time}
    (hd : Toml.IsDate td d) (hc : Toml.IsDelim c) (ht : IsReadTime tt t) (hq : EndsTime q) :
    parseDateLed (td ++ c :: (tt ++ q)) =
      parseOffset (td ++ c :: (tt ++ q)) q (datetimeOf d t) := by
  obtain ⟨tc, r, hsplit, hclock⟩ := ht.clock
  have htime : hasTime (c :: (tt ++ q)) = true :=
    hasTime_iff.mpr ⟨c, tc, _, _, r ++ q, hc, hclock, by rw [hsplit, List.append_assoc]⟩
  obtain ⟨p, hseconds, hfrac⟩ := @time_complete 6 (by decide) _ _ _ ht hq (td ++ c :: (tt ++ q))
  rw [parseDateLed_read hd, htime, Bool.not_true, if_neg (by decide), List.drop_succ_cons,
    List.drop_zero, hseconds]
  dsimp only
  rw [hfrac]

/-- What a date-time does not go on with. -/
structure EndsDatetime (q : Bytes) : Prop where
  /-- A byte of a time or an offset. -/
  ne : ∀ c ∈ q.head?, isDec c = false ∧ c ≠ Ch.dot ∧ c ≠ Ch.colon ∧ c ≠ 0x5A ∧ c ≠ 0x7A ∧
    c ≠ Ch.plus ∧ c ≠ Ch.minus
  /-- A time behind a date. -/
  time : hasTime q = false

lemma EndsDatetime.endsTime {q : Bytes} (h : EndsDatetime q) : EndsTime q := fun c hc =>
  ⟨(h.ne c hc).1, (h.ne c hc).2.1, (h.ne c hc).2.2.1⟩

lemma ValueEnd.endsDatetime {q : Bytes} (h : ValueEnd q) : EndsDatetime q := by
  refine ⟨fun c hc => ?_, ?_⟩
  · obtain ⟨hdec, hdot, hcolon, hZ, hz, hplus, hminus, -⟩ := h.ne c hc
    exact ⟨hdec, hdot, hcolon, hZ, hz, hplus, hminus⟩
  · rw [Bool.eq_false_iff]
    intro hshape
    obtain ⟨c, tc, hour, minute, r, hc, -, rfl⟩ := hasTime_iff.mp hshape
    obtain ⟨-, -, -, -, -, -, -, hT, ht, hsp⟩ := h.ne c rfl
    rcases hc with rfl | rfl | rfl
    · exact hT rfl
    · exact ht rfl
    · exact hsp rfl

/-- A date-time is read up to its end. -/
lemma parseDatetime_reads {w q : Bytes} {x : Toml.Datetime}
    (h : Toml.IsDatetime IsReadTime w x) (hq : EndsDatetime q) :
    datetimeLookahead (w ++ q) = true ∧ parseDatetime (w ++ q) = .ok (datetimeNode x, q) := by
  have hled : ∀ {td : Bytes} {d : Toml.Date} (r : Bytes), Toml.IsDate td d →
      datetimeLookahead (td ++ r) = true ∧ parseDatetime (td ++ r) = parseDateLed (td ++ r) := by
    intro td d r hd
    obtain ⟨-, -, -, -, hminus, hshape⟩ := date_reads hd.text r
    exact ⟨by rw [datetimeLookahead, hshape, Bool.true_or], by rw [parseDatetime, if_pos hminus]⟩
  cases h with
  | @offset td tt tz c d t o hd hc ht ho =>
    have hstart : EndsTime (tz ++ q) := by
      intro b hb
      cases ho <;> obtain rfl := Option.some.inj hb <;> decide
    rw [List.append_assoc, List.cons_append, List.append_assoc]
    refine ⟨(hled _ hd).1, ?_⟩
    rw [(hled _ hd).2, parseDateLed_timed hd hc ht hstart, parseOffset_complete ho]
    rfl
  | @localDatetime td tt c d t hd hc ht =>
    rw [List.append_assoc, List.cons_append]
    refine ⟨(hled _ hd).1, ?_⟩
    rw [(hled _ hd).2, parseDateLed_timed hd hc ht hq.endsTime]
    exact parseOffset_none (fun c hc => (hq.ne c hc).2.2.2) _ _
  | @localDate td d hd =>
    refine ⟨(hled _ hd).1, ?_⟩
    rw [(hled _ hd).2, parseDateLed_read hd, hq.time]
    rfl
  | @localTime _ t ht =>
    obtain ⟨tc, r, hsplit, hclock⟩ := ht.clock
    have hshape : timeShape (w ++ q) = true :=
      timeShape_iff.mpr ⟨tc, _, _, r ++ q, hclock, by rw [hsplit, List.append_assoc]⟩
    have hminus : ¬ byteAt (w ++ q) 4 = Ch.minus := by
      obtain ⟨a, b, c, d, rfl, -, -, -, hd, -, -⟩ := hclock.bytes
      rw [hsplit]
      rintro (rfl : d = Ch.minus)
      exact absurd hd (by decide)
    obtain ⟨p, hseconds, hfrac⟩ := @time_complete 8 (by decide) _ _ _ ht hq.endsTime (w ++ q)
    refine ⟨by rw [datetimeLookahead, hshape, Bool.or_true], ?_⟩
    rw [parseDatetime, if_neg hminus, parseTimeOnly, hseconds]
    dsimp only
    rw [hfrac]
    rfl

lemma parseDatetime_complete {w q : Bytes} {x : Toml.Datetime}
    (h : Toml.IsDatetime IsReadTime w x) (hq : ValueEnd q) :
    datetimeLookahead (w ++ q) = true ∧ parseDatetime (w ++ q) = .ok (datetimeNode x, q) :=
  parseDatetime_reads h hq.endsDatetime

/-- The date-times the parser reads. -/
lemma parseDatetime_iff {w q : Bytes} {v : Node} (hq : ValueEnd q) :
    (datetimeLookahead (w ++ q) = true ∧ parseDatetime (w ++ q) = .ok (v, q)) ↔
      ∃ x, Toml.IsDatetime IsReadTime w x ∧ v = datetimeNode x := by
  constructor
  · rintro ⟨hlook, h⟩
    obtain ⟨w', x, heq, hx, rfl⟩ := parseDatetime_sound hlook h
    obtain rfl := List.append_cancel_right heq
    exact ⟨x, hx, rfl⟩
  · rintro ⟨x, hx, rfl⟩
    exact parseDatetime_complete hx hq

/-! ## Values -/

/-- A date-time comes from `teptris_parse_datetime`. -/
lemma parseValue_datetime_iff {cfg : Config} {cp : Bytes} {levels : ℕ} {r q : Bytes}
    {kind : DtKind} {dt : Datetime} :
    parseValue cfg cp levels r = .ok (.datetime kind dt, q) ↔
      datetimeLookahead r = true ∧ parseDatetime r = .ok (.datetime kind dt, q) := by
  have hnumber : ∀ signed, parseNumber cfg.fc signed r ≠ .ok (.datetime kind dt, q) :=
    fun _ h => isNumber_parseNumber h
  rw [parseValue_scalar_iff (by simp) (by simp) (by simp) (by simp)]
  constructor
  · rintro ⟨c, cs, rfl, ⟨-, h⟩ | ⟨-, h⟩ | ⟨-, hlook, h⟩ | ⟨-, -, h⟩⟩
    · exact absurd h (hnumber _)
    · exact absurd h (hnumber _)
    · exact ⟨hlook, h⟩
    · exact absurd h (hnumber _)
  · rintro ⟨hlook, h⟩
    obtain ⟨c, cs, rfl, hc⟩ := lookahead_dec hlook
    exact ⟨c, cs, rfl, .inr (.inr (.inl ⟨hc, hlook, h⟩))⟩

lemma parseValueFast_datetime_iff {cfg : Config} {cp : Bytes} {levels : ℕ} {r q : Bytes}
    {kind : DtKind} {dt : Datetime} :
    parseValueFast cfg cp levels r = .ok (.datetime kind dt, q) ↔
      datetimeLookahead r = true ∧ parseDatetime r = .ok (.datetime kind dt, q) := by
  rw [parseValueFast_eq]
  exact parseValue_datetime_iff

/-! ## Fields -/

/-- A stored date-time has these fields, and no others. -/
structure Datetime.Holds (dt : Datetime) (d : Toml.Date) (t : Toml.Time) (o : ℤ) : Prop where
  /-- The year. -/
  year : dt.year.toInt = d.year
  /-- The month. -/
  month : dt.month.toNat = d.month
  /-- The day. -/
  day : dt.day.toNat = d.day
  /-- The hour. -/
  hour : dt.hour.toNat = t.hour
  /-- The minute. -/
  minute : dt.minute.toNat = t.minute
  /-- The second. -/
  second : dt.second.toNat = t.second
  /-- The nanosecond. -/
  nanosecond : dt.nanosecond.toNat = t.nanosecond
  /-- The offset. -/
  offset : dt.offsetSeconds.toInt = o

/-- A stored date-time of that kind has the fields of the date-time a text denotes. -/
def Datetime.Denotes (dt : Datetime) (kind : DtKind) : Toml.Datetime → Prop
  | .offset d t o => kind = .datetimeOffset ∧ dt.Holds d t o
  | .localDatetime d t => kind = .datetimeLocal ∧ dt.Holds d t 0
  | .localDate d => kind = .dateLocal ∧ dt.Holds d noTime 0
  | .localTime t => kind = .timeLocal ∧ dt.Holds noDate t 0

/-- The fields fit into their words. -/
structure Fits (d : Toml.Date) (t : Toml.Time) (o : ℤ) : Prop where
  /-- The date. -/
  date : d.year < 10000 ∧ d.month ≤ 12 ∧ d.day ≤ 31
  /-- The time. -/
  time : t.hour ≤ 23 ∧ t.minute ≤ 59 ∧ t.second ≤ 60 ∧ t.nanosecond < 10 ^ 9
  /-- The offset. -/
  offset : o.natAbs < 86400

/-- Fields that fit are stored as they are. -/
lemma holds_iff {dt : Datetime} {d : Toml.Date} {t : Toml.Time} {o : ℤ} (h : Fits d t o) :
    dt.Holds d t o ↔ dt = (datetimeOf d t).withOffset o := by
  obtain ⟨⟨hy, hmo, hd⟩, ⟨hh, hmi, hs, hns⟩, ho⟩ := h
  have hbyte : ∀ {b : UInt8} {n : ℕ}, n < 256 → (b.toNat = n ↔ b = UInt8.ofNat n) := by
    intro b n hn
    rw [← UInt8.toNat_inj, UInt8.toNat_ofNat_of_lt' hn]
  have hword : ∀ {b : UInt32} {n : ℕ}, n < 2 ^ 32 → (b.toNat = n ↔ b = UInt32.ofNat n) := by
    intro b n hn
    rw [← UInt32.toNat_inj, UInt32.toNat_ofNat_of_lt' hn]
  have hint : ∀ {b : Int32} {n : ℤ}, n.natAbs < 2 ^ 31 → (b.toInt = n ↔ b = Int32.ofInt n) := by
    intro b n hn
    rw [← Int32.toInt_inj, Int32.toInt_ofInt_of_le (by omega) (by omega)]
  have hyear : dt.year.toInt = (d.year : ℤ) ↔ dt.year = Int32.ofNat d.year := by
    rw [hint (by omega), Int32.ofInt_eq_ofNat]
  constructor
  · rintro ⟨h1, h2, h3, h4, h5, h6, h7, h8⟩
    obtain ⟨year, month, day, hour, minute, second, nanosecond, offsetSeconds⟩ := dt
    rw [hyear] at h1
    rw [hbyte (by omega)] at h2 h3 h4 h5 h6
    rw [hword (by omega)] at h7
    rw [hint (by omega)] at h8
    dsimp only at h1 h2 h3 h4 h5 h6 h7 h8
    rw [h1, h2, h3, h4, h5, h6, h7, h8]
    rfl
  · rintro rfl
    exact ⟨hyear.mpr rfl, (hbyte (by omega)).mpr rfl, (hbyte (by omega)).mpr rfl,
      (hbyte (by omega)).mpr rfl, (hbyte (by omega)).mpr rfl, (hbyte (by omega)).mpr rfl,
      (hword (by omega)).mpr rfl, (hint (by omega)).mpr rfl⟩

/-- The fields of a date that is read fit. -/
lemma Fits.of_date {td : Bytes} {d : Toml.Date} (hd : Toml.IsDate td d) :
    d.year < 10000 ∧ d.month ≤ 12 ∧ d.day ≤ 31 := by
  obtain ⟨htext, hmonth, hday⟩ := hd
  have hlength := daysInMonth_le d.year d.month
  rw [daysInMonth_eq _ hmonth] at hlength
  obtain ⟨hy, hm, hdig⟩ := htext
  obtain ⟨t₁, v₁, t₂, v₂, h₁, h₂, rfl, rfl⟩ := Toml.isDigits_four.mp hy
  have hhigh := h₁.lt_hundred
  have hlow := h₂.lt_hundred
  dsimp only at hday hlength hmonth ⊢
  omega

/-- The fields of a time that is read fit. -/
lemma Fits.of_time {tt : Bytes} {t : Toml.Time} (ht : IsReadTime tt t) :
    t.hour ≤ 23 ∧ t.minute ≤ 59 ∧ t.second ≤ 60 ∧ t.nanosecond < 10 ^ 9 := by
  rcases ht with ht | ht
  · cases ht with
    | minutes ht => exact ⟨ht.hour, ht.minute, Nat.zero_le _, Nat.pow_pos (by decide)⟩
    | seconds ht hs hle => exact ⟨ht.hour, ht.minute, hle, Nat.pow_pos (by decide)⟩
    | fraction ht hs hle hf => exact ⟨ht.hour, ht.minute, hle, secFrac_lt hf⟩
  · obtain ⟨ht, hf⟩ := ht
    exact ⟨ht.hour, ht.minute, Nat.zero_le _, secFrac_lt hf⟩

/-- An offset that is read fits. -/
lemma Fits.of_offset {tz : Bytes} {o : ℤ} (ho : Toml.IsOffset tz o) : o.natAbs < 86400 := by
  cases ho with
  | upper | lower => decide
  | east ht =>
    have := ht.hour
    have := ht.minute
    omega
  | west ht =>
    have := ht.hour
    have := ht.minute
    omega

/-- The node of a date-time that is read holds its fields. -/
lemma datetimeNode_iff {w : Bytes} {x : Toml.Datetime} (h : Toml.IsDatetime IsReadTime w x)
    {kind : DtKind} {dt : Datetime} :
    Node.datetime kind dt = datetimeNode x ↔ dt.Denotes kind x := by
  have hlocal : ∀ d t, (datetimeOf d t).withOffset 0 = datetimeOf d t := fun _ _ => rfl
  have hdate : noDate.year < 10000 ∧ noDate.month ≤ 12 ∧ noDate.day ≤ 31 := by decide
  have htime : noTime.hour ≤ 23 ∧ noTime.minute ≤ 59 ∧ noTime.second ≤ 60 ∧
      noTime.nanosecond < 10 ^ 9 := by decide
  cases h with
  | offset hd hc ht ho =>
    rw [Datetime.Denotes, holds_iff ⟨Fits.of_date hd, Fits.of_time ht, Fits.of_offset ho⟩,
      datetimeNode, Node.datetime.injEq]
  | localDatetime hd hc ht =>
    rw [Datetime.Denotes, holds_iff ⟨Fits.of_date hd, Fits.of_time ht, by decide⟩,
      datetimeNode, Node.datetime.injEq, hlocal]
  | localDate hd =>
    rw [Datetime.Denotes, holds_iff ⟨Fits.of_date hd, htime, by decide⟩,
      datetimeNode, Node.datetime.injEq, hlocal]
  | localTime ht =>
    rw [Datetime.Denotes, holds_iff ⟨hdate, Fits.of_time ht, by decide⟩,
      datetimeNode, Node.datetime.injEq, hlocal]

/-! ## The grammar -/

/-- A date-time that is read is one of the grammar, or has a fraction behind its minutes. -/
lemma isDatetime_read {w : Bytes} {x : Toml.Datetime} : Toml.IsDatetime IsReadTime w x ↔
    Toml.IsDatetime Toml.IsTime w x ∨ Toml.IsDatetime Toml.IsMinuteFraction w x := by
  constructor
  · intro h
    cases h with
    | offset hd hc ht ho => exact ht.imp (.offset hd hc · ho) (.offset hd hc · ho)
    | localDatetime hd hc ht => exact ht.imp (.localDatetime hd hc) (.localDatetime hd hc)
    | localDate hd => exact .inl (.localDate hd)
    | localTime ht => exact ht.imp .localTime .localTime
  · rintro (h | h)
    · cases h with
      | offset hd hc ht ho => exact .offset hd hc (.inl ht) ho
      | localDatetime hd hc ht => exact .localDatetime hd hc (.inl ht)
      | localDate hd => exact .localDate hd
      | localTime ht => exact .localTime (.inl ht)
    · cases h with
      | offset hd hc ht ho => exact .offset hd hc (.inr ht) ho
      | localDatetime hd hc ht => exact .localDatetime hd hc (.inr ht)
      | localDate hd => exact .localDate hd
      | localTime ht => exact .localTime (.inr ht)

/-- At a text `w` before the end of a value, both value parsers accept a date-time that ends with
`w` exactly where `w` is one of the grammar, with its fields, if and only if `w` has no fraction
right behind its minutes. -/
theorem datetime_grammar_iff (cfg : Config) (cp : Bytes) (levels : ℕ) {w t : Bytes}
    (ht : ValueEnd t) :
    (∀ kind dt,
      (parseValue cfg cp levels (w ++ t) = .ok (.datetime kind dt, t) ↔
        ∃ x, Toml.IsDatetime Toml.IsTime w x ∧ dt.Denotes kind x) ∧
      (parseValueFast cfg cp levels (w ++ t) = .ok (.datetime kind dt, t) ↔
        ∃ x, Toml.IsDatetime Toml.IsTime w x ∧ dt.Denotes kind x)) ↔
      ¬ Toml.HasMinuteFraction w := by
  have hread : ∀ kind dt, (datetimeLookahead (w ++ t) = true ∧
      parseDatetime (w ++ t) = .ok (.datetime kind dt, t)) ↔
        ∃ x, Toml.IsDatetime IsReadTime w x ∧ dt.Denotes kind x := by
    intro kind dt
    rw [parseDatetime_iff ht]
    exact exists_congr fun x => and_congr_right fun hx => datetimeNode_iff hx
  simp only [parseValue_datetime_iff, parseValueFast_datetime_iff, hread, and_self]
  constructor
  · rintro h ⟨x, hx, hne⟩
    obtain ⟨kind, dt, hnode⟩ : ∃ kind dt, datetimeNode x = .datetime kind dt := by
      cases x <;> exact ⟨_, _, rfl⟩
    have hx' := isDatetime_read.mpr (.inr hx)
    obtain ⟨y, hy, -⟩ := (h kind dt).mp ⟨x, hx', (datetimeNode_iff hx').mp hnode.symm⟩
    exact Toml.HasMinuteFraction.not_isDatetime ⟨x, hx, hne⟩ y hy
  · intro h kind dt
    constructor
    · rintro ⟨x, hx, hdt⟩
      rcases isDatetime_read.mp hx with hx | hx
      · exact ⟨x, hx, hdt⟩
      · by_cases hdate : ∃ d, x = .localDate d
        · obtain ⟨d, rfl⟩ := hdate
          cases hx with
          | localDate hd => exact ⟨_, .localDate hd, hdt⟩
        · exact absurd ⟨x, hx, fun d hd => hdate ⟨d, hd⟩⟩ h
    · rintro ⟨x, hx, hdt⟩
      exact ⟨x, isDatetime_read.mpr (.inl hx), hdt⟩

/-- `07:32`, at the end of the buffer. -/
theorem datetime_grammar_minutes :
    (∀ kind dt,
      (parseValue (.ofOptions .zero 0) [] 0 ([0x30, 0x37, 0x3A, 0x33, 0x32] ++ []) =
          .ok (.datetime kind dt, []) ↔
        ∃ x, Toml.IsDatetime Toml.IsTime [0x30, 0x37, 0x3A, 0x33, 0x32] x ∧ dt.Denotes kind x) ∧
      (parseValueFast (.ofOptions .zero 0) [] 0 ([0x30, 0x37, 0x3A, 0x33, 0x32] ++ []) =
          .ok (.datetime kind dt, []) ↔
        ∃ x, Toml.IsDatetime Toml.IsTime [0x30, 0x37, 0x3A, 0x33, 0x32] x ∧
          dt.Denotes kind x)) ↔
      ¬ Toml.HasMinuteFraction [0x30, 0x37, 0x3A, 0x33, 0x32] :=
  datetime_grammar_iff (.ofOptions .zero 0) [] 0 ⟨fun c hc => (by cases hc), fun h => (by cases h)⟩

/-- `07:32.5` is read as a time, and is none of the grammar. -/
theorem datetime_minute_fraction :
    (∃ dt, parseValue (.ofOptions .zero 0) [] 0 [0x30, 0x37, 0x3A, 0x33, 0x32, 0x2E, 0x35] =
      .ok (.datetime .timeLocal dt, [])) ∧
    ∀ x, ¬ Toml.IsDatetime Toml.IsTime [0x30, 0x37, 0x3A, 0x33, 0x32, 0x2E, 0x35] x := by
  refine ⟨⟨_, rfl⟩, fun x hx => hx.mark_ne rfl⟩

end Teptris
