import Teptris.Emit.FloatText
import Teptris.Grammar.Datetime
import Teptris.Schema.Equality

/-!
# The text of dates and times

What `node_to_sv` keeps of a date or time against what `emit_dt` writes.
-/

namespace Teptris

/-! ## Digits -/

/-- Digits of one length with one value are the same. -/
lemma digits_unique {ds ds' : Bytes} (hds : ∀ c ∈ ds, isDec c = true)
    (hds' : ∀ c ∈ ds', isDec c = true) (hlen : ds.length = ds'.length)
    (hval : decVal ds = decVal ds') : ds = ds' := by
  induction ds generalizing ds' with
  | nil => exact (List.length_eq_zero_iff.mp hlen.symm).symm
  | cons c cs ih =>
    cases ds' with
    | nil => simp at hlen
    | cons c' cs' =>
      have hcs : ∀ d ∈ cs, isDec d = true := fun d hd => hds d (List.mem_cons_of_mem _ hd)
      have hcs' : ∀ d ∈ cs', isDec d = true := fun d hd => hds' d (List.mem_cons_of_mem _ hd)
      have hlen' : cs.length = cs'.length := by simpa using hlen
      have hfirst (c : UInt8) (cs : Bytes) :
          decVal (c :: cs) = (c.toNat - 0x30) * 10 ^ cs.length + decVal cs := by
        have hstep : decVal (c :: cs) = decFrom (0 * 10 + (c.toNat - 0x30)) cs := rfl
        rw [hstep, decFrom_eq, Nat.zero_mul, Nat.zero_add]
      have hlt := decFrom_lt hcs 0
      have hlt' := decFrom_lt hcs' 0
      rw [Nat.zero_add, Nat.one_mul] at hlt hlt'
      rw [hfirst, hfirst, hlen'] at hval
      rw [hlen'] at hlt
      have hdigit : c.toNat - 0x30 = c'.toNat - 0x30 := by
        have hdiv := congrArg (· / 10 ^ cs'.length) hval
        simp only [Nat.mul_comm _ (10 ^ cs'.length)] at hdiv
        rwa [Nat.mul_add_div (by positivity), Nat.mul_add_div (by positivity),
          Nat.div_eq_of_lt hlt, Nat.div_eq_of_lt hlt', Nat.add_zero, Nat.add_zero] at hdiv
      rw [hdigit, Nat.add_left_cancel_iff] at hval
      have hc := hds c (List.mem_cons_self ..)
      have hc' := hds' c' (List.mem_cons_self ..)
      simp only [isDec, Bool.and_eq_true, decide_eq_true_eq, UInt8.le_iff_toNat_le] at hc hc'
      have h30 : (0x30 : UInt8).toNat = 0x30 := rfl
      have hsame : c = c' := UInt8.toNat_inj.mp (by omega)
      rw [hsame, ih hcs hcs' hlen' hval]

/-- `%0wd` of a number that fits. -/
lemma padInt_spec {w v : ℕ} (hw : 0 < w) (hw20 : w ≤ 20) (hv : v < 10 ^ w) :
    (padInt w v).length = w ∧ (∀ c ∈ padInt w v, isDec c = true) ∧ decVal (padInt w v) = v := by
  have hbig : v < 10 ^ 20 := hv.trans_le (Nat.pow_le_pow_right (by decide) hw20)
  have hlen : (natText v).length ≤ w := length_decText_le_of_lt hw 20 hv
  have hdecimal := isDecimal_natText hbig
  have htext : padInt w v = List.replicate (w - (natText v).length) Ch.zero ++ natText v := by
    have hneg : ¬ (v : ℤ) < 0 := by omega
    simp [padInt, hneg]
  rw [htext]
  refine ⟨by simp; omega, fun c hc => ?_, ?_⟩
  · rcases List.mem_append.mp hc with hc | hc
    · rw [List.eq_of_mem_replicate hc]
      decide
    · exact hdecimal.digits c hc
  · rw [decVal_zeros, hdecimal.val]

/-- Two digits. -/
lemma padInt_two {v : ℕ} (hv : v < 100) : padInt 2 v = putDigits2 v := by
  obtain ⟨hlen, hdigits, hval⟩ := padInt_spec (w := 2) (by decide) (by decide) hv
  have hdiv : v / 10 < 10 := by omega
  have hmod : v % 10 < 10 := Nat.mod_lt _ (by decide)
  refine digits_unique hdigits ?_ hlen ?_
  · intro c hc
    rcases List.mem_pair.mp hc with rfl | rfl
    · exact isDec_digitChar hdiv
    · exact isDec_digitChar hmod
  · rw [hval, putDigits2]
    simp only [decFrom, List.foldl_cons, List.foldl_nil, digitChar_sub hdiv, digitChar_sub hmod]
    omega

/-- Four digits. -/
lemma padInt_four {v : ℕ} (hv : v < 10000) : padInt 4 v = putDigits4 v := by
  obtain ⟨hlen, hdigits, hval⟩ := padInt_spec (w := 4) (by decide) (by decide) hv
  have hlead : v / 100 / 10 < 10 := by omega
  have hsecond : v / 100 % 10 < 10 := Nat.mod_lt _ (by decide)
  have hthird : v % 100 / 10 < 10 := by omega
  have hlast : v % 100 % 10 < 10 := Nat.mod_lt _ (by decide)
  refine digits_unique hdigits ?_ hlen ?_
  · intro c hc
    simp only [putDigits4, putDigits2, List.cons_append, List.nil_append, List.mem_cons,
      List.not_mem_nil, or_false] at hc
    rcases hc with rfl | rfl | rfl | rfl
    · exact isDec_digitChar hlead
    · exact isDec_digitChar hsecond
    · exact isDec_digitChar hthird
    · exact isDec_digitChar hlast
  · rw [hval, putDigits4, putDigits2, putDigits2]
    simp only [List.cons_append, List.nil_append, decFrom, List.foldl_cons, List.foldl_nil,
      digitChar_sub hlead, digitChar_sub hsecond, digitChar_sub hthird, digitChar_sub hlast]
    omega

/-! ## Fractions -/

/-- The nine digits of nanoseconds are the trimmed ones and zeros, none if the last digit is no
zero. -/
lemma padInt_nine {ns : ℕ} (hns : ns < 1000000000) :
    ∃ k, padInt 9 ns = nanosText ns ++ List.replicate k Ch.zero ∧ (k = 0 ↔ ns % 10 ≠ 0) := by
  obtain ⟨hlen, hdigits, hval⟩ := padInt_spec (w := 9) (by decide) (by decide) hns
  have hdigit : ∀ i, ns / 10 ^ (8 - i) % 10 < 10 := fun i => Nat.mod_lt _ (by decide)
  have hsame : padInt 9 ns = (List.range 9).map fun i => digitChar (ns / 10 ^ (8 - i) % 10) := by
    refine digits_unique hdigits ?_ (by simp [hlen]) ?_
    · intro c hc
      obtain ⟨i, -, rfl⟩ := List.mem_map.mp hc
      exact isDec_digitChar (hdigit i)
    · rw [hval]
      have hnine : List.range 9 = [0, 1, 2, 3, 4, 5, 6, 7, 8] := by decide
      rw [hnine]
      simp only [List.map_cons, List.map_nil, decFrom, List.foldl_cons, List.foldl_nil,
        digitChar_sub (hdigit _)]
      have htop : 0 * 10 + ns / 10 ^ (8 - 0) % 10 = ns / 10 ^ 8 := by omega
      have hnext : ∀ k, ns / 10 ^ (k + 1) * 10 + ns / 10 ^ k % 10 = ns / 10 ^ k := by
        intro k
        rw [Nat.pow_succ, ← Nat.div_div_eq_div_mul]
        exact Nat.div_add_mod' _ _
      rw [htop, hnext 7, hnext 6, hnext 5, hnext 4, hnext 3, hnext 2, hnext 1, hnext 0,
        Nat.pow_zero, Nat.div_one]
  rw [hsame, nanosText]
  generalize hds : ((List.range 9).map fun i => digitChar (ns / 10 ^ (8 - i) % 10)) = ds
  have hsplit : ds = (ds.reverse.dropWhile (· = Ch.zero)).reverse ++
      (ds.reverse.takeWhile (· = Ch.zero)).reverse := by
    rw [← List.reverse_append, List.takeWhile_append_dropWhile, List.reverse_reverse]
  have hzeros : (ds.reverse.takeWhile (· = Ch.zero)).reverse =
      List.replicate (ds.reverse.takeWhile (· = Ch.zero)).length Ch.zero := by
    rw [List.eq_replicate_iff]
    refine ⟨by simp, fun c hc => ?_⟩
    simpa using List.mem_takeWhile_imp (List.mem_reverse.mp hc)
  refine ⟨(ds.reverse.takeWhile (· = Ch.zero)).length, by rw [← hzeros, ← hsplit], ?_⟩
  have hlast : ds.reverse = digitChar (ns % 10) :: (ds.dropLast).reverse := by
    rw [← hds, show List.range 9 = List.range 8 ++ [8] from rfl, List.map_append,
      List.map_singleton, List.dropLast_concat, List.reverse_append]
    simp
  have hzero : digitChar (ns % 10) = Ch.zero ↔ ns % 10 = 0 := by
    rw [← UInt8.toNat_inj, digitChar_toNat (Nat.mod_lt _ (by decide))]
    have : (Ch.zero : UInt8).toNat = 0x30 := rfl
    omega
  rw [hlast, List.takeWhile_cons]
  by_cases h : ns % 10 = 0
  · rw [hzero.mpr h]
    simp [h]
  · simp [mt hzero.mp h, h]

/-! ## The texts -/

section Texts

variable {dt dt' : Datetime} {kind kind' : DtKind} {y : ℕ}

/-- The date is the one that is emitted. -/
lemma dateView_eq (h : dt.DateOk y) : dateView dt = dateText dt := by
  have hyear : dt.year.toInt = y := by
    rw [h.year.1, Int32.toInt_ofNat_of_lt (by have := h.year.2; omega)]
  have hmonth := h.month.2
  have hday := h.day.2
  have hdays := daysInMonth_le y dt.month.toNat
  rw [dateView, dateText, hyear, year_toNat h, padInt_four (by have := h.year.2; omega),
    padInt_two (by omega), padInt_two (by omega)]

/-- The clock is the one that is emitted, and zeros behind its fraction. -/
lemma clockView_eq (h : dt.TimeOk) :
    ∃ k, clockView dt = clockText dt ++ List.replicate k Ch.zero ∧
      (k = 0 ↔ dt.nanosecond = 0 ∨ dt.nanosecond.toNat % 10 ≠ 0) := by
  have hhour := h.hour
  have hminute := h.minute
  have hsecond := h.second
  have hzero : dt.nanosecond = 0 ↔ dt.nanosecond.toNat = 0 := by
    rw [← UInt32.toNat_inj]
    rfl
  have hpos : 0 < dt.nanosecond ↔ dt.nanosecond ≠ 0 := by
    rw [ne_eq, hzero, UInt32.lt_iff_toNat_lt, ← ne_eq, ← Nat.pos_iff_ne_zero]
    rfl
  rw [clockView, clockText, padInt_two (by omega), padInt_two (by omega), padInt_two (by omega)]
  by_cases hns : dt.nanosecond = 0
  · refine ⟨0, ?_, by simp [hns]⟩
    rw [if_neg (by simpa [hpos] using hns), if_neg (by simpa using hns)]
    simp
  · obtain ⟨k, hk, hlast⟩ := padInt_nine h.nanosecond
    refine ⟨k, ?_, by simp [hns, hlast]⟩
    rw [if_pos (hpos.mpr hns), if_pos hns, hk]
    simp

/-- What the validator keeps whole: a fraction of nine digits that count, and no numeric offset. -/
def Datetime.Stored (dt : Datetime) : Prop :=
  (dt.nanosecond = 0 ∨ dt.nanosecond.toNat % 10 ≠ 0) ∧ dt.offsetSeconds = 0

lemma replicate_zero_append {k : ℕ} {r : Bytes} :
    List.replicate k Ch.zero ++ r = r ↔ k = 0 := by
  constructor
  · intro h
    have := congrArg List.length h
    simp at this
    exact this
  · rintro rfl
    rfl

/-- The stored text is the emitted one if and only if the datetime is one of those. -/
lemma stored_iff (h : dt.Ok kind) :
    (datetimeToSv kind dt).text = some (emitDt kind dt) ↔ dt.Stored := by
  cases kind with
  | datetimeOffset =>
    obtain ⟨⟨y, hdate⟩, htime, -⟩ := h
    obtain ⟨k, hk, hzero⟩ := clockView_eq htime
    rw [datetimeToSv, SValue.text, emitDt, Option.some.injEq, dateView_eq hdate, hk,
      Datetime.Stored, ← hzero]
    simp only [List.append_assoc, List.append_cancel_left_eq]
    by_cases hoff : dt.offsetSeconds = 0
    · rw [if_pos hoff, offsetText, if_pos hoff, replicate_zero_append]
      simp [hoff]
    · rw [if_neg hoff, List.append_nil]
      simp only [hoff, and_false, iff_false]
      intro heq
      -- an offset starts with its sign
      have hhead := congrArg List.head? heq
      rw [offsetText, if_neg hoff] at hhead
      cases k with
      | zero => simp at hhead
      | succ k =>
        rw [List.replicate_succ, List.head?_cons] at hhead
        split_ifs at hhead <;> simp at hhead <;> exact absurd hhead (by decide)
  | datetimeLocal =>
    obtain ⟨⟨y, hdate⟩, htime, hoff⟩ := h
    obtain ⟨k, hk, hzero⟩ := clockView_eq htime
    rw [datetimeToSv, SValue.text, emitDt, Option.some.injEq, dateView_eq hdate, hk,
      Datetime.Stored, ← hzero, hoff]
    have hnil := replicate_zero_append (k := k) (r := [])
    rw [List.append_nil] at hnil
    simp [hnil]
  | dateLocal =>
    obtain ⟨⟨y, hdate⟩, htime, hoff⟩ := h
    have hlen : (dateText dt).length = 10 := rfl
    rw [datetimeToSv, SValue.text, emitDt, dateView_eq hdate, List.take_of_length_le hlen.le,
      Datetime.Stored, hoff, htime.2.2.2]
    simp
  | timeLocal =>
    obtain ⟨hdate, htime, hoff⟩ := h
    obtain ⟨k, hk, hzero⟩ := clockView_eq htime
    rw [datetimeToSv, SValue.text, emitDt, Option.some.injEq, hk, Datetime.Stored, ← hzero, hoff]
    have hnil := replicate_zero_append (k := k) (r := [])
    rw [List.append_nil] at hnil
    simp [hnil]

/-- Two dates or times are found equal only if their texts are. -/
lemma text_of_svEqual (h : svEqual (datetimeToSv kind dt) (datetimeToSv kind' dt') = true) :
    (datetimeToSv kind dt).text = (datetimeToSv kind' dt').text := by
  cases kind <;> cases kind' <;>
    simp_all [datetimeToSv, svEqual, leafEqual, SValue.text]

/-- The emitted text tells the kind and all fields. -/
lemma emitDt_injective (h : dt.Ok kind) (h' : dt'.Ok kind')
    (heq : emitDt kind dt = emitDt kind' dt') :
    kind = kind' ∧ dt = dt' := by
  have hread := (parseDatetime_emitDt h ends_nil).1
  rw [heq, (parseDatetime_emitDt h' ends_nil).1] at hread
  simp only [Except.ok.injEq, Prod.mk.injEq, Node.datetime.injEq, and_true] at hread
  exact ⟨hread.1.symm, hread.2.symm⟩

/-- Of two dates or times both texts are kept as they are emitted, and they are equal only if they
are the same, if and only if neither has a fraction that ends in a zero or a numeric offset. -/
theorem datetimes_kept_iff (h : dt.Ok kind) (h' : dt'.Ok kind') :
    ((datetimeToSv kind dt).text = some (emitDt kind dt) ∧
      (datetimeToSv kind' dt').text = some (emitDt kind' dt') ∧
      (svEqual (datetimeToSv kind dt) (datetimeToSv kind' dt') = true → kind = kind' ∧ dt = dt')) ↔
      dt.Stored ∧ dt'.Stored := by
  rw [stored_iff h, stored_iff h']
  refine ⟨fun hall => ⟨hall.1, hall.2.1⟩, fun hall => ⟨hall.1, hall.2, fun heq => ?_⟩⟩
  have htext := text_of_svEqual heq
  rw [(stored_iff h).mpr hall.1, (stored_iff h').mpr hall.2, Option.some.injEq] at htext
  exact emitDt_injective h h' htext

end Texts

/-- An instant at some offset. -/
def atOffset (offset : Int32) : Datetime :=
  { year := 1979, month := 5, day := 27, hour := 7, minute := 32, second := 0, nanosecond := 0,
    offsetSeconds := offset }

lemma atOffset_ok {offset : Int32} (h : (atOffset offset).OffsetOk) :
    (atOffset offset).Ok .datetimeOffset := by
  refine ⟨⟨1979, ⟨?_, by decide⟩, ?_, ?_⟩, ⟨?_, ?_, ?_, ?_⟩, h⟩
  · exact show (1979 : Int32) = Int32.ofNat 1979 by decide
  · exact show 1 ≤ (5 : UInt8).toNat ∧ (5 : UInt8).toNat ≤ 12 by decide
  · exact show 1 ≤ (27 : UInt8).toNat ∧ (27 : UInt8).toNat ≤ daysInMonth 1979 5 by decide
  · exact show (7 : UInt8).toNat ≤ 23 by decide
  · exact show (32 : UInt8).toNat ≤ 59 by decide
  · exact show (0 : UInt8).toNat ≤ 60 by decide
  · exact show (0 : UInt32).toNat < 1000000000 by decide

/-- In UTC the text is kept. -/
theorem datetimes_kept_utc :
    ((datetimeToSv .datetimeOffset (atOffset 0)).text =
        some (emitDt .datetimeOffset (atOffset 0)) ∧
      (datetimeToSv .datetimeOffset (atOffset 0)).text =
        some (emitDt .datetimeOffset (atOffset 0)) ∧
      (svEqual (datetimeToSv .datetimeOffset (atOffset 0))
        (datetimeToSv .datetimeOffset (atOffset 0)) = true →
        DtKind.datetimeOffset = .datetimeOffset ∧ atOffset 0 = atOffset 0)) ↔
      (atOffset 0).Stored ∧ (atOffset 0).Stored :=
  datetimes_kept_iff (atOffset_ok ⟨0, by decide, 0, by decide, .inl (by decide)⟩)
    (atOffset_ok ⟨0, by decide, 0, by decide, .inl (by decide)⟩)

/-- An hour and two hours off UTC are equal, and neither text is kept. -/
theorem offsets_lost :
    (atOffset 3600).Ok .datetimeOffset ∧ (atOffset 7200).Ok .datetimeOffset ∧
      (datetimeToSv .datetimeOffset (atOffset 3600)).text ≠
        some (emitDt .datetimeOffset (atOffset 3600)) ∧
      svEqual (datetimeToSv .datetimeOffset (atOffset 3600))
        (datetimeToSv .datetimeOffset (atOffset 7200)) = true ∧ atOffset 3600 ≠ atOffset 7200 :=
  ⟨atOffset_ok ⟨1, by decide, 0, by decide, .inl (by decide)⟩,
    atOffset_ok ⟨2, by decide, 0, by decide, .inl (by decide)⟩, by decide, by decide, by decide⟩

end Teptris
