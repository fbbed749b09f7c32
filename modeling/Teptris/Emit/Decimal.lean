import Mathlib.Tactic.FieldSimp
import Mathlib.Tactic.Ring
import Teptris.Dom.Rounding
import Teptris.Emit.Digits
import Teptris.Library.Json

/-!
# Numbers with their values

The texts of `emit_i64` and `emit_float` as decimal numbers: an integer is written exactly, and
the fixed-point or scientific notation of a double has the value of the shortest digits `ryu`
found for it.
-/

namespace Teptris

/-! ## Digits and zeros -/

lemma digitsVal_eq (ds : Bytes) : Json.digitsVal ds = decVal ds := rfl

lemma isDigit_eq : Json.isDigit = isDec := rfl

/-- Zeros at the end multiply by ten. -/
lemma decFrom_zeros (m n : ℕ) : decFrom m (List.replicate n Ch.zero) = m * 10 ^ n := by
  induction n generalizing m with
  | zero => simp [decFrom]
  | succ n ih =>
    have hcons : decFrom m (List.replicate (n + 1) Ch.zero) =
        decFrom (m * 10) (List.replicate n Ch.zero) := rfl
    rw [hcons, ih, Nat.pow_succ]
    ring

/-- Zeros in front do not count. -/
lemma decVal_zeros (n : ℕ) (ds : Bytes) : decVal (List.replicate n Ch.zero ++ ds) = decVal ds := by
  rw [decVal, decFrom_append, decFrom_zeros, Nat.zero_mul]

/-- The magnitude of digits behind zeros. -/
lemma magnitude_zeros (n : ℕ) (ds : Bytes) (e : ℤ) :
    Json.magnitude (List.replicate n Ch.zero ++ ds) e = Json.magnitude ds e := by
  rw [Json.magnitude, Json.magnitude, digitsVal_eq, digitsVal_eq, decVal_zeros]

/-- The magnitude of digits in front of zeros. -/
lemma magnitude_append_zeros (ds : Bytes) (n : ℕ) (e : ℤ) :
    Json.magnitude (ds ++ List.replicate n Ch.zero) (e - n) = Json.magnitude ds e := by
  have hval : decVal (ds ++ List.replicate n Ch.zero) = decVal ds * 10 ^ n := by
    rw [decVal, decFrom_append, decFrom_zeros]
  have hten : (10 : ℚ) ≠ 0 := by norm_num
  rw [Json.magnitude, Json.magnitude, digitsVal_eq, digitsVal_eq, hval, zpow_sub₀ hten,
    zpow_natCast]
  push_cast
  field_simp

/-! ## Integers -/

lemma IsDecimal.isInt {t : Bytes} {mag : ℕ} (h : IsDecimal t mag) : Json.IsInt t :=
  ⟨h.digits, h.ne_nil, h.lead⟩

/-- A sign in front of a number. -/
lemma isNumber_sign {t : Bytes} {mag : ℚ} (h : Json.IsNumber t false mag) (neg : Bool) :
    Json.IsNumber ((if neg then [Ch.minus] else []) ++ t) neg mag := by
  obtain ⟨int, frac, ds, exp, e, hint, hfrac, hexp, rfl, hmag⟩ := h
  exact ⟨int, frac, ds, exp, e, hint, hfrac, hexp, by simp, hmag⟩

/-- The digits of a magnitude. -/
lemma isNumber_of_decimal {t : Bytes} {mag : ℕ} (h : IsDecimal t mag) :
    Json.IsNumber t false mag := by
  refine ⟨t, [], [], [], 0, h.isInt, .absent, .absent, by simp, ?_⟩
  rw [List.append_nil, Json.magnitude, digitsVal_eq, h.val]
  simp

/-- The text of an integer is its sign and magnitude. -/
lemma isNumber_emitI64 (v : Int64) :
    Json.IsNumber (emitI64 v) (decide (v < 0)) v.toInt.natAbs := by
  have hlt : v.toInt.natAbs < 10 ^ 20 := by
    have := natAbs_toInt_lt v
    omega
  have h := isNumber_sign (isNumber_of_decimal (isDecimal_natText hlt)) (decide (v < 0))
  simpa [emitI64] using h

/-- `%ld` and `strtol`. -/
lemma strtol_intText {e : ℤ} (h : e.natAbs < 10 ^ 20) : strtol (intText e) = e := by
  have hdec := isDecimal_natText h
  have htake : (natText e.natAbs).takeWhile isDec = natText e.natAbs :=
    List.takeWhile_eq_self_iff.mpr hdec.digits
  have hval : (natText e.natAbs).foldl (fun m c => m * 10 + (c.toNat - 0x30)) 0 = e.natAbs :=
    hdec.val
  by_cases he : e < 0
  · simp only [intText, if_pos he, strtol, List.singleton_append, List.head?_cons, decide_true,
      if_true, List.drop_succ_cons, List.drop_zero, htake, hval]
    omega
  · have hhead : (natText e.natAbs).head? ≠ some Ch.minus := by
      intro hc
      have := hdec.digits _ (List.mem_of_mem_head? hc)
      exact absurd this (by decide)
    simp only [intText, if_neg he, strtol, List.nil_append, hhead, decide_false, Bool.false_eq_true,
      if_false, htake, hval]
    omega

/-- An exponent of `emit_float`. -/
lemma isExp_intText {e : ℤ} (h : e.natAbs < 10 ^ 20) : Json.IsExp (0x65 :: intText e) e := by
  have hdec := isDecimal_natText h
  by_cases he : e < 0
  · have hexp : Json.IsExp (0x65 :: 0x2D :: natText e.natAbs) (-(Json.digitsVal _ : ℤ)) :=
      @Json.IsExp.signed 0x65 true _ (.inl rfl) hdec.digits hdec.ne_nil
    rw [digitsVal_eq, hdec.val] at hexp
    have hval : -((e.natAbs : ℕ) : ℤ) = e := by omega
    rw [hval] at hexp
    simpa [intText, he] using hexp
  · have hexp := @Json.IsExp.unsigned 0x65 _ (.inl rfl) hdec.digits hdec.ne_nil
    have hval : ((e.natAbs : ℕ) : ℤ) = e := by omega
    rw [digitsVal_eq, hdec.val, hval] at hexp
    simpa [intText, he] using hexp

/-! ## Floats -/

/-- Shortest digits: at most one leading zero, and that alone and without an exponent. -/
structure IsShortest (digits : Bytes) (e : ℤ) : Prop where
  /-- Digits. -/
  dec : ∀ c ∈ digits, isDec c = true
  /-- At least one. -/
  ne_nil : digits ≠ []
  /-- Zero has no exponent. -/
  lead : digits.head? = some Ch.zero → digits = [Ch.zero] ∧ e = 0
  /-- The exponent is small. -/
  exp : e.natAbs < 10 ^ 20

/-- A decimal number in parts: its digits before and behind the point, and its exponent. -/
structure FloatParts where
  /-- The digits before the point. -/
  int : Bytes
  /-- The digits behind the point. -/
  frac : Bytes
  /-- The exponent, where one is written. -/
  exp : Option ℤ

namespace FloatParts

/-- The exponent as `emit_float` writes it. -/
def expText (p : FloatParts) : Bytes :=
  match p.exp with
  | none => []
  | some e => 0x65 :: intText e

/-- The text of `emit_float`. -/
def text (p : FloatParts) : Bytes :=
  p.int ++ (if p.frac = [] then [] else Ch.dot :: p.frac) ++ p.expText

/-- The value. -/
def magnitude (p : FloatParts) : ℚ :=
  Json.magnitude (p.int ++ p.frac) (p.exp.getD 0 - p.frac.length)

/-- The parts of a float: digits, without a leading zero, and a point or an exponent. -/
structure Ok (p : FloatParts) : Prop where
  /-- Digits before the point. -/
  int : Json.IsInt p.int
  /-- Digits behind the point. -/
  frac : ∀ c ∈ p.frac, isDec c = true
  /-- The exponent is small. -/
  exp : ∀ e ∈ p.exp, e.natAbs < 10 ^ 20
  /-- It is no integer. -/
  mark : p.frac = [] → p.exp ≠ none

/-- The text of the parts is a number of their value. -/
lemma Ok.isNumber {p : FloatParts} (h : p.Ok) : Json.IsNumber p.text false p.magnitude := by
  have hfrac : Json.IsFrac (if p.frac = [] then [] else Ch.dot :: p.frac) p.frac := by
    split_ifs with hnil
    · rw [hnil]
      exact .absent
    · exact .digits h.frac hnil
  have hexp : Json.IsExp p.expText (p.exp.getD 0) := by
    rw [expText]
    cases he : p.exp with
    | none => exact .absent
    | some e => exact isExp_intText (h.exp e he)
  exact ⟨p.int, _, p.frac, _, _, h.int, hfrac, hexp, rfl, rfl⟩

end FloatParts

/-- A run of zeros. -/
lemma isDec_zeros (n : ℕ) : ∀ c ∈ List.replicate n Ch.zero, isDec c = true := by
  intro c hc
  rw [List.eq_of_mem_replicate hc]
  decide

/-- Digits of two runs. -/
lemma isDec_append {a b : Bytes} (ha : ∀ c ∈ a, isDec c = true) (hb : ∀ c ∈ b, isDec c = true) :
    ∀ c ∈ a ++ b, isDec c = true := by
  intro c hc
  exact (List.mem_append.mp hc).elim (ha c) (hb c)

lemma isInt_zero : Json.IsInt [Ch.zero] := ⟨by simp; decide, by simp, fun _ => rfl⟩

section FloatBody

variable {digits : Bytes} {e : ℤ}

/-- An integral value: zeros behind the digits, and a fraction of zero. -/
lemma fixed_ok (h : IsShortest digits e) (hfixed : 0 ≤ e - digits.length + 1) :
    (FloatParts.mk (digits ++ List.replicate (e - digits.length + 1).toNat Ch.zero) [Ch.zero]
      none).Ok ∧
    (FloatParts.mk (digits ++ List.replicate (e - digits.length + 1).toNat Ch.zero) [Ch.zero]
      none).magnitude = Json.magnitude digits (e - digits.length + 1) := by
  refine ⟨⟨⟨isDec_append h.dec (isDec_zeros _), by simp [h.ne_nil], ?_⟩, isDec_zeros 1, by simp,
    by simp⟩, ?_⟩
  · intro hz
    rw [List.head?_append_of_ne_nil _ h.ne_nil] at hz
    obtain ⟨rfl, rfl⟩ := h.lead hz
    rfl
  · have hrep : digits ++ List.replicate (e - digits.length + 1).toNat Ch.zero ++ [Ch.zero] =
        digits ++ List.replicate ((e - digits.length + 1).toNat + 1) Ch.zero := by
      rw [List.append_assoc, ← List.replicate_succ']
    have hexp : ((none : Option ℤ).getD 0 - (([Ch.zero] : Bytes).length : ℤ)) =
        e - digits.length + 1 - (((e - digits.length + 1).toNat + 1 : ℕ) : ℤ) := by
      simp only [Option.getD_none, List.length_singleton]
      omega
    rw [FloatParts.magnitude, hrep, hexp, magnitude_append_zeros]

/-- A point inside the digits. -/
lemma point_ok (h : IsShortest digits e) {ip : ℕ} (hip : 0 < ip) (hlt : ip < digits.length)
    (he : (ip : ℤ) = e + 1) :
    (FloatParts.mk (digits.take ip) (digits.drop ip) none).Ok ∧
    (FloatParts.mk (digits.take ip) (digits.drop ip) none).magnitude =
      Json.magnitude digits (e - digits.length + 1) := by
  have htake : digits.take ip ≠ [] := by
    rw [ne_eq, List.take_eq_nil_iff]
    exact fun hor => hor.elim (by omega) h.ne_nil
  have hdrop : digits.drop ip ≠ [] := by
    rw [ne_eq, List.drop_eq_nil_iff]
    omega
  refine ⟨⟨⟨fun c hc => h.dec c (List.mem_of_mem_take hc), htake, ?_⟩,
    fun c hc => h.dec c (List.mem_of_mem_drop hc), by simp, fun hnil => absurd hnil hdrop⟩, ?_⟩
  · intro hz
    rw [List.head?_take, if_neg (by omega)] at hz
    obtain ⟨rfl, rfl⟩ := h.lead hz
    simp only [List.length_singleton] at hlt
    omega
  · have hexp : ((none : Option ℤ).getD 0 - ((digits.drop ip).length : ℤ)) =
        e - digits.length + 1 := by
      rw [Option.getD_none, List.length_drop]
      omega
    rw [FloatParts.magnitude, List.take_append_drop, hexp]

/-- A point in front of the digits, with zeros between. -/
lemma small_ok (h : IsShortest digits e) {n : ℕ} (he : (n : ℤ) = -e - 1) :
    (FloatParts.mk [Ch.zero] (List.replicate n Ch.zero ++ digits) none).Ok ∧
    (FloatParts.mk [Ch.zero] (List.replicate n Ch.zero ++ digits) none).magnitude =
      Json.magnitude digits (e - digits.length + 1) := by
  refine ⟨⟨isInt_zero, isDec_append (isDec_zeros n) h.dec, by simp, by simp [h.ne_nil]⟩, ?_⟩
  have hexp : ((none : Option ℤ).getD 0 - ((List.replicate n Ch.zero ++ digits).length : ℤ)) =
      e - digits.length + 1 := by
    rw [Option.getD_none, List.length_append, List.length_replicate]
    omega
  have hzeros : [Ch.zero] ++ (List.replicate n Ch.zero ++ digits) =
      List.replicate (n + 1) Ch.zero ++ digits := by
    rw [List.replicate_succ, List.cons_append, List.cons_append, List.nil_append]
  rw [FloatParts.magnitude, hexp, hzeros, magnitude_zeros]

/-- Scientific notation. -/
lemma scientific_ok (h : IsShortest digits e) :
    (FloatParts.mk (digits.take 1) (digits.drop 1) (some e)).Ok ∧
    (FloatParts.mk (digits.take 1) (digits.drop 1) (some e)).magnitude =
      Json.magnitude digits (e - digits.length + 1) := by
  obtain ⟨d, ds, rfl⟩ := List.exists_cons_of_ne_nil h.ne_nil
  refine ⟨⟨⟨fun c hc => h.dec c (List.mem_of_mem_take hc), by simp, fun hz => ?_⟩,
    fun c hc => h.dec c (List.mem_of_mem_drop hc), ?_, by simp⟩, ?_⟩
  · simpa using hz
  · intro e' he'
    obtain rfl := Option.some.inj he'
    exact h.exp
  · rw [FloatParts.magnitude, List.take_append_drop, Option.getD_some, List.length_drop]
    congr 1
    simp only [List.length_cons]
    omega

/-- The notation of `emit_float` in parts: it keeps the value of the digits, and adds few. -/
lemma floatBody_parts (h : IsShortest digits e) :
    ∃ p : FloatParts, p.Ok ∧ p.text = floatBody digits e ∧
      p.magnitude = Json.magnitude digits (e - digits.length + 1) ∧
      p.int.length ≤ max 16 digits.length ∧ p.frac.length ≤ digits.length + 6 ∧
      ∀ e' ∈ p.exp, e' = e := by
  have hlen : 0 < digits.length := List.length_pos_iff.mpr h.ne_nil
  rw [floatBody]
  dsimp only
  split_ifs with hfixed hpoint hip hsmall hmany
  · obtain ⟨hok, hmag⟩ := fixed_ok h hfixed.1
    refine ⟨_, hok, by simp [FloatParts.text, FloatParts.expText], hmag, ?_, ?_, by simp⟩
    · rw [List.length_append, List.length_replicate]
      omega
    · simp
  · obtain ⟨hok, hmag⟩ := @point_ok digits e h
      ((digits.length : ℤ) + (e - digits.length + 1)).toNat hip (by omega) (by omega)
    have hdrop : digits.drop ((digits.length : ℤ) + (e - digits.length + 1)).toNat ≠ [] := by
      rw [ne_eq, List.drop_eq_nil_iff]
      omega
    refine ⟨_, hok, by simp [FloatParts.text, FloatParts.expText, hdrop], hmag, ?_, ?_, by simp⟩
    · rw [List.length_take]
      omega
    · rw [List.length_drop]
      omega
  · -- a point right before the digits
    obtain ⟨hok, hmag⟩ := @small_ok digits e h 0 (by push_cast; omega)
    refine ⟨_, hok, by simp [FloatParts.text, FloatParts.expText, h.ne_nil], hmag, ?_, ?_, by simp⟩
    · simp
    · simp
  · obtain ⟨hok, hmag⟩ := @small_ok digits e h (-(e - digits.length + 1) - digits.length).toNat
      (by omega)
    refine ⟨_, hok, by simp [FloatParts.text, FloatParts.expText, h.ne_nil], hmag, ?_, ?_, by simp⟩
    · simp
    · rw [List.length_append, List.length_replicate]
      omega
  all_goals
    obtain ⟨hok, hmag⟩ := scientific_ok h
    refine ⟨_, hok, ?_, hmag, ?_, ?_, by simp⟩
  · have hdrop : digits.drop 1 ≠ [] := by
      rw [ne_eq, List.drop_eq_nil_iff]
      omega
    rw [FloatParts.text, if_neg hdrop]
    rfl
  · rw [List.length_take]
    omega
  · rw [List.length_drop]
    omega
  · have hdrop : digits.drop 1 = [] := by
      rw [List.drop_eq_nil_iff]
      omega
    rw [FloatParts.text, if_pos hdrop]
    rfl
  · rw [List.length_take]
    omega
  · rw [List.length_drop]
    omega

end FloatBody

/-- The notation of `emit_float` keeps the value of the digits. -/
lemma isNumber_floatBody {digits : Bytes} {e : ℤ} (h : IsShortest digits e) :
    Json.IsNumber (floatBody digits e) false
      (Json.magnitude digits (e - digits.length + 1)) := by
  obtain ⟨p, hok, htext, hmag, -⟩ := floatBody_parts h
  rw [← htext, ← hmag]
  exact hok.isNumber

/-- `ryu` writes a finite double as `[-]D[.DDD]E[-]X`, with digits that round to it. -/
def FloatConv.Writes (fc : FloatConv) (f : Double) : Prop :=
  ∃ d ds e, fc.ryuD2s f = (if f.signBit then [Ch.minus] else []) ++
      (d :: ((if ds = [] then [] else Ch.dot :: ds) ++ 0x45 :: intText e)) ∧
    IsShortest (d :: ds) e ∧ f.IsNearest (Json.magnitude (d :: ds) (e - ds.length))

/-- `emit_float` finds the digits and the exponent in the text of `ryu`. -/
lemma emitFloat_eq {fc : FloatConv} {f : Double} (hf : f.isFinite = true) {d : UInt8} {ds : Bytes}
    {e : ℤ} (htext : fc.ryuD2s f = (if f.signBit then [Ch.minus] else []) ++
      (d :: ((if ds = [] then [] else Ch.dot :: ds) ++ 0x45 :: intText e)))
    (hshort : IsShortest (d :: ds) e) :
    emitFloat fc f = (if f.signBit then [Ch.minus] else []) ++ floatBody (d :: ds) e := by
  have hdec := hshort.dec
  have hd : isDec d = true := hdec d (by simp)
  have hsign : ((if f.signBit then [Ch.minus] else []) ++
      (d :: ((if ds = [] then [] else Ch.dot :: ds) ++ 0x45 :: intText e))).head? =
        some Ch.minus ↔ f.signBit = true := by
    cases f.signBit
    · have hne : d ≠ Ch.minus := by
        rintro rfl
        exact absurd hd (by decide)
      simp [hne]
    · simp
  have hnotE : ∀ c ∈ d :: (if ds = [] then [] else Ch.dot :: ds), decide (c ≠ 0x45) = true := by
    intro c hc
    have hcases : c = Ch.dot ∨ isDec c = true := by
      rcases List.mem_cons.mp hc with rfl | hc
      · exact .inr hd
      · split_ifs at hc
        · simp at hc
        · rcases List.mem_cons.mp hc with rfl | hc
          · exact .inl rfl
          · exact .inr (hdec c (by simp [hc]))
    rw [decide_eq_true_iff]
    rintro rfl
    exact absurd hcases (by decide)
  obtain ⟨htake, hdrop⟩ := Runs.cut (p := fun c => decide (c ≠ 0x45)) hnotE
    (b := 0x45 :: intText e) (by simp)
  have hfilter : (d :: (if ds = [] then [] else Ch.dot :: ds)).filter (· ≠ Ch.dot) = d :: ds := by
    have hkeep : ∀ c ∈ d :: ds, decide (c ≠ Ch.dot) = true := by
      intro c hc
      rw [decide_eq_true_iff]
      rintro rfl
      exact absurd (hdec _ hc) (by decide)
    have hself : (d :: ds).filter (· ≠ Ch.dot) = d :: ds := List.filter_eq_self.mpr hkeep
    split_ifs with hds
    · rwa [hds] at hself ⊢
    · have hd' := hkeep d (by simp)
      simp only [List.filter_cons, hd', if_true] at hself ⊢
      simpa using hself
  simp only [Double.isFinite, Bool.and_eq_true, Bool.not_eq_true'] at hf
  rw [emitFloat, if_neg (by simp [hf.1]), if_neg (by simp [hf.2]), htext]
  simp only [hsign, Bool.decide_eq_true]
  have hrest : (if f.signBit = true then
      ((if f.signBit then [Ch.minus] else []) ++
        (d :: ((if ds = [] then [] else Ch.dot :: ds) ++ 0x45 :: intText e))).drop 1
      else (if f.signBit then [Ch.minus] else []) ++
        (d :: ((if ds = [] then [] else Ch.dot :: ds) ++ 0x45 :: intText e))) =
      (d :: (if ds = [] then [] else Ch.dot :: ds)) ++ 0x45 :: intText e := by
    cases f.signBit <;> simp
  rw [hrest, htake, hdrop, hfilter, List.drop_succ_cons, List.drop_zero, strtol_intText hshort.exp]

/-- The text of a finite double is a number with its sign that rounds to it. -/
lemma isNumber_emitFloat {fc : FloatConv} {f : Double} (hf : f.isFinite = true)
    (h : fc.Writes f) :
    ∃ mag, Json.IsNumber (emitFloat fc f) f.signBit mag ∧ f.IsNearest mag := by
  obtain ⟨d, ds, e, htext, hshort, hnear⟩ := h
  refine ⟨_, ?_, hnear⟩
  have hbody := isNumber_sign (isNumber_floatBody hshort) f.signBit
  have hexp : e - ((d :: ds).length : ℤ) + 1 = e - ds.length := by
    rw [List.length_cons]
    push_cast
    ring
  rw [hexp] at hbody
  rw [emitFloat_eq hf htext hshort]
  exact hbody

end Teptris
