import Teptris.Emit.Tokens
import Teptris.Grammar.Float

/-!
# The text of a float

`emit_float` moves the point of the shortest digits of `ryu`, or puts an exponent behind them.  In
each of its forms the text is a float of TOML with the value of those digits, fits the buffer it
is put together in, and is handed on by the parser with that value.
-/

namespace Teptris

/-! ## The text of `ryu` -/

/-- The exponent of the first digit of `mantissa * 10 ^ exponent`. -/
def sciExp (mantissa : ℕ) (exponent : ℤ) : ℤ := exponent + (natText mantissa).length - 1

/-- `to_chars` of `ryu`: the sign, the digits with a point behind the first, and the exponent of
the first digit.  A zero is written as one without an exponent. -/
def toChars (sign : Bool) (mantissa : ℕ) (exponent : ℤ) : Bytes :=
  let digits := natText mantissa
  (if sign then [Ch.minus] else []) ++ digits.take 1 ++
    (if 1 < digits.length then Ch.dot :: digits.drop 1 else []) ++
    0x45 :: intText (sciExp mantissa exponent)

/-- A decimal in the shortest output of `ryu`: at most seventeen digits, the exponent of a double,
and no exponent at a zero. -/
structure IsRyu (mantissa : ℕ) (exponent : ℤ) : Prop where
  /-- At most seventeen digits. -/
  digits : mantissa < 10 ^ 17
  /-- From the least subnormal. -/
  low : -324 ≤ sciExp mantissa exponent
  /-- To the largest double. -/
  high : sciExp mantissa exponent ≤ 308
  /-- A zero is `0E0`. -/
  zero : mantissa = 0 → exponent = 0

/-- A number below a power of ten has no more digits than the power says. -/
lemma length_decText_le_of_lt {k : ℕ} (hk : 0 < k) (n : ℕ) {mag : ℕ} (h : mag < 10 ^ k) :
    (decText n mag).length ≤ k := by
  induction n generalizing k mag with
  | zero => exact Nat.zero_le k
  | succ n ih =>
    rw [decText]
    split_ifs with hzero
    · rw [List.nil_append, List.length_singleton]
      exact hk
    · obtain ⟨k, rfl⟩ : ∃ j, k = j + 1 := ⟨k - 1, by omega⟩
      rw [Nat.pow_succ] at h
      have hdiv : mag / 10 < 10 ^ k := by omega
      have hpos : 0 < k := by
        rcases Nat.eq_zero_or_pos k with rfl | hpos
        · omega
        · exact hpos
      have := ih hpos hdiv
      rw [List.length_append, List.length_singleton]
      omega

lemma length_intText_le {e : ℤ} (hlow : -324 ≤ e) (hhigh : e ≤ 308) : (intText e).length ≤ 4 := by
  have hdigits : (natText e.natAbs).length ≤ 3 :=
    length_decText_le_of_lt (by decide) 20 (by omega)
  have hsign : (if e < 0 then [Ch.minus] else []).length ≤ 1 := by split_ifs <;> simp
  rw [intText, List.length_append]
  omega

section Ryu

variable {m : ℕ} {e : ℤ}

lemma IsRyu.length_le (h : IsRyu m e) : (natText m).length ≤ 17 :=
  length_decText_le_of_lt (by decide) 20 h.digits

/-- The digits of `ryu` are shortest digits. -/
lemma IsRyu.isShortest (h : IsRyu m e) : IsShortest (natText m) (sciExp m e) := by
  have hdec := @isDecimal_natText m (lt_trans h.digits (by decide))
  have hlow := h.low
  have hhigh := h.high
  refine ⟨hdec.digits, hdec.ne_nil, fun hz => ?_, by omega⟩
  have htext := hdec.lead hz
  have hm : m = 0 := by rw [← hdec.val, htext]; rfl
  refine ⟨htext, ?_⟩
  rw [sciExp, htext, h.zero hm]
  rfl

/-- `emit_float` reads the digits and the exponent back. -/
lemma emitFloat_toChars {fc : FloatConv} {f : Double} (hf : f.isFinite = true) (h : IsRyu m e)
    (htext : fc.ryuD2s f = toChars f.signBit m e) :
    emitFloat fc f = (if f.signBit then [Ch.minus] else []) ++
      floatBody (natText m) (sciExp m e) := by
  obtain ⟨d, ds, hdigits⟩ := List.exists_cons_of_ne_nil h.isShortest.ne_nil
  have hshort := h.isShortest
  rw [hdigits] at hshort ⊢
  refine emitFloat_eq hf ?_ hshort
  rw [htext, toChars, hdigits]
  cases ds with
  | nil => simp
  | cons d' ds => simp

end Ryu

/-! ## Floats of TOML -/

namespace FloatParts

variable {p : FloatParts}

/-- The literal of the parts and a sign. -/
def literal (neg : Bool) (p : FloatParts) : Toml.FloatText where
  sign := if neg then [Ch.minus] else []
  int := p.int
  frac := p.frac
  mark := 0x65
  expSign := if p.exp.getD 0 < 0 then [Ch.minus] else []
  exp := match p.exp with
    | none => []
    | some e => natText e.natAbs

@[simp] lemma literal_neg (neg : Bool) : (p.literal neg).neg = neg := by
  cases neg <;> rfl

lemma Ok.expText_eq (h : p.Ok) (neg : Bool) : (p.literal neg).expText = p.expText := by
  rw [Toml.FloatText.expText, FloatParts.expText, literal]
  cases hexp : p.exp with
  | none => rfl
  | some e =>
    have hne := (isDecimal_natText (h.exp e hexp)).ne_nil
    dsimp only
    rw [if_neg hne, Option.getD_some, intText]

lemma Ok.literal_text (h : p.Ok) (neg : Bool) :
    (p.literal neg).text = (if neg then [Ch.minus] else []) ++ p.text := by
  rw [Toml.FloatText.text, Toml.FloatText.unsigned, h.expText_eq, FloatParts.text,
    List.append_assoc p.int]
  rfl

lemma Ok.exp_digits (h : p.Ok) (neg : Bool) : ∀ c ∈ (p.literal neg).exp, isDec c = true := by
  rw [literal]
  cases hexp : p.exp with
  | none => simp
  | some e => exact (isDecimal_natText (h.exp e hexp)).digits

lemma under_notMem_of_digits {t : Bytes} (h : ∀ c ∈ t, isDec c = true) : Ch.under ∉ t :=
  fun hc => absurd (h _ hc) (by decide)

/-- Digits are a run of their own. -/
lemma isRun_digits {t : Bytes} (h : ∀ c ∈ t, isDec c = true) (hne : t ≠ []) :
    Toml.IsRun Toml.isDigit t (Toml.digitsOf t) := by
  rw [digitsOf_plain (under_notMem_of_digits h)]
  exact Toml.isRun_self h hne

/-- The literal is a float. -/
lemma Ok.literal_ok (h : p.Ok) (neg : Bool) : (p.literal neg).Ok where
  sign := by cases neg <;> simp [literal, Toml.IsSign, Ch.minus]
  int := by
    have hplain : Toml.digitsOf p.int = p.int :=
      digitsOf_plain (under_notMem_of_digits h.int.digits)
    refine ⟨isRun_digits h.int.digits h.int.ne_nil, ?_⟩
    show (Toml.digitsOf p.int).head? = some Ch.zero → Toml.digitsOf p.int = [Ch.zero]
    rw [hplain]
    exact h.int.zero
  frac := isRun_digits h.frac
  mark := .inl rfl
  expSign := by
    show Toml.IsSign (if p.exp.getD 0 < 0 then [Ch.minus] else [])
    split_ifs <;> simp [Toml.IsSign, Ch.minus]
  exp := isRun_digits (h.exp_digits neg)
  isFloat := by
    by_cases hfrac : p.frac = []
    · obtain ⟨e, he⟩ := Option.ne_none_iff_exists'.mp (h.mark hfrac)
      right
      rw [literal, he]
      exact (isDecimal_natText (h.exp e he)).ne_nil
    · exact .inl hfrac

/-- The literal has the value of the parts. -/
lemma Ok.literal_magnitude (h : p.Ok) (neg : Bool) : (p.literal neg).magnitude = p.magnitude := by
  have hexp : (p.literal neg).exponent = p.exp.getD 0 := by
    rw [Toml.FloatText.exponent, digitsOf_plain (under_notMem_of_digits (h.exp_digits neg)),
      literal]
    cases hexp : p.exp with
    | none => rfl
    | some e =>
      have hval : (Toml.digitsVal (natText e.natAbs) : ℤ) = e.natAbs := by
        have hdec : Toml.digitsVal (natText e.natAbs) = e.natAbs :=
          (isDecimal_natText (h.exp e hexp)).val
        rw [hdec]
      dsimp only
      rw [hval, Option.getD_some]
      by_cases hneg : e < 0
      · rw [if_pos hneg, if_pos rfl]
        omega
      · rw [if_neg hneg, if_neg (by simp)]
        omega
  rw [Toml.FloatText.magnitude, hexp, FloatParts.magnitude, Json.magnitude]
  rw [show (p.literal neg).int = p.int from rfl, show (p.literal neg).frac = p.frac from rfl,
    digitsOf_plain (under_notMem_of_digits h.int.digits),
    digitsOf_plain (under_notMem_of_digits h.frac)]
  rfl

/-- A short literal is handed on with its value, on whichever route it takes. -/
lemma Ok.handsExactly (h : p.Ok) {fc : FloatConv} (neg : Bool) (hint : p.int.length ≤ 18)
    (hfrac : p.frac.length ≤ 100) : HandsExactly fc (p.literal neg) := by
  have hexp : (p.literal neg).exp.length ≤ 20 := by
    rw [literal]
    cases p.exp with
    | none => exact Nat.zero_le 20
    | some e => exact length_natText_le e.natAbs
  have hexpSign : (p.literal neg).expSign.length ≤ 1 := by
    show (if p.exp.getD 0 < 0 then [Ch.minus] else []).length ≤ 1
    split_ifs <;> simp
  have hsigned : ∀ t, (withSign (p.literal neg).neg t).length ≤ t.length + 1 := by
    intro t
    rw [literal_neg, withSign, List.length_append]
    cases neg <;> simp [Nat.add_comm]
  have hplain : PlainFloat (p.literal neg) :=
    ⟨under_notMem_of_digits h.int.digits, under_notMem_of_digits h.frac,
      under_notMem_of_digits (h.exp_digits neg), hint⟩
  have hsign : (p.literal neg).sign ≠ [Ch.plus] := by cases neg <;> simp [literal]; decide
  by_cases hclinger : IsClinger (p.literal neg)
  · exact .scaled hplain hsign hclinger
  have hsignedInt := hsigned (p.literal neg).int
  have hint' : (p.literal neg).int.length ≤ 18 := hint
  have hfrac' : (p.literal neg).frac.length ≤ 100 := hfrac
  by_cases hryu : (fc.ryuS2d (withSign (p.literal neg).neg (p.literal neg).unsigned)).isSome
  · refine .span hplain hsign hclinger hryu (lt_of_le_of_lt (hsigned _) ?_)
    have hfracText : (p.literal neg).fracText.length ≤ 101 := by
      rw [Toml.FloatText.fracText]
      split_ifs
      · exact Nat.zero_le _
      · rw [List.length_cons]
        omega
    have hexpText : (p.literal neg).expText.length ≤ 22 := by
      rw [Toml.FloatText.expText]
      split_ifs
      · exact Nat.zero_le _
      · rw [List.length_cons, List.length_append]
        omega
    rw [Toml.FloatText.unsigned, List.length_append, List.length_append]
    omega
  · -- nothing is cut off the copy
    have hfracRoom : (p.literal neg).frac.length ≤ fracRoom (p.literal neg) := by
      rw [fracRoom, numMax]
      omega
    have hexpRoom : (p.literal neg).exp.length ≤ expRoom (p.literal neg) := by
      have hcopy : (fracCopy (p.literal neg) (fracRoom (p.literal neg))).length ≤ 101 := by
        rw [fracCopy]
        split_ifs
        · exact Nat.zero_le _
        · rw [List.length_cons, List.length_take]
          omega
      rw [expRoom, numMax, List.length_append]
      omega
    refine .copied hplain (.inr ⟨hclinger, by simpa using hryu⟩) ⟨?_, .inl hexpRoom⟩
    rw [List.drop_eq_nil_of_le hfracRoom]
    simp

end FloatParts

/-! ## The text of `emit_float` -/

section Body

variable {digits : Bytes} {e : ℤ}

/-- Every form of `emit_float` is short. -/
lemma length_floatBody_le (hlen : digits.length ≤ 17) (hlow : -324 ≤ e)
    (hhigh : e ≤ 308) :
    (floatBody digits e).length ≤ 25 := by
  have hexp := length_intText_le hlow hhigh
  rw [floatBody]
  dsimp only
  split_ifs with hfixed hpoint hip hsmall hmany
  all_goals
    simp only [List.length_append, List.length_cons, List.length_replicate, List.length_nil,
      List.length_take, List.length_drop]
    omega

end Body

/-- For every decimal in the shortest output of `ryu` the text of `emit_float` is a float of TOML
with the same sign and exactly that value, and no integer; its buffer holds it and the terminator
of `snprintf`; and the parser reads it as a float and hands exactly that value to a conversion. -/
theorem float_text_exact (fc : FloatConv) {f : Double} (hf : f.isFinite = true) {m : ℕ} {e : ℤ}
    (h : IsRyu m e) (htext : fc.ryuD2s f = toChars f.signBit m e) :
    (∃ l : Toml.FloatText, l.Ok ∧ l.text = emitFloat fc f ∧ l.neg = f.signBit ∧
        l.magnitude = m * 10 ^ e) ∧
      (∀ ds v, ¬ Toml.IsInteger (emitFloat fc f) ds v) ∧
      (emitFloat fc f).length < 44 ∧
      ∀ (cfg : Config) (cp : Bytes) (levels : ℕ) {r : Bytes}, EndsNumber r →
        ∃ hd : Handed, hd.Exact f.signBit (m * 10 ^ e) ∧
          parseValue cfg cp levels (emitFloat fc f ++ r) = .ok (.float (hd.convert cfg.fc), r) := by
  have hlen := h.length_le
  obtain ⟨p, hok, hbody, hmag, hint, hfrac, -⟩ := floatBody_parts h.isShortest
  have hliteral : (p.literal f.signBit).text = emitFloat fc f := by
    rw [hok.literal_text, hbody, emitFloat_toChars hf h htext]
  have hvalue : (p.literal f.signBit).magnitude = m * 10 ^ e := by
    have hdigits : (decVal (natText m) : ℚ) = m := by
      rw [(@isDecimal_natText m (lt_trans h.digits (by decide))).val]
    rw [hok.literal_magnitude, hmag, Json.magnitude, digitsVal_eq, hdigits, sciExp]
    congr 2
    omega
  have hfloat := hok.literal_ok f.signBit
  refine ⟨⟨_, hfloat, hliteral, FloatParts.literal_neg _, hvalue⟩, ?_, ?_, ?_⟩
  · rw [← hliteral]
    exact fun _ _ => hfloat.not_isInteger
  · have hshort := length_floatBody_le hlen h.low h.high
    have hsign : (if f.signBit then [Ch.minus] else []).length ≤ 1 := by split_ifs <;> simp
    rw [emitFloat_toChars hf h htext, List.length_append]
    omega
  · intro cfg cp levels r hr
    have hhands : HandsExactly cfg.fc (p.literal f.signBit) :=
      hok.handsExactly f.signBit (by omega) (by omega)
    obtain ⟨hd, hnumber, hexact⟩ := (numberHands_exact_iff hfloat hr).mpr hhands
    have hread := @parseValue_hands _ r hfloat hr cfg cp levels hd hnumber
    rw [FloatParts.literal_neg, hvalue] at hexact
    rw [hliteral] at hread
    exact ⟨hd, hexact, hread⟩

/-- Conversions that write one and a half as `1.5E0`. -/
def oneAndHalfConv : FloatConv := { FloatConv.zero with ryuD2s := fun _ => toChars false 15 (-1) }

/-- The text of one and a half. -/
theorem float_text_half :
    (∃ l : Toml.FloatText, l.Ok ∧ l.text = emitFloat oneAndHalfConv ⟨0x3FF8000000000000⟩ ∧
        l.neg = false ∧ l.magnitude = (15 : ℕ) * 10 ^ (-1 : ℤ)) ∧
      (∀ ds v, ¬ Toml.IsInteger (emitFloat oneAndHalfConv ⟨0x3FF8000000000000⟩) ds v) ∧
      (emitFloat oneAndHalfConv ⟨0x3FF8000000000000⟩).length < 44 ∧
      ∀ (cfg : Config) (cp : Bytes) (levels : ℕ) {r : Bytes}, EndsNumber r →
        ∃ hd : Handed, hd.Exact false ((15 : ℕ) * 10 ^ (-1 : ℤ)) ∧
          parseValue cfg cp levels (emitFloat oneAndHalfConv ⟨0x3FF8000000000000⟩ ++ r) =
            .ok (.float (hd.convert cfg.fc), r) :=
  float_text_exact oneAndHalfConv (by decide) ⟨by decide, by decide, by decide, by decide⟩ rfl

end Teptris
