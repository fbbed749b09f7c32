import Teptris.Emit.Decimal
import Teptris.Grammar.Integer

/-!
# Floats and their grammar

What the number parser hands to a conversion for a float of TOML, route by route, and when that
denotes the value of the literal: the buffers of the copies cut a long literal, or refuse it.
-/

namespace Teptris

/-! ## What is handed to a conversion -/

/-- A decimal on its way to a double. -/
inductive Handed where
  /-- A mantissa, and one multiplication or division by a power of ten. -/
  | scaled (neg : Bool) (m : ℕ) (e : ℤ)
  /-- `ryu` on a span of the input. -/
  | span (t : Bytes)
  /-- `ryu`, or `strtod`, on the copy. -/
  | copied (t : Bytes)

namespace Handed

/-- The conversion. -/
def convert (fc : FloatConv) : Handed → Double
  | scaled neg m e =>
    let dv := if 0 ≤ e then fc.mulPow10 m e.toNat else fc.divPow10 m (-e).toNat
    if neg then dv.negate else dv
  | span t | copied t => readDouble fc t

/-- The decimal is the given one: exactly representable before it is scaled, of a length that fits
an `int`, and inside the copy's buffer with its terminator. -/
def Exact (neg : Bool) (mag : ℚ) : Handed → Prop
  | scaled neg' m e => neg' = neg ∧ m < 10 ^ 15 ∧ -22 ≤ e ∧ e ≤ 22 ∧ (m : ℚ) * 10 ^ e = mag
  | span t => t.length < 2 ^ 31 ∧ Json.IsNumber t neg mag
  | copied t => t.length < numMax * 2 + 8 ∧ Json.IsNumber t neg mag

end Handed

/-- The zero-copy path, before the conversion. -/
def fastHands (fc : FloatConv) (neg : Bool) (dstart ds r : Bytes) : Option (Handed × Bytes) :=
  match fracSpan r with
  | none => none
  | some (fd, q) =>
    match expSpan q with
    | none => none
    | some (e10, q) =>
      let fmag := decFrom (decVal ds) (fd.take 18) % 2 ^ 64
      let fdig := (fd.take 18).length
      let dexp := e10 - fdig
      if e10.natAbs ≤ 400 ∧ ds.length + fdig ≤ 15 ∧ -22 ≤ dexp ∧ dexp ≤ 22 then
        some (.scaled neg fmag dexp, q)
      else
        let span := dstart.take (dstart.length - q.length)
        let span := if neg then Ch.minus :: span else span
        if (fc.ryuS2d span).isSome then some (.span span, q) else none

/-- `slow_decimal`, before the conversion. -/
def slowHands (neg : Bool) (r : Bytes) : Option (Handed × Bytes) :=
  match scanRun 10 r with
  | .error _ => none
  | .ok (buf, r) =>
    if buf.head? = some Ch.zero ∧ 1 < buf.length then none
    else if atFloatMark r then
      match slowFrac ((if neg then [Ch.minus] else []) ++ buf) r with
      | .error _ => none
      | .ok (fbuf, r) =>
        match slowExp fbuf r with
        | .error _ => none
        | .ok (fbuf, r) => some (.copied fbuf, r)
    else none

/-- `decimalFloat`, before the conversion. -/
def decimalFloatHands (fc : FloatConv) (signedInput neg : Bool) (dstart ds r : Bytes) :
    Option (Handed × Bytes) :=
  match if !signedInput || neg then fastHands fc neg dstart ds r else none with
  | some h => some h
  | none =>
    match floatCopy neg ds r with
    | .error _ => none
    | .ok (some (fbuf, r)) => some (.copied fbuf, r)
    | .ok none => slowHands neg dstart

/-- `decimal`, before the conversion: `none` for an integer. -/
def decimalHands (fc : FloatConv) (signedInput neg : Bool) (dstart : Bytes) :
    Option (Handed × Bytes) :=
  let ds := dstart.takeWhile isDec
  let r := dstart.dropWhile isDec
  if 0 < ds.length ∧ ds.length ≤ 18 ∧ r.head? ≠ some Ch.under then
    if ds.head? = some Ch.zero ∧ 1 < ds.length then none
    else if atFloatMark r then decimalFloatHands fc signedInput neg dstart ds r
    else none
  else slowHands neg dstart

/-- `teptris_parse_number` on a number without a radix prefix, before the conversion. -/
def numberHands (fc : FloatConv) (r : Bytes) : Option (Handed × Bytes) :=
  if atSign r then decimalHands fc true (r.head? = some Ch.minus) (r.drop 1)
  else decimalHands fc false false r

section Hands

variable {fc : FloatConv} {neg : Bool} {dstart ds r q : Bytes} {h : Handed}

lemma floatFast_eq : floatFast fc neg dstart ds r =
    (fastHands fc neg dstart ds r).map fun h => (h.1.convert fc, h.2) := by
  unfold floatFast fastHands
  cases fracSpan r with
  | none => rfl
  | some s =>
    obtain ⟨fd, q⟩ := s
    dsimp only
    cases expSpan q with
    | none => rfl
    | some s =>
      obtain ⟨e10, q⟩ := s
      dsimp only
      by_cases hsmall : e10.natAbs ≤ 400 ∧ ds.length + (fd.take 18).length ≤ 15 ∧
          -22 ≤ e10 - ((fd.take 18).length : ℤ) ∧ e10 - ((fd.take 18).length : ℤ) ≤ 22
      · rw [if_pos hsmall, if_pos hsmall]
        rfl
      · rw [if_neg hsmall, if_neg hsmall]
        cases hryu : fc.ryuS2d (if neg then Ch.minus :: dstart.take (dstart.length - q.length)
          else dstart.take (dstart.length - q.length)) with
        | none => rfl
        | some dv =>
          have hread : readDouble fc (if neg then Ch.minus :: dstart.take (dstart.length - q.length)
              else dstart.take (dstart.length - q.length)) = dv := by
            rw [readDouble, hryu]
            rfl
          rw [if_pos Option.isSome_some, Option.map_some, Handed.convert, hread]

lemma slowDecimal_hands (hh : slowHands neg r = some (h, q)) :
    slowDecimal fc neg r = .ok (.float (h.convert fc), q) := by
  unfold slowHands at hh
  unfold slowDecimal
  cases hscan : scanRun 10 r with
  | error e =>
    rw [hscan] at hh
    cases hh
  | ok s =>
    obtain ⟨buf, s⟩ := s
    rw [hscan] at hh
    dsimp only at hh ⊢
    by_cases hzero : buf.head? = some Ch.zero ∧ 1 < buf.length
    · rw [if_pos hzero] at hh
      cases hh
    rw [if_neg hzero] at hh ⊢
    by_cases hmark : atFloatMark s = true
    swap
    · rw [if_neg hmark] at hh
      cases hh
    rw [if_pos hmark] at hh ⊢
    cases hfrac : slowFrac ((if neg then [Ch.minus] else []) ++ buf) s with
    | error e =>
      rw [hfrac] at hh
      cases hh
    | ok s =>
      obtain ⟨fbuf, s⟩ := s
      rw [hfrac] at hh
      dsimp only at hh ⊢
      cases hexp : slowExp fbuf s with
      | error e =>
        rw [hexp] at hh
        cases hh
      | ok s =>
        rw [hexp] at hh
        obtain ⟨rfl, rfl⟩ := Prod.mk.inj (Option.some.inj hh)
        rfl

lemma decimalFloat_hands {signedInput : Bool}
    (hh : decimalFloatHands fc signedInput neg dstart ds r = some (h, q)) :
    decimalFloat fc signedInput neg dstart ds r = .ok (.float (h.convert fc), q) := by
  have hfast : (if !signedInput || neg then floatFast fc neg dstart ds r else none) =
      (if !signedInput || neg then fastHands fc neg dstart ds r else none).map
        fun h => (h.1.convert fc, h.2) := by
    rw [floatFast_eq]
    split_ifs <;> rfl
  unfold decimalFloatHands at hh
  unfold decimalFloat
  rw [hfast]
  cases hroute : (if !signedInput || neg then fastHands fc neg dstart ds r else none) with
  | some s =>
    rw [hroute] at hh
    obtain rfl := Option.some.inj hh
    rfl
  | none =>
    rw [hroute] at hh
    dsimp only [Option.map_none] at hh ⊢
    cases hcopy : floatCopy neg ds r with
    | error e =>
      rw [hcopy] at hh
      cases hh
    | ok s =>
      rw [hcopy] at hh
      cases s with
      | none => exact slowDecimal_hands hh
      | some s =>
        obtain ⟨rfl, rfl⟩ := Prod.mk.inj (Option.some.inj hh)
        rfl

lemma decimal_hands {signedInput : Bool}
    (hh : decimalHands fc signedInput neg dstart = some (h, q)) :
    decimal fc signedInput neg dstart = .ok (.float (h.convert fc), q) := by
  unfold decimalHands at hh
  unfold decimal
  dsimp only at hh ⊢
  by_cases hplain : 0 < (dstart.takeWhile isDec).length ∧ (dstart.takeWhile isDec).length ≤ 18 ∧
      (dstart.dropWhile isDec).head? ≠ some Ch.under
  swap
  · rw [if_neg hplain] at hh ⊢
    exact slowDecimal_hands hh
  rw [if_pos hplain] at hh ⊢
  by_cases hzero : (dstart.takeWhile isDec).head? = some Ch.zero ∧
      1 < (dstart.takeWhile isDec).length
  · rw [if_pos hzero] at hh
    cases hh
  rw [if_neg hzero] at hh ⊢
  by_cases hmark : atFloatMark (dstart.dropWhile isDec) = true
  · rw [if_pos hmark] at hh ⊢
    exact decimalFloat_hands hh
  · rw [if_neg hmark] at hh
    cases hh

end Hands

/-! ## Spans of the text -/

lemma scanRunFrom_long {radix : ℕ} {w ds q : Bytes} (h : Toml.IsRun (digitFor · radix) w ds)
    {buf : Bytes} {prev : Bool} (hbuf : buf.length < numMax)
    (hlen : numMax ≤ (buf ++ ds).length) : ∃ e, scanRunFrom radix buf prev (w ++ q) = .error e := by
  have hlast : ∀ {c : UInt8} {ds : Bytes} {buf : Bytes}, ¬ buf.length = numMax - 1 →
      buf.length < numMax → (buf ++ [c]).length < numMax := by
    intro c ds buf h hbuf
    rw [List.length_append, List.length_singleton]
    omega
  induction h generalizing buf prev with
  | @one c hc =>
    have hfull : buf.length = numMax - 1 := by
      rw [List.length_append, List.length_singleton] at hlen
      omega
    rw [List.singleton_append, scanRunFrom, if_pos hc, if_pos hfull]
    exact ⟨_, rfl⟩
  | @digit c w ds hc h ih =>
    rw [List.cons_append, scanRunFrom, if_pos hc]
    by_cases hfull : buf.length = numMax - 1
    · rw [if_pos hfull]
      exact ⟨_, rfl⟩
    · rw [if_neg hfull]
      rw [List.append_cons] at hlen
      exact ih (@hlast c ds buf hfull hbuf) hlen
  | @under c w ds hc h ih =>
    rw [List.cons_append, scanRunFrom, if_pos hc]
    by_cases hfull : buf.length = numMax - 1
    · rw [if_pos hfull]
      exact ⟨_, rfl⟩
    · rw [if_neg hfull]
      rw [List.append_cons] at hlen
      obtain ⟨e, he⟩ := @ih (buf ++ [c]) false (@hlast c ds buf hfull hbuf) hlen
      refine ⟨e, ?_⟩
      rw [List.cons_append, scanRunFrom, if_neg (by simp [digitFor_under]), if_pos rfl]
      exact he

/-- A run of more than 511 digits is refused. -/
lemma scanRun_long {radix : ℕ} {w ds q : Bytes} (h : Toml.IsRun (digitFor · radix) w ds)
    (hlen : numMax ≤ ds.length) : ∃ e, scanRun radix (w ++ q) = .error e :=
  scanRunFrom_long h (by decide) hlen

/-- A run without underscores is its own digits. -/
lemma digitsOf_plain {w : Bytes} (h : Ch.under ∉ w) : Toml.digitsOf w = w := by
  refine List.filter_eq_self.mpr fun c hc => bne_iff_ne.mpr ?_
  rintro rfl
  exact h hc

/-- The digits at the front of a run: all of it, or those before its first underscore. -/
lemma run_span {w ds q : Bytes} (h : Toml.IsRun Toml.isDigit w ds)
    (hq : ∀ c ∈ q.head?, isDec c = false) :
    (Ch.under ∉ w ∧ (w ++ q).takeWhile isDec = w ∧ (w ++ q).dropWhile isDec = q) ∨
      (Ch.under ∈ w ∧ (w ++ q).takeWhile isDec ≠ [] ∧
        ((w ++ q).dropWhile isDec).head? = some Ch.under) := by
  obtain ⟨a, b, rfl, ha, hne, hb⟩ := run_split h
  cases b with
  | nil =>
    rw [List.append_nil]
    obtain ⟨htake, hdrop⟩ := Runs.cut ha hq
    refine .inl ⟨fun hmem => ?_, htake, hdrop⟩
    exact absurd (ha _ hmem) (by decide)
  | cons c b =>
    obtain rfl := hb c rfl
    have hstop : ∀ d ∈ (Ch.under :: (b ++ q)).head?, isDec d = false := by
      intro d hd
      obtain rfl := Option.some.inj hd
      decide
    obtain ⟨htake, hdrop⟩ := Runs.cut ha hstop
    rw [List.append_assoc, List.cons_append, htake, hdrop]
    exact .inr ⟨by simp, hne, rfl⟩

section Text

variable {l : Toml.FloatText} {t : Bytes}

/-- What follows the fraction. -/
lemma expText_head (h : l.Ok) (ht : EndsNumber t) :
    LooksDecimal (l.expText ++ t) ∧ EndsRun 10 (l.expText ++ t) ∧
      (l.expText ++ t).head? ≠ some Ch.dot := by
  rw [Toml.FloatText.expText]
  by_cases hexp : l.exp = []
  · rw [if_pos hexp, List.nil_append]
    exact ⟨ht.looksDecimal, ht.endsRun 10, fun hc => (ht _ hc).2.1 rfl⟩
  · rw [if_neg hexp, List.cons_append]
    rcases h.mark with hmark | hmark <;> rw [hmark] <;> refine ⟨?_, ?_, by simp [Ch.dot]⟩ <;>
      intro c hc <;> obtain rfl := Option.some.inj hc <;> decide

lemma atExp_expText (h : l.Ok) (ht : EndsNumber t) :
    atExp (l.expText ++ t) = decide (l.exp ≠ []) := by
  rw [Toml.FloatText.expText]
  by_cases hexp : l.exp = []
  · have hno := ht.not_mark
    rw [atFloatMark, Bool.or_eq_false_iff] at hno
    rw [if_pos hexp, List.nil_append, hno.2]
    simp [hexp]
  · rw [if_neg hexp, List.cons_append]
    rcases h.mark with hmark | hmark <;> simp [atExp, hmark, hexp]

/-- What follows the integer part. -/
lemma fracText_head (h : l.Ok) (ht : EndsNumber t) :
    LooksDecimal (l.fracText ++ (l.expText ++ t)) ∧ EndsRun 10 (l.fracText ++ (l.expText ++ t)) ∧
      atFloatMark (l.fracText ++ (l.expText ++ t)) = true := by
  obtain ⟨hlooks, hends, -⟩ := expText_head h ht
  rw [Toml.FloatText.fracText]
  by_cases hfrac : l.frac = []
  · have hexp : l.exp ≠ [] := h.isFloat.resolve_left fun hc => hc hfrac
    rw [if_pos hfrac, List.nil_append, atFloatMark, atExp_expText h ht, decide_eq_true hexp,
      Bool.or_true]
    exact ⟨hlooks, hends, rfl⟩
  · rw [if_neg hfrac, List.cons_append]
    refine ⟨?_, ?_, rfl⟩ <;> intro c hc <;> obtain rfl := Option.some.inj hc <;> decide

/-- The sign of the exponent. -/
lemma expSign_spec (h : l.Ok) (hexp : l.exp ≠ []) :
    (if atSign (l.expSign ++ (l.exp ++ t)) then (l.expSign ++ (l.exp ++ t)).drop 1
      else l.expSign ++ (l.exp ++ t)) = l.exp ++ t ∧
    (if atSign (l.expSign ++ (l.exp ++ t)) then (l.expSign ++ (l.exp ++ t)).take 1 else []) =
      l.expSign ∧
    decide ((l.expSign ++ (l.exp ++ t)).head? = some Ch.minus) =
      decide (l.expSign = [Ch.minus]) := by
  obtain ⟨c, w, ds, hw, -, hc⟩ := (h.exp hexp).head
  have hplus : c ≠ Ch.plus ∧ c ≠ Ch.minus := by
    constructor <;> rintro rfl <;> exact absurd hc (by decide)
  rw [hw]
  rcases h.expSign with hsign | hsign | hsign <;> rw [hsign]
  · simp [atSign, hplus]
  · simp [atSign, Ch.plus, Ch.minus]
  · simp [atSign, Ch.plus, Ch.minus]

/-- The zero-copy path finds a fraction without underscores. -/
lemma fracSpan_text (h : l.Ok) (ht : EndsNumber t) :
    fracSpan (l.fracText ++ (l.expText ++ t)) =
      if Ch.under ∈ l.frac then none else some (l.frac, l.expText ++ t) := by
  obtain ⟨hlooks, hends, hdot⟩ := expText_head h ht
  rw [fracSpan, Toml.FloatText.fracText]
  by_cases hfrac : l.frac = []
  · rw [if_pos hfrac, List.nil_append, if_neg hdot, hfrac, if_neg (by simp)]
  · rw [if_neg hfrac, List.cons_append, List.head?_cons, if_pos rfl]
    simp only [List.drop_succ_cons, List.drop_zero]
    rcases run_span (h.frac hfrac) fun c hc => (hlooks c hc).1 with
      ⟨hunder, htake, hdrop⟩ | ⟨hunder, -, hhead⟩
    · have hstop : (l.expText ++ t).head? ≠ some Ch.under := fun hc => (hends _ hc).2 rfl
      rw [htake, hdrop, if_neg (not_or.mpr ⟨hfrac, hstop⟩), if_neg hunder]
    · rw [if_pos (.inr hhead), if_pos hunder]

/-- The zero-copy path finds an exponent without underscores. -/
lemma expSpan_text (h : l.Ok) (ht : EndsNumber t) :
    expSpan (l.expText ++ t) = if Ch.under ∈ l.exp then none
      else some (if decide (l.expSign = [Ch.minus]) then -(expVal l.exp : ℤ) else expVal l.exp,
        t) := by
  rw [expSpan, atExp_expText h ht]
  by_cases hexp : l.exp = []
  · have htext : l.expText = [] := if_pos hexp
    rw [hexp, htext, if_neg (by simp), if_neg (by simp), List.nil_append]
    congr 2
    split_ifs <;> rfl
  · have htext : l.expText ++ t = l.mark :: (l.expSign ++ (l.exp ++ t)) := by
      rw [Toml.FloatText.expText, if_neg hexp]
      simp
    obtain ⟨hdrop, -, hminus⟩ := @expSign_spec _ t h hexp
    rw [if_pos (decide_eq_true hexp), htext]
    simp only [List.drop_succ_cons, List.drop_zero]
    rw [hdrop, hminus]
    rcases run_span (h.exp hexp) fun c hc => (ht.looksDecimal c hc).1 with
      ⟨hunder, htake, hdrop⟩ | ⟨hunder, -, hhead⟩
    · have hstop : t.head? ≠ some Ch.under := fun hc => (ht.endsRun 10 _ hc).2 rfl
      rw [htake, hdrop, if_neg (not_or.mpr ⟨hexp, hstop⟩), if_neg hunder]
    · rw [if_pos (.inr hhead), if_pos hunder]

/-- The exponent with at most `room` digits, as it is copied. -/
def expCopy (l : Toml.FloatText) (room : ℕ) : Bytes :=
  if l.exp = [] then [] else 0x65 :: (l.expSign ++ l.exp.take room)

/-- The copying path copies an exponent without underscores. -/
lemma copyExp_text (h : l.Ok) (ht : EndsNumber t) (fbuf : Bytes) :
    copyExp fbuf (l.expText ++ t) = if Ch.under ∈ l.exp then .ok none
      else .ok (some (fbuf ++ expCopy l (numMax * 2 - (fbuf.length + 1 + l.expSign.length)),
        t)) := by
  rw [copyExp, atExp_expText h ht, expCopy]
  by_cases hexp : l.exp = []
  · have htext : l.expText = [] := if_pos hexp
    rw [hexp, htext, if_neg (by simp), if_neg (by simp), if_pos rfl, List.nil_append,
      List.append_nil]
  · have htext : l.expText ++ t = l.mark :: (l.expSign ++ (l.exp ++ t)) := by
      rw [Toml.FloatText.expText, if_neg hexp]
      simp
    obtain ⟨hdrop, hsign, -⟩ := @expSign_spec _ t h hexp
    have hcopied : (if atSign (l.expSign ++ (l.exp ++ t)) then
        fbuf ++ [0x65] ++ (l.expSign ++ (l.exp ++ t)).take 1 else fbuf ++ [0x65]) =
        fbuf ++ [0x65] ++ l.expSign := by
      refine Eq.trans ?_ (congrArg (fbuf ++ [0x65] ++ ·) hsign)
      split_ifs
      · rfl
      · exact (List.append_nil _).symm
    rw [if_pos (decide_eq_true hexp), htext, if_neg hexp]
    simp only [List.drop_succ_cons, List.drop_zero]
    rw [hdrop, hcopied]
    rcases run_span (h.exp hexp) fun c hc => (ht.looksDecimal c hc).1 with
      ⟨hunder, htake, hdrop⟩ | ⟨hunder, hne, hhead⟩
    · have hstop : t.head? ≠ some Ch.under := fun hc => (ht.endsRun 10 _ hc).2 rfl
      have hlen : (fbuf ++ [0x65] ++ l.expSign).length = fbuf.length + 1 + l.expSign.length := by
        rw [List.length_append, List.length_append, List.length_singleton]
      rw [htake, hdrop, if_neg hexp, if_neg hstop, if_neg hunder, hlen]
      simp
    · rw [if_neg hne, if_pos hhead, if_pos hunder]

/-- The fraction with at most `room` digits, as it is copied. -/
def fracCopy (l : Toml.FloatText) (room : ℕ) : Bytes :=
  if l.frac = [] then [] else Ch.dot :: l.frac.take room

/-- The copying path copies a fraction and an exponent without underscores. -/
lemma floatCopy_text (h : l.Ok) (ht : EndsNumber t) (neg : Bool) (ds : Bytes) :
    floatCopy neg ds (l.fracText ++ (l.expText ++ t)) =
      if Ch.under ∈ l.frac ∨ Ch.under ∈ l.exp then .ok none
      else
        let head := (if neg then [Ch.minus] else []) ++ ds
        let copy := head ++ fracCopy l (numMax * 2 - 16 - (head.length + 1))
        .ok (some (copy ++ expCopy l (numMax * 2 - (copy.length + 1 + l.expSign.length)), t)) := by
  obtain ⟨hlooks, hends, hdot⟩ := expText_head h ht
  unfold floatCopy fracCopy Toml.FloatText.fracText
  dsimp only
  generalize (if neg then [Ch.minus] else []) ++ ds = head
  by_cases hfrac : l.frac = []
  · rw [if_pos hfrac, if_pos hfrac, List.nil_append, if_neg hdot, copyExp_text h ht, hfrac,
      List.append_nil]
    simp only [List.not_mem_nil, false_or]
  · rw [if_neg hfrac, if_neg hfrac, List.cons_append, List.head?_cons, if_pos rfl]
    simp only [List.drop_succ_cons, List.drop_zero]
    rcases run_span (h.frac hfrac) fun c hc => (hlooks c hc).1 with
      ⟨hunder, htake, hdrop⟩ | ⟨hunder, hne, hhead⟩
    · have hstop : (l.expText ++ t).head? ≠ some Ch.under := fun hc => (hends _ hc).2 rfl
      have hlen : (head ++ [Ch.dot]).length = head.length + 1 := List.length_append
      have hcons : ∀ r : Bytes, head ++ [Ch.dot] ++ r = head ++ Ch.dot :: r := by simp
      rw [htake, hdrop, if_neg hfrac, if_neg hstop, copyExp_text h ht, hlen, hcons]
      simp only [hunder, false_or]
    · rw [if_neg hne, if_pos hhead, if_pos (.inl hunder)]

/-- The digits of a text, without its underscores, as the slow path copies them. -/
def stripped (l : Toml.FloatText) : Toml.FloatText :=
  { l with
    int := Toml.digitsOf l.int
    frac := Toml.digitsOf l.frac
    mark := 0x65
    exp := Toml.digitsOf l.exp }

/-- Runs the slow path has room for. -/
def FitsRuns (l : Toml.FloatText) : Prop :=
  (Toml.digitsOf l.int).length < numMax ∧ (Toml.digitsOf l.frac).length < numMax ∧
    (Toml.digitsOf l.exp).length < numMax

instance (l : Toml.FloatText) : Decidable (FitsRuns l) := inferInstanceAs (Decidable (_ ∧ _))

lemma digitsOf_eq_nil {w : Bytes} (h : w ≠ [] → Toml.IsRun Toml.isDigit w (Toml.digitsOf w)) :
    Toml.digitsOf w = [] ↔ w = [] := by
  constructor
  · intro hnil
    by_contra hne
    obtain ⟨c, w', ds, -, hds, -⟩ := (h hne).head
    rw [hds] at hnil
    exact absurd hnil (by simp)
  · rintro rfl
    rfl

/-- The parts of a text without its sign, with more behind it. -/
lemma unsigned_append (l : Toml.FloatText) (t : Bytes) :
    l.unsigned ++ t = l.int ++ (l.fracText ++ (l.expText ++ t)) := by
  simp [Toml.FloatText.unsigned]

/-- The sign and the rest of a text, with more behind it. -/
lemma text_append (l : Toml.FloatText) (t : Bytes) :
    l.text ++ t = l.sign ++ (l.unsigned ++ t) := by
  rw [Toml.FloatText.text, List.append_assoc]

/-- The slow path copies the digits of a text that fits. -/
lemma slowHands_text (h : l.Ok) (ht : EndsNumber t) (hfits : FitsRuns l) (neg : Bool) :
    slowHands neg (l.unsigned ++ t) =
      some (.copied ((if neg then [Ch.minus] else []) ++ (stripped l).unsigned), t) := by
  obtain ⟨hint, hfrac, hexp⟩ := hfits
  obtain ⟨-, hends, hmark⟩ := fracText_head h ht
  obtain ⟨-, hendsExp, hdot⟩ := expText_head h ht
  have htext := unsigned_append l t
  have hscan : scanRun 10 (l.unsigned ++ t) =
      .ok (Toml.digitsOf l.int, l.fracText ++ (l.expText ++ t)) :=
    scanRun_iff.mpr ⟨l.int, h.int.run, hint, hends, htext⟩
  have hzero : ¬ ((Toml.digitsOf l.int).head? = some Ch.zero ∧
      1 < (Toml.digitsOf l.int).length) := by
    rintro ⟨hz, hlong⟩
    rw [h.int.lead hz] at hlong
    exact absurd hlong (by decide)
  have hslowFrac : ∀ fbuf, slowFrac fbuf (l.fracText ++ (l.expText ++ t)) =
      .ok (fbuf ++ (stripped l).fracText, l.expText ++ t) := by
    intro fbuf
    rw [slowFrac, Toml.FloatText.fracText, Toml.FloatText.fracText]
    by_cases hnil : l.frac = []
    · have hnil' : (stripped l).frac = [] := (digitsOf_eq_nil h.frac).mpr hnil
      rw [if_pos hnil, if_pos hnil', List.nil_append, if_neg hdot, List.append_nil]
    · have hnil' : ¬ (stripped l).frac = [] := fun hc => hnil ((digitsOf_eq_nil h.frac).mp hc)
      have hrun : scanRun 10 (l.frac ++ (l.expText ++ t)) =
          .ok (Toml.digitsOf l.frac, l.expText ++ t) :=
        scanRun_iff.mpr ⟨l.frac, h.frac hnil, hfrac, hendsExp, rfl⟩
      rw [if_neg hnil, if_neg hnil', List.cons_append, List.head?_cons, if_pos rfl]
      simp only [List.drop_succ_cons, List.drop_zero]
      rw [hrun]
      dsimp only
      rw [List.append_assoc]
      rfl
  have hslowExp : ∀ fbuf, slowExp fbuf (l.expText ++ t) =
      .ok (fbuf ++ (stripped l).expText, t) := by
    intro fbuf
    rw [slowExp, atExp_expText h ht]
    by_cases hnil : l.exp = []
    · have hnil' : (stripped l).exp = [] := (digitsOf_eq_nil h.exp).mpr hnil
      have hempty : l.expText = [] := if_pos hnil
      have hempty' : (stripped l).expText = [] := if_pos hnil'
      rw [hnil, if_neg (by simp), hempty, hempty', List.nil_append, List.append_nil]
    · have hnil' : ¬ (stripped l).exp = [] := fun hc => hnil ((digitsOf_eq_nil h.exp).mp hc)
      have hrun : scanRun 10 (l.exp ++ t) = .ok (Toml.digitsOf l.exp, t) :=
        scanRun_iff.mpr ⟨l.exp, h.exp hnil, hexp, ht.endsRun 10, rfl⟩
      have hfull : l.expText ++ t = l.mark :: (l.expSign ++ (l.exp ++ t)) := by
        rw [Toml.FloatText.expText, if_neg hnil]
        simp
      have hfull' : (stripped l).expText = 0x65 :: (l.expSign ++ Toml.digitsOf l.exp) :=
        if_neg hnil'
      obtain ⟨hdrop, hsign, -⟩ := @expSign_spec _ t h hnil
      rw [if_pos (decide_eq_true hnil), hfull, hfull']
      simp only [List.drop_succ_cons, List.drop_zero]
      rw [hdrop, hsign, hrun]
      simp
  rw [slowHands, hscan]
  dsimp only
  rw [if_neg hzero, if_pos hmark, hslowFrac]
  dsimp only
  rw [hslowExp]
  simp [Toml.FloatText.unsigned, stripped]

/-- The slow path refuses a text with a longer run. -/
lemma slowHands_long (h : l.Ok) (ht : EndsNumber t) (hfits : ¬ FitsRuns l) (neg : Bool) :
    slowHands neg (l.unsigned ++ t) = none := by
  obtain ⟨-, hends, hmark⟩ := fracText_head h ht
  obtain ⟨-, hendsExp, hdot⟩ := expText_head h ht
  have htext := unsigned_append l t
  rw [slowHands, htext]
  by_cases hint : numMax ≤ (Toml.digitsOf l.int).length
  · obtain ⟨e, he⟩ := @scanRun_long 10 _ _ (l.fracText ++ (l.expText ++ t)) h.int.run hint
    rw [he]
  have hscan : scanRun 10 (l.int ++ (l.fracText ++ (l.expText ++ t))) =
      .ok (Toml.digitsOf l.int, l.fracText ++ (l.expText ++ t)) :=
    scanRun_iff.mpr ⟨l.int, h.int.run, not_le.mp hint, hends, rfl⟩
  rw [hscan]
  dsimp only
  by_cases hzero : (Toml.digitsOf l.int).head? = some Ch.zero ∧ 1 < (Toml.digitsOf l.int).length
  · rw [if_pos hzero]
  rw [if_neg hzero, if_pos hmark]
  by_cases hfrac : numMax ≤ (Toml.digitsOf l.frac).length
  · have hnil : l.frac ≠ [] := by
      intro hc
      rw [hc] at hfrac
      exact absurd hfrac (by decide)
    obtain ⟨e, he⟩ := @scanRun_long 10 _ _ (l.expText ++ t) (h.frac hnil) hfrac
    rw [slowFrac, Toml.FloatText.fracText, if_neg hnil, List.cons_append, List.head?_cons,
      if_pos rfl]
    simp only [List.drop_succ_cons, List.drop_zero]
    rw [he]
  have hslowFrac : ∀ fbuf, ∃ fbuf', slowFrac fbuf (l.fracText ++ (l.expText ++ t)) =
      .ok (fbuf', l.expText ++ t) := by
    intro fbuf
    rw [slowFrac, Toml.FloatText.fracText]
    by_cases hnil : l.frac = []
    · rw [if_pos hnil, List.nil_append, if_neg hdot]
      exact ⟨_, rfl⟩
    · rw [if_neg hnil, List.cons_append, List.head?_cons, if_pos rfl]
      simp only [List.drop_succ_cons, List.drop_zero]
      have hrun : scanRun 10 (l.frac ++ (l.expText ++ t)) =
          .ok (Toml.digitsOf l.frac, l.expText ++ t) :=
        scanRun_iff.mpr ⟨l.frac, h.frac hnil, not_le.mp hfrac, hendsExp, rfl⟩
      rw [hrun]
      exact ⟨_, rfl⟩
  obtain ⟨fbuf, hfbuf⟩ := hslowFrac ((if neg then [Ch.minus] else []) ++ Toml.digitsOf l.int)
  rw [hfbuf]
  dsimp only
  have hexp : numMax ≤ (Toml.digitsOf l.exp).length := by
    by_contra hc
    exact hfits ⟨not_le.mp hint, not_le.mp hfrac, not_le.mp hc⟩
  have hnil : l.exp ≠ [] := by
    intro hc
    rw [hc] at hexp
    exact absurd hexp (by decide)
  obtain ⟨e, he⟩ := @scanRun_long 10 _ _ t (h.exp hnil) hexp
  have hfull : l.expText ++ t = l.mark :: (l.expSign ++ (l.exp ++ t)) := by
    rw [Toml.FloatText.expText, if_neg hnil]
    simp
  obtain ⟨hdrop, -⟩ := @expSign_spec _ t h hnil
  rw [slowExp, atExp_expText h ht, if_pos (decide_eq_true hnil), hfull]
  simp only [List.drop_succ_cons, List.drop_zero]
  rw [hdrop, he]

/-! ## The routes -/

/-- No underscores, and at most eighteen digits before the point. -/
def PlainFloat (l : Toml.FloatText) : Prop :=
  Ch.under ∉ l.int ∧ Ch.under ∉ l.frac ∧ Ch.under ∉ l.exp ∧ l.int.length ≤ 18

/-- At most fifteen digits, and a small exponent: one exact multiplication or division. -/
def IsClinger (l : Toml.FloatText) : Prop :=
  l.exponent.natAbs ≤ 400 ∧ l.int.length + l.frac.length ≤ 15 ∧
    -22 ≤ l.exponent - l.frac.length ∧ l.exponent - l.frac.length ≤ 22

instance (l : Toml.FloatText) : Decidable (IsClinger l) := inferInstanceAs (Decidable (_ ∧ _))

/-- A minus in front of a negative number. -/
def withSign (neg : Bool) (t : Bytes) : Bytes := (if neg then [Ch.minus] else []) ++ t

/-- The room the copy has for a fraction. -/
def fracRoom (l : Toml.FloatText) : ℕ := numMax * 2 - 16 - ((withSign l.neg l.int).length + 1)

/-- The room the copy has for an exponent. -/
def expRoom (l : Toml.FloatText) : ℕ :=
  numMax * 2 - ((withSign l.neg l.int ++ fracCopy l (fracRoom l)).length + 1 + l.expSign.length)

/-- A text cut to the rooms of the copy. -/
def cut (l : Toml.FloatText) : Toml.FloatText :=
  { l with
    frac := l.frac.take (fracRoom l)
    mark := 0x65
    exp := l.exp.take (expRoom l) }

lemma expVal_le_decVal (ds : Bytes) : expVal ds ≤ decVal ds := by
  have hstep : ∀ (ds : Bytes) (e : ℕ), ds.foldl expStep e ≤ decFrom e ds := by
    intro ds
    induction ds with
    | nil => exact fun _ => Nat.le_refl _
    | cons c ds ih =>
      intro e
      by_cases he : e < 100000
      · have hnext : expStep e c = e * 10 + (c.toNat - 0x30) := if_pos he
        rw [List.foldl_cons, hnext]
        exact ih _
      · rw [(foldl_expStep (c :: ds) e).1 (by omega)]
        exact le_decFrom e _
  exact hstep ds 0

/-- The saturating exponent decides whether an exponent is small. -/
lemma expVal_le_iff {ds : Bytes} : expVal ds ≤ 400 ↔ decVal ds ≤ 400 := by
  refine ⟨fun h => expVal_eq h ▸ h, fun h => le_trans (expVal_le_decVal ds) h⟩

/-- Digits have a value below a power of ten. -/
lemma decVal_lt {ds : Bytes} (hds : ∀ c ∈ ds, isDec c = true) : decVal ds < 10 ^ ds.length := by
  have hbound := decFrom_lt hds 0
  rwa [Nat.zero_add, Nat.one_mul] at hbound

lemma exponent_plain (hplain : PlainFloat l) :
    l.exponent = if l.expSign = [Ch.minus] then -(decVal l.exp : ℤ) else decVal l.exp := by
  rw [Toml.FloatText.exponent, digitsOf_plain hplain.2.2.1]
  rfl

lemma digits_plain {w : Bytes} (hunder : Ch.under ∉ w)
    (h : w ≠ [] → Toml.IsRun Toml.isDigit w (Toml.digitsOf w)) : ∀ c ∈ w, isDec c = true := by
  intro c hc
  have hrun := h (List.ne_nil_of_mem hc)
  rw [digitsOf_plain hunder] at hrun
  exact hrun.digits c hc

/-- The zero-copy path on a plain text. -/
lemma fastHands_text (h : l.Ok) (ht : EndsNumber t) (hplain : PlainFloat l) (fc : FloatConv)
    (neg : Bool) :
    fastHands fc neg (l.unsigned ++ t) l.int (l.fracText ++ (l.expText ++ t)) =
      if IsClinger l then
        some (.scaled neg (decVal (l.int ++ l.frac)) (l.exponent - l.frac.length), t)
      else if (fc.ryuS2d (withSign neg l.unsigned)).isSome then
        some (.span (withSign neg l.unsigned), t)
      else none := by
  have hexponent := exponent_plain hplain
  obtain ⟨hint, hfrac, hexp, -⟩ := hplain
  have hne : 0 < l.int.length := by
    obtain ⟨c, w, ds, hw, -⟩ := h.int.run.head
    rw [hw]
    exact Nat.succ_pos _
  have hspan : (l.unsigned ++ t).take ((l.unsigned ++ t).length - t.length) = l.unsigned := by
    rw [List.length_append, Nat.add_sub_cancel, List.take_left]
  have hsigned : (if neg then Ch.minus :: l.unsigned else l.unsigned) =
      withSign neg l.unsigned := by
    cases neg <;> rfl
  rw [fastHands, fracSpan_text h ht, if_neg hfrac]
  dsimp only
  rw [expSpan_text h ht, if_neg hexp]
  dsimp only
  rw [hspan, hsigned]
  simp only [decide_eq_true_eq]
  have hsmall :
      (if l.expSign = [Ch.minus] then -(expVal l.exp : ℤ) else expVal l.exp).natAbs ≤ 400 ↔
      l.exponent.natAbs ≤ 400 := by
    rw [hexponent]
    split_ifs <;> simpa using expVal_le_iff
  have hexact : l.exponent.natAbs ≤ 400 →
      (if l.expSign = [Ch.minus] then -(expVal l.exp : ℤ) else expVal l.exp) = l.exponent := by
    intro hle
    have hval : expVal l.exp = decVal l.exp := by
      refine expVal_eq ?_
      have hle' := hsmall.mpr hle
      split_ifs at hle' <;> simpa using hle'
    rw [hexponent, hval]
  by_cases hclinger : IsClinger l
  · obtain ⟨hexp400, hdigits, hlow, hhigh⟩ := hclinger
    have hall : l.frac.take 18 = l.frac := List.take_of_length_le (by omega)
    have hmag : decFrom (decVal l.int) l.frac % 2 ^ 64 = decVal (l.int ++ l.frac) := by
      have hdec : ∀ c ∈ l.int ++ l.frac, isDec c = true :=
        isDec_append (digits_plain hint fun _ => h.int.run) (digits_plain hfrac h.frac)
      have hlt := decVal_lt hdec
      have hpow : 10 ^ (l.int ++ l.frac).length ≤ 10 ^ 15 :=
        Nat.pow_le_pow_right (by decide) (by rwa [List.length_append])
      have hval : decVal (l.int ++ l.frac) = decFrom (decVal l.int) l.frac := decFrom_append 0 _ _
      rw [hval] at hlt ⊢
      exact Nat.mod_eq_of_lt (lt_trans (lt_of_lt_of_le hlt hpow) (by decide))
    have hcond : IsClinger l := ⟨hexp400, hdigits, hlow, hhigh⟩
    rw [hall, hexact hexp400, hmag, if_pos hcond]
    exact if_pos hcond
  · rw [if_neg hclinger, if_neg]
    rintro ⟨hle, hdigits, hlow, hhigh⟩
    have hexp400 := hsmall.mp hle
    have hall : l.frac.take 18 = l.frac := by
      rw [List.length_take] at hdigits
      exact List.take_of_length_le (by omega)
    rw [hall, hexact hexp400] at hlow hhigh
    rw [hall] at hdigits
    exact hclinger ⟨hexp400, hdigits, hlow, hhigh⟩

/-- The zero-copy path gives up at an underscore. -/
lemma fastHands_under (h : l.Ok) (ht : EndsNumber t) (hunder : Ch.under ∈ l.frac ∨ Ch.under ∈ l.exp)
    (fc : FloatConv) (neg : Bool) (dstart : Bytes) :
    fastHands fc neg dstart l.int (l.fracText ++ (l.expText ++ t)) = none := by
  rw [fastHands, fracSpan_text h ht]
  by_cases hfrac : Ch.under ∈ l.frac
  · rw [if_pos hfrac]
  rw [if_neg hfrac]
  dsimp only
  rw [expSpan_text h ht, if_pos (hunder.resolve_left hfrac)]

lemma length_withSign (neg : Bool) (w : Bytes) : (withSign neg w).length ≤ w.length + 1 := by
  cases neg <;> simp [withSign]

/-- The copy leaves a digit of the fraction. -/
lemma cut_frac_nil (hlen : l.int.length ≤ 18) : (cut l).frac = [] ↔ l.frac = [] := by
  have hsign := length_withSign l.neg l.int
  have hmax : numMax * 2 = 1024 := rfl
  have hroom : fracRoom l ≠ 0 := by
    rw [fracRoom]
    omega
  rw [cut, List.take_eq_nil_iff]
  exact or_iff_right hroom

/-- The fraction leaves room for the exponent. -/
lemma length_fracCopy (hlen : l.int.length ≤ 18) :
    (withSign l.neg l.int ++ fracCopy l (fracRoom l)).length ≤ numMax * 2 - 16 := by
  have hsign := length_withSign l.neg l.int
  have hmax : numMax * 2 = 1024 := rfl
  rw [List.length_append, fracCopy]
  split_ifs
  · rw [List.length_nil]
    omega
  · rw [List.length_cons, List.length_take, fracRoom]
    omega

lemma length_expSign (h : l.Ok) : l.expSign.length ≤ 1 := by
  rcases h.expSign with hs | hs | hs <;> rw [hs] <;> decide

/-- The copy leaves a digit of the exponent. -/
lemma cut_exp_nil (h : l.Ok) (hlen : l.int.length ≤ 18) : (cut l).exp = [] ↔ l.exp = [] := by
  have hcopy := length_fracCopy hlen
  have hone := length_expSign h
  have hmax : numMax * 2 = 1024 := rfl
  have hroom : expRoom l ≠ 0 := by
    rw [expRoom]
    omega
  rw [cut, List.take_eq_nil_iff]
  exact or_iff_right hroom

lemma cut_fracText (hlen : l.int.length ≤ 18) :
    (cut l).fracText = fracCopy l (fracRoom l) := by
  rw [Toml.FloatText.fracText, fracCopy]
  by_cases hnil : l.frac = []
  · rw [if_pos hnil, if_pos ((cut_frac_nil hlen).mpr hnil)]
  · rw [if_neg hnil, if_neg fun hc => hnil ((cut_frac_nil hlen).mp hc)]
    rfl

lemma cut_expText (h : l.Ok) (hlen : l.int.length ≤ 18) :
    (cut l).expText = expCopy l (expRoom l) := by
  rw [Toml.FloatText.expText, expCopy]
  by_cases hnil : l.exp = []
  · rw [if_pos hnil, if_pos ((cut_exp_nil h hlen).mpr hnil)]
  · rw [if_neg hnil, if_neg fun hc => hnil ((cut_exp_nil h hlen).mp hc)]
    rfl

/-- The copying path on a plain text. -/
lemma floatCopy_plain (h : l.Ok) (ht : EndsNumber t) (hplain : PlainFloat l) :
    floatCopy l.neg l.int (l.fracText ++ (l.expText ++ t)) =
      .ok (some (withSign l.neg (cut l).unsigned, t)) := by
  obtain ⟨-, hfrac, hexp, hlen⟩ := hplain
  rw [floatCopy_text h ht, if_neg (not_or.mpr ⟨hfrac, hexp⟩), Toml.FloatText.unsigned,
    cut_fracText hlen, cut_expText h hlen, withSign, ← List.append_assoc, ← List.append_assoc]
  rfl

/-- The copy of a plain text stays inside its buffer. -/
lemma length_cut (h : l.Ok) (hlen : l.int.length ≤ 18) :
    (withSign l.neg (cut l).unsigned).length < numMax * 2 + 8 := by
  have hcopy := length_fracCopy hlen
  have hone := length_expSign h
  have hmax : numMax * 2 = 1024 := rfl
  have hexp : (expCopy l (expRoom l)).length ≤ 1 + l.expSign.length + expRoom l := by
    rw [expCopy]
    split_ifs
    · exact Nat.zero_le _
    · rw [List.length_cons, List.length_append, List.length_take]
      omega
  have htext : withSign l.neg (cut l).unsigned =
      withSign l.neg l.int ++ fracCopy l (fracRoom l) ++ expCopy l (expRoom l) := by
    rw [Toml.FloatText.unsigned, cut_fracText hlen, cut_expText h hlen, withSign, withSign,
      ← List.append_assoc, ← List.append_assoc]
    rfl
  have hroom : expRoom l = numMax * 2 - ((withSign l.neg l.int ++
      fracCopy l (fracRoom l)).length + 1 + l.expSign.length) := rfl
  rw [htext, List.length_append]
  omega

/-! ## Values -/

/-- A text without underscores is a number of its value. -/
lemma isNumber_unsigned (h : l.Ok) (hint : Ch.under ∉ l.int) (hfrac : Ch.under ∉ l.frac)
    (hexp : Ch.under ∉ l.exp) (neg : Bool) :
    Json.IsNumber (withSign neg l.unsigned) neg l.magnitude := by
  have hdecimal := h.int
  rw [digitsOf_plain hint] at hdecimal
  have hIsInt : Json.IsInt l.int := by
    refine ⟨hdecimal.run.digits, ?_, hdecimal.lead⟩
    obtain ⟨c, w, ds, hw, -⟩ := hdecimal.run.head
    exact fun hc => List.cons_ne_nil c w (hw.symm.trans hc)
  have hIsFrac : Json.IsFrac l.fracText l.frac := by
    rw [Toml.FloatText.fracText]
    split_ifs with hnil
    · rw [hnil]
      exact .absent
    · exact .digits (digits_plain hfrac h.frac) hnil
  have hIsExp : Json.IsExp l.expText l.exponent := by
    have hdigits := digits_plain hexp h.exp
    rw [Toml.FloatText.expText, Toml.FloatText.exponent, digitsOf_plain hexp]
    split_ifs with hnil hsign hsign
    · rw [hnil]
      exact .absent
    · rw [hnil]
      exact .absent
    · rw [hsign]
      exact @Json.IsExp.signed _ true _ h.mark hdigits hnil
    · rcases h.expSign with hnone | hplus | hminus
      · rw [hnone]
        exact .unsigned h.mark hdigits hnil
      · rw [hplus]
        exact @Json.IsExp.signed _ false _ h.mark hdigits hnil
      · exact absurd hminus hsign
  refine ⟨l.int, l.fracText, l.frac, l.expText, l.exponent, hIsInt, hIsFrac, hIsExp, ?_, ?_⟩
  · rw [withSign, Toml.FloatText.unsigned, List.append_assoc, List.append_assoc]
  · rw [Toml.FloatText.magnitude, digitsOf_plain hint, digitsOf_plain hfrac]
    rfl

lemma under_notMem_digitsOf (w : Bytes) : Ch.under ∉ Toml.digitsOf w := by
  intro hc
  exact absurd (List.mem_filter.mp hc).2 (by decide)

lemma digitsOf_digitsOf (w : Bytes) : Toml.digitsOf (Toml.digitsOf w) = Toml.digitsOf w :=
  digitsOf_plain (under_notMem_digitsOf w)

/-- A text without its underscores is a float of the same value. -/
lemma stripped_ok (h : l.Ok) : (stripped l).Ok ∧ (stripped l).magnitude = l.magnitude := by
  have hrun : ∀ {w : Bytes}, Toml.IsRun Toml.isDigit w (Toml.digitsOf w) →
      Toml.IsRun Toml.isDigit (Toml.digitsOf w) (Toml.digitsOf (Toml.digitsOf w)) := by
    intro w hw
    rw [digitsOf_digitsOf]
    obtain ⟨c, w', ds, -, hds, -⟩ := hw.head
    exact Toml.isRun_self hw.digits (by rw [hds]; exact List.cons_ne_nil _ _)
  have hnil : ∀ {w : Bytes}, Toml.digitsOf w ≠ [] → w ≠ [] := by
    rintro w hw rfl
    exact hw rfl
  refine ⟨⟨h.sign, ⟨hrun h.int.run, ?_⟩, fun hw => hrun (h.frac (hnil hw)), .inl rfl, h.expSign,
    fun hw => hrun (h.exp (hnil hw)), ?_⟩, ?_⟩
  · intro hlead
    rw [show (stripped l).int = Toml.digitsOf l.int from rfl, digitsOf_digitsOf] at hlead ⊢
    exact h.int.lead hlead
  · refine h.isFloat.imp ?_ ?_
    · exact fun hw hc => hw ((digitsOf_eq_nil h.frac).mp hc)
    · exact fun hw hc => hw ((digitsOf_eq_nil h.exp).mp hc)
  · simp only [Toml.FloatText.magnitude, Toml.FloatText.exponent, stripped, digitsOf_digitsOf]

/-- A text cut by the copy is a float. -/
lemma cut_ok (h : l.Ok) (hplain : PlainFloat l) : (cut l).Ok ∧ PlainFloat (cut l) := by
  obtain ⟨hint, hfrac, hexp, hlen⟩ := hplain
  have hunder : ∀ {w : Bytes} (n : ℕ), Ch.under ∉ w → Ch.under ∉ w.take n :=
    fun n hw hc => hw (List.mem_of_mem_take hc)
  have hrun : ∀ {w : Bytes} (n : ℕ), Ch.under ∉ w →
      (w ≠ [] → Toml.IsRun Toml.isDigit w (Toml.digitsOf w)) →
      w.take n ≠ [] → Toml.IsRun Toml.isDigit (w.take n) (Toml.digitsOf (w.take n)) := by
    intro w n hw hrun hne
    rw [digitsOf_plain (hunder n hw)]
    exact Toml.isRun_self (fun c hc => digits_plain hw hrun c (List.mem_of_mem_take hc)) hne
  refine ⟨⟨h.sign, h.int, hrun _ hfrac h.frac, .inl rfl, h.expSign, hrun _ hexp h.exp, ?_⟩, hint,
    hunder _ hfrac, hunder _ hexp, hlen⟩
  refine h.isFloat.imp ?_ ?_
  · exact fun hw hc => hw ((cut_frac_nil hlen).mp hc)
  · exact fun hw hc => hw ((cut_exp_nil h hlen).mp hc)

/-- The copy of a plain text keeps its value: what it cuts off the fraction is zeros, and where it
cuts the exponent, the exponent or all digits are zeros. -/
def KeepsValue (l : Toml.FloatText) : Prop :=
  (∀ c ∈ l.frac.drop (fracRoom l), c = Ch.zero) ∧
    (l.exp.length ≤ expRoom l ∨ (∀ c ∈ l.exp, c = Ch.zero) ∨ ∀ c ∈ l.int ++ l.frac, c = Ch.zero)

end Text

/-- Digits of value zero are zeros. -/
lemma decVal_eq_zero_iff {ds : Bytes} (hds : ∀ c ∈ ds, isDec c = true) :
    decVal ds = 0 ↔ ∀ c ∈ ds, c = Ch.zero := by
  induction ds with
  | nil => simp [decFrom]
  | cons c ds ih =>
    have hc := hds c (by simp)
    simp only [isDec, Bool.and_eq_true, decide_eq_true_eq, UInt8.le_iff_toNat_le] at hc
    have hzero : (0x30 : UInt8).toNat = 48 := rfl
    have hval : decVal (c :: ds) = (c.toNat - 0x30) * 10 ^ ds.length + decVal ds := by
      have hfirst : decVal (c :: ds) = decFrom (0 * 10 + (c.toNat - 0x30)) ds := rfl
      rw [hfirst, decFrom_eq, Nat.zero_mul, Nat.zero_add]
    have hhead : (c.toNat - 0x30) * 10 ^ ds.length = 0 ↔ c = Ch.zero := by
      rw [Nat.mul_eq_zero, or_iff_left (Nat.pow_pos (by decide)).ne', ← UInt8.toNat_inj]
      have hch : Ch.zero.toNat = 48 := rfl
      omega
    rw [hval, Nat.add_eq_zero_iff, hhead, ih fun d hd => hds d (by simp [hd]), List.forall_mem_cons]

/-- The value of digits in two parts. -/
lemma decVal_split (ds : Bytes) (n : ℕ) :
    decVal ds = decVal (ds.take n) * 10 ^ (ds.drop n).length + decVal (ds.drop n) := by
  conv_lhs => rw [← List.take_append_drop n ds]
  rw [decVal, decFrom_append, decFrom_eq]

/-- A prefix of digits has their value where it is all of them, or they are zeros. -/
lemma decVal_take_eq_iff {ds : Bytes} (hds : ∀ c ∈ ds, isDec c = true) (n : ℕ) :
    decVal (ds.take n) = decVal ds ↔ ds.length ≤ n ∨ ∀ c ∈ ds, c = Ch.zero := by
  constructor
  · intro heq
    by_cases hlen : ds.length ≤ n
    · exact .inl hlen
    right
    have hsplit := decVal_split ds n
    have hpow : 10 ^ 1 ≤ 10 ^ (ds.drop n).length :=
      Nat.pow_le_pow_right (by decide) (by rw [List.length_drop]; omega)
    have hmul : decVal (ds.take n) * 10 ^ 1 ≤ decVal (ds.take n) * 10 ^ (ds.drop n).length :=
      Nat.mul_le_mul_left _ hpow
    exact (decVal_eq_zero_iff hds).mp (by omega)
  · rintro (hlen | hzero)
    · rw [List.take_of_length_le hlen]
    · rw [(decVal_eq_zero_iff hds).mpr hzero]
      exact (decVal_eq_zero_iff fun c hc => hds c (List.mem_of_mem_take hc)).mpr
        fun c hc => hzero c (List.mem_of_mem_take hc)

/-- Digits cut off behind a number change its value, whatever becomes of the exponent, unless they
are zeros. -/
lemma scaled_eq_iff {x r k : ℕ} (n E E' : ℤ) (hr : r < 10 ^ k) :
    ((x : ℚ) * 10 ^ (E' - n) = ((x * 10 ^ k + r : ℕ) : ℚ) * 10 ^ (E - (n + k))) ↔
      r = 0 ∧ (E' = E ∨ x = 0) := by
  have hten : (10 : ℚ) ≠ 0 := by norm_num
  have hscale : ∀ e : ℤ, (10 : ℚ) ^ (e - n) = 10 ^ (e - (n + k)) * 10 ^ k := by
    intro e
    rw [← zpow_natCast, ← zpow_add₀ hten]
    congr 1
    ring
  have hpos : (0 : ℚ) < 10 ^ (E - (n + k)) := zpow_pos (by norm_num) _
  constructor
  · intro heq
    have hshift : (10 : ℚ) ^ (E' - (n + k)) = 10 ^ (E - (n + k)) * 10 ^ (E' - E) := by
      rw [← zpow_add₀ hten]
      congr 1
      ring
    have hval : ((x * 10 ^ k : ℕ) : ℚ) * 10 ^ (E' - E) = ((x * 10 ^ k + r : ℕ) : ℚ) := by
      rw [hscale, hshift] at heq
      refine mul_left_cancel₀ hpos.ne' ?_
      rw [mul_comm _ ((x * 10 ^ k + r : ℕ) : ℚ), ← heq]
      push_cast
      ring
    rcases Nat.eq_zero_or_pos x with rfl | hx
    · refine ⟨?_, .inr rfl⟩
      rw [Nat.zero_mul, Nat.zero_add, Nat.cast_zero, zero_mul] at hval
      exact_mod_cast hval.symm
    have hbig : r < x * 10 ^ k := lt_of_lt_of_le hr (Nat.le_mul_of_pos_left _ hx)
    have hy : (0 : ℚ) < ((x * 10 ^ k : ℕ) : ℚ) := by exact_mod_cast Nat.zero_lt_of_lt hbig
    have hbig' : ((x * 10 ^ k + r : ℕ) : ℚ) < ((x * 10 ^ k : ℕ) : ℚ) * 10 := by
      exact_mod_cast (by omega : x * 10 ^ k + r < x * 10 ^ k * 10)
    have hsmall : ((x * 10 ^ k : ℕ) : ℚ) * 1 ≤ ((x * 10 ^ k + r : ℕ) : ℚ) := by
      exact_mod_cast (by omega : x * 10 ^ k * 1 ≤ x * 10 ^ k + r)
    rw [← hval] at hbig' hsmall
    have hlt := lt_of_mul_lt_mul_left hbig' hy.le
    have hle := le_of_mul_le_mul_left hsmall hy
    have hE : E' - E = 0 := by
      have hlow : 0 ≤ E' - E := (one_le_zpow_iff_right₀ (by norm_num : (1 : ℚ) < 10)).mp hle
      have hhigh : E' - E < 1 :=
        (zpow_lt_zpow_iff_right₀ (by norm_num : (1 : ℚ) < 10)).mp (by simpa using hlt)
      omega
    rw [hE, zpow_zero, mul_one] at hval
    have hsum : x * 10 ^ k = x * 10 ^ k + r := by exact_mod_cast hval
    exact ⟨by omega, .inl (by omega)⟩
  · rintro ⟨rfl, rfl | rfl⟩
    · rw [hscale, Nat.add_zero]
      push_cast
      ring
    · simp

section Cut

variable {l : Toml.FloatText}

lemma magnitude_plain (hplain : PlainFloat l) :
    l.magnitude = (decVal (l.int ++ l.frac) : ℚ) * 10 ^ (l.exponent - l.frac.length) := by
  rw [Toml.FloatText.magnitude, digitsOf_plain hplain.1, digitsOf_plain hplain.2.1]
  rfl

/-- The copy denotes the value of a plain text where it keeps it. -/
lemma magnitude_cut_iff (h : l.Ok) (hplain : PlainFloat l) :
    (cut l).magnitude = l.magnitude ↔ KeepsValue l := by
  have hint : ∀ c ∈ l.int, isDec c = true := digits_plain hplain.1 fun _ => h.int.run
  have hfrac := digits_plain hplain.2.1 h.frac
  have hexp := digits_plain hplain.2.2.1 h.exp
  have hplain' := (cut_ok h hplain).2
  have hdrop : ∀ c ∈ l.frac.drop (fracRoom l), isDec c = true :=
    fun c hc => hfrac c (List.mem_of_mem_drop hc)
  have htake : ∀ c ∈ l.frac.take (fracRoom l), isDec c = true :=
    fun c hc => hfrac c (List.mem_of_mem_take hc)
  have hlen : (l.frac.length : ℤ) =
      (l.frac.take (fracRoom l)).length + (l.frac.drop (fracRoom l)).length := by
    conv_lhs => rw [← List.take_append_drop (fracRoom l) l.frac]
    rw [List.length_append]
    push_cast
    ring
  have hsplit : decVal (l.int ++ l.frac) = decVal (l.int ++ l.frac.take (fracRoom l)) *
      10 ^ (l.frac.drop (fracRoom l)).length + decVal (l.frac.drop (fracRoom l)) := by
    conv_lhs => rw [← List.take_append_drop (fracRoom l) l.frac, ← List.append_assoc]
    rw [decVal, decFrom_append, decFrom_eq]
  have hexponent : (cut l).exponent = l.exponent ↔
      l.exp.length ≤ expRoom l ∨ ∀ c ∈ l.exp, c = Ch.zero := by
    rw [exponent_plain hplain', exponent_plain hplain, ← decVal_take_eq_iff hexp]
    have hsign : (cut l).expSign = l.expSign := rfl
    have hcut : (cut l).exp = l.exp.take (expRoom l) := rfl
    rw [hsign, hcut]
    split_ifs <;> omega
  have hcut : (cut l).int ++ (cut l).frac = l.int ++ l.frac.take (fracRoom l) := rfl
  have hcutFrac : (cut l).frac = l.frac.take (fracRoom l) := rfl
  rw [magnitude_plain hplain', magnitude_plain hplain, hlen, hsplit, hcut, hcutFrac]
  refine (scaled_eq_iff _ _ _ (decVal_lt hdrop)).trans ?_
  rw [decVal_eq_zero_iff hdrop, hexponent, decVal_eq_zero_iff (isDec_append hint htake), KeepsValue,
    or_assoc]
  refine and_congr_right fun hzero => or_congr_right (or_congr_right ?_)
  conv_rhs => rw [← List.take_append_drop (fracRoom l) l.frac, ← List.append_assoc]
  constructor
  · exact fun hall => List.forall_mem_append.mpr ⟨hall, hzero⟩
  · exact fun hall => (List.forall_mem_append.mp hall).1

end Cut

/-! ## Literals -/

section Literal

variable {l : Toml.FloatText} {t : Bytes}

/-- A float that is not plain is read by the slow path. -/
lemma decimalHands_slow (h : l.Ok) (ht : EndsNumber t) (hplain : ¬ PlainFloat l) (fc : FloatConv)
    (signedInput : Bool) :
    decimalHands fc signedInput l.neg (l.unsigned ++ t) = slowHands l.neg (l.unsigned ++ t) := by
  obtain ⟨hlooks, hends, hmark⟩ := fracText_head h ht
  have htext := unsigned_append l t
  unfold decimalHands
  dsimp only
  rcases run_span h.int.run fun c hc => (hlooks c hc).1 with
    ⟨hint, htake, hdrop⟩ | ⟨-, -, hhead⟩
  swap
  · rw [← htext] at hhead
    rw [hhead, if_neg fun hc => hc.2.2 rfl]
  rw [← htext] at htake hdrop
  rw [htake, hdrop]
  by_cases hlen : 0 < l.int.length ∧ l.int.length ≤ 18 ∧
      (l.fracText ++ (l.expText ++ t)).head? ≠ some Ch.under
  swap
  · rw [if_neg hlen]
  have hunder : Ch.under ∈ l.frac ∨ Ch.under ∈ l.exp := by
    by_contra hc
    obtain ⟨hfrac, hexp⟩ := not_or.mp hc
    exact hplain ⟨hint, hfrac, hexp, hlen.2.1⟩
  have hzero : ¬ (l.int.head? = some Ch.zero ∧ 1 < l.int.length) := by
    have hlead := h.int.lead
    rw [digitsOf_plain hint] at hlead
    rintro ⟨hz, hlong⟩
    rw [hlead hz] at hlong
    exact absurd hlong (by decide)
  rw [if_pos hlen, if_neg hzero, if_pos hmark, decimalFloatHands, fastHands_under h ht hunder,
    floatCopy_text h ht, if_pos hunder, ite_self]

/-- A plain float is read by one of the fast paths. -/
lemma decimalHands_plain (h : l.Ok) (ht : EndsNumber t) (hplain : PlainFloat l) (fc : FloatConv)
    (signedInput : Bool) : decimalHands fc signedInput l.neg (l.unsigned ++ t) =
      decimalFloatHands fc signedInput l.neg (l.unsigned ++ t) l.int
        (l.fracText ++ (l.expText ++ t)) := by
  obtain ⟨hlooks, hends, hmark⟩ := fracText_head h ht
  have htext := unsigned_append l t
  have hdigits := digits_plain hplain.1 fun _ => h.int.run
  obtain ⟨htake, hdrop⟩ := Runs.cut hdigits fun c hc => (hlooks c hc).1
  rw [← htext] at htake hdrop
  have hpos : 0 < l.int.length := by
    obtain ⟨c, w, ds, hw, -⟩ := h.int.run.head
    rw [hw]
    exact Nat.succ_pos _
  have hlead := h.int.lead
  rw [digitsOf_plain hplain.1] at hlead
  have hzero : ¬ (l.int.head? = some Ch.zero ∧ 1 < l.int.length) := by
    rintro ⟨hz, hlong⟩
    rw [hlead hz] at hlong
    exact absurd hlong (by decide)
  unfold decimalHands
  dsimp only
  rw [htake, hdrop, if_pos ⟨hpos, hplain.2.2.2, fun hc => (hends _ hc).2 rfl⟩, if_neg hzero,
    if_pos hmark]

/-- The digits are behind the sign. -/
lemma numberHands_text (h : l.Ok) (fc : FloatConv) : numberHands fc (l.text ++ t) =
    decimalHands fc (decide (l.sign ≠ [])) l.neg (l.unsigned ++ t) := by
  obtain ⟨c, w, ds, hw, -, hc⟩ := h.int.run.head
  have hplus : c ≠ Ch.plus ∧ c ≠ Ch.minus := by
    constructor <;> rintro rfl <;> exact absurd hc (by decide)
  have htext := text_append l t
  have hhead : (l.unsigned ++ t).head? = some c := by
    rw [Toml.FloatText.unsigned, hw]
    rfl
  rw [numberHands, htext, Toml.FloatText.neg]
  rcases h.sign with hs | hs | hs <;> rw [hs]
  · rw [List.nil_append, atSign, hhead]
    simp [hplus]
  · rfl
  · rfl

/-- What a plain float hands to a conversion. -/
lemma numberHands_plain (h : l.Ok) (ht : EndsNumber t) (hplain : PlainFloat l) (fc : FloatConv) :
    numberHands fc (l.text ++ t) =
      if l.sign ≠ [Ch.plus] ∧ IsClinger l then
        some (.scaled l.neg (decVal (l.int ++ l.frac)) (l.exponent - l.frac.length), t)
      else if l.sign ≠ [Ch.plus] ∧ (fc.ryuS2d (withSign l.neg l.unsigned)).isSome then
        some (.span (withSign l.neg l.unsigned), t)
      else some (.copied (withSign l.neg (cut l).unsigned), t) := by
  have hroute : (!decide (l.sign ≠ []) || l.neg) = decide (l.sign ≠ [Ch.plus]) := by
    rw [Toml.FloatText.neg]
    rcases h.sign with hs | hs | hs <;> rw [hs] <;> decide
  rw [numberHands_text h, decimalHands_plain h ht hplain, decimalFloatHands, hroute,
    fastHands_text h ht hplain, floatCopy_plain h ht hplain]
  by_cases hsign : l.sign = [Ch.plus]
  · simp [hsign]
  by_cases hclinger : IsClinger l
  · simp [hsign, hclinger]
  by_cases hryu : (fc.ryuS2d (withSign l.neg l.unsigned)).isSome = true
  · simp [hsign, hclinger, hryu]
  · simp [hsign, hclinger, hryu]

/-- What any other float hands to a conversion. -/
lemma numberHands_slow (h : l.Ok) (ht : EndsNumber t) (hplain : ¬ PlainFloat l) (fc : FloatConv) :
    numberHands fc (l.text ++ t) =
      if FitsRuns l then some (.copied (withSign l.neg (stripped l).unsigned), t) else none := by
  rw [numberHands_text h, decimalHands_slow h ht hplain]
  split_ifs with hfits
  · exact slowHands_text h ht hfits l.neg
  · exact slowHands_long h ht hfits l.neg

/-- The value parser converts what is handed. -/
lemma parseValue_hands (h : l.Ok) (ht : EndsNumber t) {cfg : Config} {cp : Bytes} {levels : ℕ}
    {hd : Handed} (hh : numberHands cfg.fc (l.text ++ t) = some (hd, t)) :
    parseValue cfg cp levels (l.text ++ t) = .ok (.float (hd.convert cfg.fc), t) := by
  have htext := text_append l t
  have hbody := unsigned_append l t
  obtain ⟨hlook, hradix⟩ := decimal_look h.int (fracText_head h ht).1
  rw [← hbody] at hlook hradix
  obtain ⟨c, w, ds, hw, -, hc⟩ := h.int.run.head
  have hcons : l.unsigned ++ t = c :: (w ++ (l.fracText ++ (l.expText ++ t))) := by
    rw [hbody, hw]
    rfl
  have hparse : ∀ signedInput,
      parseUnsigned cfg.fc signedInput l.neg (l.unsigned ++ t) =
        decimal cfg.fc signedInput l.neg (l.unsigned ++ t) := by
    intro signedInput
    have hword : c ≠ 0x69 ∧ c ≠ 0x6E := by
      constructor <;> rintro rfl <;> exact absurd hc (by decide)
    have hdec : ¬ (!isDec c) = true := by
      rw [show isDec c = true from hc]
      decide
    rw [hcons] at hradix ⊢
    rw [parseUnsigned, if_neg hword.1, if_neg hword.2, if_neg hdec, hradix]
  rw [numberHands_text h] at hh
  have hnumber := (hparse (decide (l.sign ≠ []))).trans (decimal_hands hh)
  refine (parseValue_scalar_iff (by simp) (by simp) (by simp) (by simp)).mpr ?_
  rw [htext]
  rw [Toml.FloatText.neg] at hnumber
  rcases h.sign with hs | hs | hs <;> rw [hs] at hnumber ⊢
  · exact ⟨c, _, hcons, .inr (.inr (.inr ⟨hc, hlook, hnumber⟩))⟩
  · exact ⟨_, _, rfl, .inl ⟨.inl rfl, hnumber⟩⟩
  · exact ⟨_, _, rfl, .inl ⟨.inr rfl, hnumber⟩⟩

end Literal

/-- The floats whose value the parser hands on: by one exact operation, as a span that `ryu` takes,
as a copy of a plain text that keeps its value, or as a copy that fits the slow path's buffers. -/
inductive HandsExactly (fc : FloatConv) (l : Toml.FloatText) : Prop
  | scaled (hplain : PlainFloat l) (hsign : l.sign ≠ [Ch.plus]) (hclinger : IsClinger l)
  | span (hplain : PlainFloat l) (hsign : l.sign ≠ [Ch.plus]) (hclinger : ¬ IsClinger l)
      (hryu : (fc.ryuS2d (withSign l.neg l.unsigned)).isSome)
      (hlen : (withSign l.neg l.unsigned).length < 2 ^ 31)
  | copied (hplain : PlainFloat l)
      (hroute : l.sign = [Ch.plus] ∨
        ¬ IsClinger l ∧ (fc.ryuS2d (withSign l.neg l.unsigned)).isSome = false)
      (hkeeps : KeepsValue l)
  | slow (hplain : ¬ PlainFloat l) (hfits : FitsRuns l)
      (hlen : (withSign l.neg (stripped l).unsigned).length < numMax * 2 + 8)

/-- Conversions that round correctly: `round` gives the double of a sign and a magnitude. -/
structure FloatConv.Rounds (fc : FloatConv) (round : Bool → ℚ → Double) : Prop where
  /-- `ryu` rounds a number, or declines. -/
  ryu {t : Bytes} {neg : Bool} {mag : ℚ} (h : Json.IsNumber t neg mag) :
    ∀ d ∈ fc.ryuS2d t, d = round neg mag
  /-- `strtod` rounds a number. -/
  strtod {t : Bytes} {neg : Bool} {mag : ℚ} (h : Json.IsNumber t neg mag) :
    fc.strtod t = round neg mag
  /-- A product of doubles is rounded once. -/
  mul {m k : ℕ} (hm : m < 10 ^ 15) (hk : k ≤ 22) : fc.mulPow10 m k = round false (m * 10 ^ k)
  /-- A quotient of doubles is rounded once. -/
  div {m k : ℕ} (hm : m < 10 ^ 15) (hk : k ≤ 22) : fc.divPow10 m k = round false (m / 10 ^ k)
  /-- Rounding does not depend on the sign. -/
  negate (mag : ℚ) : (round false mag).negate = round true mag

/-- An exact decimal is converted to its double, on every route. -/
lemma Handed.Exact.convert {fc : FloatConv} {round : Bool → ℚ → Double} (hfc : fc.Rounds round)
    {hd : Handed} {neg : Bool} {mag : ℚ} (h : hd.Exact neg mag) :
    hd.convert fc = round neg mag := by
  have hread : ∀ {t : Bytes}, Json.IsNumber t neg mag → readDouble fc t = round neg mag := by
    intro t ht
    rw [readDouble]
    cases hryu : fc.ryuS2d t with
    | none => exact hfc.strtod ht
    | some d => exact hfc.ryu ht d hryu
  cases hd with
  | span t => exact hread h.2
  | copied t => exact hread h.2
  | scaled neg' m e =>
    obtain ⟨rfl, hm, hlow, hhigh, rfl⟩ := h
    have hscaled : (if 0 ≤ e then fc.mulPow10 m e.toNat else fc.divPow10 m (-e).toNat) =
        round false (m * 10 ^ e) := by
      by_cases hpos : 0 ≤ e
      · rw [if_pos hpos, hfc.mul hm (by omega), ← zpow_natCast, Int.toNat_of_nonneg hpos]
      · rw [if_neg hpos, hfc.div hm (by omega), div_eq_mul_inv, ← zpow_natCast,
          Int.toNat_of_nonneg (by omega), ← zpow_neg, neg_neg]
    rw [Handed.convert, hscaled]
    cases neg' with
    | true => exact hfc.negate _
    | false => rfl

section Exact

variable {l : Toml.FloatText} {t : Bytes} {fc : FloatConv}

/-- Two numbers with one text are one number. -/
lemma isNumber_unique {w : Bytes} {neg : Bool} {mag mag' : ℚ} (h : Json.IsNumber w neg mag)
    (h' : Json.IsNumber w neg mag') : mag = mag' := by
  have heq := (Json.readNumber_eq h).symm.trans (Json.readNumber_eq h')
  exact (Prod.mk.inj (Option.some.inj heq)).2

/-- What is handed on is the value of the literal exactly in these cases. -/
lemma numberHands_exact_iff (h : l.Ok) (ht : EndsNumber t) :
    (∃ hd, numberHands fc (l.text ++ t) = some (hd, t) ∧ hd.Exact l.neg l.magnitude) ↔
      HandsExactly fc l := by
  by_cases hplain : PlainFloat l
  swap
  · have hstripped := stripped_ok h
    have hnumber := isNumber_unsigned hstripped.1 (under_notMem_digitsOf _)
      (under_notMem_digitsOf _) (under_notMem_digitsOf _) l.neg
    rw [hstripped.2] at hnumber
    rw [numberHands_slow h ht hplain]
    constructor
    · rintro ⟨hd, hhands, hexact⟩
      split_ifs at hhands with hfits
      obtain ⟨rfl, -⟩ := Prod.mk.inj (Option.some.inj hhands)
      exact .slow hplain hfits hexact.1
    · intro hhands
      cases hhands with
      | scaled hp => exact absurd hp hplain
      | span hp => exact absurd hp hplain
      | copied hp => exact absurd hp hplain
      | slow _ hfits hlen => exact ⟨_, if_pos hfits, hlen, hnumber⟩
  have hspan : Json.IsNumber (withSign l.neg l.unsigned) l.neg l.magnitude :=
    isNumber_unsigned h hplain.1 hplain.2.1 hplain.2.2.1 l.neg
  obtain ⟨hcut, hplainCut⟩ := cut_ok h hplain
  have hcopy : Json.IsNumber (withSign l.neg (cut l).unsigned) l.neg (cut l).magnitude :=
    isNumber_unsigned hcut hplainCut.1 hplainCut.2.1 hplainCut.2.2.1 l.neg
  rw [numberHands_plain h ht hplain]
  by_cases hscaled : l.sign ≠ [Ch.plus] ∧ IsClinger l
  · rw [if_pos hscaled]
    refine iff_of_true ⟨_, rfl, rfl, ?_, hscaled.2.2.2.1, hscaled.2.2.2.2, ?_⟩
      (.scaled hplain hscaled.1 hscaled.2)
    · have hdec : ∀ c ∈ l.int ++ l.frac, isDec c = true :=
        isDec_append (digits_plain hplain.1 fun _ => h.int.run) (digits_plain hplain.2.1 h.frac)
      refine lt_of_lt_of_le (decVal_lt hdec) (Nat.pow_le_pow_right (by decide) ?_)
      rw [List.length_append]
      exact hscaled.2.2.1
    · exact (magnitude_plain hplain).symm
  rw [if_neg hscaled]
  by_cases hryu : l.sign ≠ [Ch.plus] ∧ (fc.ryuS2d (withSign l.neg l.unsigned)).isSome
  · rw [if_pos hryu]
    have hclinger : ¬ IsClinger l := fun hc => hscaled ⟨hryu.1, hc⟩
    constructor
    · rintro ⟨hd, hhands, hexact⟩
      obtain ⟨rfl, -⟩ := Prod.mk.inj (Option.some.inj hhands)
      exact .span hplain hryu.1 hclinger hryu.2 hexact.1
    · intro hhands
      cases hhands with
      | scaled _ hsign hc => exact absurd ⟨hsign, hc⟩ hscaled
      | span _ _ _ _ hlen => exact ⟨_, rfl, hlen, hspan⟩
      | copied _ hroute =>
        rcases hroute with hplus | ⟨-, hnone⟩
        · exact absurd hplus hryu.1
        · rw [hnone] at hryu
          exact absurd hryu.2 (by decide)
      | slow hp => exact absurd hplain hp
  rw [if_neg hryu]
  have hroute : l.sign = [Ch.plus] ∨
      ¬ IsClinger l ∧ (fc.ryuS2d (withSign l.neg l.unsigned)).isSome = false := by
    by_cases hplus : l.sign = [Ch.plus]
    · exact .inl hplus
    · exact .inr ⟨fun hc => hscaled ⟨hplus, hc⟩, Bool.eq_false_iff.mpr fun hc => hryu ⟨hplus, hc⟩⟩
  constructor
  · rintro ⟨hd, hhands, hexact⟩
    obtain ⟨rfl, -⟩ := Prod.mk.inj (Option.some.inj hhands)
    exact .copied hplain hroute
      ((magnitude_cut_iff h hplain).mp (isNumber_unique hcopy hexact.2))
  · intro hhands
    cases hhands with
    | scaled _ hsign hc => exact absurd ⟨hsign, hc⟩ hscaled
    | span _ hsign _ hsome => exact absurd ⟨hsign, hsome⟩ hryu
    | copied _ _ hkeeps =>
      refine ⟨_, rfl, length_cut h hplain.2.2.2, ?_⟩
      rw [← (magnitude_cut_iff h hplain).mpr hkeeps]
      exact hcopy
    | slow hp => exact absurd hplain hp

end Exact

/-- The parser accepts a float and hands its value to a conversion exactly where one of the routes
keeps that value; there, with correctly rounded conversions, the result is the double of the
literal's value, whatever its sign, its underscores and its route. -/
theorem float_grammar_iff (cfg : Config) (cp : Bytes) (levels : ℕ) {l : Toml.FloatText}
    (h : l.Ok) {t : Bytes} (ht : EndsNumber t) :
    ((∃ hd, numberHands cfg.fc (l.text ++ t) = some (hd, t) ∧
        parseValue cfg cp levels (l.text ++ t) = .ok (.float (hd.convert cfg.fc), t) ∧
        parseValueFast cfg cp levels (l.text ++ t) = .ok (.float (hd.convert cfg.fc), t) ∧
        hd.Exact l.neg l.magnitude) ↔ HandsExactly cfg.fc l) ∧
    ∀ round, cfg.fc.Rounds round → HandsExactly cfg.fc l →
      parseValue cfg cp levels (l.text ++ t) = .ok (.float (round l.neg l.magnitude), t) := by
  rw [parseValueFast_eq]
  refine ⟨⟨?_, fun hexactly => ?_⟩, fun round hround hexactly => ?_⟩
  · rintro ⟨hd, hhands, -, -, hexact⟩
    exact (numberHands_exact_iff h ht).mp ⟨hd, hhands, hexact⟩
  · obtain ⟨hd, hhands, hexact⟩ := (numberHands_exact_iff h ht).mpr hexactly
    have hparse := @parseValue_hands l t h ht cfg cp levels hd hhands
    exact ⟨hd, hhands, hparse, hparse, hexact⟩
  · obtain ⟨hd, hhands, hexact⟩ := (numberHands_exact_iff h ht).mpr hexactly
    have hparse := @parseValue_hands l t h ht cfg cp levels hd hhands
    rwa [hexact.convert hround] at hparse

/-- `1.5`. -/
def oneAndHalf : Toml.FloatText := ⟨[], [0x31], [0x35], 0x65, [], []⟩

lemma oneAndHalf_ok : oneAndHalf.Ok where
  sign := .inl rfl
  int := ⟨.one rfl, by decide⟩
  frac _ := .one rfl
  mark := .inl rfl
  expSign := .inl rfl
  exp h := absurd rfl h
  isFloat := .inl (by decide)

lemma endsNumber_lf : EndsNumber [Ch.lf] := by
  intro c hc
  obtain rfl := Option.some.inj hc
  decide

/-- `1.5` before the end of a line. -/
theorem float_grammar_half :
    ((∃ hd, numberHands FloatConv.zero (oneAndHalf.text ++ [Ch.lf]) = some (hd, [Ch.lf]) ∧
        parseValue (.ofOptions .zero 0) [] 0 (oneAndHalf.text ++ [Ch.lf]) =
          .ok (.float (hd.convert FloatConv.zero), [Ch.lf]) ∧
        parseValueFast (.ofOptions .zero 0) [] 0 (oneAndHalf.text ++ [Ch.lf]) =
          .ok (.float (hd.convert FloatConv.zero), [Ch.lf]) ∧
        hd.Exact oneAndHalf.neg oneAndHalf.magnitude) ↔ HandsExactly FloatConv.zero oneAndHalf) ∧
    ∀ round, FloatConv.zero.Rounds round → HandsExactly FloatConv.zero oneAndHalf →
      parseValue (.ofOptions .zero 0) [] 0 (oneAndHalf.text ++ [Ch.lf]) =
        .ok (.float (round oneAndHalf.neg oneAndHalf.magnitude), [Ch.lf]) :=
  float_grammar_iff (.ofOptions .zero 0) [] 0 oneAndHalf_ok endsNumber_lf

/-- `+1.000…01`, with 1101 digits behind the point. -/
def longFraction : Toml.FloatText :=
  ⟨[Ch.plus], [0x31], List.replicate 1100 Ch.zero ++ [0x31], 0x65, [], []⟩

lemma longFraction_digits : ∀ c ∈ longFraction.frac, isDec c = true :=
  isDec_append (isDec_zeros 1100) (List.all_eq_true.mp rfl)

lemma longFraction_ok : longFraction.Ok where
  sign := .inr (.inl rfl)
  int := ⟨.one rfl, by decide⟩
  frac h := by
    rw [digitsOf_plain fun hc => absurd (longFraction_digits _ hc) (by decide)]
    exact Toml.isRun_self longFraction_digits h
  mark := .inl rfl
  expSign := .inl rfl
  exp h := absurd rfl h
  isFloat := .inl (List.append_ne_nil_of_right_ne_nil _ (List.cons_ne_nil _ _))

/-- The copy of a long fraction loses its last digit: the parser accepts the literal, and what it
hands to the conversion is another number. -/
theorem float_copy_cut : longFraction.Ok ∧
    ∃ hd, numberHands FloatConv.zero (longFraction.text ++ [Ch.lf]) = some (hd, [Ch.lf]) ∧
      parseValue (.ofOptions .zero 0) [] 0 (longFraction.text ++ [Ch.lf]) =
        .ok (.float (hd.convert FloatConv.zero), [Ch.lf]) ∧
      ¬ hd.Exact longFraction.neg longFraction.magnitude := by
  have hunder : Ch.under ∉ longFraction.frac :=
    fun hc => absurd (longFraction_digits _ hc) (by decide)
  have hplain : PlainFloat longFraction := ⟨by decide, hunder, by decide, by decide⟩
  have hhands := numberHands_plain longFraction_ok endsNumber_lf hplain FloatConv.zero
  rw [if_neg (fun hc => hc.1 rfl), if_neg (fun hc => hc.1 rfl)] at hhands
  refine ⟨longFraction_ok, _, hhands, parseValue_hands longFraction_ok endsNumber_lf hhands, ?_⟩
  rintro ⟨-, hnumber⟩
  obtain ⟨hcut, hint, hfrac, hexp, -⟩ := cut_ok longFraction_ok hplain
  have hcopy := isNumber_unsigned hcut hint hfrac hexp longFraction.neg
  obtain ⟨hzero, -⟩ := (magnitude_cut_iff longFraction_ok hplain).mp
    (isNumber_unique hcopy hnumber)
  have hlast : (0x31 : UInt8) ∈ longFraction.frac.drop (fracRoom longFraction) := by
    have hroom : fracRoom longFraction = 1006 := rfl
    have hdrop : longFraction.frac.drop 1006 = List.replicate 94 Ch.zero ++ [0x31] := by
      have hlen : 1006 ≤ (List.replicate 1100 Ch.zero).length := by
        rw [List.length_replicate]
        decide
      rw [longFraction, List.drop_append_of_le_length hlen, List.drop_replicate]
    rw [hroom, hdrop]
    exact List.mem_append_right _ (List.mem_singleton_self _)
  exact absurd (hzero _ hlast) (by decide)

end Teptris
