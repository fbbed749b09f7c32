import Teptris.Grammar.Datetime
import Teptris.Grammar.Integer
import Teptris.Grammar.Lexical
import Teptris.Parse.State

/-!
# Scalars as tokens

A number, a date-time or a word is read off its own bytes: whatever stands behind it, as long as
no byte of a token does, it is read as it is alone.
-/

namespace Teptris

/-! ## Results with more input behind them -/

/-- A byte that a number or a word may go on with. -/
def isTokenByte (c : UInt8) : Bool := isBareKey c || c == Ch.dot || c == Ch.plus || c == Ch.colon

/-- No byte of a token comes first. -/
def StopsToken (q : Bytes) : Prop := ∀ c ∈ q.head?, isTokenByte c = false

/-- A result over a text, with `q` behind the text; `f` puts it behind what is left. -/
def onto {β : Type} (q : Bytes) (f : β → β) : Except Diag β → Except Diag β
  | .ok b => .ok (f b)
  | .error e => .error { e with pos := e.pos ++ q }

/-- What is left of a text, with `q` behind it. -/
abbrev restOnto {α : Type} (q : Bytes) (x : α × Bytes) : α × Bytes := (x.1, x.2 ++ q)

section Onto

variable {q t : Bytes} {c : UInt8} {p : UInt8 → Bool}

lemma onto_failAt {β : Type} (q : Bytes) (f : β → β) (pos : Bytes) (st : Status) (fmt : String) :
    onto q f (failAt pos st fmt) = failAt (pos ++ q) st fmt := rfl

lemma StopsToken.takeWhile (hq : StopsToken q) (hp : ∀ c, p c = true → isTokenByte c = true) :
    (t ++ q).takeWhile p = t.takeWhile p := by
  induction t with
  | nil =>
    cases q with
    | nil => rfl
    | cons c q =>
      refine List.takeWhile_cons_of_neg fun hc => ?_
      have htoken := hp c hc
      rw [hq c rfl] at htoken
      exact absurd htoken (by decide)
  | cons c t ih =>
    by_cases hc : p c = true
    · rw [List.cons_append, List.takeWhile_cons_of_pos hc, List.takeWhile_cons_of_pos hc, ih]
    · rw [List.cons_append, List.takeWhile_cons_of_neg hc, List.takeWhile_cons_of_neg hc]

lemma StopsToken.dropWhile (hq : StopsToken q) (hp : ∀ c, p c = true → isTokenByte c = true) :
    (t ++ q).dropWhile p = t.dropWhile p ++ q := by
  have hsplit : (t ++ q).takeWhile p ++ (t ++ q).dropWhile p = t ++ q :=
    List.takeWhile_append_dropWhile
  rw [hq.takeWhile hp] at hsplit
  conv_rhs at hsplit => rw [← List.takeWhile_append_dropWhile (p := p) (l := t)]
  rw [List.append_assoc] at hsplit
  exact List.append_cancel_left hsplit

/-- The bytes of a token are looked for in the text only. -/
lemma StopsToken.head (hq : StopsToken q) (hc : isTokenByte c = true) :
    (t ++ q).head? = some c ↔ t.head? = some c := by
  cases t with
  | nil =>
    refine iff_of_false (fun h => ?_) (by simp)
    rw [hq c h] at hc
    exact absurd hc (by decide)
  | cons d t => rfl

lemma StopsToken.dropOne (h : t.head? = some c) : (t ++ q).drop 1 = t.drop 1 ++ q := by
  obtain ⟨t, rfl⟩ := List.head?_eq_some_iff.mp h
  rfl

end Onto

lemma atExp_dropOne {t : Bytes} (q : Bytes) (h : atExp t = true) :
    (t ++ q).drop 1 = t.drop 1 ++ q := by
  cases t with
  | nil => exact absurd h (by decide)
  | cons c t => rfl

lemma isTokenByte_of_isDec (c : UInt8) (h : isDec c = true) : isTokenByte c = true := by
  simp [isTokenByte, isBareKey, h]

lemma isTokenByte_of_isHex {c : UInt8} (h : isHex c = true) : isTokenByte c = true := by
  simp only [isHex, Bool.or_eq_true, Bool.and_eq_true, decide_eq_true_eq] at h
  rcases h with (h | ⟨hlo, hhi⟩) | ⟨hlo, hhi⟩
  · exact isTokenByte_of_isDec c h
  · have : c ≤ 0x7A := UInt8.le_trans hhi (by decide)
    simp [isTokenByte, isBareKey, hlo, this]
  · have : c ≤ 0x5A := UInt8.le_trans hhi (by decide)
    simp [isTokenByte, isBareKey, hlo, this]

lemma isWs_cases {c : UInt8} (h : isWs c = true) : c = Ch.sp ∨ c = Ch.tab := by
  simpa [isWs] using h

lemma isTokenByte_of_isWs {c : UInt8} (h : isWs c = true) : isTokenByte c = false := by
  rcases isWs_cases h with rfl | rfl <;> decide

lemma isWs_of_isTokenByte {c : UInt8} (h : isTokenByte c = true) : isWs c = false :=
  Bool.eq_false_iff.mpr fun hws => by simp [isTokenByte_of_isWs hws] at h

/-- A byte of a token is no byte that ends one. -/
lemma ne_of_isTokenByte {c d : UInt8} (hc : isTokenByte c = true) (hd : isTokenByte d = false) :
    c ≠ d := by
  rintro rfl
  rw [hc] at hd
  cases hd

/-! ## Numbers -/

section Numbers

variable {q : Bytes} (hq : StopsToken q)
include hq

lemma StopsToken.atExp (t : Bytes) : atExp (t ++ q) = atExp t := by
  rw [Teptris.atExp, Teptris.atExp, Bool.eq_iff_iff]
  simp only [Bool.or_eq_true, decide_eq_true_eq, hq.head (c := 0x65) (by decide),
    hq.head (c := 0x45) (by decide)]

lemma StopsToken.atSign (t : Bytes) : atSign (t ++ q) = atSign t := by
  rw [Teptris.atSign, Teptris.atSign, Bool.eq_iff_iff]
  simp only [Bool.or_eq_true, decide_eq_true_eq, hq.head (c := Ch.plus) (by decide),
    hq.head (c := Ch.minus) (by decide)]

lemma StopsToken.atFloatMark (t : Bytes) : atFloatMark (t ++ q) = atFloatMark t := by
  rw [Teptris.atFloatMark, Teptris.atFloatMark, hq.atExp, Bool.eq_iff_iff]
  simp only [Bool.or_eq_true, decide_eq_true_eq, hq.head (c := Ch.dot) (by decide)]

/-- A word of token bytes stands in front of the text alone. -/
lemma StopsToken.prefix_iff {w t : Bytes} (hw : ∀ c ∈ w, isTokenByte c = true) :
    w <+: t ++ q ↔ w <+: t := by
  refine ⟨fun h => ?_, fun h => h.trans (List.prefix_append t q)⟩
  refine List.prefix_of_prefix_length_le h (List.prefix_append t q) (not_lt.mp fun hlt => ?_)
  obtain ⟨u, hu⟩ := List.prefix_of_prefix_length_le (List.prefix_append t q) h hlt.le
  obtain ⟨v, hv⟩ := h
  rw [← hu, List.append_assoc, List.append_cancel_left_eq] at hv
  cases u with
  | nil =>
    rw [List.append_nil] at hu
    exact absurd hlt (by rw [hu]; exact lt_irrefl _)
  | cons c u =>
    have hc := hq c (by rw [← hv]; rfl)
    rw [hw c (by rw [← hu]; simp)] at hc
    exact absurd hc (by decide)

lemma expectWord_onto {α : Type} (a : α) {w : Bytes} (hw : ∀ c ∈ w, isTokenByte c = true)
    (t : Bytes) : (expectWord w (t ++ q)).map (fun r => (a, r)) =
      onto q (restOnto q) ((expectWord w t).map fun r => (a, r)) := by
  rw [expectWord, expectWord]
  by_cases h : w <+: t
  · rw [if_pos ((hq.prefix_iff hw).mpr h), if_pos h]
    simp [Except.map, onto, List.drop_append_of_le_length h.length_le]
  · rw [if_neg (fun h' => h ((hq.prefix_iff hw).mp h')), if_neg h]
    rfl

lemma scanRunFrom_onto (radix : ℕ) (buf : Bytes) (prev : Bool) (t : Bytes) :
    scanRunFrom radix buf prev (t ++ q) = onto q (restOnto q) (scanRunFrom radix buf prev t) := by
  have hfinish : ∀ buf prev (r : Bytes), scanRunFrom.finish buf prev (r ++ q) =
      onto q (restOnto q) (scanRunFrom.finish buf prev r) := by
    intro buf prev r
    rw [scanRunFrom.finish, scanRunFrom.finish]
    split_ifs <;> rfl
  have hdigit : ∀ c, digitFor c radix = true → isTokenByte c = true := by
    exact fun c hc => isTokenByte_of_isHex (isHex_of_digitFor hc)
  induction t generalizing buf prev with
  | nil =>
    rw [List.nil_append, scanRunFrom, ← hfinish, List.nil_append]
    cases q with
    | nil => rfl
    | cons c q =>
      have hc := hq c rfl
      rw [scanRunFrom, if_neg, if_neg]
      · rintro rfl
        exact absurd hc (by decide)
      · intro h
        rw [hdigit c h] at hc
        exact absurd hc (by decide)
  | cons c t ih =>
    rw [List.cons_append, scanRunFrom, scanRunFrom]
    split_ifs
    · rfl
    · exact ih _ _
    · rfl
    · exact ih _ _
    · exact hfinish _ _ (c :: t)

lemma scanRun_onto (radix : ℕ) (t : Bytes) :
    scanRun radix (t ++ q) = onto q (restOnto q) (scanRun radix t) :=
  scanRunFrom_onto hq radix [] false t

lemma fracSpan_onto (t : Bytes) : fracSpan (t ++ q) = (fracSpan t).map (restOnto q) := by
  rw [fracSpan, fracSpan]
  by_cases hdot : t.head? = some Ch.dot
  · rw [if_pos ((hq.head (by decide)).mpr hdot), if_pos hdot]
    dsimp only
    rw [StopsToken.dropOne hdot, hq.takeWhile isTokenByte_of_isDec,
      hq.dropWhile isTokenByte_of_isDec]
    simp only [hq.head (c := Ch.under) (by decide)]
    split_ifs <;> rfl
  · rw [if_neg (fun h => hdot ((hq.head (by decide)).mp h)), if_neg hdot]
    rfl

/-- Behind an optional sign. -/
lemma dropSign_onto (t : Bytes) : (if atSign (t ++ q) then (t ++ q).drop 1 else t ++ q) =
    (if atSign t then t.drop 1 else t) ++ q := by
  rw [hq.atSign]
  split_ifs with hsign
  · cases t with
    | nil => exact absurd hsign (by decide)
    | cons c t => rfl
  · rfl

lemma expSpan_onto (t : Bytes) : expSpan (t ++ q) = (expSpan t).map (restOnto q) := by
  rw [expSpan, expSpan, hq.atExp]
  by_cases hexp : atExp t = true
  · rw [if_pos hexp, if_pos hexp]
    dsimp only
    rw [atExp_dropOne q hexp, dropSign_onto hq, hq.takeWhile isTokenByte_of_isDec,
      hq.dropWhile isTokenByte_of_isDec]
    simp only [hq.head (c := Ch.under) (by decide), hq.head (c := Ch.minus) (by decide)]
    split_ifs <;> rfl
  · rw [if_neg hexp, if_neg hexp]
    rfl

lemma floatFast_onto (fc : FloatConv) (neg : Bool) {dstart ds r : Bytes} (hr : r <:+ dstart) :
    floatFast fc neg (dstart ++ q) ds (r ++ q) =
      (floatFast fc neg dstart ds r).map (restOnto q) := by
  have hfrac : ∀ {x : Bytes × Bytes}, fracSpan r = some x → x.2 <:+ r := by
    intro x hx
    rw [fracSpan] at hx
    dsimp only at hx
    split_ifs at hx
    · obtain rfl := Option.some.inj hx
      exact (List.dropWhile_suffix _).trans (List.drop_suffix _ _)
    · obtain rfl := Option.some.inj hx
      exact List.suffix_rfl
  have hexp : ∀ {r : Bytes} {x : ℤ × Bytes}, expSpan r = some x → x.2 <:+ r := by
    intro r x hx
    rw [expSpan] at hx
    dsimp only at hx
    split_ifs at hx
    all_goals obtain rfl := Option.some.inj hx
    all_goals
      first
      | exact List.suffix_rfl
      | exact (List.dropWhile_suffix _).trans
          ((List.drop_suffix _ _).trans (List.drop_suffix _ _))
      | exact (List.dropWhile_suffix _).trans (List.drop_suffix _ _)
  rw [floatFast, floatFast, fracSpan_onto hq]
  cases hf : fracSpan r with
  | none => rfl
  | some x =>
    obtain ⟨fd, r₁⟩ := x
    simp only [Option.map_some]
    rw [expSpan_onto hq]
    cases he : expSpan r₁ with
    | none => rfl
    | some y =>
      obtain ⟨e10, r₂⟩ := y
      have hsuffix : r₂ <:+ dstart := (hexp he).trans ((hfrac hf).trans hr)
      have hspan : (dstart ++ q).take ((dstart ++ q).length - (r₂ ++ q).length) =
          dstart.take (dstart.length - r₂.length) := by
        rw [List.length_append, List.length_append, Nat.add_sub_add_right,
          List.take_append_of_le_length (Nat.sub_le _ _)]
      simp only [Option.map_some, hspan]
      split_ifs
      all_goals
        first
        | rfl
        | (split <;> rfl)

lemma copyExp_onto (fbuf t : Bytes) : copyExp fbuf (t ++ q) =
    onto q (Option.map (restOnto q)) (copyExp fbuf t) := by
  have htake : ∀ {r : Bytes}, atSign r = true → (r ++ q).take 1 = r.take 1 := by
    intro r hr
    cases r with
    | nil => exact absurd hr (by decide)
    | cons c r => rfl
  rw [copyExp, copyExp, hq.atExp]
  by_cases hexp : atExp t = true
  · rw [if_pos hexp, if_pos hexp]
    dsimp only
    rw [atExp_dropOne q hexp, dropSign_onto hq, hq.atSign, hq.takeWhile isTokenByte_of_isDec,
      hq.dropWhile isTokenByte_of_isDec]
    simp only [hq.head (c := Ch.under) (by decide)]
    by_cases hsign : atSign (t.drop 1) = true
    · simp only [if_pos hsign, htake hsign]
      split_ifs <;> rfl
    · simp only [if_neg hsign]
      split_ifs <;> rfl
  · rw [if_neg hexp, if_neg hexp]
    rfl

lemma floatCopy_onto (neg : Bool) (ds t : Bytes) : floatCopy neg ds (t ++ q) =
    onto q (Option.map (restOnto q)) (floatCopy neg ds t) := by
  rw [floatCopy, floatCopy]
  by_cases hdot : t.head? = some Ch.dot
  · simp only [if_pos ((hq.head (t := t) (c := Ch.dot) (by decide)).mpr hdot), if_pos hdot,
      StopsToken.dropOne hdot, hq.takeWhile isTokenByte_of_isDec,
      hq.dropWhile isTokenByte_of_isDec, hq.head (c := Ch.under) (by decide)]
    split_ifs
    · rfl
    · rfl
    all_goals exact copyExp_onto hq _ _
  · simp only [if_neg (fun h => hdot ((hq.head (t := t) (c := Ch.dot) (by decide)).mp h)),
      if_neg hdot]
    exact copyExp_onto hq _ _

lemma slowFrac_onto (fbuf t : Bytes) :
    slowFrac fbuf (t ++ q) = onto q (restOnto q) (slowFrac fbuf t) := by
  rw [slowFrac, slowFrac]
  by_cases hdot : t.head? = some Ch.dot
  · rw [if_pos ((hq.head (by decide)).mpr hdot), if_pos hdot, StopsToken.dropOne hdot,
      scanRun_onto hq]
    cases scanRun 10 (t.drop 1) <;> rfl
  · rw [if_neg (fun h => hdot ((hq.head (by decide)).mp h)), if_neg hdot]
    rfl

lemma slowExp_onto (fbuf t : Bytes) :
    slowExp fbuf (t ++ q) = onto q (restOnto q) (slowExp fbuf t) := by
  rw [slowExp, slowExp, hq.atExp]
  by_cases hexp : atExp t = true
  · rw [if_pos hexp, if_pos hexp]
    dsimp only
    rw [atExp_dropOne q hexp, dropSign_onto hq, hq.atSign, scanRun_onto hq]
    by_cases hsign : atSign (t.drop 1) = true
    · have htake : (t.drop 1 ++ q).take 1 = (t.drop 1).take 1 := by
        cases hr : t.drop 1 with
        | nil =>
          rw [hr] at hsign
          exact absurd hsign (by decide)
        | cons c r => rfl
      simp only [if_pos hsign, htake]
      cases scanRun 10 ((t.drop 1).drop 1) <;> rfl
    · simp only [if_neg hsign]
      cases scanRun 10 (t.drop 1) <;> rfl
  · rw [if_neg hexp, if_neg hexp]
    rfl

omit hq in
lemma signedInteger_onto (neg : Bool) (mag : ℕ) (t : Bytes) :
    signedInteger neg mag (t ++ q) = onto q (restOnto q) (signedInteger neg mag t) := by
  rw [signedInteger, signedInteger]
  split_ifs <;> rfl

lemma slowDecimal_onto (fc : FloatConv) (neg : Bool) (t : Bytes) :
    slowDecimal fc neg (t ++ q) = onto q (restOnto q) (slowDecimal fc neg t) := by
  rw [slowDecimal, slowDecimal, scanRun_onto hq]
  cases scanRun 10 t with
  | error e => rfl
  | ok x =>
    obtain ⟨buf, r⟩ := x
    simp only [onto]
    rw [hq.atFloatMark, slowFrac_onto hq]
    by_cases hlead : buf.head? = some Ch.zero ∧ 1 < buf.length
    · rw [if_pos hlead, if_pos hlead]
      rfl
    rw [if_neg hlead, if_neg hlead]
    by_cases hmark : atFloatMark r = true
    · rw [if_pos hmark, if_pos hmark]
      cases slowFrac ((if neg then [Ch.minus] else []) ++ buf) r with
      | error e => rfl
      | ok x =>
        simp only [onto]
        rw [slowExp_onto hq]
        cases slowExp x.1 x.2 <;> rfl
    · rw [if_neg hmark, if_neg hmark]
      cases magFrom 10 0 buf with
      | none => rfl
      | some mag => exact signedInteger_onto neg mag r

lemma radixOf_onto (t : Bytes) : radixOf (t ++ q) = radixOf t := by
  have hsecond : ∀ c, isTokenByte c = true → t.head? = some Ch.zero →
      ((t ++ q)[1]? = some c ↔ t[1]? = some c) := by
    intro c hc hhead
    obtain ⟨t, rfl⟩ := List.head?_eq_some_iff.mp hhead
    rw [List.cons_append, List.getElem?_cons_succ, List.getElem?_cons_succ,
      ← List.head?_eq_getElem?, ← List.head?_eq_getElem?]
    exact hq.head hc
  rw [radixOf, radixOf]
  by_cases hzero : t.head? = some Ch.zero
  · rw [if_pos ((hq.head (by decide)).mpr hzero), if_pos hzero]
    simp only [hsecond _ (show isTokenByte 0x78 = true by decide) hzero,
      hsecond _ (show isTokenByte 0x6F = true by decide) hzero,
      hsecond _ (show isTokenByte 0x62 = true by decide) hzero]
  · rw [if_neg (fun h => hzero ((hq.head (by decide)).mp h)), if_neg hzero]

lemma radixInteger_onto (radix : ℕ) (t : Bytes) :
    radixInteger radix (t ++ q) = onto q (restOnto q) (radixInteger radix t) := by
  rw [radixInteger, radixInteger, scanRun_onto hq]
  cases scanRun radix t with
  | error e => rfl
  | ok x =>
    simp only [onto]
    cases magFrom radix 0 x.1 with
    | none => rfl
    | some mag =>
      dsimp only
      split_ifs <;> rfl

lemma decimalFloat_onto (fc : FloatConv) (signedInput neg : Bool) {dstart ds r : Bytes}
    (hr : r <:+ dstart) : decimalFloat fc signedInput neg (dstart ++ q) ds (r ++ q) =
      onto q (restOnto q) (decimalFloat fc signedInput neg dstart ds r) := by
  have hfast : (if !signedInput || neg then floatFast fc neg (dstart ++ q) ds (r ++ q) else none) =
      (if !signedInput || neg then floatFast fc neg dstart ds r else none).map (restOnto q) := by
    rw [floatFast_onto hq fc neg hr]
    split_ifs <;> rfl
  rw [decimalFloat, decimalFloat, hfast]
  cases (if !signedInput || neg then floatFast fc neg dstart ds r else none) with
  | some x => rfl
  | none =>
    simp only [Option.map_none]
    rw [floatCopy_onto hq]
    cases floatCopy neg ds r with
    | error e => rfl
    | ok x =>
      cases x with
      | some x => rfl
      | none => exact slowDecimal_onto hq fc neg dstart

lemma decimal_onto (fc : FloatConv) (signedInput neg : Bool) (t : Bytes) :
    decimal fc signedInput neg (t ++ q) = onto q (restOnto q) (decimal fc signedInput neg t) := by
  rw [decimal, decimal]
  simp only [hq.takeWhile isTokenByte_of_isDec, hq.dropWhile isTokenByte_of_isDec, ne_eq,
    hq.head (c := Ch.under) (by decide), hq.atFloatMark,
    decimalFloat_onto hq fc signedInput neg (List.dropWhile_suffix (p := isDec) (l := t)),
    slowDecimal_onto hq]
  split_ifs <;> rfl

lemma parseUnsigned_onto (fc : FloatConv) (signedInput neg : Bool) (t : Bytes) :
    parseUnsigned fc signedInput neg (t ++ q) =
      onto q (restOnto q) (parseUnsigned fc signedInput neg t) := by
  cases t with
  | nil =>
    cases q with
    | nil => rfl
    | cons c q =>
      have hc := hq c rfl
      have hne : ∀ d, isTokenByte d = true → c ≠ d := by
        rintro d hd rfl
        rw [hc] at hd
        exact absurd hd (by decide)
      have hdec : isDec c = false :=
        Bool.eq_false_iff.mpr fun h => hne c (isTokenByte_of_isDec c h) rfl
      have hi : c ≠ 0x69 := hne _ (by decide)
      have hn : c ≠ 0x6E := hne _ (by decide)
      simp only [List.nil_append, parseUnsigned, if_neg hi, if_neg hn, hdec]
      rfl
  | cons c t =>
    have hwords : (∀ c ∈ wInf, isTokenByte c = true) ∧ ∀ c ∈ wNan, isTokenByte c = true :=
      ⟨List.all_eq_true.mp rfl, List.all_eq_true.mp rfl⟩
    have hradix : ∀ radix, radixOf (c :: t) = some radix →
        (c :: (t ++ q)).drop 2 = (c :: t).drop 2 ++ q := by
      intro radix h
      cases t with
      | nil =>
        rw [radixOf] at h
        split_ifs at h with hzero hx ho hb
        · cases hx
        · cases ho
        · cases hb
      | cons d t => rfl
    simp only [List.cons_append, parseUnsigned]
    rw [← List.cons_append, radixOf_onto hq]
    by_cases hi : c = 0x69
    · rw [if_pos hi, if_pos hi]
      exact expectWord_onto hq _ hwords.1 _
    by_cases hn : c = 0x6E
    · rw [if_neg hi, if_neg hi, if_pos hn, if_pos hn]
      exact expectWord_onto hq _ hwords.2 _
    rw [if_neg hi, if_neg hi, if_neg hn, if_neg hn]
    by_cases hdec : (!isDec c) = true
    · rw [if_pos hdec, if_pos hdec]
      rfl
    rw [if_neg hdec, if_neg hdec]
    cases hr : radixOf (c :: t) with
    | none => exact decimal_onto hq fc signedInput neg (c :: t)
    | some radix =>
      dsimp only
      split_ifs
      · rfl
      · rw [List.cons_append, hradix radix hr]
        exact radixInteger_onto hq radix _

/-- A number is read off its own bytes. -/
lemma parseNumber_onto (fc : FloatConv) (signedInput : Bool) {t : Bytes} (ht : t ≠ []) :
    parseNumber fc signedInput (t ++ q) =
      onto q (restOnto q) (parseNumber fc signedInput t) := by
  obtain ⟨c, t, rfl⟩ := List.exists_cons_of_ne_nil ht
  rw [parseNumber, parseNumber]
  split_ifs
  · exact parseUnsigned_onto hq fc true _ t
  · exact parseUnsigned_onto hq fc false false (c :: t)

end Numbers

/-! ## Scalars -/

/-- What stands behind a value, white space aside: the end of the input, a line end, a comma, a
closing bracket or a comment. -/
def EndsValue (q : Bytes) : Prop :=
  ∀ c ∈ (skipWs q).head?, c = Ch.lf ∨ c = Ch.cr ∨ c = Ch.comma ∨ c = Ch.rbrack ∨ c = Ch.rbrace ∨
    c = Ch.hash

section Ends

variable {q : Bytes} (hq : EndsValue q)
include hq

/-- The first byte itself is one of these, or white space. -/
lemma EndsValue.head : ∀ c ∈ q.head?, isWs c = true ∨ c = Ch.lf ∨ c = Ch.cr ∨ c = Ch.comma ∨
    c = Ch.rbrack ∨ c = Ch.rbrace ∨ c = Ch.hash := by
  intro c hc
  by_cases hws : isWs c = true
  · exact .inl hws
  · obtain ⟨q, rfl⟩ := List.head?_eq_some_iff.mp hc
    refine .inr (hq c ?_)
    rw [skipWs_cons q (by simpa using hws)]
    rfl

lemma EndsValue.stops : StopsToken q := by
  intro c hc
  rcases hq.head c hc with h | rfl | rfl | rfl | rfl | rfl | rfl
  · exact isTokenByte_of_isWs h
  all_goals decide

lemma EndsValue.endsNumber : EndsNumber q := by
  intro c hc
  have hstop := hq.stops c hc
  simp only [isTokenByte, Bool.or_eq_false_iff, beq_eq_false_iff_ne] at hstop
  exact ⟨hstop.1.1.1, hstop.1.1.2, hstop.2⟩

lemma EndsValue.endsDatetime : EndsDatetime q := by
  have hne : ∀ c, isTokenByte c = false → isDec c = false ∧ c ≠ Ch.dot ∧ c ≠ Ch.colon ∧
      c ≠ 0x5A ∧ c ≠ 0x7A ∧ c ≠ Ch.plus ∧ c ≠ Ch.minus := by
    intro c h
    refine ⟨Bool.eq_false_iff.mpr fun hdec => ?_, ?_, ?_, ?_, ?_, ?_, ?_⟩
    · rw [isTokenByte_of_isDec c hdec] at h
      cases h
    all_goals
      rintro rfl
      exact absurd h (by decide)
  refine ⟨fun c hc => hne c (hq.stops c hc), Bool.eq_false_iff.mpr fun htime => ?_⟩
  obtain ⟨c, t, h, m, r, hc, ht, rfl⟩ := hasTime_iff.mp htime
  rcases hc with rfl | rfl | rfl
  · exact absurd (hq.stops _ rfl) (by decide)
  · exact absurd (hq.stops _ rfl) (by decide)
  · -- behind a space, a clock starts with a digit
    obtain ⟨a, b, c, d, rfl, ha, -⟩ := ht.bytes
    have hdec : isDec a = true := ha
    have hws : isWs a = false := isWs_of_isTokenByte (isTokenByte_of_isDec a hdec)
    have hskip : skipWs ([Ch.sp] ++ (a :: b :: 0x3A :: c :: d :: r)) =
        a :: b :: 0x3A :: c :: d :: r := by
      rw [skipWs_append (fun _ h => List.mem_singleton.mp h ▸ rfl), skipWs_cons _ hws]
    have hend := hq a (by
      rw [show Ch.sp :: ([a, b, 0x3A, c, d] ++ r) =
        [Ch.sp] ++ (a :: b :: 0x3A :: c :: d :: r) from rfl, hskip]
      rfl)
    rcases hend with rfl | rfl | rfl | rfl | rfl | rfl <;> exact absurd hdec (by decide)

end Ends

/-- The scalars of a document that are no strings.  A float is a text that the number routine
reads as it stands. -/
inductive IsToken (fc : FloatConv) : Bytes → Node → Prop
  | boolean (b : Bool) : IsToken fc (boolText b) (.boolean b)
  | integer {w ds : Bytes} {i : Int64} (h : Toml.IsInteger w ds i.toInt)
      (hlen : ds.length < numMax) : IsToken fc w (.integer i)
  | datetime {w : Bytes} {x : Toml.Datetime} (h : Toml.IsDatetime IsReadTime w x) :
      IsToken fc w (datetimeNode x)
  | float {w : Bytes} {d : Double}
      (h : valueDispatch fc tooDeep tooDeep w = .ok (.float d, [])) : IsToken fc w (.float d)

section Scalars

variable {cfg : Config} {cp w r q : Bytes} {v : Node} {d : Double} {levels : ℕ}

/-- The shapes of dates and times are looked for in the text only. -/
lemma datetimeLookahead_append (hq : StopsToken q) (w : Bytes) :
    datetimeLookahead (w ++ q) = datetimeLookahead w := by
  have hdec : ∀ {n v : ℕ} {t : Bytes}, Toml.IsDigits n t v → ∀ c ∈ t, isTokenByte c = true :=
    fun h c hc => isTokenByte_of_isDec c (h.digits c hc)
  have hdate : dateShape (w ++ q) = dateShape w := by
    rw [Bool.eq_iff_iff, dateShape_iff, dateShape_iff]
    constructor
    · rintro ⟨t, d, r, ht, heq⟩
      have hbytes : ∀ c ∈ t, isTokenByte c = true := by
        obtain ⟨hy, hm, hd⟩ := ht
        intro c hc
        simp only [List.mem_append, List.mem_cons] at hc
        rcases hc with hc | rfl | hc | rfl | hc
        · exact hdec hy c hc
        · decide
        · exact hdec hm c hc
        · decide
        · exact hdec hd c hc
      obtain ⟨s, rfl⟩ := (hq.prefix_iff hbytes).mp ⟨r, heq.symm⟩
      exact ⟨t, d, s, ht, rfl⟩
    · rintro ⟨t, d, r, ht, rfl⟩
      exact ⟨t, d, r ++ q, ht, List.append_assoc _ _ _⟩
  have htime : timeShape (w ++ q) = timeShape w := by
    rw [Bool.eq_iff_iff, timeShape_iff, timeShape_iff]
    constructor
    · rintro ⟨t, h, m, r, ht, heq⟩
      have hbytes : ∀ c ∈ t, isTokenByte c = true := by
        obtain ⟨hh, hm⟩ := ht
        intro c hc
        simp only [List.mem_append, List.mem_cons] at hc
        rcases hc with hc | rfl | hc
        · exact hdec hh c hc
        · decide
        · exact hdec hm c hc
      obtain ⟨s, rfl⟩ := (hq.prefix_iff hbytes).mp ⟨r, heq.symm⟩
      exact ⟨t, h, m, s, ht, rfl⟩
    · rintro ⟨t, h, m, r, ht, rfl⟩
      exact ⟨t, h, m, r ++ q, ht, List.append_assoc _ _ _⟩
  rw [datetimeLookahead, datetimeLookahead, hdate, htime]

/-- A float is read as its text is. -/
lemma parseValue_float_iff (hq : StopsToken q) :
    parseValue cfg cp levels (w ++ q) = .ok (.float d, q) ↔
      valueDispatch cfg.fc tooDeep tooDeep w = .ok (.float d, []) := by
  have honto : ∀ {signed : Bool} {w : Bytes}, w ≠ [] →
      (parseNumber cfg.fc signed (w ++ q) = .ok (.float d, q) ↔
        parseNumber cfg.fc signed w = .ok (.float d, [])) := by
    intro signed w hne
    rw [parseNumber_onto hq cfg.fc signed hne]
    cases parseNumber cfg.fc signed w with
    | error e => simp [onto]
    | ok x =>
      obtain ⟨v, r⟩ := x
      simp [onto]
  have hdatetime : ∀ {r q : Bytes}, parseDatetime r ≠ .ok (.float d, q) := by
    intro r q h
    obtain ⟨kind, dt, hkind⟩ := parseDatetime_kind h
    cases hkind
  rw [parseValue_scalar_iff (by simp) (by simp) (by simp) (by simp),
    valueDispatch_scalar_iff (by simp) (by simp) failAt_ne_ok failAt_ne_ok]
  constructor
  · rintro ⟨c, cs, heq, h⟩
    cases w with
    | nil =>
      have hc : isTokenByte c = false := hq c (by rw [← List.nil_append q, heq]; rfl)
      exfalso
      rcases h with ⟨rfl | rfl, -⟩ | ⟨rfl | rfl, -⟩ | ⟨hdec, -⟩ | ⟨hdec, -⟩
      all_goals
        first
        | exact absurd hc (by decide)
        | exact absurd hc (by rw [isTokenByte_of_isDec c hdec]; decide)
    | cons c' w =>
      obtain ⟨rfl, -⟩ := List.cons.inj heq
      rw [honto (by simp), honto (by simp), datetimeLookahead_append hq] at h
      refine ⟨c', w, rfl, ?_⟩
      rcases h with h | h | ⟨-, -, h⟩ | h
      · exact .inl h
      · exact .inr (.inl h)
      · exact absurd h hdatetime
      · exact .inr (.inr (.inr h))
  · rintro ⟨c, w, rfl, h⟩
    rw [honto (by simp), honto (by simp), datetimeLookahead_append hq]
    refine ⟨c, w ++ q, rfl, ?_⟩
    rcases h with h | h | ⟨-, -, h⟩ | h
    · exact .inl h
    · exact .inr (.inl h)
    · exact absurd h hdatetime
    · exact .inr (.inr (.inr h))

/-- A value is a string, an array, an inline table or another scalar, by its first byte. -/
lemma valueDispatch_cases {fc : FloatConv} {array inline : Bytes → Res Node}
    (h : valueDispatch fc array inline r = .ok (v, q)) :
    (∃ basic, r.head? = some (Toml.quote basic)) ∧ parseString r = .ok (v, q) ∨
      r.head? = some Ch.lbrack ∧ array r = .ok (v, q) ∨
      r.head? = some Ch.lbrace ∧ inline r = .ok (v, q) ∨
      (∀ array inline, valueDispatch fc array inline r = .ok (v, q)) ∧
        ((∃ b, v = .boolean b) ∨ v.IsNumber ∨ ∃ kind dt, v = .datetime kind dt) := by
  obtain _ | ⟨c, cs⟩ := r
  · exact absurd h failAt_ne_ok
  by_cases hquote : c = Ch.dquote ∨ c = Ch.squote
  · rw [valueDispatch, if_pos hquote] at h
    refine .inl ⟨?_, h⟩
    rcases hquote with rfl | rfl
    · exact ⟨true, rfl⟩
    · exact ⟨false, rfl⟩
  by_cases hopen : c = Ch.lbrack
  · rw [valueDispatch, if_neg hquote, if_pos hopen] at h
    exact .inr (.inl ⟨congrArg some hopen, h⟩)
  by_cases hbrace : c = Ch.lbrace
  · rw [valueDispatch, if_neg hquote, if_neg hopen, if_pos hbrace] at h
    exact .inr (.inr (.inl ⟨congrArg some hbrace, h⟩))
  have hplain : ∀ array' inline', valueDispatch fc array' inline' (c :: cs) = .ok (v, q) := by
    intro array' inline'
    rw [← h]
    simp only [valueDispatch, if_neg hquote, if_neg hopen, if_neg hbrace]
  refine .inr (.inr (.inr ⟨hplain, ?_⟩))
  rw [valueDispatch, if_neg hquote, if_neg hopen, if_neg hbrace] at h
  split_ifs at h with ht hf hw hsign hlook hdec
  · obtain ⟨s, -, heq⟩ := map_eq_ok_iff.mp h
    exact .inl ⟨true, (Prod.mk.inj heq).1.symm⟩
  · obtain ⟨s, -, heq⟩ := map_eq_ok_iff.mp h
    exact .inl ⟨false, (Prod.mk.inj heq).1.symm⟩
  · exact .inr (.inl (isNumber_parseNumber h))
  · exact .inr (.inl (isNumber_parseNumber h))
  · exact .inr (.inr (parseDatetime_kind h))
  · exact .inr (.inl (isNumber_parseNumber h))
  · exact absurd h failAt_ne_ok

lemma boolean_sound {fc : FloatConv} {b : Bool}
    (h : valueDispatch fc tooDeep tooDeep r = .ok (.boolean b, q)) :
    r = boolText b ++ q := by
  have hword : ∀ {w : Bytes} {b' : Bool},
      (expectWord w r).map (fun r => (Node.boolean b', r)) = .ok (.boolean b, q) →
        b' = b ∧ r = w ++ q := by
    intro w b' h
    obtain ⟨s, hs, heq⟩ := map_eq_ok_iff.mp h
    obtain ⟨hb, rfl⟩ := Prod.mk.inj heq
    rw [expectWord] at hs
    split_ifs at hs with hprefix
    · obtain rfl := Except.ok.inj hs
      obtain ⟨s, rfl⟩ := hprefix
      exact ⟨Node.boolean.inj hb, by rw [List.drop_left]⟩
    · exact absurd hs failAt_ne_ok
  obtain _ | ⟨c, cs⟩ := r
  · exact absurd h failAt_ne_ok
  rw [valueDispatch] at h
  split_ifs at h with hquote hopen hbrace ht hf hw hsign hlook hdec
  · obtain ⟨s, hs⟩ := parseString_kind h
    cases hs
  · exact absurd h failAt_ne_ok
  · exact absurd h failAt_ne_ok
  · obtain ⟨rfl, heq⟩ := hword h
    exact heq
  · obtain ⟨rfl, heq⟩ := hword h
    exact heq
  · exact (isNumber_parseNumber h).elim
  · exact (isNumber_parseNumber h).elim
  · obtain ⟨kind, dt, hkind⟩ := parseDatetime_kind h
    cases hkind
  · exact (isNumber_parseNumber h).elim
  · exact absurd h failAt_ne_ok

/-- A scalar that is read is one. -/
lemma scalar_sound (hq : EndsValue q)
    (h : ∀ array inline, valueDispatch cfg.fc array inline r = .ok (v, q))
    (hv : (∃ b, v = .boolean b) ∨ v.IsNumber ∨ ∃ kind dt, v = .datetime kind dt) :
    ∃ w, r = w ++ q ∧ IsToken cfg.fc w v := by
  have hread : parseValue cfg [] 0 r = .ok (v, q) := h _ _
  rcases hv with ⟨b, rfl⟩ | hv | ⟨kind, dt, rfl⟩
  · exact ⟨_, boolean_sound (h _ _), .boolean b⟩
  · cases v with
    | integer i =>
      obtain ⟨w, ds, heq, hint, hlen⟩ := parseValue_integer_sound hread
      exact ⟨w, heq, .integer hint hlen⟩
    | float d =>
      obtain ⟨w, rfl⟩ := (parseValue_ok cfg [] 0 _ _ _ hread).1.suffix
      exact ⟨w, rfl, .float ((parseValue_float_iff hq.stops).mp hread)⟩
    | _ => exact hv.elim
  · obtain ⟨hlook, hdt⟩ := parseValue_datetime_iff.mp hread
    obtain ⟨w, x, heq, hx, hnode⟩ := parseDatetime_sound hlook hdt
    exact ⟨w, heq, hnode ▸ .datetime hx⟩

/-- A scalar is read up to its end, at every level. -/
lemma scalar_complete (hq : EndsValue q) (h : IsToken cfg.fc w v) :
    parseValue cfg cp levels (w ++ q) = .ok (v, q) := by
  cases h with
  | boolean b =>
    have hread : ∀ array inline, valueDispatch cfg.fc array inline
        (boolText b ++ q) = .ok (.boolean b, q) := by
      intro array inline
      cases b <;> rfl
    cases levels <;> exact hread _ _
  | integer h hlen => exact parseValue_integer_complete h hlen hq.endsNumber
  | @datetime _ x h =>
    obtain ⟨kind, dt, hnode⟩ : ∃ kind dt, datetimeNode x = .datetime kind dt := by
      cases x <;> exact ⟨_, _, rfl⟩
    have hread := parseDatetime_reads h hq.endsDatetime
    rw [hnode] at hread ⊢
    exact parseValue_datetime_iff.mpr hread
  | float h => exact (parseValue_float_iff hq.stops).mpr h

/-- A number is nothing but bytes of a token. -/
lemma parseNumber_bytes {c : UInt8} {signed : Bool} (hc : isTokenByte c = true)
    (h : parseNumber cfg.fc signed (c :: w) = .ok (v, [])) :
    ∀ d ∈ c :: w, isTokenByte d = true := by
  intro d hd
  by_contra hne
  obtain ⟨a, b, hsplit⟩ := List.append_of_mem hd
  have hstop : StopsToken (d :: b) := by
    intro e he
    obtain rfl := Option.some.inj he
    simpa using hne
  cases a with
  | nil =>
    obtain ⟨rfl, -⟩ := List.cons.inj hsplit
    exact hne hc
  | cons e a =>
    -- what stands from that byte on is left
    rw [hsplit, parseNumber_onto hstop cfg.fc signed (List.cons_ne_nil e a)] at h
    cases hread : parseNumber cfg.fc signed (e :: a) with
    | error e =>
      rw [hread] at h
      cases h
    | ok x =>
      rw [hread] at h
      have hrest := (Prod.mk.inj (Except.ok.inj h)).2
      exact absurd hrest (by simp)

/-- Nothing but bytes of a token. -/
def IsSolidToken (t : Bytes) : Prop := t ≠ [] ∧ ∀ c ∈ t, isTokenByte c = true

lemma isSolidToken_clock {t : Bytes} {h m : ℕ} (ht : Toml.IsClock t h m) : IsSolidToken t := by
  obtain ⟨a, b, c, d, rfl, ha, hb, hc, hd, -⟩ := ht.bytes
  refine ⟨by simp, fun e he => ?_⟩
  simp only [List.mem_cons, List.not_mem_nil, or_false] at he
  rcases he with rfl | rfl | rfl | rfl | rfl
  · exact isTokenByte_of_isDec _ ha
  · exact isTokenByte_of_isDec _ hb
  · decide
  · exact isTokenByte_of_isDec _ hc
  · exact isTokenByte_of_isDec _ hd

lemma IsSolidToken.append {t u : Bytes} (ht : IsSolidToken t)
    (hu : ∀ c ∈ u, isTokenByte c = true) : IsSolidToken (t ++ u) :=
  ⟨fun h => ht.1 (List.append_eq_nil_iff.mp h).1,
    fun c hc => (List.mem_append.mp hc).elim (ht.2 c) (hu c)⟩

lemma isSolidToken_time {t : Bytes} {x : Toml.Time} (ht : IsReadTime t x) : IsSolidToken t := by
  have hfrac : ∀ {tf : Bytes} {ns : ℕ}, Toml.IsSecFrac tf ns → ∀ c ∈ tf, isTokenByte c = true := by
    intro tf ns hf c hc
    obtain ⟨hds, -⟩ := hf
    rcases List.mem_cons.mp hc with rfl | hc
    · decide
    · exact isTokenByte_of_isDec c (hds c hc)
  have hsecond : ∀ {ts : Bytes} {s : ℕ}, Toml.IsDigits 2 ts s →
      ∀ c ∈ (Ch.colon :: ts : Bytes), isTokenByte c = true := by
    intro ts s hs c hc
    rcases List.mem_cons.mp hc with rfl | hc
    · decide
    · exact isTokenByte_of_isDec c (hs.digits c hc)
  rcases ht with ht | ht
  · cases ht with
    | minutes ht => exact isSolidToken_clock ht.text
    | seconds ht hs hle => exact (isSolidToken_clock ht.text).append (hsecond hs)
    | fraction ht hs hle hf =>
      rw [← List.cons_append, ← List.append_assoc]
      exact ((isSolidToken_clock ht.text).append (hsecond hs)).append (hfrac hf)
  · obtain ⟨ht, hf⟩ := ht
    exact (isSolidToken_clock ht.text).append (hfrac hf)

lemma isSolidToken_date {t : Bytes} {x : Toml.Date} (ht : Toml.IsDate t x) : IsSolidToken t := by
  obtain ⟨hy, hm, hd⟩ := ht.text
  refine ⟨by simp, fun c hc => ?_⟩
  simp only [List.mem_append, List.mem_cons] at hc
  rcases hc with hc | rfl | hc | rfl | hc
  · exact isTokenByte_of_isDec c (hy.digits c hc)
  · decide
  · exact isTokenByte_of_isDec c (hm.digits c hc)
  · decide
  · exact isTokenByte_of_isDec c (hd.digits c hc)

/-- A token ends with bytes of a token, and has at most spaces between them. -/
lemma isToken_bytes (h : IsToken cfg.fc w v) : ∃ a u, w = a ++ u ∧ IsSolidToken u ∧
    ∀ c ∈ a, isTokenByte c = true ∨ c = Ch.sp := by
  have hnumber : ∀ {v : Node}, v.IsNumber → parseValue cfg [] 0 w = .ok (v, []) →
      IsSolidToken w := by
    intro v hv hread
    have hne : (∀ s, v ≠ .string s) ∧ (∀ b, v ≠ .boolean b) ∧ (∀ items, v ≠ .array false items) ∧
        ∀ es, v ≠ .table .inline es := by
      cases v with
      | integer | float => simp
      | _ => exact hv.elim
    obtain ⟨c, cs, rfl, hc⟩ :=
      (parseValue_scalar_iff hne.1 hne.2.1 hne.2.2.1 hne.2.2.2).mp hread
    refine ⟨by simp, ?_⟩
    rcases hc with ⟨hc, h⟩ | ⟨hc, h⟩ | ⟨-, -, h⟩ | ⟨hc, -, h⟩
    · exact parseNumber_bytes (by rcases hc with rfl | rfl <;> decide) h
    · exact parseNumber_bytes (by rcases hc with rfl | rfl <;> decide) h
    · obtain ⟨kind, dt, rfl⟩ := parseDatetime_kind h
      exact hv.elim
    · exact parseNumber_bytes (isTokenByte_of_isDec c hc) h
  have hread : parseValue cfg [] 0 (w ++ []) = .ok (v, []) :=
    scalar_complete (fun _ hc => by cases hc) h
  rw [List.append_nil] at hread
  have hdate : ∀ {td : Bytes} {c : UInt8} {d : Toml.Date}, Toml.IsDate td d → Toml.IsDelim c →
      ∀ b ∈ td ++ [c], isTokenByte b = true ∨ b = Ch.sp := by
    intro td c d hd hc b hb
    rcases List.mem_append.mp hb with hb | hb
    · exact .inl ((isSolidToken_date hd).2 b hb)
    · obtain rfl := List.mem_singleton.mp hb
      rcases hc with rfl | rfl | rfl
      · exact .inl (by decide)
      · exact .inl (by decide)
      · exact .inr rfl
  cases h with
  | boolean b =>
    exact ⟨[], boolText b, rfl, by cases b <;> exact ⟨by decide, List.all_eq_true.mp rfl⟩, by simp⟩
  | @integer w ds i h hlen =>
    exact ⟨[], w, rfl, hnumber (show (Node.integer i).IsNumber from trivial) hread, by simp⟩
  | @float w f h =>
    exact ⟨[], w, rfl, hnumber (show (Node.float f).IsNumber from trivial) hread, by simp⟩
  | datetime h =>
    cases h with
    | @offset td tt tz c d t o hd hc ht ho =>
      have hoffset : ∀ b ∈ tz, isTokenByte b = true := by
        cases ho with
        | upper | lower => exact List.all_eq_true.mp rfl
        | east h | west h =>
          intro b hb
          rcases List.mem_cons.mp hb with rfl | hb
          · decide
          · exact (isSolidToken_clock h.text).2 b hb
      exact ⟨td ++ [c], tt ++ tz, by simp, (isSolidToken_time ht).append hoffset, hdate hd hc⟩
    | @localDatetime td tt c d t hd hc ht =>
      exact ⟨td ++ [c], tt, by simp, isSolidToken_time ht, hdate hd hc⟩
    | localDate hd => exact ⟨[], _, rfl, isSolidToken_date hd, by simp⟩
    | localTime ht => exact ⟨[], _, rfl, isSolidToken_time ht, by simp⟩

end Scalars

end Teptris
