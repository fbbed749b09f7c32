import Teptris.Grammar.Datetime

/-!
# Integers and their grammar

What the number parser takes for an integer, against the integers of TOML: the fast path, the
plain path and the path with underscores read the same texts, and the radix prefixes are read as
the grammar has them.
-/

namespace Teptris

/-! ## Runs of digits -/

/-- Nothing a run of digits goes on with. -/
def EndsRun (radix : ℕ) (q : Bytes) : Prop :=
  ∀ c ∈ q.head?, digitFor c radix = false ∧ c ≠ Ch.under

lemma digitFor_under (radix : ℕ) : digitFor Ch.under radix = false := by
  unfold digitFor
  split_ifs <;> decide

/-- What `scan_run` reads is a run, behind the underscore of a digit before it. -/
lemma scanRunFrom_sound {radix : ℕ} {buf r out q : Bytes} {prev : Bool}
    (hbuf : buf.length < numMax) (h : scanRunFrom radix buf prev r = .ok (out, q)) :
    EndsRun radix q ∧ out.length < numMax ∧
      ((prev = true ∧ out = buf ∧ r = q) ∨
        ∃ t ds, Toml.IsRun (digitFor · radix) t ds ∧ out = buf ++ ds ∧
          (r = t ++ q ∨ prev = true ∧ r = Ch.under :: (t ++ q))) := by
  induction r generalizing buf prev with
  | nil =>
    rw [scanRunFrom, scanRunFrom.finish] at h
    split_ifs at h with hlen hprev
    · exact absurd h failAt_ne_ok
    · exact absurd h failAt_ne_ok
    · obtain ⟨rfl, rfl⟩ := Prod.mk.inj (Except.ok.inj h)
      exact ⟨by simp [EndsRun], hbuf, .inl ⟨by simpa using hprev, rfl, rfl⟩⟩
  | cons c cs ih =>
    rw [scanRunFrom] at h
    split_ifs at h with hdigit hlen hunder hprev
    · exact absurd h failAt_ne_ok
    · have hlong : (buf ++ [c]).length < numMax := by
        rw [List.length_append, List.length_singleton]
        have : numMax = 512 := rfl
        omega
      obtain ⟨hq, hout, hcases⟩ := ih hlong h
      refine ⟨hq, hout, .inr ?_⟩
      rcases hcases with ⟨-, rfl, rfl⟩ | ⟨t, ds, hrun, rfl, rfl | ⟨-, rfl⟩⟩
      · exact ⟨[c], [c], .one hdigit, rfl, .inl rfl⟩
      · exact ⟨c :: t, c :: ds, .digit hdigit hrun, by simp, .inl rfl⟩
      · exact ⟨c :: Ch.under :: t, c :: ds, .under hdigit hrun, by simp, .inl rfl⟩
    · exact absurd h failAt_ne_ok
    · obtain ⟨hq, hout, hcases⟩ := ih hbuf h
      refine ⟨hq, hout, .inr ?_⟩
      subst hunder
      rcases hcases with ⟨hfalse, -⟩ | ⟨t, ds, hrun, rfl, rfl | ⟨hfalse, -⟩⟩
      · exact absurd hfalse (by decide)
      · exact ⟨t, ds, hrun, rfl, .inr ⟨by simpa using hprev, rfl⟩⟩
      · exact absurd hfalse (by decide)
    · rw [scanRunFrom.finish] at h
      split_ifs at h with hempty hprev
      · exact absurd h failAt_ne_ok
      · exact absurd h failAt_ne_ok
      · obtain ⟨rfl, rfl⟩ := Prod.mk.inj (Except.ok.inj h)
        refine ⟨?_, hbuf, .inl ⟨by simpa using hprev, rfl, rfl⟩⟩
        intro d hd
        obtain rfl := Option.some.inj hd
        exact ⟨Bool.eq_false_iff.mpr hdigit, hunder⟩

/-- The end of a run ends the loop. -/
lemma scanRunFrom_end {radix : ℕ} {buf q : Bytes} (hq : EndsRun radix q) (hbuf : buf ≠ []) :
    scanRunFrom radix buf true q = .ok (buf, q) := by
  have hlen : ¬ buf.length = 0 := fun h => hbuf (List.length_eq_zero_iff.mp h)
  have hfinish : scanRunFrom.finish buf true q = .ok (buf, q) := by
    rw [scanRunFrom.finish, if_neg hlen]
    rfl
  cases q with
  | nil => rw [scanRunFrom, hfinish]
  | cons c cs =>
    obtain ⟨hdigit, hunder⟩ := hq c rfl
    rw [scanRunFrom, if_neg (by simp [hdigit]), if_neg hunder, hfinish]

/-- A run is read up to its end. -/
lemma scanRunFrom_complete {radix : ℕ} {t ds q : Bytes}
    (h : Toml.IsRun (digitFor · radix) t ds) (hq : EndsRun radix q) {buf : Bytes} {prev : Bool}
    (hlen : (buf ++ ds).length < numMax) :
    scanRunFrom radix buf prev (t ++ q) = .ok (buf ++ ds, q) := by
  have hroom : ∀ {c : UInt8} {ds : Bytes} {buf : Bytes}, (buf ++ c :: ds).length < numMax →
      ¬ buf.length = numMax - 1 := by
    intro c ds buf h
    rw [List.length_append, List.length_cons] at h
    omega
  induction h generalizing buf prev with
  | @one c hc =>
    rw [List.singleton_append, scanRunFrom, if_pos hc, if_neg (hroom hlen)]
    exact scanRunFrom_end hq (by simp)
  | @digit c t ds hc h ih =>
    have hfull := hroom hlen
    rw [List.append_cons] at hlen ⊢
    rw [List.cons_append, scanRunFrom, if_pos hc, if_neg hfull]
    exact ih hlen
  | @under c t ds hc h ih =>
    have hfull := hroom hlen
    rw [List.append_cons] at hlen ⊢
    have hskip : ∀ b, scanRunFrom radix b true (Ch.under :: (t ++ q)) =
        scanRunFrom radix b false (t ++ q) := by
      intro b
      rw [scanRunFrom, if_neg (by simp [digitFor_under]), if_pos rfl]
      rfl
    rw [List.cons_append, scanRunFrom, if_pos hc, if_neg hfull]
    exact (hskip _).trans (ih hlen)

/-- `scan_run` reads the runs of at most 511 digits. -/
lemma scanRun_iff {radix : ℕ} {r ds q : Bytes} : scanRun radix r = .ok (ds, q) ↔
    ∃ t, Toml.IsRun (digitFor · radix) t ds ∧ ds.length < numMax ∧ EndsRun radix q ∧
      r = t ++ q := by
  constructor
  · intro h
    obtain ⟨hq, hlen, hcases⟩ := scanRunFrom_sound (by decide) h
    rcases hcases with ⟨hfalse, -⟩ | ⟨t, ds', hrun, hds, hr | ⟨hfalse, -⟩⟩
    · exact absurd hfalse (by decide)
    · rw [List.nil_append] at hds
      exact ⟨t, hds ▸ hrun, hlen, hq, hr⟩
    · exact absurd hfalse (by decide)
  · rintro ⟨t, hrun, hlen, hq, rfl⟩
    exact scanRunFrom_complete hrun hq hlen

/-! ## Magnitudes -/

/-- `hexval` gives the value of a digit. -/
lemma hexVal_eq {c : UInt8} (h : isHex c = true) : hexVal c = Toml.digitValue c := by
  simp only [isHex, isDec, Bool.or_eq_true, Bool.and_eq_true, decide_eq_true_eq,
    UInt8.le_iff_toNat_le] at h
  have hnine : (0x39 : UInt8).toNat = 0x39 := rfl
  have hF : (0x46 : UInt8).toNat = 0x46 := rfl
  have hlower : ∀ i < 6, (0x61 + i ||| 0x20) - 0x61 + 10 = 0x61 + i - 0x57 := by decide
  have hupper : ∀ i < 6, (0x41 + i ||| 0x20) - 0x61 + 10 = 0x41 + i - 0x37 := by decide
  have hbit : (c ||| 0x20).toNat = c.toNat ||| 0x20 := UInt8.toNat_or c 0x20
  simp only [hexVal, Toml.digitValue, UInt8.le_iff_toNat_le, hnine, hF, hbit]
  rcases h with (h | ⟨h, h'⟩) | ⟨h, h'⟩
  · have hle : c.toNat ≤ 0x39 := h.2
    rw [if_pos hle, if_pos hle]
  · obtain ⟨i, hi⟩ := Nat.exists_eq_add_of_le (show 0x61 ≤ c.toNat from h)
    rw [hi] at h' ⊢
    rw [if_neg (by omega), if_neg (by omega), if_neg (by omega)]
    exact hlower i (Nat.lt_succ_of_le (Nat.add_le_add_iff_left.mp h'))
  · obtain ⟨i, hi⟩ := Nat.exists_eq_add_of_le (show 0x41 ≤ c.toNat from h)
    rw [hi] at h' ⊢
    have hi5 : i ≤ 5 := Nat.add_le_add_iff_left.mp h'
    rw [if_neg (by omega), if_neg (by omega), if_pos (by omega)]
    exact hupper i (Nat.lt_succ_of_le hi5)

/-- A digit to one of the four bases is a hexadecimal one. -/
lemma isHex_of_digitFor {c : UInt8} {radix : ℕ} (h : digitFor c radix = true) :
    isHex c = true := by
  unfold digitFor at h
  split_ifs at h <;> grind [isHex, isDec]

lemma digitFor_ten : (digitFor · 10) = Toml.isDigit := rfl

lemma digitFor_sixteen : (digitFor · 16) = Toml.isHexDigit := rfl

lemma digitFor_eight : (digitFor · 8) = Toml.isOctDigit := rfl

lemma digitFor_two : (digitFor · 2) = Toml.isBinDigit := rfl

/-- `mag_from` sums up a run where its value is below `2 ^ 64`. -/
lemma magFrom_eq {radix : ℕ} (hradix : 0 < radix) {ds : Bytes} (hds : ∀ c ∈ ds, isHex c = true)
    {v : ℕ} (hv : v < 2 ^ 64) : magFrom radix v ds =
      if Toml.runFrom radix v ds < 2 ^ 64 then some (Toml.runFrom radix v ds) else none := by
  induction ds generalizing v with
  | nil => exact (if_pos hv).symm
  | cons c cs ih =>
    have hval := hexVal_eq (hds c (by simp))
    have hsmall := hexVal_lt (hds c (by simp))
    have hstep : Toml.runFrom radix v (c :: cs) =
        Toml.runFrom radix (v * radix + Toml.digitValue c) cs := rfl
    have hguard : (2 ^ 64 - 1 - hexVal c) / radix < v ↔ 2 ^ 64 ≤ v * radix + hexVal c := by
      rw [Nat.div_lt_iff_lt_mul hradix]
      omega
    rw [magFrom, hstep, ← hval]
    by_cases hover : 2 ^ 64 ≤ v * radix + hexVal c
    · have hle := Toml.le_runFrom hradix (v * radix + hexVal c) cs
      rw [if_pos (hguard.mpr hover), if_neg (by omega)]
    · rw [if_neg (fun h => hover (hguard.mp h))]
      exact ih (fun d hd => hds d (by simp [hd])) (by omega)

/-- A stored integer with the given sign and magnitude. -/
lemma signedInteger_iff {neg : Bool} {mag : ℕ} {r q : Bytes} {i : Int64} :
    signedInteger neg mag r = .ok (.integer i, q) ↔
      q = r ∧ i.toInt = if neg then -(mag : ℤ) else mag := by
  have hlow : (-2 ^ 63 : ℤ) ≤ i.toInt := i.le_toInt
  have hhigh := i.toInt_lt
  have hok : ∀ j : Int64, (Except.ok (Node.integer j, r) : Res Node) = .ok (.integer i, q) ↔
      q = r ∧ i.toInt = j.toInt := by
    intro j
    rw [Except.ok.injEq, Prod.mk.injEq, Node.integer.injEq, Int64.toInt_inj, eq_comm (a := q),
      eq_comm (a := i)]
    exact and_comm
  have hfail : ∀ n : ℤ, ¬ (-2 ^ 63 ≤ n ∧ n < 2 ^ 63) →
      ((failAt r .errSyntax "integer out of range" : Res Node) = .ok (.integer i, q) ↔
        q = r ∧ i.toInt = n) := by
    intro n hn
    refine iff_of_false failAt_ne_ok fun h => hn ?_
    rw [← h.2]
    exact ⟨hlow, hhigh⟩
  cases neg with
  | true =>
    rw [signedInteger, if_pos rfl, if_pos rfl]
    by_cases hbig : 2 ^ 63 < mag
    · rw [if_pos hbig]
      exact hfail _ (by omega)
    · rw [if_neg hbig, hok]
      have hval :
          (if mag = 2 ^ 63 then Int64.minValue else -Int64.ofNat mag).toInt = -(mag : ℤ) := by
        split_ifs with hmin
        · rw [Int64.toInt_minValue]
          omega
        · rw [Int64.toInt_neg, Int64.toInt_ofNat_of_lt (by omega),
            Int.bmod_eq_of_le (by omega) (by omega)]
      rw [hval]
  | false =>
    rw [signedInteger, if_neg Bool.false_ne_true, if_neg Bool.false_ne_true]
    by_cases hbig : 2 ^ 63 - 1 < mag
    · rw [if_pos hbig]
      exact hfail _ (by omega)
    · rw [if_neg hbig, hok, Int64.toInt_ofNat_of_lt (by omega)]

/-! ## Decimal integers -/

section Decimal

variable {fc : FloatConv} {neg : Bool} {r q : Bytes} {i : Int64}

/-- `slow_decimal` reads the decimal integers. -/
lemma slowDecimal_integer_iff : slowDecimal fc neg r = .ok (.integer i, q) ↔
    ∃ t ds, Toml.IsDecimal t ds ∧ ds.length < numMax ∧ EndsRun 10 q ∧ atFloatMark q = false ∧
      r = t ++ q ∧ i.toInt = if neg then -(Toml.runValue 10 ds : ℤ) else Toml.runValue 10 ds := by
  have hlead : ∀ {t ds : Bytes}, Toml.IsRun Toml.isDigit t ds →
      (¬ (ds.head? = some Ch.zero ∧ 1 < ds.length) ↔ Toml.IsDecimal t ds) := by
    intro t ds hrun
    obtain ⟨c, t', ds', rfl, rfl, -⟩ := hrun.head
    constructor
    · intro h
      refine ⟨hrun, fun hz => ?_⟩
      obtain rfl := Option.some.inj hz
      cases ds' with
      | nil => rfl
      | cons d ds' => exact absurd ⟨rfl, by simp⟩ h
    · rintro h ⟨hz, hlong⟩
      rw [h.lead hz] at hlong
      exact absurd hlong (by decide)
  have hsum : ∀ {t ds : Bytes}, Toml.IsRun Toml.isDigit t ds → magFrom 10 0 ds =
      if Toml.runValue 10 ds < 2 ^ 64 then some (Toml.runValue 10 ds) else none := fun hrun =>
    magFrom_eq (by decide) (fun c hc => @isHex_of_digitFor _ 10 (hrun.digits c hc))
      (by decide)
  constructor
  · intro h
    unfold slowDecimal at h
    split at h
    · cases h
    · next ds s hscan =>
      obtain ⟨t, hrun, hlen, hends, rfl⟩ := scanRun_iff.mp hscan
      by_cases hzero : ds.head? = some Ch.zero ∧ 1 < ds.length
      · rw [if_pos hzero] at h
        exact absurd h failAt_ne_ok
      rw [if_neg hzero] at h
      by_cases hmark : atFloatMark s = true
      · rw [if_pos hmark] at h
        split at h
        · cases h
        · split at h <;> cases h
      rw [if_neg hmark, hsum hrun] at h
      split_ifs at h with hsmall
      · obtain ⟨rfl, hval⟩ := signedInteger_iff.mp h
        exact ⟨t, ds, (hlead hrun).mp hzero, hlen, hends, by simpa using hmark, rfl, hval⟩
      · exact absurd h failAt_ne_ok
  · rintro ⟨t, ds, hdec, hlen, hends, hmark, rfl, hval⟩
    have hscan : scanRun 10 (t ++ q) = .ok (ds, q) :=
      scanRun_iff.mpr ⟨t, hdec.run, hlen, hends, rfl⟩
    have hsmall : Toml.runValue 10 ds < 2 ^ 64 := by
      have hlow : (-2 ^ 63 : ℤ) ≤ i.toInt := i.le_toInt
      have hhigh := i.toInt_lt
      split_ifs at hval <;> omega
    rw [slowDecimal, hscan]
    dsimp only
    rw [if_neg ((hlead hdec.run).mpr hdec), hmark, if_neg (by decide), hsum hdec.run, if_pos hsmall]
    exact signedInteger_iff.mpr ⟨rfl, hval⟩

/-- The plain path reads an integer as `slow_decimal` does. -/
lemma decimal_integer_iff {signedInput : Bool} :
    decimal fc signedInput neg r = .ok (.integer i, q) ↔
      slowDecimal fc neg r = .ok (.integer i, q) := by
  have hdec : ∀ c ∈ r.takeWhile isDec, isDec c = true := fun c hc => List.mem_takeWhile_imp hc
  have hends : (r.dropWhile isDec).head? ≠ some Ch.under → EndsRun 10 (r.dropWhile isDec) := by
    intro hunder c hc
    have hnot := List.head?_dropWhile_not isDec r
    rw [show (r.dropWhile isDec).head? = some c from hc] at hnot
    exact ⟨hnot, fun h => hunder (h ▸ hc)⟩
  unfold decimal
  dsimp only
  by_cases hplain : 0 < (r.takeWhile isDec).length ∧ (r.takeWhile isDec).length ≤ 18 ∧
      (r.dropWhile isDec).head? ≠ some Ch.under
  swap
  · rw [if_neg hplain]
  rw [if_pos hplain]
  have hrun : Toml.IsRun Toml.isDigit (r.takeWhile isDec) (r.takeWhile isDec) :=
    Toml.isRun_self hdec (List.length_pos_iff.mp hplain.1)
  have hscan : scanRun 10 r = .ok (r.takeWhile isDec, r.dropWhile isDec) :=
    scanRun_iff.mpr ⟨_, hrun, lt_of_le_of_lt hplain.2.1 (by decide), hends hplain.2.2,
      List.takeWhile_append_dropWhile.symm⟩
  by_cases hzero : (r.takeWhile isDec).head? = some Ch.zero ∧ 1 < (r.takeWhile isDec).length
  · rw [if_pos hzero, slowDecimal, hscan]
    dsimp only
    rw [if_pos hzero]
  rw [if_neg hzero]
  by_cases hmark : atFloatMark (r.dropWhile isDec) = true
  · rw [if_pos hmark]
    constructor
    · intro h
      unfold decimalFloat at h
      split at h
      · cases h
      · split at h
        · cases h
        · cases h
        · exact h
    · intro h
      obtain ⟨t, ds, hdecimal, hlen, hq, hno, hr, -⟩ := slowDecimal_integer_iff.mp h
      have hagain : scanRun 10 r = .ok (ds, q) :=
        scanRun_iff.mpr ⟨t, hdecimal.run, hlen, hq, hr⟩
      obtain ⟨-, rfl⟩ := Prod.mk.inj (Except.ok.inj (hagain.symm.trans hscan))
      rw [hmark] at hno
      exact absurd hno (by decide)
  · rw [if_neg hmark]
    have hlt : decFrom 0 (r.takeWhile isDec) < 10 ^ 18 := by
      have hbound := decFrom_lt hdec 0
      rw [Nat.zero_add, Nat.one_mul] at hbound
      exact lt_of_lt_of_le hbound (Nat.pow_le_pow_right (by decide) hplain.2.1)
    have hsum := @magFrom_digits _ hdec 0 (lt_trans hlt (by decide))
    rw [slowDecimal, hscan]
    dsimp only
    rw [if_neg hzero, if_neg hmark, hsum]
    dsimp only
    rw [signedInteger]
    cases neg with
    | true => rw [if_pos rfl, if_pos rfl, if_neg (by omega), if_neg (by omega)]
    | false => rw [if_neg Bool.false_ne_true, if_neg Bool.false_ne_true, if_neg (by omega)]

end Decimal

/-! ## The dispatch -/

section Dispatch

variable {fc : FloatConv} {r q : Bytes} {i : Int64}

/-- The integers behind a radix prefix. -/
lemma radixInteger_iff {radix : ℕ} (hradix : 0 < radix) :
    radixInteger radix r = .ok (.integer i, q) ↔
      ∃ t ds, Toml.IsRun (digitFor · radix) t ds ∧ ds.length < numMax ∧ EndsRun radix q ∧
        r = t ++ q ∧ i.toInt = Toml.runValue radix ds := by
  have hsum : ∀ {t ds : Bytes}, Toml.IsRun (digitFor · radix) t ds → magFrom radix 0 ds =
      if Toml.runValue radix ds < 2 ^ 64 then some (Toml.runValue radix ds) else none := fun hrun =>
    magFrom_eq hradix (fun c hc => isHex_of_digitFor (hrun.digits c hc)) (by decide)
  have hstored : ∀ {mag : ℕ} {s : Bytes}, (if 2 ^ 63 - 1 < mag then
      (failAt s .errSyntax "integer out of range" : Res Node)
        else .ok (.integer (Int64.ofNat mag), s)) =
          .ok (.integer i, q) ↔ q = s ∧ i.toInt = mag :=
    fun {mag s} => @signedInteger_iff false mag s q i
  constructor
  · intro h
    unfold radixInteger at h
    split at h
    · cases h
    · next ds s hscan =>
      obtain ⟨t, hrun, hlen, hends, rfl⟩ := scanRun_iff.mp hscan
      rw [hsum hrun] at h
      by_cases hsmall : Toml.runValue radix ds < 2 ^ 64
      · rw [if_pos hsmall] at h
        obtain ⟨rfl, hval⟩ := hstored.mp h
        exact ⟨t, ds, hrun, hlen, hends, rfl, hval⟩
      · rw [if_neg hsmall] at h
        exact absurd h failAt_ne_ok
  · rintro ⟨t, ds, hrun, hlen, hends, rfl, hval⟩
    have hscan : scanRun radix (t ++ q) = .ok (ds, q) := scanRun_iff.mpr ⟨t, hrun, hlen, hends, rfl⟩
    have hsmall : Toml.runValue radix ds < 2 ^ 64 := by
      have hhigh := i.toInt_lt
      omega
    rw [radixInteger, hscan]
    dsimp only
    rw [hsum hrun, if_pos hsmall]
    exact hstored.mpr ⟨rfl, hval⟩

/-- The radix prefixes. -/
lemma radixOf_iff {radix : ℕ} : radixOf r = some radix ↔
    ∃ cs, (radix = 16 ∧ r = 0x30 :: 0x78 :: cs) ∨ (radix = 8 ∧ r = 0x30 :: 0x6F :: cs) ∨
      (radix = 2 ∧ r = 0x30 :: 0x62 :: cs) := by
  constructor
  · intro h
    unfold radixOf at h
    split_ifs at h with hz hx ho hb
    · obtain ⟨cs, rfl⟩ := List.head?_eq_some_iff.mp hz
      obtain ⟨ds, rfl⟩ := List.head?_eq_some_iff.mp (List.head?_eq_getElem?.trans hx)
      exact ⟨ds, .inl ⟨(Option.some.inj h).symm, rfl⟩⟩
    · obtain ⟨cs, rfl⟩ := List.head?_eq_some_iff.mp hz
      obtain ⟨ds, rfl⟩ := List.head?_eq_some_iff.mp (List.head?_eq_getElem?.trans ho)
      exact ⟨ds, .inr (.inl ⟨(Option.some.inj h).symm, rfl⟩)⟩
    · obtain ⟨cs, rfl⟩ := List.head?_eq_some_iff.mp hz
      obtain ⟨ds, rfl⟩ := List.head?_eq_some_iff.mp (List.head?_eq_getElem?.trans hb)
      exact ⟨ds, .inr (.inr ⟨(Option.some.inj h).symm, rfl⟩)⟩
  · rintro ⟨cs, ⟨rfl, rfl⟩ | ⟨rfl, rfl⟩ | ⟨rfl, rfl⟩⟩ <;> rfl

/-- An integer starts with a digit behind its sign. -/
lemma integer_digit {signedInput neg : Bool}
    (h : (∃ radix, radixOf r = some radix ∧ signedInput = false ∧
        radixInteger radix (r.drop 2) = .ok (.integer i, q)) ∨
      radixOf r = none ∧ slowDecimal fc neg r = .ok (.integer i, q)) :
    ∃ c cs, r = c :: cs ∧ isDec c = true := by
  rcases h with ⟨radix, hradix, -⟩ | ⟨-, hslow⟩
  · obtain ⟨cs, ⟨-, rfl⟩ | ⟨-, rfl⟩ | ⟨-, rfl⟩⟩ := radixOf_iff.mp hradix
    · exact ⟨_, _, rfl, by decide⟩
    · exact ⟨_, _, rfl, by decide⟩
    · exact ⟨_, _, rfl, by decide⟩
  · obtain ⟨t, ds, hdec, -, -, -, rfl, -⟩ := slowDecimal_integer_iff.mp hslow
    obtain ⟨c, t', ds', rfl, -, hc⟩ := hdec.run.head
    exact ⟨c, _, rfl, hc⟩

/-- The integers behind a sign, or without one. -/
lemma parseUnsigned_integer_iff {signedInput neg : Bool} :
    parseUnsigned fc signedInput neg r = .ok (.integer i, q) ↔
      (∃ radix, radixOf r = some radix ∧ signedInput = false ∧
        radixInteger radix (r.drop 2) = .ok (.integer i, q)) ∨
      radixOf r = none ∧ slowDecimal fc neg r = .ok (.integer i, q) := by
  have hdigit : ∀ {c : UInt8} {cs : Bytes}, isDec c = true →
      (parseUnsigned fc signedInput neg (c :: cs) = .ok (.integer i, q) ↔
        (∃ radix, radixOf (c :: cs) = some radix ∧ signedInput = false ∧
          radixInteger radix ((c :: cs).drop 2) = .ok (.integer i, q)) ∨
        radixOf (c :: cs) = none ∧ slowDecimal fc neg (c :: cs) = .ok (.integer i, q)) := by
    intro c cs hc
    obtain ⟨-, -, -, -, -, -, hi, hn, -, -⟩ := isDec_dispatch hc
    rw [parseUnsigned, if_neg hi, if_neg hn, if_neg (by simp [hc])]
    cases hradix : radixOf (c :: cs) with
    | none => simpa using decimal_integer_iff
    | some radix =>
      cases signedInput with
      | true => simp
      | false => simp
  constructor
  · intro h
    cases r with
    | nil => exact absurd h failAt_ne_ok
    | cons c cs =>
      by_cases hc : isDec c = true
      · exact (hdigit hc).mp h
      · unfold parseUnsigned at h
        dsimp only at h
        have hword : ∀ {f : Double} {w : Bytes},
            (expectWord w (c :: cs)).map (fun r => (Node.float f, r)) ≠ .ok (.integer i, q) := by
          intro f w hmap
          obtain ⟨s, -, heq⟩ := map_eq_ok_iff.mp hmap
          cases heq
        by_cases hinf : c = 0x69
        · rw [if_pos hinf] at h
          exact absurd h hword
        rw [if_neg hinf] at h
        by_cases hnan : c = 0x6E
        · rw [if_pos hnan] at h
          exact absurd h hword
        rw [if_neg hnan, if_pos (by simpa using hc)] at h
        exact absurd h failAt_ne_ok
  · intro h
    obtain ⟨c, cs, rfl, hc⟩ := integer_digit h
    exact (hdigit hc).mpr h

end Dispatch

/-- The integers of `teptris_parse_value`. -/
lemma parseValue_integer_iff {cfg : Config} {cp : Bytes} {levels : ℕ} {r q : Bytes} {i : Int64} :
    parseValue cfg cp levels r = .ok (.integer i, q) ↔
      (∃ c cs, r = c :: cs ∧ (c = Ch.plus ∨ c = Ch.minus) ∧
        parseUnsigned cfg.fc true (c = Ch.minus) cs = .ok (.integer i, q)) ∨
      datetimeLookahead r = false ∧ parseUnsigned cfg.fc false false r = .ok (.integer i, q) := by
  have hsigned : ∀ {c : UInt8} {cs : Bytes}, parseNumber cfg.fc true (c :: cs) =
      parseUnsigned cfg.fc true (c = Ch.minus) cs := by
    intro c cs
    rw [parseNumber, if_pos rfl, List.head?_cons, List.drop_succ_cons, List.drop_zero]
    simp only [Option.some.injEq]
  rw [parseValue_scalar_iff (by simp) (by simp) (by simp) (by simp)]
  constructor
  · rintro ⟨c, cs, rfl, ⟨hsign, h⟩ | ⟨hspecial, h⟩ | ⟨-, -, h⟩ | ⟨-, hlook, h⟩⟩
    · exact .inl ⟨c, cs, rfl, hsign, hsigned ▸ h⟩
    · have hunsigned : parseUnsigned cfg.fc false false (c :: cs) = .ok (.integer i, q) := h
      obtain ⟨c', cs', heq, hc⟩ := integer_digit (parseUnsigned_integer_iff.mp hunsigned)
      obtain ⟨rfl, -⟩ := List.cons.inj heq
      obtain ⟨-, -, -, -, -, -, hi, hn, -, -⟩ := isDec_dispatch hc
      exact absurd hspecial (not_or.mpr ⟨hi, hn⟩)
    · obtain ⟨kind, dt, hkind⟩ := parseDatetime_kind h
      cases hkind
    · exact .inr ⟨hlook, h⟩
  · rintro (⟨c, cs, rfl, hsign, h⟩ | ⟨hlook, h⟩)
    · exact ⟨c, cs, rfl, .inl ⟨hsign, hsigned.trans h⟩⟩
    · obtain ⟨c, cs, rfl, hc⟩ := integer_digit (parseUnsigned_integer_iff.mp h)
      exact ⟨c, cs, rfl, .inr (.inr (.inr ⟨hc, hlook, h⟩))⟩

/-! ## The grammar -/

/-- Nothing that a number goes on with. -/
def EndsNumber (t : Bytes) : Prop :=
  ∀ c ∈ t.head?, isBareKey c = false ∧ c ≠ Ch.dot ∧ c ≠ Ch.colon

lemma EndsNumber.ne {t : Bytes} (ht : EndsNumber t) : ∀ c ∈ t.head?, isHex c = false ∧
    c ≠ Ch.under ∧ c ≠ Ch.minus ∧ c ≠ Ch.colon ∧ c ≠ Ch.dot ∧ c ≠ 0x65 ∧ c ≠ 0x45 ∧ c ≠ 0x78 ∧
    c ≠ 0x6F ∧ c ≠ 0x62 := by
  intro c hc
  obtain ⟨hkey, hdot, hcolon⟩ := ht c hc
  grind [isBareKey, isHex, isDec]

lemma EndsNumber.endsRun {t : Bytes} (ht : EndsNumber t) (radix : ℕ) : EndsRun radix t := by
  intro c hc
  obtain ⟨hhex, hunder, -⟩ := ht.ne c hc
  refine ⟨?_, hunder⟩
  rw [Bool.eq_false_iff]
  intro hdigit
  rw [isHex_of_digitFor hdigit] at hhex
  exact absurd hhex (by decide)

lemma EndsNumber.not_mark {t : Bytes} (ht : EndsNumber t) : atFloatMark t = false := by
  have hne : ∀ c, (c = Ch.dot ∨ c = 0x65 ∨ c = 0x45) → t.head? ≠ some c := by
    rintro c hc hhead
    obtain ⟨-, -, -, -, hdot, he, hE, -⟩ := ht.ne c hhead
    rcases hc with rfl | rfl | rfl
    · exact hdot rfl
    · exact he rfl
    · exact hE rfl
  simp [atFloatMark, atExp, hne]

/-- A run is digits, and behind them an underscore at most. -/
lemma run_split {t ds : Bytes} (h : Toml.IsRun Toml.isDigit t ds) :
    ∃ a b, t = a ++ b ∧ (∀ c ∈ a, isDec c = true) ∧ a ≠ [] ∧ ∀ c ∈ b.head?, c = Ch.under := by
  induction h with
  | @one c hc =>
    exact ⟨[c], [], rfl, fun d hd => List.mem_singleton.mp hd ▸ hc, by simp, by simp⟩
  | @digit c t ds hc h ih =>
    obtain ⟨a, b, rfl, ha, hne, hb⟩ := ih
    exact ⟨c :: a, b, rfl, fun d hd => (List.mem_cons.mp hd).elim (fun h => h ▸ hc) (ha d),
      by simp, hb⟩
  | @under c t ds hc h ih =>
    exact ⟨[c], Ch.under :: t, rfl, fun d hd => List.mem_singleton.mp hd ▸ hc, by simp, by simp⟩

/-- Neither a digit nor a byte that turns digits into a date, a time or a radix prefix. -/
def LooksDecimal (q : Bytes) : Prop :=
  ∀ c ∈ q.head?, isDec c = false ∧ c ≠ Ch.minus ∧ c ≠ Ch.colon ∧ c ≠ 0x78 ∧ c ≠ 0x6F ∧ c ≠ 0x62

lemma EndsNumber.looksDecimal {q : Bytes} (hq : EndsNumber q) : LooksDecimal q := by
  intro c hc
  obtain ⟨hhex, -, hminus, hcolon, -, -, -, hx, ho, hbin⟩ := hq.ne c hc
  refine ⟨?_, hminus, hcolon, hx, ho, hbin⟩
  rw [Bool.eq_false_iff]
  intro hdec
  rw [@isHex_of_digitFor _ 10 hdec] at hhex
  exact absurd hhex (by decide)

/-- A decimal integer is no date and no time, and has no radix prefix. -/
lemma decimal_look {t ds q : Bytes} (h : Toml.IsDecimal t ds) (hq : LooksDecimal q) :
    datetimeLookahead (t ++ q) = false ∧ radixOf (t ++ q) = none := by
  obtain ⟨a, b, rfl, ha, hne, hb⟩ := run_split h.run
  have hbehind : LooksDecimal (b ++ q) := by
    intro c hc
    cases b with
    | nil => exact hq c hc
    | cons d b =>
      obtain rfl := Option.some.inj hc
      obtain rfl := hb _ rfl
      decide
  rw [List.append_assoc]
  refine ⟨datetimeLookahead_digits ha fun c hc =>
    ⟨(hbehind c hc).1, (hbehind c hc).2.1, (hbehind c hc).2.2.1⟩, ?_⟩
  rw [Option.eq_none_iff_forall_ne_some]
  intro radix hradix
  obtain ⟨cs, hcs⟩ := radixOf_iff.mp hradix
  obtain ⟨c, a, rfl⟩ := List.exists_cons_of_ne_nil hne
  have hmark : ∃ x, (x = 0x78 ∨ x = 0x6F ∨ x = 0x62) ∧ c :: (a ++ (b ++ q)) = 0x30 :: x :: cs := by
    rcases hcs with ⟨-, hcs⟩ | ⟨-, hcs⟩ | ⟨-, hcs⟩
    · exact ⟨_, .inl rfl, hcs⟩
    · exact ⟨_, .inr (.inl rfl), hcs⟩
    · exact ⟨_, .inr (.inr rfl), hcs⟩
  obtain ⟨x, hx, hmark⟩ := hmark
  obtain ⟨rfl, htail⟩ := List.cons.inj hmark
  cases a with
  | nil =>
    have hhead : (b ++ q).head? = some x := congrArg List.head? htail
    obtain ⟨-, -, -, h1, h2, h3⟩ := hbehind x hhead
    rcases hx with hx | hx | hx
    · exact h1 hx
    · exact h2 hx
    · exact h3 hx
  | cons d a =>
    obtain ⟨rfl, -⟩ := List.cons.inj htail
    have hdec := ha d (by simp)
    rcases hx with rfl | rfl | rfl <;> exact absurd hdec (by decide)

/-! ## Words of 64 bits -/

/-- The loop of the plain paths, in 64 bits. -/
def decLoop (ds : Bytes) : UInt64 := ds.foldl (fun m c => m * 10 + (c.toUInt64 - 0x30)) 0

/-- `mag_from`, in 64 bits. -/
def magLoop (radix : UInt64) : UInt64 → Bytes → Option UInt64
  | v, [] => some v
  | v, c :: cs =>
    let d := UInt64.ofNat (hexVal c)
    if (0xFFFFFFFFFFFFFFFF - d) / radix < v then none else magLoop radix (v * radix + d) cs

/-- Eighteen digits fit into 64 bits. -/
lemma decLoop_toNat {ds : Bytes} (hds : ∀ c ∈ ds, isDec c = true) (hlen : ds.length ≤ 18) :
    (decLoop ds).toNat = decVal ds := by
  have hstep : ∀ (ds : Bytes) (m : UInt64), (∀ c ∈ ds, isDec c = true) →
      decFrom m.toNat ds < 2 ^ 64 →
      (ds.foldl (fun m c => m * 10 + (c.toUInt64 - 0x30)) m).toNat = decFrom m.toNat ds := by
    intro ds
    induction ds with
    | nil => exact fun _ _ _ => rfl
    | cons c cs ih =>
      intro m hds hlt
      have hc := hds c (by simp)
      simp only [isDec, Bool.and_eq_true, decide_eq_true_eq, UInt8.le_iff_toNat_le] at hc
      have hzero : (0x30 : UInt8).toNat = 48 := rfl
      have hfirst : decFrom m.toNat (c :: cs) = decFrom (m.toNat * 10 + (c.toNat - 0x30)) cs := rfl
      have hle := le_decFrom (m.toNat * 10 + (c.toNat - 0x30)) cs
      have hdigit : (c.toUInt64 - 0x30).toNat = c.toNat - 0x30 := by
        rw [UInt64.toNat_sub_of_le]
        · rfl
        · rw [UInt64.le_iff_toNat_le]
          exact hc.1
      have hval : (m * 10 + (c.toUInt64 - 0x30)).toNat = m.toNat * 10 + (c.toNat - 0x30) := by
        rw [UInt64.toNat_add, UInt64.toNat_mul, hdigit]
        have hten : (10 : UInt64).toNat = 10 := rfl
        rw [hfirst] at hlt
        rw [hten, Nat.mod_eq_of_lt (by omega : m.toNat * 10 < 2 ^ 64), Nat.mod_eq_of_lt (by omega)]
      rw [hfirst] at hlt ⊢
      rw [List.foldl_cons, ih _ (fun d hd => hds d (by simp [hd])) (by rwa [hval]), hval]
  have hlt : decVal ds < 2 ^ 64 := by
    have hbound := decFrom_lt hds 0
    rw [Nat.zero_add, Nat.one_mul] at hbound
    exact lt_trans (lt_of_lt_of_le hbound (Nat.pow_le_pow_right (by decide) hlen)) (by decide)
  exact hstep ds 0 hds hlt

/-- `mag_from` does not wrap. -/
lemma magLoop_toNat {radix : UInt64} (hradix : 0 < radix.toNat) {ds : Bytes}
    (hds : ∀ c ∈ ds, isHex c = true) (v : UInt64) :
    (magLoop radix v ds).map UInt64.toNat = magFrom radix.toNat v.toNat ds := by
  induction ds generalizing v with
  | nil => rfl
  | cons c cs ih =>
    have hsmall := hexVal_lt (hds c (by simp))
    have hd : (UInt64.ofNat (hexVal c)).toNat = hexVal c := UInt64.toNat_ofNat_of_lt' (by
      exact lt_trans hsmall (by decide))
    have hroom : (0xFFFFFFFFFFFFFFFF - UInt64.ofNat (hexVal c)).toNat = 2 ^ 64 - 1 - hexVal c := by
      rw [UInt64.toNat_sub_of_le, hd]
      · rfl
      · rw [UInt64.le_iff_toNat_le, hd]
        exact Nat.le_of_lt (lt_trans hsmall (by decide))
    have hguard : (0xFFFFFFFFFFFFFFFF - UInt64.ofNat (hexVal c)) / radix < v ↔
        (2 ^ 64 - 1 - hexVal c) / radix.toNat < v.toNat := by
      rw [UInt64.lt_iff_toNat_lt, UInt64.toNat_div, hroom]
    rw [magLoop, magFrom]
    by_cases hover : (2 ^ 64 - 1 - hexVal c) / radix.toNat < v.toNat
    · rw [if_pos (hguard.mpr hover), if_pos hover]
      rfl
    · rw [if_neg (fun h => hover (hguard.mp h)), if_neg hover]
      have hfits : v.toNat * radix.toNat + hexVal c < 2 ^ 64 := by
        rw [Nat.div_lt_iff_lt_mul hradix] at hover
        omega
      have hval : (v * radix + UInt64.ofNat (hexVal c)).toNat =
          v.toNat * radix.toNat + hexVal c := by
        have hmul : v.toNat * radix.toNat % 2 ^ 64 = v.toNat * radix.toNat :=
          Nat.mod_eq_of_lt (by omega)
        rw [UInt64.toNat_add, UInt64.toNat_mul, hd, hmul, Nat.mod_eq_of_lt hfits]
      rw [ih (fun d hd => hds d (by simp [hd])), hval]

/-! ## Integers -/

/-- An integer is read where its text stands. -/
lemma parseValue_integer_sound {cfg : Config} {cp : Bytes} {levels : ℕ} {r q : Bytes} {i : Int64}
    (h : parseValue cfg cp levels r = .ok (.integer i, q)) :
    ∃ w ds, r = w ++ q ∧ Toml.IsInteger w ds i.toInt ∧ ds.length < numMax := by
  rcases parseValue_integer_iff.mp h with ⟨c, cs, rfl, hsign, hread⟩ | ⟨-, hread⟩
  · rcases parseUnsigned_integer_iff.mp hread with ⟨radix, -, hfalse, -⟩ | ⟨-, hslow⟩
    · exact absurd hfalse (by decide)
    · obtain ⟨t, ds, hdec, hlen, -, -, rfl, hval⟩ := slowDecimal_integer_iff.mp hslow
      refine ⟨c :: t, ds, rfl, ?_, hlen⟩
      rw [hval]
      rcases hsign with rfl | rfl
      · exact .plus hdec
      · exact .minus hdec
  · rcases parseUnsigned_integer_iff.mp hread with ⟨radix, hradix, -, hprefixed⟩ | ⟨-, hslow⟩
    · obtain ⟨cs, ⟨rfl, rfl⟩ | ⟨rfl, rfl⟩ | ⟨rfl, rfl⟩⟩ := radixOf_iff.mp hradix
      · obtain ⟨t, ds, hrun, hlen, -, rfl, hval⟩ := (radixInteger_iff (by decide)).mp hprefixed
        exact ⟨0x30 :: 0x78 :: t, ds, rfl, hval ▸ .radix (.hex hrun), hlen⟩
      · obtain ⟨t, ds, hrun, hlen, -, rfl, hval⟩ := (radixInteger_iff (by decide)).mp hprefixed
        exact ⟨0x30 :: 0x6F :: t, ds, rfl, hval ▸ .radix (.oct hrun), hlen⟩
      · obtain ⟨t, ds, hrun, hlen, -, rfl, hval⟩ := (radixInteger_iff (by decide)).mp hprefixed
        exact ⟨0x30 :: 0x62 :: t, ds, rfl, hval ▸ .radix (.bin hrun), hlen⟩
    · obtain ⟨t, ds, hdec, hlen, -, -, rfl, hval⟩ := slowDecimal_integer_iff.mp hslow
      exact ⟨t, ds, rfl, hval ▸ .decimal hdec, hlen⟩

/-- An integer is read up to its end. -/
lemma parseValue_integer_complete {cfg : Config} {cp : Bytes} {levels : ℕ} {w ds t : Bytes}
    {i : Int64} (h : Toml.IsInteger w ds i.toInt) (hlen : ds.length < numMax) (ht : EndsNumber t) :
    parseValue cfg cp levels (w ++ t) = .ok (.integer i, t) := by
  have hslow : ∀ {fc : FloatConv} {neg : Bool} {u : Bytes}, Toml.IsDecimal u ds →
      (i.toInt = if neg then -(Toml.runValue 10 ds : ℤ) else Toml.runValue 10 ds) →
      slowDecimal fc neg (u ++ t) = .ok (.integer i, t) := fun hdec hval =>
    slowDecimal_integer_iff.mpr ⟨_, ds, hdec, hlen, ht.endsRun 10, ht.not_mark, rfl, hval⟩
  have hprefixed : ∀ {radix : ℕ} {x : UInt8} {u : Bytes}, 0 < radix →
      (∀ cs, radixOf (0x30 :: x :: cs) = some radix) → isDec x = false → x ≠ Ch.minus →
      x ≠ Ch.colon → Toml.IsRun (digitFor · radix) u ds → i.toInt = Toml.runValue radix ds →
      parseValue cfg cp levels (0x30 :: x :: u ++ t) = .ok (.integer i, t) := by
    intro radix x u hradix hof hx hminus hcolon hrun hval
    have hlook : datetimeLookahead ([0x30] ++ (x :: u ++ t)) = false := by
      refine datetimeLookahead_digits (List.all_eq_true.mp rfl) fun c hc => ?_
      obtain rfl := Option.some.inj hc
      exact ⟨hx, hminus, hcolon⟩
    refine parseValue_integer_iff.mpr (.inr ⟨hlook, parseUnsigned_integer_iff.mpr (.inl ?_)⟩)
    exact ⟨radix, hof _, rfl, (radixInteger_iff hradix).mpr
      ⟨u, ds, hrun, hlen, ht.endsRun radix, rfl, hval⟩⟩
  generalize hn : i.toInt = n at h
  cases h with
  | decimal hdec =>
    obtain ⟨hlook, hradix⟩ := decimal_look hdec ht.looksDecimal
    exact parseValue_integer_iff.mpr (.inr ⟨hlook, parseUnsigned_integer_iff.mpr
      (.inr ⟨hradix, hslow hdec hn⟩)⟩)
  | plus hdec =>
    obtain ⟨-, hradix⟩ := decimal_look hdec ht.looksDecimal
    exact parseValue_integer_iff.mpr (.inl ⟨_, _, rfl, .inl rfl, parseUnsigned_integer_iff.mpr
      (.inr ⟨hradix, hslow hdec hn⟩)⟩)
  | minus hdec =>
    obtain ⟨-, hradix⟩ := decimal_look hdec ht.looksDecimal
    exact parseValue_integer_iff.mpr (.inl ⟨_, _, rfl, .inr rfl, parseUnsigned_integer_iff.mpr
      (.inr ⟨hradix, hslow hdec hn⟩)⟩)
  | radix h =>
    cases h with
    | hex hrun => exact hprefixed (by decide) (fun _ => rfl) rfl (by decide) (by decide) hrun hn
    | oct hrun => exact hprefixed (by decide) (fun _ => rfl) rfl (by decide) (by decide) hrun hn
    | bin hrun => exact hprefixed (by decide) (fun _ => rfl) rfl (by decide) (by decide) hrun hn

/-- The value of decimal digits is their value to the base ten. -/
lemma runValue_ten {ds : Bytes} (hds : ∀ c ∈ ds, isDec c = true) :
    Toml.runValue 10 ds = decVal ds := by
  have hstep : ∀ (ds : Bytes) (m : ℕ), (∀ c ∈ ds, isDec c = true) →
      Toml.runFrom 10 m ds = decFrom m ds := by
    intro ds
    induction ds with
    | nil => exact fun _ _ => rfl
    | cons c cs ih =>
      intro m hds
      have hc := hds c (by simp)
      simp only [isDec, Bool.and_eq_true, decide_eq_true_eq] at hc
      have hval : Toml.digitValue c = c.toNat - 0x30 := if_pos hc.2
      have hfirst : Toml.runFrom 10 m (c :: cs) =
          Toml.runFrom 10 (m * 10 + Toml.digitValue c) cs := rfl
      rw [hfirst, hval, ih _ fun d hd => hds d (by simp [hd])]
      rfl
  exact hstep ds 0 hds

/-- `emit_i64` writes an integer of the grammar. -/
lemma isInteger_emitI64 (i : Int64) :
    ∃ ds, Toml.IsInteger (emitI64 i) ds i.toInt ∧ ds.length < numMax := by
  have hle := natAbs_toInt_lt i
  obtain ⟨hval, hdigits, hne, hlead⟩ := @isDecimal_natText i.toInt.natAbs (by omega)
  have hlen : (natText i.toInt.natAbs).length < numMax :=
    lt_of_le_of_lt (length_natText_le _) (by decide)
  have hdec : Toml.IsDecimal (natText i.toInt.natAbs) (natText i.toInt.natAbs) :=
    ⟨Toml.isRun_self hdigits hne, hlead⟩
  have hvalue : Toml.runValue 10 (natText i.toInt.natAbs) = i.toInt.natAbs :=
    (runValue_ten hdigits).trans hval
  refine ⟨natText i.toInt.natAbs, ?_, hlen⟩
  rw [emitI64]
  by_cases hneg : i < 0
  · have hlt : i.toInt < 0 := Int64.lt_iff_toInt_lt.mp hneg
    have hint : i.toInt = -(Toml.runValue 10 (natText i.toInt.natAbs) : ℤ) := by
      rw [hvalue]
      omega
    have h := Toml.IsInteger.minus hdec
    rw [← hint] at h
    rw [if_pos hneg]
    exact h
  · have hge : ¬ i.toInt < 0 := fun h => hneg (Int64.lt_iff_toInt_lt.mpr h)
    have hint : i.toInt = (Toml.runValue 10 (natText i.toInt.natAbs) : ℤ) := by
      rw [hvalue]
      omega
    have h := Toml.IsInteger.decimal hdec
    rw [← hint] at h
    rw [if_neg hneg]
    exact h

/-- Both value parsers accept an integer that ends with the text `w`, before anything a number does
not go on with, exactly where `w` is an integer of the grammar with at most 511 digits and the
stored integer is its value; the loops in 64 bits give what the unbounded ones do; and the text
of a stored integer is read as that integer. -/
theorem integer_grammar (cfg : Config) (cp : Bytes) (levels : ℕ) {w t : Bytes}
    (ht : EndsNumber t) (i : Int64) :
    (parseValue cfg cp levels (w ++ t) = .ok (.integer i, t) ↔
      ∃ ds, Toml.IsInteger w ds i.toInt ∧ ds.length ≤ 511) ∧
    (parseValueFast cfg cp levels (w ++ t) = .ok (.integer i, t) ↔
      ∃ ds, Toml.IsInteger w ds i.toInt ∧ ds.length ≤ 511) ∧
    (∀ ds : Bytes, (∀ c ∈ ds, isDec c = true) → ds.length ≤ 18 →
      (decLoop ds).toNat = decVal ds) ∧
    (∀ (radix v : UInt64) (ds : Bytes), 0 < radix.toNat → (∀ c ∈ ds, isHex c = true) →
      (magLoop radix v ds).map UInt64.toNat = magFrom radix.toNat v.toNat ds) ∧
    parseValue cfg cp levels (emitI64 i ++ t) = .ok (.integer i, t) ∧
    parseValueFast cfg cp levels (emitI64 i ++ t) = .ok (.integer i, t) := by
  have hmax : ∀ n : ℕ, n < numMax ↔ n ≤ 511 := fun n => Nat.lt_succ_iff
  have hiff : parseValue cfg cp levels (w ++ t) = .ok (.integer i, t) ↔
      ∃ ds, Toml.IsInteger w ds i.toInt ∧ ds.length ≤ 511 := by
    constructor
    · intro h
      obtain ⟨w', ds, heq, hint, hlen⟩ := parseValue_integer_sound h
      obtain rfl := List.append_cancel_right heq
      exact ⟨ds, hint, (hmax _).mp hlen⟩
    · rintro ⟨ds, hint, hlen⟩
      exact parseValue_integer_complete hint ((hmax _).mpr hlen) ht
  have hemit : parseValue cfg cp levels (emitI64 i ++ t) = .ok (.integer i, t) := by
    obtain ⟨ds, hint, hlen⟩ := isInteger_emitI64 i
    exact parseValue_integer_complete hint hlen ht
  rw [parseValueFast_eq]
  exact ⟨hiff, hiff, fun _ => decLoop_toNat, fun _ v _ hradix hds => magLoop_toNat hradix hds v,
    hemit, hemit⟩

/-- `-1`, before the end of a line. -/
theorem integer_grammar_minus_one :
    (parseValue (.ofOptions .zero 0) [] 0 ([Ch.minus, 0x31] ++ [Ch.lf]) =
        .ok (.integer (-1), [Ch.lf]) ↔
      ∃ ds, Toml.IsInteger [Ch.minus, 0x31] ds (-1 : Int64).toInt ∧ ds.length ≤ 511) ∧
    (parseValueFast (.ofOptions .zero 0) [] 0 ([Ch.minus, 0x31] ++ [Ch.lf]) =
        .ok (.integer (-1), [Ch.lf]) ↔
      ∃ ds, Toml.IsInteger [Ch.minus, 0x31] ds (-1 : Int64).toInt ∧ ds.length ≤ 511) ∧
    (∀ ds : Bytes, (∀ c ∈ ds, isDec c = true) → ds.length ≤ 18 →
      (decLoop ds).toNat = decVal ds) ∧
    (∀ (radix v : UInt64) (ds : Bytes), 0 < radix.toNat → (∀ c ∈ ds, isHex c = true) →
      (magLoop radix v ds).map UInt64.toNat = magFrom radix.toNat v.toNat ds) ∧
    parseValue (.ofOptions .zero 0) [] 0 (emitI64 (-1) ++ [Ch.lf]) =
      .ok (.integer (-1), [Ch.lf]) ∧
    parseValueFast (.ofOptions .zero 0) [] 0 (emitI64 (-1) ++ [Ch.lf]) =
      .ok (.integer (-1), [Ch.lf]) :=
  have hends : EndsNumber [Ch.lf] := fun c hc => (by
    obtain rfl := Option.some.inj hc
    decide)
  integer_grammar (.ofOptions .zero 0) [] 0 hends (-1)

end Teptris
