import Teptris.Dom.Compare
import Teptris.Emit.Scalars
import Teptris.Library.Scaled
import Teptris.Schema.Compiled
import Teptris.Schema.JsonRead

/-!
# `multipleOf`

`sch_decimal_of_double` and `sch_mult_ok`, with the arithmetic of C: a step that overflows is
`none`.
-/

namespace Teptris

open Scaled

/-! ## Arithmetic -/

/-- An `int`. -/
def int32 (x : ℤ) : Option ℤ := if -2 ^ 31 ≤ x ∧ x < 2 ^ 31 then some x else none

/-- An `int64_t`. -/
def int64 (x : ℤ) : Option ℤ := if -2 ^ 63 ≤ x ∧ x < 2 ^ 63 then some x else none

/-- A `uint64_t`. -/
def uint64 (x : ℤ) : ℕ := (x % 2 ^ 64).toNat

/-- The loop `while (m % p == 0) { m /= p; count++; }`, for at most `n` turns. -/
def stripInt (p : ℤ) : ℕ → ℤ → ℕ × ℤ
  | 0, m => (0, m)
  | n + 1, m =>
    if m.tmod p = 0 then ((stripInt p n (m.tdiv p)).1 + 1, (stripInt p n (m.tdiv p)).2)
    else (0, m)

/-! ## The decimal view of a double -/

/-- What the C library does with decimal text. -/
structure DecimalConv where
  /-- `snprintf(buf, sizeof buf, "%.*g", prec, d)`. -/
  printG : ℕ → Double → Bytes
  /-- `strtod(buf, NULL)`. -/
  strtod : Bytes → Double

/-- The shortest text that reads back as the double, or the one of 17 digits. -/
def DecimalConv.shortest (dc : DecimalConv) (d : Double) : Bytes :=
  dc.printG (((List.range' 1 16).find? fun prec => (dc.strtod (dc.printG prec d)).eq d).getD 17) d

/-- `m = m * 10 + digit`, over digits. -/
def readDigits (m : ℤ) (ds : Bytes) : Option ℤ :=
  ds.foldlM (fun m c => int64 (m * 10 + (c.toNat - 0x30 : ℕ))) m

/-- `strtol(p, NULL, 10)`, where a plus sign may stand too. -/
def signedDec (t : Bytes) : ℤ :=
  match t with
  | 0x2D :: t => -(decFrom 0 (t.takeWhile isDec) : ℤ)
  | 0x2B :: t => decFrom 0 (t.takeWhile isDec)
  | t => decFrom 0 (t.takeWhile isDec)

/-- The exponent in front of which there are so many decimals. -/
def readExponent (decimals : ℕ) (t : Bytes) : Option ℤ :=
  match t with
  | 0x65 :: t => int32 (-(decimals : ℤ) + signedDec t)
  | 0x45 :: t => int32 (-(decimals : ℤ) + signedDec t)
  | _ => int32 (-(decimals : ℤ))

/-- A sign in front is skipped. -/
def dropSign (t : Bytes) : Bytes :=
  if t.head? = some Ch.plus ∨ t.head? = some Ch.minus then t.drop 1 else t

/-- The text behind the digits of a number: decimals behind a point, and an exponent. -/
def readTail (m : ℤ) (t : Bytes) : Option (ℤ × ℤ) :=
  if t.head? = some Ch.dot then
    let fp := (t.drop 1).takeWhile isDec
    (readDigits m fp).bind fun m =>
      (readExponent fp.length ((t.drop 1).dropWhile isDec)).map fun e => (m, e)
  else (readExponent 0 t).map fun e => (m, e)

/-- The text of a double, read back as a mantissa and an exponent; the sign is dropped. -/
def readDecimal (t : Bytes) : Option (ℤ × ℤ) :=
  (readDigits 0 ((dropSign t).takeWhile isDec)).bind fun m =>
    readTail m ((dropSign t).dropWhile isDec)

/-- `sch_decimal_of_double`; the inner `none` is the answer `false`. -/
def schDecimalOfDouble (dc : DecimalConv) (d : Double) : Option (Option (ℤ × ℤ)) :=
  if d.isFinite then (readDecimal (dc.shortest d)).map some else some none

/-! ## The check -/

/-- The magnitude of an `int64_t`, as a `uint64_t`. -/
def magnitude64 (vm : ℤ) : Option ℕ :=
  if vm < 0 then (int64 (vm + 1)).bind fun x => (int64 (-x)).map fun y => uint64 (uint64 y + 1)
  else some (uint64 vm)

/-- `sch_mult_ok`, on decimal views. -/
def decimalMultOk (vm ve mm me : ℤ) : Option Bool :=
  if mm = 0 then some false
  else
    let b := stripInt 2 64 mm
    let c := stripInt 5 64 b.2
    (int32 (ve - me)).bind fun k =>
      (magnitude64 vm).bind fun mag =>
        (int32 (k + (strip 2 64 mag).1)).bind fun k2 =>
          if k2 < b.1 then some false
          else
            (int32 (k + (strip 5 64 mag).1)).bind fun k5 =>
              if k5 < c.1 then some false else some (mag % uint64 c.2 = 0)

/-- `v->i % n->imult`; the smallest number divided by `-1` overflows. -/
def intMultOk (i imult : Int64) : Option Bool :=
  if imult = 0 then some false
  else if i.toInt = -2 ^ 63 ∧ imult.toInt = -1 then none
  else some (i.toInt.tmod imult.toInt = 0)

/-- `sch_mult_ok`. -/
def schMultOk (dc : DecimalConv) (m : Mult) : SValue → Option Bool
  | .int i =>
    if m.isInt then intMultOk i m.imult
    else if m.exact then decimalMultOk i.toInt 0 m.mant.toInt m.exp
    else some false
  | .float f =>
    if f.isFinite then
      (schDecimalOfDouble dc f).bind fun view =>
        match view with
        | none => some false
        | some (vm, ve) =>
          if m.isInt then decimalMultOk vm ve m.imult.toInt 0
          else if m.exact then decimalMultOk vm ve m.mant.toInt m.exp
          else some false
    else some false
  | _ => some false

/-! ## The multiplier of a schema -/

/-- The `multipleOf` branch of `sch_compile_node`; the inner `none` is a schema that is rejected. -/
def compileMult (dc : DecimalConv) (t : JNum) : Option (Option Mult) :=
  if !(Double.lt ⟨0⟩ t.toDouble) then some none
  else
    match t with
    | .int i => some (some ⟨t.toDouble, i, true, false, 0, 0⟩)
    | .num d =>
      (schDecimalOfDouble dc d).map fun view =>
        match view with
        | none => some ⟨d, 0, false, false, 0, 0⟩
        | some (mant, exp) => some ⟨d, 0, false, true, .ofInt mant, exp⟩

/-- The decimal view of a value that has one. -/
def SValue.view (dc : DecimalConv) : SValue → Option (ℤ × ℤ)
  | .int i => some (i.toInt, 0)
  | .float f => (schDecimalOfDouble dc f).join
  | _ => none

/-- The decimal view of a multiplier. -/
def Mult.view (m : Mult) : Option (ℤ × ℤ) :=
  if m.isInt then some (m.imult.toInt, 0)
  else if m.exact then some (m.mant.toInt, m.exp)
  else none

/-! ## What `printf` writes -/

/-- The shape of a text of `%.*g`: a sign, digits, decimals behind a point and an exponent, with
no more digits than the precision asks for. -/
def IsGText (prec : ℕ) (t : Bytes) : Prop :=
  ∃ sign ip fp ex : Bytes, t = sign ++ (ip ++ ((if fp = [] then [] else Ch.dot :: fp) ++ ex)) ∧
    (sign = [] ∨ sign = [Ch.minus]) ∧ ip ≠ [] ∧ (∀ c ∈ ip, isDec c = true) ∧
    (∀ c ∈ fp, isDec c = true) ∧ decVal (ip ++ fp) < 10 ^ prec ∧ fp.length ≤ 20 ∧
    (ex = [] ∨ ∃ s ds, ex = 0x65 :: s :: ds ∧ (s = Ch.plus ∨ s = Ch.minus) ∧
      (∀ c ∈ ds, isDec c = true) ∧ decVal ds ≤ 324)

/-- `%.*g` on finite doubles. -/
def DecimalConv.PrintsG (dc : DecimalConv) : Prop :=
  ∀ d : Double, d.isFinite = true → ∀ prec, 1 ≤ prec → prec ≤ 17 → IsGText prec (dc.printG prec d)

section Text

variable {dc : DecimalConv} {t : Bytes}

/-- The digits that fit are read. -/
lemma readDigits_eq {ds : Bytes} (hds : ∀ c ∈ ds, isDec c = true) {m : ℕ}
    (h : decFrom m ds < 2 ^ 63) : readDigits m ds = some (decFrom m ds : ℤ) := by
  induction ds generalizing m with
  | nil => rfl
  | cons c cs ih =>
    have hstep : decFrom m (c :: cs) = decFrom (m * 10 + (c.toNat - 0x30)) cs := rfl
    have hle := le_decFrom (m * 10 + (c.toNat - 0x30)) cs
    rw [hstep] at h ⊢
    have hfit : int64 ((m : ℤ) * 10 + (c.toNat - 0x30 : ℕ)) =
        some ((m * 10 + (c.toNat - 0x30) : ℕ) : ℤ) := by
      rw [int64, if_pos ⟨by omega, by omega⟩]
      push_cast
      rfl
    rw [readDigits, List.foldlM_cons, hfit, Option.bind_eq_bind, Option.bind_some]
    exact ih (fun d hd => hds d (List.mem_cons_of_mem _ hd)) h

/-- The exponent of a text of `%g` is read, and is small. -/
lemma readExponent_small {ex : Bytes} {n : ℕ} (hn : n ≤ 20)
    (hex : ex = [] ∨ ∃ s ds, ex = 0x65 :: s :: ds ∧ (s = Ch.plus ∨ s = Ch.minus) ∧
      (∀ c ∈ ds, isDec c = true) ∧ decVal ds ≤ 324) :
    ∃ e : ℤ, readExponent n ex = some e ∧ -344 ≤ e ∧ e ≤ 324 := by
  have hfit : ∀ e : ℤ, -344 ≤ e → e ≤ 324 → int32 e = some e := by
    intro e hlo hhi
    rw [int32, if_pos ⟨by omega, by omega⟩]
  rcases hex with rfl | ⟨s, ds, rfl, rfl | rfl, hds, hle⟩
  · exact ⟨-(n : ℤ), hfit _ (by omega) (by omega), by omega, by omega⟩
  · refine ⟨-(n : ℤ) + decVal ds, ?_, by omega, by omega⟩
    have hread : signedDec (Ch.plus :: ds) = decVal ds := by
      show ((decFrom 0 (ds.takeWhile isDec) : ℕ) : ℤ) = _
      rw [List.takeWhile_eq_self_iff.mpr hds]
    show int32 (-(n : ℤ) + signedDec (Ch.plus :: ds)) = _
    rw [hread, hfit _ (by omega) (by omega)]
  · refine ⟨-(n : ℤ) - decVal ds, ?_, by omega, by omega⟩
    have hread : signedDec (Ch.minus :: ds) = -(decVal ds : ℤ) := by
      show -((decFrom 0 (ds.takeWhile isDec) : ℕ) : ℤ) = _
      rw [List.takeWhile_eq_self_iff.mpr hds]
    show int32 (-(n : ℤ) + signedDec (Ch.minus :: ds)) = _
    rw [hread, hfit _ (by omega) (by omega)]
    rfl

/-- A text of `%g` is read, as a mantissa of at most 17 digits and a small exponent. -/
lemma readDecimal_small {prec : ℕ} (hprec : prec ≤ 17) (ht : IsGText prec t) :
    ∃ m : ℕ, ∃ e : ℤ, readDecimal t = some ((m : ℤ), e) ∧ m < 10 ^ 17 ∧ -344 ≤ e ∧ e ≤ 324 := by
  obtain ⟨sign, ip, fp, ex, rfl, hsign, hne, hip, hfp, hval, hlen, hex⟩ := ht
  have hpow : 10 ^ prec ≤ 10 ^ 17 := Nat.pow_le_pow_right (by decide) hprec
  have hip' : decFrom 0 ip ≤ decVal (ip ++ fp) := by
    rw [decVal, decFrom_append]
    exact le_decFrom _ fp
  have hdot : isDec Ch.dot = false := by decide
  have hstop : ex.takeWhile isDec = [] ∧ ex.dropWhile isDec = ex ∧ ex.head? ≠ some Ch.dot := by
    rcases hex with rfl | ⟨s, ds, rfl, -⟩
    · exact ⟨rfl, rfl, by simp⟩
    · exact ⟨rfl, rfl, by simp; decide⟩
  -- without the sign, the text starts with a digit
  have hbare : dropSign (sign ++ (ip ++ ((if fp = [] then [] else Ch.dot :: fp) ++ ex))) =
      ip ++ ((if fp = [] then [] else Ch.dot :: fp) ++ ex) := by
    obtain ⟨c, cs, rfl⟩ := List.exists_cons_of_ne_nil hne
    have hc := hip c (by simp)
    have hplus : c ≠ Ch.plus := by
      rintro rfl
      exact absurd hc (by decide)
    have hminus : c ≠ Ch.minus := by
      rintro rfl
      exact absurd hc (by decide)
    rcases hsign with rfl | rfl
    · simp [dropSign, hplus, hminus]
    · simp [dropSign]
  obtain ⟨e, he, hlo, hhi⟩ := readExponent_small hlen hex
  have hmant : readDigits 0 ip = some (decFrom 0 ip : ℤ) := by
    have hread := readDigits_eq (m := 0) hip (by omega)
    rwa [Nat.cast_zero] at hread
  by_cases hnil : fp = []
  · subst hnil
    rw [if_pos rfl, List.nil_append] at hbare
    rw [if_pos rfl, List.nil_append, readDecimal, hbare, List.takeWhile_append_of_pos hip,
      List.dropWhile_append_of_pos hip, hstop.1, hstop.2.1, List.append_nil, hmant,
      Option.bind_some, readTail, if_neg hstop.2.2]
    rw [List.length_nil] at he
    exact ⟨decFrom 0 ip, e, by rw [he]; rfl, by omega, hlo, hhi⟩
  · have hcat : decFrom (decFrom 0 ip) fp = decVal (ip ++ fp) := (decFrom_append 0 ip fp).symm
    rw [if_neg hnil] at hbare ⊢
    refine ⟨decVal (ip ++ fp), e, ?_, by omega, hlo, hhi⟩
    rw [readDecimal, hbare, List.takeWhile_append_of_pos hip, List.dropWhile_append_of_pos hip,
      List.cons_append, List.takeWhile_cons_of_neg (by rw [hdot]; simp),
      List.dropWhile_cons_of_neg (by rw [hdot]; simp), List.append_nil, hmant, Option.bind_some,
      readTail, if_pos (List.head?_cons ..)]
    simp only [List.drop_succ_cons, List.drop_zero]
    rw [List.takeWhile_append_of_pos hfp, List.dropWhile_append_of_pos hfp, hstop.1, hstop.2.1,
      List.append_nil, readDigits_eq hfp (by omega), he, hcat]
    rfl

/-- Every finite double has a decimal view, of at most 17 digits. -/
lemma schDecimalOfDouble_small (hdc : dc.PrintsG) {d : Double} (hd : d.isFinite = true) :
    ∃ m : ℕ, ∃ e : ℤ, schDecimalOfDouble dc d = some (some ((m : ℤ), e)) ∧ m < 10 ^ 17 ∧
      -344 ≤ e ∧ e ≤ 324 := by
  have hprec : ∃ prec, prec ≤ 17 ∧ 1 ≤ prec ∧ dc.shortest d = dc.printG prec d := by
    rw [DecimalConv.shortest]
    cases hfind : (List.range' 1 16).find? fun prec => (dc.strtod (dc.printG prec d)).eq d with
    | none => exact ⟨17, le_rfl, by decide, rfl⟩
    | some prec =>
      have hmem := List.mem_of_find?_eq_some hfind
      rw [List.mem_range'_1] at hmem
      exact ⟨prec, by omega, hmem.1, rfl⟩
  obtain ⟨prec, hle, hone, hshort⟩ := hprec
  obtain ⟨m, e, hread, hm, hlo, hhi⟩ := readDecimal_small hle (hdc d hd prec hone hle)
  refine ⟨m, e, ?_, hm, hlo, hhi⟩
  rw [schDecimalOfDouble, if_pos hd, hshort, hread]
  rfl

end Text

/-! ## The check on natural numbers -/

section Check

/-- The loop on a number that is not negative. -/
lemma stripInt_natCast (p n m : ℕ) :
    stripInt p n m = ((strip p n m).1, ((strip p n m).2 : ℤ)) := by
  induction n generalizing m with
  | zero => rfl
  | succ n ih =>
    have hmod : ((m : ℤ).tmod p = 0) ↔ m % p = 0 := by
      rw [Int.tmod_eq_emod_of_nonneg (Int.natCast_nonneg m)]
      norm_cast
    have hdiv : (m : ℤ).tdiv p = ((m / p : ℕ) : ℤ) := by
      rw [Int.tdiv_eq_ediv_of_nonneg (Int.natCast_nonneg m)]
      rfl
    rw [stripInt, strip, hdiv, ih]
    by_cases h : m % p = 0
    · rw [if_pos h, if_pos (hmod.mpr h)]
    · rw [if_neg h, if_neg (mt hmod.mp h)]

lemma int32_eq {x : ℤ} (hlo : -2 ^ 31 ≤ x) (hhi : x < 2 ^ 31) : int32 x = some x :=
  if_pos ⟨hlo, hhi⟩

lemma int64_eq {x : ℤ} (hlo : -2 ^ 63 ≤ x) (hhi : x < 2 ^ 63) : int64 x = some x :=
  if_pos ⟨hlo, hhi⟩

lemma uint64_natCast {n : ℕ} (h : n < 2 ^ 64) : uint64 n = n := by
  rw [uint64]
  omega

/-- The smallest number has a magnitude too. -/
lemma magnitude64_eq {vm : ℤ} (hlo : -2 ^ 63 ≤ vm) (hhi : vm < 2 ^ 63) :
    magnitude64 vm = some vm.natAbs := by
  rw [magnitude64]
  split_ifs with hneg
  · have h1 : uint64 (-(vm + 1)) = vm.natAbs - 1 := by
      rw [uint64]
      omega
    have h2 : uint64 (((vm.natAbs - 1 : ℕ) : ℤ) + 1) = vm.natAbs := by
      rw [uint64]
      omega
    rw [int64_eq (by omega) (by omega), Option.bind_some, int64_eq (by omega) (by omega),
      Option.map_some, h1, h2]
  · have h1 : uint64 vm = vm.natAbs := by
      rw [uint64]
      omega
    rw [h1]

lemma strip_count_le (p n m : ℕ) : (strip p n m).1 ≤ n := by
  induction n generalizing m with
  | zero => exact le_rfl
  | succ n ih =>
    rw [strip]
    split_ifs
    · exact Nat.succ_le_succ (ih _)
    · exact Nat.zero_le _

/-- No step of the check overflows, and what it says. -/
lemma decimalMultOk_eq {vm ve me : ℤ} {mm : ℕ} (hlo : -2 ^ 63 ≤ vm) (hhi : vm < 2 ^ 63)
    (hpos : 0 < mm) (hmm : mm < 2 ^ 63) (hk : (ve - me).natAbs ≤ 1000) :
    decimalMultOk vm ve mm me = some (decide (
      ((strip 2 64 mm).1 : ℤ) ≤ ve - me + (strip 2 64 vm.natAbs).1 ∧
      ((strip 5 64 (strip 2 64 mm).2).1 : ℤ) ≤ ve - me + (strip 5 64 vm.natAbs).1 ∧
      (strip 5 64 (strip 2 64 mm).2).2 ∣ vm.natAbs)) := by
  have hne : (mm : ℤ) ≠ 0 := by omega
  have hb := strip_count_le 2 64 vm.natAbs
  have hc := strip_count_le 5 64 vm.natAbs
  have hrest : (strip 5 64 (strip 2 64 mm).2).2 ≤ mm :=
    Nat.le_of_dvd hpos (strip_rest_dvd.trans strip_rest_dvd)
  have htwo : stripInt 2 64 (mm : ℤ) = _ := stripInt_natCast 2 64 mm
  have hfive : stripInt 5 64 ((strip 2 64 mm).2 : ℤ) = _ := stripInt_natCast 5 64 (strip 2 64 mm).2
  rw [decimalMultOk, if_neg hne, htwo]
  simp only
  rw [hfive, int32_eq (by omega) (by omega), Option.bind_some, magnitude64_eq hlo hhi,
    Option.bind_some, int32_eq (by omega) (by omega), Option.bind_some]
  simp only
  rw [uint64_natCast (by omega)]
  by_cases h2 : ((strip 2 64 mm).1 : ℤ) ≤ ve - me + (strip 2 64 vm.natAbs).1
  · rw [if_neg (by omega), int32_eq (by omega) (by omega), Option.bind_some]
    by_cases h5 : ((strip 5 64 (strip 2 64 mm).2).1 : ℤ) ≤ ve - me + (strip 5 64 vm.natAbs).1
    · rw [if_neg (by omega)]
      simp [h2, h5, Nat.dvd_iff_mod_eq_zero]
    · rw [if_pos (by omega)]
      simp [h5]
  · rw [if_pos (by omega)]
    simp [h2]

/-- The parts of a multiplier: its factors 2, its factors 5, and a rest that has neither. -/
lemma multiplier_parts {mm : ℕ} (hpos : 0 < mm) (hmm : mm < 2 ^ 63) :
    (strip 2 64 mm).1 = padicValNat 2 mm ∧
      (strip 5 64 (strip 2 64 mm).2).1 = padicValNat 5 mm ∧
      ¬ 2 ∣ (strip 5 64 (strip 2 64 mm).2).2 ∧ ¬ 5 ∣ (strip 5 64 (strip 2 64 mm).2).2 ∧
      2 ^ (strip 2 64 mm).1 *
        (5 ^ (strip 5 64 (strip 2 64 mm).2).1 * (strip 5 64 (strip 2 64 mm).2).2) = mm := by
  have : Fact (Nat.Prime 5) := ⟨Nat.prime_five⟩
  have hodd : ¬ 2 ∣ (strip 2 64 mm).2 := strip_rest (by decide) hpos (by omega)
  have hrest : 0 < (strip 2 64 mm).2 := by
    rw [Nat.pos_iff_ne_zero]
    intro h
    rw [h] at hodd
    exact hodd (dvd_zero 2)
  have hle : (strip 2 64 mm).2 ≤ mm := Nat.le_of_dvd hpos strip_rest_dvd
  have hfive : padicValNat 5 mm = padicValNat 5 (strip 2 64 mm).2 := by
    have hcoprime : padicValNat 5 (2 ^ (strip 2 64 mm).1) = 0 := by
      rw [padicValNat.pow, padicValNat.eq_zero_of_not_dvd (by decide), Nat.mul_zero]
    conv_lhs => rw [← strip_eq (p := 2) (n := 64) (m := mm)]
    rw [padicValNat.mul (by positivity) hrest.ne', hcoprime, Nat.zero_add]
  refine ⟨strip_count hpos (by omega), ?_, fun h => hodd (h.trans strip_rest_dvd), ?_, ?_⟩
  · rw [strip_count hrest (by omega), hfive]
  · exact strip_rest (by decide) hrest (by omega)
  · rw [strip_eq, strip_eq]

/-- The check answers, and answers right unless its count of the factors of zero runs out. -/
lemma decimalMultOk_iff {vm ve me : ℤ} {mm : ℕ} (hlo : -2 ^ 63 ≤ vm) (hhi : vm < 2 ^ 63)
    (hpos : 0 < mm) (hmm : mm < 2 ^ 63) (hk : (ve - me).natAbs ≤ 1000) :
    ∃ b, decimalMultOk vm ve mm me = some b ∧ ((b = true ↔ IsMultiple vm ve mm me) ↔
      (vm = 0 →
        (padicValNat 2 mm : ℤ) ≤ ve - me + 64 ∧ (padicValNat 5 mm : ℤ) ≤ ve - me + 64)) := by
  obtain ⟨htwo, hfive, h2, h5, hprod⟩ := multiplier_parts hpos hmm
  refine ⟨_, decimalMultOk_eq hlo hhi hpos hmm hk, ?_⟩
  rw [decide_eq_true_eq]
  by_cases hvm : vm = 0
  · subst hvm
    have htrue : IsMultiple 0 ve mm me := isMultiple_zero ve mm me
    rw [Int.natAbs_zero, strip_zero, strip_zero, htwo, hfive]
    simp [htrue]
  · have : Fact (Nat.Prime 5) := ⟨Nat.prime_five⟩
    have hv : 0 < vm.natAbs := Int.natAbs_pos.mpr hvm
    have hsame := isMultiple_iff hv (b := (strip 2 64 mm).1)
      (c := (strip 5 64 (strip 2 64 mm).2).1) h2 h5 (ve - me)
    rw [hprod, ← isMultiple_natAbs, ← isMultiple_shift] at hsame
    rw [hsame, strip_count hv (by omega), strip_count hv (by omega)]
    simp [hvm]

end Check

/-! ## Every value and every multiplier -/

section Views

variable {dc : DecimalConv} {v : SValue} {m : Mult} {t : JNum} {vm ve mm me : ℤ}

/-- A view of a value fits its fields. -/
lemma SValue.view_bounds (hdc : dc.PrintsG) (hv : v.view dc = some (vm, ve)) :
    -2 ^ 63 ≤ vm ∧ vm < 2 ^ 63 ∧ -344 ≤ ve ∧ ve ≤ 324 := by
  cases v with
  | int i =>
    obtain ⟨rfl, rfl⟩ : i.toInt = vm ∧ 0 = ve := by simpa [SValue.view] using hv
    have hle := i.le_toInt
    have hlt := i.toInt_lt
    omega
  | float f =>
    by_cases hf : f.isFinite = true
    · obtain ⟨n, e, hdec, hn, hlo, hhi⟩ := schDecimalOfDouble_small hdc hf
      rw [SValue.view, hdec] at hv
      obtain ⟨rfl, rfl⟩ : (n : ℤ) = vm ∧ e = ve := by simpa using hv
      omega
    · rw [SValue.view, schDecimalOfDouble, if_neg hf] at hv
      simp at hv
  | _ => simp [SValue.view] at hv

/-- A view of a compiled multiplier fits its fields. -/
lemma Mult.view_bounds (hdc : dc.PrintsG) (hm : compileMult dc t = some (some m))
    (hview : m.view = some (mm, me)) : mm < 2 ^ 63 ∧ -344 ≤ me ∧ me ≤ 324 := by
  have hpos : (!(Double.lt ⟨0⟩ t.toDouble)) = false := by
    by_contra hneg
    rw [compileMult.eq_def, if_pos (by simpa using hneg)] at hm
    simp at hm
  cases t with
  | int i =>
    obtain rfl : _ = m := by simpa [compileMult, hpos] using hm
    obtain ⟨rfl, rfl⟩ : i.toInt = mm ∧ 0 = me := by simpa [Mult.view] using hview
    have hlt := i.toInt_lt
    omega
  | num d =>
    by_cases hd : d.isFinite = true
    · obtain ⟨n, e, hdec, hn, hlo, hhi⟩ := schDecimalOfDouble_small hdc hd
      obtain rfl : _ = m := by simpa [compileMult, hpos, hdec] using hm
      obtain ⟨rfl, rfl⟩ : (Int64.ofInt n).toInt = mm ∧ e = me := by
        simpa [Mult.view] using hview
      have hlt := (Int64.ofInt n).toInt_lt
      omega
    · obtain rfl : _ = m := by simpa [compileMult, hpos, schDecimalOfDouble, hd] using hm
      simp [Mult.view] at hview

lemma compileMult_num {d : Double} {mant exp : ℤ} (hpos : Double.lt ⟨0⟩ d = true)
    (hdec : schDecimalOfDouble dc d = some (some (mant, exp))) :
    compileMult dc (.num d) = some (some ⟨d, 0, false, true, .ofInt mant, exp⟩) := by
  simp [compileMult, JNum.toDouble, hpos, hdec]

/-- What the check of an integer by an integer answers. -/
lemma intMultOk_eq {i imult : Int64} (hpos : 0 < imult.toInt) :
    intMultOk i imult = some (decide (imult.toInt ∣ i.toInt)) := by
  have hne : imult ≠ 0 := by
    rintro rfl
    exact absurd hpos (by decide)
  rw [intMultOk, if_neg hne, if_neg (by omega)]
  simp only [Int.dvd_iff_tmod_eq_zero]

/-- The check is the one of integers, or the one of decimal views. -/
lemma schMultOk_eq (hv : v.view dc = some (vm, ve)) (hview : m.view = some (mm, me)) :
    (ve = 0 ∧ me = 0 ∧ ∃ i imult : Int64, i.toInt = vm ∧ imult.toInt = mm ∧
      schMultOk dc m v = intMultOk i imult) ∨ schMultOk dc m v = decimalMultOk vm ve mm me := by
  have hmult : (m.isInt = true ∧ m.imult.toInt = mm ∧ me = 0) ∨
      (m.isInt = false ∧ m.exact = true ∧ m.mant.toInt = mm ∧ m.exp = me) := by
    rw [Mult.view] at hview
    split_ifs at hview with hint hexact
    · simp only [Option.some.injEq, Prod.mk.injEq] at hview
      exact .inl ⟨hint, hview.1, hview.2.symm⟩
    · simp only [Option.some.injEq, Prod.mk.injEq] at hview
      exact .inr ⟨by simpa using hint, hexact, hview⟩
  cases v with
  | int i =>
    simp only [SValue.view, Option.some.injEq, Prod.mk.injEq] at hv
    obtain ⟨rfl, rfl⟩ := hv
    rcases hmult with ⟨hint, rfl, rfl⟩ | ⟨hint, hexact, rfl, rfl⟩
    · refine .inl ⟨rfl, rfl, i, m.imult, rfl, rfl, ?_⟩
      rw [schMultOk, if_pos hint]
    · right
      rw [schMultOk, if_neg (by simp [hint]), if_pos hexact]
  | float f =>
    right
    have hdec : schDecimalOfDouble dc f = some (some (vm, ve)) := by
      rw [SValue.view] at hv
      exact Option.join_eq_some_iff.mp hv
    have hf : f.isFinite = true := by
      by_contra hneg
      rw [schDecimalOfDouble, if_neg hneg] at hdec
      simp at hdec
    rw [schMultOk, if_pos hf, hdec, Option.bind_some]
    rcases hmult with ⟨hint, rfl, rfl⟩ | ⟨hint, hexact, rfl, rfl⟩
    · simp [hint]
    · simp [hint, hexact]
  | _ => simp [SValue.view] at hv

/-- The check answers whether the value is a multiple, except where it runs out of factors of
zero: its counts stop at 64, and the exponents may be further apart. -/
theorem schMultOk_iff (hdc : dc.PrintsG) (hm : compileMult dc t = some (some m))
    (hv : v.view dc = some (vm, ve)) (hview : m.view = some (mm, me)) (hpos : 0 < mm) :
    (∃ b, schMultOk dc m v = some b ∧ (b = true ↔ IsMultiple vm ve mm me)) ↔
      (vm = 0 → (padicValNat 2 mm.toNat : ℤ) ≤ ve - me + 64 ∧
        (padicValNat 5 mm.toNat : ℤ) ≤ ve - me + 64) := by
  obtain ⟨hvlo, hvhi, hve, hve'⟩ := SValue.view_bounds hdc hv
  obtain ⟨hmhi, hme, hme'⟩ := Mult.view_bounds hdc hm hview
  obtain ⟨n, rfl⟩ := Int.eq_ofNat_of_zero_le hpos.le
  rw [Int.toNat_natCast]
  rcases schMultOk_eq hv hview with ⟨rfl, rfl, i, imult, rfl, himult, hok⟩ | hok
  · rw [hok, intMultOk_eq (by omega), himult]
    obtain ⟨htwo, hfive, -⟩ := @multiplier_parts n (by omega) (by omega)
    have h2 := strip_count_le 2 64 n
    have h5 := strip_count_le 5 64 (strip 2 64 n).2
    refine ⟨fun _ _ => by omega, fun _ => ⟨_, rfl, ?_⟩⟩
    rw [decide_eq_true_eq, isMultiple_int]
  · obtain ⟨b, hb, hiff⟩ := @decimalMultOk_iff _ ve me n hvlo hvhi
      (by omega) (by omega) (by omega)
    rw [hok, hb, ← hiff]
    simp

end Views

/-- The conversions, as far as one double needs them. -/
def DecimalConv.sample (d : Double) (t : Bytes) : DecimalConv :=
  ⟨fun _ x => if x = d then t else ascii "0", fun s => if s = t then d else ⟨0⟩⟩

lemma isGText_mono {prec prec' : ℕ} (hle : prec ≤ prec') {t : Bytes} (h : IsGText prec t) :
    IsGText prec' t := by
  obtain ⟨sign, ip, fp, ex, ht, hsign, hne, hip, hfp, hval, hrest⟩ := h
  exact ⟨sign, ip, fp, ex, ht, hsign, hne, hip, hfp,
    hval.trans_le (Nat.pow_le_pow_right (by decide) hle), hrest⟩

lemma DecimalConv.sample_printsG {d : Double} {t : Bytes} (h : IsGText 1 t) :
    (DecimalConv.sample d t).PrintsG := by
  intro x _ prec hone _
  refine isGText_mono hone ?_
  rw [sample]
  dsimp only
  split_ifs
  · exact h
  · exact ⟨[], ascii "0", [], [], by decide, .inl rfl, by decide, by decide +kernel,
      by decide +kernel, by decide, by decide, .inl rfl⟩

/-- One is a multiple of a half. -/
theorem schMultOk_iff_half :
    (∃ b, schMultOk (.sample ⟨0x3FE0000000000000⟩ (ascii "0.5"))
        ⟨⟨0x3FE0000000000000⟩, 0, false, true, 5, -1⟩ (.int 1) = some b ∧
      (b = true ↔ IsMultiple 1 0 5 (-1))) ↔
      ((1 : ℤ) = 0 → (padicValNat 2 (5 : ℤ).toNat : ℤ) ≤ 0 - -1 + 64 ∧
        (padicValNat 5 (5 : ℤ).toNat : ℤ) ≤ 0 - -1 + 64) := by
  have htext : IsGText 1 (ascii "0.5") :=
    ⟨[], ascii "0", ascii "5", [], by decide, .inl rfl, by decide, by decide +kernel,
      by decide +kernel, by decide, by decide, .inl rfl⟩
  have hpos : Double.lt ⟨0⟩ ⟨0x3FE0000000000000⟩ = true := by decide +kernel
  have hview : schDecimalOfDouble (.sample ⟨0x3FE0000000000000⟩ (ascii "0.5"))
      ⟨0x3FE0000000000000⟩ = some (some (5, -1)) := by decide +kernel
  exact schMultOk_iff (DecimalConv.sample_printsG htext) (compileMult_num hpos hview) rfl rfl
    (by decide)

/-- Zero is a multiple of `1e100`, but the check says that it is not. -/
theorem schMultOk_zero :
    ∃ dc : DecimalConv, dc.PrintsG ∧
      ∃ m, compileMult dc (.num ⟨0x54B249AD2594C37D⟩) = some (some m) ∧
        (SValue.int 0).view dc = some (0, 0) ∧ m.view = some (1, 100) ∧
        schMultOk dc m (.int 0) = some false ∧ IsMultiple 0 0 1 100 := by
  have htext : IsGText 1 (ascii "1e+100") :=
    ⟨[], ascii "1", [], ascii "e+100", by decide, .inl rfl, by decide, by decide +kernel,
      by decide +kernel, by decide, by decide,
      .inr ⟨Ch.plus, ascii "100", by decide, .inl rfl, by decide +kernel, by decide⟩⟩
  have hpos : Double.lt ⟨0⟩ ⟨0x54B249AD2594C37D⟩ = true := by decide +kernel
  have hview : schDecimalOfDouble (.sample ⟨0x54B249AD2594C37D⟩ (ascii "1e+100"))
      ⟨0x54B249AD2594C37D⟩ = some (some (1, 100)) := by decide +kernel
  exact ⟨_, DecimalConv.sample_printsG htext, _, compileMult_num hpos hview, rfl, rfl,
    by decide +kernel, isMultiple_zero 0 1 100⟩

end Teptris
