import Teptris.Dom.Rounded
import Teptris.Schema.Compiled
import Teptris.Schema.JsonLeaves

/-!
# Bounds on numbers

`minimum`, `maximum`, `exclusiveMinimum` and `exclusiveMaximum`: a bound is kept as a double and as
an integer, and a cast of the double tells which of the two an integer is compared with.
-/

namespace Teptris

/-! ## Compilation -/

/-- The branches of `sch_compile_node` for a bound: only an integer sets both fields. -/
def Bound.set (b : Bound) : JNum → Bound
  | .int i => ⟨.ofInt64 i, i⟩
  | .num d => ⟨d, b.i⟩

/-- The bound of a schema object, from the numbers of the members of that name in order. -/
def compileBound (ts : List JNum) : Bound := ts.foldl Bound.set ⟨⟨0⟩, 0⟩

/-! ## The check -/

namespace NumKeyword

/-- The comparison of `val` with the integer field. -/
def intWithin (kw : NumKeyword) (v i : Int64) : Bool :=
  match kw with
  | minimum => i ≤ v
  | maximum => v ≤ i
  | exclusiveMinimum => i < v
  | exclusiveMaximum => v < i

/-- The comparison of `val` with the field that is a double. -/
def floatWithin (kw : NumKeyword) (fv f : Double) : Bool :=
  match kw with
  | minimum => f.le fv
  | maximum => fv.le f
  | exclusiveMinimum => f.lt fv
  | exclusiveMaximum => fv.lt f

/-- What the keyword demands of integers. -/
def Holds (kw : NumKeyword) (v n : ℤ) : Prop :=
  match kw with
  | minimum => n ≤ v
  | maximum => v ≤ n
  | exclusiveMinimum => n < v
  | exclusiveMaximum => v < n

/-- Between two bounds: one of them lets the number pass, and the other does not. -/
def Between (kw : NumKeyword) (a b v : ℤ) : Prop :=
  match kw with
  | minimum => min a b ≤ v ∧ v < max a b
  | maximum => min a b < v ∧ v ≤ max a b
  | exclusiveMinimum => min a b < v ∧ v ≤ max a b
  | exclusiveMaximum => min a b ≤ v ∧ v < max a b

end NumKeyword

/-- The check of one bound; `out` is what the cast of a double that is out of range gives. -/
def within (out : Int64) (kw : NumKeyword) (b : Bound) : SValue → Bool
  | .int v =>
    if b.f.eq (.ofInt64 (b.f.toInt64 out)) then kw.intWithin v b.i
    else kw.floatWithin (.ofInt64 v) b.f
  | .float f => kw.floatWithin f b.f
  | _ => true

/-! ## What the check compares with -/

/-- The last of the numbers that is written as an integer, or zero. -/
def lastInt (ts : List JNum) : Int64 :=
  ts.foldl (fun i t => match t with
    | .int j => j
    | .num _ => i) 0

/-- What a comparison with the double `2 ^ 63` comes to. -/
def NumKeyword.topBound (kw : NumKeyword) : ℤ :=
  match kw with
  | minimum => 2 ^ 63 - 512
  | maximum => 2 ^ 63 - 1
  | exclusiveMinimum => 2 ^ 63 - 1
  | exclusiveMaximum => 2 ^ 63 - 512

/-- The integer an integer is really compared with, where the last number stands for `n`. -/
def compared (out : Int64) (kw : NumKeyword) (earlier : List JNum) (t : JNum) (n : ℤ) : ℤ :=
  if n < 2 ^ 63 - 512 ∨ 2 ^ 63 - 512 ≤ out.toInt then
    match t with
    | .int _ => n
    | .num _ => (lastInt earlier).toInt
  else kw.topBound

/-- A number that stands for an integer: as it is, or rounded. -/
def JNum.Denotes (t : JNum) (n : ℤ) : Prop :=
  match t with
  | .int i => i.toInt = n
  | .num d => d.Rounds n

section Check

variable {kw : NumKeyword} {out : Int64} {d : Double} {n : ℤ}

lemma NumKeyword.intWithin_iff {v i : Int64} :
    kw.intWithin v i = true ↔ kw.Holds v.toInt i.toInt := by
  cases kw <;> simp [intWithin, Holds, Int64.le_iff_toInt_le, Int64.lt_iff_toInt_lt]

/-- Two bounds agree on a number that does not lie between them. -/
lemma NumKeyword.holds_iff {a b v : ℤ} :
    (kw.Holds v a ↔ kw.Holds v b) ↔ ¬ kw.Between a b v := by
  cases kw <;> simp only [Holds, Between] <;> omega

/-- An integer that a double stands for is rounded to that double. -/
lemma Double.Rounds.exact {g : Double} (hd : d.Rounds n) (hg : g.isFinite = true)
    (hmag : g.magnitude = n.natAbs) : d.value = n := by
  have hle := hd.near.le g hg
  rw [hmag, sub_self, abs_zero, abs_nonpos_iff, sub_eq_zero] at hle
  rw [Double.value, ← hle]
  rcases lt_trichotomy n 0 with hneg | rfl | hpos
  · rw [if_pos (hd.neg hneg)]
    rw [Nat.cast_natAbs, abs_of_neg hneg, Int.cast_neg, neg_neg]
  · simp
  · rw [if_neg (by simp [hd.pos hpos])]
    rw [Nat.cast_natAbs, abs_of_pos hpos]

/-- The cast takes a double back that stands for an integer in range. -/
lemma toInt64_value {y : ℤ} (hfin : d.isFinite = true) (hd : d.value = y) :
    d.toInt64 out = if -2 ^ 63 ≤ y ∧ y < 2 ^ 63 then Int64.ofInt y else out := by
  have htrunc : d.value.num.tdiv d.value.den = y := by
    rw [hd]
    simp
  rw [Double.toInt64, htrunc]
  simp [hfin]

lemma magnitude_of_value {y : ℤ} (hd : d.value = y) : d.magnitude = y.natAbs := by
  have habs : |d.value| = d.magnitude := by
    rw [Double.value]
    split_ifs
    · rw [abs_neg, abs_of_nonneg (Double.magnitude_nonneg d)]
    · rw [abs_of_nonneg (Double.magnitude_nonneg d)]
  rw [← habs, hd, ← Int.cast_abs, Int.abs_eq_natAbs]
  rfl

/-- The test of the cast: it fails where the double is `2 ^ 63`, and the cast gives something that
is not rounded to that. -/
lemma cast_test (hd : d.Rounds n) (hlo : -2 ^ 63 ≤ n) (hhi : n < 2 ^ 63) :
    d.eq (.ofInt64 (d.toInt64 out)) = true ↔ n < 2 ^ 63 - 512 ∨ 2 ^ 63 - 512 ≤ out.toInt := by
  obtain ⟨y, hy, hylo, hyhi, htop⟩ := hd.value hlo hhi
  have hround := Double.rounds_ofInt64 (d.toInt64 out)
  rw [Double.eq_iff hd.near.finite hround.near.finite, hy]
  by_cases hmax : y = 2 ^ 63
  · have hcast : d.toInt64 out = out := by
      rw [toInt64_value hd.near.finite hy, if_neg (by omega)]
    rw [hcast] at hround ⊢
    obtain ⟨z, hz, -, -, hztop⟩ := hround.value out.le_toInt out.toInt_lt
    rw [hz, hmax, Int.cast_inj, eq_comm, hztop]
    omega
  · have hcast : (d.toInt64 out).toInt = y := by
      rw [toInt64_value hd.near.finite hy, if_pos (by omega), Int64.toInt_ofInt_of_le (by omega)
        (by omega)]
    rw [hcast] at hround
    rw [hround.exact hd.near.finite (magnitude_of_value hy)]
    simp only [true_iff]
    omega

/-- The comparison with the double `2 ^ 63`. -/
lemma floatWithin_top {v : Int64} (hd : d.isFinite = true) (htop : d.value = ((2 ^ 63 : ℤ) : ℚ)) :
    kw.floatWithin (.ofInt64 v) d = true ↔ kw.Holds v.toInt kw.topBound := by
  have hround := Double.rounds_ofInt64 v
  have hfin := hround.near.finite
  have hlt := v.toInt_lt
  obtain ⟨z, hz, -, hzle, hztop⟩ := hround.value v.le_toInt v.toInt_lt
  cases kw <;> simp only [NumKeyword.floatWithin, NumKeyword.Holds, NumKeyword.topBound]
  · rw [Double.le_iff hd hfin, hz, htop, Int.cast_le]
    omega
  · rw [Double.le_iff hfin hd, hz, htop, Int.cast_le]
    omega
  · rw [Double.lt_iff hd hfin, hz, htop, Int.cast_lt]
    omega
  · rw [Double.lt_iff hfin hd, hz, htop, Int.cast_lt]
    omega

/-- The integer field keeps the last number that is written as an integer. -/
lemma compileBound_i (ts : List JNum) : (compileBound ts).i = lastInt ts := by
  have hfold : ∀ (ts : List JNum) (b : Bound), (ts.foldl Bound.set b).i =
      ts.foldl (fun i t => match t with
        | .int j => j
        | .num _ => i) b.i := by
    intro ts
    induction ts with
    | nil => exact fun _ => rfl
    | cons t ts ih =>
      intro b
      cases t <;> exact ih _
  exact hfold ts _

/-- The check compares an integer with the bound, or with something else. -/
lemma within_iff {earlier : List JNum} {t : JNum} (ht : t.Denotes n) (hlo : -2 ^ 63 ≤ n)
    (hhi : n < 2 ^ 63) (v : Int64) :
    within out kw (compileBound (earlier ++ [t])) (.int v) = true ↔
      kw.Holds v.toInt (compared out kw earlier t n) := by
  have hset : compileBound (earlier ++ [t]) = (compileBound earlier).set t := by
    rw [compileBound, List.foldl_append]
    rfl
  have hround : ((compileBound earlier).set t).f.Rounds n := by
    cases t with
    | int i =>
      obtain rfl : i.toInt = n := ht
      exact Double.rounds_ofInt64 i
    | num d => exact ht
  obtain ⟨y, hy, -, hyle, htop⟩ := hround.value hlo hhi
  rw [hset, within, compared.eq_def]
  by_cases hcast : n < 2 ^ 63 - 512 ∨ 2 ^ 63 - 512 ≤ out.toInt
  · rw [if_pos ((cast_test hround hlo hhi).mpr hcast), if_pos hcast, NumKeyword.intWithin_iff]
    cases t with
    | int i =>
      obtain rfl : i.toInt = n := ht
      rfl
    | num d =>
      rw [← compileBound_i]
      rfl
  · have hmax : y = 2 ^ 63 := by
      rw [htop]
      omega
    rw [if_neg (mt (cast_test hround hlo hhi).mp hcast), if_neg hcast]
    exact floatWithin_top hround.near.finite (by rw [hy, hmax])

end Check

/-! ## Every spelling -/

/-- `strtod` rounds a number of JSON: it keeps the sign, and the magnitude is the nearest one. -/
def StrtodRounds (strtod : Bytes → Double) (tok : Bytes) (neg : Bool) (mag : ℚ) : Prop :=
  (strtod tok).signBit = neg ∧ (strtod tok).IsNearest mag

section Spelling

variable {strtod : Bytes → Double} {tok : Bytes} {neg : Bool} {mag : ℚ} {n : ℤ}

lemma isNumber_nonneg (h : Json.IsNumber tok neg mag) : 0 ≤ mag := by
  obtain ⟨int, frac, ds, exp, e, -, -, -, -, rfl⟩ := h
  exact mul_nonneg (Nat.cast_nonneg _) (zpow_nonneg (by norm_num) _)

/-- Only a number without a fraction and an exponent has digits only, and they are its value. -/
lemma isNumber_digits (h : Json.IsNumber tok neg mag)
    (hall : ∀ c ∈ (if neg then tok.drop 1 else tok), isDec c = true) :
    mag = decVal (if neg then tok.drop 1 else tok) := by
  obtain ⟨int, frac, ds, exp, e, hint, hfrac, hexp, rfl, rfl⟩ := h
  have hbody : (if neg then
      (((if neg then [0x2D] else []) ++ int ++ frac ++ exp : Bytes)).drop 1
      else (if neg then [0x2D] else []) ++ int ++ frac ++ exp) = int ++ frac ++ exp := by
    cases neg <;> simp
  rw [hbody] at hall ⊢
  have hnofrac : frac = [] ∧ ds = [] := by
    cases hfrac with
    | absent => exact ⟨rfl, rfl⟩
    | digits => exact absurd (hall 0x2E (by simp)) (by decide)
  have hnoexp : exp = [] ∧ e = 0 := by
    cases hexp with
    | absent => exact ⟨rfl, rfl⟩
    | unsigned hmark | signed hmark =>
      have hmem := hall _ (List.mem_append_right _ (List.mem_cons_self ..))
      rcases hmark with rfl | rfl <;> exact absurd hmem (by decide)
  rw [hnofrac.1, hnofrac.2, hnoexp.1, hnoexp.2]
  simp [Json.magnitude, Json.digitsVal, decFrom]

/-- A token is read as the integer it stands for, or rounded. -/
lemma jnumber_denotes (h : Json.IsNumber tok neg mag) (hstr : StrtodRounds strtod tok neg mag)
    (hn : (if neg then -mag else mag) = n) : (jnumber strtod tok).Denotes n := by
  have hhead : decide (tok.head? = some Ch.minus) = neg := by
    obtain ⟨int, frac, ds, exp, e, hint, -, -, rfl, -⟩ := h
    have hne : int ++ (frac ++ exp) ≠ [] := List.append_ne_nil_of_left_ne_nil hint.ne_nil _
    rw [List.append_assoc, List.append_assoc]
    refine (head_signed hne fun c hc => ?_).1
    rw [List.head?_append_of_ne_nil _ hint.ne_nil] at hc
    exact hint.digits c (List.mem_of_head? hc)
  have hpos := isNumber_nonneg h
  have hround : (strtod tok).Rounds n := by
    refine ⟨?_, fun hlt => ?_, fun hgt => ?_⟩
    · have habs : ((n.natAbs : ℕ) : ℚ) = mag := by
        rw [Nat.cast_natAbs, Int.cast_abs, ← hn]
        split_ifs
        · rw [abs_neg, abs_of_nonneg hpos]
        · rw [abs_of_nonneg hpos]
      rw [habs]
      exact hstr.2
    · rw [hstr.1]
      cases neg with
      | true => rfl
      | false =>
        have : (n : ℚ) < 0 := by exact_mod_cast hlt
        rw [← hn, if_neg (by simp)] at this
        linarith
    · rw [hstr.1]
      cases neg with
      | false => rfl
      | true =>
        have : (0 : ℚ) < n := by exact_mod_cast hgt
        rw [← hn, if_pos rfl] at this
        linarith
  rw [jnumber, hhead]
  by_cases hint : (if neg then tok.drop 1 else tok) ≠ [] ∧
      (if neg then tok.drop 1 else tok).all isDec ∧
      -2 ^ 63 ≤ (if neg then -(decVal (if neg then tok.drop 1 else tok) : ℤ)
        else decVal (if neg then tok.drop 1 else tok)) ∧
      (if neg then -(decVal (if neg then tok.drop 1 else tok) : ℤ)
        else decVal (if neg then tok.drop 1 else tok)) < 2 ^ 63
  · rw [if_pos hint]
    have hval := isNumber_digits h (List.all_eq_true.mp hint.2.1)
    have hsame : (if neg then -(decVal (if neg then tok.drop 1 else tok) : ℤ)
        else decVal (if neg then tok.drop 1 else tok)) = n := by
      rw [hval] at hn
      cases neg <;> exact_mod_cast hn
    show (Int64.ofInt _).toInt = n
    rw [Int64.toInt_ofInt_of_le (by omega) (by omega), hsame]
  · rw [if_neg hint]
    exact hround

/-- An integer is compared with a bound, however the bound is written, unless it lies between the
bound and what the check compares with instead. -/
theorem within_exact_iff (out : Int64) (kw : NumKeyword) (earlier : List Bytes) (N v : Int64)
    (h : Json.IsNumber tok neg mag) (hstr : StrtodRounds strtod tok neg mag)
    (hN : (if neg then -mag else mag) = N.toInt) :
    (within out kw (compileBound ((earlier ++ [tok]).map (jnumber strtod))) (.int v) = true ↔
      kw.Holds v.toInt N.toInt) ↔
      ¬ kw.Between (compared out kw (earlier.map (jnumber strtod)) (jnumber strtod tok) N.toInt)
        N.toInt v.toInt := by
  rw [List.map_append, List.map_singleton,
    within_iff (jnumber_denotes h hstr hN) N.le_toInt N.toInt_lt, NumKeyword.holds_iff]

end Spelling

/-! ## Three, in two spellings -/

/-- `strtod` on the spellings of three. -/
def threeStrtod (_ : Bytes) : Double := ⟨0x4008000000000000⟩

lemma threeStrtod_rounds (tok : Bytes) : StrtodRounds threeStrtod tok false 3 := by
  have hthree : (⟨0x4008000000000000⟩ : Double) = Double.ofNat 3 := by decide
  have hnear := (Double.ofNat_isNearest (n := 3) (by norm_num)).1
  refine ⟨show (⟨0x4008000000000000⟩ : Double).signBit = false by decide, ?_⟩
  rw [threeStrtod, hthree]
  exact_mod_cast hnear

lemma isNumber_three : Json.IsNumber (ascii "3") false 3 :=
  ⟨[0x33], [], [], [], 0, ⟨by decide +kernel, by decide, by decide⟩, .absent, .absent, by decide, by
    have hval : Json.digitsVal [0x33] = 3 := by decide
    norm_num [Json.magnitude, hval]⟩

lemma isNumber_three_point : Json.IsNumber (ascii "3.0") false 3 :=
  ⟨[0x33], [0x2E, 0x30], [0x30], [], 0, ⟨by decide +kernel, by decide, by decide⟩,
    .digits (by decide +kernel) (by decide), .absent, by decide, by
    have hval : Json.digitsVal [0x33, 0x30] = 30 := by decide
    norm_num [Json.magnitude, hval]⟩

/-- The minimum three, and two. -/
theorem within_exact_three :
    (within 0 .minimum (compileBound (([] ++ [ascii "3"]).map (jnumber threeStrtod))) (.int 2) =
        true ↔ NumKeyword.minimum.Holds (2 : Int64).toInt (3 : Int64).toInt) ↔
      ¬ NumKeyword.minimum.Between
          (compared 0 .minimum (([] : List Bytes).map (jnumber threeStrtod))
        (jnumber threeStrtod (ascii "3")) (3 : Int64).toInt) (3 : Int64).toInt (2 : Int64).toInt :=
  within_exact_iff 0 .minimum [] 3 2 isNumber_three (threeStrtod_rounds _) (by norm_num; rfl)

/-- With a point behind it, the minimum three lets two pass. -/
theorem within_three_point :
    Json.IsNumber (ascii "3.0") false 3 ∧ StrtodRounds threeStrtod (ascii "3.0") false 3 ∧
      within 0 .minimum (compileBound [jnumber threeStrtod (ascii "3.0")]) (.int 2) = true ∧
      ¬ NumKeyword.minimum.Holds (2 : Int64).toInt 3 :=
  ⟨isNumber_three_point, threeStrtod_rounds _, by decide +kernel, by
    show ¬ (3 : ℤ) ≤ (2 : Int64).toInt
    decide⟩

end Teptris
