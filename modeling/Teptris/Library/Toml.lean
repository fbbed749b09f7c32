import Mathlib.Algebra.Field.Rat
import Mathlib.Data.Nat.Basic
import Mathlib.Tactic.Common

/-!
# Scalars of TOML

The integers, the floats and the date-times of TOML 1.1 over bytes, as relations between a text and
what it denotes.  The relation of date-times is taken over the rule for a time, so that readers
with another rule can be compared with it.
-/

namespace Toml

/-! ## Digits -/

/-- `DIGIT`. -/
def isDigit (c : UInt8) : Bool := 0x30 ≤ c && c ≤ 0x39

/-- The value of decimal digits. -/
def digitsVal (ds : List UInt8) : ℕ := ds.foldl (fun m c => m * 10 + (c.toNat - 0x30)) 0

/-- That many digits with that value. -/
structure IsDigits (n : ℕ) (t : List UInt8) (v : ℕ) : Prop where
  /-- How many. -/
  length : t.length = n
  /-- Digits. -/
  digits : ∀ c ∈ t, isDigit c = true
  /-- Their value. -/
  val : digitsVal t = v

/-- Two digits. -/
lemma isDigits_two {t : List UInt8} {v : ℕ} : IsDigits 2 t v ↔
    ∃ a b, t = [a, b] ∧ isDigit a = true ∧ isDigit b = true ∧
      v = (a.toNat - 0x30) * 10 + (b.toNat - 0x30) := by
  constructor
  · rintro ⟨hlen, hdigits, hval⟩
    obtain ⟨a, b, rfl⟩ : ∃ a b, t = [a, b] := by
      match t, hlen with
      | [a, b], _ => exact ⟨a, b, rfl⟩
    refine ⟨a, b, rfl, hdigits a (by simp), hdigits b (by simp), ?_⟩
    simpa [digitsVal] using hval.symm
  · rintro ⟨a, b, rfl, ha, hb, rfl⟩
    exact ⟨rfl, by simp [ha, hb], by simp [digitsVal]⟩

/-- Four digits are twice two. -/
lemma isDigits_four {t : List UInt8} {v : ℕ} : IsDigits 4 t v ↔
    ∃ t₁ v₁ t₂ v₂, IsDigits 2 t₁ v₁ ∧ IsDigits 2 t₂ v₂ ∧ t = t₁ ++ t₂ ∧ v = v₁ * 100 + v₂ := by
  constructor
  · rintro ⟨hlen, hdigits, hval⟩
    obtain ⟨a, b, c, d, rfl⟩ : ∃ a b c d, t = [a, b, c, d] := by
      match t, hlen with
      | [a, b, c, d], _ => exact ⟨a, b, c, d, rfl⟩
    refine ⟨[a, b], digitsVal [a, b], [c, d], digitsVal [c, d], ⟨rfl, ?_, rfl⟩, ⟨rfl, ?_, rfl⟩,
      rfl, ?_⟩
    · exact fun x hx => hdigits x (List.mem_append_left [c, d] hx)
    · exact fun x hx => hdigits x (List.mem_append_right [a, b] hx)
    · rw [← hval]
      simp only [digitsVal, List.foldl_cons, List.foldl_nil]
      omega
  · rintro ⟨t₁, v₁, t₂, v₂, h₁, h₂, rfl, rfl⟩
    obtain ⟨a, b, rfl, ha, hb, rfl⟩ := isDigits_two.mp h₁
    obtain ⟨c, d, rfl, hc, hd, rfl⟩ := isDigits_two.mp h₂
    refine ⟨rfl, by simp [ha, hb, hc, hd], ?_⟩
    simp only [digitsVal, List.cons_append, List.nil_append, List.foldl_cons, List.foldl_nil]
    omega

/-- A number of two digits. -/
lemma IsDigits.lt_hundred {t : List UInt8} {v : ℕ} (h : IsDigits 2 t v) : v < 100 := by
  obtain ⟨a, b, -, ha, hb, rfl⟩ := isDigits_two.mp h
  simp only [isDigit, Bool.and_eq_true, decide_eq_true_eq, UInt8.le_iff_toNat_le] at ha hb
  have hnine : (0x39 : UInt8).toNat = 57 := rfl
  omega

/-! ## Numbers -/

/-- A hexadecimal digit, of either case. -/
def isHexDigit (c : UInt8) : Bool :=
  isDigit c || (0x61 ≤ c && c ≤ 0x66) || (0x41 ≤ c && c ≤ 0x46)

/-- An octal digit. -/
def isOctDigit (c : UInt8) : Bool := 0x30 ≤ c && c ≤ 0x37

/-- A binary digit. -/
def isBinDigit (c : UInt8) : Bool := c == 0x30 || c == 0x31

/-- The value of a digit. -/
def digitValue (c : UInt8) : ℕ :=
  if c ≤ 0x39 then c.toNat - 0x30 else if c ≤ 0x46 then c.toNat - 0x37 else c.toNat - 0x57

/-- The value of digits to a base that follow the value `v`. -/
def runFrom (base v : ℕ) (ds : List UInt8) : ℕ := ds.foldl (fun v c => v * base + digitValue c) v

/-- The value of digits to a base. -/
abbrev runValue (base : ℕ) (ds : List UInt8) : ℕ := runFrom base 0 ds

/-- More digits make a number no smaller. -/
lemma le_runFrom {base : ℕ} (hbase : 0 < base) (v : ℕ) (ds : List UInt8) :
    v ≤ runFrom base v ds := by
  induction ds generalizing v with
  | nil => exact Nat.le_refl v
  | cons c ds ih =>
    have hstep : v ≤ v * base + digitValue c :=
      Nat.le_trans (Nat.le_mul_of_pos_right v hbase) (Nat.le_add_right _ _)
    exact Nat.le_trans hstep (ih _)

/-- Digits with underscores between them, and the digits alone. -/
inductive IsRun (digit : UInt8 → Bool) : List UInt8 → List UInt8 → Prop
  | one {c : UInt8} (hc : digit c = true) : IsRun digit [c] [c]
  | digit {c : UInt8} {t ds : List UInt8} (hc : digit c = true) (h : IsRun digit t ds) :
      IsRun digit (c :: t) (c :: ds)
  | under {c : UInt8} {t ds : List UInt8} (hc : digit c = true) (h : IsRun digit t ds) :
      IsRun digit (c :: 0x5F :: t) (c :: ds)

/-- `unsigned-dec-int`, with its digits. -/
structure IsDecimal (t ds : List UInt8) : Prop where
  /-- Its digits. -/
  run : IsRun isDigit t ds
  /-- A zero leads only alone. -/
  lead : ds.head? = some 0x30 → ds = [0x30]

/-- `hex-int`, `oct-int` and `bin-int`, with their digits and their value. -/
inductive IsPrefixed : List UInt8 → List UInt8 → ℕ → Prop
  | hex {t ds : List UInt8} (h : IsRun isHexDigit t ds) :
      IsPrefixed (0x30 :: 0x78 :: t) ds (runValue 16 ds)
  | oct {t ds : List UInt8} (h : IsRun isOctDigit t ds) :
      IsPrefixed (0x30 :: 0x6F :: t) ds (runValue 8 ds)
  | bin {t ds : List UInt8} (h : IsRun isBinDigit t ds) :
      IsPrefixed (0x30 :: 0x62 :: t) ds (runValue 2 ds)

/-- `integer`, with its digits and its value. -/
inductive IsInteger : List UInt8 → List UInt8 → ℤ → Prop
  | decimal {t ds : List UInt8} (h : IsDecimal t ds) : IsInteger t ds (runValue 10 ds)
  | plus {t ds : List UInt8} (h : IsDecimal t ds) : IsInteger (0x2B :: t) ds (runValue 10 ds)
  | minus {t ds : List UInt8} (h : IsDecimal t ds) : IsInteger (0x2D :: t) ds (-runValue 10 ds)
  | radix {t ds : List UInt8} {v : ℕ} (h : IsPrefixed t ds v) : IsInteger t ds v

/-! ### Runs -/

section Runs

variable {digit : UInt8 → Bool} {t ds : List UInt8}

/-- A run has a digit at its front. -/
lemma IsRun.head (h : IsRun digit t ds) :
    ∃ c t' ds', t = c :: t' ∧ ds = c :: ds' ∧ digit c = true := by
  cases h with
  | one hc => exact ⟨_, _, _, rfl, rfl, hc⟩
  | digit hc h => exact ⟨_, _, _, rfl, rfl, hc⟩
  | under hc h => exact ⟨_, _, _, rfl, rfl, hc⟩

/-- The digits of a run are digits. -/
lemma IsRun.digits (h : IsRun digit t ds) : ∀ c ∈ ds, digit c = true := by
  induction h with
  | one hc => simpa using hc
  | digit hc h ih => exact fun d hd => (List.mem_cons.mp hd).elim (fun h => h ▸ hc) (ih d)
  | under hc h ih => exact fun d hd => (List.mem_cons.mp hd).elim (fun h => h ▸ hc) (ih d)

/-- A run holds digits and underscores. -/
lemma IsRun.mem (h : IsRun digit t ds) : ∀ c ∈ t, digit c = true ∨ c = 0x5F := by
  induction h with
  | one hc => simpa using .inl hc
  | digit hc h ih =>
    intro d hd
    rcases List.mem_cons.mp hd with rfl | hd
    · exact .inl hc
    · exact ih d hd
  | under hc h ih =>
    intro d hd
    rcases List.mem_cons.mp hd with rfl | hd
    · exact .inl hc
    · exact (List.mem_cons.mp hd).elim .inr (ih d)

/-- Digits without underscores are a run. -/
lemma isRun_self (hds : ∀ c ∈ ds, digit c = true) (hne : ds ≠ []) : IsRun digit ds ds := by
  induction ds with
  | nil => exact absurd rfl hne
  | cons c ds ih =>
    have hc := hds c (by simp)
    cases ds with
    | nil => exact .one hc
    | cons d ds => exact .digit hc (ih (fun e he => hds e (by simp [he])) (by simp))

end Runs

/-! ### Floats -/

/-- The digits of a run. -/
def digitsOf (t : List UInt8) : List UInt8 := t.filter (· != 0x5F)

/-- The digits of a run are what is left of it without its underscores. -/
lemma IsRun.digitsOf {digit : UInt8 → Bool} (hunder : digit 0x5F = false) {t ds : List UInt8}
    (h : IsRun digit t ds) : digitsOf t = ds := by
  have hne : ∀ {c : UInt8}, digit c = true → (c != 0x5F) = true := by
    intro c hc
    refine bne_iff_ne.mpr ?_
    rintro rfl
    rw [hunder] at hc
    exact absurd hc (by decide)
  induction h with
  | one hc => exact List.filter_cons_of_pos (hne hc)
  | @digit c t ds hc h ih =>
    have hcons : Toml.digitsOf (c :: t) = c :: Toml.digitsOf t := List.filter_cons_of_pos (hne hc)
    rw [hcons, ih]
  | @under c t ds hc h ih =>
    have hcons : Toml.digitsOf (c :: 0x5F :: t) = c :: Toml.digitsOf (0x5F :: t) :=
      List.filter_cons_of_pos (hne hc)
    have hskip : Toml.digitsOf (0x5F :: t) = Toml.digitsOf t := List.filter_cons_of_neg (by decide)
    rw [hcons, hskip, ih]

/-- No sign, or one of two. -/
def IsSign (t : List UInt8) : Prop := t = [] ∨ t = [0x2B] ∨ t = [0x2D]

/-- The texts of a float's parts; a fraction or an exponent that is not there is empty. -/
structure FloatText where
  /-- The sign. -/
  sign : List UInt8
  /-- What stands before the point. -/
  int : List UInt8
  /-- What stands behind the point. -/
  frac : List UInt8
  /-- The mark of the exponent. -/
  mark : UInt8
  /-- The sign of the exponent. -/
  expSign : List UInt8
  /-- The exponent. -/
  exp : List UInt8

namespace FloatText

/-- The point and the fraction. -/
def fracText (l : FloatText) : List UInt8 := if l.frac = [] then [] else 0x2E :: l.frac

/-- The mark, the sign and the digits of the exponent. -/
def expText (l : FloatText) : List UInt8 :=
  if l.exp = [] then [] else l.mark :: (l.expSign ++ l.exp)

/-- What stands behind the sign. -/
def unsigned (l : FloatText) : List UInt8 := l.int ++ (l.fracText ++ l.expText)

/-- The whole text. -/
def text (l : FloatText) : List UInt8 := l.sign ++ l.unsigned

/-- The sign of the value. -/
def neg (l : FloatText) : Bool := l.sign == [0x2D]

/-- The value of the exponent. -/
def exponent (l : FloatText) : ℤ :=
  if l.expSign = [0x2D] then -(digitsVal (digitsOf l.exp) : ℤ) else digitsVal (digitsOf l.exp)

/-- The magnitude of the value. -/
def magnitude (l : FloatText) : ℚ :=
  digitsVal (digitsOf l.int ++ digitsOf l.frac) * 10 ^ (l.exponent - (digitsOf l.frac).length)

/-- `float`: an integer part, and a fraction or an exponent. -/
structure Ok (l : FloatText) : Prop where
  /-- The sign. -/
  sign : IsSign l.sign
  /-- The integer part. -/
  int : IsDecimal l.int (digitsOf l.int)
  /-- The fraction. -/
  frac : l.frac ≠ [] → IsRun isDigit l.frac (digitsOf l.frac)
  /-- `e` or `E`. -/
  mark : l.mark = 0x65 ∨ l.mark = 0x45
  /-- The sign of the exponent. -/
  expSign : IsSign l.expSign
  /-- The exponent. -/
  exp : l.exp ≠ [] → IsRun isDigit l.exp (digitsOf l.exp)
  /-- It is no integer. -/
  isFloat : l.frac ≠ [] ∨ l.exp ≠ []

/-- Behind the integer part stands a point or the mark of an exponent. -/
lemma Ok.mark_head {l : FloatText} (h : l.Ok) :
    ∃ c t, l.fracText ++ l.expText = c :: t ∧ (c = 0x2E ∨ c = 0x65 ∨ c = 0x45) := by
  by_cases hfrac : l.frac = []
  · have hexp : l.exp ≠ [] := h.isFloat.resolve_left fun hc => hc hfrac
    refine ⟨l.mark, l.expSign ++ l.exp, ?_, .inr h.mark⟩
    rw [fracText, if_pos hfrac, expText, if_neg hexp, List.nil_append]
  · refine ⟨0x2E, l.frac ++ l.expText, ?_, .inl rfl⟩
    rw [fracText, if_neg hfrac, List.cons_append]

/-- A float has no radix prefix. -/
lemma Ok.not_isPrefixed {l : FloatText} (h : l.Ok) {ds : List UInt8} {v : ℕ} :
    ¬ IsPrefixed l.text ds v := by
  intro hprefixed
  obtain ⟨x, t, htext, hx⟩ : ∃ x t, l.text = 0x30 :: x :: t ∧ (x = 0x78 ∨ x = 0x6F ∨ x = 0x62) := by
    generalize l.text = text at hprefixed
    cases hprefixed with
    | hex => exact ⟨_, _, rfl, .inl rfl⟩
    | oct => exact ⟨_, _, rfl, .inr (.inl rfl)⟩
    | bin => exact ⟨_, _, rfl, .inr (.inr rfl)⟩
  obtain ⟨c, w, ds', hint, hds, -⟩ := h.int.run.head
  obtain ⟨m, u, hmark, hm⟩ := h.mark_head
  rw [text, unsigned, hmark, hint] at htext
  rcases h.sign with hsign | hsign | hsign <;> rw [hsign] at htext
  · rw [List.nil_append, List.cons_append, List.cons.injEq] at htext
    obtain ⟨rfl, htail⟩ := htext
    -- a leading zero is the whole integer part
    have hlead := h.int.lead (by rw [hds]; rfl)
    have hrun := h.int.run
    rw [hlead, hint] at hrun
    cases hrun with
    | one =>
      obtain ⟨rfl, -⟩ := List.cons.inj htail
      rcases hx with rfl | rfl | rfl <;> exact absurd hm (by decide)
    | digit _ hrest | under _ hrest => obtain ⟨_, _, _, -, hnil, -⟩ := hrest.head; simp at hnil
  · exact absurd (List.cons.inj htext).1 (by decide)
  · exact absurd (List.cons.inj htext).1 (by decide)

/-- A float is no integer. -/
lemma Ok.not_isInteger {l : FloatText} (h : l.Ok) {ds : List UInt8} {v : ℤ} :
    ¬ IsInteger l.text ds v := by
  obtain ⟨m, u, hmark, hm⟩ := h.mark_head
  have hmem : m ∈ l.text := by
    rw [text, unsigned, hmark]
    simp
  have hrun : ∀ {t ds : List UInt8}, IsDecimal t ds → m ∉ t := by
    intro t ds ht hmt
    rcases ht.run.mem m hmt with hdigit | rfl
    · rcases hm with rfl | rfl | rfl <;> exact absurd hdigit (by decide)
    · exact absurd hm (by decide)
  intro hinteger
  generalize htext : l.text = text at hinteger hmem
  cases hinteger with
  | decimal ht => exact hrun ht hmem
  | plus ht =>
    rcases List.mem_cons.mp hmem with rfl | hmem
    · exact absurd hm (by decide)
    · exact hrun ht hmem
  | minus ht =>
    rcases List.mem_cons.mp hmem with rfl | hmem
    · exact absurd hm (by decide)
    · exact hrun ht hmem
  | radix hprefixed => exact h.not_isPrefixed (htext ▸ hprefixed)

end FloatText

/-! ## Dates and times -/

/-- A date. -/
structure Date where
  /-- The year. -/
  year : ℕ
  /-- From 1. -/
  month : ℕ
  /-- From 1. -/
  day : ℕ

/-- A time of the day. -/
structure Time where
  /-- The hour. -/
  hour : ℕ
  /-- The minute. -/
  minute : ℕ
  /-- The second. -/
  second : ℕ
  /-- The fraction of the second, truncated. -/
  nanosecond : ℕ

/-- The four kinds. -/
inductive Datetime where
  /-- An offset date-time; the offset is in seconds. -/
  | offset (date : Date) (time : Time) (off : ℤ)
  /-- A local date-time. -/
  | localDatetime (date : Date) (time : Time)
  /-- A local date. -/
  | localDate (date : Date)
  /-- A local time. -/
  | localTime (time : Time)

/-- The length of a month in the Gregorian calendar. -/
def monthLength (year : ℕ) : ℕ → ℕ
  | 2 => if (year % 4 = 0 ∧ year % 100 ≠ 0) ∨ year % 400 = 0 then 29 else 28
  | 4 | 6 | 9 | 11 => 30
  | _ => 31

/-- `date-fullyear "-" date-month "-" date-mday`, by its numbers. -/
inductive IsDateText : List UInt8 → Date → Prop
  | mk {ty tm td : List UInt8} {y m d : ℕ} (hy : IsDigits 4 ty y) (hm : IsDigits 2 tm m)
      (hd : IsDigits 2 td d) : IsDateText (ty ++ 0x2D :: (tm ++ 0x2D :: td)) ⟨y, m, d⟩

/-- `full-date`. -/
structure IsDate (t : List UInt8) (d : Date) : Prop where
  /-- Its shape. -/
  text : IsDateText t d
  /-- January to December. -/
  month : 1 ≤ d.month ∧ d.month ≤ 12
  /-- A day of the month. -/
  day : 1 ≤ d.day ∧ d.day ≤ monthLength d.year d.month

/-- Two digits, a colon and two digits, by their numbers. -/
inductive IsClock : List UInt8 → ℕ → ℕ → Prop
  | mk {th tm : List UInt8} {h m : ℕ} (hh : IsDigits 2 th h) (hm : IsDigits 2 tm m) :
      IsClock (th ++ 0x3A :: tm) h m

/-- `time-hour ":" time-minute`. -/
structure IsHourMinute (t : List UInt8) (h m : ℕ) : Prop where
  /-- Its shape. -/
  text : IsClock t h m
  /-- 0 to 23. -/
  hour : h ≤ 23
  /-- 0 to 59. -/
  minute : m ≤ 59

/-- `time-secfrac`, with its nanoseconds. -/
inductive IsSecFrac : List UInt8 → ℕ → Prop
  | mk {ds : List UInt8} (hds : ∀ c ∈ ds, isDigit c = true) (hne : ds ≠ []) :
      IsSecFrac (0x2E :: ds) (digitsVal ds * 10 ^ 9 / 10 ^ ds.length)

/-- `partial-time`: the seconds are optional, and a fraction stands only behind them. -/
inductive IsTime : List UInt8 → Time → Prop
  | minutes {t : List UInt8} {h m : ℕ} (ht : IsHourMinute t h m) : IsTime t ⟨h, m, 0, 0⟩
  | seconds {t ts : List UInt8} {h m s : ℕ} (ht : IsHourMinute t h m) (hs : IsDigits 2 ts s)
      (hle : s ≤ 60) : IsTime (t ++ 0x3A :: ts) ⟨h, m, s, 0⟩
  | fraction {t ts tf : List UInt8} {h m s ns : ℕ} (ht : IsHourMinute t h m)
      (hs : IsDigits 2 ts s) (hle : s ≤ 60) (hf : IsSecFrac tf ns) :
      IsTime (t ++ 0x3A :: (ts ++ tf)) ⟨h, m, s, ns⟩

/-- A fraction right behind the minutes, which `partial-time` does not have. -/
inductive IsMinuteFraction : List UInt8 → Time → Prop
  | mk {t tf : List UInt8} {h m ns : ℕ} (ht : IsHourMinute t h m) (hf : IsSecFrac tf ns) :
      IsMinuteFraction (t ++ tf) ⟨h, m, 0, ns⟩

/-- `time-offset`, in seconds. -/
inductive IsOffset : List UInt8 → ℤ → Prop
  | upper : IsOffset [0x5A] 0
  | lower : IsOffset [0x7A] 0
  | east {t : List UInt8} {h m : ℕ} (ht : IsHourMinute t h m) :
      IsOffset (0x2B :: t) (h * 3600 + m * 60 : ℕ)
  | west {t : List UInt8} {h m : ℕ} (ht : IsHourMinute t h m) :
      IsOffset (0x2D :: t) (-(h * 3600 + m * 60 : ℕ))

/-- `time-delim`. -/
def IsDelim (c : UInt8) : Prop := c = 0x54 ∨ c = 0x74 ∨ c = 0x20

/-- `date-time`, over the rule for a time. -/
inductive IsDatetime (isTime : List UInt8 → Time → Prop) : List UInt8 → Datetime → Prop
  | offset {td tt tz : List UInt8} {c : UInt8} {d : Date} {t : Time} {o : ℤ} (hd : IsDate td d)
      (hc : IsDelim c) (ht : isTime tt t) (ho : IsOffset tz o) :
      IsDatetime isTime (td ++ c :: (tt ++ tz)) (.offset d t o)
  | localDatetime {td tt : List UInt8} {c : UInt8} {d : Date} {t : Time} (hd : IsDate td d)
      (hc : IsDelim c) (ht : isTime tt t) : IsDatetime isTime (td ++ c :: tt) (.localDatetime d t)
  | localDate {td : List UInt8} {d : Date} (hd : IsDate td d) :
      IsDatetime isTime td (.localDate d)
  | localTime {tt : List UInt8} {t : Time} (ht : isTime tt t) :
      IsDatetime isTime tt (.localTime t)

/-- A time with a fraction right behind its minutes, and a date-time but for that. -/
def HasMinuteFraction (w : List UInt8) : Prop :=
  ∃ x, IsDatetime IsMinuteFraction w x ∧ ∀ d, x ≠ .localDate d

/-! ## Shapes -/

/-- A clock by its five bytes. -/
lemma IsClock.bytes {t : List UInt8} {h m : ℕ} (ht : IsClock t h m) :
    ∃ a b c d, t = [a, b, 0x3A, c, d] ∧ isDigit a = true ∧ isDigit b = true ∧
      isDigit c = true ∧ isDigit d = true ∧
      h = (a.toNat - 0x30) * 10 + (b.toNat - 0x30) ∧
      m = (c.toNat - 0x30) * 10 + (d.toNat - 0x30) := by
  obtain ⟨hh, hm⟩ := ht
  obtain ⟨a, b, rfl, ha, hb, rfl⟩ := isDigits_two.mp hh
  obtain ⟨c, d, rfl, hc, hd, rfl⟩ := isDigits_two.mp hm
  exact ⟨a, b, c, d, rfl, ha, hb, hc, hd, rfl, rfl⟩

/-- A time under either rule starts with a clock, and a delimiter of its own follows. -/
lemma IsTime.head {t : List UInt8} {v : Time} (ht : IsTime t v) :
    ∃ tc r, t = tc ++ r ∧ IsHourMinute tc v.hour v.minute ∧ ∀ c ∈ r.head?, c = 0x3A := by
  cases ht with
  | minutes ht => exact ⟨_, [], (List.append_nil _).symm, ht, by simp⟩
  | seconds ht => exact ⟨_, _, rfl, ht, by simp⟩
  | fraction ht => exact ⟨_, _, rfl, ht, by simp⟩

/-- A fraction follows the minutes. -/
lemma IsMinuteFraction.head {t : List UInt8} {v : Time} (ht : IsMinuteFraction t v) :
    ∃ tc r, t = tc ++ 0x2E :: r ∧ IsHourMinute tc v.hour v.minute := by
  obtain ⟨ht, hf⟩ := ht
  obtain ⟨hds, hne⟩ := hf
  exact ⟨_, _, rfl, ht⟩

/-- A date by its ten bytes, as far as they matter. -/
lemma IsDateText.bytes {t : List UInt8} {d : Date} (ht : IsDateText t d) :
    ∃ a b c e f g h i, t = [a, b, c, e, 0x2D, f, g, 0x2D, h, i] := by
  obtain ⟨hy, hm, hd⟩ := ht
  obtain ⟨t₁, v₁, t₂, v₂, h₁, h₂, rfl, -⟩ := isDigits_four.mp hy
  obtain ⟨a, b, rfl, -⟩ := isDigits_two.mp h₁
  obtain ⟨c, e, rfl, -⟩ := isDigits_two.mp h₂
  obtain ⟨f, g, rfl, -⟩ := isDigits_two.mp hm
  obtain ⟨h, i, rfl, -⟩ := isDigits_two.mp hd
  exact ⟨a, b, c, e, f, g, h, i, rfl⟩

/-- The byte behind the minutes. -/
def minuteMark (w : List UInt8) : Option UInt8 := if w[4]? = some 0x2D then w[16]? else w[5]?

lemma minuteMark_dated {td tc r : List UInt8} {c : UInt8} {d : Date} {h m : ℕ}
    (hd : IsDateText td d) (ht : IsClock tc h m) : minuteMark (td ++ c :: (tc ++ r)) = r.head? := by
  obtain ⟨a, b, c', e, f, g, h, i, rfl⟩ := hd.bytes
  obtain ⟨j, k, l, n, rfl, -⟩ := ht.bytes
  exact List.head?_eq_getElem?.symm

lemma minuteMark_date {td : List UInt8} {d : Date} (hd : IsDateText td d) :
    minuteMark td = none := by
  obtain ⟨a, b, c', e, f, g, h, i, rfl⟩ := hd.bytes
  rfl

lemma minuteMark_time {tc r : List UInt8} {h m : ℕ} (ht : IsClock tc h m) :
    minuteMark (tc ++ r) = r.head? := by
  obtain ⟨j, k, l, n, rfl, -, -, -, hn, -⟩ := ht.bytes
  have hne : ([j, k, 0x3A, l, n] ++ r)[4]? ≠ some 0x2D := by
    intro hc
    obtain rfl : n = 0x2D := Option.some.inj hc
    exact absurd hn (by decide)
  rw [minuteMark, if_neg hne]
  exact List.head?_eq_getElem?.symm

/-- Behind the minutes of a date-time stands no point. -/
lemma IsDatetime.mark_ne {w : List UInt8} {x : Datetime} (h : IsDatetime IsTime w x) :
    minuteMark w ≠ some 0x2E := by
  cases h with
  | @offset td tt tz c d t o hd hc ht ho =>
    obtain ⟨tc, r, rfl, hclock, hr⟩ := ht.head
    rw [List.append_assoc, minuteMark_dated hd.text hclock.text]
    intro hdot
    cases r with
    | nil =>
      cases ho <;> exact absurd (Option.some.inj hdot) (by decide)
    | cons b bs =>
      obtain rfl := hr b rfl
      exact absurd (Option.some.inj hdot) (by decide)
  | @localDatetime td tt c d t hd hc ht =>
    obtain ⟨tc, r, rfl, hclock, hr⟩ := ht.head
    rw [minuteMark_dated hd.text hclock.text]
    intro hdot
    exact absurd (hr _ hdot) (by decide)
  | localDate hd =>
    rw [minuteMark_date hd.text]
    exact fun h => by cases h
  | localTime ht =>
    obtain ⟨tc, r, rfl, hclock, hr⟩ := ht.head
    rw [minuteMark_time hclock.text]
    intro hdot
    exact absurd (hr _ hdot) (by decide)

/-- No date-time has a fraction right behind its minutes. -/
lemma HasMinuteFraction.not_isDatetime {w : List UInt8} (h : HasMinuteFraction w) (x : Datetime) :
    ¬ IsDatetime IsTime w x := by
  intro hx
  refine hx.mark_ne ?_
  obtain ⟨y, hy, hne⟩ := h
  cases hy with
  | offset hd hc ht ho =>
    obtain ⟨tc, r, rfl, hclock⟩ := ht.head
    rw [List.append_assoc, minuteMark_dated hd.text hclock.text]
    rfl
  | localDatetime hd hc ht =>
    obtain ⟨tc, r, rfl, hclock⟩ := ht.head
    rw [minuteMark_dated hd.text hclock.text]
    rfl
  | localDate hd => exact absurd rfl (hne _)
  | localTime ht =>
    obtain ⟨tc, r, rfl, hclock⟩ := ht.head
    rw [minuteMark_time hclock.text]
    rfl

end Toml
