import Mathlib.Data.Rat.Defs
import Mathlib.Algebra.Field.Rat
import Mathlib.Tactic.Common
import Teptris.Library.Runs
import Teptris.Library.Utf8

/-!
# JSON texts

The grammar of RFC 8259 over bytes, as a relation between a text and the value it stands for,
and a reader of JSON texts.  The reader returns the value of every text of the grammar
(`Json.read_eq`), so that a text has one value.  A number is its sign and its magnitude, so that
`-0` is told from `0`; a string is its characters in UTF-8, and a surrogate stands only in a
pair.
-/

namespace Json

/-- A JSON value; the members of an object are kept in order. -/
inductive Value where
  /-- `null`. -/
  | null
  /-- `true` or `false`. -/
  | bool (b : Bool)
  /-- A number, by sign and magnitude. -/
  | number (neg : Bool) (mag : ℚ)
  /-- A string, in UTF-8. -/
  | string (s : List UInt8)
  /-- An array. -/
  | array (items : List Value)
  /-- An object. -/
  | object (members : List (List UInt8 × Value))

/-! ## Numbers -/

/-- A decimal digit. -/
def isDigit (c : UInt8) : Bool := 0x30 ≤ c && c ≤ 0x39

/-- The value of decimal digits. -/
def digitsVal (ds : List UInt8) : ℕ := ds.foldl (fun m c => m * 10 + (c.toNat - 0x30)) 0

/-- `int`: no leading zero. -/
structure IsInt (t : List UInt8) : Prop where
  /-- Digits. -/
  digits : ∀ c ∈ t, isDigit c = true
  /-- At least one. -/
  ne_nil : t ≠ []
  /-- A zero only alone. -/
  zero : t.head? = some 0x30 → t = [0x30]

/-- `frac`, with its digits. -/
inductive IsFrac : List UInt8 → List UInt8 → Prop
  /-- No fraction. -/
  | absent : IsFrac [] []
  /-- A point and digits. -/
  | digits {ds : List UInt8} (hds : ∀ c ∈ ds, isDigit c = true) (hne : ds ≠ []) :
      IsFrac (0x2E :: ds) ds

/-- `exp`, with its value. -/
inductive IsExp : List UInt8 → ℤ → Prop
  /-- No exponent. -/
  | absent : IsExp [] 0
  /-- A mark, no sign, and digits. -/
  | unsigned {mark : UInt8} {ds : List UInt8} (hmark : mark = 0x65 ∨ mark = 0x45)
      (hds : ∀ c ∈ ds, isDigit c = true) (hne : ds ≠ []) : IsExp (mark :: ds) (digitsVal ds)
  /-- A mark, a sign, and digits. -/
  | signed {mark : UInt8} {neg : Bool} {ds : List UInt8} (hmark : mark = 0x65 ∨ mark = 0x45)
      (hds : ∀ c ∈ ds, isDigit c = true) (hne : ds ≠ []) :
      IsExp (mark :: (if neg then 0x2D else 0x2B) :: ds)
        (if neg then -(digitsVal ds : ℤ) else digitsVal ds)

/-- The magnitude of digits with a decimal exponent. -/
def magnitude (ds : List UInt8) (e : ℤ) : ℚ := digitsVal ds * 10 ^ e

/-- `number`, with its sign and magnitude. -/
def IsNumber (t : List UInt8) (neg : Bool) (mag : ℚ) : Prop :=
  ∃ int frac ds exp e, IsInt int ∧ IsFrac frac ds ∧ IsExp exp e ∧
    t = (if neg then [0x2D] else []) ++ int ++ frac ++ exp ∧
    mag = magnitude (int ++ ds) (e - ds.length)

/-- Reads an exponent. -/
def readExp (t : List UInt8) : Option ℤ :=
  match t with
  | [] => some 0
  | c :: cs =>
    let neg : Bool := cs.head? = some 0x2D
    let ds := if cs.head? = some 0x2D ∨ cs.head? = some 0x2B then cs.drop 1 else cs
    if (c = 0x65 ∨ c = 0x45) ∧ ds ≠ [] ∧ ds.all isDigit then
      some (if neg then -(digitsVal ds : ℤ) else digitsVal ds)
    else none

/-- Reads a number. -/
def readNumber (t : List UInt8) : Option (Bool × ℚ) :=
  let neg : Bool := t.head? = some 0x2D
  let t := if neg then t.drop 1 else t
  let int := t.takeWhile isDigit
  let t := t.dropWhile isDigit
  let ds := if t.head? = some 0x2E then (t.drop 1).takeWhile isDigit else []
  let exp := if t.head? = some 0x2E then (t.drop 1).dropWhile isDigit else t
  if int = [] ∨ (int.head? = some 0x30 ∧ int ≠ [0x30]) ∨ (t.head? = some 0x2E ∧ ds = []) then none
  else (readExp exp).map fun e => (neg, magnitude (int ++ ds) (e - ds.length))

/-- The start of an exponent is no digit. -/
lemma IsExp.head {t : List UInt8} {e : ℤ} (h : IsExp t e) :
    ∀ c ∈ t.head?, isDigit c = false ∧ c ≠ 0x2E := by
  cases h with
  | absent => simp
  | unsigned hmark | signed hmark =>
    intro c hc
    obtain rfl := Option.some.inj hc
    rcases hmark with rfl | rfl <;> decide

lemma readExp_eq {t : List UInt8} {e : ℤ} (h : IsExp t e) : readExp t = some e := by
  cases h with
  | absent => rfl
  | @unsigned mark ds hmark hds hne =>
    obtain ⟨d, ds, rfl⟩ := List.exists_cons_of_ne_nil hne
    have hd : isDigit d = true := hds d (by simp)
    have hsign : d ≠ 0x2D ∧ d ≠ 0x2B := by
      constructor <;> rintro rfl <;> exact absurd hd (by decide)
    have hall : (d :: ds).all isDigit = true := List.all_eq_true.mpr hds
    simp [readExp, hsign, hmark, hall]
  | @signed mark neg ds hmark hds hne =>
    have hall : ds.all isDigit = true := List.all_eq_true.mpr hds
    cases neg <;> simp [readExp, hmark, hall, hne]

/-- The reader of numbers returns the value of every number. -/
lemma readNumber_eq {t : List UInt8} {neg : Bool} {mag : ℚ} (h : IsNumber t neg mag) :
    readNumber t = some (neg, mag) := by
  obtain ⟨int, frac, ds, exp, e, hint, hfrac, hexp, rfl, rfl⟩ := h
  obtain ⟨d, int, rfl⟩ := List.exists_cons_of_ne_nil hint.ne_nil
  have hd : isDigit d = true := hint.digits d (by simp)
  have hminus : d ≠ 0x2D := by
    rintro rfl
    exact absurd hd (by decide)
  have hneg : (((if neg then [0x2D] else []) ++ (d :: int) ++ frac ++ exp).head? = some 0x2D) =
      (neg = true) := by
    cases neg <;> simp [hminus]
  have hbody : (if neg = true then
      ((if neg then [0x2D] else []) ++ (d :: int) ++ frac ++ exp).drop 1
      else (if neg then [0x2D] else []) ++ (d :: int) ++ frac ++ exp) =
      (d :: int) ++ (frac ++ exp) := by
    cases neg <;> simp
  have hstop : ∀ c ∈ (frac ++ exp).head?, isDigit c = false := by
    cases hfrac with
    | absent => exact fun c hc => (hexp.head c hc).1
    | digits =>
      intro c hc
      obtain rfl := Option.some.inj hc
      decide
  obtain ⟨htake, hdrop⟩ := Runs.cut hint.digits hstop
  have hzero : ¬ ((d :: int).head? = some 0x30 ∧ d :: int ≠ [0x30]) :=
    fun hz => hz.2 (hint.zero hz.1)
  rw [readNumber]
  simp only [hneg, hbody, decide_eq_true_eq, htake, hdrop]
  cases hfrac with
  | absent =>
    have hpoint : exp.head? ≠ some 0x2E := fun hc => (hexp.head _ hc).2 rfl
    rw [List.nil_append, if_neg hpoint, if_neg hpoint, readExp_eq hexp, if_neg]
    · simp
    · simp only [List.cons_ne_nil, false_or, not_or]
      exact ⟨hzero, fun hc => hpoint hc.1⟩
  | digits hds hne =>
    have hexpStop : ∀ c ∈ exp.head?, isDigit c = false := fun c hc => (hexp.head c hc).1
    obtain ⟨htake', hdrop'⟩ := Runs.cut hds hexpStop
    simp only [List.cons_append, List.head?_cons, if_true, List.drop_succ_cons, List.drop_zero,
      htake', hdrop', readExp_eq hexp, Option.map_some]
    rw [if_neg]
    · simp
    · simp only [List.cons_ne_nil, false_or, not_or]
      exact ⟨hzero, fun hc => hne hc.2⟩

/-! ## Strings -/

/-- The value of a hexadecimal digit. -/
def hexVal (c : UInt8) : Option ℕ :=
  if 0x30 ≤ c ∧ c ≤ 0x39 then some (c.toNat - 0x30)
  else if 0x41 ≤ c ∧ c ≤ 0x46 then some (c.toNat - 0x37)
  else if 0x61 ≤ c ∧ c ≤ 0x66 then some (c.toNat - 0x57)
  else none

/-- The value of four hexadecimal digits. -/
def hex4 (ds : List UInt8) : Option ℕ :=
  (ds.mapM hexVal).map fun vs => vs.foldl (fun m v => m * 16 + v) 0

/-- A code point in UTF-8. -/
def encode (cp : ℕ) : List UInt8 :=
  if cp < 0x80 then [UInt8.ofNat cp]
  else if cp < 0x800 then [UInt8.ofNat (0xC0 + cp / 64), UInt8.ofNat (0x80 + cp % 64)]
  else if cp < 0x10000 then
    [UInt8.ofNat (0xE0 + cp / 4096), UInt8.ofNat (0x80 + cp / 64 % 64),
      UInt8.ofNat (0x80 + cp % 64)]
  else
    [UInt8.ofNat (0xF0 + cp / 262144), UInt8.ofNat (0x80 + cp / 4096 % 64),
      UInt8.ofNat (0x80 + cp / 64 % 64), UInt8.ofNat (0x80 + cp % 64)]

/-- The character of a two-character escape, by its second. -/
def shortEscape (e : UInt8) : Option UInt8 :=
  if e = 0x22 ∨ e = 0x5C ∨ e = 0x2F then some e
  else if e = 0x62 then some 0x08
  else if e = 0x66 then some 0x0C
  else if e = 0x6E then some 0x0A
  else if e = 0x72 then some 0x0D
  else if e = 0x74 then some 0x09
  else none

/-- `char`, a byte of a longer sequence counted as one, with what it stands for. -/
inductive IsChar : List UInt8 → List UInt8 → Prop
  /-- Itself. -/
  | unescaped {c : UInt8} (hctl : 0x20 ≤ c) (hquote : c ≠ 0x22) (hslash : c ≠ 0x5C) :
      IsChar [c] [c]
  /-- A two-character escape. -/
  | short {e c : UInt8} (h : shortEscape e = some c) : IsChar [0x5C, e] [c]
  /-- An escaped code point that is no surrogate. -/
  | unicode {a b c d : UInt8} {cp : ℕ} (h : hex4 [a, b, c, d] = some cp)
      (hsur : cp < 0xD800 ∨ 0xE000 ≤ cp) : IsChar [0x5C, 0x75, a, b, c, d] (encode cp)
  /-- A surrogate pair. -/
  | pair {a b c d a' b' c' d' : UInt8} {hi lo : ℕ} (h : hex4 [a, b, c, d] = some hi)
      (h' : hex4 [a', b', c', d'] = some lo) (hhi : 0xD800 ≤ hi ∧ hi < 0xDC00)
      (hlo : 0xDC00 ≤ lo ∧ lo < 0xE000) :
      IsChar [0x5C, 0x75, a, b, c, d, 0x5C, 0x75, a', b', c', d']
        (encode (0x10000 + (hi - 0xD800) * 0x400 + (lo - 0xDC00)))

/-- The text between the quotes, with the string. -/
inductive IsChars : List UInt8 → List UInt8 → Prop
  /-- The empty string. -/
  | nil : IsChars [] []
  /-- A character in front. -/
  | cons {t s ts ss : List UInt8} (h : IsChar t s) (hs : IsChars ts ss) :
      IsChars (t ++ ts) (s ++ ss)

/-- Reads the rest of an escape behind `\u`. -/
def readUnicode (t : List UInt8) : Option (List UInt8 × List UInt8) :=
  match hex4 (t.take 4) with
  | none => none
  | some hi =>
    if t.length < 4 then none
    else if hi < 0xD800 ∨ 0xE000 ≤ hi then some (encode hi, t.drop 4)
    else
      match hex4 ((t.drop 6).take 4) with
      | none => none
      | some lo =>
        if 10 ≤ t.length ∧ (t.drop 4).take 2 = [0x5C, 0x75] ∧ hi < 0xDC00 ∧ 0xDC00 ≤ lo ∧
            lo < 0xE000 then
          some (encode (0x10000 + (hi - 0xD800) * 0x400 + (lo - 0xDC00)), t.drop 10)
        else none

/-- Reads one character. -/
def readChar : List UInt8 → Option (List UInt8 × List UInt8)
  | [] => none
  | c :: t =>
    if c = 0x5C then
      match t with
      | [] => none
      | e :: t =>
        if e = 0x75 then readUnicode t else (shortEscape e).map fun c => ([c], t)
    else if 0x20 ≤ c ∧ c ≠ 0x22 then some ([c], t)
    else none

/-- Reads a string up to its closing quote, with fuel. -/
def readChars : ℕ → List UInt8 → Option (List UInt8 × List UInt8)
  | 0, _ => none
  | n + 1, t =>
    if t.head? = some 0x22 then some ([], t.drop 1)
    else
      match readChar t with
      | none => none
      | some (s, t) => (readChars n t).map fun r => (s ++ r.1, r.2)

/-- A byte that stands for itself in a string. -/
def isPlain (c : UInt8) : Bool := 0x20 ≤ c && c != 0x22 && c != 0x5C && c < 0x80

/-- Plain text stands for itself. -/
lemma isChars_of_plain {t : List UInt8} (h : ∀ c ∈ t, isPlain c = true) : IsChars t t := by
  induction t with
  | nil => exact .nil
  | cons c cs ih =>
    have hc := h c (by simp)
    simp only [isPlain, Bool.and_eq_true, bne_iff_ne, decide_eq_true_eq] at hc
    obtain ⟨⟨⟨hctl, hquote⟩, hslash⟩, -⟩ := hc
    exact .cons (.unescaped hctl hquote hslash) (ih fun d hd => h d (by simp [hd]))

lemma readChar_eq {t s : List UInt8} (h : IsChar t s) (r : List UInt8) :
    readChar (t ++ r) = some (s, r) := by
  cases h with
  | unescaped hctl hquote hslash => simp [readChar, hctl, hquote, hslash]
  | @short e c h =>
    have he : e ≠ 0x75 := by
      rintro rfl
      simp [shortEscape] at h
    simp [readChar, he, h]
  | unicode h hsur => simp [readChar, readUnicode, h, hsur]
  | @pair a b c d a' b' c' d' hi lo h h' hhi hlo =>
    have hsur : ¬ (hi < 0xD800 ∨ 0xE000 ≤ hi) := by omega
    simp [readChar, readUnicode, h, h', hsur, hhi, hlo]

/-- A character takes some text, and no quote starts it. -/
lemma IsChar.head {t s : List UInt8} (h : IsChar t s) :
    0 < t.length ∧ ∀ r : List UInt8, (t ++ r).head? ≠ some 0x22 := by
  cases h with
  | unescaped hctl hquote => simpa using hquote
  | short | unicode | pair => simp

/-- The reader of strings returns every string. -/
lemma readChars_eq {t s : List UInt8} (h : IsChars t s) {n : ℕ} (hn : t.length < n)
    (r : List UInt8) : readChars n (t ++ 0x22 :: r) = some (s, r) := by
  induction h generalizing n with
  | nil =>
    obtain _ | n := n
    · omega
    · simp [readChars]
  | @cons t s ts ss h hs ih =>
    obtain ⟨hlen, hquote⟩ := h.head
    obtain _ | n := n
    · omega
    · have hts : ts.length < n := by
        rw [List.length_append] at hn
        omega
      rw [List.append_assoc, readChars, if_neg (hquote _), readChar_eq h]
      simp only [ih hts, Option.map_some]

/-- Strings compose. -/
lemma IsChars.append {t s ts ss : List UInt8} (h : IsChars t s) (hs : IsChars ts ss) :
    IsChars (t ++ ts) (s ++ ss) := by
  induction h with
  | nil => exact hs
  | cons h _ ih =>
    rw [List.append_assoc, List.append_assoc]
    exact .cons h ih

/-- Strings between separators that stand for themselves. -/
lemma IsChars.intercalate {c : UInt8} (hc : isPlain c = true) {parts : List (List UInt8)}
    (h : ∀ t ∈ parts, ∃ s, IsChars t s) : ∃ s, IsChars ([c].intercalate parts) s := by
  match parts with
  | [] => exact ⟨[], .nil⟩
  | [t] => simpa [List.intercalate] using h
  | t :: t' :: parts =>
    obtain ⟨s, hs⟩ := h t (by simp)
    obtain ⟨ss, hss⟩ := @IsChars.intercalate c hc (t' :: parts)
      fun t ht => h t (by simp only [List.mem_cons] at ht ⊢; tauto)
    have hsep : IsChars [c] [c] := isChars_of_plain (by simpa using hc)
    have hcons : [c].intercalate (t :: t' :: parts) =
        t ++ ([c] ++ [c].intercalate (t' :: parts)) := by
      simp [List.intercalate]
    rw [hcons]
    exact ⟨_, hs.append (hsep.append hss)⟩

/-! ## Values -/

/-- White space. -/
def isWs (c : UInt8) : Bool := c == 0x20 || c == 0x09 || c == 0x0A || c == 0x0D

/-- A run of white space. -/
def IsWs (t : List UInt8) : Prop := ∀ c ∈ t, isWs c = true

/-- `null`. -/
def nullText : List UInt8 := [0x6E, 0x75, 0x6C, 0x6C]

/-- `true` or `false`. -/
def boolText (b : Bool) : List UInt8 :=
  if b then [0x74, 0x72, 0x75, 0x65] else [0x66, 0x61, 0x6C, 0x73, 0x65]

mutual

/-- `value`, without the white space around it. -/
inductive IsValue : List UInt8 → Value → Prop
  /-- `null`. -/
  | null : IsValue nullText .null
  /-- `true` and `false`. -/
  | bool (b : Bool) : IsValue (boolText b) (.bool b)
  /-- A number. -/
  | number {t : List UInt8} {neg : Bool} {mag : ℚ} (h : IsNumber t neg mag) :
      IsValue t (.number neg mag)
  /-- A string. -/
  | string {t s : List UInt8} (h : IsChars t s) : IsValue (0x22 :: t ++ [0x22]) (.string s)
  /-- An empty array. -/
  | emptyArray {w : List UInt8} (hw : IsWs w) : IsValue (0x5B :: w ++ [0x5D]) (.array [])
  /-- An array. -/
  | array {t : List UInt8} {vs : List Value} (h : IsItems t vs) :
      IsValue (0x5B :: t ++ [0x5D]) (.array vs)
  /-- An empty object. -/
  | emptyObject {w : List UInt8} (hw : IsWs w) : IsValue (0x7B :: w ++ [0x7D]) (.object [])
  /-- An object. -/
  | object {t : List UInt8} {ms : List (List UInt8 × Value)} (h : IsMembers t ms) :
      IsValue (0x7B :: t ++ [0x7D]) (.object ms)

/-- The values of an array, between commas. -/
inductive IsItems : List UInt8 → List Value → Prop
  /-- The last value. -/
  | last {w t w' : List UInt8} {v : Value} (hw : IsWs w) (h : IsValue t v) (hw' : IsWs w') :
      IsItems (w ++ t ++ w') [v]
  /-- A value in front. -/
  | cons {w t w' ts : List UInt8} {v : Value} {vs : List Value} (hw : IsWs w) (h : IsValue t v)
      (hw' : IsWs w') (hs : IsItems ts vs) : IsItems (w ++ t ++ w' ++ 0x2C :: ts) (v :: vs)

/-- The members of an object, between commas. -/
inductive IsMembers : List UInt8 → List (List UInt8 × Value) → Prop
  /-- The last member. -/
  | last {u k u' w t w' s : List UInt8} {v : Value} (hu : IsWs u) (hk : IsChars k s)
      (hu' : IsWs u') (hw : IsWs w) (h : IsValue t v) (hw' : IsWs w') :
      IsMembers (u ++ 0x22 :: k ++ 0x22 :: u' ++ 0x3A :: (w ++ t ++ w')) [(s, v)]
  /-- A member in front. -/
  | cons {u k u' w t w' s ts : List UInt8} {v : Value} {ms : List (List UInt8 × Value)}
      (hu : IsWs u) (hk : IsChars k s) (hu' : IsWs u') (hw : IsWs w) (h : IsValue t v)
      (hw' : IsWs w') (hs : IsMembers ts ms) :
      IsMembers (u ++ 0x22 :: k ++ 0x22 :: u' ++ 0x3A :: (w ++ t ++ w' ++ 0x2C :: ts))
        ((s, v) :: ms)

end

section Compact

variable {t ts k s : List UInt8} {v : Value} {vs : List Value} {ms : List (List UInt8 × Value)}

lemma isWs_nil : IsWs [] := by simp [IsWs]

/-- The last value, without white space. -/
lemma IsItems.single (h : IsValue t v) : IsItems t [v] := by
  simpa using IsItems.last isWs_nil h isWs_nil

/-- A value in front, without white space. -/
lemma IsItems.more (h : IsValue t v) (hs : IsItems ts vs) :
    IsItems (t ++ 0x2C :: ts) (v :: vs) := by
  simpa using IsItems.cons isWs_nil h isWs_nil hs

/-- The last member, without white space. -/
lemma IsMembers.single (hk : IsChars k s) (h : IsValue t v) :
    IsMembers (0x22 :: k ++ 0x22 :: 0x3A :: t) [(s, v)] := by
  simpa using IsMembers.last isWs_nil hk isWs_nil isWs_nil h isWs_nil

/-- A member in front, without white space. -/
lemma IsMembers.more (hk : IsChars k s) (h : IsValue t v) (hs : IsMembers ts ms) :
    IsMembers (0x22 :: k ++ 0x22 :: 0x3A :: (t ++ 0x2C :: ts)) ((s, v) :: ms) := by
  simpa using IsMembers.cons isWs_nil hk isWs_nil isWs_nil h isWs_nil hs

end Compact

/-- `JSON-text`: well-formed UTF-8, and a value with white space around it. -/
def IsText (t : List UInt8) (v : Value) : Prop :=
  Utf8.Valid t ∧ ∃ w t' w', IsWs w ∧ IsWs w' ∧ IsValue t' v ∧ t = w ++ t' ++ w'

/-- A value alone is a text. -/
lemma IsValue.isText {t : List UInt8} {v : Value} (hvalid : Utf8.Valid t) (h : IsValue t v) :
    IsText t v :=
  ⟨hvalid, [], t, [], isWs_nil, isWs_nil, h, by simp⟩

/-- A byte of a number or a literal name. -/
def isWordByte (c : UInt8) : Bool :=
  isDigit c || (0x61 ≤ c && c ≤ 0x7A) || c == 0x45 || c == 0x2D || c == 0x2B || c == 0x2E

/-- The value of a number or a literal name. -/
def readWord (t : List UInt8) : Option Value :=
  if t = nullText then some .null
  else if t = boolText true then some (.bool true)
  else if t = boolText false then some (.bool false)
  else (readNumber t).map fun r => .number r.1 r.2

/-- Reads what `item` reads, between commas and up to `close`, with fuel. -/
def readItems {α : Type} (item : List UInt8 → Option (α × List UInt8)) (close : UInt8) :
    ℕ → List UInt8 → Option (List α × List UInt8)
  | 0, _ => none
  | n + 1, t =>
    match item t with
    | none => none
    | some (a, t) =>
      if t.head? = some 0x2C then (readItems item close n (t.drop 1)).map fun r => (a :: r.1, r.2)
      else if t.head? = some close then some ([a], t.drop 1)
      else none

/-- Reads a value with white space around it. -/
def readPadded (value : List UInt8 → Option (Value × List UInt8)) (t : List UInt8) :
    Option (Value × List UInt8) :=
  (value (t.dropWhile isWs)).map fun r => (r.1, r.2.dropWhile isWs)

/-- Reads a member. -/
def readMember (value : List UInt8 → Option (Value × List UInt8)) (t : List UInt8) :
    Option ((List UInt8 × Value) × List UInt8) :=
  let t := t.dropWhile isWs
  if t.head? = some 0x22 then
    match readChars t.length (t.drop 1) with
    | none => none
    | some (s, t) =>
      let t := t.dropWhile isWs
      if t.head? = some 0x3A then
        (readPadded value (t.drop 1)).map fun r => ((s, r.1), r.2)
      else none
  else none

/-- Reads a value, with fuel. -/
def readValue : ℕ → List UInt8 → Option (Value × List UInt8)
  | 0, _ => none
  | n + 1, t =>
    if t.head? = some 0x22 then
      (readChars t.length (t.drop 1)).map fun r => (.string r.1, r.2)
    else if t.head? = some 0x5B then
      if ((t.drop 1).dropWhile isWs).head? = some 0x5D then
        some (.array [], ((t.drop 1).dropWhile isWs).drop 1)
      else
        (readItems (readPadded (readValue n)) 0x5D n (t.drop 1)).map fun r => (.array r.1, r.2)
    else if t.head? = some 0x7B then
      if ((t.drop 1).dropWhile isWs).head? = some 0x7D then
        some (.object [], ((t.drop 1).dropWhile isWs).drop 1)
      else
        (readItems (readMember (readValue n)) 0x7D n (t.drop 1)).map fun r => (.object r.1, r.2)
    else (readWord (t.takeWhile isWordByte)).map fun v => (v, t.dropWhile isWordByte)

/-- Reads a text. -/
def read (t : List UInt8) : Option Value :=
  match readPadded (readValue (t.length + 1)) t with
  | some (v, []) => some v
  | _ => none

/-! ## The reader returns the value -/

/-- No number or literal name goes on here. -/
def Stops (r : List UInt8) : Prop := ∀ c ∈ r.head?, isWordByte c = false

/-- Neither a word nor white space goes on here. -/
def Ends (r : List UInt8) : Prop := ∀ c ∈ r.head?, isWordByte c = false ∧ isWs c = false

lemma ends_nil : Ends [] := by simp [Ends]

lemma ends_cons {c : UInt8} (hc : c = 0x2C ∨ c = 0x5D ∨ c = 0x7D) (r : List UInt8) :
    Ends (c :: r) := by
  rintro d hd
  obtain rfl := Option.some.inj hd
  rcases hc with rfl | rfl | rfl <;> decide

lemma Ends.dropWhile {r : List UInt8} (h : Ends r) {w : List UInt8} (hw : IsWs w) :
    (w ++ r).dropWhile isWs = r :=
  (Runs.cut hw fun c hc => (h c hc).2).2

lemma Ends.stops {r : List UInt8} (h : Ends r) {w : List UInt8} (hw : IsWs w) :
    Stops (w ++ r) := by
  obtain _ | ⟨c, w⟩ := w
  · exact fun c hc => (h c hc).1
  · rintro d hd
    obtain rfl := Option.some.inj hd
    have hc : isWs c = true := hw c (by simp)
    simp only [isWs, Bool.or_eq_true, beq_iff_eq] at hc
    rcases hc with ((rfl | rfl) | rfl) | rfl <;> decide

lemma isWordByte_of_digit {c : UInt8} (h : isDigit c = true) : isWordByte c = true := by
  simp [isWordByte, h]

/-- A number consists of word bytes and starts with a sign or a digit. -/
lemma IsNumber.word {t : List UInt8} {neg : Bool} {mag : ℚ} (h : IsNumber t neg mag) :
    (∀ c ∈ t, isWordByte c = true) ∧ ∃ c cs, t = c :: cs ∧ (c = 0x2D ∨ isDigit c = true) := by
  obtain ⟨int, frac, ds, exp, e, hint, hfrac, hexp, rfl, -⟩ := h
  have hword : ∀ c ∈ frac, isWordByte c = true := by
    cases hfrac with
    | absent => simp
    | digits hds =>
      intro c hc
      rcases List.mem_cons.mp hc with rfl | hc
      · decide
      · exact isWordByte_of_digit (hds c hc)
  have hword' : ∀ c ∈ exp, isWordByte c = true := by
    cases hexp with
    | absent => simp
    | unsigned hmark hds =>
      intro c hc
      rcases List.mem_cons.mp hc with rfl | hc
      · rcases hmark with rfl | rfl <;> decide
      · exact isWordByte_of_digit (hds c hc)
    | @signed mark neg ds hmark hds =>
      intro c hc
      rcases List.mem_cons.mp hc with rfl | hc
      · rcases hmark with rfl | rfl <;> decide
      · rcases List.mem_cons.mp hc with rfl | hc
        · cases neg <;> decide
        · exact isWordByte_of_digit (hds c hc)
  obtain ⟨d, int, rfl⟩ := List.exists_cons_of_ne_nil hint.ne_nil
  constructor
  · intro c hc
    simp only [List.mem_append] at hc
    rcases hc with ((hc | hc) | hc) | hc
    · cases neg
      · simp at hc
      · obtain rfl := List.mem_singleton.mp hc
        decide
    · exact isWordByte_of_digit (hint.digits c hc)
    · exact hword c hc
    · exact hword' c hc
  · cases neg with
    | false => exact ⟨d, _, rfl, .inr (hint.digits d (by simp))⟩
    | true => exact ⟨0x2D, _, rfl, .inl rfl⟩

lemma readWord_number {t : List UInt8} {neg : Bool} {mag : ℚ} (h : IsNumber t neg mag) :
    readWord t = some (.number neg mag) := by
  have hval := readNumber_eq h
  obtain ⟨-, c, cs, rfl, hc⟩ := h.word
  have hne : c ≠ 0x6E ∧ c ≠ 0x74 ∧ c ≠ 0x66 := by
    refine ⟨?_, ?_, ?_⟩ <;> rintro rfl <;> exact absurd hc (by decide)
  simp [readWord, nullText, boolText, hne, hval]

/-- A value starts with neither white space nor a closing bracket. -/
lemma IsValue.head {t : List UInt8} {v : Value} (h : IsValue t v) :
    ∃ c cs, t = c :: cs ∧ isWs c = false ∧ c ≠ 0x5D ∧ c ≠ 0x7D := by
  cases h with
  | null => exact ⟨_, _, rfl, by decide⟩
  | bool b => cases b <;> exact ⟨_, _, rfl, by decide⟩
  | number h =>
    obtain ⟨-, c, cs, rfl, hc⟩ := h.word
    refine ⟨c, cs, rfl, ?_⟩
    rcases hc with rfl | hc
    · decide
    · simp only [isDigit, Bool.and_eq_true, decide_eq_true_eq] at hc
      simp only [isWs]
      grind
  | string | emptyArray | array | emptyObject | object => exact ⟨_, _, rfl, by decide⟩

/-- A value with white space around it, up to where it ends. -/
lemma readPadded_eq {value : List UInt8 → Option (Value × List UInt8)} {w t w' r : List UInt8}
    {v : Value} (hw : IsWs w) (h : IsValue t v) (hw' : IsWs w') (hr : Ends r)
    (hvalue : ∀ r, Stops r → value (t ++ r) = some (v, r)) :
    readPadded value (w ++ t ++ w' ++ r) = some (v, r) := by
  obtain ⟨c, cs, rfl, hc, -⟩ := h.head
  have hdrop : (w ++ (c :: cs ++ (w' ++ r))).dropWhile isWs = c :: cs ++ (w' ++ r) := by
    refine (Runs.cut hw ?_).2
    intro d hd
    obtain rfl := Option.some.inj hd
    exact hc
  rw [readPadded, List.append_assoc, List.append_assoc, hdrop, hvalue _ (hr.stops hw')]
  simp [hr.dropWhile hw']

lemma dropWhile_cons_of {w r : List UInt8} {c : UInt8} (hw : IsWs w) (hc : isWs c = false) :
    (w ++ c :: r).dropWhile isWs = c :: r := by
  refine (Runs.cut hw ?_).2
  intro d hd
  obtain rfl := Option.some.inj hd
  exact hc

/-- A member, up to where its value ends. -/
lemma readMember_eq {value : List UInt8 → Option (Value × List UInt8)}
    {u k u' w t w' r s : List UInt8} {v : Value} (hu : IsWs u) (hk : IsChars k s) (hu' : IsWs u')
    (hw : IsWs w) (h : IsValue t v) (hw' : IsWs w') (hr : Ends r)
    (hvalue : ∀ r, Stops r → value (t ++ r) = some (v, r)) :
    readMember value (u ++ 0x22 :: k ++ 0x22 :: u' ++ 0x3A :: (w ++ t ++ w') ++ r) =
      some ((s, v), r) := by
  have htext : u ++ 0x22 :: k ++ 0x22 :: u' ++ 0x3A :: (w ++ t ++ w') ++ r =
      u ++ 0x22 :: (k ++ 0x22 :: (u' ++ 0x3A :: (w ++ t ++ w' ++ r))) := by simp
  have hkey : readChars
      (0x22 :: (k ++ 0x22 :: (u' ++ 0x3A :: (w ++ t ++ w' ++ r)))).length
      (k ++ 0x22 :: (u' ++ 0x3A :: (w ++ t ++ w' ++ r))) =
      some (s, u' ++ 0x3A :: (w ++ t ++ w' ++ r)) :=
    readChars_eq hk (by rw [List.length_cons, List.length_append]; omega) _
  rw [readMember, htext, dropWhile_cons_of hu (by decide)]
  simp only [List.head?_cons, if_true, List.drop_succ_cons, List.drop_zero, hkey,
    dropWhile_cons_of hu' (show isWs 0x3A = false by decide), readPadded_eq hw h hw' hr hvalue,
    Option.map_some]

/-- A first item is no closing bracket. -/
lemma IsItems.head {t : List UInt8} {vs : List Value} (h : IsItems t vs) (r : List UInt8) :
    ((t ++ r).dropWhile isWs).head? ≠ some 0x5D := by
  have hpadded : ∀ {w t v r}, IsWs w → IsValue t v →
      ((w ++ (t ++ r)).dropWhile isWs).head? ≠ some 0x5D := by
    intro w t v r hw h
    obtain ⟨c, cs, rfl, hc, hclose, -⟩ := h.head
    rw [List.cons_append, dropWhile_cons_of hw hc]
    simpa using hclose
  cases h with
  | last hw h =>
    simpa only [List.append_assoc] using hpadded hw h
  | cons hw h =>
    simpa only [List.append_assoc] using hpadded hw h

/-- A first member is no closing brace. -/
lemma IsMembers.head {t : List UInt8} {ms : List (List UInt8 × Value)} (h : IsMembers t ms)
    (r : List UInt8) : ((t ++ r).dropWhile isWs).head? ≠ some 0x7D := by
  have hquote : ∀ {u r : List UInt8}, IsWs u →
      ((u ++ 0x22 :: r).dropWhile isWs).head? ≠ some 0x7D := by
    intro u r hu
    rw [dropWhile_cons_of hu (by decide)]
    simp
  cases h with
  | last hu =>
    simpa only [List.append_assoc, List.cons_append] using hquote hu
  | cons hu =>
    simpa only [List.append_assoc, List.cons_append] using hquote hu

mutual

/-- The reader of values returns every value. -/
lemma readValue_eq {t : List UInt8} {v : Value} (h : IsValue t v) (n : ℕ) (hn : t.length < n)
    (r : List UInt8) (hr : Stops r) : readValue n (t ++ r) = some (v, r) := by
  obtain _ | n := n
  · omega
  cases h with
  | null =>
    obtain ⟨htake, hdrop⟩ := Runs.cut (a := nullText) (List.all_eq_true.mp (by decide)) hr
    rw [readValue, htake, hdrop]
    simp [nullText, readWord]
  | bool b =>
    obtain ⟨htake, hdrop⟩ := Runs.cut (a := boolText b)
      (List.all_eq_true.mp (by cases b <;> decide)) hr
    rw [readValue, htake, hdrop]
    cases b <;> simp [boolText, readWord, nullText]
  | number h =>
    obtain ⟨hword, c, cs, rfl, hc⟩ := h.word
    obtain ⟨htake, hdrop⟩ := Runs.cut hword hr
    have hne : c ≠ 0x22 ∧ c ≠ 0x5B ∧ c ≠ 0x7B := by
      refine ⟨?_, ?_, ?_⟩ <;> rintro rfl <;> exact absurd hc (by decide)
    rw [readValue, htake, hdrop, readWord_number h]
    simp [hne]
  | @string t s h =>
    have hchars : readChars (0x22 :: (t ++ 0x22 :: r)).length (t ++ 0x22 :: r) = some (s, r) :=
      readChars_eq h (by rw [List.length_cons, List.length_append]; omega) r
    rw [readValue]
    simpa using hchars
  | @emptyArray w hw =>
    have hdrop := dropWhile_cons_of hw (show isWs 0x5D = false by decide) (r := r)
    rw [readValue]
    simp [hdrop]
  | @array t vs h =>
    have hlen : t.length < n := by
      simp only [List.cons_append, List.length_cons, List.length_append] at hn
      omega
    have hhead := h.head (0x5D :: r)
    have hitems := readItems_eq h n n hlen hlen r
    rw [readValue]
    simp [hhead, hitems]
  | @emptyObject w hw =>
    have hdrop := dropWhile_cons_of hw (show isWs 0x7D = false by decide) (r := r)
    rw [readValue]
    simp [hdrop]
  | @object t ms h =>
    have hlen : t.length < n := by
      simp only [List.cons_append, List.length_cons, List.length_append] at hn
      omega
    have hhead := h.head (0x7D :: r)
    have hmembers := readMembers_eq h n n hlen hlen r
    rw [readValue]
    simp [hhead, hmembers]

/-- The reader of items returns every item of an array. -/
lemma readItems_eq {t : List UInt8} {vs : List Value} (h : IsItems t vs) (n m : ℕ)
    (hn : t.length < n) (hm : t.length < m) (r : List UInt8) :
    readItems (readPadded (readValue n)) 0x5D m (t ++ 0x5D :: r) = some (vs, r) := by
  obtain _ | m := m
  · omega
  cases h with
  | @last w t w' v hw h hw' =>
    have hlen : t.length < n := by
      simp only [List.length_append] at hn
      omega
    rw [readItems, readPadded_eq hw h hw' (ends_cons (by simp) _) (readValue_eq h n hlen)]
    simp
  | @cons w t w' ts v vs hw h hw' hs =>
    simp only [List.length_append, List.length_cons] at hn hm
    have hend : Ends (0x2C :: (ts ++ 0x5D :: r)) := ends_cons (by simp) _
    have hfirst := readPadded_eq hw h hw' hend (readValue_eq h n (by omega))
    have hrest := readItems_eq hs n m (by omega) (by omega) r
    rw [List.append_assoc _ (0x2C :: ts), List.cons_append, readItems, hfirst]
    simp [hrest]

/-- The reader of items returns every member of an object. -/
lemma readMembers_eq {t : List UInt8} {ms : List (List UInt8 × Value)} (h : IsMembers t ms)
    (n m : ℕ) (hn : t.length < n) (hm : t.length < m) (r : List UInt8) :
    readItems (readMember (readValue n)) 0x7D m (t ++ 0x7D :: r) = some (ms, r) := by
  obtain _ | m := m
  · omega
  cases h with
  | @last u k u' w t w' s v hu hk hu' hw h hw' =>
    have hlen : t.length < n := by
      simp only [List.length_append, List.length_cons] at hn
      omega
    rw [readItems, readMember_eq hu hk hu' hw h hw' (ends_cons (by simp) _)
      (readValue_eq h n hlen)]
    simp
  | @cons u k u' w t w' s ts v ms hu hk hu' hw h hw' hs =>
    simp only [List.length_append, List.length_cons] at hn hm
    have hend : Ends (0x2C :: (ts ++ 0x7D :: r)) := ends_cons (by simp) _
    have hfirst := readMember_eq hu hk hu' hw h hw' hend (readValue_eq h n (by omega))
    have hrest := readMembers_eq hs n m (by omega) (by omega) r
    have htext : u ++ 0x22 :: k ++ 0x22 :: u' ++ 0x3A :: (w ++ t ++ w' ++ 0x2C :: ts) ++
        0x7D :: r =
        u ++ 0x22 :: k ++ 0x22 :: u' ++ 0x3A :: (w ++ t ++ w') ++ 0x2C :: (ts ++ 0x7D :: r) := by
      simp
    rw [htext, readItems, hfirst]
    simp [hrest]

end

/-- The reader returns the value of every text. -/
theorem read_eq {t : List UInt8} {v : Value} (h : IsText t v) : read t = some v := by
  obtain ⟨-, w, t', w', hw, hw', hv, rfl⟩ := h
  have hread := readPadded_eq hw hv hw' ends_nil
    (readValue_eq hv ((w ++ t' ++ w').length + 1) (by simp; omega))
  rw [List.append_nil] at hread
  rw [read, hread]

/-- A text has one value. -/
theorem IsText.unique {t : List UInt8} {v v' : Value} (h : IsText t v) (h' : IsText t v') :
    v = v' :=
  Option.some.inj ((read_eq h).symm.trans (read_eq h'))

/-! ## The reader of strings reads strings only -/

lemma exists_four {t : List UInt8} (h : 4 ≤ t.length) :
    ∃ a b c d t', t = a :: b :: c :: d :: t' := by
  match t, h with
  | [], h | [_], h | [_, _], h | [_, _, _], h => simp at h
  | a :: b :: c :: d :: t', _ => exact ⟨a, b, c, d, t', rfl⟩

lemma readUnicode_sound {t s r : List UInt8} (h : readUnicode t = some (s, r)) :
    ∃ t', IsChar (0x5C :: 0x75 :: t') s ∧ t = t' ++ r := by
  rw [readUnicode] at h
  cases hhi : hex4 (t.take 4) with
  | none =>
    rw [hhi] at h
    cases h
  | some hi =>
    rw [hhi] at h
    dsimp only at h
    by_cases hlen : t.length < 4
    · rw [if_pos hlen] at h
      cases h
    rw [if_neg hlen] at h
    obtain ⟨a, b, c, d, t, rfl⟩ := exists_four (Nat.not_lt.mp hlen)
    have hhi' : hex4 [a, b, c, d] = some hi := hhi
    by_cases hsur : hi < 0xD800 ∨ 0xE000 ≤ hi
    · rw [if_pos hsur] at h
      obtain ⟨rfl, rfl⟩ := Prod.mk.inj (Option.some.inj h)
      exact ⟨[a, b, c, d], .unicode hhi' hsur, rfl⟩
    rw [if_neg hsur] at h
    cases hlo : hex4 (((a :: b :: c :: d :: t).drop 6).take 4) with
    | none =>
      rw [hlo] at h
      cases h
    | some lo =>
      rw [hlo] at h
      dsimp only at h
      split_ifs at h with hpair
      obtain ⟨rfl, rfl⟩ := Prod.mk.inj (Option.some.inj h)
      obtain ⟨hlen, hmark, hhi₂, hlo₁, hlo₂⟩ := hpair
      have hlen' : 6 ≤ t.length := by
        simp only [List.length_cons] at hlen
        omega
      obtain ⟨e, f, a', b', t, rfl⟩ := exists_four (le_trans (by decide) hlen')
      have hmark' : [e, f] = ([0x5C, 0x75] : List UInt8) := hmark
      obtain ⟨rfl, hf⟩ := List.cons.inj hmark'
      obtain ⟨rfl, -⟩ := List.cons.inj hf
      match t, hlen' with
      | [], h | [_], h => simp at h
      | c' :: d' :: t, _ =>
        exact ⟨[a, b, c, d, 0x5C, 0x75, a', b', c', d'],
          .pair hhi' hlo (by omega) ⟨hlo₁, hlo₂⟩, rfl⟩

lemma readChar_sound {t s r : List UInt8} (h : readChar t = some (s, r)) :
    ∃ t', IsChar t' s ∧ t = t' ++ r := by
  match t with
  | [] => simp [readChar] at h
  | [c] =>
    rw [readChar.eq_def] at h
    dsimp only at h
    by_cases hc : c = 0x5C
    · rw [if_pos hc] at h
      cases h
    · rw [if_neg hc] at h
      split_ifs at h with hplain
      obtain ⟨rfl, rfl⟩ := Prod.mk.inj (Option.some.inj h)
      exact ⟨[c], .unescaped hplain.1 hplain.2 hc, rfl⟩
  | c :: e :: t =>
    rw [readChar.eq_def] at h
    dsimp only at h
    by_cases hc : c = 0x5C
    · subst hc
      rw [if_pos rfl] at h
      by_cases he : e = 0x75
      · subst he
        rw [if_pos rfl] at h
        obtain ⟨t', hchar, rfl⟩ := readUnicode_sound h
        exact ⟨_, hchar, rfl⟩
      · rw [if_neg he] at h
        obtain ⟨d, hd, heq⟩ := Option.map_eq_some_iff.mp h
        obtain ⟨rfl, rfl⟩ := Prod.mk.inj heq
        exact ⟨[0x5C, e], .short hd, rfl⟩
    · rw [if_neg hc] at h
      split_ifs at h with hplain
      obtain ⟨rfl, rfl⟩ := Prod.mk.inj (Option.some.inj h)
      exact ⟨[c], .unescaped hplain.1 hplain.2 hc, rfl⟩

/-- What the reader of strings has read is a string. -/
lemma readChars_sound {n : ℕ} {t s r : List UInt8} (h : readChars n t = some (s, r)) :
    ∃ t', IsChars t' s ∧ t = t' ++ 0x22 :: r := by
  induction n generalizing t s with
  | zero => simp [readChars] at h
  | succ n ih =>
    rw [readChars] at h
    by_cases hquote : t.head? = some 0x22
    · rw [if_pos hquote] at h
      obtain ⟨rfl, rfl⟩ := Prod.mk.inj (Option.some.inj h)
      obtain ⟨t, rfl⟩ := List.head?_eq_some_iff.mp hquote
      exact ⟨[], .nil, rfl⟩
    · rw [if_neg hquote] at h
      cases hchar : readChar t with
      | none => simp [hchar] at h
      | some p =>
        obtain ⟨s₀, t₀⟩ := p
        simp only [hchar] at h
        obtain ⟨p, hp, heq⟩ := Option.map_eq_some_iff.mp h
        obtain ⟨rfl, rfl⟩ := Prod.mk.inj heq
        obtain ⟨t₁, hc, rfl⟩ := readChar_sound hchar
        obtain ⟨t₂, hs, rfl⟩ := ih hp
        exact ⟨t₁ ++ t₂, .cons hc hs, by simp⟩

/-! ## Control bytes -/

/-- Where a scanner of strings is. -/
inductive Mode where
  /-- Between strings. -/
  | outside
  /-- Within a string. -/
  | inside
  /-- Behind a backslash. -/
  | escaped
deriving DecidableEq

/-- The scanner of strings: it stops at a control byte within a string. -/
def Mode.step : Mode → UInt8 → Option Mode
  | .outside, c => some (if c = 0x22 then .inside else .outside)
  | .inside, c =>
    if c = 0x22 then some .outside
    else if c = 0x5C then some .escaped
    else if c < 0x20 then none
    else some .inside
  | .escaped, _ => some .inside

/-- The scanner over a text. -/
def Mode.scan : Mode → List UInt8 → Option Mode
  | m, [] => some m
  | m, c :: t => (m.step c).bind fun m => m.scan t

lemma Mode.scan_append (m : Mode) (t t' : List UInt8) :
    m.scan (t ++ t') = (m.scan t).bind fun m => m.scan t' := by
  induction t generalizing m with
  | nil => rfl
  | cons c t ih =>
    rw [List.cons_append, Mode.scan, Mode.scan]
    cases m.step c with
    | none => rfl
    | some m => exact ih m

/-- Text that the scanner leaves where it found it. -/
lemma Mode.scan_append_of {m m' : Mode} {t : List UInt8} (h : m.scan t = some m')
    (t' : List UInt8) : m.scan (t ++ t') = m'.scan t' := by
  rw [Mode.scan_append, h]
  rfl

/-- Text without quotes, between strings. -/
lemma scan_outside {t : List UInt8} (h : 0x22 ∉ t) : Mode.outside.scan t = some .outside := by
  induction t with
  | nil => rfl
  | cons c t ih =>
    obtain ⟨hc, ht⟩ := List.ne_and_not_mem_of_not_mem_cons h
    have hstep : Mode.outside.step c = some .outside := by
      rw [Mode.step, if_neg (Ne.symm hc)]
    rw [Mode.scan, hstep]
    exact ih ht

lemma scan_wordBytes {t : List UInt8} (h : ∀ c ∈ t, isWordByte c = true) :
    Mode.outside.scan t = some .outside :=
  scan_outside fun hmem => absurd (h _ hmem) (by decide)

lemma IsWs.scan {w : List UInt8} (h : IsWs w) : Mode.outside.scan w = some .outside :=
  scan_outside fun hmem => absurd (h _ hmem) (by decide)

/-- A byte that is neither a quote nor a backslash nor a control byte. -/
lemma step_inside {c : UInt8} (hctl : 0x20 ≤ c) (hquote : c ≠ 0x22) (hslash : c ≠ 0x5C) :
    Mode.inside.step c = some .inside := by
  rw [Mode.step, if_neg hquote, if_neg hslash, if_neg (UInt8.not_lt.mpr hctl)]

lemma step_hex {c : UInt8} {v : ℕ} (h : hexVal c = some v) :
    Mode.inside.step c = some .inside := by
  have hrange : 0x30 ≤ c ∧ c ≤ 0x66 ∧ c ≠ 0x5C := by
    rw [hexVal] at h
    grind
  exact step_inside (by grind) (by rintro rfl; simp at hrange) hrange.2.2

lemma scan_hex4 {a b c d : UInt8} {v : ℕ} (h : hex4 [a, b, c, d] = some v) :
    Mode.inside.scan [a, b, c, d] = some .inside := by
  obtain ⟨vs, hvs, -⟩ := Option.map_eq_some_iff.mp h
  simp only [List.mapM_cons, Option.bind_eq_bind, Option.bind_eq_some_iff] at hvs
  obtain ⟨_, ha, _, ⟨_, hb, _, ⟨_, hc, _, ⟨_, hd, -⟩, -⟩, -⟩, -⟩ := hvs
  simp [Mode.scan, step_hex ha, step_hex hb, step_hex hc, step_hex hd]

lemma IsChar.scan {t s : List UInt8} (h : IsChar t s) : Mode.inside.scan t = some .inside := by
  cases h with
  | unescaped hctl hquote hslash =>
    rw [Mode.scan, step_inside hctl hquote hslash]
    rfl
  | short h => rfl
  | unicode h hsur => exact (Mode.scan_append _ [0x5C, 0x75] _).trans (scan_hex4 h)
  | @pair a b c d _ _ _ _ _ _ h h' =>
    have hhi : Mode.inside.scan [0x5C, 0x75, a, b, c, d] = some .inside :=
      (Mode.scan_append _ [0x5C, 0x75] _).trans (scan_hex4 h)
    exact (Mode.scan_append_of hhi _).trans
      ((Mode.scan_append _ [0x5C, 0x75] _).trans (scan_hex4 h'))

/-- A string holds no control byte. -/
lemma IsChars.scan {t s : List UInt8} (h : IsChars t s) :
    Mode.inside.scan t = some .inside := by
  induction h with
  | nil => rfl
  | cons h _ ih => rw [Mode.scan_append_of h.scan, ih]

/-- A quoted string, between strings. -/
lemma IsChars.scan_quoted {t s : List UInt8} (h : IsChars t s) (r : List UInt8) :
    Mode.outside.scan (0x22 :: (t ++ 0x22 :: r)) = Mode.outside.scan r :=
  Mode.scan_append_of h.scan (0x22 :: r)

mutual

/-- A value leaves the scanner between strings. -/
lemma IsValue.scan {t : List UInt8} {v : Value} (h : IsValue t v) :
    Mode.outside.scan t = some .outside := by
  cases h with
  | null => rfl
  | bool b => cases b <;> rfl
  | number h => exact scan_wordBytes h.word.1
  | @string t s h => exact h.scan_quoted []
  | emptyArray hw => exact Mode.scan_append_of hw.scan [0x5D]
  | array h => exact Mode.scan_append_of h.scan [0x5D]
  | emptyObject hw => exact Mode.scan_append_of hw.scan [0x7D]
  | object h => exact Mode.scan_append_of h.scan [0x7D]

lemma IsItems.scan {t : List UInt8} {vs : List Value} (h : IsItems t vs) :
    Mode.outside.scan t = some .outside := by
  cases h with
  | last hw h hw' =>
    rw [List.append_assoc, Mode.scan_append_of hw.scan, Mode.scan_append_of h.scan, hw'.scan]
  | cons hw h hw' hs =>
    rw [List.append_assoc, List.append_assoc, Mode.scan_append_of hw.scan,
      Mode.scan_append_of h.scan, Mode.scan_append_of hw'.scan]
    exact hs.scan

lemma IsMembers.scan {t : List UInt8} {ms : List (List UInt8 × Value)} (h : IsMembers t ms) :
    Mode.outside.scan t = some .outside := by
  cases h with
  | last hu hk hu' hw h hw' =>
    simp only [List.append_assoc, List.cons_append]
    rw [Mode.scan_append_of hu.scan, hk.scan_quoted, Mode.scan_append_of hu'.scan]
    refine (Mode.scan_append_of hw.scan _).trans ?_
    rw [Mode.scan_append_of h.scan, hw'.scan]
  | cons hu hk hu' hw h hw' hs =>
    simp only [List.append_assoc, List.cons_append]
    rw [Mode.scan_append_of hu.scan, hk.scan_quoted, Mode.scan_append_of hu'.scan]
    refine (Mode.scan_append_of hw.scan _).trans ?_
    rw [Mode.scan_append_of h.scan, Mode.scan_append_of hw'.scan]
    exact hs.scan

end

end Json
