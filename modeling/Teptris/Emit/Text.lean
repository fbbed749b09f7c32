import Mathlib.Data.Int.Notation
import Teptris.Dom.Float

/-!
# Scalars and keys as text

`emit_shared.h`: the writers of numbers, datetimes, strings and keys that the document emitter
and the streaming writer share.  The output buffer is the returned byte string.
-/

namespace Teptris

/-! ## Numbers -/

/-- The decimal digit of a number below ten. -/
def digitChar (d : ℕ) : UInt8 := UInt8.ofNat (0x30 + d)

/-- The `do` loop of `emit_i64`, for at most `n` digits. -/
def decText : ℕ → ℕ → Bytes
  | 0, _ => []
  | n + 1, mag => (if mag / 10 = 0 then [] else decText n (mag / 10)) ++ [digitChar (mag % 10)]

/-- A number below `10 ^ 20` in decimal digits. -/
def natText (mag : ℕ) : Bytes := decText 20 mag

/-- `emit_i64`. -/
def emitI64 (v : Int64) : Bytes :=
  (if v < 0 then [Ch.minus] else []) ++ natText v.toInt.natAbs

/-- `strtol` in base ten, on an optional minus sign and digits. -/
def strtol (s : Bytes) : ℤ :=
  let neg : Bool := s.head? = some Ch.minus
  let ds := (if neg then s.drop 1 else s).takeWhile isDec
  let mag : ℕ := ds.foldl (fun m c => m * 10 + (c.toNat - 0x30)) 0
  if neg then -(mag : ℤ) else mag

/-- `%ld`. -/
def intText (e : ℤ) : Bytes := (if e < 0 then [Ch.minus] else []) ++ natText e.natAbs

/-- The shortest digits in TOML notation: fixed-point when compact, scientific otherwise.  The
value is `digits * 10 ^ e10`, and `sciExp` the exponent of its first digit. -/
def floatBody (digits : Bytes) (sciExp : ℤ) : Bytes :=
  let nd : ℤ := digits.length
  let e10 := sciExp - nd + 1
  if 0 ≤ e10 ∧ e10 + nd ≤ 16 then
    digits ++ List.replicate e10.toNat Ch.zero ++ [Ch.dot, Ch.zero]
  else if e10 < 0 ∧ -e10 ≤ nd then
    let ip := (nd + e10).toNat
    if 0 < ip then digits.take ip ++ [Ch.dot] ++ digits.drop ip
    else [Ch.zero, Ch.dot] ++ digits
  else if e10 < 0 ∧ -e10 - nd ≤ 6 then
    [Ch.zero, Ch.dot] ++ List.replicate (-e10 - nd).toNat Ch.zero ++ digits
  else
    digits.take 1 ++ (if 1 < digits.length then Ch.dot :: digits.drop 1 else []) ++
      0x65 :: intText sciExp

/-- `emit_float`. -/
def emitFloat (fc : FloatConv) (f : Double) : Bytes :=
  if f.isNan then [0x6E, 0x61, 0x6E]
  else if f.isInf then
    if f.signBit then [Ch.minus, 0x69, 0x6E, 0x66] else [0x69, 0x6E, 0x66]
  else
    let tmp := fc.ryuD2s f
    let neg : Bool := tmp.head? = some Ch.minus
    let body := if neg then tmp.drop 1 else tmp
    let digits := (body.takeWhile (· ≠ 0x45)).filter (· ≠ Ch.dot)
    let sciExp := strtol ((body.dropWhile (· ≠ 0x45)).drop 1)
    (if neg then [Ch.minus] else []) ++ floatBody digits sciExp

/-- `"true"` or `"false"`. -/
def boolText (b : Bool) : Bytes :=
  if b then [0x74, 0x72, 0x75, 0x65] else [0x66, 0x61, 0x6C, 0x73, 0x65]

/-! ## Dates and times -/

/-- `put_digits2`. -/
def putDigits2 (v : ℕ) : Bytes := [digitChar (v / 10), digitChar (v % 10)]

/-- `put_digits4`. -/
def putDigits4 (v : ℕ) : Bytes := putDigits2 (v / 100) ++ putDigits2 (v % 100)

/-- Nine fraction digits with the trailing zeros trimmed. -/
def nanosText (ns : ℕ) : Bytes :=
  let ds := (List.range 9).map fun i => digitChar (ns / 10 ^ (8 - i) % 10)
  (ds.reverse.dropWhile (· = Ch.zero)).reverse

/-- The date of `emit_dt`. -/
def dateText (dt : Datetime) : Bytes :=
  putDigits4 dt.year.toUInt32.toNat ++ [Ch.minus] ++ putDigits2 dt.month.toNat ++ [Ch.minus] ++
    putDigits2 dt.day.toNat

/-- The clock of `emit_dt`, with its fraction. -/
def clockText (dt : Datetime) : Bytes :=
  putDigits2 dt.hour.toNat ++ [Ch.colon] ++ putDigits2 dt.minute.toNat ++ [Ch.colon] ++
    putDigits2 dt.second.toNat ++
    if dt.nanosecond ≠ 0 then Ch.dot :: nanosText dt.nanosecond.toNat else []

/-- The offset of `emit_dt`. -/
def offsetText (dt : Datetime) : Bytes :=
  if dt.offsetSeconds = 0 then [0x5A]
  else
    let a := dt.offsetSeconds.toInt.natAbs
    [if dt.offsetSeconds < 0 then Ch.minus else Ch.plus] ++ putDigits2 (a / 3600) ++ [Ch.colon] ++
      putDigits2 (a % 3600 / 60)

/-- `emit_dt`. -/
def emitDt (kind : DtKind) (dt : Datetime) : Bytes :=
  match kind with
  | .timeLocal => clockText dt
  | .dateLocal => dateText dt
  | .datetimeLocal => dateText dt ++ [0x54] ++ clockText dt
  | .datetimeOffset => dateText dt ++ [0x54] ++ clockText dt ++ offsetText dt

/-! ## Strings and keys -/

/-- A hexadecimal digit of `%04X`. -/
def hexChar (d : ℕ) : UInt8 := if d < 10 then UInt8.ofNat (0x30 + d) else UInt8.ofNat (0x37 + d)

/-- `\u00XX`. -/
def unicodeText (c : UInt8) : Bytes :=
  [Ch.bslash, 0x75, Ch.zero, Ch.zero, hexChar (c.toNat / 16), hexChar (c.toNat % 16)]

/-- One byte of `emit_basic_bytes`. -/
def basicByte (c : UInt8) : Bytes :=
  if c = Ch.dquote then [Ch.bslash, Ch.dquote]
  else if c = Ch.bslash then [Ch.bslash, Ch.bslash]
  else if c = Ch.bs then [Ch.bslash, 0x62]
  else if c = Ch.tab then [Ch.bslash, 0x74]
  else if c = Ch.lf then [Ch.bslash, 0x6E]
  else if c = Ch.ff then [Ch.bslash, 0x66]
  else if c = Ch.cr then [Ch.bslash, 0x72]
  else if c < 0x20 ∨ c = Ch.del then unicodeText c
  else [c]

/-- `emit_basic_bytes`. -/
def emitBasicBytes (s : Bytes) : Bytes := Ch.dquote :: s.flatMap basicByte ++ [Ch.dquote]

/-- No byte of the text needs a basic string. -/
def isLiteralText (s : Bytes) : Bool := s.all fun c => c != Ch.squote && !isControl c

/-- Text between single quotes. -/
def literalText (s : Bytes) : Bytes := Ch.squote :: s ++ [Ch.squote]

/-- `emit_string_value`. -/
def emitStringValue (s : Bytes) : Bytes :=
  if isLiteralText s then literalText s else emitBasicBytes s

/-- One byte of a quoted key in `key_to_buf`; it escapes no byte from `0x20` on but the quote
and the backslash. -/
def keyByte (c : UInt8) : Bytes :=
  if c = Ch.dquote then [Ch.bslash, Ch.dquote]
  else if c = Ch.bslash then [Ch.bslash, Ch.bslash]
  else if c < 0x20 then unicodeText c
  else [c]

/-- `key_buf_cap`. -/
def keyBufCap (key : Bytes) : ℕ := key.length * 6 + 4

/-- `key_to_buf`, and `emit_key` over it. -/
def emitKey (key : Bytes) : Bytes :=
  if key ≠ [] ∧ key.all isBareKey then key
  else if isLiteralText key then literalText key
  else Ch.dquote :: key.flatMap keyByte ++ [Ch.dquote]

end Teptris
