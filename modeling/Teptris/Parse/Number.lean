import Teptris.Dom.Float
import Teptris.Parse.Str

/-!
# Numbers

`teptris_parse_number`: integers in four radices, floats through three routes (one exact
multiplication, `ryu` on the input span, `ryu` or `strtod` on a copy), and the words `inf` and
`nan`.  The copy's buffer of 1032 bytes is a list here, with the source's own limits on what is
appended to it.
-/

namespace Teptris

/-- `expect_word`: what follows the word. -/
def expectWord (w r : Bytes) : Except Diag Bytes :=
  if w <+: r then .ok (r.drop w.length) else failAt r .errSyntax "invalid value"

/-- The bytes of `inf`. -/
abbrev wInf : Bytes := [0x69, 0x6E, 0x66]
/-- The bytes of `nan`. -/
abbrev wNan : Bytes := [0x6E, 0x61, 0x6E]
/-- The bytes of `true`. -/
abbrev wTrue : Bytes := [0x74, 0x72, 0x75, 0x65]
/-- The bytes of `false`. -/
abbrev wFalse : Bytes := [0x66, 0x61, 0x6C, 0x73, 0x65]

/-! ## Digit runs -/

/-- `digit_for`. -/
def digitFor (c : UInt8) (radix : ℕ) : Bool :=
  if radix = 10 then isDec c
  else if radix = 16 then isHex c
  else if radix = 8 then 0x30 ≤ c && c ≤ 0x37
  else if radix = 2 then c == 0x30 || c == 0x31
  else false

/-- `TEP_NUM_MAX`. -/
def numMax : ℕ := 512

/-- `scan_run`, with the digits read so far and whether the last byte was a digit. -/
def scanRunFrom (radix : ℕ) (buf : Bytes) (prevDigit : Bool) : Bytes → Res Bytes
  | [] => finish []
  | c :: cs =>
    if digitFor c radix then
      if buf.length = numMax - 1 then failAt (c :: cs) .errSyntax "number too long"
      else scanRunFrom radix (buf ++ [c]) true cs
    else if c = Ch.under then
      if !prevDigit then failAt (c :: cs) .errSyntax "underscore must be between digits"
      else scanRunFrom radix buf false cs
    else finish (c :: cs)
where
  /-- The checks behind the run. -/
  finish (r : Bytes) : Res Bytes :=
    if buf.length = 0 then failAt r .errSyntax "expected digits"
    else if !prevDigit then failAt r .errSyntax "trailing underscore in number"
    else .ok (buf, r)

/-- `scan_run`. -/
def scanRun (radix : ℕ) (r : Bytes) : Res Bytes := scanRunFrom radix [] false r

/-- `mag_from`, with the value so far: `none` when the value passes `UINT64_MAX`. -/
def magFrom (radix : ℕ) : ℕ → Bytes → Option ℕ
  | v, [] => some v
  | v, c :: cs =>
    if (2 ^ 64 - 1 - hexVal c) / radix < v then none
    else magFrom radix (v * radix + hexVal c) cs

/-- The value of decimal digits that follow the value `m`. -/
def decFrom (m : ℕ) (ds : Bytes) : ℕ := ds.foldl (fun m c => m * 10 + (c.toNat - 0x30)) m

/-- The value of decimal digits. -/
abbrev decVal (ds : Bytes) : ℕ := decFrom 0 ds

/-! ## Floats -/

/-- The fraction the zero-copy path peeks at: its digits and what follows, or `none` where that
path gives up. -/
def fracSpan (r : Bytes) : Option (Bytes × Bytes) :=
  if r.head? = some Ch.dot then
    let fd := (r.drop 1).takeWhile isDec
    let q := (r.drop 1).dropWhile isDec
    if fd = [] ∨ q.head? = some Ch.under then none else some (fd, q)
  else some ([], r)

/-- At `e` or `E`. -/
def atExp (r : Bytes) : Bool := r.head? = some 0x65 || r.head? = some 0x45

/-- At `+` or `-`. -/
def atSign (r : Bytes) : Bool := r.head? = some Ch.plus || r.head? = some Ch.minus

/-- The saturating exponent value of the zero-copy path. -/
def expVal (ds : Bytes) : ℕ :=
  ds.foldl (fun e c => if e < 100000 then e * 10 + (c.toNat - 0x30) else e) 0

/-- The exponent the zero-copy path peeks at, signed, and what follows. -/
def expSpan (r : Bytes) : Option (ℤ × Bytes) :=
  if atExp r then
    let q := r.drop 1
    let eneg : Bool := q.head? = some Ch.minus
    let q := if atSign q then q.drop 1 else q
    let ed := q.takeWhile isDec
    let q := q.dropWhile isDec
    if ed = [] ∨ q.head? = some Ch.under then none
    else some (if eneg then -(expVal ed : ℤ) else expVal ed, q)
  else some (0, r)

/-- The zero-copy float path, behind the digits `ds` that start at `dstart`. -/
def floatFast (fc : FloatConv) (neg : Bool) (dstart ds r : Bytes) : Option (Double × Bytes) :=
  match fracSpan r with
  | none => none
  | some (fd, q) =>
    match expSpan q with
    | none => none
    | some (e10, q) =>
      -- fraction digits continue the mantissa, the first eighteen of them
      let fmag := decFrom (decVal ds) (fd.take 18) % 2 ^ 64
      let fdig := (fd.take 18).length
      let dexp := e10 - fdig
      if e10.natAbs ≤ 400 ∧ ds.length + fdig ≤ 15 ∧ -22 ≤ dexp ∧ dexp ≤ 22 then
        let dv := if 0 ≤ dexp then fc.mulPow10 fmag dexp.toNat else fc.divPow10 fmag (-dexp).toNat
        some (if neg then dv.negate else dv, q)
      else
        let span := dstart.take (dstart.length - q.length)
        match fc.ryuS2d (if neg then Ch.minus :: span else span) with
        | some dv => some (dv, q)
        | none => none

/-- `ryu` on a copied text, and `strtod` where `ryu` declines. -/
def readDouble (fc : FloatConv) (fbuf : Bytes) : Double :=
  (fc.ryuS2d fbuf).getD (fc.strtod fbuf)

/-- Behind a copied mantissa, the exponent is copied with at most `limit` bytes in all; `none`
is the jump to the slow path at an underscore. -/
def copyExp (fbuf r : Bytes) : Except Diag (Option (Bytes × Bytes)) :=
  if atExp r then
    let fbuf := fbuf ++ [0x65]
    let r := r.drop 1
    let fbuf := if atSign r then fbuf ++ r.take 1 else fbuf
    let r := if atSign r then r.drop 1 else r
    let ed := r.takeWhile isDec
    let r := r.dropWhile isDec
    if ed = [] then failAt r .errSyntax "expected digits"
    else if r.head? = some Ch.under then .ok none
    else .ok (some (fbuf ++ ed.take (numMax * 2 - fbuf.length), r))
  else .ok (some (fbuf, r))

/-- The copying float path behind at most eighteen plain digits `ds`; `none` is the jump to the
slow path. -/
def floatCopy (neg : Bool) (ds r : Bytes) : Except Diag (Option (Bytes × Bytes)) :=
  let fbuf := (if neg then [Ch.minus] else []) ++ ds
  if r.head? = some Ch.dot then
    let fbuf := fbuf ++ [Ch.dot]
    let fd := (r.drop 1).takeWhile isDec
    let r := (r.drop 1).dropWhile isDec
    if fd = [] then failAt r .errSyntax "expected digits"
    else if r.head? = some Ch.under then .ok none
    else copyExp (fbuf ++ fd.take (numMax * 2 - 16 - fbuf.length)) r
  else copyExp fbuf r

/-! ## The slow path -/

/-- The fraction of the slow path, appended to the copy. -/
def slowFrac (fbuf r : Bytes) : Res Bytes :=
  if r.head? = some Ch.dot then
    match scanRun 10 (r.drop 1) with
    | .error e => .error e
    | .ok (frac, r) => .ok (fbuf ++ [Ch.dot] ++ frac, r)
  else .ok (fbuf, r)

/-- The exponent of the slow path, appended to the copy. -/
def slowExp (fbuf r : Bytes) : Res Bytes :=
  if atExp r then
    let r := r.drop 1
    let fbuf := fbuf ++ [0x65] ++ if atSign r then r.take 1 else []
    let r := if atSign r then r.drop 1 else r
    match scanRun 10 r with
    | .error e => .error e
    | .ok (ex, r) => .ok (fbuf ++ ex, r)
  else .ok (fbuf, r)

/-- At `.`, `e` or `E`: the digits before belong to a float. -/
def atFloatMark (r : Bytes) : Bool := r.head? = some Ch.dot || atExp r

/-- The integer with the given sign and magnitude, at the input `r` behind it. -/
def signedInteger (neg : Bool) (mag : ℕ) (r : Bytes) : Res Node :=
  if neg then
    if 2 ^ 63 < mag then failAt r .errSyntax "integer out of range"
    else .ok (.integer (if mag = 2 ^ 63 then Int64.minValue else -Int64.ofNat mag), r)
  else
    if 2 ^ 63 - 1 < mag then failAt r .errSyntax "integer out of range"
    else .ok (.integer (Int64.ofNat mag), r)

/-- `slow_decimal`: underscores, or more than eighteen digits. -/
def slowDecimal (fc : FloatConv) (neg : Bool) (r : Bytes) : Res Node :=
  match scanRun 10 r with
  | .error e => .error e
  | .ok (buf, r) =>
    if buf.head? = some Ch.zero ∧ 1 < buf.length then
      failAt r .errSyntax "leading zero in number"
    else if atFloatMark r then
      match slowFrac ((if neg then [Ch.minus] else []) ++ buf) r with
      | .error e => .error e
      | .ok (fbuf, r) =>
        match slowExp fbuf r with
        | .error e => .error e
        | .ok (fbuf, r) => .ok (.float (readDouble fc fbuf), r)
    else
      match magFrom 10 0 buf with
      | none => failAt r .errSyntax "integer out of range"
      | some mag => signedInteger neg mag r

/-! ## `teptris_parse_number` -/

/-- The radix a `0x`, `0o` or `0b` prefix announces. -/
def radixOf (r : Bytes) : Option ℕ :=
  if r.head? = some Ch.zero then
    if r[1]? = some 0x78 then some 16
    else if r[1]? = some 0x6F then some 8
    else if r[1]? = some 0x62 then some 2
    else none
  else none

/-- The integer behind a radix prefix. -/
def radixInteger (radix : ℕ) (r : Bytes) : Res Node :=
  match scanRun radix r with
  | .error e => .error e
  | .ok (buf, r) =>
    match magFrom radix 0 buf with
    | none => failAt r .errSyntax "integer out of range"
    | some mag =>
      if 2 ^ 63 - 1 < mag then failAt r .errSyntax "integer out of range"
      else .ok (.integer (Int64.ofNat mag), r)

/-- A float behind at most eighteen plain digits `ds` that start at `dstart`. -/
def decimalFloat (fc : FloatConv) (signedInput neg : Bool) (dstart ds r : Bytes) : Res Node :=
  -- `ryu` rejects a leading plus, so such a number is copied
  match if !signedInput || neg then floatFast fc neg dstart ds r else none with
  | some (dv, r) => .ok (.float dv, r)
  | none =>
    match floatCopy neg ds r with
    | .error e => .error e
    | .ok (some (fbuf, r)) => .ok (.float (readDouble fc fbuf), r)
    | .ok none => slowDecimal fc neg dstart

/-- A number that starts with a decimal digit and no radix prefix. -/
def decimal (fc : FloatConv) (signedInput neg : Bool) (dstart : Bytes) : Res Node :=
  let ds := dstart.takeWhile isDec
  let r := dstart.dropWhile isDec
  if 0 < ds.length ∧ ds.length ≤ 18 ∧ r.head? ≠ some Ch.under then
    if ds.head? = some Ch.zero ∧ 1 < ds.length then
      failAt r .errSyntax "leading zero in number"
    else if atFloatMark r then decimalFloat fc signedInput neg dstart ds r
    else .ok (.integer (if neg then -Int64.ofNat (decVal ds) else Int64.ofNat (decVal ds)), r)
  else slowDecimal fc neg dstart

/-- `teptris_parse_number` behind the sign. -/
def parseUnsigned (fc : FloatConv) (signedInput neg : Bool) (r : Bytes) : Res Node :=
  match r with
  | [] => failAt [] .errSyntax "invalid number"
  | c :: _ =>
    if c = 0x69 then (expectWord wInf r).map fun r => (.float (Double.inf neg), r)
    else if c = 0x6E then (expectWord wNan r).map fun r => (.float Double.nan, r)
    else if !isDec c then failAt r .errSyntax "invalid number"
    else match radixOf r with
      | some radix =>
        if signedInput then failAt r .errSyntax "sign not allowed on radix integer"
        else radixInteger radix (r.drop 2)
      | none => decimal fc signedInput neg r

/-- `teptris_parse_number`; with `signedInput` the cursor is at the sign. -/
def parseNumber (fc : FloatConv) (signedInput : Bool) (r : Bytes) : Res Node :=
  if signedInput then parseUnsigned fc true (r.head? = some Ch.minus) (r.drop 1)
  else parseUnsigned fc false false r

end Teptris
