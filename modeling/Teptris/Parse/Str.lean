import Teptris.Dom.Node
import Teptris.Library.Loop

/-!
# Strings

The string scanners of `scalars.c` (`tep_scan_basic`, `tep_scan_literal`), the lookahead for
bodies without escapes (`teptris_try_plain_body`), and the two callers `parse_string` and
`quoted_key`.  The source scans a body twice, once to count and once to write; both passes
are the one scan below, which returns the decoded bytes.
-/

namespace Teptris

open Loop

/-! ## Escapes -/

/-- `utf8_put`. -/
def utf8Put (cp : ℕ) : Bytes :=
  if cp < 0x80 then
    [UInt8.ofNat cp]
  else if cp < 0x800 then
    [UInt8.ofNat (0xC0 ||| cp >>> 6), UInt8.ofNat (0x80 ||| (cp &&& 0x3F))]
  else if cp < 0x10000 then
    [UInt8.ofNat (0xE0 ||| cp >>> 12), UInt8.ofNat (0x80 ||| (cp >>> 6 &&& 0x3F)),
      UInt8.ofNat (0x80 ||| (cp &&& 0x3F))]
  else
    [UInt8.ofNat (0xF0 ||| cp >>> 18), UInt8.ofNat (0x80 ||| (cp >>> 12 &&& 0x3F)),
      UInt8.ofNat (0x80 ||| (cp >>> 6 &&& 0x3F)), UInt8.ofNat (0x80 ||| (cp &&& 0x3F))]

/-- The value of a hexadecimal digit, as in `read_hex` and `hexval`. -/
def hexVal (c : UInt8) : ℕ :=
  if c ≤ 0x39 then c.toNat - 0x30 else (c ||| 0x20).toNat - 0x61 + 10

/-- `read_hex`, with the value `v` of the digits read so far. -/
def readHex : ℕ → ℕ → Bytes → Except Diag (ℕ × Bytes)
  | 0, v, r => .ok (v, r)
  | _ + 1, _, [] => failAt [] .errSyntax "invalid unicode escape"
  | digits + 1, v, c :: cs =>
    if isHex c then readHex digits (v * 16 + hexVal c) cs
    else failAt (c :: cs) .errSyntax "invalid unicode escape"

/-- The white space a line-ending backslash swallows. -/
def trimLines : Bytes → Bytes
  | [] => []
  | [c] => if isWs c || c = Ch.lf then [] else [c]
  | c :: d :: ds =>
    if isWs c || c = Ch.lf then trimLines (d :: ds)
    else if c = Ch.cr ∧ d = Ch.lf then trimLines ds
    else c :: d :: ds

/-- At a line feed, or a carriage return and a line feed. -/
def atNewline (r : Bytes) : Bool :=
  r.head? = some Ch.lf || (r.head? = some Ch.cr && r[1]? = some Ch.lf)

/-- The escapes that stand for one byte. -/
def shortEscape (e : UInt8) : Option UInt8 :=
  if e = 0x62 then some Ch.bs
  else if e = 0x74 then some Ch.tab
  else if e = 0x6E then some Ch.lf
  else if e = 0x66 then some Ch.ff
  else if e = 0x72 then some Ch.cr
  else if e = Ch.dquote then some Ch.dquote
  else if e = Ch.bslash then some Ch.bslash
  else if e = 0x65 then some Ch.esc
  else none

/-- An escape with that many hexadecimal digits that names any code point. -/
def hexEscape (digits : ℕ) (r : Bytes) : Except Diag (Bytes × Bytes) :=
  match readHex digits 0 r with
  | .error e => .error e
  | .ok (cp, r) => .ok (utf8Put cp, r)

/-- An escape with that many hexadecimal digits that names a scalar value. -/
def unicodeEscape (digits : ℕ) (r : Bytes) : Except Diag (Bytes × Bytes) :=
  match readHex digits 0 r with
  | .error e => .error e
  | .ok (cp, r) =>
    if (0xD800 ≤ cp ∧ cp ≤ 0xDFFF) ∨ 0x10FFFF < cp then
      failAt r .errSyntax "invalid unicode scalar value"
    else .ok (utf8Put cp, r)

/-- The escape behind a backslash, in `tep_scan_basic`. -/
def scanEscape (ml : Bool) (r : Bytes) : Except Diag (Bytes × Bytes) :=
  match r with
  | [] => failAt [] .errSyntax "unterminated escape"
  | e :: es =>
    if ml && (isWs e || e = Ch.lf || e = Ch.cr) then
      if atNewline (r.dropWhile isWs) then .ok ([], trimLines r)
      else failAt r .errSyntax "invalid escape"
    else match shortEscape e with
      | some b => .ok ([b], es)
      | none =>
        if e = 0x78 then hexEscape 2 es
        else if e = 0x75 then unicodeEscape 4 es
        else if e = 0x55 then unicodeEscape 8 es
        else failAt r .errSyntax "invalid escape"

/-! ## The scanners -/

/-- The closing quotes of a multi-line string, or quotes inside it. -/
def scanQuotes (quote : UInt8) (out r : Bytes) :
    Except Diag (Turn (Bytes × Bytes) (Bytes × Bytes)) :=
  let run := (r.takeWhile (· = quote)).length
  if 6 ≤ run then failAt r .errSyntax "too many consecutive quotes"
  else
    let content := if 3 ≤ run then run - 3 else run
    let out := out ++ List.replicate content quote
    if run ≤ 2 then .ok (.next (out, r.drop run)) else .ok (.stop (out, r.drop run))

/-- One turn of a string scanner: the bytes decoded so far, and the rest of the input.
`escape` is what follows a backslash; a literal string has none. -/
def scanTurn (quote : UInt8) (escape : Option (Bytes → Except Diag (Bytes × Bytes))) (ml : Bool)
    (s : Bytes × Bytes) : Except Diag (Turn (Bytes × Bytes) (Bytes × Bytes)) :=
  let (out, r) := s
  match r with
  | [] => failAt [] .errSyntax "unterminated string"
  | c :: cs =>
    if c = quote then
      if ml then scanQuotes quote out r else .ok (.stop (out, cs))
    else if c = Ch.bslash ∧ escape.isSome then
      match escape.getD (fun r => .ok ([], r)) cs with
      | .error e => .error e
      | .ok (o, r) => .ok (.next (out ++ o, r))
    else if c = Ch.lf then
      if ml then .ok (.next (out ++ [Ch.lf], cs))
      else failAt r .errSyntax "unterminated string"
    else if c = Ch.cr then
      -- a line end inside a multi-line string is normalised to a line feed
      if ml ∧ cs.head? = some Ch.lf then .ok (.next (out ++ [Ch.lf], cs.drop 1))
      else failAt r .errSyntax "control character in string"
    else if isControl c then failAt r .errSyntax "control character in string"
    else .ok (.next (out ++ [c], cs))

/-- `tep_scan_basic`: the decoded body, and what follows the closing quotes. -/
def scanBasic (ml : Bool) (r : Bytes) : Res Bytes :=
  loop (scanTurn Ch.dquote (some (scanEscape ml)) ml) Diag.stuck (fun s => s.2.length) ([], r)

/-- `tep_scan_literal`. -/
def scanLiteral (ml : Bool) (r : Bytes) : Res Bytes :=
  loop (scanTurn Ch.squote none ml) Diag.stuck (fun s => s.2.length) ([], r)

/-! ## Plain bodies -/

/-- `tep_simd_str_stop`: the first offset of `q`, `e` or a control byte, or the length.  A
vector block reports its first matching lane, so the blocks are the scan of the tail. -/
def simdStrStop (q e : UInt8) (p : Bytes) : ℕ :=
  p.findIdx (fun c => c == q || c == e || isControl c)

/-- The one-pass loop of `teptris_try_plain_body`. -/
def plainShort (close : UInt8) : Bytes → Option Bytes
  | [] => none
  | c :: cs =>
    if c = close then some []
    else if c = Ch.bslash || isControl c then none
    else (plainShort close cs).map (c :: ·)

/-- `teptris_try_plain_body`: the content of a body without escapes and control bytes. -/
def tryPlainBody (close : UInt8) (r : Bytes) : Option Bytes :=
  if 32 ≤ r.length then
    let off := r.findIdx (· == close)
    if off = r.length then none
    else
      let esc := if close = Ch.dquote then Ch.bslash else 0
      if simdStrStop esc 0 (r.take off) < off then none else some (r.take off)
  else plainShort close r

/-! ## Values and keys -/

/-- The line end right behind the opening quotes of a multi-line string is not content. -/
def skipFirstNewline (r : Bytes) : Bytes :=
  if r.head? = some Ch.cr ∧ r[1]? = some Ch.lf then r.drop 2
  else if r.head? = some Ch.lf then r.drop 1
  else r

/-- A single-line body behind the opening quote: the plain lookahead, then the scanner. -/
def singleLineBody (basic : Bool) (r : Bytes) : Res Bytes :=
  match tryPlainBody (if basic then Ch.dquote else Ch.squote) r with
  | some content => .ok (content, r.drop (content.length + 1))
  | none => if basic then scanBasic false r else scanLiteral false r

/-- `parse_string`, from the opening quote. -/
def parseString (r : Bytes) : Res Node :=
  let basic : Bool := r.head? = some Ch.dquote
  let ml : Bool := r.head?.isSome && r[1]? = r.head? && r[2]? = r.head?
  let body :=
    if ml then
      let r := skipFirstNewline (r.drop 3)
      if basic then scanBasic true r else scanLiteral true r
    else singleLineBody basic (r.drop 1)
  match body with
  | .error e => .error e
  | .ok (s, r) => .ok (.string s, r)

/-- `quoted_key`, from the opening quote. -/
def quotedKey (r : Bytes) : Res Bytes :=
  singleLineBody (r.head? = some Ch.dquote) (r.drop 1)

end Teptris
