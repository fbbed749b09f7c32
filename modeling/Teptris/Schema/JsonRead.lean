import Teptris.Dom.Compare
import Teptris.Emit.Scalars
import Teptris.Library.Json
import Teptris.Schema.Value

/-!
# The reader of schema texts

`json_read.c`.  The reader works on the bytes in front of it; a failure is its message and the
bytes it was reported in front of.  `strtod` is given.
-/

namespace Teptris

/-! ## Values -/

/-- A number of a schema text. -/
inductive JNum where
  /-- `JV_INT`. -/
  | int (i : Int64)
  /-- `JV_NUM`. -/
  | num (d : Double)

/-- `jv_num`. -/
def JNum.toDouble : JNum → Double
  | .int i => .ofInt64 i
  | .num d => d

/-- `jv`; the name of a member is a C string. -/
inductive Jv where
  /-- `JV_NULL`. -/
  | null
  /-- `JV_BOOL`. -/
  | bool (b : Bool)
  /-- `JV_INT` or `JV_NUM`. -/
  | number (n : JNum)
  /-- `JV_STRING`. -/
  | string (s : Bytes)
  /-- `JV_ARRAY`. -/
  | array (items : List Jv)
  /-- `JV_OBJECT`. -/
  | object (members : List (Bytes × Jv))

/-- `jv_member_get`: the last member of that name. -/
def jvMemberGet (members : List (Bytes × Jv)) (key : Bytes) : Option Jv :=
  (members.reverse.find? fun m => m.1 = key).map (·.2)

/-- What a step of the reader gives. -/
abbrev JResult (α : Type) := Except (String × Bytes) α

/-! ## Strings -/

/-- The bytes `jskip_ws` skips. -/
def isJws (c : UInt8) : Bool := c == 0x20 || c == 0x09 || c == 0x0A || c == 0x0D

/-- `jskip_ws`. -/
def jskipWs (t : Bytes) : Bytes := t.dropWhile isJws

/-- `jhex`. -/
def jhex (c : UInt8) : Option ℕ :=
  if 0x30 ≤ c ∧ c ≤ 0x39 then some (c.toNat - 0x30)
  else if 0x61 ≤ c ∧ c ≤ 0x66 then some (c.toNat - 0x61 + 10)
  else if 0x41 ≤ c ∧ c ≤ 0x46 then some (c.toNat - 0x41 + 10)
  else none

/-- The loop over four hexadecimal digits. -/
def jhex4 (t : Bytes) : Option ℕ :=
  (t.take 4).foldl (fun cp c => cp.bind fun cp => (jhex c).map fun d => cp * 16 + d) (some 0)

/-- `jescape_u`, behind the `u`. -/
def jescapeU (t : Bytes) : JResult (ℕ × Bytes) :=
  if t.length < 4 then .error ("incomplete \\u escape", t)
  else
    match jhex4 t with
    | none => .error ("invalid \\u escape", t)
    | some cp =>
      let r := t.drop 4
      if 0xD800 ≤ cp ∧ cp ≤ 0xDBFF ∧ 6 ≤ r.length ∧ r.take 2 = [0x5C, 0x75] then
        match jhex4 (r.drop 2) with
        | none => .ok (cp, r)
        | some lo =>
          if 0xDC00 ≤ lo ∧ lo ≤ 0xDFFF then
            .ok (0x10000 + (cp - 0xD800) * 2 ^ 10 + (lo - 0xDC00), r.drop 6)
          else .ok (cp, r)
      else .ok (cp, r)

/-- `jput_utf8`. -/
def jputUtf8 (cp : ℕ) : Bytes :=
  if cp < 0x80 then [UInt8.ofNat cp]
  else if cp < 0x800 then [UInt8.ofNat (0xC0 ||| cp >>> 6), UInt8.ofNat (0x80 ||| cp &&& 0x3F)]
  else if cp < 0x10000 then
    [UInt8.ofNat (0xE0 ||| cp >>> 12), UInt8.ofNat (0x80 ||| cp >>> 6 &&& 0x3F),
      UInt8.ofNat (0x80 ||| cp &&& 0x3F)]
  else
    [UInt8.ofNat (0xF0 ||| cp >>> 18), UInt8.ofNat (0x80 ||| cp >>> 12 &&& 0x3F),
      UInt8.ofNat (0x80 ||| cp >>> 6 &&& 0x3F), UInt8.ofNat (0x80 ||| cp &&& 0x3F)]

/-- The byte of a two-character escape. -/
def jshort (e : UInt8) : Option UInt8 :=
  if e = 0x22 then some 0x22
  else if e = 0x5C then some 0x5C
  else if e = 0x2F then some 0x2F
  else if e = 0x62 then some 0x08
  else if e = 0x66 then some 0x0C
  else if e = 0x6E then some 0x0A
  else if e = 0x72 then some 0x0D
  else if e = 0x74 then some 0x09
  else none

/-- One turn of the loop that rebuilds a string, on a byte that is not the closing quote: what it
puts out, and what is left. -/
def jchar (ch : UInt8) (t : Bytes) : JResult (Bytes × Bytes) :=
  if ch < 0x20 then .error ("control character in string", ch :: t)
  else if ch ≠ 0x5C then .ok ([ch], t)
  else
    match t with
    | [] => .error ("unterminated escape", [])
    | e :: t =>
      if e = 0x75 then
        match jescapeU t with
        | .error f => .error f
        | .ok (cp, t) =>
          if 0xD800 ≤ cp ∧ cp ≤ 0xDFFF then .error ("lone surrogate in \\u escape", t)
          else .ok (jputUtf8 cp, t)
      else
        match jshort e with
        | none => .error ("invalid escape", e :: t)
        | some c => .ok ([c], t)

/-- The loop that rebuilds a string, up to its closing quote. -/
def jrebuild : ℕ → Bytes → JResult (Bytes × Bytes)
  | 0, t => .error ("unterminated string", t)
  | _ + 1, [] => .error ("unterminated string", [])
  | n + 1, ch :: t =>
    if ch = 0x22 then .ok ([], t)
    else
      match jchar ch t with
      | .error f => .error f
      | .ok (out, t) =>
        match jrebuild n t with
        | .error f => .error f
        | .ok (s, t) => .ok (out ++ s, t)

/-- The bytes the fast scan of a string steps over. -/
def isPlainChar (c : UInt8) : Bool := c != 0x22 && c != 0x5C && 0x20 ≤ c

/-- `jstring`, behind the opening quote. -/
def jstring (t : Bytes) : JResult (Bytes × Bytes) :=
  match t.dropWhile isPlainChar with
  | [] => .error ("unterminated string", [])
  | ch :: r =>
    if ch = 0x22 then .ok (t.takeWhile isPlainChar, r)
    else
      match jrebuild (r.length + 2) (ch :: r) with
      | .error f => .error f
      | .ok (s, r) => .ok (t.takeWhile isPlainChar ++ s, r)

/-! ## Numbers -/

/-- The bytes the scan of a number steps over. -/
def isNumByte (c : UInt8) : Bool :=
  isDec c || c == 0x2E || c == 0x65 || c == 0x45 || c == 0x2B || c == 0x2D

/-- The token of a number. -/
def numToken (t : Bytes) : Bytes :=
  if t.head? = some Ch.minus then Ch.minus :: (t.drop 1).takeWhile isNumByte
  else t.takeWhile isNumByte

/-- The number of a token: `strtoll` where it has digits only, behind a sign, and fits. -/
def jnumber (strtod : Bytes → Double) (tok : Bytes) : JNum :=
  let neg : Bool := tok.head? = some Ch.minus
  let ds := if neg then tok.drop 1 else tok
  let i : ℤ := if neg then -(decVal ds : ℤ) else decVal ds
  if ds ≠ [] ∧ ds.all isDec ∧ -2 ^ 63 ≤ i ∧ i < 2 ^ 63 then .int (.ofInt i) else .num (strtod tok)

/-! ## Containers -/

/-- The loop of `jobject`. -/
def jmembers (value : Bytes → JResult (Jv × Bytes)) : ℕ → Bytes →
    JResult (List (Bytes × Jv) × Bytes)
  | 0, t => .error ("expected string key", t)
  | n + 1, t =>
    let t := jskipWs t
    if t.head? ≠ some 0x22 then .error ("expected string key", t)
    else
      match jstring (t.drop 1) with
      | .error f => .error f
      | .ok (key, t) =>
        let t := jskipWs t
        if t.head? ≠ some 0x3A then .error ("expected ':'", t)
        else
          match value (t.drop 1) with
          | .error f => .error f
          | .ok (v, t) =>
            let t := jskipWs t
            if t.head? = some 0x2C then
              match jmembers value n (t.drop 1) with
              | .error f => .error f
              | .ok (ms, t) => .ok ((cstr key, v) :: ms, t)
            else if t.head? = some 0x7D then .ok ([(cstr key, v)], t.drop 1)
            else .error ("expected ',' or '\x7d'", t)

/-- `jobject`, behind its brace. -/
def jobject (value : Bytes → JResult (Jv × Bytes)) (t : Bytes) :
    JResult (List (Bytes × Jv) × Bytes) :=
  if (jskipWs t).head? = some 0x7D then .ok ([], (jskipWs t).drop 1)
  else jmembers value ((jskipWs t).length + 1) (jskipWs t)

/-- The loop of `jarray`. -/
def jitems (value : Bytes → JResult (Jv × Bytes)) : ℕ → Bytes → JResult (List Jv × Bytes)
  | 0, t => .error ("expected ',' or ']'", t)
  | n + 1, t =>
    match value t with
    | .error f => .error f
    | .ok (v, t) =>
      let t := jskipWs t
      if t.head? = some 0x2C then
        match jitems value n (t.drop 1) with
        | .error f => .error f
        | .ok (vs, t) => .ok (v :: vs, t)
      else if t.head? = some 0x5D then .ok ([v], t.drop 1)
      else .error ("expected ',' or ']'", t)

/-- `jarray`, behind its bracket. -/
def jarray (value : Bytes → JResult (Jv × Bytes)) (t : Bytes) : JResult (List Jv × Bytes) :=
  if (jskipWs t).head? = some 0x5D then .ok ([], (jskipWs t).drop 1)
  else jitems value ((jskipWs t).length + 1) (jskipWs t)

/-- `jvalue`, with the levels that are left. -/
def jvalue (strtod : Bytes → Double) : ℕ → Bytes → JResult (Jv × Bytes)
  | 0, t => .error ("schema nesting too deep", t)
  | d + 1, t =>
    match jskipWs t with
    | [] => .error ("unexpected end of schema", [])
    | ch :: r =>
      if ch = 0x7B then (jobject (jvalue strtod d) r).map fun o => (.object o.1, o.2)
      else if ch = 0x5B then (jarray (jvalue strtod d) r).map fun a => (.array a.1, a.2)
      else if ch = 0x22 then (jstring r).map fun s => (.string s.1, s.2)
      else if (ch :: r).take 4 = ascii "true" then .ok (.bool true, (ch :: r).drop 4)
      else if (ch :: r).take 5 = ascii "false" then .ok (.bool false, (ch :: r).drop 5)
      else if (ch :: r).take 4 = ascii "null" then .ok (.null, (ch :: r).drop 4)
      else if ch = 0x2D ∨ (0x30 ≤ ch ∧ ch ≤ 0x39) then
        if 64 ≤ (numToken (ch :: r)).length then
          .error ("invalid number", (ch :: r).drop (numToken (ch :: r)).length)
        else
          .ok (.number (jnumber strtod (numToken (ch :: r))),
            (ch :: r).drop (numToken (ch :: r)).length)
      else .error ("unexpected character", ch :: r)

/-- `JSON_MAX_DEPTH`. -/
def jsonMaxDepth : ℕ := 128

/-- `json_read`. -/
def jsonRead (strtod : Bytes → Double) (t : Bytes) : JResult Jv :=
  match jvalue strtod jsonMaxDepth t with
  | .error f => .error f
  | .ok (v, t) => if jskipWs t = [] then .ok v else .error ("trailing content", jskipWs t)

end Teptris
