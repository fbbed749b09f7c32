import Teptris.Dom.WellFormed
import Teptris.Parse.Str

/-!
# Dates and times

`datetime.c`: the lookahead that recognises a date or a time, and the parser behind it.  All
errors are reported at the start of the value.
-/

namespace Teptris

/-- The byte at an offset; the reads of the source stay inside the input. -/
def byteAt (p : Bytes) (i : ℕ) : UInt8 := p.getD i 0

theorem byteAt_drop (p : Bytes) (i j : ℕ) : byteAt (p.drop i) j = byteAt p (i + j) := by
  simp [byteAt, List.getD_eq_getElem?_getD]

/-- `is_dig`, at an offset. -/
def digAt (p : Bytes) (i : ℕ) : Bool := isDec (byteAt p i)

/-- `d2`, on digits. -/
def d2 (p : Bytes) (i : ℕ) : ℕ :=
  ((byteAt p i).toNat - 0x30) * 10 + ((byteAt p (i + 1)).toNat - 0x30)

/-- `num4`, on digits. -/
def num4 (p : Bytes) (i : ℕ) : ℕ := d2 p i * 100 + d2 p (i + 2)

/-- The shape `DDDD-DD-DD`. -/
def dateShape (p : Bytes) : Bool :=
  10 ≤ p.length && byteAt p 4 == Ch.minus && byteAt p 7 == Ch.minus && digAt p 0 && digAt p 1 &&
    digAt p 2 && digAt p 3 && digAt p 5 && digAt p 6 && digAt p 8 && digAt p 9

/-- The shape `DD:DD`. -/
def timeShape (p : Bytes) : Bool :=
  5 ≤ p.length && byteAt p 2 == Ch.colon && digAt p 0 && digAt p 1 && digAt p 3 && digAt p 4

/-- `teptris_datetime_lookahead`. -/
def datetimeLookahead (p : Bytes) : Bool := dateShape p || timeShape p

/-- The nanoseconds of fractional digits: nine of them count. -/
def fracNanos (ds : Bytes) : ℕ :=
  (ds.foldl (fun (s : ℕ × ℕ) c => (s.1 + (c.toNat - 0x30) * s.2, s.2 / 10)) (0, 100000000)).1

/-- A fraction of a second at the cursor, and what follows. -/
def parseFrac (start p : Bytes) : Except Diag (ℕ × Bytes) :=
  if p.head? = some Ch.dot then
    let ds := (p.drop 1).takeWhile isDec
    if ds = [] then failAt start .errSyntax "expected fractional digits"
    else .ok (fracNanos ds, (p.drop 1).dropWhile isDec)
  else .ok (0, p)

/-- The clock of a datetime or a time, behind the check of its second field: hour, minute,
second, and what follows it. -/
def checkClock (start p : Bytes) (s consumed : ℕ) : Except Diag (ℕ × ℕ × ℕ × Bytes) :=
  let h := d2 p 0
  let mi := d2 p 3
  if 23 < h then failAt start .errSyntax "invalid hour"
  else if 59 < mi then failAt start .errSyntax "invalid minute"
  else if 60 < s then failAt start .errSyntax "invalid second"
  else .ok (h, mi, s, p.drop consumed)

/-- The clock, where a colon with fewer than `need` bytes left is not one of its seconds. -/
def parseClock (need : ℕ) (start p : Bytes) : Except Diag (ℕ × ℕ × ℕ × Bytes) :=
  if need ≤ p.length ∧ byteAt p 5 = Ch.colon then
    if p.length < 8 ∨ !digAt p 6 ∨ !digAt p 7 then failAt start .errSyntax "invalid second"
    else checkClock start p (d2 p 6) 8
  else checkClock start p 0 5

/-- Behind `DDDD-DD-DD`, the shape `T`, `t` or a space, and `DD:DD`. -/
def hasTime (p : Bytes) : Bool :=
  (p.head? = some 0x54 || p.head? = some 0x74 || p.head? = some Ch.sp) && 6 ≤ p.length &&
    digAt p 1 && digAt p 2 && byteAt p 3 == Ch.colon && digAt p 4 && digAt p 5

/-- A `+` or `-`, and `DD:DD`. -/
def hasOffset (p : Bytes) : Bool :=
  atSignByte (byteAt p 0) && 6 ≤ p.length && digAt p 1 && digAt p 2 && byteAt p 3 == Ch.colon &&
    digAt p 4 && digAt p 5
where
  /-- `+` or `-`. -/
  atSignByte (c : UInt8) : Bool := c == Ch.plus || c == Ch.minus

/-- The offset behind a date and a time. -/
def parseOffset (start p : Bytes) (dt : Datetime) : Res Node :=
  if p.head? = some 0x5A ∨ p.head? = some 0x7A then
    .ok (.datetime .datetimeOffset { dt with offsetSeconds := 0 }, p.drop 1)
  else if hasOffset p then
    let oh := d2 p 1
    let om := d2 p 4
    if 23 < oh ∨ 59 < om then failAt start .errSyntax "invalid UTC offset"
    else
      let secs := Int32.ofNat (oh * 3600 + om * 60)
      .ok (.datetime .datetimeOffset
        { dt with offsetSeconds := if byteAt p 0 = Ch.minus then -secs else secs }, p.drop 6)
  else .ok (.datetime .datetimeLocal dt, p)

/-- A date, with or without a time. -/
def parseDateLed (start : Bytes) : Res Node :=
  let y := num4 start 0
  let mo := d2 start 5
  let da := d2 start 8
  if mo < 1 ∨ 12 < mo then failAt start .errSyntax "invalid month"
  else if da < 1 ∨ daysInMonth y mo < da then failAt start .errSyntax "invalid day"
  else
    let dt : Datetime :=
      { year := Int32.ofNat y, month := UInt8.ofNat mo, day := UInt8.ofNat da }
    let p := start.drop 10
    if !hasTime p then .ok (.datetime .dateLocal dt, p)
    else
      match parseClock 6 start (p.drop 1) with
      | .error e => .error e
      | .ok (h, mi, s, p) =>
        match parseFrac start p with
        | .error e => .error e
        | .ok (ns, p) =>
          parseOffset start p
            { dt with
              hour := UInt8.ofNat h, minute := UInt8.ofNat mi, second := UInt8.ofNat s,
              nanosecond := UInt32.ofNat ns }

/-- A time alone. -/
def parseTimeOnly (start : Bytes) : Res Node :=
  match parseClock 8 start start with
  | .error e => .error e
  | .ok (h, mi, s, p) =>
    match parseFrac start p with
    | .error e => .error e
    | .ok (ns, p) =>
      .ok (.datetime .timeLocal
        { hour := UInt8.ofNat h, minute := UInt8.ofNat mi, second := UInt8.ofNat s,
          nanosecond := UInt32.ofNat ns }, p)

/-- `teptris_parse_datetime`. -/
def parseDatetime (start : Bytes) : Res Node :=
  if byteAt start 4 = Ch.minus then parseDateLed start else parseTimeOnly start

end Teptris
