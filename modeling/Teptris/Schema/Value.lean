import Teptris.Emit.Text

/-!
# Tagged values

`sch_svalue` of `schema_internal.h`: what the validator walks, and the conversion of a document
into it.
-/

namespace Teptris

/-! ## Text -/

/-- The bytes of an ASCII text of the source. -/
def ascii (s : String) : Bytes := s.toList.map fun c => UInt8.ofNat c.toNat

/-- A C string: the bytes in front of the first NUL. -/
def cstr (s : Bytes) : Bytes := s.takeWhile (· ≠ 0)

/-- `%0wd`. -/
def padInt (w : ℕ) (v : ℤ) : Bytes :=
  let ds := natText v.natAbs
  let w := if v < 0 then w - 1 else w
  (if v < 0 then [Ch.minus] else []) ++ List.replicate (w - ds.length) Ch.zero ++ ds

/-! ## Values -/

/-- `sch_svalue`. -/
inductive SValue where
  /-- `SV_STRING`. -/
  | string (s : Bytes)
  /-- `SV_INT`. -/
  | int (i : Int64)
  /-- `SV_FLOAT`. -/
  | float (f : Double)
  /-- `SV_BOOL`. -/
  | bool (b : Bool)
  /-- `SV_NULL`. -/
  | null
  /-- `SV_ARRAY`. -/
  | array (items : List SValue)
  /-- `SV_TABLE`. -/
  | table (members : List (Bytes × SValue))
  /-- `SV_DATETIME`, offset or local. -/
  | datetime (text : Bytes) (hasOffset : Bool)
  /-- `SV_DATE`. -/
  | date (text : Bytes)
  /-- `SV_TIME`. -/
  | time (text : Bytes)

/-- The text of strings and of dates and times. -/
def SValue.text : SValue → Option Bytes
  | .string s => some s
  | .datetime s _ => some s
  | .date s => some s
  | .time s => some s
  | _ => none

/-- `"%04d-%02d-%02d"`. -/
def dateView (dt : Datetime) : Bytes :=
  padInt 4 dt.year.toInt ++ [Ch.minus] ++ padInt 2 dt.month.toNat ++ [Ch.minus] ++
    padInt 2 dt.day.toNat

/-- `"%02d:%02d:%02d"`, and `".%09u"` where there are nanoseconds. -/
def clockView (dt : Datetime) : Bytes :=
  padInt 2 dt.hour.toNat ++ [Ch.colon] ++ padInt 2 dt.minute.toNat ++ [Ch.colon] ++
    padInt 2 dt.second.toNat ++
    if 0 < dt.nanosecond then Ch.dot :: padInt 9 dt.nanosecond.toNat else []

/-- The datetimes of `node_to_sv`.  The length of an offset datetime does not count an offset
other than `Z`. -/
def datetimeToSv (kind : DtKind) (dt : Datetime) : SValue :=
  match kind with
  | .datetimeOffset =>
    .datetime (dateView dt ++ [0x54] ++ clockView dt ++
      if dt.offsetSeconds = 0 then [0x5A] else []) true
  | .datetimeLocal => .datetime (dateView dt ++ [0x54] ++ clockView dt) false
  | .dateLocal => .date ((dateView dt).take 10)
  | .timeLocal => .time (clockView dt)

mutual

/-- `node_to_sv`; the keys become C strings. -/
def nodeToSv : Node → SValue
  | .string s => .string s
  | .integer i => .int i
  | .float f => .float f
  | .boolean b => .bool b
  | .datetime kind dt => datetimeToSv kind dt
  | .array _ items => .array (itemsToSv items)
  | .table _ es => .table (entriesToSv es)

/-- The elements of an array. -/
def itemsToSv : List Node → List SValue
  | [] => []
  | v :: vs => nodeToSv v :: itemsToSv vs

/-- The members of a table. -/
def entriesToSv : List (Key × Node) → List (Bytes × SValue)
  | [] => []
  | (k, v) :: es => (cstr k.bytes, nodeToSv v) :: entriesToSv es

end

/-! ## Code points -/

/-- The length of a character by its lead byte, as `cp_count` takes it. -/
def cpStep (b : UInt8) : ℕ :=
  if b < 0x80 then 1 else if b < 0xE0 then 2 else if b < 0xF0 then 3 else 4

/-- `cp_count`: a character that the text cuts off counts byte by byte. -/
def cpCount (s : Bytes) : ℕ :=
  match s with
  | [] => 0
  | b :: bs => cpCount (if (b :: bs).length < cpStep b then bs else bs.drop (cpStep b - 1)) + 1
termination_by s.length
decreasing_by
  split_ifs <;> simp only [List.length_cons, List.length_drop] <;> omega

end Teptris
