import Teptris.Dom.Byte

/-!
# The document tree

`dom.h`: nodes with their kinds and define-semantics flags, tables as entry lists in
insertion order, and the two table operations every walker uses (`probe`, `insert`).
A `double` is its bit pattern; what the conversions to and from decimal text do is left to
`Dom/Float`.
-/

namespace Teptris

/-- An IEEE 754 binary64 value, as its bits. -/
structure Double where
  /-- Sign, exponent and fraction, most significant bit first. -/
  bits : UInt64
deriving DecidableEq

/-- The four datetime kinds of `teptris_kind`. -/
inductive DtKind where
  /-- `TEPTRIS_DATETIME_OFFSET`. -/
  | datetimeOffset
  /-- `TEPTRIS_DATETIME_LOCAL`. -/
  | datetimeLocal
  /-- `TEPTRIS_DATE_LOCAL`. -/
  | dateLocal
  /-- `TEPTRIS_TIME_LOCAL`. -/
  | timeLocal
deriving DecidableEq

/-- `teptris_datetime`. -/
structure Datetime where
  /-- Valid for the date and datetime kinds. -/
  year : Int32 := 0
  /-- From 1. -/
  month : UInt8 := 0
  /-- From 1. -/
  day : UInt8 := 0
  /-- 0 to 23. -/
  hour : UInt8 := 0
  /-- 0 to 59. -/
  minute : UInt8 := 0
  /-- 0 to 60, for a leap second. -/
  second : UInt8 := 0
  /-- 0 to 999999999. -/
  nanosecond : UInt32 := 0
  /-- Valid for offset datetimes only. -/
  offsetSeconds : Int32 := 0
deriving DecidableEq

/-- The define-semantics flag of a table; the source keeps exactly one of these bits set. -/
inductive TblFlag where
  /-- `TBL_EXPLICIT`: named by a header, or the root. -/
  | explicit
  /-- `TBL_IMPLICIT`: intermediate of a header path. -/
  | implicit
  /-- `TBL_DOTTED`: intermediate of a dotted key. -/
  | dotted
  /-- `TBL_INLINE`: inline table value. -/
  | inline
deriving DecidableEq

/-- `teptris_node`: scalars, arrays (with the `ARR_AOT` flag) and tables. -/
inductive Node where
  /-- `TEPTRIS_STRING`. -/
  | string (s : Bytes)
  /-- `TEPTRIS_INTEGER`. -/
  | integer (i : Int64)
  /-- `TEPTRIS_FLOAT`. -/
  | float (f : Double)
  /-- `TEPTRIS_BOOLEAN`. -/
  | boolean (b : Bool)
  /-- The four datetime kinds. -/
  | datetime (kind : DtKind) (dt : Datetime)
  /-- `TEPTRIS_ARRAY`. -/
  | array (aot : Bool) (items : List Node)
  /-- `TEPTRIS_TABLE`, entries in insertion order. -/
  | table (flag : TblFlag) (entries : List (Key × Node))

/-- The entries of a table, in insertion order. -/
abbrev Entries := List (Key × Node)

/-- `teptris_dom_table_probe_slot`: the value of the entry with this key. -/
def probe (k : Key) : Entries → Option Node
  | [] => none
  | (l, v) :: es => if l.same k then some v else probe k es

/-- `teptris_dom_table_insert_slot`: a new entry goes to the end. -/
def insert (es : Entries) (k : Key) (v : Node) : Entries := es ++ [(k, v)]

/-- The write through an entry pointer a probe returned. -/
def setValue (k : Key) (v : Node) : Entries → Entries
  | [] => []
  | (l, w) :: es => if l.same k then (l, v) :: es else (l, w) :: setValue k v es

/-! ## Failures -/

/-- The failures of `teptris_status`. -/
inductive Status where
  | errAlloc | errSyntax | errSemantic | errEncoding | errDepth | errArg | errState
deriving DecidableEq

/-- A failure recorded by `tep_fail_at`: the status, the input left at the reported position,
the format string and the views it is filled with. -/
structure Diag where
  /-- The status. -/
  status : Status
  /-- What is left of the input at the reported position. -/
  pos : Bytes
  /-- The format string of the message. -/
  fmt : String
  /-- The views filled in, in order. -/
  args : List Bytes
deriving DecidableEq

/-- A parsing step over the rest of the input. -/
abbrev Res (α : Type) := Except Diag (α × Bytes)

/-- `tep_fail_at` with a message that names no view. -/
def failAt {α : Type} (pos : Bytes) (status : Status) (fmt : String) : Except Diag α :=
  .error ⟨status, pos, fmt, []⟩

/-- `tep_fail_at` with a message that names some views. -/
def failNaming {α : Type} (pos : Bytes) (status : Status) (fmt : String)
    (args : List Bytes) : Except Diag α :=
  .error ⟨status, pos, fmt, args⟩

@[simp] lemma failAt_ne_ok {α : Type} {pos : Bytes} {st : Status} {fmt : String} {a : α} :
    ¬ failAt pos st fmt = .ok a := by
  simp [failAt]

@[simp] lemma failNaming_ne_ok {α : Type} {pos : Bytes} {st : Status} {fmt : String}
    {args : List Bytes} {a : α} : ¬ failNaming pos st fmt args = .ok a := by
  simp [failNaming]

/-- A mapped result is a result, mapped. -/
lemma map_eq_ok_iff {ε α β : Type} {f : α → β} {x : Except ε α} {b : β} :
    x.map f = .ok b ↔ ∃ a, x = .ok a ∧ f a = b := by
  cases x <;> simp [Except.map]

/-- The failure of a loop that spends its budget; no loop of the parser does. -/
def Diag.stuck : Diag := ⟨.errState, [], "loop budget", []⟩

/-- The byte offset `tep_fail_at` reports, in the input `src`. -/
def Diag.startOffset (src : Bytes) (d : Diag) : ℕ := src.length - d.pos.length

/-- The line `tep_fail_at` reports: one more than the line feeds before the position. -/
def Diag.line (src : Bytes) (d : Diag) : ℕ := (src.take (d.startOffset src)).count Ch.lf + 1

/-- The column `tep_fail_at` reports: the distance to the last line feed before the position. -/
def Diag.column (src : Bytes) (d : Diag) : ℕ :=
  ((src.take (d.startOffset src)).reverse.takeWhile (· ≠ Ch.lf)).length + 1

end Teptris
