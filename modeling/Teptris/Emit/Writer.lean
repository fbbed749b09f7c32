import Teptris.Emit.Document
import Teptris.Library.Loop

/-!
# The streaming writer

`writer.c`: the op codes, their payloads, and the frame stack that turns them into text.  An op
is decoded whole before it acts, as in the source, where an incomplete payload fails the feed.
-/

namespace Teptris

open Loop

/-! ## Op codes -/

/-- An op with its payload. -/
inductive WOp where
  /-- `W_KEY`. -/
  | key (k : Bytes)
  /-- `W_STRING`. -/
  | string (s : Bytes)
  /-- `W_INT`. -/
  | int (v : Int64)
  /-- `W_FLOAT`. -/
  | float (f : Double)
  /-- `W_FALSE` and `W_TRUE`. -/
  | bool (b : Bool)
  /-- `W_DATETIME`. -/
  | datetime (kind : DtKind) (dt : Datetime)
  /-- `W_BEGIN_TABLE`. -/
  | beginTable
  /-- `W_BEGIN_ARRAY`. -/
  | beginArray
  /-- `W_BEGIN_AOT`. -/
  | beginAot
  /-- `W_BEGIN_INLINE_TABLE`. -/
  | beginInlineTable
  /-- `W_CLOSE`. -/
  | close
  /-- `W_EMPTY_TABLE`. -/
  | emptyTable
  /-- `W_EMPTY_ARRAY`. -/
  | emptyArray
deriving DecidableEq

/-- A little-endian number. -/
def leVal (bs : Bytes) : ℕ := bs.foldr (fun b n => b.toNat + 256 * n) 0

/-- A payload of that many bytes, and what follows it. -/
def takeBytes (n : ℕ) (r : Bytes) : Option (Bytes × Bytes) :=
  if n ≤ r.length then some (r.take n, r.drop n) else none

/-- The kind byte of `W_DATETIME`. -/
def dtKindOf (kb : UInt8) : Option DtKind :=
  if kb = 4 then some .datetimeOffset
  else if kb = 5 then some .datetimeLocal
  else if kb = 6 then some .dateLocal
  else if kb = 7 then some .timeLocal
  else none

/-- The payload of `W_DATETIME`: kind, year, five fields, nanoseconds and offset. -/
def decodeDatetime (p : Bytes) : Option WOp :=
  (dtKindOf (p.getD 0 0)).map fun kind =>
    .datetime kind
      { year := Int32.ofNat (leVal ((p.drop 1).take 8))
        month := p.getD 9 0, day := p.getD 10 0, hour := p.getD 11 0
        minute := p.getD 12 0, second := p.getD 13 0
        nanosecond := UInt32.ofNat (leVal ((p.drop 14).take 4))
        offsetSeconds := Int32.ofNat (leVal ((p.drop 18).take 8)) }

/-- A key and its length byte. -/
def decodeKey (r : Bytes) : Option (WOp × Bytes) :=
  match r with
  | [] => none
  | klen :: r => (takeBytes klen.toNat r).map fun x => (.key x.1, x.2)

/-- A string and its length. -/
def decodeString (r : Bytes) : Option (WOp × Bytes) :=
  match takeBytes 4 r with
  | none => none
  | some (n, r) => (takeBytes (leVal n) r).map fun x => (.string x.1, x.2)

/-- The payload of an op code, and what follows it; `none` is `TEPTRIS_ERR_ARG`. -/
def decodeOp (code : UInt8) (r : Bytes) : Option (WOp × Bytes) :=
  if code = 0x01 then decodeKey r
  else if code = 0x02 then decodeString r
  else if code = 0x03 then
    (takeBytes 8 r).map fun x => (.int (Int64.ofNat (leVal x.1)), x.2)
  else if code = 0x04 then
    (takeBytes 8 r).map fun x => (.float ⟨UInt64.ofNat (leVal x.1)⟩, x.2)
  else if code = 0x05 then some (.bool false, r)
  else if code = 0x06 then some (.bool true, r)
  else if code = 0x07 then
    match takeBytes 26 r with
    | none => none
    | some (p, r) => (decodeDatetime p).map fun op => (op, r)
  else if code = 0x08 then some (.beginTable, r)
  else if code = 0x09 then some (.beginArray, r)
  else if code = 0x0A then some (.beginAot, r)
  else if code = 0x0B then some (.beginInlineTable, r)
  else if code = 0x0C then some (.close, r)
  else if code = 0x0D then some (.emptyTable, r)
  else if code = 0x0E then some (.emptyArray, r)
  else none

/-! ## The frame stack -/

/-- The kinds of frames. -/
inductive FrameKind where
  /-- `F_TABLE`: a section, or an element of an array of tables. -/
  | table
  /-- `F_ARRAY`: an inline array. -/
  | array
  /-- `F_AOT`: the array of tables itself. -/
  | aot
  /-- `F_ITAB`: an inline table. -/
  | itab
deriving DecidableEq

/-- `wframe`. -/
structure WFrame where
  /-- The kind. -/
  kind : FrameKind
  /-- The component of a section, or of an array of tables. -/
  key : Option Bytes := none
  /-- A value was written, so that the next one needs a separator. -/
  first : Bool := false
  /-- A nested section was opened. -/
  sawSubtable : Bool := false
deriving DecidableEq

/-- `teptris_writer`; the stack is `top` first. -/
structure Writer where
  /-- The text so far. -/
  out : Bytes
  /-- The pending key. -/
  key : Option Bytes
  /-- The open frames, innermost first. -/
  stack : List WFrame
  /-- `teptris_writer_finish` succeeded. -/
  finished : Bool
  /-- A failure, once there was one. -/
  st : Option Status
deriving DecidableEq

namespace Writer

/-- `teptris_writer_new`. -/
def new : Writer := ⟨[], none, [{ kind := .table }], false, none⟩

/-- `eb_put` and its kin. -/
def put (w : Writer) (s : Bytes) : Writer := { w with out := w.out ++ s }

/-- The writer with a failure. -/
def fail (w : Writer) (st : Status) : Writer := { w with st := some st }

/-- `w_clear_key`. -/
def clearKey (w : Writer) : Writer := { w with key := none }

/-- `w_push`. -/
def push (w : Writer) (f : WFrame) : Writer := { w with stack := f :: w.stack }

/-- The writer with its top frame changed. -/
def modifyTop (w : Writer) (f : WFrame → WFrame) : Writer :=
  { w with stack := w.stack.modifyHead f }

/-- The kind of the top frame. -/
def topKind (w : Writer) : Option FrameKind := w.stack.head?.map WFrame.kind

/-- The top frame saw a nested section. -/
def topSawSubtable (w : Writer) : Bool := w.stack.head?.any WFrame.sawSubtable

/-- The keys of the sections around the cursor, outermost first: `w_path` reads at most 600
frames. -/
def pathKeys (w : Writer) : List Bytes :=
  (w.stack.take 600).reverse.filterMap fun f =>
    if f.kind = .table ∨ f.kind = .aot then f.key else none

/-- Keys joined by dots. -/
def joinKeys (keys : List Bytes) : Bytes := [Ch.dot].intercalate (keys.map emitKey)

/-- `w_path`, with the pending key as the last component or not. -/
def path (w : Writer) (withTail : Bool) : Bytes :=
  joinKeys (w.pathKeys ++ if withTail then w.key.toList else [])

/-- `w_sep_val`, on the top frame. -/
def sepVal (w : Writer) : Writer :=
  (if w.stack.head?.any WFrame.first then w.put sepText else w).modifyTop fun f =>
    { f with first := true }

/-- `w_keyed_prefix`. -/
def keyedPrefix (w : Writer) : Writer :=
  if w.topKind = some .array then w.sepVal
  else
    let w := if w.topKind = some .itab then w.sepVal else w
    match w.key with
    | none => w.fail .errArg
    | some k =>
      if w.topSawSubtable then w.fail .errState
      else (w.put (emitKey k ++ eqText)).clearKey

/-- `w_end_line`. -/
def endLine (w : Writer) : Writer :=
  if w.topKind = none ∨ w.topKind = some .table then w.put [Ch.lf] else w

/-- A value written on one line. -/
def value (w : Writer) (text : Bytes) : Writer :=
  let w := w.keyedPrefix
  if w.st = none then (w.put text).endLine else w

/-- `W_BEGIN_TABLE`. -/
def beginTable (w : Writer) : Writer :=
  if w.topKind = some .array ∨ w.topKind = some .itab then w.fail .errArg
  else if w.topKind = some .aot then
    ((w.put
      ([Ch.lbrack, Ch.lbrack] ++ w.path false ++ [Ch.rbrack, Ch.rbrack, Ch.lf])).clearKey).push
      { kind := .table }
  else
    match w.key with
    | none => w.fail .errArg
    | some k =>
      let w := w.modifyTop fun f => { f with sawSubtable := true }
      ((w.put (Ch.lbrack :: w.path true ++ [Ch.rbrack, Ch.lf])).clearKey).push
        { kind := .table, key := some k }

/-- `W_BEGIN_AOT`. -/
def beginAot (w : Writer) : Writer :=
  match w.key with
  | none => w.fail .errArg
  | some k =>
    if w.topKind ≠ none ∧ w.topKind ≠ some .table then w.fail .errArg
    else
      ((w.modifyTop fun f => { f with sawSubtable := true }).clearKey).push
        { kind := .aot, key := some k }

/-- A key in front of an opening bracket, in `W_BEGIN_ARRAY` and `W_BEGIN_INLINE_TABLE`. -/
def openKeyed (w : Writer) (bracket : UInt8) (frame : WFrame) : Writer :=
  match w.key with
  | none => w.fail .errArg
  | some k =>
    if w.topSawSubtable then w.fail .errState
    else
      let w := if w.topKind = some .itab then w.sepVal else w
      ((w.put (emitKey k ++ eqText ++ [bracket])).clearKey).push frame

/-- `W_BEGIN_ARRAY`. -/
def beginArray (w : Writer) : Writer :=
  if w.topKind = some .aot then w.fail .errArg
  else if w.topKind = some .array then ((w.sepVal).put [Ch.lbrack]).push { kind := .array }
  else w.openKeyed Ch.lbrack { kind := .array }

/-- `W_BEGIN_INLINE_TABLE`. -/
def beginInlineTable (w : Writer) : Writer :=
  if w.topKind = some .array then
    if w.key.isSome then w.fail .errArg
    else ((w.sepVal).put [Ch.lbrace]).push { kind := .itab }
  else w.openKeyed Ch.lbrace { kind := .itab }

/-- `W_CLOSE`. -/
def close (w : Writer) : Writer :=
  match w.stack with
  | f :: g :: fs =>
    let w := { w with stack := g :: fs }
    if f.kind = .array then (w.put [Ch.rbrack]).endLine
    else if f.kind = .itab then (w.put [Ch.rbrace]).endLine
    else w
  | _ => w.fail .errArg

/-- What an op does. -/
def apply (fc : FloatConv) (w : Writer) : WOp → Writer
  | .key k => { w with key := some k }
  | .string s => w.value (emitStringValue s)
  | .int v => w.value (emitI64 v)
  | .float f => w.value (emitFloat fc f)
  | .bool b => w.value (boolText b)
  | .datetime kind dt => w.value (emitDt kind dt)
  | .beginTable => w.beginTable
  | .beginArray => w.beginArray
  | .beginAot => w.beginAot
  | .beginInlineTable => w.beginInlineTable
  | .close => w.close
  | .emptyTable => w.value [Ch.lbrace, Ch.rbrace]
  | .emptyArray => w.value [Ch.lbrack, Ch.rbrack]

end Writer

/-! ## Feeding -/

/-- One turn of `teptris_writer_feed`: the writer, and the rest of the chunk.  A payload that is
not whole leaves the failed writer. -/
def feedTurn (fc : FloatConv) (s : Writer × Bytes) :
    Except Writer (Turn (Writer × Bytes) Writer) :=
  if s.1.st ≠ none then .ok (.stop s.1)
  else
    match s.2 with
    | [] => .ok (.stop s.1)
    | code :: r =>
      if code = 0x00 then .ok (.stop s.1)
      else
        match decodeOp code r with
        | none => .error (s.1.fail .errArg)
        | some (op, r) => .ok (.next (s.1.apply fc op, r))

/-- The writer behind a chunk. -/
def Writer.feedAll (fc : FloatConv) (w : Writer) (ops : Bytes) : Writer :=
  match loop (feedTurn fc) w (fun s => s.2.length) (w, ops) with
  | .ok w' => w'
  | .error w' => w'

/-- `teptris_writer_feed`: the status, `none` for `TEPTRIS_OK`, and the writer. -/
def Writer.feed (fc : FloatConv) (w : Writer) (ops : Bytes) : Option Status × Writer :=
  if w.finished then (some .errState, w) else ((w.feedAll fc ops).st, w.feedAll fc ops)

/-- Feeding one chunk after the other, up to the first that fails. -/
def Writer.feeds (fc : FloatConv) : Writer → List Bytes → Option Status × Writer
  | w, [] => (none, w)
  | w, chunk :: chunks =>
    match w.feed fc chunk with
    | (none, w) => feeds fc w chunks
    | res => res

/-- `teptris_writer_finish`: the text, or the failure. -/
def Writer.finish (w : Writer) : Except Status Bytes :=
  if w.stack.length ≠ 1 then .error .errState
  else
    match w.st with
    | some st => .error st
    | none => .ok w.out

end Teptris
