import Teptris.Emit.Agreement
import Teptris.Emit.Buffered

/-!
# The streaming writer over a buffer that may fail to grow

`writer.c` write by write.  The writer keeps two statuses: its own, which `teptris_writer_feed`
and `teptris_writer_finish` report, and that of its output buffer, which nobody looks at.  Two
patterns say which allocations fail: one for the requests of the output buffer, one for those of
the writer itself (its struct, its frames and its pending key).
-/

namespace Teptris

open GrowBuf Loop

/-! ## The writes of an op -/

/-- A write to the output buffer. -/
inductive OutWrite where
  /-- `eb_put` and `eb_c`, and the writers of numbers and datetimes. -/
  | put (t : Bytes)
  /-- `emit_key`. -/
  | key (k : Bytes)
  /-- `emit_string_value`. -/
  | string (s : Bytes)

namespace OutWrite

/-- The write itself. -/
def run (a : Pattern) (b : Ebuf) : OutWrite → Ebuf
  | .put t => ebPut a b t
  | .key k => emitKeyTo a b k
  | .string s => emitStringValueTo a b s

/-- The text of the write. -/
def text : OutWrite → Bytes
  | .put t => t
  | .key k => emitKey k
  | .string s => emitStringValue s

end OutWrite

namespace Writer

/-- The writes of `w_path`. -/
def pathWrites (w : Writer) (withTail : Bool) : List OutWrite :=
  ((w.pathKeys ++ if withTail then w.key.toList else []).map OutWrite.key).intersperse
    (.put [Ch.dot])

/-- The writes of `w_sep_val`. -/
def sepWrites (w : Writer) : List OutWrite :=
  if w.stack.head?.any WFrame.first then [.put sepText] else []

/-- The writes of `w_keyed_prefix`. -/
def keyedPrefixWrites (w : Writer) : List OutWrite :=
  if w.topKind = some .array then w.sepWrites
  else
    (if w.topKind = some .itab then w.sepWrites else []) ++
      match w.key with
      | none => []
      | some k => if w.topSawSubtable then [] else [.key k, .put eqText]

/-- The writes of `w_end_line`. -/
def endLineWrites (w : Writer) : List OutWrite :=
  if w.topKind = none ∨ w.topKind = some .table then [.put [Ch.lf]] else []

/-- The writes of a value on one line. -/
def valueWrites (w : Writer) (value : OutWrite) : List OutWrite :=
  w.keyedPrefixWrites ++
    if w.keyedPrefix.st = none then value :: w.keyedPrefix.endLineWrites else []

/-- The writes of `W_BEGIN_TABLE`. -/
def beginTableWrites (w : Writer) : List OutWrite :=
  if w.topKind = some .array ∨ w.topKind = some .itab then []
  else if w.topKind = some .aot then
    .put [Ch.lbrack, Ch.lbrack] :: w.pathWrites false ++ [.put [Ch.rbrack, Ch.rbrack, Ch.lf]]
  else
    match w.key with
    | none => []
    | some _ => .put [Ch.lbrack] :: w.pathWrites true ++ [.put [Ch.rbrack, Ch.lf]]

/-- The writes of a key in front of an opening bracket. -/
def openKeyedWrites (w : Writer) (opening : List OutWrite) : List OutWrite :=
  match w.key with
  | none => []
  | some k =>
    if w.topSawSubtable then []
    else (if w.topKind = some .itab then w.sepWrites else []) ++ .key k :: opening

/-- The writes of `W_BEGIN_ARRAY`: the equals sign and the bracket are one write. -/
def beginArrayWrites (w : Writer) : List OutWrite :=
  if w.topKind = some .aot then []
  else if w.topKind = some .array then w.sepWrites ++ [.put [Ch.lbrack]]
  else w.openKeyedWrites [.put (eqText ++ [Ch.lbrack])]

/-- The writes of `W_BEGIN_INLINE_TABLE`. -/
def beginInlineTableWrites (w : Writer) : List OutWrite :=
  if w.topKind = some .array then
    if w.key.isSome then [] else w.sepWrites ++ [.put [Ch.lbrace]]
  else w.openKeyedWrites [.put eqText, .put [Ch.lbrace]]

/-- The writes of `W_CLOSE`. -/
def closeWrites (w : Writer) : List OutWrite :=
  match w.stack with
  | f :: g :: fs =>
    let w := { w with stack := g :: fs }
    if f.kind = .array then .put [Ch.rbrack] :: w.endLineWrites
    else if f.kind = .itab then .put [Ch.rbrace] :: w.endLineWrites
    else []
  | _ => []

/-- The writes of an op, in their order. -/
def opWrites (fc : FloatConv) (w : Writer) : WOp → List OutWrite
  | .key _ => []
  | .string s => w.valueWrites (.string s)
  | .int v => w.valueWrites (.put (emitI64 v))
  | .float f => w.valueWrites (.put (emitFloat fc f))
  | .bool b => w.valueWrites (.put (boolText b))
  | .datetime kind dt => w.valueWrites (.put (emitDt kind dt))
  | .beginTable => w.beginTableWrites
  | .beginArray => w.beginArrayWrites
  | .beginAot => []
  | .beginInlineTable => w.beginInlineTableWrites
  | .close => w.closeWrites
  | .emptyTable => w.valueWrites (.put [Ch.lbrace, Ch.rbrace])
  | .emptyArray => w.valueWrites (.put [Ch.lbrack, Ch.rbrack])

/-- The op makes a request for the writer itself: the copy of a key, or the frame of a container
that is opened. -/
def allocates (fc : FloatConv) (w : Writer) (op : WOp) : Bool :=
  match op with
  | .key _ => true
  | .beginTable | .beginArray | .beginAot | .beginInlineTable => (w.apply fc op).st = none
  | _ => false

/-- The writer behind an op whose request for the writer itself was refused: there is no pending
key, or no new frame. -/
def refused (w : Writer) (op : WOp) : Writer :=
  match op with
  | .key _ => { w with key := none, st := some .errAlloc }
  | _ => { w with stack := w.stack.tail, st := some .errAlloc }

end Writer

/-- The texts of writes. -/
def writesText (ws : List OutWrite) : Bytes := ws.flatMap OutWrite.text

/-! ## Writes and texts -/

section Texts

variable {fc : FloatConv} {w : Writer}

@[simp] lemma writesText_nil : writesText [] = [] := rfl

@[simp] lemma writesText_cons (x : OutWrite) (ws : List OutWrite) :
    writesText (x :: ws) = x.text ++ writesText ws := rfl

@[simp] lemma writesText_append (ws ws' : List OutWrite) :
    writesText (ws ++ ws') = writesText ws ++ writesText ws' := List.flatMap_append

@[simp] lemma text_put (t : Bytes) : (OutWrite.put t).text = t := rfl
@[simp] lemma text_key (k : Bytes) : (OutWrite.key k).text = emitKey k := rfl
@[simp] lemma text_string (s : Bytes) : (OutWrite.string s).text = emitStringValue s := rfl

namespace Writer

/-- The writes of a path are its text. -/
lemma text_pathWrites (withTail : Bool) : writesText (w.pathWrites withTail) = w.path withTail := by
  rw [pathWrites, path, joinKeys]
  generalize (w.pathKeys ++ if withTail = true then w.key.toList else []) = ks
  induction ks with
  | nil => rfl
  | cons k ks ih =>
    cases ks with
    | nil => simp [List.intercalate]
    | cons k' ks => simpa [List.intercalate] using ih

lemma sepVal_out : w.sepVal.out = w.out ++ writesText w.sepWrites := by
  rw [sepVal, sepWrites]
  split_ifs <;> simp [modifyTop, put]

/-- `w_sep_val` leaves the key, the status, and what the top frame is. -/
lemma sepVal_control : w.sepVal.key = w.key ∧ w.sepVal.st = w.st ∧ w.sepVal.topKind = w.topKind ∧
    w.sepVal.topSawSubtable = w.topSawSubtable := by
  obtain ⟨out, key, stack, fin, st⟩ := w
  rw [sepVal]
  cases stack <;> split_ifs <;> simp [modifyTop, put, topKind, topSawSubtable]

/-- The separator in front of a pair of an inline table. -/
lemma pairSep_spec : (if w.topKind = some .itab then w.sepVal else w).key = w.key ∧
    (if w.topKind = some .itab then w.sepVal else w).topSawSubtable = w.topSawSubtable ∧
    (if w.topKind = some .itab then w.sepVal else w).out =
      w.out ++ writesText (if w.topKind = some .itab then w.sepWrites else []) := by
  split_ifs
  · exact ⟨sepVal_control.1, sepVal_control.2.2.2, sepVal_out⟩
  · exact ⟨rfl, rfl, by simp⟩

lemma keyedPrefix_out : w.keyedPrefix.out = w.out ++ writesText w.keyedPrefixWrites := by
  rw [keyedPrefix, keyedPrefixWrites]
  by_cases harray : w.topKind = some .array
  · rw [if_pos harray, if_pos harray]
    exact sepVal_out
  rw [if_neg harray, if_neg harray]
  dsimp only
  obtain ⟨hkey, hsaw, hout⟩ := pairSep_spec (w := w)
  rw [writesText_append, ← List.append_assoc, ← hout, hkey, hsaw]
  cases w.key with
  | none => simp [fail]
  | some k =>
    dsimp only
    split_ifs <;> simp [fail, put, clearKey]

lemma endLine_out : w.endLine.out = w.out ++ writesText w.endLineWrites := by
  rw [endLine, endLineWrites]
  split_ifs <;> simp [put]

/-- The line end does not look at the text. -/
lemma endLineWrites_put (t : Bytes) : (w.put t).endLineWrites = w.endLineWrites := rfl

lemma value_out (v : OutWrite) : (w.value v.text).out = w.out ++ writesText (w.valueWrites v) := by
  rw [value, valueWrites]
  by_cases hst : w.keyedPrefix.st = none
  · rw [if_pos hst, if_pos hst, endLine_out, endLineWrites_put, writesText_append,
      writesText_cons, ← List.append_assoc, ← keyedPrefix_out, ← List.append_assoc]
    rfl
  · rw [if_neg hst, if_neg hst, List.append_nil, keyedPrefix_out]

/-- A section opened under the top frame is no part of its path. -/
lemma path_saw (saw withTail : Bool) :
    (w.modifyTop fun f => { f with sawSubtable := saw }).path withTail = w.path withTail := by
  obtain ⟨out, key, stack, fin, st⟩ := w
  cases stack with
  | nil => rfl
  | cons f fs => simp [path, pathKeys, modifyTop, List.filterMap_append, List.filterMap_cons]

lemma modifyTop_out (f : WFrame → WFrame) : (w.modifyTop f).out = w.out := rfl

lemma beginTable_out : w.beginTable.out = w.out ++ writesText w.beginTableWrites := by
  rw [beginTable, beginTableWrites]
  by_cases hinline : w.topKind = some .array ∨ w.topKind = some .itab
  · simp [hinline, fail]
  rw [if_neg hinline, if_neg hinline]
  by_cases haot : w.topKind = some .aot
  · simp [haot, put, clearKey, push, text_pathWrites]
  rw [if_neg haot, if_neg haot]
  cases w.key with
  | none => simp [fail]
  | some k => simp [put, clearKey, push, text_pathWrites, path_saw, modifyTop_out]

lemma openKeyed_out {bracket : UInt8} {frame : WFrame} {opening : List OutWrite}
    (hopening : writesText opening = eqText ++ [bracket]) :
    (w.openKeyed bracket frame).out = w.out ++ writesText (w.openKeyedWrites opening) := by
  obtain ⟨-, -, hout⟩ := pairSep_spec (w := w)
  rw [openKeyed, openKeyedWrites]
  cases w.key with
  | none => simp [fail]
  | some k =>
    dsimp only
    by_cases hsaw : w.topSawSubtable = true
    · simp [hsaw, fail]
    · rw [if_neg hsaw, if_neg hsaw, writesText_append, ← List.append_assoc, ← hout]
      simp [put, clearKey, push, hopening]

lemma beginArray_out : w.beginArray.out = w.out ++ writesText w.beginArrayWrites := by
  rw [beginArray, beginArrayWrites]
  split_ifs
  · simp [fail]
  · simp [put, push, sepVal_out]
  · exact openKeyed_out (by simp)

lemma beginInlineTable_out :
    w.beginInlineTable.out = w.out ++ writesText w.beginInlineTableWrites := by
  rw [beginInlineTable, beginInlineTableWrites]
  split_ifs
  · simp [fail]
  · simp [put, push, sepVal_out]
  · exact openKeyed_out (by simp)

lemma close_out : w.close.out = w.out ++ writesText w.closeWrites := by
  obtain ⟨out, key, stack, fin, st⟩ := w
  rcases stack with _ | ⟨f, _ | ⟨g, fs⟩⟩
  · simp [close, closeWrites, fail]
  · simp [close, closeWrites, fail]
  · rw [close, closeWrites]
    dsimp only
    split_ifs
    · rw [endLine_out, endLineWrites_put]
      simp [put]
    · rw [endLine_out, endLineWrites_put]
      simp [put]
    · simp

/-- The writes of an op are the text that the writer adds. -/
lemma apply_out (op : WOp) : (w.apply fc op).out = w.out ++ writesText (w.opWrites fc op) := by
  cases op with
  | key k => simp [apply, opWrites]
  | string s => exact value_out (.string s)
  | int v => exact value_out (.put _)
  | float f => exact value_out (.put _)
  | bool b => exact value_out (.put _)
  | datetime kind dt => exact value_out (.put _)
  | beginTable => exact beginTable_out
  | beginArray => exact beginArray_out
  | beginAot =>
    rw [apply, beginAot, opWrites]
    cases w.key with
    | none => simp [fail]
    | some k =>
      dsimp only
      split_ifs <;> simp [fail, clearKey, push, modifyTop]
  | beginInlineTable => exact beginInlineTable_out
  | close => exact close_out
  | emptyTable => exact value_out (.put _)
  | emptyArray => exact value_out (.put _)

end Writer

end Texts

/-! ## Writes of some text -/

lemma emitFloat_ne_nil (fc : FloatConv) (f : Double) : emitFloat fc f ≠ [] := by
  have hbody : ∀ digits sciExp, floatBody digits sciExp ≠ [] := by
    intro digits sciExp
    rw [floatBody]
    dsimp only
    split_ifs <;> simp
  rw [emitFloat]
  split_ifs
  · simp
  · simp
  · simp
  · exact fun h => hbody _ _ (List.append_eq_nil_iff.mp h).2

lemma emitI64_ne_nil (v : Int64) : emitI64 v ≠ [] := by
  rw [emitI64, natText, decText]
  simp

lemma emitDt_ne_nil (kind : DtKind) (dt : Datetime) : emitDt kind dt ≠ [] := by
  cases kind <;> simp [emitDt, dateText, clockText, putDigits4, putDigits2]

lemma emitStringValue_ne_nil (s : Bytes) : emitStringValue s ≠ [] := by
  rw [emitStringValue]
  split_ifs <;> simp [literalText, emitBasicBytes]

/-- Every write writes something. -/
def AllText (ws : List OutWrite) : Prop := ∀ x ∈ ws, x.text ≠ []

section NonEmpty

variable {fc : FloatConv} {w : Writer}

lemma allText_nil : AllText [] := fun _ hx => absurd hx List.not_mem_nil

lemma allText_cons {x : OutWrite} {ws : List OutWrite} :
    AllText (x :: ws) ↔ x.text ≠ [] ∧ AllText ws := List.forall_mem_cons

lemma allText_append {ws ws' : List OutWrite} : AllText (ws ++ ws') ↔ AllText ws ∧ AllText ws' :=
  List.forall_mem_append

lemma allText_key {k : Bytes} {ws : List OutWrite} (h : AllText ws) : AllText (.key k :: ws) :=
  allText_cons.mpr ⟨Writer.emitKey_ne_nil k, h⟩

lemma allText_put {c : UInt8} {t : Bytes} {ws : List OutWrite} (h : AllText ws) :
    AllText (.put (c :: t) :: ws) := allText_cons.mpr ⟨List.cons_ne_nil c t, h⟩

namespace Writer

lemma allText_sepWrites : AllText w.sepWrites := by
  rw [sepWrites]
  split_ifs
  · exact allText_put allText_nil
  · exact allText_nil

/-- A separator where there is one. -/
lemma allText_pairSep : AllText (if w.topKind = some .itab then w.sepWrites else []) := by
  split_ifs
  · exact allText_sepWrites
  · exact allText_nil

lemma allText_pathWrites (withTail : Bool) : AllText (w.pathWrites withTail) := by
  rw [pathWrites]
  generalize (w.pathKeys ++ if withTail = true then w.key.toList else []) = ks
  induction ks with
  | nil => exact allText_nil
  | cons k ks ih =>
    cases ks with
    | nil => exact allText_key allText_nil
    | cons k' ks => exact allText_key (allText_put ih)

lemma allText_endLineWrites : AllText w.endLineWrites := by
  rw [endLineWrites]
  split_ifs
  · exact allText_put allText_nil
  · exact allText_nil

lemma allText_keyedPrefixWrites : AllText w.keyedPrefixWrites := by
  rw [keyedPrefixWrites]
  by_cases harray : w.topKind = some .array
  · rw [if_pos harray]
    exact allText_sepWrites
  rw [if_neg harray]
  refine allText_append.mpr ⟨allText_pairSep, ?_⟩
  cases w.key with
  | none => exact allText_nil
  | some k =>
    dsimp only
    split_ifs
    · exact allText_nil
    · exact allText_key (allText_put allText_nil)

lemma allText_valueWrites {v : OutWrite} (hv : v.text ≠ []) : AllText (w.valueWrites v) := by
  rw [valueWrites]
  refine allText_append.mpr ⟨allText_keyedPrefixWrites, ?_⟩
  split_ifs
  · exact allText_cons.mpr ⟨hv, allText_endLineWrites⟩
  · exact allText_nil

lemma allText_openKeyedWrites {opening : List OutWrite} (h : AllText opening) :
    AllText (w.openKeyedWrites opening) := by
  rw [openKeyedWrites]
  cases w.key with
  | none => exact allText_nil
  | some k =>
    dsimp only
    by_cases hsaw : w.topSawSubtable = true
    · rw [if_pos hsaw]
      exact allText_nil
    · rw [if_neg hsaw]
      exact allText_append.mpr ⟨allText_pairSep, allText_key h⟩

/-- An op writes nothing that is empty. -/
lemma allText_opWrites (op : WOp) : AllText (w.opWrites fc op) := by
  cases op with
  | key k => exact allText_nil
  | string s => exact allText_valueWrites (emitStringValue_ne_nil s)
  | int v => exact allText_valueWrites (emitI64_ne_nil v)
  | float f => exact allText_valueWrites (emitFloat_ne_nil fc f)
  | bool b => exact allText_valueWrites (by cases b <;> simp [boolText])
  | datetime kind dt => exact allText_valueWrites (emitDt_ne_nil kind dt)
  | beginTable =>
    rw [opWrites, beginTableWrites]
    split_ifs
    · exact allText_nil
    · exact allText_put (allText_append.mpr ⟨allText_pathWrites _, allText_put allText_nil⟩)
    · cases w.key with
      | none => exact allText_nil
      | some k =>
        exact allText_put (allText_append.mpr ⟨allText_pathWrites _, allText_put allText_nil⟩)
  | beginArray =>
    rw [opWrites, beginArrayWrites]
    split_ifs
    · exact allText_nil
    · exact allText_append.mpr ⟨allText_sepWrites, allText_put allText_nil⟩
    · exact allText_openKeyedWrites (allText_put allText_nil)
  | beginAot => exact allText_nil
  | beginInlineTable =>
    rw [opWrites, beginInlineTableWrites]
    split_ifs
    · exact allText_nil
    · exact allText_append.mpr ⟨allText_sepWrites, allText_put allText_nil⟩
    · exact allText_openKeyedWrites (allText_put (allText_put allText_nil))
  | close =>
    rw [opWrites, closeWrites]
    split
    · dsimp only
      split_ifs
      · exact allText_put allText_endLineWrites
      · exact allText_put allText_endLineWrites
      · exact allText_nil
    · exact allText_nil
  | emptyTable => exact allText_valueWrites (List.cons_ne_nil _ _)
  | emptyArray => exact allText_valueWrites (List.cons_ne_nil _ _)

end Writer

end NonEmpty

/-! ## The fallible writer -/

/-- A writer over a buffer that may fail to grow. -/
structure WriterTo where
  /-- The writer itself; its `out` is the text it has asked to be written. -/
  ctl : Writer
  /-- The output buffer. -/
  out : Ebuf
  /-- The number of requests for the writer itself. -/
  allocs : ℕ

namespace WriterTo

variable (fc : FloatConv) (a c : Pattern)

/-- A writer with its root frame, or without one. -/
def start (root : Bool) : WriterTo :=
  ⟨if root then Writer.new else { Writer.new with stack := [] }, {}, 2⟩

/-- `teptris_writer_new`: the failure of the root frame is overwritten. -/
def new : Option WriterTo := if c 0 then some (start (c 1)) else none

/-- What an op does. -/
def apply (w : WriterTo) (op : WOp) : WriterTo :=
  let out := (w.ctl.opWrites fc op).foldl (OutWrite.run a) w.out
  if w.ctl.allocates fc op then
    ⟨if c w.allocs then w.ctl.apply fc op else (w.ctl.apply fc op).refused op, out, w.allocs + 1⟩
  else ⟨w.ctl.apply fc op, out, w.allocs⟩

/-- One turn of `teptris_writer_feed`. -/
def feedTurn (s : WriterTo × Bytes) : Except WriterTo (Turn (WriterTo × Bytes) WriterTo) :=
  if s.1.ctl.st ≠ none then .ok (.stop s.1)
  else
    match s.2 with
    | [] => .ok (.stop s.1)
    | code :: r =>
      if code = 0x00 then .ok (.stop s.1)
      else
        match decodeOp code r with
        | none => .error { s.1 with ctl := s.1.ctl.fail .errArg }
        | some (op, r) => .ok (.next (s.1.apply fc a c op, r))

/-- The writer behind a chunk. -/
def feedAll (w : WriterTo) (ops : Bytes) : WriterTo :=
  match loop (feedTurn fc a c) w (fun s => s.2.length) (w, ops) with
  | .ok w' => w'
  | .error w' => w'

/-- `teptris_writer_feed`: the status, `none` for `TEPTRIS_OK`, and the writer. -/
def feed (w : WriterTo) (ops : Bytes) : Option Status × WriterTo :=
  if w.ctl.finished then (some .errState, w)
  else ((w.feedAll fc a c ops).ctl.st, w.feedAll fc a c ops)

/-- Feeding one chunk after the other, up to the first that fails. -/
def feeds : WriterTo → List Bytes → Option Status × WriterTo
  | w, [] => (none, w)
  | w, chunk :: chunks =>
    match w.feed fc a c chunk with
    | (none, w) => feeds w chunks
    | res => res

/-- `teptris_writer_finish`: a null pointer is taken for an empty text. -/
def finish (w : WriterTo) : CallOutput :=
  if w.ctl.stack.length ≠ 1 then .error .errState
  else
    match w.ctl.st with
    | some st => .error st
    | none =>
      if w.out.null then
        if c w.allocs then .ok (some [0], 0) else .error .errAlloc
      else .ok (some (w.out.data ++ [0]), w.out.data.length)

/-- A new writer is fed the chunks and, if every feed returned `TEPTRIS_OK`, finished. -/
def session (chunks : List Bytes) : CallOutput :=
  match new c with
  | none => .error .errArg
  | some w =>
    match feeds fc a c w chunks with
    | (some st, _) => .error st
    | (none, w) => w.finish c

end WriterTo

end Teptris
