import Teptris.Emit.Text

/-!
# Documents as text

`emitter.c`: values on one line, tables as sections under headers, and
`teptris_emit_document`.
-/

namespace Teptris

/-! ## Values -/

/-- The separator of elements and members. -/
abbrev sepText : Bytes := [Ch.comma, Ch.sp]

/-- The equals sign between a key and its value. -/
abbrev eqText : Bytes := [Ch.sp, Ch.eq, Ch.sp]

mutual

/-- `emit_value`. -/
def emitValue (fc : FloatConv) : Node → Bytes
  | .string s => emitStringValue s
  | .integer i => emitI64 i
  | .float f => emitFloat fc f
  | .boolean b => boolText b
  | .datetime kind dt => emitDt kind dt
  | .array _ items => Ch.lbrack :: emitItems fc items ++ [Ch.rbrack]
  | .table _ es => Ch.lbrace :: emitMembers fc es ++ [Ch.rbrace]

/-- The elements of an array, separated. -/
def emitItems (fc : FloatConv) : List Node → Bytes
  | [] => []
  | v :: vs => emitValue fc v ++ emitMoreItems fc vs

/-- The elements behind the first one. -/
def emitMoreItems (fc : FloatConv) : List Node → Bytes
  | [] => []
  | v :: vs => sepText ++ emitValue fc v ++ emitMoreItems fc vs

/-- The members of `emit_inline_table`, separated. -/
def emitMembers (fc : FloatConv) : List (Key × Node) → Bytes
  | [] => []
  | (k, v) :: es => emitKey k.bytes ++ eqText ++ emitValue fc v ++ emitMoreMembers fc es

/-- The members behind the first one. -/
def emitMoreMembers (fc : FloatConv) : List (Key × Node) → Bytes
  | [] => []
  | (k, v) :: es =>
    sepText ++ (emitKey k.bytes ++ eqText ++ emitValue fc v) ++ emitMoreMembers fc es

end

/-! ## Sections -/

/-- `is_section`. -/
def isSection : Node → Bool
  | .table flag _ => flag ≠ .inline
  | .array aot _ => aot
  | _ => false

/-- The first loop of `emit_table_children`: the values, one a line. -/
def emitLines (fc : FloatConv) (es : Entries) : Bytes :=
  es.flatMap fun e =>
    if isSection e.2 then [] else emitKey e.1.bytes ++ eqText ++ emitValue fc e.2 ++ [Ch.lf]

/-- The header path of a section: that of the table around it, and its key. -/
def headerPath (pfx key : Bytes) : Bytes :=
  (if pfx = [] then [] else pfx ++ [Ch.dot]) ++ emitKey key

mutual

/-- `emit_section`, with its header path. -/
def emitSection (fc : FloatConv) (hdr : Bytes) : Node → Bytes
  | .array _ items => emitElements fc hdr items
  | .table _ es =>
    Ch.lbrack :: hdr ++ [Ch.rbrack, Ch.lf] ++ (emitLines fc es ++ emitSections fc hdr es)
  | _ => []

/-- The elements of an array of tables, each under its header. -/
def emitElements (fc : FloatConv) (hdr : Bytes) : List Node → Bytes
  | [] => []
  | .table _ es :: ts =>
    [Ch.lbrack, Ch.lbrack] ++ hdr ++ [Ch.rbrack, Ch.rbrack, Ch.lf] ++
      (emitLines fc es ++ emitSections fc hdr es) ++ emitElements fc hdr ts
  -- the elements of an array of tables are tables
  | _ :: ts =>
    [Ch.lbrack, Ch.lbrack] ++ hdr ++ [Ch.rbrack, Ch.rbrack, Ch.lf] ++ emitElements fc hdr ts

/-- The second loop of `emit_table_children`: the sections. -/
def emitSections (fc : FloatConv) (pfx : Bytes) : List (Key × Node) → Bytes
  | [] => []
  | (k, v) :: es =>
    (if isSection v then emitSection fc (headerPath pfx k.bytes) v else []) ++
      emitSections fc pfx es

end

/-- `emit_table_children`. -/
def emitTableChildren (fc : FloatConv) (pfx : Bytes) (es : Entries) : Bytes :=
  emitLines fc es ++ emitSections fc pfx es

/-- `teptris_emit_document`, of the root table. -/
def emitDocument (fc : FloatConv) (root : Node) : Bytes :=
  match root with
  | .table _ es => emitTableChildren fc [] es
  | _ => []

end Teptris
