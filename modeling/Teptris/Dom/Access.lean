import Teptris.Dom.Node

/-!
# The read API

The accessors of `api.c`: the kind of a node, and its value where the kind is the right one.
-/

namespace Teptris

/-- `teptris_kind`. -/
inductive Kind where
  /-- `TEPTRIS_STRING`. -/
  | string
  /-- `TEPTRIS_INTEGER`. -/
  | integer
  /-- `TEPTRIS_FLOAT`. -/
  | float
  /-- `TEPTRIS_BOOLEAN`. -/
  | boolean
  /-- The four datetime kinds. -/
  | datetime (kind : DtKind)
  /-- `TEPTRIS_ARRAY`. -/
  | array
  /-- `TEPTRIS_TABLE`. -/
  | table
deriving DecidableEq

namespace Node

/-- `teptris_node_kind`. -/
def kind : Node → Kind
  | .string _ => .string
  | .integer _ => .integer
  | .float _ => .float
  | .boolean _ => .boolean
  | .datetime kind _ => .datetime kind
  | .array _ _ => .array
  | .table _ _ => .table

/-- An array or a table. -/
def isContainer (v : Node) : Bool := v.kind = .array || v.kind = .table

/-- `teptris_node_string`. -/
def getString : Node → Except Status Bytes
  | .string s => .ok s
  | _ => .error .errArg

/-- `teptris_node_integer`. -/
def getInteger : Node → Except Status Int64
  | .integer i => .ok i
  | _ => .error .errArg

/-- `teptris_node_float`. -/
def getFloat : Node → Except Status Double
  | .float f => .ok f
  | _ => .error .errArg

/-- `teptris_node_boolean`. -/
def getBoolean : Node → Except Status Bool
  | .boolean b => .ok b
  | _ => .error .errArg

/-- `teptris_node_datetime`. -/
def getDatetime : Node → Except Status Datetime
  | .datetime _ dt => .ok dt
  | _ => .error .errArg

/-- `teptris_node_table_get`. -/
def tableGet (key : Bytes) : Node → Option Node
  | .table _ es => probe (.ofBytes key) es
  | _ => none

end Node

end Teptris
