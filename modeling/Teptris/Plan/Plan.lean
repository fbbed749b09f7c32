import Teptris.Dom.Access

/-!
# Plans

`plan.c`: `teptris_plan_build` copies and checks a flattened plan tree, and `teptris_plan_walk`
materialises a table against it.  Plan `p` owns the rows from `first_row[p]` up to
`first_row[p + 1]`; a nested row names the plan of its own rows.
-/

namespace Teptris

/-! ## Specifications and plans -/

/-- `teptris_plan_row`: the name is a null pointer, or a C string without its NUL. -/
structure PlanRow where
  /-- The key of the table. -/
  name : Option Bytes
  /-- `teptris_plan_row_kind`. -/
  kind : UInt8
  /-- The plan of a nested row. -/
  sub : UInt32

/-- `teptris_plan_spec`. -/
structure PlanSpec where
  /-- Must be `TEPTRIS_PLAN_ABI_VERSION`. -/
  abiVersion : UInt32
  /-- The number of plans. -/
  planCount : UInt32
  /-- The rows of all plans; `none` is a null pointer. -/
  plans : Option (List PlanRow)
  /-- The offsets of the plans in the rows; `none` is a null pointer. -/
  planFirstRow : Option (List UInt32)

/-- `plan_row`. -/
structure CopiedRow where
  /-- The key of the table. -/
  name : Bytes
  /-- `teptris_plan_row_kind`. -/
  kind : UInt8
  /-- The plan of a nested row. -/
  sub : UInt32

/-- `teptris_plan`. -/
structure Plan where
  /-- The number of plans. -/
  planCount : UInt32
  /-- The copied offsets. -/
  firstRow : List UInt32
  /-- The copied rows. -/
  rows : List CopiedRow

/-- `TEPTRIS_PLAN_ABI_VERSION`. -/
def planAbiVersion : UInt32 := 1

/-- `TEPTRIS_PLAN_MAX_DEPTH`. -/
def planMaxDepth : ℕ := 512

/-- `TEPTRIS_PLAN_SCALAR`. -/
abbrev planScalar : UInt8 := 1
/-- `TEPTRIS_PLAN_COLLECTION`. -/
abbrev planCollection : UInt8 := 2
/-- `TEPTRIS_PLAN_NESTED`. -/
abbrev planNested : UInt8 := 3
/-- `TEPTRIS_PLAN_RAW`. -/
abbrev planRaw : UInt8 := 4

/-- How building a plan fails: with a status, or by a read outside an array, which the source
does not guard against. -/
inductive PlanFault where
  /-- The status returned. -/
  | status (st : Status)
  /-- A read outside an array. -/
  | outside
deriving DecidableEq

/-! ## `teptris_plan_build` -/

/-- The check of a row, and its copy. -/
def copyRow (planCount : UInt32) (r : PlanRow) : Except PlanFault CopiedRow :=
  match r.name with
  | none => .error (.status .errArg)
  | some name =>
    if name = [] ∨ r.kind < planScalar ∨ planRaw < r.kind ∨
        (r.kind = planNested ∧ planCount ≤ r.sub) then .error (.status .errArg)
    else .ok ⟨name, r.kind, r.sub⟩

/-- The copying loop over the first `n` rows. -/
def copyRows (planCount : UInt32) : ℕ → List PlanRow → Except PlanFault (List CopiedRow)
  | 0, _ => .ok []
  | _ + 1, [] => .error .outside
  | n + 1, r :: rs =>
    match copyRow planCount r with
    | .error e => .error e
    | .ok row =>
      match copyRows planCount n rs with
      | .error e => .error e
      | .ok rows => .ok (row :: rows)

/-- The loop that reads `n` rows from index `lo` on; `none` is a read outside the rows. -/
def readRows (rows : List CopiedRow) : ℕ → ℕ → Option (List CopiedRow)
  | _, 0 => some []
  | lo, n + 1 =>
    match rows[lo]? with
    | none => none
    | some r => (readRows rows (lo + 1) n).map (r :: ·)

/-- The rows a loop from `first_row[idx]` to `first_row[idx + 1]` reads; `none` is a read
outside the offsets or the rows. -/
def Plan.rowsOf (p : Plan) (idx : ℕ) : Option (List CopiedRow) :=
  match p.firstRow[idx]?, p.firstRow[idx + 1]? with
  | some lo, some hi => readRows p.rows lo.toNat (hi.toNat - lo.toNat)
  | _, _ => none

/-- The depth gate at one row of plan `idx`. -/
def relaxRow (idx : ℕ) (depths : List ℕ) (row : CopiedRow) : List ℕ :=
  if row.kind = planNested then
    let sub := row.sub.toNat
    let next := depths.getD idx 0 + 1
    if depths.getD sub 0 ≤ next then depths.set sub next else depths
  else depths

/-- The depth gate's pass over the plans from `idx` on, `n` of them. -/
def relaxPlans (p : Plan) : ℕ → ℕ → List ℕ → Option (List ℕ)
  | 0, _, depths => some depths
  | n + 1, idx, depths =>
    match p.rowsOf idx with
    | none => none
    | some rows => relaxPlans p n (idx + 1) (rows.foldl (relaxRow idx) depths)

/-- `teptris_plan_build`; allocations succeed. -/
def planBuild (spec : PlanSpec) : Except PlanFault Plan :=
  if spec.abiVersion ≠ planAbiVersion ∨ spec.planCount = 0 then .error (.status .errArg)
  else
    match spec.plans, spec.planFirstRow with
    | some plans, some first =>
      match first[spec.planCount.toNat]? with
      | none => .error .outside
      | some rowTotal =>
        match copyRows spec.planCount rowTotal.toNat plans with
        | .error e => .error e
        | .ok rows =>
          -- the number of copied offsets wraps with the type of `plan_count`
          let p : Plan := ⟨spec.planCount, first.take (spec.planCount + 1).toNat, rows⟩
          match relaxPlans p p.planCount.toNat 0 (List.replicate p.planCount.toNat 0) with
          | none => .error .outside
          | some depths =>
            if depths.any fun d => planMaxDepth < d then .error (.status .errArg) else .ok p
    | _, _ => .error (.status .errArg)

/-! ## `teptris_plan_walk` -/

/-- `rnode`: the kind, the document node, the children and their number. -/
inductive RNode where
  /-- A result node. -/
  | mk (kind : UInt8) (src : Option Node) (kids : List RNode) (n : UInt32)

namespace RNode

/-- The kind of the result. -/
def kind : RNode → UInt8
  | .mk kind _ _ _ => kind

/-- The document node. -/
def src : RNode → Option Node
  | .mk _ src _ _ => src

/-- The children. -/
def kids : RNode → List RNode
  | .mk _ _ kids _ => kids

/-- The number of children. -/
def n : RNode → UInt32
  | .mk _ _ _ n => n

/-- `TEPTRIS_PLAN_MISSING`. -/
def missing : RNode := .mk 0 none [] 0

/-- `TEPTRIS_PLAN_SCALAR_RESULT`. -/
def scalar (v : Node) : RNode := .mk 1 (some v) [] 0

/-- `TEPTRIS_PLAN_ARRAY`: the loop fills as many children as the cast length says. -/
def array (v : Node) (length : ℕ) (kids : List RNode) : RNode :=
  .mk 2 (some v) (kids.take (UInt32.ofNat length).toNat) (UInt32.ofNat length)

/-- `TEPTRIS_PLAN_TABLE`: `n` counts the children. -/
def table (v : Node) (kids : List RNode) : RNode :=
  .mk 3 (some v) kids (UInt32.ofNat kids.length)

/-- `TEPTRIS_PLAN_RAW_RESULT`. -/
def raw (v : Node) : RNode := .mk 4 (some v) [] 0

end RNode

/-- An element of a collection. -/
def walkElement (item : Node) : RNode :=
  if item.isContainer then .missing else .scalar item

mutual

/-- `walk_value`. -/
def walkValue (p : Plan) (v : Node) (row : CopiedRow) : RNode :=
  if row.kind = planScalar then
    if v.isContainer then .missing else .scalar v
  else if row.kind = planCollection then
    match v with
    | .array aot items => .array (.array aot items) items.length (items.map walkElement)
    | _ => .missing
  else if row.kind = planNested then
    match v with
    | .table flag es =>
      .table (.table flag es) (((p.rowsOf row.sub.toNat).getD []).map (walkEntries p es))
    | .array aot items =>
      .array (.array aot items) items.length
        (walkItems p items ((p.rowsOf row.sub.toNat).getD []))
    | _ => .missing
  else .raw v

/-- The elements of an array of tables, against the rows of their plan. -/
def walkItems (p : Plan) (items : List Node) (rows : List CopiedRow) : List RNode :=
  match items with
  | [] => []
  | .table flag es :: items =>
    .table (.table flag es) (rows.map (walkEntries p es)) :: walkItems p items rows
  | _ :: items => .missing :: walkItems p items rows

/-- One row of `walk_table`: `teptris_node_table_get`, and `walk_value` where there is one. -/
def walkEntries (p : Plan) (es : List (Key × Node)) (row : CopiedRow) : RNode :=
  match es with
  | [] => .missing
  | (k, v) :: es => if k.same (.ofBytes row.name) then walkValue p v row else walkEntries p es row

end

/-- `walk_table`. -/
def walkTable (p : Plan) (idx : ℕ) (t : Node) : RNode :=
  match t with
  | .table flag es => .table (.table flag es) (((p.rowsOf idx).getD []).map (walkEntries p es))
  | _ => .missing

/-- `teptris_plan_walk`. -/
def planWalk (p : Plan) (node : Node) : RNode := walkTable p 0 node

/-- A row reads the document through `teptris_node_table_get`. -/
lemma walkEntries_eq (p : Plan) (flag : TblFlag) (es : Entries) (row : CopiedRow) :
    walkEntries p es row =
      match (Node.table flag es).tableGet row.name with
      | none => .missing
      | some v => walkValue p v row := by
  rw [Node.tableGet]
  induction es with
  | nil => rw [walkEntries, probe]
  | cons e es ih =>
    obtain ⟨k, v⟩ := e
    rw [walkEntries, probe, ih]
    split_ifs <;> rfl

/-! ## Accessors -/

/-- `child_of`. -/
def childOf (r : RNode) (i : UInt32) : Option RNode :=
  if r.kind ≠ 3 ∨ r.n ≤ i then none else r.kids[i.toNat]?

/-- `teptris_plan_result_kind_at`. -/
def resultKindAt (r : RNode) (row : UInt32) : UInt8 := (childOf r row).elim 0 RNode.kind

/-- `teptris_plan_result_value_kind_at`. -/
def resultValueKindAt (r : RNode) (row : UInt32) : Kind :=
  ((childOf r row).bind RNode.src).elim .string Node.kind

/-- `SCALAR_AT`: the accessors of scalar rows, each with its `teptris_node` accessor. -/
def scalarAt {α : Type} (get : Node → Except Status α) (r : RNode) (row : UInt32) :
    Except Status α :=
  match childOf r row with
  | none => .error .errArg
  | some c => if c.kind ≠ 1 then .error .errArg else c.src.elim (.error .errArg) get

/-- `teptris_plan_result_string_at`. -/
def resultStringAt : RNode → UInt32 → Except Status Bytes := scalarAt Node.getString
/-- `teptris_plan_result_integer_at`. -/
def resultIntegerAt : RNode → UInt32 → Except Status Int64 := scalarAt Node.getInteger
/-- `teptris_plan_result_float_at`. -/
def resultFloatAt : RNode → UInt32 → Except Status Double := scalarAt Node.getFloat
/-- `teptris_plan_result_boolean_at`. -/
def resultBooleanAt : RNode → UInt32 → Except Status Bool := scalarAt Node.getBoolean
/-- `teptris_plan_result_datetime_at`. -/
def resultDatetimeAt : RNode → UInt32 → Except Status Datetime := scalarAt Node.getDatetime

/-- `teptris_plan_result_array_len_at`. -/
def resultArrayLenAt (r : RNode) (row : UInt32) : UInt32 :=
  match childOf r row with
  | some c => if c.kind = 2 then c.n else 0
  | none => 0

/-- The element the array accessors look at: `none` where they give up. -/
def elementOf (r : RNode) (row i : UInt32) : Option RNode :=
  match childOf r row with
  | none => none
  | some c => if c.kind ≠ 2 ∨ c.n ≤ i then none else c.kids[i.toNat]?

/-- `teptris_plan_result_array_kind_at`. -/
def resultArrayKindAt (r : RNode) (row i : UInt32) : UInt8 :=
  (elementOf r row i).elim 0 RNode.kind

/-- `teptris_plan_result_array_value_kind_at`. -/
def resultArrayValueKindAt (r : RNode) (row i : UInt32) : Kind :=
  match elementOf r row i with
  | none => .string
  | some k => if k.kind = 1 then k.src.elim .string Node.kind else .string

/-- The accessors of scalar elements, each with its `teptris_node` accessor. -/
def arrayScalarAt {α : Type} (get : Node → Except Status α) (r : RNode) (row i : UInt32) :
    Except Status α :=
  match elementOf r row i with
  | none => .error .errArg
  | some k => if k.kind ≠ 1 then .error .errArg else k.src.elim (.error .errArg) get

/-- `teptris_plan_result_array_string_at`. -/
def resultArrayStringAt : RNode → UInt32 → UInt32 → Except Status Bytes :=
  arrayScalarAt Node.getString
/-- `teptris_plan_result_array_integer_at`. -/
def resultArrayIntegerAt : RNode → UInt32 → UInt32 → Except Status Int64 :=
  arrayScalarAt Node.getInteger
/-- `teptris_plan_result_array_float_at`. -/
def resultArrayFloatAt : RNode → UInt32 → UInt32 → Except Status Double :=
  arrayScalarAt Node.getFloat
/-- `teptris_plan_result_array_boolean_at`. -/
def resultArrayBooleanAt : RNode → UInt32 → UInt32 → Except Status Bool :=
  arrayScalarAt Node.getBoolean
/-- `teptris_plan_result_array_datetime_at`. -/
def resultArrayDatetimeAt : RNode → UInt32 → UInt32 → Except Status Datetime :=
  arrayScalarAt Node.getDatetime

/-- `teptris_plan_result_row_view`. -/
def resultRowView (r : RNode) (row : UInt32) : Option RNode :=
  match childOf r row with
  | some c => if c.kind = 3 then some c else none
  | none => none

/-- `teptris_plan_result_array_entry_at`. -/
def resultArrayEntryAt (r : RNode) (row i : UInt32) : Option RNode := elementOf r row i

/-- `teptris_plan_result_raw_at`. -/
def resultRawAt (r : RNode) (row : UInt32) : Option Node :=
  match childOf r row with
  | some c => if c.kind = 4 then c.src else none
  | none => none

end Teptris
