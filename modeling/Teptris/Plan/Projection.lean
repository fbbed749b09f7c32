import Teptris.Plan.Plan

/-!
# What a plan asks for

The reference of `teptris_plan_walk`: a specification is a family of sub-plans, each a list of
rows that name a key and the shape wanted of its value, and `project` reads a document against
it.  The walk carries out the projection exactly where no array the plan asks for has `2 ^ 32`
elements or more, the count of a result array being a 32-bit cast of the length.
-/

namespace Teptris

/-! ## The reference -/

/-- What a row asks for. -/
inductive RowShape where
  /-- A scalar. -/
  | scalar
  /-- An array, its scalars by element. -/
  | collection
  /-- A table, or an array of tables, against a plan. -/
  | nested (sub : ℕ)
  /-- The untouched subtree. -/
  | raw

/-- A row of a plan: the key, and what is asked of its value. -/
structure RowSpec where
  /-- The key. -/
  name : Bytes
  /-- What is asked for. -/
  shape : RowShape

/-- What a document has to say about a row. -/
inductive Projection where
  /-- The key is absent, or its value has another shape. -/
  | missing
  /-- A scalar. -/
  | scalar (v : Node)
  /-- An array, element by element. -/
  | array (v : Node) (elements : List Projection)
  /-- A table, row by row. -/
  | table (v : Node) (rows : List Projection)
  /-- A subtree. -/
  | raw (v : Node)

/-- An element of a collection. -/
def projectElement (item : Node) : Projection :=
  if item.isContainer then .missing else .scalar item

mutual

/-- The value of a key, in the shape asked for; `plans` are the rows of the sub-plans. -/
def projectValue (plans : ℕ → List RowSpec) (v : Node) (shape : RowShape) : Projection :=
  match shape with
  | .scalar => if v.isContainer then .missing else .scalar v
  | .collection =>
    match v with
    | .array aot items => .array (.array aot items) (items.map projectElement)
    | _ => .missing
  | .nested sub =>
    match v with
    | .table flag es => .table (.table flag es) ((plans sub).map (projectEntries plans es))
    | .array aot items => .array (.array aot items) (projectItems plans items (plans sub))
    | _ => .missing
  | .raw => .raw v

/-- Each element of an array of tables, against the same rows. -/
def projectItems (plans : ℕ → List RowSpec) (items : List Node) (rows : List RowSpec) :
    List Projection :=
  match items with
  | [] => []
  | .table flag es :: items =>
    .table (.table flag es) (rows.map (projectEntries plans es)) :: projectItems plans items rows
  | _ :: items => .missing :: projectItems plans items rows

/-- The entry with the key of a row, in the shape asked for. -/
def projectEntries (plans : ℕ → List RowSpec) (es : List (Key × Node)) (row : RowSpec) :
    Projection :=
  match es with
  | [] => .missing
  | (k, v) :: es =>
    if k.bytes = row.name then projectValue plans v row.shape else projectEntries plans es row

end

/-- A table against the rows of a plan. -/
def projectTable (plans : ℕ → List RowSpec) (idx : ℕ) (t : Node) : Projection :=
  match t with
  | .table flag es => .table (.table flag es) ((plans idx).map (projectEntries plans es))
  | _ => .missing

/-- What a row kind asks for. -/
def shapeOf (kind : UInt8) (sub : UInt32) : RowShape :=
  if kind = planScalar then .scalar
  else if kind = planCollection then .collection
  else if kind = planNested then .nested sub.toNat
  else .raw

/-- What a row of a specification asks for. -/
def PlanRow.spec (r : PlanRow) : RowSpec := ⟨r.name.getD [], shapeOf r.kind r.sub⟩

namespace PlanSpec

/-- The sub-plans: plan `idx` owns the rows between its offset and the next one. -/
def subPlans (spec : PlanSpec) (idx : ℕ) : List RowSpec :=
  let first := spec.planFirstRow.getD []
  let lo := (first.getD idx 0).toNat
  let hi := (first.getD (idx + 1) 0).toNat
  ((((spec.plans.getD []).drop lo).take (hi - lo)).map PlanRow.spec)

/-- The offsets do not decrease. -/
def Ascending (spec : PlanSpec) : Prop := (spec.planFirstRow.getD []).Pairwise (· ≤ ·)

/-- The arrays a caller hands over are as long as documented. -/
structure Documented (spec : PlanSpec) : Prop where
  /-- `plan_count + 1` offsets. -/
  offsets : ∀ first, spec.planFirstRow = some first → first.length = spec.planCount.toNat + 1
  /-- The last offset is the number of rows. -/
  rows : ∀ plans first, spec.plans = some plans → spec.planFirstRow = some first →
    plans.length = (first.getD spec.planCount.toNat 0).toNat

end PlanSpec

namespace Projection

mutual

/-- Every array of the projection has fewer than `2 ^ 32` elements. -/
def Short : Projection → Prop
  | .array _ elements => elements.length < 2 ^ 32 ∧ AllShort elements
  | .table _ rows => AllShort rows
  | _ => True

/-- Each of them is short. -/
def AllShort : List Projection → Prop
  | [] => True
  | q :: qs => q.Short ∧ AllShort qs

end

lemma allShort_iff {qs : List Projection} : AllShort qs ↔ ∀ q ∈ qs, q.Short := by
  induction qs with
  | nil => simp [AllShort]
  | cons q qs ih => simp [AllShort, ih]

mutual

/-- The projection as a result of the walk. -/
def rnode : Projection → RNode
  | .missing => .mk 0 none [] 0
  | .scalar v => .mk 1 (some v) [] 0
  | .array v elements => .mk 2 (some v) (rnodes elements) (UInt32.ofNat elements.length)
  | .table v rows => .mk 3 (some v) (rnodes rows) (UInt32.ofNat rows.length)
  | .raw v => .mk 4 (some v) [] 0

/-- Each of them. -/
def rnodes : List Projection → List RNode
  | [] => []
  | q :: qs => q.rnode :: rnodes qs

end

lemma rnodes_eq (qs : List Projection) : rnodes qs = qs.map rnode := by
  induction qs with
  | nil => rfl
  | cons q qs ih => rw [rnodes, ih, List.map_cons]

end Projection

end Teptris
