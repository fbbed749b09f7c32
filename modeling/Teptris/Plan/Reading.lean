import Teptris.Plan.Walk

/-!
# What the accessors read

The accessors of `plan.c` look at one row of a result, and at one element of an array row; the
two view functions step to a row or an element that is a result of its own.  On a projection
whose counts fit their 32-bit field, every accessor of every view reads what the projection says.
-/

namespace Teptris

/-! ## Readings of a projection -/

namespace Projection

/-- The result kind. -/
def kind : Projection → UInt8
  | .missing => 0
  | .scalar _ => 1
  | .array _ _ => 2
  | .table _ _ => 3
  | .raw _ => 4

/-- The document node. -/
def src : Projection → Option Node
  | .missing => none
  | .scalar v | .array v _ | .table v _ | .raw v => some v

/-- A row of a table. -/
def row (i : ℕ) : Projection → Option Projection
  | .table _ rows => rows[i]?
  | _ => none

/-- An element of an array. -/
def element (i : ℕ) : Projection → Option Projection
  | .array _ elements => elements[i]?
  | _ => none

/-- The length of an array. -/
def length : Projection → ℕ
  | .array _ elements => elements.length
  | _ => 0

/-- The node of a scalar. -/
def value : Projection → Option Node
  | .scalar v => some v
  | _ => none

/-- The node of a raw row. -/
def subtree : Projection → Option Node
  | .raw v => some v
  | _ => none

/-- A row that is a table. -/
def rowView (i : ℕ) (q : Projection) : Option Projection :=
  (q.row i).bind fun c => if c.kind = 3 then some c else none

/-- Element `j` of row `i`. -/
def entry (i j : ℕ) (q : Projection) : Option Projection := (q.row i).bind (element j)

end Projection

/-- Every accessor of a result reads what the projection says. -/
structure RNode.Reads (r : RNode) (q : Projection) : Prop where
  /-- `teptris_plan_result_kind_at`. -/
  kindAt : ∀ i, resultKindAt r i = (q.row i.toNat).elim 0 Projection.kind
  /-- `teptris_plan_result_value_kind_at`. -/
  valueKindAt : ∀ i,
    resultValueKindAt r i = ((q.row i.toNat).bind Projection.src).elim .string Node.kind
  /-- The accessors of scalar rows. -/
  scalarAt : ∀ {α : Type} (get : Node → Except Status α) i,
    scalarAt get r i = ((q.row i.toNat).bind Projection.value).elim (.error .errArg) get
  /-- `teptris_plan_result_array_len_at`. -/
  arrayLenAt : ∀ i, (resultArrayLenAt r i).toNat = (q.row i.toNat).elim 0 Projection.length
  /-- `teptris_plan_result_array_kind_at`. -/
  arrayKindAt : ∀ i j, resultArrayKindAt r i j = (q.entry i.toNat j.toNat).elim 0 Projection.kind
  /-- `teptris_plan_result_array_value_kind_at`. -/
  arrayValueKindAt : ∀ i j, resultArrayValueKindAt r i j =
    ((q.entry i.toNat j.toNat).bind Projection.value).elim .string Node.kind
  /-- The accessors of scalar elements. -/
  arrayScalarAt : ∀ {α : Type} (get : Node → Except Status α) i j, arrayScalarAt get r i j =
    ((q.entry i.toNat j.toNat).bind Projection.value).elim (.error .errArg) get
  /-- `teptris_plan_result_raw_at`. -/
  rawAt : ∀ i, resultRawAt r i = (q.row i.toNat).bind Projection.subtree

/-- A step to a result inside a result. -/
inductive ViewStep where
  /-- `teptris_plan_result_row_view`. -/
  | row (i : UInt32)
  /-- `teptris_plan_result_array_entry_at`. -/
  | entry (i j : UInt32)

/-- The view after some steps. -/
def RNode.view : List ViewStep → RNode → Option RNode
  | [], r => some r
  | .row i :: steps, r => (resultRowView r i).bind (view steps)
  | .entry i j :: steps, r => (resultArrayEntryAt r i j).bind (view steps)

/-- The part of a projection after some steps. -/
def Projection.view : List ViewStep → Projection → Option Projection
  | [], q => some q
  | .row i :: steps, q => (q.rowView i.toNat).bind (view steps)
  | .entry i j :: steps, q => (q.entry i.toNat j.toNat).bind (view steps)

/-- A result is the projection: node by node, and for every accessor of every view. -/
structure RNode.Carries (r : RNode) (q : Projection) : Prop where
  /-- The rows and elements, in order, each with its kind and node. -/
  nodes : r = q.rnode
  /-- The accessors. -/
  reads : ∀ steps, Option.Rel RNode.Reads (r.view steps) (q.view steps)

/-! ## Counts that fit -/

namespace Projection

mutual

/-- Every table of the projection has fewer than `2 ^ 32` rows. -/
def Narrow : Projection → Prop
  | .array _ elements => AllNarrow elements
  | .table _ rows => rows.length < 2 ^ 32 ∧ AllNarrow rows
  | _ => True

/-- Each of them is narrow. -/
def AllNarrow : List Projection → Prop
  | [] => True
  | q :: qs => q.Narrow ∧ AllNarrow qs

end

lemma allNarrow_iff {qs : List Projection} : AllNarrow qs ↔ ∀ q ∈ qs, q.Narrow := by
  induction qs with
  | nil => simp [AllNarrow]
  | cons q qs ih => simp [AllNarrow, ih]

/-- Every count fits its field. -/
structure Sized (q : Projection) : Prop where
  /-- The arrays. -/
  short : q.Short
  /-- The tables. -/
  narrow : q.Narrow

lemma Sized.row {q c : Projection} (h : q.Sized) {i : ℕ} (hc : q.row i = some c) : c.Sized := by
  obtain ⟨hs, hn⟩ := h
  cases q with
  | table v rows =>
    have hmem := List.mem_of_getElem? hc
    rw [Short, allShort_iff] at hs
    rw [Narrow, allNarrow_iff] at hn
    exact ⟨hs c hmem, hn.2 c hmem⟩
  | missing | scalar | array | raw => simp [Projection.row] at hc

lemma Sized.element {q c : Projection} (h : q.Sized) {i : ℕ} (hc : q.element i = some c) :
    c.Sized := by
  obtain ⟨hs, hn⟩ := h
  cases q with
  | array v elements =>
    have hmem := List.mem_of_getElem? hc
    rw [Short, allShort_iff] at hs
    rw [Narrow, allNarrow_iff] at hn
    exact ⟨hs.2 c hmem, hn c hmem⟩
  | missing | scalar | table | raw => simp [Projection.element] at hc

section Plans

variable {plans : ℕ → List RowSpec}

mutual

/-- Plans with fewer than `2 ^ 32` rows ask for tables with fewer than `2 ^ 32` rows. -/
lemma narrow_projectValue (hplans : ∀ idx, (plans idx).length < 2 ^ 32) :
    ∀ (v : Node) (shape : RowShape), (projectValue plans v shape).Narrow
  | v, .scalar => by
    rw [projectValue]
    split_ifs <;> trivial
  | v, .raw => by
    rw [projectValue]
    trivial
  | .array aot items, .collection => by
    rw [projectValue, Narrow, allNarrow_iff, List.forall_mem_map]
    intro item _
    rw [projectElement]
    split_ifs <;> trivial
  | .string _, .collection | .integer _, .collection | .float _, .collection
  | .boolean _, .collection | .datetime _ _, .collection | .table _ _, .collection => by
    simp [projectValue, Narrow]
  | .table flag es, .nested sub => by
    rw [projectValue, Narrow, List.length_map, allNarrow_iff, List.forall_mem_map]
    exact ⟨hplans sub, fun row _ => narrow_projectEntries hplans es row⟩
  | .array aot items, .nested sub => by
    rw [projectValue, Narrow]
    exact narrow_projectItems hplans items (plans sub) (hplans sub)
  | .string _, .nested _ | .integer _, .nested _ | .float _, .nested _
  | .boolean _, .nested _ | .datetime _ _, .nested _ => by
    simp [projectValue, Narrow]

/-- So does each element of an array of tables. -/
lemma narrow_projectItems (hplans : ∀ idx, (plans idx).length < 2 ^ 32) :
    ∀ (items : List Node) (rows : List RowSpec), rows.length < 2 ^ 32 →
      AllNarrow (projectItems plans items rows)
  | [], rows, _ => by
    rw [projectItems]
    trivial
  | .table flag es :: items, rows, hrows => by
    rw [projectItems, AllNarrow, Narrow, List.length_map, allNarrow_iff, List.forall_mem_map]
    exact ⟨⟨hrows, fun row _ => narrow_projectEntries hplans es row⟩,
      narrow_projectItems hplans items rows hrows⟩
  | .string _ :: items, rows, hrows | .integer _ :: items, rows, hrows
  | .float _ :: items, rows, hrows | .boolean _ :: items, rows, hrows
  | .datetime _ _ :: items, rows, hrows | .array _ _ :: items, rows, hrows => by
    simpa [projectItems, AllNarrow, Narrow] using narrow_projectItems hplans items rows hrows

/-- So does the value of a key. -/
lemma narrow_projectEntries (hplans : ∀ idx, (plans idx).length < 2 ^ 32) :
    ∀ (es : List (Key × Node)) (row : RowSpec), (projectEntries plans es row).Narrow
  | [], row => by
    rw [projectEntries]
    trivial
  | (k, v) :: es, row => by
    rw [projectEntries]
    split_ifs
    · exact narrow_projectValue hplans v row.shape
    · exact narrow_projectEntries hplans es row

end

lemma narrow_projectTable (hplans : ∀ idx, (plans idx).length < 2 ^ 32) (idx : ℕ)
    (t : Node) : (projectTable plans idx t).Narrow := by
  cases t with
  | table flag es =>
    rw [projectTable, Narrow, List.length_map, allNarrow_iff, List.forall_mem_map]
    exact ⟨hplans idx, fun row _ => narrow_projectEntries hplans es row⟩
  | string | integer | float | boolean | datetime | array =>
    simp [projectTable, Narrow]

end Plans

end Projection

/-- The offsets of a specification are 32-bit numbers. -/
lemma PlanSpec.length_subPlans (spec : PlanSpec) (idx : ℕ) :
    (spec.subPlans idx).length < 2 ^ 32 := by
  rw [PlanSpec.subPlans, List.length_map, List.length_take]
  have := ((spec.planFirstRow.getD []).getD (idx + 1) 0).toNat_lt
  omega

/-! ## Readings of a result -/

namespace Projection

lemma rnode_kind (q : Projection) : q.rnode.kind = q.kind := by
  cases q <;> rfl

lemma rnode_src (q : Projection) : q.rnode.src = q.src := by
  cases q <;> rfl

/-- An index below a count that fits is an index into the children. -/
lemma getElem?_of_count {qs : List Projection} (hlen : qs.length < 2 ^ 32) (i : UInt32) :
    (if UInt32.ofNat qs.length ≤ i then none else (rnodes qs)[i.toNat]?) =
      (qs[i.toNat]?).map rnode := by
  have hcount : (UInt32.ofNat qs.length).toNat = qs.length := by
    rw [UInt32.toNat_ofNat', Nat.mod_eq_of_lt hlen]
  rw [rnodes_eq, List.getElem?_map]
  split_ifs with h
  · rw [UInt32.le_iff_toNat_le, hcount] at h
    rw [List.getElem?_eq_none h, Option.map_none]
  · rfl

lemma childOf_rnode {q : Projection} (h : q.Sized) (i : UInt32) :
    childOf q.rnode i = (q.row i.toNat).map rnode := by
  obtain ⟨-, hn⟩ := h
  cases q with
  | table v rows =>
    rw [Narrow] at hn
    rw [childOf, row, ← getElem?_of_count hn.1]
    simp [rnode, RNode.kind, RNode.n, RNode.kids]
  | missing | scalar | array | raw => simp [childOf, rnode, RNode.kind, Projection.row]

lemma elementOf_rnode {q : Projection} (h : q.Sized) (i j : UInt32) :
    elementOf q.rnode i j = (q.entry i.toNat j.toNat).map rnode := by
  rw [elementOf, childOf_rnode h, entry]
  cases hrow : q.row i.toNat with
  | none => rfl
  | some c =>
    obtain ⟨hs, -⟩ := h.row hrow
    cases c with
    | array v elements =>
      rw [Short] at hs
      rw [Option.bind_some, element, ← getElem?_of_count hs.1]
      simp [rnode, RNode.kind, RNode.n, RNode.kids]
    | missing | scalar | table | raw => simp [rnode, RNode.kind, element]

/-- On a projection whose counts fit, every accessor reads what it says. -/
theorem reads_rnode {q : Projection} (h : q.Sized) : RNode.Reads q.rnode q where
  kindAt i := by
    rw [resultKindAt, childOf_rnode h]
    cases q.row i.toNat <;> simp [rnode_kind]
  valueKindAt i := by
    rw [resultValueKindAt, childOf_rnode h]
    cases q.row i.toNat <;> simp [rnode_src]
  scalarAt get i := by
    rw [Teptris.scalarAt, childOf_rnode h]
    cases q.row i.toNat with
    | none => rfl
    | some c => cases c <;> rfl
  arrayLenAt i := by
    rw [resultArrayLenAt, childOf_rnode h]
    cases hrow : q.row i.toNat with
    | none => rfl
    | some c =>
      obtain ⟨hs, -⟩ := h.row hrow
      cases c with
      | array v elements =>
        rw [Short] at hs
        simpa [rnode, RNode.kind, RNode.n, Projection.length] using hs.1
      | missing | scalar | table | raw => rfl
  arrayKindAt i j := by
    rw [resultArrayKindAt, elementOf_rnode h]
    cases q.entry i.toNat j.toNat <;> simp [rnode_kind]
  arrayValueKindAt i j := by
    rw [resultArrayValueKindAt, elementOf_rnode h]
    cases q.entry i.toNat j.toNat with
    | none => rfl
    | some c => cases c <;> rfl
  arrayScalarAt get i j := by
    rw [Teptris.arrayScalarAt, elementOf_rnode h]
    cases q.entry i.toNat j.toNat with
    | none => rfl
    | some c => cases c <;> rfl
  rawAt i := by
    rw [resultRawAt, childOf_rnode h]
    cases q.row i.toNat with
    | none => rfl
    | some c => cases c <;> rfl

/-- So does every accessor of every view. -/
theorem view_rnode {q : Projection} (h : q.Sized) (steps : List ViewStep) :
    Option.Rel RNode.Reads (q.rnode.view steps) (q.view steps) := by
  induction steps generalizing q with
  | nil => exact .some (reads_rnode h)
  | cons step steps ih =>
    cases step with
    | row i =>
      rw [RNode.view, view, resultRowView, childOf_rnode h, rowView]
      cases hrow : q.row i.toNat with
      | none => exact .none
      | some c =>
        rw [Option.map_some]
        dsimp only
        rw [rnode_kind, Option.bind_some]
        split_ifs
        · exact ih (h.row hrow)
        · exact .none
    | entry i j =>
      rw [RNode.view, view, resultArrayEntryAt, elementOf_rnode h]
      cases hentry : q.entry i.toNat j.toNat with
      | none => exact .none
      | some c =>
        obtain ⟨b, hb, hc⟩ := Option.bind_eq_some_iff.mp hentry
        exact ih ((h.row hb).element hc)

end Projection

/-! ## The walk -/

/-- The result of a walk is the projection of the table against the specification the plan was
built from, for every accessor too, exactly where every array the plan asks for as a collection
or as an array of tables has fewer than `2 ^ 32` elements. -/
theorem planWalk_carries {spec : PlanSpec} {p : Plan} (h : planBuild spec = .ok p) (t : Node) :
    (planWalk p t).Carries (projectTable spec.subPlans 0 t) ↔
      (projectTable spec.subPlans 0 t).Short := by
  have hwalk := planWalk_eq_iff (planBuild_rows h) t
  refine ⟨fun hc => hwalk.mp hc.nodes, fun hshort => ?_⟩
  have hnodes := hwalk.mpr hshort
  refine ⟨hnodes, fun steps => ?_⟩
  rw [hnodes]
  exact Projection.view_rnode
    ⟨hshort, Projection.narrow_projectTable spec.length_subPlans 0 t⟩ steps

/-- A plan that asks for the collection `a`. -/
def collectionSpec : PlanSpec :=
  ⟨planAbiVersion, 1, some [⟨some [0x61], planCollection, 0⟩], some [0, 1]⟩

/-- The collection is short where the array is. -/
lemma short_collectionSpec (items : List Node) :
    (projectTable collectionSpec.subPlans 0
      (.table .explicit [(Key.ofBytes [0x61], .array false items)])).Short ↔
        items.length < 2 ^ 32 := by
  have hplans : collectionSpec.subPlans 0 = [⟨[0x61], .collection⟩] := rfl
  rw [projectTable, hplans]
  simp only [List.map_cons, List.map_nil, projectEntries, Key.ofBytes_bytes, if_true,
    projectValue, Projection.Short, Projection.AllShort, List.length_map, and_true]
  exact and_iff_left (map_walkElement items).2

/-- The collection against `a = [true]`. -/
theorem planWalk_carries_single :
    (planWalk ⟨1, [0, 1], [⟨[0x61], planCollection, 0⟩]⟩
        (.table .explicit [(Key.ofBytes [0x61], .array false [.boolean true])])).Carries
      (projectTable collectionSpec.subPlans 0
        (.table .explicit [(Key.ofBytes [0x61], .array false [.boolean true])])) :=
  (@planWalk_carries collectionSpec _ rfl _).mpr ((short_collectionSpec _).mpr (by decide))

/-- An array of `2 ^ 32` elements is reported empty: the count is cast to 32 bits. -/
theorem planWalk_wraps :
    planBuild collectionSpec = .ok ⟨1, [0, 1], [⟨[0x61], planCollection, 0⟩]⟩ ∧
      collectionSpec.Ascending ∧
      ¬ (planWalk ⟨1, [0, 1], [⟨[0x61], planCollection, 0⟩]⟩ (.table .explicit
          [(Key.ofBytes [0x61], .array false (List.replicate (2 ^ 32) (.boolean true)))])).Carries
        (projectTable collectionSpec.subPlans 0 (.table .explicit
          [(Key.ofBytes [0x61], .array false (List.replicate (2 ^ 32) (.boolean true)))])) := by
  have hbuild : planBuild collectionSpec = .ok ⟨1, [0, 1], [⟨[0x61], planCollection, 0⟩]⟩ := rfl
  have hasc : collectionSpec.Ascending := by
    rw [PlanSpec.Ascending, collectionSpec]
    decide
  refine ⟨hbuild, hasc, fun hc => ?_⟩
  have hshort := (planWalk_eq_iff (planBuild_rows hbuild) _).mp hc.nodes
  rw [short_collectionSpec, List.length_replicate] at hshort
  exact Nat.lt_irrefl _ hshort

end Teptris
