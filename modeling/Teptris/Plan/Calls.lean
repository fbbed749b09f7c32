import Mathlib.Data.List.Chain
import Teptris.Plan.Walk

/-!
# How deep the walk goes

`walk_table` calls itself once per nested row it follows.  The calls of a walk are listed with
their level, the number of nested rows that lead to them, and compared with the depth gate of
`teptris_plan_build`.  The gate relaxes the depths of the plans in one ascending pass, so that it
bounds the chains of nested rows that only name later plans; a chain that comes back to the same
or an earlier plan is not bounded by it, and a document can follow any chain.
-/

namespace Teptris

/-! ## The calls of a walk -/

/-- A call of `walk_table` on a table. -/
structure WalkCall where
  /-- The number of nested rows that lead to it. -/
  level : ℕ
  /-- The plan it reads. -/
  planIdx : ℕ

mutual

/-- The calls `walk_value` makes; those it makes itself are at `level`. -/
def valueCalls (p : Plan) (level : ℕ) (v : Node) (row : CopiedRow) : List WalkCall :=
  if row.kind = planNested then
    match v with
    | .table _ es =>
      ⟨level, row.sub.toNat⟩ ::
        ((p.rowsOf row.sub.toNat).getD []).flatMap (entriesCalls p (level + 1) es)
    | .array _ items =>
      -- the loop runs over as many elements as the cast length says
      ((itemsCalls p level row.sub.toNat items).take (UInt32.ofNat items.length).toNat).flatten
    | _ => []
  else []

/-- The calls for each element of an array of tables. -/
def itemsCalls (p : Plan) (level idx : ℕ) (items : List Node) : List (List WalkCall) :=
  match items with
  | [] => []
  | .table _ es :: items =>
    (⟨level, idx⟩ :: ((p.rowsOf idx).getD []).flatMap (entriesCalls p (level + 1) es)) ::
      itemsCalls p level idx items
  | _ :: items => [] :: itemsCalls p level idx items

/-- The calls for one row of `walk_table`. -/
def entriesCalls (p : Plan) (level : ℕ) (es : List (Key × Node)) (row : CopiedRow) :
    List WalkCall :=
  match es with
  | [] => []
  | (k, v) :: es =>
    if k.same (.ofBytes row.name) then valueCalls p level v row else entriesCalls p level es row

end

/-- The calls of `walk_table` on a table, itself the first. -/
def tableCalls (p : Plan) (level idx : ℕ) (es : Entries) : List WalkCall :=
  ⟨level, idx⟩ :: ((p.rowsOf idx).getD []).flatMap (entriesCalls p (level + 1) es)

/-- The calls of `teptris_plan_walk`. -/
def planWalkCalls (p : Plan) (node : Node) : List WalkCall :=
  match node with
  | .table _ es => tableCalls p 0 0 es
  | _ => []

/-! ## Chains of nested rows -/

/-- A nested row of plan `i` names plan `j`. -/
def PlanSpec.Nests (spec : PlanSpec) (i j : ℕ) : Prop :=
  ∃ row ∈ spec.subPlans i, row.shape = .nested j

lemma shapeOf_eq_nested {kind : UInt8} {sub : UInt32} {j : ℕ} :
    shapeOf kind sub = .nested j ↔ kind = planNested ∧ sub.toNat = j := by
  have hscalar : planScalar ≠ planNested := by decide
  have hcoll : planCollection ≠ planNested := by decide
  rw [shapeOf]
  split_ifs with h h h
  · simp [h, hscalar]
  · simp [h, hcoll]
  · simp [h]
  · simp [h]

section Calls

variable {p : Plan} {spec : PlanSpec}

/-- The nested rows of a built plan are those of its specification. -/
lemma nests_iff (hc : p.Copies spec) {i j : ℕ} (hi : i < p.planCount.toNat) :
    spec.Nests i j ↔
      ∃ row ∈ (p.rowsOf i).getD [], row.kind = planNested ∧ row.sub.toNat = j := by
  obtain ⟨rows, hrows, hspecs, -⟩ := hc.rows i hi
  rw [PlanSpec.Nests, ← hspecs, hrows, Option.getD_some]
  simp only [List.mem_map, exists_exists_and_eq_and, CopiedRow.spec, shapeOf_eq_nested]

/-- A nested row names one of the plans. -/
lemma nests_lt (hc : p.Copies spec) {i j : ℕ} (hi : i < p.planCount.toNat)
    (h : spec.Nests i j) : j < p.planCount.toNat := by
  obtain ⟨row, hrow, hnested, rfl⟩ := (nests_iff hc hi).mp h
  obtain ⟨rows, hrows, -, hwithin⟩ := hc.rows i hi
  rw [hrows, Option.getD_some] at hrow
  exact hwithin row hrow hnested

/-- The plans of a chain are plans. -/
lemma chain_lt (hc : p.Copies spec) {i : ℕ} {path : List ℕ} (hi : i < p.planCount.toNat)
    (h : List.IsChain spec.Nests (i :: path)) : ∀ j ∈ i :: path, j < p.planCount.toNat := by
  induction path generalizing i with
  | nil => simpa using hi
  | cons j path ih =>
    rw [List.isChain_cons_cons] at h
    intro k hk
    rcases List.mem_cons.mp hk with rfl | hk
    · exact hi
    · exact ih (nests_lt hc hi h.1) h.2 k hk

/-- What the walk knows of a call: a chain from the plan it is at leads there. -/
def WalkCall.From (spec : PlanSpec) (level idx : ℕ) (c : WalkCall) : Prop :=
  ∃ path, List.IsChain spec.Nests (idx :: path) ∧ c.level = level + path.length ∧
    c.planIdx ∈ idx :: path

lemma WalkCall.From.cons {level i j : ℕ} {c : WalkCall} (hij : spec.Nests i j)
    (h : c.From spec (level + 1) j) : c.From spec level i := by
  obtain ⟨path, hchain, hlevel, hidx⟩ := h
  refine ⟨j :: path, List.isChain_cons_cons.mpr ⟨hij, hchain⟩, ?_, List.mem_cons_of_mem _ hidx⟩
  rw [hlevel, List.length_cons]
  omega

/-- The calls of a table come from its plan if those of its rows come from theirs. -/
lemma from_tableCalls (hc : p.Copies spec) {level idx : ℕ} {es : Entries}
    (hidx : idx < p.planCount.toNat)
    (hrow : ∀ row : CopiedRow, row.Within p.planCount.toNat →
      ∀ c ∈ entriesCalls p (level + 1) es row,
        row.kind = planNested ∧ c.From spec (level + 1) row.sub.toNat) :
    ∀ c ∈ tableCalls p level idx es, c.From spec level idx := by
  intro c hmem
  rcases List.mem_cons.mp hmem with rfl | hmem
  · exact ⟨[], List.isChain_singleton _, rfl, List.mem_singleton.mpr rfl⟩
  obtain ⟨row, hrow', hcall⟩ := List.mem_flatMap.mp hmem
  have hwithin : row.Within p.planCount.toNat := by
    obtain ⟨rows, hrows, -, hall⟩ := hc.rows idx hidx
    rw [hrows, Option.getD_some] at hrow'
    exact hall row hrow'
  obtain ⟨hnested, hfrom⟩ := hrow row hwithin c hcall
  exact .cons ((nests_iff hc hidx).mpr ⟨row, hrow', hnested, rfl⟩) hfrom

mutual

/-- Every call below a value is led to by a chain from the plan of the row. -/
lemma from_valueCalls (hc : p.Copies spec) : ∀ (level : ℕ) (v : Node) (row : CopiedRow),
    row.Within p.planCount.toNat → ∀ c ∈ valueCalls p level v row,
      row.kind = planNested ∧ c.From spec level row.sub.toNat
  | level, v, row, hrow, c, hmem => by
    rw [valueCalls.eq_def] at hmem
    by_cases hnested : row.kind = planNested
    · rw [if_pos hnested] at hmem
      refine ⟨hnested, ?_⟩
      cases v with
      | table flag es =>
        exact from_tableCalls hc (hrow hnested)
          (fun row' hrow' => from_entriesCalls hc (level + 1) es row' hrow') c hmem
      | array aot items =>
        obtain ⟨cs, hcs, hmem⟩ := List.mem_flatten.mp hmem
        exact from_itemsCalls hc level row.sub.toNat items (hrow hnested) cs
          (List.mem_of_mem_take hcs) c hmem
      | string | integer | float | boolean | datetime => simp at hmem
    · rw [if_neg hnested] at hmem
      simp at hmem

/-- So is every call below an element of an array of tables. -/
lemma from_itemsCalls (hc : p.Copies spec) : ∀ (level idx : ℕ) (items : List Node),
    idx < p.planCount.toNat → ∀ cs ∈ itemsCalls p level idx items, ∀ c ∈ cs,
      c.From spec level idx
  | level, idx, [], _, cs, hcs, _, _ => by simp [itemsCalls] at hcs
  | level, idx, v :: items, hidx, cs, hcs, c, hmem => by
    have hrest := from_itemsCalls hc level idx items hidx cs
    cases v with
    | table flag es =>
      rw [itemsCalls] at hcs
      rcases List.mem_cons.mp hcs with rfl | hcs
      · exact from_tableCalls hc hidx
          (fun row' hrow' => from_entriesCalls hc (level + 1) es row' hrow') c hmem
      · exact hrest hcs c hmem
    | string | integer | float | boolean | datetime | array =>
      rw [itemsCalls] at hcs
      · rcases List.mem_cons.mp hcs with rfl | hcs
        · simp at hmem
        · exact hrest hcs c hmem
      all_goals simp

/-- So is every call below the value of a key. -/
lemma from_entriesCalls (hc : p.Copies spec) : ∀ (level : ℕ) (es : List (Key × Node))
    (row : CopiedRow), row.Within p.planCount.toNat → ∀ c ∈ entriesCalls p level es row,
      row.kind = planNested ∧ c.From spec level row.sub.toNat
  | _, [], _, _, _, hmem => by simp [entriesCalls] at hmem
  | level, (k, v) :: es, row, hrow, c, hmem => by
    rw [entriesCalls] at hmem
    split_ifs at hmem
    · exact from_valueCalls hc level v row hrow c hmem
    · exact from_entriesCalls hc level es row hrow c hmem

end

/-- Every call of a walk is led to by a chain from the first plan. -/
lemma from_planWalkCalls (hc : p.Copies spec) {node : Node} {c : WalkCall}
    (h : c ∈ planWalkCalls p node) : c.From spec 0 0 := by
  cases node with
  | table flag es =>
    exact from_tableCalls hc hc.pos (fun row hrow => from_entriesCalls hc 1 es row hrow) c h
  | string | integer | float | boolean | datetime | array => simp [planWalkCalls] at h

/-- A document can follow any chain. -/
lemma exists_call (hc : p.Copies spec) {i : ℕ} {path : List ℕ} (hi : i < p.planCount.toNat)
    (h : List.IsChain spec.Nests (i :: path)) (level : ℕ) :
    ∃ es, ∃ c ∈ tableCalls p level i es, c.level = level + path.length := by
  induction path generalizing i level with
  | nil => exact ⟨[], _, List.mem_cons_self, rfl⟩
  | cons j path ih =>
    rw [List.isChain_cons_cons] at h
    obtain ⟨row, hrow, hnested, rfl⟩ := (nests_iff hc hi).mp h.1
    obtain ⟨es, c, hmem, hlevel⟩ := ih (nests_lt hc hi h.1) h.2 (level + 1)
    refine ⟨[(.ofBytes row.name, .table .explicit es)], c, ?_, ?_⟩
    · refine List.mem_cons_of_mem _ (List.mem_flatMap.mpr ⟨row, hrow, ?_⟩)
      rw [entriesCalls, if_pos (Key.same_iff.mpr rfl), valueCalls, if_pos hnested]
      exact hmem
    · rw [hlevel, List.length_cons]
      omega

end Calls

/-! ## The depth gate -/

section Gate

variable {idx : ℕ}

/-- The gate never lowers a depth. -/
lemma le_relaxRow (row : CopiedRow) (depths : List ℕ) (j : ℕ) :
    depths.getD j 0 ≤ (relaxRow idx depths row).getD j 0 := by
  rw [relaxRow]
  split_ifs with hnested
  · dsimp only
    split_ifs with hle
    · rw [List.getD_eq_getElem?_getD, List.getD_eq_getElem?_getD (l := depths.set _ _),
        List.getElem?_set]
      split_ifs with hj hlt
      · rw [← hj, ← List.getD_eq_getElem?_getD]
        exact hle
      · rw [← hj, List.getElem?_eq_none (by omega)]
      · exact Nat.le_refl _
    · exact Nat.le_refl _
  · exact Nat.le_refl _

lemma le_relaxRows (rows : List CopiedRow) (depths : List ℕ) (j : ℕ) :
    depths.getD j 0 ≤ (rows.foldl (relaxRow idx) depths).getD j 0 := by
  induction rows generalizing depths with
  | nil => exact Nat.le_refl _
  | cons row rows ih => exact Nat.le_trans (le_relaxRow row depths j) (ih _)

@[simp] lemma length_relaxRow (row : CopiedRow) (depths : List ℕ) :
    (relaxRow idx depths row).length = depths.length := by
  rw [relaxRow]
  split_ifs
  · dsimp only
    split_ifs <;> simp
  · rfl

@[simp] lemma length_relaxRows (rows : List CopiedRow) (depths : List ℕ) :
    (rows.foldl (relaxRow idx) depths).length = depths.length := by
  induction rows generalizing depths with
  | nil => rfl
  | cons row rows ih => rw [List.foldl_cons, ih, length_relaxRow]

/-- The plan of a nested row is deeper than the plan of the row. -/
lemma lt_relaxRows {row : CopiedRow} {rows : List CopiedRow} {depths : List ℕ}
    (hrow : row ∈ rows) (hnested : row.kind = planNested) (hsub : row.sub.toNat < depths.length) :
    depths.getD idx 0 < (rows.foldl (relaxRow idx) depths).getD row.sub.toNat 0 := by
  induction rows generalizing depths with
  | nil => simp at hrow
  | cons r rows ih =>
    rw [List.foldl_cons]
    rcases List.mem_cons.mp hrow with rfl | hrow
    · refine Nat.lt_of_lt_of_le ?_ (le_relaxRows rows _ _)
      rw [relaxRow, if_pos hnested]
      dsimp only
      split_ifs with hle
      · rw [List.getD_eq_getElem?_getD (l := depths.set _ _), List.getElem?_set_self hsub]
        exact Nat.lt_succ_self _
      · omega
    · exact Nat.lt_of_le_of_lt (le_relaxRow r depths idx) (ih hrow (by simpa using hsub))

variable {p : Plan} {spec : PlanSpec}

lemma le_relaxPlans {n : ℕ} {depths depths' : List ℕ}
    (h : relaxPlans p n idx depths = some depths') (j : ℕ) :
    depths.getD j 0 ≤ depths'.getD j 0 := by
  induction n generalizing idx depths with
  | zero =>
    obtain rfl : depths = depths' := by simpa [relaxPlans] using h
    exact Nat.le_refl _
  | succ n ih =>
    rw [relaxPlans] at h
    split at h
    · simp at h
    next rows hrows => exact Nat.le_trans (le_relaxRows rows depths j) (ih h)

/-- The pass over the plans follows a chain that only names later plans. -/
lemma chain_le_relaxPlans (hc : p.Copies spec) {n i : ℕ} {path depths depths' : List ℕ}
    (h : relaxPlans p n idx depths = some depths') (hn : idx + n = p.planCount.toNat)
    (hlen : depths.length = p.planCount.toNat) (hidx : idx ≤ i) (hi : i < p.planCount.toNat)
    (hchain : List.IsChain spec.Nests (i :: path)) (hasc : List.IsChain (· < ·) (i :: path)) :
    ∃ j, depths.getD i 0 + path.length ≤ depths'.getD j 0 := by
  induction n generalizing idx i path depths with
  | zero => omega
  | succ n ih =>
    rw [relaxPlans] at h
    split at h
    · simp at h
    next rows hrows =>
    have hlen' : (rows.foldl (relaxRow idx) depths).length = p.planCount.toNat := by
      rw [length_relaxRows, hlen]
    rcases Nat.eq_or_lt_of_le hidx with rfl | hlt
    · cases path with
      | nil => exact ⟨idx, Nat.le_trans (le_relaxRows rows depths idx) (le_relaxPlans h idx)⟩
      | cons j path =>
        rw [List.isChain_cons_cons] at hchain hasc
        obtain ⟨row, hrow, hnested, rfl⟩ := (nests_iff hc hi).mp hchain.1
        have hsub := nests_lt hc hi hchain.1
        obtain ⟨k, hk⟩ := ih h (by omega) hlen' hasc.1 hsub hchain.2 hasc.2
        rw [hrows, Option.getD_some] at hrow
        have hdeeper :
            depths.getD idx 0 < (rows.foldl (relaxRow idx) depths).getD row.sub.toNat 0 :=
          lt_relaxRows hrow hnested (hlen ▸ hsub)
        exact ⟨k, by rw [List.length_cons]; omega⟩
    · obtain ⟨k, hk⟩ := ih h (by omega) hlen' hlt hi hchain hasc
      exact ⟨k, Nat.le_trans (Nat.add_le_add_right (le_relaxRows rows depths i) _) hk⟩

/-- What the gate leaves of a plan that was built. -/
lemma planBuild_depths (h : planBuild spec = .ok p) :
    ∃ depths, relaxPlans p p.planCount.toNat 0 (List.replicate p.planCount.toNat 0) = some depths ∧
      ∀ j, depths.getD j 0 ≤ planMaxDepth := by
  rw [planBuild] at h
  split_ifs at h with hhead
  split at h
  swap
  · simp at h
  split at h
  · simp at h
  split at h
  · simp at h
  dsimp only at h
  split at h
  · simp at h
  next depths hdepths =>
  split_ifs at h with hdeep
  obtain rfl := Except.ok.inj h
  refine ⟨depths, hdepths, fun j => ?_⟩
  rw [List.getD_eq_getElem?_getD]
  cases hj : depths[j]? with
  | none => simp
  | some d =>
    rw [Option.getD_some]
    by_contra hlt
    exact hdeep (List.any_eq_true.mpr ⟨d, List.mem_of_getElem? hj, by simpa using hlt⟩)

/-- The gate bounds the chains that only name later plans. -/
lemma ascending_chain_le (h : planBuild spec = .ok p) {path : List ℕ}
    (hchain : List.IsChain spec.Nests (0 :: path)) (hasc : List.IsChain (· < ·) (0 :: path)) :
    path.length ≤ planMaxDepth := by
  have hc := planBuild_rows h
  obtain ⟨depths, hdepths, hmax⟩ := planBuild_depths h
  obtain ⟨j, hj⟩ := chain_le_relaxPlans hc hdepths (by omega) (by simp) (Nat.le_refl _) hc.pos
    hchain hasc
  have := hmax j
  omega

end Gate

/-- The walk of a built plan stays within the depth limit on every document exactly where the
chains of nested rows that come back to the same or an earlier plan do. -/
theorem walk_depth_iff {spec : PlanSpec} {p : Plan} (h : planBuild spec = .ok p) :
    (∀ node, ∀ c ∈ planWalkCalls p node, c.level ≤ planMaxDepth) ↔
      ∀ path, List.IsChain spec.Nests (0 :: path) → ¬ List.IsChain (· < ·) (0 :: path) →
        path.length ≤ planMaxDepth := by
  have hc := planBuild_rows h
  constructor
  · intro hwalk path hchain _
    obtain ⟨es, c, hmem, hlevel⟩ := exists_call hc hc.pos hchain 0
    have := hwalk (.table .explicit es) c hmem
    omega
  · intro hback node c hmem
    obtain ⟨path, hchain, hlevel, -⟩ := from_planWalkCalls hc hmem
    rw [hlevel, Nat.zero_add]
    by_cases hasc : List.IsChain (· < ·) (0 :: path)
    · exact ascending_chain_le h hchain hasc
    · exact hback path hchain hasc

/-- A plan with one row that names it again. -/
def selfNested : PlanSpec := ⟨1, 1, some [⟨some [0x6B], planNested, 0⟩], some [0, 1]⟩

/-- What the build makes of it. -/
def selfNestedPlan : Plan := ⟨1, [0, 1], [⟨[0x6B], planNested, 0⟩]⟩

/-- A table in a table, that many levels deep. -/
def nestedTables : ℕ → Entries
  | 0 => []
  | n + 1 => [(.ofBytes [0x6B], .table .explicit (nestedTables n))]

/-- The plan follows the tables to the last one. -/
lemma selfNested_call (n level : ℕ) :
    ∃ c ∈ tableCalls selfNestedPlan level 0 (nestedTables n), c.level = level + n := by
  induction n generalizing level with
  | zero => exact ⟨_, List.mem_cons_self, rfl⟩
  | succ n ih =>
    obtain ⟨c, hmem, hlevel⟩ := ih (level + 1)
    refine ⟨c, List.mem_cons_of_mem _ (List.mem_flatMap.mpr ⟨_, List.mem_singleton.mpr rfl, ?_⟩),
      by omega⟩
    rw [nestedTables, entriesCalls, if_pos (Key.same_iff.mpr rfl), valueCalls, if_pos rfl]
    exact hmem

/-- The build accepts that plan, and the walk of 513 tables in one another nests 513 levels
deep. -/
theorem walk_depth_self_nested : planBuild selfNested = .ok selfNestedPlan ∧
    ∃ c ∈ planWalkCalls selfNestedPlan (.table .explicit (nestedTables 513)),
      planMaxDepth < c.level := by
  obtain ⟨c, hmem, hlevel⟩ := selfNested_call 513 0
  exact ⟨rfl, c, hmem, by rw [hlevel]; decide⟩

/-- A plan whose nested row names a second one, which has none. -/
def twoPlans : PlanSpec :=
  ⟨1, 2, some [⟨some [0x6B], planNested, 1⟩, ⟨some [0x6C], planScalar, 0⟩], some [0, 1, 2]⟩

/-- What the build makes of it. -/
def twoPlansPlan : Plan := ⟨2, [0, 1, 2], [⟨[0x6B], planNested, 1⟩, ⟨[0x6C], planScalar, 0⟩]⟩

lemma planBuild_twoPlans : planBuild twoPlans = .ok twoPlansPlan := rfl

/-- Its walk stays within the limit. -/
theorem walk_depth_two_plans : planBuild twoPlans = .ok twoPlansPlan ∧
    ∀ node, ∀ c ∈ planWalkCalls twoPlansPlan node, c.level ≤ planMaxDepth := by
  refine ⟨planBuild_twoPlans, (walk_depth_iff planBuild_twoPlans).mpr ?_⟩
  intro path hchain hback
  refine absurd ?_ hback
  match path, hchain with
  | [], _ => exact List.isChain_singleton _
  | [j], hchain =>
    rw [List.isChain_cons_cons] at hchain
    obtain ⟨⟨row, hrow, hshape⟩, -⟩ := hchain
    obtain rfl : row = ⟨[0x6B], .nested 1⟩ := List.mem_singleton.mp hrow
    obtain rfl : 1 = j := RowShape.nested.inj hshape
    exact List.isChain_pair.mpr Nat.zero_lt_one
  | j :: k :: path, hchain =>
    rw [List.isChain_cons_cons, List.isChain_cons_cons] at hchain
    obtain ⟨⟨row, hrow, hshape⟩, ⟨row', hrow', hshape'⟩, -⟩ := hchain
    obtain rfl : row = ⟨[0x6B], .nested 1⟩ := List.mem_singleton.mp hrow
    obtain rfl : 1 = j := RowShape.nested.inj hshape
    -- the second plan has no nested row
    obtain rfl : row' = ⟨[0x6C], .scalar⟩ := List.mem_singleton.mp hrow'
    simp at hshape'

end Teptris
