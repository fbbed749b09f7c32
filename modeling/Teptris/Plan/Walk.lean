import Teptris.Plan.Projection

/-!
# The walk carries out the projection

A plan that was built has, for each sub-plan of its specification, the rows of that sub-plan
(`planBuild_rows`).  From there the walk and the projection are compared by recursion on the
document: they agree below a node exactly where the arrays below it are short
(`walkValue_eq_iff`), and on a short projection every accessor reads what the projection says
(`accessors_rnode`).
-/

namespace Teptris

/-! ## Rows of a built plan -/

/-- What a copied row asks for. -/
def CopiedRow.spec (r : CopiedRow) : RowSpec := ⟨r.name, shapeOf r.kind r.sub⟩

/-- The plan a row names is one of the plans. -/
def CopiedRow.Within (count : ℕ) (r : CopiedRow) : Prop := r.kind = planNested → r.sub.toNat < count

lemma copyRow_spec {count : UInt32} {r : PlanRow} {row : CopiedRow}
    (h : copyRow count r = .ok row) : row.spec = r.spec ∧ row.Within count.toNat := by
  rw [copyRow] at h
  split at h
  · simp at h
  next name hname =>
  split_ifs at h with hbad
  obtain rfl := Except.ok.inj h
  refine ⟨by simp [CopiedRow.spec, PlanRow.spec, hname], fun hkind => ?_⟩
  push Not at hbad
  exact UInt32.lt_iff_toNat_lt.mp (UInt32.not_le.mp (hbad.2.2.2 hkind))

/-- The copied rows are the first rows of the specification. -/
lemma copyRows_spec {count : UInt32} {n : ℕ} {rs : List PlanRow} {rows : List CopiedRow}
    (h : copyRows count n rs = .ok rows) :
    rows.map CopiedRow.spec = (rs.take n).map PlanRow.spec ∧
      ∀ row ∈ rows, row.Within count.toNat := by
  induction n generalizing rs rows with
  | zero =>
    obtain rfl : [] = rows := by simpa [copyRows] using h
    simp
  | succ n ih =>
    cases rs with
    | nil => simp [copyRows] at h
    | cons r rs =>
      rw [copyRows] at h
      split at h
      · simp at h
      next row hrow =>
      split at h
      · simp at h
      next rows' hrows =>
      obtain rfl := Except.ok.inj h
      obtain ⟨hspec, hwithin⟩ := copyRow_spec hrow
      obtain ⟨hspecs, hall⟩ := ih hrows
      refine ⟨by simp [hspec, hspecs], ?_⟩
      intro row' hrow'
      rcases List.mem_cons.mp hrow' with rfl | hrow'
      · exact hwithin
      · exact hall row' hrow'

/-- A reading loop that stays inside the rows reads a part of them. -/
lemma readRows_eq {rows rs : List CopiedRow} {lo n : ℕ} (h : readRows rows lo n = some rs) :
    rs = (rows.drop lo).take n ∧ n ≤ rows.length - lo := by
  induction n generalizing lo rs with
  | zero =>
    obtain rfl : [] = rs := by simpa [readRows] using h
    simp
  | succ n ih =>
    rw [readRows] at h
    split at h
    · simp at h
    next r hr =>
    obtain ⟨rs', hrs, rfl⟩ := Option.map_eq_some_iff.mp h
    obtain ⟨hlt, rfl⟩ := List.getElem?_eq_some_iff.mp hr
    obtain ⟨rfl, hlen⟩ := ih hrs
    rw [List.drop_eq_getElem_cons hlt, List.take_succ_cons]
    exact ⟨rfl, by omega⟩

/-- The rows of a plan lie between its offset and the next one. -/
lemma rowsOf_eq {p : Plan} {idx : ℕ} {rs : List CopiedRow} (h : p.rowsOf idx = some rs) :
    ∃ lo hi, p.firstRow[idx]? = some lo ∧ p.firstRow[idx + 1]? = some hi ∧
      rs = (p.rows.drop lo.toNat).take (hi.toNat - lo.toNat) ∧
      hi.toNat - lo.toNat ≤ p.rows.length - lo.toNat := by
  rw [Plan.rowsOf] at h
  split at h
  next lo hi hlo hhi => exact ⟨lo, hi, hlo, hhi, readRows_eq h⟩
  · simp at h

/-- A range inside the rows is read. -/
lemma readRows_isSome {rows : List CopiedRow} {lo n : ℕ} (h : lo + n ≤ rows.length) :
    (readRows rows lo n).isSome = true := by
  induction n generalizing lo with
  | zero => rfl
  | succ n ih =>
    rw [readRows, List.getElem?_eq_getElem (by omega)]
    simpa using ih (by omega)

/-- The depth gate reads the rows of every plan it passes. -/
lemma relaxPlans_rows {p : Plan} {n idx : ℕ} {depths depths' : List ℕ}
    (h : relaxPlans p n idx depths = some depths') :
    ∀ i, idx ≤ i → i < idx + n → (p.rowsOf i).isSome = true := by
  induction n generalizing idx depths with
  | zero => intro i hi hlt; omega
  | succ n ih =>
    rw [relaxPlans] at h
    split at h
    · simp at h
    next rows hrows =>
    intro i hi hlt
    rcases Nat.eq_or_lt_of_le hi with rfl | hlt'
    · rw [hrows]
      rfl
    · exact ih h i hlt' (by omega)

/-- What a built plan knows about its specification. -/
structure Plan.Copies (p : Plan) (spec : PlanSpec) : Prop where
  /-- There is a plan. -/
  pos : 0 < p.planCount.toNat
  /-- Each plan has the rows of its sub-plan. -/
  rows : ∀ idx < p.planCount.toNat, ∃ rows, p.rowsOf idx = some rows ∧
    rows.map CopiedRow.spec = spec.subPlans idx ∧ ∀ row ∈ rows, row.Within p.planCount.toNat

/-- A built plan has the rows of its specification. -/
lemma planBuild_rows {spec : PlanSpec} {p : Plan} (h : planBuild spec = .ok p) :
    p.Copies spec := by
  rw [planBuild] at h
  split_ifs at h with hhead
  push Not at hhead
  split at h
  swap
  · simp at h
  next plans first hplans hfirst =>
  split at h
  · simp at h
  next rowTotal htotal =>
  split at h
  · simp at h
  next rows hcopy =>
  dsimp only at h
  split at h
  · simp at h
  next depths hdepths =>
  split_ifs at h with hdeep
  obtain rfl := Except.ok.inj h
  obtain ⟨hspec, hwithin⟩ := copyRows_spec hcopy
  have hpos : 0 < spec.planCount.toNat := by
    rw [Nat.pos_iff_ne_zero]
    exact fun h0 => hhead.2 (UInt32.toNat_inj.mp h0)
  refine ⟨hpos, fun idx hidx => ?_⟩
  obtain ⟨rs, hrs⟩ := Option.isSome_iff_exists.mp (relaxPlans_rows hdepths idx (Nat.zero_le _)
    (by simpa using hidx))
  obtain ⟨lo, hi, hlo, hhi, rfl, hlen⟩ := rowsOf_eq hrs
  refine ⟨_, hrs, ?_, fun row hrow =>
    hwithin row (List.mem_of_mem_drop (List.mem_of_mem_take hrow))⟩
  rw [List.getElem?_take] at hlo hhi
  split_ifs at hlo hhi
  have hrows : rows.length ≤ rowTotal.toNat := by
    have := congrArg List.length hspec
    rw [List.length_map, List.length_map, List.length_take] at this
    omega
  -- the copied rows are a prefix of the given ones, and the range lies in it
  rw [List.map_take, List.map_drop, hspec, PlanSpec.subPlans, hplans, hfirst]
  simp only [Option.getD_some, List.getD_eq_getElem?_getD, hlo, hhi]
  rw [← List.map_drop, ← List.map_take, List.drop_take, List.take_take,
    Nat.min_eq_left (by dsimp only at hlen; omega)]

/-- The copying loop stays inside rows that are long enough. -/
lemma copyRows_inside {count : UInt32} {n : ℕ} {rs : List PlanRow} (hlen : n ≤ rs.length) :
    copyRows count n rs ≠ .error .outside := by
  induction n generalizing rs with
  | zero => simp [copyRows]
  | succ n ih =>
    cases rs with
    | nil => simp at hlen
    | cons r rs =>
      have hrow : copyRow count r ≠ .error .outside := by
        rw [copyRow]
        split
        · simp
        · split_ifs <;> simp
      have hrest := ih (Nat.le_of_succ_le_succ hlen)
      rw [copyRows]
      split
      next e he =>
        rintro ⟨⟩
        exact hrow he
      split
      next e he =>
        rintro ⟨⟩
        exact hrest he
      · simp

/-- Ascending offsets that end at the number of rows delimit ranges of rows. -/
lemma rowsOf_isSome {p : Plan} (hasc : p.firstRow.Pairwise (· ≤ ·)) {n : ℕ}
    (hlen : p.firstRow.length = n + 1)
    (hlast : ∀ x, p.firstRow[n]? = some x → x.toNat ≤ p.rows.length) {idx : ℕ} (hidx : idx < n) :
    (p.rowsOf idx).isSome = true := by
  have hlo : p.firstRow[idx]? = some p.firstRow[idx] := List.getElem?_eq_getElem (by omega)
  have hhi : p.firstRow[idx + 1]? = some p.firstRow[idx + 1] :=
    List.getElem?_eq_getElem (by omega)
  rw [Plan.rowsOf, hlo, hhi]
  apply readRows_isSome
  have hstep : p.firstRow[idx].toNat ≤ p.firstRow[idx + 1].toNat :=
    UInt32.le_iff_toNat_le.mp (List.pairwise_iff_getElem.mp hasc idx (idx + 1) _ _ (by omega))
  have hend : p.firstRow[idx + 1].toNat ≤ p.rows.length := by
    have hn := hlast p.firstRow[n] (List.getElem?_eq_getElem (by omega))
    rcases Nat.eq_or_lt_of_le (show idx + 1 ≤ n by omega) with rfl | hlt
    · exact hn
    · exact Nat.le_trans (UInt32.le_iff_toNat_le.mp
        (List.pairwise_iff_getElem.mp hasc (idx + 1) n (by omega) (by omega) hlt)) hn
  omega

/-- The depth gate reads what the plans have. -/
lemma relaxPlans_isSome {p : Plan} {n idx : ℕ} {depths : List ℕ}
    (h : ∀ i, idx ≤ i → i < idx + n → (p.rowsOf i).isSome = true) :
    (relaxPlans p n idx depths).isSome = true := by
  induction n generalizing idx depths with
  | zero => rfl
  | succ n ih =>
    obtain ⟨rows, hrows⟩ := Option.isSome_iff_exists.mp (h idx (Nat.le_refl _) (by omega))
    rw [relaxPlans, hrows]
    exact ih fun i hi hlt => h i (by omega) (by omega)

/-- With ascending offsets and arrays as long as documented, building a plan reads only inside
them, unless the number of offsets wraps. -/
theorem planBuild_inside {spec : PlanSpec} (hasc : spec.Ascending) (hdoc : spec.Documented)
    (hwrap : spec.planCount ≠ 4294967295) : planBuild spec ≠ .error .outside := by
  rw [planBuild]
  split_ifs
  · simp
  split
  swap
  · simp
  next plans first hplans hfirst =>
  have hlen := hdoc.offsets first hfirst
  have hrows := hdoc.rows plans first hplans hfirst
  rw [PlanSpec.Ascending, hfirst, Option.getD_some] at hasc
  have hin : spec.planCount.toNat < first.length := by omega
  have hlast : first[spec.planCount.toNat]? = some first[spec.planCount.toNat] :=
    List.getElem?_eq_getElem hin
  rw [List.getD_eq_getElem?_getD, hlast, Option.getD_some] at hrows
  rw [hlast]
  dsimp only
  split
  next e he =>
    rintro ⟨⟩
    exact copyRows_inside (by omega) he
  next rows hcopy =>
  have hcount : (spec.planCount + 1).toNat = first.length := by
    have hne : spec.planCount.toNat ≠ 4294967295 := fun h => hwrap (UInt32.toNat_inj.mp h)
    have := spec.planCount.toNat_lt
    rw [hlen, UInt32.toNat_add, UInt32.toNat_one, Nat.mod_eq_of_lt (by omega)]
  have hrowLen : rows.length = first[spec.planCount.toNat].toNat := by
    have := congrArg List.length (copyRows_spec hcopy).1
    rw [List.length_map, List.length_map, List.length_take] at this
    omega
  have hgate : ∀ depths, (relaxPlans ⟨spec.planCount, first.take (spec.planCount + 1).toNat, rows⟩
      spec.planCount.toNat 0 depths).isSome = true := by
    intro depths
    apply relaxPlans_isSome
    intro i _ hi
    rw [hcount, List.take_length]
    refine rowsOf_isSome hasc hlen ?_ (by omega)
    intro x hx
    obtain rfl := Option.some.inj (hlast.symm.trans hx)
    exact Nat.le_of_eq hrowLen.symm
  split
  next hnone =>
    have hsome := hgate (List.replicate spec.planCount.toNat 0)
    rw [hnone] at hsome
    simp at hsome
  · split_ifs <;> simp

/-! ## Values -/

namespace RNode

/-- A result array is the whole one exactly where its length survives the cast. -/
lemma array_eq_iff {v : Node} {length : ℕ} {kids ks : List RNode} (hkids : kids.length = length)
    (hks : ks.length = length) :
    RNode.array v length kids = .mk 2 (some v) ks (UInt32.ofNat length) ↔
      length < 2 ^ 32 ∧ kids = ks := by
  have hcast : (UInt32.ofNat length).toNat = length % 2 ^ 32 := UInt32.toNat_ofNat'
  simp only [RNode.array, RNode.mk.injEq, true_and, and_true, hcast]
  constructor
  · intro h
    have hlen := congrArg List.length h
    rw [List.length_take, hkids, hks] at hlen
    have hlt : length < 2 ^ 32 := by omega
    rw [Nat.mod_eq_of_lt hlt, ← hkids, List.take_length] at h
    exact ⟨hlt, h⟩
  · rintro ⟨hlt, rfl⟩
    rw [Nat.mod_eq_of_lt hlt, ← hkids, List.take_length]

/-- A result table is its rows. -/
lemma table_eq_iff {v : Node} {kids ks : List RNode} (hlen : kids.length = ks.length) :
    RNode.table v kids = .mk 3 (some v) ks (UInt32.ofNat ks.length) ↔ kids = ks := by
  simp [RNode.table, hlen]

end RNode

section Values

variable {p : Plan} {spec : PlanSpec}

/-- The rows of a plan and those of its sub-plan are compared row by row. -/
lemma rows_eq_iff (flag : TblFlag) (es : Entries) {rows : List CopiedRow}
    {specs : List RowSpec} (hspecs : rows.map CopiedRow.spec = specs)
    (hrow : ∀ row ∈ rows,
      (walkEntries p es row = (projectEntries spec.subPlans es row.spec).rnode ↔
        (projectEntries spec.subPlans es row.spec).Short)) :
    RNode.table (.table flag es) (rows.map (walkEntries p es)) =
        (Projection.table (.table flag es) (specs.map (projectEntries spec.subPlans es))).rnode ↔
      (Projection.table (.table flag es) (specs.map (projectEntries spec.subPlans es))).Short := by
  subst hspecs
  have hlen : (rows.map (walkEntries p es)).length =
      (Projection.rnodes ((rows.map CopiedRow.spec).map
        (projectEntries spec.subPlans es))).length := by
    simp [Projection.rnodes_eq]
  have hcount : ((rows.map CopiedRow.spec).map (projectEntries spec.subPlans es)).length =
      (Projection.rnodes ((rows.map CopiedRow.spec).map
        (projectEntries spec.subPlans es))).length := by
    simp [Projection.rnodes_eq]
  rw [Projection.rnode, Projection.Short, hcount, RNode.table_eq_iff hlen,
    Projection.rnodes_eq, Projection.allShort_iff]
  simp only [List.map_map, List.map_inj_left, Function.comp_apply, List.forall_mem_map]
  exact forall₂_congr hrow

@[simp] lemma rnode_missing : Projection.missing.rnode = .missing := by
  rw [Projection.rnode, RNode.missing]

/-- A scalar, or nothing, has no array. -/
lemma leaf_eq_iff (v : Node) :
    (if v.isContainer then RNode.missing else .scalar v) =
        (if v.isContainer then Projection.missing else .scalar v).rnode ∧
      (if v.isContainer then Projection.missing else .scalar v).Short := by
  split_ifs
  · exact ⟨rnode_missing.symm, trivial⟩
  · exact ⟨by rw [Projection.rnode, RNode.scalar], trivial⟩

/-- Elements of a collection are walked as projected. -/
lemma map_walkElement (items : List Node) :
    items.map walkElement = Projection.rnodes (items.map projectElement) ∧
      Projection.AllShort (items.map projectElement) := by
  rw [Projection.rnodes_eq, Projection.allShort_iff]
  refine ⟨?_, ?_⟩
  · rw [List.map_map]
    exact List.map_congr_left fun v _ => (leaf_eq_iff v).1
  · simp only [List.forall_mem_map]
    exact fun v _ => (leaf_eq_iff v).2

lemma length_walkItems (rows : List CopiedRow) (items : List Node) :
    (walkItems p items rows).length = items.length := by
  induction items with
  | nil => simp [walkItems]
  | cons v vs ih => cases v <;> simp [walkItems, ih]

lemma length_projectItems (plans : ℕ → List RowSpec) (rows : List RowSpec) (items : List Node) :
    (projectItems plans items rows).length = items.length := by
  induction items with
  | nil => simp [projectItems]
  | cons v vs ih => cases v <;> simp [projectItems, ih]

/-- A result array against a projected one. -/
lemma arrays_eq_iff {v : Node} {length : ℕ} {kids : List RNode} {qs : List Projection}
    (hkids : kids.length = length) (hqs : qs.length = length)
    (h : kids = Projection.rnodes qs ↔ Projection.AllShort qs) :
    RNode.array v length kids = (Projection.array v qs).rnode ↔ (Projection.array v qs).Short := by
  rw [Projection.rnode, Projection.Short, ← h, hqs]
  exact RNode.array_eq_iff hkids (by rw [Projection.rnodes_eq, List.length_map, hqs])

mutual

/-- A value is walked as projected exactly where the arrays asked for are short. -/
lemma walkValue_eq_iff (hc : p.Copies spec) : ∀ (v : Node) (row : CopiedRow),
    row.Within p.planCount.toNat →
      (walkValue p v row = (projectValue spec.subPlans v row.spec.shape).rnode ↔
        (projectValue spec.subPlans v row.spec.shape).Short)
  | v, row, hrow => by
    rw [walkValue.eq_def, CopiedRow.spec, shapeOf]
    by_cases hscalar : row.kind = planScalar
    · rw [if_pos hscalar, if_pos hscalar, projectValue]
      exact iff_of_true (leaf_eq_iff v).1 (leaf_eq_iff v).2
    rw [if_neg hscalar, if_neg hscalar]
    by_cases hcoll : row.kind = planCollection
    · rw [if_pos hcoll, if_pos hcoll]
      cases v with
      | array aot items =>
        rw [projectValue]
        obtain ⟨hmap, hshort⟩ := map_walkElement items
        exact arrays_eq_iff (List.length_map _) (List.length_map _) (iff_of_true hmap hshort)
      | string | integer | float | boolean | datetime | table =>
        simp [projectValue, Projection.Short]
    rw [if_neg hcoll, if_neg hcoll]
    by_cases hnested : row.kind = planNested
    · rw [if_pos hnested, if_pos hnested]
      obtain ⟨rows, hrows, hspecs, hwithin⟩ := hc.rows row.sub.toNat (hrow hnested)
      cases v with
      | array aot items =>
        rw [hrows, Option.getD_some, projectValue]
        exact arrays_eq_iff (length_walkItems rows items) (length_projectItems _ _ items)
          (walkItems_eq_iff hc items rows hspecs hwithin)
      | table flag es =>
        rw [hrows, Option.getD_some, projectValue, ← hspecs]
        exact rows_eq_iff flag es rfl fun row hr => walkEntries_eq_iff hc es row (hwithin row hr)
      | string | integer | float | boolean | datetime =>
        simp [projectValue, Projection.Short]
    · rw [if_neg hnested, if_neg hnested, projectValue, Projection.rnode, RNode.raw]
      exact iff_of_true rfl trivial

/-- So are the elements of an array of tables. -/
lemma walkItems_eq_iff (hc : p.Copies spec) : ∀ (items : List Node) (rows : List CopiedRow)
    {specs : List RowSpec}, rows.map CopiedRow.spec = specs →
      (∀ row ∈ rows, row.Within p.planCount.toNat) →
        (walkItems p items rows = Projection.rnodes (projectItems spec.subPlans items specs) ↔
          Projection.AllShort (projectItems spec.subPlans items specs))
  | [], rows, specs, _, _ => by
    simp [walkItems, projectItems, Projection.rnodes, Projection.AllShort]
  | v :: items, rows, specs, hspecs, hwithin => by
    have hrest := walkItems_eq_iff hc items rows hspecs hwithin
    cases v with
    | table flag es =>
      have hfirst := rows_eq_iff flag es hspecs fun row hr =>
        walkEntries_eq_iff hc es row (hwithin row hr)
      rw [walkItems, projectItems, Projection.rnodes, Projection.AllShort, List.cons.injEq,
        hfirst, hrest]
    | string | integer | float | boolean | datetime | array =>
      rw [walkItems, projectItems, Projection.rnodes, Projection.AllShort, List.cons.injEq,
        hrest, rnode_missing]
      · simp [Projection.Short]
      all_goals simp

/-- So is the value of a key. -/
lemma walkEntries_eq_iff (hc : p.Copies spec) : ∀ (es : List (Key × Node)) (row : CopiedRow),
    row.Within p.planCount.toNat →
      (walkEntries p es row = (projectEntries spec.subPlans es row.spec).rnode ↔
        (projectEntries spec.subPlans es row.spec).Short)
  | [], row, _ => by
    simp [walkEntries, projectEntries, Projection.Short]
  | (k, v) :: es, row, hrow => by
    have hkey : k.same (.ofBytes row.name) = true ↔ k.bytes = row.spec.name := by
      rw [Key.same_iff, CopiedRow.spec]
      exact ⟨fun h => by rw [h, Key.ofBytes_bytes], fun h => Key.ext h⟩
    rw [walkEntries, projectEntries]
    by_cases h : k.bytes = row.spec.name
    · rw [if_pos (hkey.mpr h), if_pos h]
      exact walkValue_eq_iff hc v row hrow
    · rw [if_neg (fun hs => h (hkey.mp hs)), if_neg h]
      exact walkEntries_eq_iff hc es row hrow

end

/-- The walk of a table is its projection exactly where the arrays asked for are short. -/
lemma planWalk_eq_iff (hc : p.Copies spec) (t : Node) :
    planWalk p t = (projectTable spec.subPlans 0 t).rnode ↔
      (projectTable spec.subPlans 0 t).Short := by
  rw [planWalk]
  obtain ⟨rows, hrows, hspecs, hwithin⟩ := hc.rows 0 hc.pos
  cases t with
  | table flag es =>
    rw [walkTable, projectTable, hrows, Option.getD_some]
    exact rows_eq_iff flag es hspecs fun row hr => walkEntries_eq_iff hc es row (hwithin row hr)
  | string | integer | float | boolean | datetime | array =>
    simp [walkTable, projectTable, Projection.Short]

end Values

end Teptris
