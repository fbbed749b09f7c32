import Teptris.Plan.Calls

/-!
# What is read of a plan

The places of the offsets and of the rows that the depth gate, the walk and the row accessors
read.  The build copies the offsets as they are given, so that a range of rows may end behind the
last row or before its own start; and the accessors read the offset of a plan before they check
its index.
-/

namespace Teptris

/-! ## Reads -/

/-- A read of an array of a plan. -/
inductive PlanRead where
  /-- `first_row[idx]`. -/
  | offset (idx : ℕ)
  /-- `rows[idx]`. -/
  | row (idx : ℕ)

/-- The plan has what is read: `plan_count + 1` offsets, and its rows. -/
def PlanRead.Inside (p : Plan) : PlanRead → Prop
  | .offset idx => idx ≤ p.planCount.toNat ∧ idx < p.firstRow.length
  | .row idx => idx < p.rows.length

lemma PlanRead.inside_offset {p : Plan} {idx : ℕ} :
    (offset idx).Inside p ↔ idx ≤ p.planCount.toNat ∧ idx < p.firstRow.length := Iff.rfl

lemma PlanRead.inside_row {p : Plan} {idx : ℕ} : (row idx).Inside p ↔ idx < p.rows.length :=
  Iff.rfl

namespace Plan

/-- The reads of a loop from `first_row[idx]` to `first_row[idx + 1]`. -/
def rangeReads (p : Plan) (idx : ℕ) : List PlanRead :=
  .offset idx :: .offset (idx + 1) ::
    match p.firstRow[idx]?, p.firstRow[idx + 1]? with
    | some lo, some hi => (List.range' lo.toNat (hi.toNat - lo.toNat)).map .row
    | _, _ => []

/-- The reads of the depth gate. -/
def gateReads (p : Plan) : List PlanRead :=
  (List.range p.planCount.toNat).flatMap p.rangeReads

/-- The reads of `teptris_plan_walk`. -/
def walkReads (p : Plan) (node : Node) : List PlanRead :=
  (planWalkCalls p node).flatMap fun c => p.rangeReads c.planIdx

/-- The row of `teptris_plan_row_kind_at` and its kin, `none` where they give up; the offset is
read before the plan index is checked. -/
def rowAt (p : Plan) (planIdx row : UInt32) : Except PlanFault (Option CopiedRow) :=
  match p.firstRow[planIdx.toNat]? with
  | none => .error .outside
  | some lo =>
    if p.planCount ≤ planIdx then .ok none
    else
      match p.firstRow[planIdx.toNat + 1]? with
      | none => .error .outside
      | some hi =>
        if hi - lo ≤ row then .ok none
        else
          match p.rows[(lo + row).toNat]? with
          | none => .error .outside
          | some r => .ok (some r)

/-- `teptris_plan_row_kind_at`. -/
def rowKindAt (p : Plan) (planIdx row : UInt32) : Except PlanFault UInt8 :=
  (p.rowAt planIdx row).map fun r => r.elim 0 CopiedRow.kind

/-- `teptris_plan_row_sub_at`. -/
def rowSubAt (p : Plan) (planIdx row : UInt32) : Except PlanFault UInt32 :=
  (p.rowAt planIdx row).map fun r => r.elim 0 CopiedRow.sub

/-- `teptris_plan_row_name_at`; `none` is a null pointer. -/
def rowNameAt (p : Plan) (planIdx row : UInt32) : Except PlanFault (Option Bytes) :=
  (p.rowAt planIdx row).map fun r => r.map CopiedRow.name

/-- The reads of an accessor. -/
def accessorReads (p : Plan) (planIdx row : UInt32) : List PlanRead :=
  .offset planIdx.toNat ::
    match p.firstRow[planIdx.toNat]? with
    | none => []
    | some lo =>
      if p.planCount ≤ planIdx then []
      else
        .offset (planIdx.toNat + 1) ::
          match p.firstRow[planIdx.toNat + 1]? with
          | none => []
          | some hi => if hi - lo ≤ row then [] else [.row (lo + row).toNat]

end Plan

namespace PlanSpec

/-- The plan that `teptris_plan_build` has copied when the depth gate starts. -/
def copied (spec : PlanSpec) : Except PlanFault Plan :=
  if spec.abiVersion ≠ planAbiVersion ∨ spec.planCount = 0 then .error (.status .errArg)
  else
    match spec.plans, spec.planFirstRow with
    | some plans, some first =>
      match first[spec.planCount.toNat]? with
      | none => .error .outside
      | some rowTotal =>
        match copyRows spec.planCount rowTotal.toNat plans with
        | .error e => .error e
        | .ok rows => .ok ⟨spec.planCount, first.take (spec.planCount + 1).toNat, rows⟩
    | _, _ => .error (.status .errArg)

/-- The build copies the plan and nothing in it turns the specification away.  The depth gate may
have read outside the arrays, which the source does not notice. -/
def Accepted (spec : PlanSpec) (p : Plan) : Prop :=
  spec.copied = .ok p ∧ ∀ st, planBuild spec ≠ .error (.status st)

/-- An offset. -/
def offset (spec : PlanSpec) (idx : ℕ) : UInt32 := (spec.planFirstRow.getD []).getD idx 0

/-- No plan has a row behind the last one. -/
def RangesEnd (spec : PlanSpec) : Prop :=
  ∀ idx < spec.planCount.toNat, spec.offset idx < spec.offset (idx + 1) →
    spec.offset (idx + 1) ≤ spec.offset spec.planCount.toNat

/-- Where the offsets of a plan descend, the row of an accessor is caught by the wrapped length,
or the wrapped sum is a row. -/
def RowCaught (spec : PlanSpec) (planIdx row : UInt32) : Prop :=
  spec.offset (planIdx.toNat + 1) < spec.offset planIdx.toNat →
    row < spec.offset (planIdx.toNat + 1) - spec.offset planIdx.toNat →
      spec.offset planIdx.toNat + row < spec.offset spec.planCount.toNat

end PlanSpec

/-! ## The copied plan -/

section Copied

variable {spec : PlanSpec} {p : Plan}

/-- The build is the copy and the depth gate. -/
lemma planBuild_of_copied (h : spec.copied = .ok p) :
    planBuild spec =
      match relaxPlans p p.planCount.toNat 0 (List.replicate p.planCount.toNat 0) with
      | none => .error .outside
      | some depths =>
        if depths.any fun d => planMaxDepth < d then .error (.status .errArg) else .ok p := by
  rw [PlanSpec.copied] at h
  split_ifs at h with hhead
  split at h
  swap
  · simp at h
  next plans first hplans hfirst =>
  split at h
  · simp at h
  next rowTotal htotal =>
  split at h
  · simp at h
  next rows hcopy =>
  obtain rfl := Except.ok.inj h
  rw [planBuild, if_neg hhead, hplans, hfirst]
  dsimp only
  rw [htotal]
  dsimp only
  rw [hcopy] <;> rfl

/-- The copying loop copies as many rows as it is asked for. -/
lemma length_copyRows {count : UInt32} {n : ℕ} {rs : List PlanRow} {rows : List CopiedRow}
    (h : copyRows count n rs = .ok rows) : rows.length = n := by
  induction n generalizing rs rows with
  | zero =>
    obtain rfl : [] = rows := by simpa [copyRows] using h
    rfl
  | succ n ih =>
    cases rs with
    | nil => simp [copyRows] at h
    | cons r rs =>
      rw [copyRows] at h
      split at h
      · simp at h
      split at h
      · simp at h
      next rows' hrows =>
      obtain rfl := Except.ok.inj h
      rw [List.length_cons, ih hrows]

/-- What the copied plan has. -/
lemma copied_spec (h : spec.copied = .ok p) :
    p.planCount = spec.planCount ∧ 0 < spec.planCount.toNat ∧
      p.rows.length = (spec.offset spec.planCount.toNat).toNat ∧
      p.firstRow.length = (spec.planCount + 1).toNat ∧
      ∀ idx < (spec.planCount + 1).toNat, p.firstRow[idx]? = some (spec.offset idx) := by
  rw [PlanSpec.copied] at h
  split_ifs at h with hhead
  push Not at hhead
  split at h
  swap
  · simp at h
  next plans first hplans hfirst =>
  split at h
  · simp at h
  next rowTotal htotal =>
  split at h
  · simp at h
  next rows hcopy =>
  obtain rfl := Except.ok.inj h
  obtain ⟨hlt, -⟩ := List.getElem?_eq_some_iff.mp htotal
  have hwrap : (spec.planCount + 1).toNat ≤ spec.planCount.toNat + 1 := by
    rw [UInt32.toNat_add, UInt32.toNat_one]
    exact Nat.mod_le _ _
  have hpos : 0 < spec.planCount.toNat := by
    rw [Nat.pos_iff_ne_zero]
    exact fun h0 => hhead.2 (UInt32.toNat_inj.mp h0)
  have hrows : rows.length = rowTotal.toNat := length_copyRows hcopy
  refine ⟨rfl, hpos, ?_, ?_, fun idx hidx => ?_⟩
  · rw [PlanSpec.offset, hfirst, Option.getD_some, List.getD_eq_getElem?_getD, htotal,
      Option.getD_some, hrows]
  · rw [List.length_take]
    omega
  · rw [List.getElem?_take, if_pos hidx, PlanSpec.offset, hfirst, Option.getD_some,
      List.getD_eq_getElem?_getD, List.getElem?_eq_getElem (by omega), Option.getD_some]

/-- The number of copied offsets, unless it wraps. -/
lemma length_offsets (h : spec.planCount ≠ 4294967295) :
    (spec.planCount + 1).toNat = spec.planCount.toNat + 1 := by
  have hne : spec.planCount.toNat ≠ 4294967295 := fun heq => h (UInt32.toNat_inj.mp heq)
  have := spec.planCount.toNat_lt
  rw [UInt32.toNat_add, UInt32.toNat_one, Nat.mod_eq_of_lt (by omega)]

end Copied

/-! ## What the consumers read -/

section Consumers

variable {spec : PlanSpec} {p : Plan}

/-- A range is read where both of its offsets are there and its rows end in time. -/
lemma rangeReads_inside_iff {idx : ℕ} {lo hi : UInt32} (hidx : idx < p.planCount.toNat)
    (hlo : p.firstRow[idx]? = some lo) (hhi : p.firstRow[idx + 1]? = some hi) :
    (∀ r ∈ p.rangeReads idx, r.Inside p) ↔ (lo < hi → hi.toNat ≤ p.rows.length) := by
  have hloff := (List.getElem?_eq_some_iff.mp hlo).1
  have hhoff := (List.getElem?_eq_some_iff.mp hhi).1
  simp only [Plan.rangeReads, hlo, hhi, List.forall_mem_cons, List.forall_mem_map,
    List.mem_range'_1, PlanRead.inside_offset, PlanRead.inside_row, UInt32.lt_iff_toNat_lt]
  constructor
  · rintro ⟨-, -, hrows⟩ hlt
    have := hrows (hi.toNat - 1) (by omega)
    omega
  · intro hend
    exact ⟨⟨by omega, hloff⟩, ⟨by omega, hhoff⟩, fun i hi => by omega⟩

/-- Reads inside the plan find its rows. -/
lemma rowsOf_of_inside {idx : ℕ} (h : ∀ r ∈ p.rangeReads idx, r.Inside p) :
    (p.rowsOf idx).isSome = true := by
  have hlo := h (.offset idx) (by simp [Plan.rangeReads])
  have hhi := h (.offset (idx + 1)) (by simp [Plan.rangeReads])
  obtain ⟨lo, hlo'⟩ : ∃ lo, p.firstRow[idx]? = some lo := ⟨_, List.getElem?_eq_getElem hlo.2⟩
  obtain ⟨hi, hhi'⟩ : ∃ hi, p.firstRow[idx + 1]? = some hi :=
    ⟨_, List.getElem?_eq_getElem hhi.2⟩
  have hend := (rangeReads_inside_iff (by have := hhi.1; omega) hlo' hhi').mp h
  rw [Plan.rowsOf, hlo', hhi']
  dsimp only
  rcases Nat.lt_or_ge lo.toNat hi.toNat with hlt | hge
  · have := hend (UInt32.lt_iff_toNat_lt.mpr hlt)
    exact readRows_isSome (by omega)
  · rw [Nat.sub_eq_zero_of_le hge]
    rfl

/-- Rows that are found are read inside the plan. -/
lemma inside_of_rowsOf {idx : ℕ} (hidx : idx < p.planCount.toNat)
    (h : (p.rowsOf idx).isSome = true) : ∀ r ∈ p.rangeReads idx, r.Inside p := by
  obtain ⟨rows, hrows⟩ := Option.isSome_iff_exists.mp h
  obtain ⟨lo, hi, hlo, hhi, -, hlen⟩ := rowsOf_eq hrows
  refine (rangeReads_inside_iff hidx hlo hhi).mpr fun hlt => ?_
  have := UInt32.lt_iff_toNat_lt.mp hlt
  omega

/-- The depth gate reads inside the plan where no plan has a row behind the last one. -/
lemma gateReads_inside_iff (h : spec.copied = .ok p) :
    (∀ r ∈ p.gateReads, r.Inside p) ↔ spec.planCount ≠ 4294967295 ∧ spec.RangesEnd := by
  obtain ⟨hcount, hpos, hrows, hlen, hoffsets⟩ := copied_spec h
  simp only [Plan.gateReads, List.mem_flatMap, List.mem_range, forall_exists_index, and_imp]
  constructor
  · intro hin
    have hwrap : spec.planCount ≠ 4294967295 := by
      intro heq
      have hfirst := hin (.offset 0) 0 (hcount ▸ hpos) (by simp [Plan.rangeReads])
      have hnone : (spec.planCount + 1).toNat = 0 := by rw [heq]; rfl
      have := hfirst.2
      omega
    refine ⟨hwrap, fun idx hidx hlt => ?_⟩
    have hcounts := length_offsets hwrap
    have hin' : ∀ r ∈ p.rangeReads idx, r.Inside p := fun r hr => hin r idx (hcount ▸ hidx) hr
    rw [rangeReads_inside_iff (hcount ▸ hidx) (hoffsets idx (by omega))
      (hoffsets (idx + 1) (by omega))] at hin'
    rw [UInt32.le_iff_toNat_le, ← hrows]
    exact hin' hlt
  · rintro ⟨hwrap, hend⟩ r idx hidx hr
    have hcounts := length_offsets hwrap
    rw [hcount] at hidx
    refine (rangeReads_inside_iff (hcount ▸ hidx) (hoffsets idx (by omega))
      (hoffsets (idx + 1) (by omega))).mpr (fun hlt => ?_) r hr
    rw [hrows]
    exact UInt32.le_iff_toNat_le.mp (hend idx hidx hlt)

/-- An accepted specification whose gate reads inside the plan is built. -/
lemma planBuild_of_inside (h : spec.Accepted p) (hin : ∀ r ∈ p.gateReads, r.Inside p) :
    planBuild spec = .ok p := by
  have hbuild := planBuild_of_copied h.1
  have hsome : (relaxPlans p p.planCount.toNat 0
      (List.replicate p.planCount.toNat 0)).isSome = true := by
    refine relaxPlans_isSome fun i _ hi => rowsOf_of_inside fun r hr => hin r ?_
    exact List.mem_flatMap.mpr ⟨i, List.mem_range.mpr (by omega), hr⟩
  obtain ⟨depths, hdepths⟩ := Option.isSome_iff_exists.mp hsome
  rw [hdepths] at hbuild
  dsimp only at hbuild
  split_ifs at hbuild
  · exact absurd hbuild (h.2 _)
  · exact hbuild

/-- The walk reads only what the depth gate has read. -/
lemma walkReads_inside (h : spec.Accepted p) (hin : ∀ r ∈ p.gateReads, r.Inside p) (node : Node) :
    ∀ r ∈ p.walkReads node, r.Inside p := by
  have hc := planBuild_rows (planBuild_of_inside h hin)
  intro r hr
  obtain ⟨c, hcall, hr⟩ := List.mem_flatMap.mp hr
  obtain ⟨path, hchain, -, hidx⟩ := from_planWalkCalls hc hcall
  have hlt := chain_lt hc hc.pos hchain c.planIdx hidx
  exact hin r (List.mem_flatMap.mpr ⟨c.planIdx, List.mem_range.mpr hlt, hr⟩)

/-- A row below the length of an ascending range lies in the range. -/
lemma ascending_row_lt {lo hi row total : UInt32} (hle : lo ≤ hi) (hrow : row < hi - lo)
    (hend : lo < hi → hi ≤ total) : lo + row < total := by
  rw [UInt32.lt_iff_toNat_lt, UInt32.toNat_sub_of_le _ _ hle] at hrow
  rw [UInt32.le_iff_toNat_le] at hle hend
  rw [UInt32.lt_iff_toNat_lt] at hend ⊢
  have := hi.toNat_lt
  rw [UInt32.toNat_add, Nat.mod_eq_of_lt (by omega)]
  have := hend (by omega)
  omega

/-- An accessor reads inside the plan where the plan index is at most the plan count, and a row
of a descending range is caught. -/
lemma accessorReads_inside_iff (h : spec.copied = .ok p) (hwrap : spec.planCount ≠ 4294967295)
    (hend : spec.RangesEnd) (planIdx row : UInt32) :
    (∀ r ∈ p.accessorReads planIdx row, r.Inside p) ↔
      planIdx ≤ spec.planCount ∧ (planIdx < spec.planCount → spec.RowCaught planIdx row) := by
  obtain ⟨hcount, hpos, hrows, hlen, hoffsets⟩ := copied_spec h
  have hcounts := length_offsets hwrap
  simp only [Plan.accessorReads, List.forall_mem_cons, PlanRead.inside_offset, hcount]
  by_cases hle : planIdx ≤ spec.planCount
  swap
  · exact iff_of_false (fun hin => hle (UInt32.le_iff_toNat_le.mpr hin.1.1)) fun hc => hle hc.1
  have hle' := UInt32.le_iff_toNat_le.mp hle
  rw [hoffsets _ (by omega)]
  dsimp only
  by_cases hlast : spec.planCount ≤ planIdx
  · have hnot : ¬ planIdx < spec.planCount := UInt32.not_lt.mpr hlast
    rw [if_pos hlast]
    exact iff_of_true ⟨⟨hle', by omega⟩, fun r hr => absurd hr List.not_mem_nil⟩
      ⟨hle, fun hlt => absurd hlt hnot⟩
  have hlt := UInt32.not_le.mp hlast
  have hlt' := UInt32.lt_iff_toNat_lt.mp hlt
  rw [if_neg hlast, hoffsets _ (by omega), List.forall_mem_cons]
  dsimp only
  have hinside :
      (∀ r ∈ (if spec.offset (planIdx.toNat + 1) - spec.offset planIdx.toNat ≤ row then []
      else [PlanRead.row (spec.offset planIdx.toNat + row).toNat]), r.Inside p) ↔
        spec.RowCaught planIdx row := by
    rw [PlanSpec.RowCaught]
    split_ifs with hlong
    · simp [UInt32.not_lt.mpr hlong]
    have hshort := UInt32.not_le.mp hlong
    rw [List.forall_mem_singleton, PlanRead.inside_row, hrows, ← UInt32.lt_iff_toNat_lt]
    by_cases hdown : spec.offset (planIdx.toNat + 1) < spec.offset planIdx.toNat
    · exact ⟨fun hin _ _ => hin, fun hin => hin hdown hshort⟩
    · exact iff_of_true (ascending_row_lt (UInt32.not_lt.mp hdown) hshort
        (hend planIdx.toNat hlt')) fun hc => absurd hc hdown
  rw [hinside, PlanRead.inside_offset, hcount]
  constructor
  · exact fun hin => ⟨hle, fun _ => hin.2.2⟩
  · exact fun hin => ⟨⟨by omega, by omega⟩, ⟨by omega, by omega⟩, hin.2 hlt⟩

/-- The row an accessor looks at is there exactly where its reads are. -/
lemma rowAt_ne_outside_iff (h : spec.copied = .ok p) (planIdx row : UInt32) :
    p.rowAt planIdx row ≠ .error .outside ↔ ∀ r ∈ p.accessorReads planIdx row, r.Inside p := by
  obtain ⟨hcount, -, -, hlen, -⟩ := copied_spec h
  have hwrap : (spec.planCount + 1).toNat ≤ spec.planCount.toNat + 1 := by
    rw [UInt32.toNat_add, UInt32.toNat_one]
    exact Nat.mod_le _ _
  have hoffset : ∀ idx, p.firstRow[idx]? = none ↔ ¬ (PlanRead.offset idx).Inside p := by
    intro idx
    rw [PlanRead.inside_offset, List.getElem?_eq_none_iff, hcount]
    omega
  rw [Plan.rowAt, Plan.accessorReads, List.forall_mem_cons]
  cases hlo : p.firstRow[planIdx.toNat]? with
  | none => exact iff_of_false (not_not.mpr rfl) fun hin => (hoffset _).mp hlo hin.1
  | some lo =>
    have hlo' : (PlanRead.offset planIdx.toNat).Inside p :=
      not_not.mp fun hc => by simp [(hoffset _).mpr hc] at hlo
    dsimp only
    split_ifs with hlast
    · exact iff_of_true (by simp) ⟨hlo', fun r hr => absurd hr List.not_mem_nil⟩
    rw [List.forall_mem_cons]
    cases hhi : p.firstRow[planIdx.toNat + 1]? with
    | none => exact iff_of_false (not_not.mpr rfl) fun hin => (hoffset _).mp hhi hin.2.1
    | some hi =>
      have hhi' : (PlanRead.offset (planIdx.toNat + 1)).Inside p :=
        not_not.mp fun hc => by simp [(hoffset _).mpr hc] at hhi
      dsimp only
      split_ifs with hlong
      · exact iff_of_true (by simp) ⟨hlo', hhi', fun r hr => absurd hr List.not_mem_nil⟩
      rw [List.forall_mem_singleton, PlanRead.inside_row]
      cases hrow : p.rows[(lo + row).toNat]? with
      | none =>
        exact iff_of_false (not_not.mpr rfl) fun hin =>
          Nat.not_lt.mpr (List.getElem?_eq_none_iff.mp hrow) hin.2.2
      | some r => exact iff_of_true (by simp) ⟨hlo', hhi', (List.getElem?_eq_some_iff.mp hrow).1⟩

/-- The depth gate goes through exactly where its reads are there. -/
lemma planBuild_ne_outside_iff (h : spec.copied = .ok p) :
    planBuild spec ≠ .error .outside ↔ ∀ r ∈ p.gateReads, r.Inside p := by
  constructor
  · intro hbuild
    rw [planBuild_of_copied h] at hbuild
    cases hdepths : relaxPlans p p.planCount.toNat 0 (List.replicate p.planCount.toNat 0) with
    | none => simp [hdepths] at hbuild
    | some depths =>
      intro r hr
      obtain ⟨idx, hidx, hr⟩ := List.mem_flatMap.mp hr
      have hsome := relaxPlans_rows hdepths idx (Nat.zero_le _)
        (by simpa using List.mem_range.mp hidx)
      exact inside_of_rowsOf (List.mem_range.mp hidx) hsome r hr
  · intro hin hout
    by_cases hst : ∃ st, planBuild spec = .error (.status st)
    · obtain ⟨st, hst⟩ := hst
      simp [hst] at hout
    · rw [planBuild_of_inside ⟨h, fun st hc => hst ⟨st, hc⟩⟩ hin] at hout
      simp at hout

end Consumers

/-- Every read of the gate, of the walk of a document and of an accessor is inside the plan
exactly where the offsets are counted without wrapping, no plan has a row behind the last one,
the plan index is at most the plan count, and a row of a descending range is caught. -/
theorem plan_reads_inside_iff {spec : PlanSpec} {p : Plan} (h : spec.Accepted p) (node : Node)
    (planIdx row : UInt32) :
    (∀ r ∈ p.gateReads ++ p.walkReads node ++ p.accessorReads planIdx row, r.Inside p) ↔
      (spec.planCount ≠ 4294967295 ∧ spec.RangesEnd) ∧
        planIdx ≤ spec.planCount ∧ (planIdx < spec.planCount → spec.RowCaught planIdx row) := by
  rw [List.forall_mem_append, List.forall_mem_append]
  constructor
  · rintro ⟨⟨hgate, -⟩, haccess⟩
    have hends := (gateReads_inside_iff h.1).mp hgate
    exact ⟨hends, (accessorReads_inside_iff h.1 hends.1 hends.2 planIdx row).mp haccess⟩
  · rintro ⟨hends, haccess⟩
    have hgate := (gateReads_inside_iff h.1).mpr hends
    exact ⟨⟨hgate, walkReads_inside h hgate node⟩,
      (accessorReads_inside_iff h.1 hends.1 hends.2 planIdx row).mpr haccess⟩

/-- Behind the last plan of a built plan, an accessor reads an offset that is not there. -/
theorem plan_reads_outside :
    ∃ p, planBuild ⟨1, 1, some [⟨some [0x6B], planScalar, 0⟩], some [0, 1]⟩ = .ok p ∧
      ∃ r ∈ p.accessorReads 2 0, ¬ r.Inside p :=
  ⟨⟨1, [0, 1], [⟨[0x6B], planScalar, 0⟩]⟩, rfl, .offset 2, List.mem_cons_self, by
    rw [PlanRead.inside_offset]
    decide⟩

/-- The walks of two plans, and their first row, are read inside the plan. -/
theorem plan_reads_two_plans : twoPlans.Accepted twoPlansPlan ∧
    ∀ node : Node, ∀ r ∈ twoPlansPlan.gateReads ++ twoPlansPlan.walkReads node ++
      twoPlansPlan.accessorReads 0 0, r.Inside twoPlansPlan := by
  have haccepted : twoPlans.Accepted twoPlansPlan :=
    ⟨rfl, fun st hst => by simp [planBuild_twoPlans] at hst⟩
  have hends : twoPlans.RangesEnd := fun idx hidx _ =>
    match idx, hidx with
    | 0, _ => by decide
    | 1, _ => by decide
  exact ⟨haccepted, fun node => (plan_reads_inside_iff haccepted node 0 0).mpr
    ⟨⟨by decide, hends⟩, by decide, fun _ hdown => absurd hdown (by decide)⟩⟩

end Teptris
