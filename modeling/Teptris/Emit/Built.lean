import Teptris.Emit.Rendering
import Teptris.Emit.SameTree

/-!
# Built documents read back

A document assembled by builder calls, emitted and parsed again.
-/

namespace Teptris

/-! ## Datetimes -/

/-- What `datetime_ok` does not look at: the year is not negative, the month has the day, and
the offset is a number of minutes. -/
def Datetime.Calendar (kind : DtKind) (dt : Datetime) : Prop :=
  (kind ≠ .timeLocal → 0 ≤ dt.year.toInt ∧
    dt.day.toNat ≤ daysInMonth dt.year.toInt.toNat dt.month.toNat) ∧
  dt.offsetSeconds.toInt.natAbs % 60 = 0

section Datetimes

variable {kind : DtKind} {dt : Datetime}

/-- The fields of a date. -/
lemma exists_dateOk_iff (hyear : dt.year.toInt ≤ 9999)
    (hmonth : 1 ≤ dt.month.toNat ∧ dt.month.toNat ≤ 12)
    (hday : 1 ≤ dt.day.toNat) :
    (∃ y, dt.DateOk y) ↔ 0 ≤ dt.year.toInt ∧
      dt.day.toNat ≤ daysInMonth dt.year.toInt.toNat dt.month.toNat := by
  constructor
  · rintro ⟨y, ⟨hy, hle⟩, -, -, hlast⟩
    have hint : dt.year.toInt = y := by
      rw [hy, Int32.toInt_ofNat_of_lt (by omega)]
    rw [hint, Int.toNat_natCast]
    exact ⟨by omega, hlast⟩
  · rintro ⟨hpos, hlast⟩
    refine ⟨dt.year.toInt.toNat, ⟨?_, by omega⟩, hmonth, hday, hlast⟩
    rw [← Int32.toInt_inj, Int32.toInt_ofNat_of_lt (by omega), Int.toNat_of_nonneg hpos]

/-- The offset. -/
lemma offsetOk_iff (h : dt.offsetSeconds.toInt.natAbs ≤ 86399) :
    dt.OffsetOk ↔ dt.offsetSeconds.toInt.natAbs % 60 = 0 := by
  constructor
  · rintro ⟨oh, hoh, om, hom, heq | heq⟩
    · rw [heq, toInt_offset hoh hom]
      omega
    · rw [heq, toInt_neg_offset hoh hom]
      omega
  · intro hmin
    have hoh : dt.offsetSeconds.toInt.natAbs / 3600 ≤ 23 := by omega
    have hom : dt.offsetSeconds.toInt.natAbs % 3600 / 60 ≤ 59 := by omega
    refine ⟨_, hoh, _, hom, ?_⟩
    rcases le_total 0 dt.offsetSeconds.toInt with hpos | hneg
    · left
      rw [← Int32.toInt_inj, toInt_offset hoh hom]
      omega
    · right
      rw [← Int32.toInt_inj, toInt_neg_offset hoh hom]
      omega

/-- A datetime the builder takes is in range exactly when it is one of the calendar. -/
lemma ok_iff_calendar (h : datetimeOk kind dt = true) : dt.Ok kind ↔ dt.Calendar kind := by
  have hzero : (0 : Int32).toInt.natAbs % 60 = 0 := by decide
  rw [datetimeOk] at h
  split_ifs at h with hrange hlocal hdate hclock hoffset
  all_goals
    simp only [not_or, UInt8.not_lt, UInt32.not_lt, Int32.not_lt, UInt8.le_iff_toNat_le,
      UInt32.le_iff_toNat_le, Int32.le_iff_toInt_le] at hrange
    obtain ⟨hhour, hminute, hsecond, hnano, hlow, hhigh⟩ := hrange
    have htime : dt.TimeOk := ⟨hhour, hminute, hsecond, Nat.lt_succ_of_le hnano⟩
  · -- a time of day has no other field
    subst hlocal
    simp only [Bool.and_eq_true, beq_iff_eq] at h
    obtain ⟨⟨⟨hyear, hmonth⟩, hday⟩, hoffset⟩ := h
    refine iff_of_true ⟨⟨hyear, hmonth, hday⟩, htime, hoffset⟩ ⟨fun hne => absurd rfl hne, ?_⟩
    rw [hoffset, hzero]
  · simp only [not_or, UInt8.not_lt, Int32.not_lt, UInt8.le_iff_toNat_le,
      Int32.le_iff_toInt_le] at hdate
    obtain ⟨hyear, hmonth, hmonth', hday, -⟩ := hdate
    have hdateOk := exists_dateOk_iff hyear ⟨hmonth, hmonth'⟩ hday
    have hcalendar : dt.Calendar kind ↔ (∃ y, dt.DateOk y) ∧
        dt.offsetSeconds.toInt.natAbs % 60 = 0 := by
      rw [Datetime.Calendar, hdateOk, forall_prop_of_true hlocal]
    rw [hcalendar]
    cases kind with
    | timeLocal => exact absurd rfl hlocal
    | datetimeOffset =>
      have hbound : dt.offsetSeconds.toInt.natAbs ≤ 86399 := by
        have hlow' : (-86399 : Int32).toInt = -86399 := by decide
        have hhigh' : (86399 : Int32).toInt = 86399 := by decide
        omega
      rw [Datetime.Ok, offsetOk_iff hbound]
      exact ⟨fun h => ⟨h.1, h.2.2⟩, fun h => ⟨h.1, htime, h.2⟩⟩
    | datetimeLocal =>
      have hoffset' : dt.offsetSeconds = 0 := by simpa using hoffset
      rw [hoffset', Datetime.Ok]
      exact ⟨fun h => ⟨h.1, hzero⟩, fun h => ⟨h.1, htime, hoffset'⟩⟩
    | dateLocal =>
      have hoffset' : dt.offsetSeconds = 0 := by simpa using hoffset
      have hnotime : dt.NoTime := by simpa [Datetime.NoTime] using hclock
      rw [hoffset', Datetime.Ok]
      exact ⟨fun h => ⟨h.1, hzero⟩, fun h => ⟨h.1, hnotime, hoffset'⟩⟩

end Datetimes

/-! ## What the calls leave in the document -/

mutual

/-- The scalars of a node, in order. -/
def Node.leaves : Node → List Node
  | .array _ items => itemsLeaves items
  | .table _ es => entriesLeaves es
  | .string s => [.string s]
  | .integer i => [.integer i]
  | .float f => [.float f]
  | .boolean b => [.boolean b]
  | .datetime kind dt => [.datetime kind dt]

/-- The scalars of the elements of an array. -/
def itemsLeaves : List Node → List Node
  | [] => []
  | v :: vs => v.leaves ++ itemsLeaves vs

/-- The scalars of the values of a table. -/
def entriesLeaves : List (Key × Node) → List Node
  | [] => []
  | (_, v) :: es => v.leaves ++ entriesLeaves es

end

lemma itemsLeaves_append (vs ws : List Node) :
    itemsLeaves (vs ++ ws) = itemsLeaves vs ++ itemsLeaves ws := by
  induction vs with
  | nil => rfl
  | cons v vs ih => rw [List.cons_append, itemsLeaves, itemsLeaves, ih, List.append_assoc]

lemma entriesLeaves_append (es fs : Entries) :
    entriesLeaves (es ++ fs) = entriesLeaves es ++ entriesLeaves fs := by
  induction es with
  | nil => rfl
  | cons e es ih =>
    obtain ⟨k, v⟩ := e
    rw [List.cons_append, entriesLeaves, entriesLeaves, ih, List.append_assoc]

/-- The scalar a call puts. -/
def BCall.scalar : BCall → Option Node
  | .putString _ s => some (.string s)
  | .putInteger _ v => some (.integer v)
  | .putFloat _ v => some (.float v)
  | .putBoolean _ v => some (.boolean v)
  | .putDatetime _ kind dt => some (.datetime kind dt)
  | _ => none

section Trees

variable (key : Bytes → Prop) (scalar : Node → Prop)

/-- Two nodes, the second one with more keys and scalars at its end. -/
structure Node.Grows (n n' : Node) (more : Prop) (ls : List Node) : Prop where
  /-- The keys and the scalars. -/
  all : n'.All key scalar ↔ n.All key scalar ∧ more
  /-- The scalars in order. -/
  leaves : n'.leaves = n.leaves ++ ls

variable {key scalar}

/-- A container grows by what is added to it. -/
lemma grows_add (f : BFrame) (k : Bytes) {n n' : Node} {more : Prop} {ls : List Node}
    (h : n.Grows key scalar n' more ls) :
    (f.add k n).content.node.Grows key scalar (f.add k n').content.node more ls := by
  obtain ⟨l, ⟨flag, es⟩ | ⟨aot, nature, items⟩⟩ := f
  · constructor
    · simp only [BFrame.add, BContent.node, Node.All, entriesAll_iff, insert,
        List.forall_mem_append, List.forall_mem_singleton, h.all]
      tauto
    · simp only [BFrame.add, BContent.node, Node.leaves, insert, entriesLeaves_append,
        entriesLeaves, List.append_nil, h.leaves, List.append_assoc]
  · constructor
    · simp only [BFrame.add, BContent.node, Node.All, itemsAll_iff, List.forall_mem_append,
        List.forall_mem_singleton, h.all]
      tauto
    · simp only [BFrame.add, BContent.node, Node.leaves, itemsLeaves_append, itemsLeaves,
        List.append_nil, h.leaves, List.append_assoc]

/-- A document grows by what is added to its current container. -/
lemma grows_plug (fs : List BFrame) (k : Bytes) {n n' : Node} {more : Prop} {ls : List Node}
    (h : n.Grows key scalar n' more ls) :
    (plug fs k n).Grows key scalar (plug fs k n') more ls := by
  induction fs generalizing k n n' with
  | nil => exact h
  | cons f fs ih => exact ih f.key (grows_add f k h)

/-- A container grows by a new node and, where it is a table, by its key. -/
lemma grows_node (f : BFrame) (elementIsTable : Bool) (k : Bytes) (n : Node) :
    f.content.node.Grows key scalar ((f.decided elementIsTable).add k n).content.node
      ((f.content.isTable = true → key k) ∧ n.All key scalar) n.leaves := by
  obtain ⟨l, ⟨flag, es⟩ | ⟨aot, nature, items⟩⟩ := f
  · constructor
    · simp only [BFrame.decided, BFrame.add, BContent.node, BContent.isTable, Node.All,
        entriesAll_iff, insert, List.forall_mem_append, List.forall_mem_singleton,
        Key.ofBytes_bytes]
      tauto
    · simp [BFrame.decided, BFrame.add, BContent.node, Node.leaves, insert, entriesLeaves_append,
        entriesLeaves]
  · constructor
    · simp only [BFrame.decided, BFrame.add, BContent.node, BContent.isTable, Node.All,
        itemsAll_iff, List.forall_mem_append, List.forall_mem_singleton]
      tauto
    · simp [BFrame.decided, BFrame.add, BContent.node, Node.leaves, itemsLeaves_append, itemsLeaves]

/-- A call leaves a key of one kind, where a table is current, and a scalar of another. -/
def BCall.Leaves (key : Bytes → Prop) (scalar : Node → Prop) (inTable : Bool) (c : BCall) : Prop :=
  (inTable = true → ∀ k ∈ c.key, key k) ∧ ∀ v ∈ c.scalar, scalar v

namespace Builder

variable {b : Builder}

variable (key scalar) in
/-- The document grows by a node that is added. -/
lemma grows_added (k : Option Bytes) (elementIsTable : Bool) (n : Node) :
    b.tree.Grows key scalar (b.added k elementIsTable n).tree
      ((b.cur.content.isTable = true → key (k.getD [])) ∧ n.All key scalar) n.leaves := by
  rw [tree, tree, added, add_key, decided_key]
  exact grows_plug _ _ (grows_node _ _ _ _)

/-- A container that is opened is in its place already. -/
lemma tree_opened (k : Option Bytes) (elementIsTable : Bool) (c : BContent) :
    (b.opened k elementIsTable c).tree = (b.added k elementIsTable c.node).tree := by
  rw [tree, tree, opened, added, plug, add_key]

/-- An accepted key is there where a table is current. -/
lemma key_iff {k : Option Bytes} {elementIsTable : Bool}
    (h : b.cur.content.accepts k elementIsTable = true) :
    (b.cur.content.isTable = true → key (k.getD [])) ↔
      (b.cur.content.isTable = true → ∀ l ∈ k, key l) := by
  cases hc : b.cur.content with
  | array => simp [BContent.isTable]
  | table flag es =>
    rw [hc] at h
    cases k with
    | none => simp [BContent.accepts] at h
    | some k => simp [BContent.isTable]

lemma putScalar_grows {k : Option Bytes} {n : Node} (hn : n.leaves = [n])
    (hall : n.All key scalar ↔ scalar n) (h : (b.putScalar k n).1 = none) :
    b.tree.Grows key scalar (b.putScalar k n).2.tree
      ((b.cur.content.isTable = true → ∀ l ∈ k, key l) ∧ scalar n) [n] := by
  rw [putScalar_eq] at h ⊢
  split_ifs at h ⊢ with haccepts
  have hgrows := b.grows_added key scalar k false n
  rwa [hn, hall, key_iff haccepts] at hgrows

/-- A container that is opened adds its key only. -/
lemma opened_grows {k : Option Bytes} {elementIsTable : Bool} {c : BContent}
    (haccepts : b.cur.content.accepts k elementIsTable = true) (hall : c.node.All key scalar)
    (hleaves : c.node.leaves = []) :
    b.tree.Grows key scalar (b.opened k elementIsTable c).tree
      (b.cur.content.isTable = true → ∀ l ∈ k, key l) [] := by
  rw [tree_opened]
  have hgrows := b.grows_added key scalar k elementIsTable c.node
  rwa [hleaves, and_iff_left hall, key_iff haccepts] at hgrows

/-- A call that succeeds leaves its key and its scalar in the document, at the end. -/
lemma call_grows {c : BCall} (h : (b.call c).1 = none) :
    b.tree.Grows key scalar (b.call c).2.tree (c.Leaves key scalar b.cur.content.isTable)
      c.scalar.toList := by
  have hput : ∀ {k : Option Bytes} {n : Node}, n.leaves = [n] → (n.All key scalar ↔ scalar n) →
      (b.putScalar k n).1 = none → b.tree.Grows key scalar (b.putScalar k n).2.tree
        ((b.cur.content.isTable = true → ∀ l ∈ k, key l) ∧ ∀ v ∈ some n, scalar v) [n] := by
    intro k n hn hall h
    simpa using putScalar_grows hn hall h
  have hopen : ∀ {k : Option Bytes} {elementIsTable : Bool} {c : BContent},
      b.cur.content.accepts k elementIsTable = true → c.node.All key scalar → c.node.leaves = [] →
      b.tree.Grows key scalar (b.opened k elementIsTable c).tree
        ((b.cur.content.isTable = true → ∀ l ∈ k, key l) ∧ ∀ v ∈ (none : Option Node), scalar v)
        [] := by
    intro k elementIsTable c haccepts hall hleaves
    simpa using opened_grows haccepts hall hleaves
  cases c with
  | putString k s => exact hput rfl Iff.rfl h
  | putInteger k v => exact hput rfl Iff.rfl h
  | putFloat k v => exact hput rfl Iff.rfl h
  | putBoolean k v => exact hput rfl Iff.rfl h
  | putDatetime k kind dt =>
    rw [call] at h ⊢
    split_ifs at h ⊢
    exact hput rfl Iff.rfl h
  | openTable k =>
    rw [call, openTable, pushContainer_eq] at h ⊢
    by_cases haccepts : b.cur.content.accepts k true = true
    · rw [if_pos haccepts] at h ⊢
      by_cases hlimit : builderMaxDepth ≤ b.depth + 1
      · simp [hlimit] at h
      · rw [if_neg hlimit]
        exact hopen haccepts trivial rfl
    · simp [haccepts] at h
  | openArray k =>
    rw [call, openArray, pushContainer_eq] at h ⊢
    by_cases haccepts : b.cur.content.accepts k false = true
    · rw [if_pos haccepts] at h ⊢
      by_cases hlimit : builderMaxDepth ≤ b.depth + 1
      · simp [hlimit] at h
      · rw [if_neg hlimit]
        dsimp only
        split_ifs
        · exact @hopen k false (.array false .inline []) haccepts trivial rfl
        · exact hopen haccepts trivial rfl
    · simp [haccepts] at h
  | openInlineArray k =>
    rw [call, openInlineArray, pushContainer_eq] at h ⊢
    by_cases haccepts : b.cur.content.accepts k false = true
    · rw [if_pos haccepts] at h ⊢
      by_cases hlimit : builderMaxDepth ≤ b.depth + 1
      · simp [hlimit] at h
      · rw [if_neg hlimit]
        exact @hopen k false (.array false .inline []) haccepts trivial rfl
    · simp [haccepts] at h
  | close =>
    obtain ⟨cur, outer⟩ := b
    cases outer with
    | nil => simp [call, close] at h
    | cons f fs =>
      have htree : (call ⟨cur, f :: fs⟩ .close).2.tree = tree ⟨cur, f :: fs⟩ := by
        simp only [call, close, tree, plug, add_key]
      rw [htree]
      exact ⟨by simp [BCall.Leaves, BCall.key, BCall.scalar], by simp [BCall.scalar]⟩

/-- Calls that all succeed, and a finish that returns the root. -/
def Completes : Builder → List BCall → Node → Prop
  | b, [], root => b.finish = .ok root
  | b, c :: calls, root => (b.call c).1 = none ∧ (b.call c).2.Completes calls root

/-- A property of every call of a run, in the state the call meets. -/
def EachCall (P : Builder → BCall → Prop) : Builder → List BCall → Prop
  | _, [] => True
  | b, c :: calls => P b c ∧ EachCall P (b.call c).2 calls

lemma eachCall_of_forall {P : Builder → BCall → Prop} {calls : List BCall}
    (h : ∀ c ∈ calls, ∀ b, P b c) (b : Builder) : EachCall P b calls := by
  induction calls generalizing b with
  | nil => trivial
  | cons c calls ih => exact ⟨h c (by simp) b, ih (fun c hc => h c (by simp [hc])) _⟩

variable (key scalar) in
/-- A finished document holds what was there before and what the calls left. -/
lemma Completes.grows {calls : List BCall} {root : Node} (h : b.Completes calls root) :
    b.tree.Grows key scalar root
      (EachCall (fun b c => c.Leaves key scalar b.cur.content.isTable) b calls)
      (calls.filterMap BCall.scalar) := by
  induction calls generalizing b with
  | nil =>
    have htree : root = b.tree := by
      obtain ⟨cur, outer⟩ := b
      cases outer with
      | nil => exact (Except.ok.inj h).symm
      | cons f fs => simp [Completes, finish] at h
    rw [htree]
    exact ⟨by simp [EachCall], by simp⟩
  | cons c calls ih =>
    obtain ⟨hcall, hrest⟩ := h
    obtain ⟨hall, hleaves⟩ := @call_grows key scalar b c hcall
    obtain ⟨hall', hleaves'⟩ := ih hrest
    constructor
    · rw [hall', hall, EachCall, and_assoc]
    · rw [hleaves', hleaves, List.append_assoc]
      cases hscalar : c.scalar with
      | none => simp [hscalar]
      | some v => simp [hscalar]

/-- Calls that all succeed are a run. -/
lemma Completes.run_finish {calls : List BCall} {root : Node} (h : b.Completes calls root) :
    (calls.foldl (fun b c => (b.call c).2) b).finish = .ok root ∧
      (b.Stacked → (calls.foldl (fun b c => (b.call c).2) b).Stacked) := by
  induction calls generalizing b with
  | nil => exact ⟨h, id⟩
  | cons c calls ih =>
    obtain ⟨hfinish, hstacked⟩ := ih h.2
    exact ⟨hfinish, fun hb => hstacked (call_stacked hb c)⟩

end Builder

end Trees

/-! ## Documents the builder finishes -/

/-- What renders on one line, with keys and scalars in range, is a value. -/
lemma IsInline.isValue {v : Node} (h : IsInline v) (hall : v.All Utf8.Valid Node.ScalarOk) :
    IsValue v := by
  induction h with
  | string => exact .string hall
  | integer => exact .integer _
  | float => exact .float _
  | boolean => exact .boolean _
  | datetime => exact .datetime hall
  | array _ ih => exact .array fun v hv => ih v hv (itemsAll_iff.mp hall v hv)
  | table hnodup _ ih =>
    have hes := entriesAll_iff.mp hall
    exact .table (.inl rfl) hnodup (fun e he => (hes e he).1) fun e he => ih e he (hes e he).2

/-- What is built, with keys and scalars in range, is an entry. -/
lemma IsBuilt.isEntry {v : Node} (h : IsBuilt v) (hall : v.All Utf8.Valid Node.ScalarOk) :
    IsEntry v := by
  induction h with
  | inline h => 
    refine .value (h.isValue hall) ?_
    rintro es rfl
    cases h
  | table hnodup _ ih =>
    have hes := entriesAll_iff.mp hall
    exact .table (by decide) hnodup (fun e he => (hes e he).1) fun e he => ih e he (hes e he).2
  | @aot ts hne hnodup _ ih =>
    have hts : ∀ es ∈ ts, ∀ e ∈ es, Utf8.Valid e.1.bytes ∧ e.2.All Utf8.Valid Node.ScalarOk :=
      fun es hes => entriesAll_iff.mp
        (itemsAll_iff.mp hall (.table .explicit es) (List.mem_map_of_mem hes))
    exact .aot hne hnodup (fun es hes e he => (hts es hes e he).1)
      fun es hes e he => ih es hes e he (hts es hes e he).2

/-- A string value in UTF-8. -/
def Node.TextOk : Node → Prop
  | .string s => Utf8.Valid s
  | _ => True

/-- A datetime of the calendar. -/
def Node.InCalendar : Node → Prop
  | .datetime kind dt => dt.Calendar kind
  | _ => True

/-- A datetime the builder takes. -/
def Node.Taken : Node → Prop
  | .datetime kind dt => datetimeOk kind dt = true
  | _ => True

/-- A call that succeeds has a datetime the builder takes. -/
lemma Builder.Completes.taken {b : Builder} {calls : List BCall} {root : Node}
    (h : b.Completes calls root) :
    EachCall (fun b c => c.Leaves (fun _ => True) Node.Taken b.cur.content.isTable) b calls := by
  induction calls generalizing b with
  | nil => trivial
  | cons c calls ih =>
    obtain ⟨hcall, hrest⟩ := h
    refine ⟨⟨fun _ _ _ => trivial, fun v hv => ?_⟩, ih hrest⟩
    cases c with
    | putDatetime k kind dt =>
      obtain rfl := Option.some.inj hv
      rw [call] at hcall
      split_ifs at hcall with hok
      exact hok
    | putString | putInteger | putFloat | putBoolean =>
      obtain rfl := Option.some.inj hv
      trivial
    | _ => cases hv

/-- The root of a finished document, where its keys and scalars are in range. -/
lemma Builder.Completes.root {calls : List BCall} {root : Node} (h : new.Completes calls root) :
    ∃ es, root = .table .explicit es ∧ entriesHeight es ≤ builderMaxDepth ∧
      (root.All Utf8.Valid Node.ScalarOk → GoodEntries IsEntry es) := by
  obtain ⟨hfinish, hstacked⟩ := h.run_finish
  have hheight := @finish_height calls root hfinish
  obtain ⟨es, htree, hnodup, hes⟩ := (hstacked stacked_new).tree
  have hroot : root = .table .explicit es := by
    rw [← htree, tree]
    rw [finish] at hfinish
    split at hfinish
    next houter => rw [houter, plug, Except.ok.inj hfinish]
    · cases hfinish
  rw [hroot, Node.height] at hheight
  refine ⟨es, hroot, by omega, fun hall => ?_⟩
  have hall' := entriesAll_iff.mp (hroot ▸ hall)
  exact ⟨hnodup, fun e he => (hall' e he).1, fun e he => (hes e he).isEntry (hall' e he).2⟩

/-- A document that is finished by calls that all succeed, with strings and keys in UTF-8, is read
back from its text as the same tree, holding the scalars the calls put, exactly when no key that
went into a table holds DEL, and every datetime is one of the calendar. -/
theorem builder_round_trip_iff {fc : FloatConv} {calls : List BCall} {root : Node}
    (h : Builder.new.Completes calls root)
    (htext : ∀ c ∈ calls, c.Leaves Utf8.Valid Node.TextOk true)
    (hfloats : ∀ c ∈ calls, ∀ f, c.scalar = some (.float f) → f.isFinite = true →
      fc.RoundTrips f) :
    (∃ n, parse (.ofOptions fc 0) (emitDocument fc root) = .ok n ∧ root.Same n ∧
        root.leaves = calls.filterMap BCall.scalar) ↔
      Builder.EachCall (fun b c => c.Leaves (fun k => Ch.del ∉ k) Node.InCalendar
        b.cur.content.isTable) .new calls := by
  have hall : ∀ key scalar, root.All key scalar ↔ Builder.EachCall (fun b c =>
      c.Leaves key scalar b.cur.content.isTable) .new calls := by
    intro key scalar
    exact (h.grows key scalar).all.trans (and_iff_right trivial)
  have htextAll : root.All Utf8.Valid Node.TextOk := (hall _ _).mpr <|
    Builder.eachCall_of_forall (fun c hc b => ⟨fun _ => (htext c hc).1 rfl, (htext c hc).2⟩) _
  have htaken : root.All (fun _ => True) Node.Taken := (hall _ _).mpr h.taken
  have hkept : root.FloatsKept fc := by
    refine (hall _ _).mpr (Builder.eachCall_of_forall (fun c hc b => ⟨fun _ _ _ => trivial, ?_⟩) _)
    rintro v hv f rfl
    exact hfloats c hc f hv
  obtain ⟨es, hroot, hheight, hgood⟩ := h.root
  have hmax : (Config.ofOptions fc 0).maxDepth = builderMaxDepth := rfl
  constructor
  · rintro ⟨n, hparse, hsame, -⟩
    obtain ⟨es', rfl, hes'⟩ := parse_good hparse
    have hok' : (Node.table .explicit es').All Utf8.Valid Node.ScalarOk :=
      entriesAll_iff.mpr fun e he => ⟨hes'.key e he, (hes'.value e he).all⟩
    have hok := hsame.all (fun _ => trivial) hok'
    have hclean := clean_of_emitDocument (hgood hok).value (hroot ▸ parse_clean hparse)
    rw [← hall]
    refine Node.All.imp (fun k hk => hk.1.1) ?_ root
      (Node.All.and root (Node.All.and root (hroot ▸ hclean) hok) htaken)
    rintro v ⟨⟨-, hscalar⟩, htake⟩
    cases v with
    | datetime kind dt => exact (ok_iff_calendar htake).mp hscalar
    | _ => trivial
  · intro hcalls
    have hclean := (hall _ _).mpr hcalls
    have hok : root.All Utf8.Valid Node.ScalarOk := by
      refine Node.All.imp (fun k hk => hk.1.1) ?_ root
        (Node.All.and root (Node.All.and root htextAll htaken) hclean)
      rintro v ⟨⟨htext, htake⟩, hcalendar⟩
      cases v with
      | string s => exact htext
      | datetime kind dt => exact (ok_iff_calendar htake).mpr hcalendar
      | _ => trivial
    have hkeys : root.All (fun k => Ch.del ∉ k) fun _ => True :=
      Node.All.imp (fun _ hk => hk) (fun _ _ => trivial) root hclean
    have hread := hkept.reads hkeys hok
    rw [hroot] at hread ⊢
    have hfits : entriesNest (Config.ofOptions fc 0).maxDepth 0 es :=
      entriesNest_of_height (by rw [hmax, Nat.zero_add]; exact hheight)
    refine ⟨_,
      (@parse_emitDocument (.ofOptions fc 0) (hmax ▸ by decide) _ _ (hgood hok) hread).1 hfits,
      same_reread (hgood hok), ?_⟩
    rw [← hroot]
    exact (h.grows (fun _ => True) fun _ => True).leaves

/-- A day of 2023 or 2024. -/
def dayOf (year : Int32) (month day : UInt8) : Datetime where
  year := year
  month := month
  day := day
  hour := 0
  minute := 0
  second := 0
  nanosecond := 0
  offsetSeconds := 0

/-- An array of tables `a` with the date `d` in its table, and the string `b`. -/
def sectionCalls (dt : Datetime) : List BCall :=
  [.openArray (some [0x61]), .openTable none, .putDatetime (some [0x64]) .dateLocal dt, .close,
    .close, .putString (some [0x62]) [0x27]]

/-- What the calls build. -/
def sectionRoot (dt : Datetime) : Node :=
  .table .explicit [(Key.ofBytes [0x61], .array true [.table .explicit
    [(Key.ofBytes [0x64], .datetime .dateLocal dt)]]), (Key.ofBytes [0x62], .string [0x27])]

lemma sectionCalls_text (dt : Datetime) :
    ∀ c ∈ sectionCalls dt, c.Leaves Utf8.Valid Node.TextOk true := by
  have hkey : ∀ c : UInt8, c < 0x80 → ∀ l ∈ some [c], Utf8.Valid l := by
    intro c hc l hl
    obtain rfl := Option.some.inj hl
    exact .ascii hc .nil
  have hnone : ∀ {P : Bytes → Prop}, ∀ l ∈ (none : Option Bytes), P l := by simp
  have hnoscalar : ∀ {P : Node → Prop}, ∀ v ∈ (none : Option Node), P v := by simp
  simp only [sectionCalls, List.forall_mem_cons, List.not_mem_nil, false_implies, implies_true,
    and_true]
  refine ⟨⟨fun _ => hkey _ (by decide), hnoscalar⟩, ⟨fun _ => hnone, hnoscalar⟩,
    ⟨fun _ => hkey _ (by decide), ?_⟩, ⟨fun _ => hnone, hnoscalar⟩, ⟨fun _ => hnone, hnoscalar⟩,
    ⟨fun _ => hkey _ (by decide), ?_⟩⟩
  · rintro v hv
    obtain rfl := Option.some.inj hv
    trivial
  · rintro v hv
    obtain rfl := Option.some.inj hv
    exact .ascii (by decide) .nil

/-- With the leap day of 2024. -/
theorem builder_round_trip_sections :
    Builder.new.Completes (sectionCalls (dayOf 2024 2 29)) (sectionRoot (dayOf 2024 2 29)) ∧
      ((∃ n, parse (.ofOptions .zero 0) (emitDocument .zero (sectionRoot (dayOf 2024 2 29))) =
            .ok n ∧ (sectionRoot (dayOf 2024 2 29)).Same n ∧
          (sectionRoot (dayOf 2024 2 29)).leaves =
            (sectionCalls (dayOf 2024 2 29)).filterMap BCall.scalar) ↔
        Builder.EachCall (fun b c => c.Leaves (fun k => Ch.del ∉ k) Node.InCalendar
          b.cur.content.isTable) .new (sectionCalls (dayOf 2024 2 29))) := by
  have hcompletes : Builder.new.Completes (sectionCalls (dayOf 2024 2 29))
      (sectionRoot (dayOf 2024 2 29)) := ⟨rfl, rfl, rfl, rfl, rfl, rfl, rfl⟩
  refine ⟨hcompletes, builder_round_trip_iff hcompletes (sectionCalls_text _) ?_⟩
  simp [sectionCalls, BCall.scalar]

/-- The builder takes the thirtieth of February, and the parser refuses it. -/
theorem builder_round_trip_february :
    Builder.new.Completes (sectionCalls (dayOf 2023 2 30)) (sectionRoot (dayOf 2023 2 30)) ∧
      (∀ c ∈ sectionCalls (dayOf 2023 2 30), c.Leaves Utf8.Valid Node.TextOk true) ∧
      ∃ e, parse (.ofOptions .zero 0) (emitDocument .zero (sectionRoot (dayOf 2023 2 30))) =
        .error e :=
  ⟨⟨rfl, rfl, rfl, rfl, rfl, rfl, rfl⟩, sectionCalls_text _, _, rfl⟩

end Teptris
