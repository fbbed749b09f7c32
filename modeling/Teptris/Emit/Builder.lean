import Teptris.Dom.Height

/-!
# The builder

`build.c`: documents assembled by calls.  The source attaches a container to its parent when it
is opened and fills it in place; nobody reads the parent before the container is closed, so
here an open container is kept apart, and attached when it is closed.  The checks of `attach`
are made when it is opened, as in the source.
-/

namespace Teptris

/-- `BUILDER_MAX_DEPTH`. -/
def builderMaxDepth : ℕ := 512

/-- `arr_nature`. -/
inductive ArrNature where
  /-- `ARR_UNDECIDED`: no elements yet. -/
  | undecided
  /-- `ARR_INLINE`: scalar or inline elements. -/
  | inline
  /-- `ARR_AOT_SECTIONS`: table elements. -/
  | aotSections
deriving DecidableEq

/-- The content of an open container. -/
inductive BContent where
  /-- A table. -/
  | table (flag : TblFlag) (es : Entries)
  /-- An array, with its `ARR_AOT` flag and its nature. -/
  | array (aot : Bool) (nature : ArrNature) (items : List Node)

/-- `bframe`: an open container, and the key it goes under. -/
structure BFrame where
  /-- The key, where the parent is a table. -/
  key : Bytes
  /-- The content so far. -/
  content : BContent

/-- The container as a node. -/
def BContent.node : BContent → Node
  | .table flag es => .table flag es
  | .array aot _ items => .array aot items

/-- `teptris_builder`: the current container, and the ones around it, innermost first. -/
structure Builder where
  /-- The current container. -/
  cur : BFrame
  /-- The containers around it. -/
  outer : List BFrame

/-- `datetime_ok`. -/
def datetimeOk (kind : DtKind) (dt : Datetime) : Bool :=
  if 23 < dt.hour ∨ 59 < dt.minute ∨ 60 < dt.second ∨ 999999999 < dt.nanosecond ∨
      dt.offsetSeconds < -86399 ∨ 86399 < dt.offsetSeconds then false
  else if kind = .timeLocal then
    dt.year == 0 && dt.month == 0 && dt.day == 0 && dt.offsetSeconds == 0
  else if 9999 < dt.year ∨ dt.month < 1 ∨ 12 < dt.month ∨ dt.day < 1 ∨ 31 < dt.day then false
  else if kind = .dateLocal ∧
      (dt.hour ≠ 0 ∨ dt.minute ≠ 0 ∨ dt.second ≠ 0 ∨ dt.nanosecond ≠ 0) then false
  else if kind ≠ .datetimeOffset ∧ dt.offsetSeconds ≠ 0 then false
  else true

/-- The checks of `attach`, and what they decide about the current container. -/
def BFrame.check (f : BFrame) (key : Option Bytes) (elementIsTable : Bool) :
    Except Status BFrame :=
  match f.content with
  | .array aot nature items =>
    if elementIsTable then
      if nature = .undecided then .ok { f with content := .array true .aotSections items }
      else .ok f
    else if nature = .aotSections then .error .errArg
    else if nature = .undecided then .ok { f with content := .array aot .inline items }
    else .ok f
  | .table _ es =>
    match key with
    | none => .error .errArg
    | some k => if (probe (.ofBytes k) es).isSome then .error .errArg else .ok f

/-- The insertion of `attach`. -/
def BFrame.add (f : BFrame) (key : Bytes) (n : Node) : BFrame :=
  match f.content with
  | .array aot nature items => { f with content := .array aot nature (items ++ [n]) }
  | .table flag es => { f with content := .table flag (insert es (.ofBytes key) n) }

namespace Builder

/-- `teptris_builder_new`. -/
def new : Builder := ⟨⟨[], .table .explicit []⟩, []⟩

/-- The depth of the current container. -/
def depth (b : Builder) : ℕ := b.outer.length

/-- `put_scalar`: the status, `none` for `TEPTRIS_OK`, and the builder. -/
def putScalar (b : Builder) (key : Option Bytes) (n : Node) : Option Status × Builder :=
  match b.cur.check key false with
  | .error st => (some st, b)
  | .ok f => (none, { b with cur := f.add (key.getD []) n })

/-- `push_container`; beyond the depth limit the container is attached, but not opened. -/
def pushContainer (b : Builder) (key : Option Bytes) (elementIsTable : Bool) (c : BContent) :
    Option Status × Builder :=
  match b.cur.check key elementIsTable with
  | .error st => (some st, b)
  | .ok f =>
    if builderMaxDepth ≤ b.depth + 1 then
      (some .errDepth, { b with cur := f.add (key.getD []) c.node })
    else (none, ⟨⟨key.getD [], c⟩, f :: b.outer⟩)

/-- The current container renders inline, and so does everything in it. -/
def inlineTerritory (f : BFrame) : Bool :=
  match f.content with
  | .array _ nature _ => nature = .inline
  | .table flag _ => flag = .inline

/-- `teptris_builder_open_table`. -/
def openTable (b : Builder) (key : Option Bytes) : Option Status × Builder :=
  let flag : TblFlag := if inlineTerritory b.cur then .inline else .explicit
  b.pushContainer key true (.table flag [])

/-- `teptris_builder_open_array`: an array in inline territory is pinned inline. -/
def openArray (b : Builder) (key : Option Bytes) : Option Status × Builder :=
  match b.pushContainer key false (.array false .undecided []) with
  | (none, b) =>
    if b.outer.head?.any inlineTerritory then
      (none, { b with cur := { b.cur with content := .array false .inline [] } })
    else (none, b)
  | res => res

/-- `teptris_builder_open_inline_array`. -/
def openInlineArray (b : Builder) (key : Option Bytes) : Option Status × Builder :=
  match b.pushContainer key false (.array false .undecided []) with
  | (none, b) => (none, { b with cur := { b.cur with content := .array false .inline [] } })
  | res => res

/-- `teptris_builder_close`. -/
def close (b : Builder) : Option Status × Builder :=
  match b.outer with
  | [] => (some .errState, b)
  | f :: fs => (none, ⟨f.add b.cur.key b.cur.content.node, fs⟩)

/-- `teptris_builder_finish`: the root. -/
def finish (b : Builder) : Except Status Node :=
  match b.outer with
  | [] => .ok b.cur.content.node
  | _ => .error .errState

end Builder

/-- A builder call; the key `none` is a null pointer. -/
inductive BCall where
  /-- `teptris_builder_put_string`. -/
  | putString (key : Option Bytes) (s : Bytes)
  /-- `teptris_builder_put_integer`. -/
  | putInteger (key : Option Bytes) (v : Int64)
  /-- `teptris_builder_put_float`. -/
  | putFloat (key : Option Bytes) (v : Double)
  /-- `teptris_builder_put_boolean`. -/
  | putBoolean (key : Option Bytes) (v : Bool)
  /-- `teptris_builder_put_datetime`. -/
  | putDatetime (key : Option Bytes) (kind : DtKind) (dt : Datetime)
  /-- `teptris_builder_open_table`. -/
  | openTable (key : Option Bytes)
  /-- `teptris_builder_open_array`. -/
  | openArray (key : Option Bytes)
  /-- `teptris_builder_open_inline_array`. -/
  | openInlineArray (key : Option Bytes)
  /-- `teptris_builder_close`. -/
  | close

/-- What a call does: its status, and the builder behind it. -/
def Builder.call (b : Builder) : BCall → Option Status × Builder
  | .putString key s => b.putScalar key (.string s)
  | .putInteger key v => b.putScalar key (.integer v)
  | .putFloat key v => b.putScalar key (.float v)
  | .putBoolean key v => b.putScalar key (.boolean v)
  | .putDatetime key kind dt =>
    if datetimeOk kind dt then b.putScalar key (.datetime kind dt) else (some .errArg, b)
  | .openTable key => b.openTable key
  | .openArray key => b.openArray key
  | .openInlineArray key => b.openInlineArray key
  | .close => b.close

/-- The builder behind a sequence of calls, failed ones among them. -/
def Builder.run (calls : List BCall) : Builder :=
  calls.foldl (fun b c => (b.call c).2) .new

/-! ## What the builder can build -/

/-- The deepest of the nodes a container holds. -/
def BContent.height : BContent → ℕ
  | .table _ es => entriesHeight es
  | .array _ _ items => itemsHeight items

lemma BContent.node_height (c : BContent) : c.node.height = c.height + 1 := by
  cases c <;> simp [BContent.node, BContent.height, Node.height]

lemma BFrame.add_height (f : BFrame) (key : Bytes) (n : Node) :
    (f.add key n).content.height = max f.content.height n.height := by
  obtain ⟨k, _ | _⟩ := f
  · simp [BFrame.add, BContent.height, insert, entriesHeight_append]
  · simp [BFrame.add, BContent.height, itemsHeight_append]

/-- The checks of `attach` keep the content. -/
lemma BFrame.check_height {f g : BFrame} {key : Option Bytes} {isTable : Bool}
    (h : f.check key isTable = .ok g) : g.content.height = f.content.height := by
  obtain ⟨k, ⟨flag, es⟩ | ⟨aot, nature, items⟩⟩ := f
  · simp only [BFrame.check] at h
    split at h
    · simp at h
    · split_ifs at h
      obtain rfl := Except.ok.inj h
      rfl
  · simp only [BFrame.check] at h
    split_ifs at h <;> obtain rfl := Except.ok.inj h <;> rfl

/-- Every frame of a stack, innermost first, leaves room for what it holds. -/
def Roomy : List BFrame → Prop
  | [] => True
  | f :: fs => f.content.height + fs.length ≤ builderMaxDepth ∧ Roomy fs

/-- Every open container lies within the depth limit, with all it holds. -/
def Builder.Bounded (b : Builder) : Prop :=
  b.depth < builderMaxDepth ∧ Roomy (b.cur :: b.outer)

namespace Builder

variable {b : Builder} {key : Option Bytes}

lemma bounded_new : new.Bounded := by
  refine ⟨by decide, ?_, trivial⟩
  simp [new, BContent.height, entriesHeight]

/-- Attaching a node that fits keeps the stack within the limit. -/
lemma bounded_add (h : b.Bounded) {f : BFrame} {isTable : Bool}
    (hf : b.cur.check key isTable = .ok f) {k : Bytes} {n : Node}
    (hn : n.height + b.depth ≤ builderMaxDepth) : Bounded { b with cur := f.add k n } := by
  obtain ⟨hdepth, hcur, houter⟩ := h
  refine ⟨hdepth, ?_, houter⟩
  change (f.add k n).content.height + b.outer.length ≤ builderMaxDepth
  rw [BFrame.add_height, BFrame.check_height hf]
  simp only [depth] at hn
  omega

lemma putScalar_bounded (h : b.Bounded) {n : Node} (hn : n.height = 0) :
    (b.putScalar key n).2.Bounded := by
  rw [putScalar]
  split
  · exact h
  next f hf =>
  refine bounded_add h hf ?_
  have := h.1
  omega

lemma pushContainer_bounded (h : b.Bounded) {isTable : Bool} {c : BContent}
    (hc : c.height = 0) : (b.pushContainer key isTable c).2.Bounded := by
  rw [pushContainer]
  split
  · exact h
  next f hf =>
  split_ifs with hlimit
  · -- the container that does not fit is left empty
    refine bounded_add h hf ?_
    rw [BContent.node_height, hc]
    have := h.1
    omega
  · obtain ⟨hdepth, hcur, houter⟩ := h
    refine ⟨by simpa [depth] using hlimit, ?_, ?_, houter⟩
    · simp only [List.length_cons, hc]
      simp only [depth] at hlimit
      omega
    · rw [BFrame.check_height hf]
      exact hcur

/-- Pinning an empty array inline changes nothing else. -/
lemma bounded_pin (h : b.Bounded) : Bounded
    { b with cur := { b.cur with content := .array false .inline [] } } := by
  refine ⟨h.1, ?_, h.2.2⟩
  have := h.2.1
  simp only [BContent.height, itemsHeight]
  omega

lemma close_bounded (h : b.Bounded) : b.close.2.Bounded := by
  rw [close]
  split
  · exact h
  next f fs houter =>
  obtain ⟨hdepth, hcur, hfs⟩ := h
  rw [houter] at hcur hfs
  rw [depth, houter] at hdepth
  simp only [List.length_cons] at hdepth hcur
  refine ⟨by simp only [depth]; omega, ?_, hfs.2⟩
  change (f.add b.cur.key b.cur.content.node).content.height + fs.length ≤ builderMaxDepth
  rw [BFrame.add_height, BContent.node_height]
  have := hfs.1
  omega

lemma call_bounded (h : b.Bounded) (c : BCall) : (b.call c).2.Bounded := by
  cases c with
  | putString => exact putScalar_bounded h rfl
  | putInteger => exact putScalar_bounded h rfl
  | putFloat => exact putScalar_bounded h rfl
  | putBoolean => exact putScalar_bounded h rfl
  | putDatetime key kind dt =>
    rw [call]
    split_ifs
    · exact putScalar_bounded h rfl
    · exact h
  | openTable key => exact pushContainer_bounded h rfl
  | openArray key =>
    have hpush : (b.pushContainer key false (.array false .undecided [])).2.Bounded :=
      pushContainer_bounded h rfl
    rw [call, openArray]
    split
    next b' hb =>
      rw [hb] at hpush
      split_ifs
      · exact bounded_pin hpush
      · exact hpush
    · exact hpush
  | openInlineArray key =>
    have hpush : (b.pushContainer key false (.array false .undecided [])).2.Bounded :=
      pushContainer_bounded h rfl
    rw [call, openInlineArray]
    split
    next b' hb =>
      rw [hb] at hpush
      exact bounded_pin hpush
    · exact hpush
  | close => exact close_bounded h

/-- Whatever is called, no frame outgrows the depth limit. -/
lemma run_bounded (calls : List BCall) : (run calls).Bounded := by
  have hfold : ∀ (calls : List BCall) (b : Builder), b.Bounded →
      (calls.foldl (fun b c => (b.call c).2) b).Bounded := by
    intro calls
    induction calls with
    | nil => exact fun b h => h
    | cons c calls ih => exact fun b h => ih _ (call_bounded h c)
  exact hfold calls _ bounded_new

/-- A finished document nests no deeper than the limit, below its root. -/
lemma finish_height {calls : List BCall} {root : Node} (h : (run calls).finish = .ok root) :
    root.height ≤ builderMaxDepth + 1 := by
  obtain ⟨-, hcur, -⟩ := run_bounded calls
  rw [finish] at h
  split at h
  · obtain rfl := Except.ok.inj h
    rw [BContent.node_height]
    omega
  · simp at h

/-! ## The root -/

end Builder

/-- The container is a table. -/
def BContent.isTable : BContent → Bool
  | .table _ _ => true
  | .array _ _ _ => false

@[simp] lemma BFrame.add_isTable (f : BFrame) (key : Bytes) (n : Node) :
    (f.add key n).content.isTable = f.content.isTable := by
  obtain ⟨k, _ | _⟩ := f <;> rfl

/-- The checks of `attach` keep the kind of the container. -/
lemma BFrame.check_isTable {f g : BFrame} {key : Option Bytes} {isTable : Bool}
    (h : f.check key isTable = .ok g) : g.content.isTable = f.content.isTable := by
  obtain ⟨k, ⟨flag, es⟩ | ⟨aot, nature, items⟩⟩ := f
  · simp only [BFrame.check] at h
    split at h
    · simp at h
    · split_ifs at h
      obtain rfl := Except.ok.inj h
      rfl
  · simp only [BFrame.check] at h
    split_ifs at h <;> obtain rfl := Except.ok.inj h <;> rfl

namespace Builder

variable {b : Builder} {key : Option Bytes}

/-- The outermost container is a table. -/
def RootTable (b : Builder) : Prop := (b.outer.getLast?.getD b.cur).content.isTable

/-- Changing the current container within its kind keeps the root a table. -/
lemma rootTable_cur (h : b.RootTable) {f : BFrame}
    (hf : f.content.isTable = b.cur.content.isTable) : RootTable { b with cur := f } := by
  rw [RootTable] at h ⊢
  cases hlast : b.outer.getLast? with
  | none => simpa [hlast, hf] using h
  | some g => simpa [hlast] using h

lemma rootTable_add (h : b.RootTable) {f : BFrame} {isTable : Bool}
    (hf : b.cur.check key isTable = .ok f) (k : Bytes) (n : Node) :
    RootTable { b with cur := f.add k n } :=
  rootTable_cur h (by rw [BFrame.add_isTable, BFrame.check_isTable hf])

lemma putScalar_rootTable (h : b.RootTable) {n : Node} : (b.putScalar key n).2.RootTable := by
  rw [putScalar]
  split
  · exact h
  next f hf => exact rootTable_add h hf _ _

lemma pushContainer_rootTable (h : b.RootTable) {isTable : Bool} {c : BContent} :
    (b.pushContainer key isTable c).2.RootTable := by
  rw [pushContainer]
  split
  · exact h
  next f hf =>
  split_ifs
  · exact rootTable_add h hf _ _
  · have hf' := rootTable_cur h (BFrame.check_isTable hf)
    simpa [RootTable, List.getLast?_cons] using hf'

/-- A pushed container may still be pinned inline. -/
lemma pushContainer_pin_rootTable (h : b.RootTable) {isTable : Bool} {c c' : BContent}
    {b' : Builder} (hb : b.pushContainer key isTable c = (none, b')) :
    RootTable { b' with cur := { b'.cur with content := c' } } := by
  rw [pushContainer] at hb
  split at hb
  · simp at hb
  next f hf =>
  split_ifs at hb
  · simp at hb
  · obtain ⟨-, rfl⟩ := Prod.mk.inj hb
    have hf' := rootTable_cur h (BFrame.check_isTable hf)
    simpa [RootTable, List.getLast?_cons] using hf'

lemma close_rootTable (h : b.RootTable) : b.close.2.RootTable := by
  rw [close]
  split
  · exact h
  next f fs houter =>
  rw [RootTable, houter, List.getLast?_cons, Option.getD_some] at h
  exact rootTable_cur (b := ⟨f, fs⟩) h (BFrame.add_isTable _ _ _)

lemma call_rootTable (h : b.RootTable) (c : BCall) : (b.call c).2.RootTable := by
  cases c with
  | putString | putInteger | putFloat | putBoolean => exact putScalar_rootTable h
  | putDatetime key kind dt =>
    rw [call]
    split_ifs
    · exact putScalar_rootTable h
    · exact h
  | openTable key => exact pushContainer_rootTable h
  | openArray key =>
    have hpush : (b.pushContainer key false (.array false .undecided [])).2.RootTable :=
      pushContainer_rootTable h
    rw [call, openArray]
    split
    next b' hb =>
      rw [hb] at hpush
      split_ifs
      · exact pushContainer_pin_rootTable h hb
      · exact hpush
    · exact hpush
  | openInlineArray key =>
    have hpush : (b.pushContainer key false (.array false .undecided [])).2.RootTable :=
      pushContainer_rootTable h
    rw [call, openInlineArray]
    split
    next b' hb => exact pushContainer_pin_rootTable h hb
    · exact hpush
  | close => exact close_rootTable h

/-- A finished document is a table. -/
lemma finish_table {calls : List BCall} {root : Node} (h : (run calls).finish = .ok root) :
    ∃ flag es, root = .table flag es := by
  have hfold : ∀ (calls : List BCall) (b : Builder), b.RootTable →
      (calls.foldl (fun b c => (b.call c).2) b).RootTable := by
    intro calls
    induction calls with
    | nil => exact fun b h => h
    | cons c calls ih => exact fun b h => ih _ (call_rootTable h c)
  have hroot : (run calls).RootTable := hfold calls .new rfl
  rw [finish] at h
  split at h
  next houter =>
    obtain rfl := Except.ok.inj h
    rw [RootTable, houter] at hroot
    cases hc : (run calls).cur.content with
    | table flag es => exact ⟨flag, es, rfl⟩
    | array => simp [BContent.isTable, hc] at hroot
  · simp at h

end Builder

end Teptris
