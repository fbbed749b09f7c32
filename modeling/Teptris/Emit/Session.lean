import Teptris.Emit.Builder

/-!
# Builder sessions

`build.c` as a caller meets it: every call from `teptris_builder_new` on, before and after
`teptris_builder_finish`, with any of its allocations refused.  What a caller can see of a
session is its document, the stack of open containers and the natures of the arrays among them
(`View`); a call that fails should leave all of it, and a call that succeeds should have its
documented effect (`View.Effect`).  `session_atomic_iff` says which calls do.
-/

namespace Teptris

/-! ## Calls whose allocations may fail -/

/-- The allocations of a call that are granted. -/
structure Grants where
  /-- The node. -/
  node : Bool
  /-- The copy of the key. -/
  key : Bool
  /-- The storage of the container the node goes into. -/
  link : Bool
  /-- The copy of a string value. -/
  value : Bool

/-- Every allocation is granted. -/
def Grants.all : Grants := ⟨true, true, true, true⟩

/-- `attach`, up to the insertion; the nature is decided before the array grows, and the key
copied before it is looked up. -/
def BFrame.attach (f : BFrame) (key : Option Bytes) (elementIsTable : Bool) (g : Grants) :
    Option Status × BFrame :=
  if f.content.isTable ∧ key.isSome ∧ ¬ g.key then (some .errAlloc, f)
  else
    match f.check key elementIsTable with
    | .error st => (some st, f)
    | .ok f' => (if g.link then none else some .errAlloc, f')

namespace Builder

/-- `put_scalar`, and the write of the value. -/
def putScalarWith (b : Builder) (g : Grants) (key : Option Bytes) (n : Node) :
    Option Status × Builder :=
  if ¬ g.node then (some .errAlloc, b)
  else
    match b.cur.attach key false g with
    | (some st, f) => (some st, { b with cur := f })
    | (none, f) => (none, { b with cur := f.add (key.getD []) n })

/-- `teptris_builder_put_string`: the node is attached before the string is copied. -/
def putStringWith (b : Builder) (g : Grants) (key : Option Bytes) (s : Bytes) :
    Option Status × Builder :=
  match b.putScalarWith g key (.string (if g.value then s else [])) with
  | (none, b') => (if g.value then none else some .errAlloc, b')
  | res => res

/-- The node of a container, and `push_container`. -/
def pushContainerWith (b : Builder) (g : Grants) (key : Option Bytes) (elementIsTable : Bool)
    (c : BContent) : Option Status × Builder :=
  if ¬ g.node then (some .errAlloc, b)
  else
    match b.cur.attach key elementIsTable g with
    | (some st, f) => (some st, { b with cur := f })
    | (none, f) =>
      if builderMaxDepth ≤ b.depth + 1 then
        (some .errDepth, { b with cur := f.add (key.getD []) c.node })
      else (none, ⟨⟨key.getD [], c⟩, f :: b.outer⟩)

/-- `teptris_builder_open_table`. -/
def openTableWith (b : Builder) (g : Grants) (key : Option Bytes) : Option Status × Builder :=
  let flag : TblFlag := if inlineTerritory b.cur then .inline else .explicit
  b.pushContainerWith g key true (.table flag [])

/-- `teptris_builder_open_array`. -/
def openArrayWith (b : Builder) (g : Grants) (key : Option Bytes) : Option Status × Builder :=
  match b.pushContainerWith g key false (.array false .undecided []) with
  | (none, b) =>
    if b.outer.head?.any inlineTerritory then
      (none, { b with cur := { b.cur with content := .array false .inline [] } })
    else (none, b)
  | res => res

/-- `teptris_builder_open_inline_array`. -/
def openInlineArrayWith (b : Builder) (g : Grants) (key : Option Bytes) :
    Option Status × Builder :=
  match b.pushContainerWith g key false (.array false .undecided []) with
  | (none, b) => (none, { b with cur := { b.cur with content := .array false .inline [] } })
  | res => res

/-- What a call does when some of its allocations may be refused. -/
def callWith (b : Builder) (g : Grants) : BCall → Option Status × Builder
  | .putString key s => b.putStringWith g key s
  | .putInteger key v => b.putScalarWith g key (.integer v)
  | .putFloat key v => b.putScalarWith g key (.float v)
  | .putBoolean key v => b.putScalarWith g key (.boolean v)
  | .putDatetime key kind dt =>
    if datetimeOk kind dt then b.putScalarWith g key (.datetime kind dt) else (some .errArg, b)
  | .openTable key => b.openTableWith g key
  | .openArray key => b.openArrayWith g key
  | .openInlineArray key => b.openInlineArrayWith g key
  | .close => b.close

end Builder

/-- A call of a session. -/
inductive SessionCall where
  /-- A call on the open document. -/
  | op (c : BCall)
  /-- `teptris_builder_put_datetime` with a kind that is none of the four. -/
  | otherKind (key : Option Bytes) (dt : Datetime)
  /-- `teptris_builder_finish`. -/
  | finish

/-- A builder, and whether its document was handed over. -/
structure Session where
  /-- The builder. -/
  builder : Builder
  /-- `doc` is a null pointer. -/
  finished : Bool

namespace Session

/-- `teptris_builder_new`. -/
def new : Session := ⟨.new, false⟩

/-- A call on a builder whose document was handed over: a datetime is checked first. -/
def closedStatus : BCall → Status
  | .putDatetime _ kind dt => if datetimeOk kind dt then .errState else .errArg
  | _ => .errState

/-- What a call does: its status, `none` for `TEPTRIS_OK`, and the session behind it. -/
def call (s : Session) (g : Grants) : SessionCall → Option Status × Session
  | .op c =>
    if s.finished then (some (closedStatus c), s)
    else ((s.builder.callWith g c).1, { s with builder := (s.builder.callWith g c).2 })
  | .otherKind _ _ => (some .errArg, s)
  | .finish =>
    if s.finished then (some .errState, s)
    else
      match s.builder.finish with
      | .error st => (some st, s)
      | .ok _ => (none, { s with finished := true })

/-- The session behind some calls, failed ones among them. -/
def run (calls : List (SessionCall × Grants)) : Session :=
  calls.foldl (fun s c => (s.call c.2 c.1).2) .new

end Session

/-! ## What a caller sees -/

/-- The document with the open containers in their places. -/
def plug : List BFrame → Bytes → Node → Node
  | [], _, n => n
  | f :: fs, key, n => plug fs f.key (f.add key n).content.node

/-- The nature of an array. -/
def BContent.nature : BContent → Option ArrNature
  | .table _ _ => none
  | .array _ nature _ => some nature

/-- What can be seen of a session. -/
structure View where
  /-- The document. -/
  tree : Node
  /-- The open containers, innermost first: a table, or an array with its nature. -/
  frames : List (Option ArrNature)
  /-- The document was handed over. -/
  finished : Bool

/-- The document of a builder. -/
def Builder.tree (b : Builder) : Node := plug b.outer b.cur.key b.cur.content.node

/-- The open containers of a builder. -/
def Builder.frames (b : Builder) : List (Option ArrNature) :=
  (b.cur :: b.outer).map fun f => f.content.nature

/-- The view of a session. -/
def Session.view (s : Session) : View := ⟨s.builder.tree, s.builder.frames, s.finished⟩

/-- A change of the last child. -/
def Node.onLast (g : Node → Option Node) : Node → Option Node
  | .table flag es =>
    match es.getLast? with
    | some (k, v) => (g v).map fun v' => .table flag (es.dropLast ++ [(k, v')])
    | none => none
  | .array aot items =>
    match items.getLast? with
    | some v => (g v).map fun v' => .array aot (items.dropLast ++ [v'])
    | none => none
  | _ => none

/-- A change of the node `depth` last children down. -/
def Node.onOpen : ℕ → (Node → Option Node) → Node → Option Node
  | 0, g => g
  | depth + 1, g => onOpen depth (onLast g)

/-- The documented place of a new node: a new entry of a table where a key is given, the last
element of an array where none is. -/
def Node.place (key : Option Bytes) (sections : Bool) (n : Node) : Node → Option Node
  | .table flag es =>
    match key with
    | some k =>
      if (probe (.ofBytes k) es).isSome then none else some (.table flag (es ++ [(.ofBytes k, n)]))
    | none => none
  | .array aot items =>
    match key with
    | some _ => none
    | none => some (.array (aot || sections) (items ++ [n]))
  | _ => none

/-- The first element decides: a table makes the array an array of tables, anything else makes
it inline. -/
def ArrNature.decided (nature : ArrNature) (elementIsTable : Bool) : ArrNature :=
  if nature = .undecided then if elementIsTable then .aotSections else .inline else nature

namespace View

/-- One new node at its documented place in the current container. -/
def add (v : View) (key : Option Bytes) (elementIsTable : Bool) (n : Node) : Option View :=
  match v.frames with
  | [] => none
  | nature :: outer =>
    let sections := elementIsTable && nature = some .undecided
    (Node.onOpen outer.length (Node.place key sections n) v.tree).map fun t =>
      ⟨t, nature.map (·.decided elementIsTable) :: outer, v.finished⟩

/-- A new container at its documented place, and on the stack. -/
def Opens (v : View) (key : Option Bytes) (elementIsTable : Bool) (c : BContent) (v' : View) :
    Prop :=
  ∃ v₁, v.add key elementIsTable c.node = some v₁ ∧
    v' = { v₁ with frames := c.nature :: v₁.frames }

/-- The documented effect of a call. -/
def Effect (v : View) : SessionCall → View → Prop
  | .op (.putString key s), v' => v.add key false (.string s) = some v'
  | .op (.putInteger key i), v' => v.add key false (.integer i) = some v'
  | .op (.putFloat key f), v' => v.add key false (.float f) = some v'
  | .op (.putBoolean key b), v' => v.add key false (.boolean b) = some v'
  | .op (.putDatetime key kind dt), v' => v.add key false (.datetime kind dt) = some v'
  | .op (.openTable key), v' => ∃ flag, v.Opens key true (.table flag []) v'
  | .op (.openArray key), v' => ∃ nature, v.Opens key false (.array false nature []) v'
  | .op (.openInlineArray key), v' => v.Opens key false (.array false .inline []) v'
  | .op .close, v' => 1 < v.frames.length ∧ v' = { v with frames := v.frames.tail }
  | .otherKind _ _, _ => False
  | .finish, v' => v.frames.length = 1 ∧ v' = { v with finished := true }

end View

/-- A call is atomic: it has its documented effect, or it fails and nothing changes. -/
def Session.Atomic (s : Session) (c : SessionCall) (g : Grants) : Prop :=
  match s.call g c with
  | (none, s') => s.view.Effect c s'.view
  | (some _, s') => s'.view = s.view

/-! ## When a call is atomic -/

namespace BCall

/-- The key of a call. -/
def key : BCall → Option Bytes
  | .putString key _ | .putInteger key _ | .putFloat key _ | .putBoolean key _
  | .putDatetime key _ _ | .openTable key | .openArray key | .openInlineArray key => key
  | .close => none

/-- The call attaches a table. -/
def elementIsTable : BCall → Bool
  | .openTable _ => true
  | _ => false

/-- The call opens a container. -/
def opens : BCall → Bool
  | .openTable _ | .openArray _ | .openInlineArray _ => true
  | _ => false

/-- The call copies a string. -/
def copies : BCall → Bool
  | .putString _ _ => true
  | _ => false

/-- The call has a node to attach. -/
def attaches : BCall → Bool
  | .putDatetime _ kind dt => datetimeOk kind dt
  | .close => false
  | _ => true

end BCall

/-- The container takes the element: a value does not go among sections, and a table wants a key
it does not have. -/
def BContent.accepts (c : BContent) (key : Option Bytes) (elementIsTable : Bool) : Bool :=
  match c with
  | .array _ nature _ => elementIsTable || nature ≠ .aotSections
  | .table _ es => key.any fun k => (probe (.ofBytes k) es).isNone

/-- The call gets as far as the insertion. -/
structure Builder.Inserts (b : Builder) (c : BCall) (g : Grants) : Prop where
  /-- There is a node. -/
  attaches : c.attaches = true
  /-- It was allocated. -/
  node : g.node = true
  /-- The current container takes it. -/
  accepts : b.cur.content.accepts c.key c.elementIsTable = true
  /-- The key was copied. -/
  key : b.cur.content.isTable = true → g.key = true

/-- A call that gets as far as the insertion meets none of the late failures: no key is given
where an array is current, the stack has room for an opened container, a string is copied, and
an array that cannot grow has its nature. -/
def Session.Clean (s : Session) (g : Grants) : SessionCall → Prop
  | .op c => s.finished = false → s.builder.Inserts c g →
      (g.link = true → (s.builder.cur.content.isTable = false → c.key = none) ∧
        (c.opens = true → s.builder.depth + 1 < builderMaxDepth) ∧
        (c.copies = true → g.value = true)) ∧
      (g.link = false → s.builder.cur.content.nature ≠ some .undecided)
  | _ => True

/-! ### Frames -/

/-- The container after an element it takes. -/
def BFrame.decided (f : BFrame) (elementIsTable : Bool) : BFrame :=
  match f.content with
  | .table _ _ => f
  | .array aot nature items =>
    { f with
      content := .array (aot || (elementIsTable && nature = .undecided))
        (nature.decided elementIsTable) items }

lemma BFrame.check_eq (f : BFrame) (key : Option Bytes) (elementIsTable : Bool) :
    f.check key elementIsTable =
      if f.content.accepts key elementIsTable then .ok (f.decided elementIsTable)
      else .error .errArg := by
  obtain ⟨k, ⟨flag, es⟩ | ⟨aot, nature, items⟩⟩ := f
  · cases key with
    | none => simp [check, BContent.accepts]
    | some key =>
      cases hprobe : probe (.ofBytes key) es <;>
        simp [check, BContent.accepts, decided, hprobe]
  · cases nature <;> cases elementIsTable <;>
      simp [check, BContent.accepts, decided, ArrNature.decided]

/-- A call that does not get as far as the insertion leaves the container. -/
lemma BFrame.attach_refused {f : BFrame} {key : Option Bytes} {elementIsTable : Bool} {g : Grants}
    (h : ¬ (f.content.accepts key elementIsTable = true ∧
      (f.content.isTable = true → g.key = true))) :
    ∃ st, f.attach key elementIsTable g = (some st, f) := by
  rw [attach, check_eq]
  by_cases haccepts : f.content.accepts key elementIsTable = true
  · have hrefused : f.content.isTable = true ∧ ¬ g.key = true := by
      push Not at h
      exact h haccepts
    have hsome : key.isSome = true := by
      obtain ⟨k, ⟨flag, es⟩ | ⟨aot, nature, items⟩⟩ := f
      · cases key with
        | none => simp [BContent.accepts] at haccepts
        | some key => rfl
      · simp [BContent.isTable] at hrefused
    rw [if_pos ⟨hrefused.1, hsome, hrefused.2⟩]
    exact ⟨_, rfl⟩
  · rw [if_neg haccepts]
    by_cases hkey : f.content.isTable = true ∧ key.isSome = true ∧ ¬ g.key = true
    · rw [if_pos hkey]
      exact ⟨_, rfl⟩
    · rw [if_neg hkey]
      exact ⟨_, rfl⟩

/-- A call that gets there decides the nature of an array, whether or not it can grow. -/
lemma BFrame.attach_inserts {f : BFrame} {key : Option Bytes} {elementIsTable : Bool} {g : Grants}
    (haccepts : f.content.accepts key elementIsTable = true)
    (hkey : f.content.isTable = true → g.key = true) :
    f.attach key elementIsTable g =
      (if g.link then none else some .errAlloc, f.decided elementIsTable) := by
  rw [attach, check_eq, if_neg, if_pos haccepts]
  rintro ⟨htable, -, hg⟩
  exact hg (hkey htable)

/-! ### Documents -/

/-- The last child of a container is the one added last. -/
lemma onLast_add (f : BFrame) (key : Bytes) (n : Node) (g : Node → Option Node) :
    (f.add key n).content.node.onLast g =
      (g n).map fun n' => (f.add key n').content.node := by
  obtain ⟨k, _ | _⟩ := f <;> simp [BFrame.add, BContent.node, Node.onLast, insert]

/-- The current container is reached from the root by last children. -/
lemma onOpen_plug (fs : List BFrame) (key : Bytes) (n : Node) (g : Node → Option Node) :
    Node.onOpen fs.length g (plug fs key n) = (g n).map (plug fs key) := by
  induction fs generalizing key n g with
  | nil => simp [Node.onOpen, plug]
  | cons f fs ih =>
    rw [List.length_cons, Node.onOpen, plug, ih, onLast_add, Option.map_map]
    rfl

lemma add_injective {f : BFrame} {key : Bytes} {n m : Node}
    (h : (f.add key n).content.node = (f.add key m).content.node) : n = m := by
  obtain ⟨k, _ | _⟩ := f <;> simpa [BFrame.add, BContent.node, insert] using h

lemma plug_injective {fs : List BFrame} {key : Bytes} {n m : Node}
    (h : plug fs key n = plug fs key m) : n = m := by
  induction fs generalizing key n m with
  | nil => exact h
  | cons f fs ih => exact add_injective (ih h)

/-- A container that took an element is another one. -/
lemma add_ne (f : BFrame) (elementIsTable : Bool) (key : Bytes) (n : Node) :
    ((f.decided elementIsTable).add key n).content.node ≠ f.content.node := by
  obtain ⟨k, _ | _⟩ := f <;> simp [BFrame.add, BFrame.decided, BContent.node, insert]

@[simp] lemma decided_key (f : BFrame) (elementIsTable : Bool) :
    (f.decided elementIsTable).key = f.key := by
  obtain ⟨k, _ | _⟩ := f <;> rfl

/-- The documented place of an element is where `attach` puts it, unless it has a key in an
array. -/
lemma place_eq (f : BFrame) {key : Option Bytes} {elementIsTable : Bool} (n : Node)
    (h : f.content.accepts key elementIsTable = true) :
    Node.place key (elementIsTable && f.content.nature = some .undecided) n f.content.node =
      if f.content.isTable = false ∧ key.isSome then none
      else some ((f.decided elementIsTable).add (key.getD []) n).content.node := by
  obtain ⟨k, ⟨flag, es⟩ | ⟨aot, nature, items⟩⟩ := f
  · cases key with
    | none => simp [BContent.accepts] at h
    | some key =>
      have hprobe : (probe (.ofBytes key) es).isSome = false := by
        simpa [BContent.accepts] using h
      simp [BContent.node, Node.place, hprobe, BFrame.decided, BFrame.add, BContent.isTable,
        insert]
  · cases key <;> simp [BContent.node, Node.place, BFrame.decided, BFrame.add, BContent.isTable,
      BContent.nature]

@[simp] lemma add_nature (f : BFrame) (key : Bytes) (n : Node) :
    (f.add key n).content.nature = f.content.nature := by
  obtain ⟨k, _ | _⟩ := f <;> rfl

lemma decided_nature (f : BFrame) (elementIsTable : Bool) :
    (f.decided elementIsTable).content.nature =
      f.content.nature.map (·.decided elementIsTable) := by
  obtain ⟨k, _ | _⟩ := f <;> rfl

/-! ### Views -/

namespace Builder

/-- What is seen of a builder whose document was not handed over. -/
def view (b : Builder) : View := ⟨b.tree, b.frames, false⟩

/-- The builder with the nature of the current container decided. -/
def decided (b : Builder) (elementIsTable : Bool) : Builder :=
  { b with cur := b.cur.decided elementIsTable }

/-- The builder with a new node in the current container. -/
def added (b : Builder) (key : Option Bytes) (elementIsTable : Bool) (n : Node) : Builder :=
  { b with cur := (b.cur.decided elementIsTable).add (key.getD []) n }

/-- The builder with a new container opened. -/
def opened (b : Builder) (key : Option Bytes) (elementIsTable : Bool) (c : BContent) : Builder :=
  ⟨⟨key.getD [], c⟩, b.cur.decided elementIsTable :: b.outer⟩

variable {b : Builder} {key : Option Bytes} {elementIsTable : Bool}

lemma add_key (f : BFrame) (key : Bytes) (n : Node) : (f.add key n).key = f.key := by
  obtain ⟨k, _ | _⟩ := f <;> rfl

/-- The documented effect of adding a node is what `attach` does, unless it has a key in an
array. -/
lemma view_add (n : Node) (h : b.cur.content.accepts key elementIsTable = true) :
    b.view.add key elementIsTable n =
      if b.cur.content.isTable = false ∧ key.isSome then none
      else some (b.added key elementIsTable n).view := by
  rw [View.add, view, frames, List.map_cons]
  dsimp only
  rw [List.length_map, tree, onOpen_plug, place_eq b.cur n h]
  split_ifs
  · rfl
  · rw [Option.map_some, Option.map_some, view, tree, frames, added, List.map_cons, add_key,
      decided_key, add_nature, decided_nature]

/-- A container that is opened is seen in the place of a node. -/
lemma view_opened (c : BContent) :
    (b.opened key elementIsTable c).view =
      { (b.added key elementIsTable c.node).view with
        frames := c.nature :: (b.added key elementIsTable c.node).frames } := by
  rw [view, view, tree, tree, frames, frames, opened, added, plug, List.map_cons, List.map_cons,
    List.map_cons, add_key, add_nature]

/-- A node that was added is seen. -/
lemma view_added_ne (n : Node) : (b.added key elementIsTable n).view ≠ b.view := by
  intro h
  have htree := congrArg View.tree h
  rw [view, view, tree, tree, added, add_key, decided_key] at htree
  exact add_ne b.cur elementIsTable _ n (plug_injective htree)

/-- A nature that was decided is seen. -/
lemma view_decided_iff :
    (b.decided elementIsTable).view = b.view ↔ b.cur.content.nature ≠ some .undecided := by
  constructor
  · intro h hnature
    have hframes := congrArg View.frames h
    simp only [view, frames, decided, List.map_cons, decided_nature, hnature, List.cons.injEq,
      and_true] at hframes
    cases elementIsTable <;> simp [ArrNature.decided] at hframes
  · intro h
    have hcur : b.cur.decided elementIsTable = b.cur := by
      obtain ⟨⟨k, ⟨flag, es⟩ | ⟨aot, nature, items⟩⟩, fs⟩ := b
      · rfl
      · have hnature : nature ≠ .undecided := fun hn => h (by rw [hn]; rfl)
        simp [BFrame.decided, ArrNature.decided, hnature]
    rw [decided, hcur]

end Builder

/-! ### Calls -/

/-- A result has its effect, or is an error behind which nothing changed. -/
def Builder.Behaves (b : Builder) (effect : View → Prop) : Option Status × Builder → Prop
  | (none, b') => effect b'.view
  | (some _, b') => b'.view = b.view

/-- What is left of `Inserts` for a call with these arguments. -/
def BFrame.Takes (f : BFrame) (key : Option Bytes) (elementIsTable : Bool) (g : Grants) : Prop :=
  g.node = true ∧ f.content.accepts key elementIsTable = true ∧
    (f.content.isTable = true → g.key = true)

/-- What is left of `Clean` for a call with these arguments. -/
def Builder.Safe (b : Builder) (g : Grants) (key : Option Bytes)
    (elementIsTable opens copies : Bool) : Prop :=
  b.cur.Takes key elementIsTable g →
    (g.link = true → (b.cur.content.isTable = false → key = none) ∧
      (opens = true → b.depth + 1 < builderMaxDepth) ∧ (copies = true → g.value = true)) ∧
    (g.link = false → b.cur.content.nature ≠ some .undecided)

namespace Builder

variable {b : Builder} {key : Option Bytes} {elementIsTable : Bool} {g : Grants}

lemma putScalarWith_refused {n : Node} (h : ¬ b.cur.Takes key false g) :
    ∃ st, b.putScalarWith g key n = (some st, b) := by
  rw [putScalarWith]
  by_cases hnode : g.node = true
  · obtain ⟨st, hst⟩ := BFrame.attach_refused (g := g) fun ht => h ⟨hnode, ht⟩
    rw [if_neg (not_not.mpr hnode), hst]
    exact ⟨st, rfl⟩
  · rw [if_pos hnode]
    exact ⟨_, rfl⟩

lemma putScalarWith_takes {n : Node} (h : b.cur.Takes key false g) :
    b.putScalarWith g key n =
      if g.link then (none, b.added key false n) else (some .errAlloc, b.decided false) := by
  obtain ⟨hnode, haccepts, hkey⟩ := h
  rw [putScalarWith, if_neg (not_not.mpr hnode), BFrame.attach_inserts haccepts hkey]
  cases g.link <;> rfl

lemma pushContainerWith_refused {c : BContent} (h : ¬ b.cur.Takes key elementIsTable g) :
    ∃ st, b.pushContainerWith g key elementIsTable c = (some st, b) := by
  rw [pushContainerWith]
  by_cases hnode : g.node = true
  · obtain ⟨st, hst⟩ := BFrame.attach_refused (g := g) fun ht => h ⟨hnode, ht⟩
    rw [if_neg (not_not.mpr hnode), hst]
    exact ⟨st, rfl⟩
  · rw [if_pos hnode]
    exact ⟨_, rfl⟩

lemma pushContainerWith_takes {c : BContent} (h : b.cur.Takes key elementIsTable g) :
    b.pushContainerWith g key elementIsTable c =
      if g.link then
        if builderMaxDepth ≤ b.depth + 1 then
          (some .errDepth, b.added key elementIsTable c.node)
        else (none, b.opened key elementIsTable c)
      else (some .errAlloc, b.decided elementIsTable) := by
  obtain ⟨hnode, haccepts, hkey⟩ := h
  rw [pushContainerWith, if_neg (not_not.mpr hnode), BFrame.attach_inserts haccepts hkey]
  cases g.link <;> rfl

/-- No key in an array, as a condition on what `view_add` tests. -/
lemma keyed_iff : ¬ (b.cur.content.isTable = false ∧ key.isSome = true) ↔
    (b.cur.content.isTable = false → key = none) := by
  rw [not_and, Option.not_isSome_iff_eq_none]

lemma view_add_iff (n : Node) (h : b.cur.content.accepts key elementIsTable = true) :
    b.view.add key elementIsTable n = some (b.added key elementIsTable n).view ↔
      (b.cur.content.isTable = false → key = none) := by
  rw [view_add n h, ← keyed_iff]
  split_ifs with hkeyed <;> simp [hkeyed]

lemma putScalarWith_behaves_iff {n : Node} :
    b.Behaves (fun v => b.view.add key false n = some v) (b.putScalarWith g key n) ↔
      b.Safe g key false false false := by
  rw [Safe]
  by_cases h : b.cur.Takes key false g
  · rw [putScalarWith_takes h]
    cases hlink : g.link
    · simp [Behaves, h, view_decided_iff]
    · simp [Behaves, h, view_add_iff n h.2.1]
  · obtain ⟨st, hst⟩ := putScalarWith_refused (n := n) h
    simp [Behaves, hst, h]

lemma putStringWith_behaves_iff {str : Bytes} :
    b.Behaves (fun v => b.view.add key false (.string str) = some v) (b.putStringWith g key str) ↔
      b.Safe g key false false true := by
  rw [putStringWith, Safe]
  by_cases h : b.cur.Takes key false g
  · rw [putScalarWith_takes h]
    cases hlink : g.link
    · simp [Behaves, h, view_decided_iff]
    · cases hvalue : g.value
      · simp [Behaves, h, view_added_ne]
      · simp [Behaves, h, view_add_iff _ h.2.1]
  · obtain ⟨st, hst⟩ := putScalarWith_refused (n := .string (if g.value then str else [])) h
    simp [Behaves, hst, h]

/-- Opening a container, with what the caller still does to it in `pin`. -/
lemma pushContainerWith_behaves_iff {c : BContent} {effect : View → Prop}
    {pin : Builder → Builder}
    (heffect : b.cur.content.accepts key elementIsTable = true →
      (effect (pin (b.opened key elementIsTable c)).view ↔
        (b.cur.content.isTable = false → key = none))) :
    b.Behaves effect (match b.pushContainerWith g key elementIsTable c with
      | (none, b') => (none, pin b')
      | res => res) ↔ b.Safe g key elementIsTable true false := by
  rw [Safe]
  by_cases h : b.cur.Takes key elementIsTable g
  · rw [pushContainerWith_takes h]
    cases hlink : g.link
    · simp [Behaves, h, view_decided_iff]
    · by_cases hlimit : builderMaxDepth ≤ b.depth + 1
      · simp [Behaves, h, hlimit, view_added_ne, Nat.not_lt.mpr hlimit]
      · simp [Behaves, h, hlimit, Nat.not_le.mp hlimit, heffect h.2.1]
  · obtain ⟨st, hst⟩ := pushContainerWith_refused (c := c) h
    simp [Behaves, hst, h]

/-- A container is opened without a key where an array is current. -/
lemma keyless_of_opens {c : BContent} {v : View}
    (haccepts : b.cur.content.accepts key elementIsTable = true)
    (h : b.view.Opens key elementIsTable c v) : b.cur.content.isTable = false → key = none := by
  obtain ⟨v₁, hadd, -⟩ := h
  rw [view_add c.node haccepts] at hadd
  rw [← keyed_iff]
  intro hkeyed
  simp [hkeyed] at hadd

/-- Then it is seen in its place and on the stack. -/
lemma opens_opened {c : BContent} (haccepts : b.cur.content.accepts key elementIsTable = true)
    (h : b.cur.content.isTable = false → key = none) :
    b.view.Opens key elementIsTable c (b.opened key elementIsTable c).view :=
  ⟨_, (view_add_iff c.node haccepts).mpr h, view_opened c⟩

lemma openTableWith_behaves_iff :
    b.Behaves (b.view.Effect (.op (.openTable key))) (b.openTableWith g key) ↔
      b.Safe g key true true false := by
  have hmatch : b.openTableWith g key =
      match b.pushContainerWith g key true
          (.table (if inlineTerritory b.cur then .inline else .explicit) []) with
      | (none, b') => (none, id b')
      | res => res := by
    rw [openTableWith]
    cases b.pushContainerWith g key true
        (.table (if inlineTerritory b.cur then .inline else .explicit) []) with
    | mk st b' => cases st <;> rfl
  rw [hmatch]
  refine pushContainerWith_behaves_iff fun haccepts => ⟨?_, fun h => ?_⟩
  · rintro ⟨flag, hopens⟩
    exact keyless_of_opens haccepts hopens
  · exact ⟨_, opens_opened haccepts h⟩

lemma openArrayWith_behaves_iff :
    b.Behaves (b.view.Effect (.op (.openArray key))) (b.openArrayWith g key) ↔
      b.Safe g key false true false := by
  have hmatch : b.openArrayWith g key =
      match b.pushContainerWith g key false (.array false .undecided []) with
      | (none, b') => (none, if b'.outer.head?.any inlineTerritory then
          { b' with cur := { b'.cur with content := .array false .inline [] } } else b')
      | res => res := by
    rw [openArrayWith]
    split
    · split_ifs <;> rfl
    · rfl
  rw [hmatch]
  refine pushContainerWith_behaves_iff fun haccepts => ⟨?_, fun h => ?_⟩
  · rintro ⟨nature, hopens⟩
    exact keyless_of_opens haccepts hopens
  · split_ifs
    · exact ⟨.inline, opens_opened (c := .array false .inline []) haccepts h⟩
    · exact ⟨.undecided, opens_opened haccepts h⟩

lemma openInlineArrayWith_behaves_iff :
    b.Behaves (b.view.Effect (.op (.openInlineArray key))) (b.openInlineArrayWith g key) ↔
      b.Safe g key false true false :=
  pushContainerWith_behaves_iff fun haccepts =>
    ⟨keyless_of_opens haccepts, opens_opened (c := .array false .inline []) haccepts⟩

/-- A closed container stays where it was attached. -/
lemma close_behaves : b.Behaves (b.view.Effect (.op .close)) b.close := by
  rw [close]
  split
  · rfl
  next f fs houter =>
  have htree : b.tree = plug (f :: fs) b.cur.key b.cur.content.node := by rw [tree, houter]
  have hframes : b.frames = b.cur.content.nature :: f.content.nature ::
      fs.map fun f => f.content.nature := by
    rw [frames, houter]
    rfl
  refine ⟨by simp [view, hframes], ?_⟩
  rw [view, view, htree, hframes, tree, frames, List.tail_cons, List.map_cons, add_key,
    add_nature, plug]

end Builder

/-! ### Sessions -/

namespace Session

variable {s : Session} {g : Grants}

/-- A call of an open session is what the builder does. -/
lemma atomic_op_iff (hopen : s.finished = false) (c : BCall) :
    s.Atomic (.op c) g ↔
      s.builder.Behaves (s.builder.view.Effect (.op c)) (s.builder.callWith g c) := by
  have hview : s.view = s.builder.view := by rw [view, Builder.view, hopen]
  rw [Atomic, call, if_neg (by simp [hopen]), hview]
  cases hr : s.builder.callWith g c with
  | mk st b' =>
    have hview' : view { s with builder := b' } = b'.view := by rw [view, Builder.view, hopen]
    cases st <;> simp only [Builder.Behaves, hview']

/-- Every call, in every state, is atomic exactly where it meets none of the late failures. -/
lemma atomic_iff_clean (s : Session) (c : SessionCall) (g : Grants) :
    s.Atomic c g ↔ s.Clean g c := by
  cases c with
  | otherKind key dt => exact iff_of_true rfl trivial
  | finish =>
    refine iff_of_true ?_ trivial
    rw [Atomic, call]
    split_ifs with hfin
    · rfl
    · cases houter : s.builder.outer with
      | nil => simp [Builder.finish, houter, View.Effect, view, Builder.frames]
      | cons f fs => simp [Builder.finish, houter]
  | op c =>
    cases hfin : s.finished with
    | true => exact iff_of_true (by simp [Atomic, call, hfin]) (by simp [Clean, hfin])
    | false =>
      rw [atomic_op_iff hfin]
      have hclean : ∀ c : BCall, c.attaches = true →
          (s.Clean g (.op c) ↔ s.builder.Safe g c.key c.elementIsTable c.opens c.copies) :=
        fun c hc => ⟨fun h ht => h hfin ⟨hc, ht.1, ht.2.1, ht.2.2⟩,
          fun h _ hi => h ⟨hi.node, hi.accepts, hi.key⟩⟩
      cases c with
      | putString key str =>
        rw [hclean _ rfl]
        exact Builder.putStringWith_behaves_iff
      | putInteger key v | putFloat key v | putBoolean key v =>
        rw [hclean _ rfl]
        exact Builder.putScalarWith_behaves_iff
      | putDatetime key kind dt =>
        rw [Builder.callWith]
        split_ifs with hok
        · rw [hclean (.putDatetime key kind dt) hok]
          exact Builder.putScalarWith_behaves_iff
        · exact iff_of_true rfl fun _ h => absurd h.attaches hok
      | openTable key =>
        rw [hclean _ rfl]
        exact Builder.openTableWith_behaves_iff
      | openArray key =>
        rw [hclean _ rfl]
        exact Builder.openArrayWith_behaves_iff
      | openInlineArray key =>
        rw [hclean _ rfl]
        exact Builder.openInlineArrayWith_behaves_iff
      | close =>
        exact iff_of_true Builder.close_behaves fun _ h => absurd h.attaches (by decide)

/-- A property of every call of a run, in the state the call meets. -/
def EachCall (P : Session → SessionCall → Grants → Prop) :
    Session → List (SessionCall × Grants) → Prop
  | _, [] => True
  | s, (c, g) :: calls => P s c g ∧ EachCall P (s.call g c).2 calls

lemma eachCall_congr {P Q : Session → SessionCall → Grants → Prop}
    (h : ∀ s c g, P s c g ↔ Q s c g) (s : Session) (calls : List (SessionCall × Grants)) :
    EachCall P s calls ↔ EachCall Q s calls := by
  induction calls generalizing s with
  | nil => rfl
  | cons call calls ih =>
    obtain ⟨c, g⟩ := call
    rw [EachCall, EachCall, h, ih]

end Session

/-- In every reachable state, each call with each outcome of its allocations is atomic exactly
where it meets none of the late failures; so a run is atomic exactly where each call of it
meets none. -/
theorem session_atomic_iff (calls : List (SessionCall × Grants)) :
    (∀ c g, (Session.run calls).Atomic c g ↔ (Session.run calls).Clean g c) ∧
      (Session.EachCall Session.Atomic .new calls ↔
        Session.EachCall (fun s c g => s.Clean g c) .new calls) :=
  ⟨Session.atomic_iff_clean _, Session.eachCall_congr Session.atomic_iff_clean _ calls⟩

/-- With the array `a` current, an integer under the key `k` becomes its element. -/
theorem session_keyed_element :
    ((Session.run [(.op (.openArray (some [0x61])), .all)]).call .all
        (.op (.putInteger (some [0x6B]) 1))).1 = none ∧
      ¬ (Session.run [(.op (.openArray (some [0x61])), .all)]).Atomic
        (.op (.putInteger (some [0x6B]) 1)) .all := by
  refine ⟨rfl, fun h => ?_⟩
  have hclean := (Session.atomic_iff_clean _ _ _).mp h rfl ⟨rfl, rfl, rfl, fun _ => rfl⟩
  exact Option.some_ne_none _ ((hclean.1 rfl).1 rfl)

/-! ## Calls whose allocations are granted -/

lemma BFrame.attach_all (f : BFrame) (key : Option Bytes) (elementIsTable : Bool) :
    f.attach key elementIsTable .all =
      match f.check key elementIsTable with
      | .error st => (some st, f)
      | .ok f' => (none, f') := by
  rw [attach, if_neg (by simp [Grants.all])]
  rfl

/-- A session whose allocations are granted is a run of the builder. -/
theorem Builder.callWith_all (b : Builder) (c : BCall) : b.callWith .all c = b.call c := by
  have hput : ∀ (key : Option Bytes) (n : Node),
      b.putScalarWith .all key n = b.putScalar key n := by
    intro key n
    rw [putScalarWith, putScalar, if_neg (by simp [Grants.all]), BFrame.attach_all]
    cases b.cur.check key false <;> rfl
  have hpush : ∀ (key : Option Bytes) (elementIsTable : Bool) (c : BContent),
      b.pushContainerWith .all key elementIsTable c = b.pushContainer key elementIsTable c := by
    intro key elementIsTable c
    rw [pushContainerWith, pushContainer, if_neg (by simp [Grants.all]), BFrame.attach_all]
    cases b.cur.check key elementIsTable <;> rfl
  cases c with
  | putString key str =>
    rw [callWith, putStringWith, hput, call]
    cases hr : b.putScalar key (.string str) with
    | mk st b' => cases st <;> simp [Grants.all, hr]
  | putInteger key v | putFloat key v | putBoolean key v => exact hput _ _
  | putDatetime key kind dt => rw [callWith, call, hput]
  | openTable key => rw [callWith, call, openTableWith, openTable, hpush]
  | openArray key =>
    have h := hpush key false (.array false .undecided [])
    cases hr : b.pushContainer key false (.array false .undecided []) with
    | mk st b' =>
      rw [hr] at h
      cases st <;> simp [callWith, call, openArrayWith, openArray, h, hr]
  | openInlineArray key =>
    have h := hpush key false (.array false .undecided [])
    cases hr : b.pushContainer key false (.array false .undecided []) with
    | mk st b' =>
      rw [hr] at h
      cases st <;> simp [callWith, call, openInlineArrayWith, openInlineArray, h, hr]
  | close => rfl

end Teptris
