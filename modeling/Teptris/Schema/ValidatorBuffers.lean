import Teptris.Library.Storage
import Teptris.Schema.Annotations
import Teptris.Schema.GraphWalk

/-!
# The buffers of the validator

The report, the annotation frames with their arrays and hash tables, and the dynamic scopes of
`vctx`, each with the capacity it records and the room it was given.  Any request for memory may be
refused.  `out_put`, `frame_grow`, `frame_add_key`, `frame_add_idx` and `scope_push` record the new
capacity before they ask for it, and leave it recorded when they are refused; `frame_merge_up`
records it behind the request.

As long as what the five ask for is granted, with the first hash table of a set, no capacity is
above the room and nothing is written outside; the first of these refusals breaks it
(`buffers_within_iff`).
-/

namespace Teptris

open Storage

/-! ## Arrays -/

/-- Why a step comes to no state. -/
inductive BufFault where
  /-- A cell is written that is not there. -/
  | outside
  /-- A loop does not end. -/
  | endless
deriving DecidableEq

/-- An array with the capacity that is recorded for it and the room it was given. -/
structure Recorded (α : Type) where
  /-- The elements. -/
  items : List α := []
  /-- The recorded capacity. -/
  cap : ℕ := 0
  /-- The number of cells that are there. -/
  room : ℕ := 0

/-- Pointers and `size_t` values in the largest object. -/
def wordLimit : ℕ := ptrdiffMax / 8

/-- `INT_MAX`. -/
def intMax : ℕ := 2 ^ 31 - 1

namespace Recorded

variable {α : Type}

/-- The elements are within the recorded capacity, and that is within the room. -/
def Kept (a : Recorded α) : Prop := a.items.length ≤ a.cap ∧ a.cap ≤ a.room

/-- The capacity behind a growth by one element. -/
def nextCap (first : ℕ) (a : Recorded α) : ℕ := if a.cap = 0 then first else a.cap * 2

/-- The growth by one element: the capacity is recorded, and then the room asked for. -/
def grow (first limit : ℕ) (granted : Bool) (a : Recorded α) : Recorded α × Bool :=
  if a.items.length = a.cap then
    if granted = true ∧ a.nextCap first ≤ limit then
      ({ a with cap := a.nextCap first, room := a.nextCap first }, true)
    else ({ a with cap := a.nextCap first }, false)
  else (a, true)

/-- The elements become these. -/
def store (a : Recorded α) (items : List α) : Except BufFault (Recorded α) :=
  if items.length ≤ a.room then .ok { a with items } else .error .outside

/-- What the growth by one element asks for is granted. -/
def GrowGranted (first limit : ℕ) (granted : Bool) (a : Recorded α) : Prop :=
  a.items.length = a.cap → granted = true ∧ a.nextCap first ≤ limit

/-- The growth of a merge by `n` elements: the room is asked for, and then recorded; nothing where
it is refused. -/
def mergeGrow (granted : Bool) (a : Recorded α) (n : ℕ) : Except BufFault (Option (Recorded α)) :=
  if a.cap < a.items.length + n then
    match doubleSize (a.items.length + n) (if a.cap = 0 then 8 else a.cap) with
    | none => .error .endless
    | some want =>
      if granted = true ∧ want ≤ wordLimit then .ok (some { a with cap := want, room := want })
      else .ok none
  else .ok (some a)

/-- There is room for `n` more elements, or the merge is given it. -/
def MergeGranted (granted : Bool) (a : Recorded α) (n : ℕ) : Prop :=
  a.cap < a.items.length + n → granted = true ∧
    ∃ want ∈ doubleSize (a.items.length + n) (if a.cap = 0 then 8 else a.cap), want ≤ wordLimit

end Recorded

/-! ## Annotations -/

/-- The keys or the indices of a frame, with their hash table. -/
structure AnnotSet (κ : Type) where
  /-- `keys` or `idx`. -/
  array : Recorded κ := {}
  /-- `khash` or `ihash`. -/
  slots : List (Option (κ × ℕ)) := []

namespace AnnotSet

variable {κ : Type} (hash : κ → ℕ)

/-- The elements and the slots. -/
def evalSet (s : AnnotSet κ) : EvalSet κ := ⟨s.array.items, s.slots⟩

/-- The table that an insertion asks for is granted: its slots are of 16 bytes. -/
def TableGranted (granted : Bool) (s : EvalSet κ) : Prop :=
  granted = true ∧ khashCapFor (s.items.length + 1) (s.items.length + 1) 16 * 16 ≤ ptrdiffMax

instance (granted : Bool) (s : EvalSet κ) : Decidable (TableGranted granted s) :=
  inferInstanceAs (Decidable (_ ∧ _))

/-- `frame_khash_insert` and `frame_ihash_insert`: without a new table the old one is filled, and
without an old one there is nothing to write to. -/
def insert (granted : Bool) (s : EvalSet κ) (k : κ) : Except BufFault (EvalSet κ) :=
  match if s.IsCrowded ∧ TableGranted granted s then s.build hash else some s with
  | none => .error .endless
  | some s =>
    if s.slots = [] then .error .outside
    else
      match EvalSet.place hash s.slots (k, s.items.length - 1) with
      | none => .error .endless
      | some slots => .ok { s with slots }

/-- The insertions of new elements, each with the answer to its request. -/
def insertAll : List κ → (ℕ → Bool) → EvalSet κ → Except BufFault (EvalSet κ)
  | [], _, s => .ok s
  | k :: ks, tables, s => (insert hash (tables 0) s k).bind (insertAll ks fun i => tables (i + 1))

/-- New elements in an array that has the room for them. -/
def append (tables : ℕ → Bool) (s : AnnotSet κ) (array : Recorded κ) (ks : List κ) :
    Except BufFault (AnnotSet κ) := do
  let array ← array.store (array.items ++ ks)
  let e ← insertAll hash ks tables ⟨array.items, s.slots⟩
  .ok ⟨array, e.slots⟩

/-- Drops the elements from `n` on. -/
def truncate (s : AnnotSet κ) (n : ℕ) : AnnotSet κ :=
  { s with array := { s.array with items := s.array.items.take n } }

/-- A half of `frame_merge_up`, with the answer whether it comes through. -/
def merge (granted : Bool) (tables : ℕ → Bool) (s : AnnotSet κ) (ks : List κ) :
    Except BufFault (AnnotSet κ × Bool) :=
  if ks = [] then .ok (s, true)
  else do
    match ← s.array.mergeGrow granted ks.length with
    | none => .ok (s, false)
    | some array => (s.append hash tables array ks).map (·, true)

/-- The first table of a merge is granted, where it comes to that. -/
def MergeGranted (granted : Bool) (tables : ℕ → Bool) (s : AnnotSet κ) (ks : List κ) : Prop :=
  ks ≠ [] → s.array.MergeGranted granted ks.length → s.slots = [] →
    TableGranted (tables 0) ⟨s.array.items ++ ks, s.slots⟩

variable [DecidableEq κ]

/-- `frame_add_key` and `frame_add_idx`. -/
def add (granted : Bool) (tables : ℕ → Bool) (s : AnnotSet κ) (k : κ) :
    Except BufFault (AnnotSet κ) :=
  match s.evalSet.seen hash k with
  | none => .error .endless
  | some true => .ok s
  | some false =>
    match s.array.grow 8 wordLimit granted with
    | (array, false) => .ok { s with array }
    | (array, true) => s.append hash tables array [k]

/-- What the addition of a new element asks for is granted, and the first table with it. -/
def AddGranted (granted : Bool) (tables : ℕ → Bool) (s : AnnotSet κ) (k : κ) : Prop :=
  s.evalSet.seen hash k = some false → s.array.GrowGranted 8 wordLimit granted ∧
    (s.slots = [] → TableGranted (tables 0) ⟨s.array.items ++ [k], s.slots⟩)

end AnnotSet

/-! ## The state -/

/-- `struct eval_frame`. -/
structure RoomFrame where
  /-- `inst`. -/
  inst : ℕ
  /-- `keys` and `khash`. -/
  keys : AnnotSet Bytes := {}
  /-- `idx` and `ihash`. -/
  idx : AnnotSet ℕ := {}

/-- The buffers of `vctx`. -/
structure VctxBuffers (N : Type) where
  /-- `buf`, without the terminator. -/
  report : Recorded UInt8 := {}
  /-- `frames`, the top one first. -/
  frames : Recorded RoomFrame := {}
  /-- `scopes`, the innermost first. -/
  scopes : Recorded (DynScope N) := {}

/-- The answers to the requests of a step, to those of its insertions one after the other. -/
structure BufAnswers where
  /-- For `buf`. -/
  report : Bool
  /-- For `frames`. -/
  frames : Bool
  /-- For `scopes`. -/
  scopes : Bool
  /-- For `keys`. -/
  keys : Bool
  /-- For `idx`. -/
  idx : Bool
  /-- For `khash`. -/
  keyTables : ℕ → Bool
  /-- For `ihash`. -/
  idxTables : ℕ → Bool

/-- What happens to the buffers. -/
inductive BufOp (N : Type) where
  /-- `out_put`. -/
  | out (s : Bytes) (hs : s.length ≤ ptrdiffMax)
  /-- The report behind a trial, as it was in front of it. -/
  | rewind (n : ℕ)
  /-- `frame_push`. -/
  | push (inst : ℕ)
  /-- `frame_pop`, with its merge. -/
  | pop
  /-- `frame_add_key`. -/
  | key (k : Bytes)
  /-- `frame_add_idx`. -/
  | idx (i : ℕ)
  /-- `frame_truncate_to`. -/
  | truncate (nKeys nIdx : ℕ)
  /-- `scope_push`. -/
  | scope (name : Option Bytes) (node : Option N) (res : ℕ) (owner : Option N)
  /-- `vc->n_scopes = scopes_base`. -/
  | leave (base : ℕ)

/-- `out_put`. -/
def outPut (granted : Bool) (b : Recorded UInt8) (s : Bytes) : Except BufFault (Recorded UInt8) :=
  let need := wrapSize (b.items.length + s.length + 1)
  let put (b : Recorded UInt8) : Except BufFault (Recorded UInt8) :=
    if b.items.length + s.length + 1 ≤ b.room then .ok { b with items := b.items ++ s }
    else .error .outside
  if b.cap < need then
    match doubleSize need (if b.cap = 0 then 256 else wrapSize (b.cap * 2)) with
    | none => .error .endless
    | some cap =>
      if granted = true ∧ cap ≤ ptrdiffMax then put { b with cap, room := cap }
      else .ok { b with cap }
  else put b

/-- `vc->n = save_n`, with the terminator where there is a buffer. -/
def outRewind (b : Recorded UInt8) (n : ℕ) : Except BufFault (Recorded UInt8) :=
  if b.room = 0 ∨ (b.items.take n).length < b.room then .ok { b with items := b.items.take n }
  else .error .outside

/-- `frame_merge_up`: without the room for the keys the indices are left out as well. -/
def frameMergeUp (a : BufAnswers) (f p : RoomFrame) : Except BufFault RoomFrame :=
  if p.inst ≠ f.inst then .ok p
  else do
    match ← p.keys.merge keyHome a.keys a.keyTables f.keys.array.items with
    | (keys, false) => .ok { p with keys }
    | (keys, true) =>
      (p.idx.merge idxHome a.idx a.idxTables f.idx.array.items).map fun r =>
        { p with keys, idx := r.1 }

variable {N : Type}

/-- Another frame at the top. -/
def VctxBuffers.setTop (s : VctxBuffers N) (f : RoomFrame) : VctxBuffers N :=
  { s with frames := { s.frames with items := f :: s.frames.items.tail } }

/-- One step.  A frame is popped or written to where there is one. -/
def VctxBuffers.step (s : VctxBuffers N) (a : BufAnswers) :
    BufOp N → Except BufFault (VctxBuffers N)
  | .out t _ => (outPut a.report s.report t).map fun report => { s with report }
  | .rewind n => (outRewind s.report n).map fun report => { s with report }
  | .push inst =>
    match s.frames.grow 16 intMax a.frames with
    | (frames, false) => .ok { s with frames }
    | (frames, true) =>
      (frames.store ({ inst } :: frames.items)).map fun frames => { s with frames }
  | .pop =>
    match s.frames.items with
    | f :: p :: rest =>
      (frameMergeUp a f p).map fun p => { s with frames := { s.frames with items := p :: rest } }
    | _ => .ok { s with frames := { s.frames with items := [] } }
  | .key k =>
    match s.frames.items with
    | [] => .ok s
    | f :: _ => (f.keys.add keyHome a.keys a.keyTables k).map fun keys => s.setTop { f with keys }
  | .idx i =>
    match s.frames.items with
    | [] => .ok s
    | f :: _ => (f.idx.add idxHome a.idx a.idxTables i).map fun idx => s.setTop { f with idx }
  | .truncate nKeys nIdx =>
    match s.frames.items with
    | [] => .ok s
    | f :: _ => .ok (s.setTop { f with keys := f.keys.truncate nKeys, idx := f.idx.truncate nIdx })
  | .scope (some name) (some node) res (some owner) =>
    match s.scopes.grow 16 intMax a.scopes with
    | (scopes, false) => .ok { s with scopes }
    | (scopes, true) =>
      (scopes.store (⟨⟨name, node, res⟩, owner⟩ :: scopes.items)).map fun scopes =>
        { s with scopes }
  | .scope _ _ _ _ => .ok s
  | .leave base =>
    .ok { s with scopes := { s.scopes with
      items := s.scopes.items.drop (s.scopes.items.length - base) } }

/-- Steps, each with the answers to its requests. -/
def bufferRun (s : VctxBuffers N) : List (BufAnswers × BufOp N) → Except BufFault (VctxBuffers N)
  | [] => .ok s
  | (a, op) :: ops => (s.step a op).bind fun s => bufferRun s ops

/-! ## What is claimed and when it holds -/

/-- Every recorded capacity is within the room, and the elements are within the capacity. -/
structure VctxBuffers.Within (s : VctxBuffers N) : Prop where
  /-- `buf`. -/
  report : s.report.Kept
  /-- `frames`. -/
  frames : s.frames.Kept
  /-- `scopes`. -/
  scopes : s.scopes.Kept
  /-- `keys` of every frame. -/
  keys : ∀ f ∈ s.frames.items, f.keys.array.Kept
  /-- `idx` of every frame. -/
  idx : ∀ f ∈ s.frames.items, f.idx.array.Kept

/-- No step of a run writes a cell that is not there, and in every state the capacities are within
the rooms. -/
def RunWithin (ops : List (BufAnswers × BufOp N)) : Prop :=
  ∀ pre, pre <+: ops → bufferRun {} pre ≠ .error .outside ∧ ∀ s, bufferRun {} pre = .ok s → s.Within

/-- What the growth of the report asks for is granted. -/
def OutGranted (granted : Bool) (b : Recorded UInt8) (t : Bytes) : Prop :=
  b.cap < b.items.length + t.length + 1 →
    ∀ cap ∈ doubleSize (b.items.length + t.length + 1) (if b.cap = 0 then 256 else b.cap * 2),
      granted = true ∧ cap ≤ ptrdiffMax

/-- What the merge of a frame asks for, as far as it matters. -/
def MergeUpGranted (a : BufAnswers) (f p : RoomFrame) : Prop :=
  p.inst = f.inst → p.keys.MergeGranted a.keys a.keyTables f.keys.array.items ∧
    ∀ keys, p.keys.merge keyHome a.keys a.keyTables f.keys.array.items = .ok (keys, true) →
      p.idx.MergeGranted a.idx a.idxTables f.idx.array.items

/-- What a step asks for is granted: any growth of the report, of the frames, of the scopes and of
an array that one element is added to, and the first table of a set. -/
def VctxBuffers.StepGranted (s : VctxBuffers N) (a : BufAnswers) : BufOp N → Prop
  | .out t _ => OutGranted a.report s.report t
  | .push _ => s.frames.GrowGranted 16 intMax a.frames
  | .pop => ∀ f p rest, s.frames.items = f :: p :: rest → MergeUpGranted a f p
  | .key k => ∀ f ∈ s.frames.items.head?, f.keys.AddGranted keyHome a.keys a.keyTables k
  | .idx i => ∀ f ∈ s.frames.items.head?, f.idx.AddGranted idxHome a.idx a.idxTables i
  | .scope (some _) (some _) _ (some _) => s.scopes.GrowGranted 16 intMax a.scopes
  | .scope _ _ _ _ | .rewind _ | .truncate _ _ | .leave _ => True

/-- Every step of a run is granted what it asks for. -/
def RunGranted (ops : List (BufAnswers × BufOp N)) : Prop :=
  ∀ pre a op, pre ++ [(a, op)] <+: ops → ∀ s, bufferRun {} pre = .ok s → s.StepGranted a op

/-! ## What steps come to -/

section Outcomes

variable {α β : Type} {P : α → Prop} {Q : β → Prop} {x : Except BufFault α}

/-- A step comes to a state with a property, unless it does not end. -/
def Upto (P : α → Prop) : Except BufFault α → Prop
  | .ok a => P a
  | .error e => e = .endless

/-- A step writes outside, or comes to a state without a property. -/
def Breaks (P : α → Prop) : Except BufFault α → Prop
  | .ok a => ¬ P a
  | .error e => e = .outside

lemma Upto.map {f : α → β} (hx : Upto P x) (hf : ∀ a, P a → Q (f a)) : Upto Q (x.map f) := by
  cases x with
  | error e => exact hx
  | ok a => exact hf a hx

lemma Upto.bind {f : α → Except BufFault β} (hx : Upto P x) (hf : ∀ a, P a → Upto Q (f a)) :
    Upto Q (x >>= f) := by
  cases x with
  | error e => exact hx
  | ok a => exact hf a hx

lemma Breaks.map {f : α → β} (hx : Breaks P x) (hf : ∀ a, Q (f a) → P a) : Breaks Q (x.map f) := by
  cases x with
  | error e => exact hx
  | ok a => exact fun h => hx (hf a h)

end Outcomes

/-! ## Arrays -/

namespace Recorded

variable {α : Type} {a : Recorded α} {granted : Bool} {first limit n : ℕ}

/-- The recorded capacity is the room, and the elements are within it. -/
def Settled (a : Recorded α) : Prop := a.items.length ≤ a.cap ∧ a.cap = a.room

lemma Settled.kept (h : a.Settled) : a.Kept := ⟨h.1, Nat.le_of_eq h.2⟩

lemma settled_new : ({} : Recorded α).Settled := ⟨Nat.le_refl 0, rfl⟩

/-- Fewer elements. -/
lemma Settled.shorten (h : a.Settled) {items : List α} (hle : items.length ≤ a.items.length) :
    Settled { a with items } := ⟨Nat.le_trans hle h.1, h.2⟩

lemma Settled.store (h : a.Settled) {items : List α} (hle : items.length ≤ a.cap) :
    Upto Settled (a.store items) := by
  rw [Recorded.store, if_pos (h.2 ▸ hle)]
  exact ⟨hle, h.2⟩

lemma lt_nextCap (hfirst : 0 < first) : a.cap < a.nextCap first := by
  unfold nextCap
  split_ifs <;> omega

/-- A growth that is granted makes room for an element. -/
lemma Settled.grow (h : a.Settled) (hfirst : 0 < first) (hg : a.GrowGranted first limit granted) :
    ∃ a', a.grow first limit granted = (a', true) ∧ a'.Settled ∧ a'.items = a.items ∧
      a.items.length + 1 ≤ a'.cap := by
  have hlt := lt_nextCap (a := a) hfirst
  rw [Recorded.grow]
  split_ifs with hfull hgrant
  · exact ⟨_, rfl, ⟨by simp only; omega, rfl⟩, rfl, by simp only; omega⟩
  · exact absurd (hg hfull) hgrant
  · exact ⟨a, rfl, h, rfl, Nat.lt_of_le_of_ne h.1 hfull⟩

/-- A growth that is refused leaves a capacity above the room. -/
lemma Settled.grow_refused (h : a.Settled) (hfirst : 0 < first)
    (hg : ¬ a.GrowGranted first limit granted) :
    ∃ a', a.grow first limit granted = (a', false) ∧ ¬ a'.Kept := by
  obtain ⟨hfull, hrefused⟩ := Classical.not_imp.mp hg
  rw [Recorded.grow, if_pos hfull, if_neg hrefused]
  refine ⟨_, rfl, fun hkept => ?_⟩
  have hlt := lt_nextCap (a := a) hfirst
  have hle : a.nextCap first ≤ a.room := hkept.2
  rw [← h.2] at hle
  omega

/-- A merge that is granted what it asks for finds or makes the room. -/
lemma Settled.mergeGrow_granted (h : a.Settled) (hg : a.MergeGranted granted n) :
    ∃ a', a.mergeGrow granted n = .ok (some a') ∧ a'.Settled ∧ a'.items = a.items ∧
      a.items.length + n ≤ a'.cap := by
  rw [Recorded.mergeGrow]
  by_cases hroom : a.cap < a.items.length + n
  · obtain ⟨hgrant, want, hwant, hle⟩ := hg hroom
    have hneed := le_of_doubleSize hwant
    rw [if_pos hroom, Option.mem_def.mp hwant]
    simp only [if_pos (And.intro hgrant hle)]
    exact ⟨_, rfl, ⟨Nat.le_trans (Nat.le_add_right _ n) hneed, rfl⟩, rfl, hneed⟩
  · rw [if_neg hroom]
    exact ⟨a, rfl, h, rfl, Nat.not_lt.mp hroom⟩

/-- A merge that is not asks in vain, or does not end. -/
lemma mergeGrow_refused (hg : ¬ a.MergeGranted granted n) :
    a.mergeGrow granted n = .ok none ∨ a.mergeGrow granted n = .error .endless := by
  obtain ⟨hroom, hrefused⟩ := Classical.not_imp.mp hg
  rw [Recorded.mergeGrow, if_pos hroom]
  cases hdouble : doubleSize (a.items.length + n) (if a.cap = 0 then 8 else a.cap) with
  | none => exact .inr rfl
  | some want =>
    left
    exact if_neg fun hgrant => hrefused ⟨hgrant.1, want, hdouble, hgrant.2⟩

end Recorded

/-! ## Annotations -/

namespace AnnotSet

variable {κ : Type} {hash : κ → ℕ} {granted : Bool} {tables : ℕ → Bool} {s : AnnotSet κ}
  {e : EvalSet κ} {array : Recorded κ} {ks : List κ} {k : κ}

/-- A table that is built has slots, and the elements stay. -/
lemma build_spec {e' : EvalSet κ} (h : e.build hash = some e') :
    e'.slots ≠ [] ∧ e'.items = e.items := by
  obtain ⟨slots, hplace, rfl⟩ := Option.map_eq_some_iff.mp h
  refine ⟨fun hnil => ?_, rfl⟩
  have hlen := EvalSet.length_of_placeAll hplace
  have hnil' : slots = [] := hnil
  have hpos := (EvalSet.masked_rebuilt (κ := κ) e.items.length).pos
  rw [hnil', List.length_replicate] at hlen
  rw [List.length_replicate, EvalSet.rebuiltCap, ← hlen] at hpos
  exact absurd hpos (Nat.lt_irrefl 0)

/-- With slots, or with the table it asks for, an insertion does not write outside. -/
lemma insert_upto (h : e.slots = [] → TableGranted granted e) :
    Upto (fun e' => e'.slots ≠ [] ∧ e'.items = e.items) (insert hash granted e k) := by
  have htable : ∀ e',
      (if e.IsCrowded ∧ TableGranted granted e then e.build hash else some e) = some e' →
      e'.slots ≠ [] ∧ e'.items = e.items := by
    intro e' he'
    split_ifs at he' with hc
    · exact build_spec he'
    · obtain rfl := Option.some.inj he'
      refine ⟨fun hnil => hc ⟨?_, h hnil⟩, rfl⟩
      rw [EvalSet.IsCrowded, hnil]
      simp
  rw [insert]
  cases he' : if e.IsCrowded ∧ TableGranted granted e then e.build hash else some e with
  | none => rfl
  | some e' =>
    obtain ⟨hslots, hitems⟩ := htable e' he'
    simp only [if_neg hslots]
    cases hplace : EvalSet.place hash e'.slots (k, e'.items.length - 1) with
    | none => rfl
    | some slots =>
      obtain ⟨j, -, rfl⟩ := Option.map_eq_some_iff.mp hplace
      have hlen : (e'.slots.set j (some (k, e'.items.length - 1))).length = e'.slots.length :=
        List.length_set
      refine ⟨fun hnil => hslots (List.eq_nil_of_length_eq_zero ?_), hitems⟩
      have hnil' : e'.slots.set j (some (k, e'.items.length - 1)) = [] := hnil
      rw [← hlen, hnil', List.length_nil]

/-- Without slots and without the table it asks for, an insertion writes outside. -/
lemma insert_outside (h : e.slots = []) (ht : ¬ TableGranted granted e) :
    insert hash granted e k = .error .outside := by
  rw [insert, if_neg fun hc => ht hc.2]
  exact if_pos h

lemma insertAll_upto (h : e.slots = [] → TableGranted (tables 0) e) :
    Upto (fun e' => e'.items = e.items) (insertAll hash ks tables e) := by
  cases ks with
  | nil => rfl
  | cons k ks =>
    -- behind the first insertion there are slots
    have hrest : ∀ (ks : List κ) tables (e₁ : EvalSet κ), e₁.slots ≠ [] →
        Upto (fun e' => e'.items = e₁.items) (insertAll hash ks tables e₁) := by
      intro ks
      induction ks with
      | nil => exact fun _ _ _ => rfl
      | cons k ks ih =>
        intro tables e₁ h₁
        refine (insert_upto fun hnil => absurd hnil h₁).bind fun e₂ h₂ => ?_
        rw [← h₂.2]
        exact ih _ e₂ h₂.1
    refine (insert_upto h).bind fun e₁ h₁ => ?_
    rw [← h₁.2]
    exact hrest ks _ e₁ h₁.1

/-- New elements for which there is room, and the first table. -/
lemma append_upto (ha : array.Settled) (hroom : array.items.length + ks.length ≤ array.cap)
    (ht : s.slots = [] → TableGranted (tables 0) ⟨array.items ++ ks, s.slots⟩) :
    Upto (fun s' => s'.array.Settled) (s.append hash tables array ks) := by
  have hle : (array.items ++ ks).length ≤ array.cap := by rwa [List.length_append]
  rw [AnnotSet.append, Recorded.store, if_pos (ha.2 ▸ hle)]
  refine (insertAll_upto ht).bind fun e _ => ?_
  exact ⟨hle, ha.2⟩

/-- Without the first table they are written outside. -/
lemma append_outside (ha : array.Settled) (hroom : array.items.length + ks.length ≤ array.cap)
    (hks : ks ≠ []) (hs : s.slots = [])
    (ht : ¬ TableGranted (tables 0) ⟨array.items ++ ks, s.slots⟩) :
    s.append hash tables array ks = .error .outside := by
  have hle : (array.items ++ ks).length ≤ array.cap := by rwa [List.length_append]
  obtain ⟨k, ks, rfl⟩ := List.exists_cons_of_ne_nil hks
  rw [AnnotSet.append, Recorded.store, if_pos (ha.2 ▸ hle)]
  change (insertAll hash (k :: ks) tables ⟨array.items ++ k :: ks, s.slots⟩ >>= _) = _
  rw [insertAll, insert_outside hs ht]
  rfl

section Add

variable [DecidableEq κ]

lemma add_upto (h : s.array.Settled) (hg : s.AddGranted hash granted tables k) :
    Upto (fun s' => s'.array.Settled) (s.add hash granted tables k) := by
  rw [add]
  cases hseen : s.evalSet.seen hash k with
  | none => rfl
  | some found =>
    cases found with
    | true => exact h
    | false =>
      obtain ⟨hgrow, htable⟩ := hg hseen
      obtain ⟨a', ha', hsettled, hitems, hlt⟩ := h.grow (by decide) hgrow
      simp only [ha']
      exact append_upto hsettled (by rwa [hitems]) (by rwa [hitems])

lemma add_breaks (h : s.array.Settled) (hg : ¬ s.AddGranted hash granted tables k) :
    Breaks (fun s' => s'.array.Kept) (s.add hash granted tables k) := by
  obtain ⟨hseen, hrefused⟩ := Classical.not_imp.mp hg
  rw [add, hseen]
  by_cases hgrow : s.array.GrowGranted 8 wordLimit granted
  · obtain ⟨a', ha', hsettled, hitems, hlt⟩ := h.grow (by decide) hgrow
    obtain ⟨hs, ht⟩ := Classical.not_imp.mp fun himp => hrefused ⟨hgrow, himp⟩
    simp only [ha']
    rw [append_outside hsettled (by rwa [hitems]) (by simp) hs (by rwa [hitems])]
    exact rfl
  · obtain ⟨a', ha', hkept⟩ := h.grow_refused (by decide) hgrow
    simp only [ha']
    exact hkept

end Add

/-- A half of a merge keeps the room, whatever is refused but the first table. -/
lemma merge_upto (h : s.array.Settled) (hg : s.MergeGranted granted tables ks) :
    Upto (fun r => r.1.array.Settled) (s.merge hash granted tables ks) := by
  rw [merge]
  split_ifs with hks
  · exact h
  by_cases hgrow : s.array.MergeGranted granted ks.length
  · obtain ⟨a', ha', hsettled, hitems, hle⟩ := h.mergeGrow_granted hgrow
    rw [ha']
    change Upto _ ((s.append hash tables a' ks).map _)
    refine (append_upto hsettled (by rwa [hitems]) ?_).map fun _ hs => hs
    rw [hitems]
    exact hg hks hgrow
  · rcases Recorded.mergeGrow_refused hgrow with hres | hres <;> rw [hres]
    · exact h
    · exact rfl

/-- Without the first table it writes outside, if it comes to that. -/
lemma merge_outside (h : s.array.Settled) (hg : ¬ s.MergeGranted granted tables ks) :
    s.merge hash granted tables ks = .error .outside := by
  simp only [AnnotSet.MergeGranted, Classical.not_imp] at hg
  obtain ⟨hks, hgrow, hs, ht⟩ := hg
  obtain ⟨a', ha', hsettled, hitems, hle⟩ := h.mergeGrow_granted hgrow
  rw [merge, if_neg hks, ha']
  change (s.append hash tables a' ks).map _ = _
  rw [append_outside hsettled (by rwa [hitems]) hks hs (by rwa [hitems])]
  rfl

end AnnotSet

/-! ## Steps -/

section Steps

variable {N : Type} {s : VctxBuffers N} {a : BufAnswers} {op : BufOp N} {f p : RoomFrame}
  {b : Recorded UInt8} {t : Bytes} {granted : Bool}

/-- The arrays of a frame are settled. -/
def RoomFrame.Settled (f : RoomFrame) : Prop := f.keys.array.Settled ∧ f.idx.array.Settled

/-- The recorded capacity of the report is its room, with a cell for the terminator. -/
structure ReportSettled (b : Recorded UInt8) : Prop where
  /-- The room. -/
  settled : b.Settled
  /-- The terminator. -/
  terminated : b.items.length + 1 ≤ b.cap ∨ b.cap = 0
  /-- A buffer is no larger than an object. -/
  bounded : b.cap ≤ ptrdiffMax

/-- Every recorded capacity is the room. -/
structure VctxBuffers.Settled (s : VctxBuffers N) : Prop where
  /-- `buf`. -/
  report : ReportSettled s.report
  /-- `frames`. -/
  frames : s.frames.Settled
  /-- `scopes`. -/
  scopes : s.scopes.Settled
  /-- The arrays of every frame. -/
  sets : ∀ f ∈ s.frames.items, f.Settled

lemma VctxBuffers.Settled.within (h : s.Settled) : s.Within :=
  ⟨h.report.settled.kept, h.frames.kept, h.scopes.kept, fun f hf => (h.sets f hf).1.kept,
    fun f hf => (h.sets f hf).2.kept⟩

lemma frameMergeUp_upto (hp : p.Settled) (hg : MergeUpGranted a f p) :
    Upto RoomFrame.Settled (frameMergeUp a f p) := by
  rw [frameMergeUp]
  split_ifs with hinst
  · exact hp
  obtain ⟨hkeys, hidx⟩ := hg (not_not.mp hinst)
  have hmerge : Upto _ (p.keys.merge keyHome _ _ _) := AnnotSet.merge_upto hp.1 hkeys
  cases hres : p.keys.merge keyHome a.keys a.keyTables f.keys.array.items with
  | error e =>
    rw [hres] at hmerge
    exact hmerge
  | ok r =>
    rw [hres] at hmerge
    obtain ⟨keys, through⟩ := r
    cases through with
    | false => exact ⟨hmerge, hp.2⟩
    | true => exact (AnnotSet.merge_upto hp.2 (hidx keys hres)).map fun r hr => ⟨hmerge, hr⟩

lemma frameMergeUp_outside (hp : p.Settled) (hg : ¬ MergeUpGranted a f p) :
    frameMergeUp a f p = .error .outside := by
  obtain ⟨hinst, hrefused⟩ := Classical.not_imp.mp hg
  rw [frameMergeUp, if_neg (not_not.mpr hinst)]
  by_cases hkeys : p.keys.MergeGranted a.keys a.keyTables f.keys.array.items
  · obtain ⟨keys, hidx⟩ := not_forall.mp fun hall => hrefused ⟨hkeys, hall⟩
    obtain ⟨hres, hnot⟩ := Classical.not_imp.mp hidx
    rw [hres]
    change Except.map _ (p.idx.merge idxHome a.idx a.idxTables f.idx.array.items) = _
    rw [AnnotSet.merge_outside hp.2 hnot]
    rfl
  · rw [AnnotSet.merge_outside hp.1 hkeys]
    rfl

/-- What `out_put` does while the capacity is the room. -/
lemma outPut_eq (h : ReportSettled b) (ht : t.length ≤ ptrdiffMax) :
    outPut granted b t =
      if b.cap < b.items.length + t.length + 1 then
        match doubleSize (b.items.length + t.length + 1) (if b.cap = 0 then 256 else b.cap * 2) with
        | none => .error .endless
        | some cap =>
          if granted = true ∧ cap ≤ ptrdiffMax then
            .ok { b with items := b.items ++ t, cap, room := cap }
          else .ok { b with cap }
      else .ok { b with items := b.items ++ t } := by
  have hlen := h.settled.1
  have hbound := h.bounded
  have hmax : ptrdiffMax = 2 ^ 63 - 1 := rfl
  have hneed : wrapSize (b.items.length + t.length + 1) = b.items.length + t.length + 1 :=
    wrapSize_of_lt (by omega)
  have htwice : wrapSize (b.cap * 2) = b.cap * 2 := wrapSize_of_lt (by omega)
  rw [outPut, hneed, htwice]
  by_cases hroom : b.cap < b.items.length + t.length + 1
  · simp only [if_pos hroom]
    cases hdouble : doubleSize (b.items.length + t.length + 1)
        (if b.cap = 0 then 256 else b.cap * 2) with
    | none => rfl
    | some cap => simp only [if_pos (le_of_doubleSize hdouble)]
  · simp only [if_neg hroom]
    rw [if_pos (h.settled.2 ▸ Nat.not_lt.mp hroom)]

lemma outPut_upto (h : ReportSettled b) (ht : t.length ≤ ptrdiffMax) (hg : OutGranted granted b t) :
    Upto ReportSettled (outPut granted b t) := by
  rw [outPut_eq h ht]
  by_cases hroom : b.cap < b.items.length + t.length + 1
  · rw [if_pos hroom]
    cases hdouble : doubleSize (b.items.length + t.length + 1)
        (if b.cap = 0 then 256 else b.cap * 2) with
    | none => rfl
    | some cap =>
      have hneed := le_of_doubleSize hdouble
      have hgrant := hg hroom cap hdouble
      have hlen : (b.items ++ t).length + 1 ≤ cap := by rwa [List.length_append]
      simp only [if_pos hgrant]
      exact ⟨⟨Nat.le_of_succ_le hlen, rfl⟩, .inl hlen, hgrant.2⟩
  · rw [if_neg hroom]
    have hlen : (b.items ++ t).length + 1 ≤ b.cap := by
      rw [List.length_append]
      exact Nat.not_lt.mp hroom
    exact ⟨⟨Nat.le_of_succ_le hlen, h.settled.2⟩, .inl hlen, h.bounded⟩

lemma outPut_breaks (h : ReportSettled b) (ht : t.length ≤ ptrdiffMax)
    (hg : ¬ OutGranted granted b t) : Breaks Recorded.Kept (outPut granted b t) := by
  obtain ⟨hroom, hcaps⟩ := Classical.not_imp.mp hg
  obtain ⟨cap, hcap⟩ := not_forall.mp hcaps
  obtain ⟨hdouble, hrefused⟩ := Classical.not_imp.mp hcap
  have hneed := le_of_doubleSize hdouble
  rw [outPut_eq h ht, if_pos hroom, Option.mem_def.mp hdouble]
  simp only [if_neg hrefused]
  intro hkept
  have hle : cap ≤ b.room := hkept.2
  rw [← h.settled.2] at hle
  omega

lemma outRewind_upto (h : ReportSettled b) (n : ℕ) : Upto ReportSettled (outRewind b n) := by
  have hle : (b.items.take n).length ≤ b.items.length := List.length_take_le' _ _
  have hroom := h.settled.2
  have hterm := h.terminated
  rw [outRewind, if_pos (by omega)]
  exact ⟨h.settled.shorten hle, by simp only; omega, h.bounded⟩

lemma roomFrame_settled (inst : ℕ) : RoomFrame.Settled { inst } :=
  ⟨Recorded.settled_new, Recorded.settled_new⟩

/-- Another frame at the top. -/
lemma VctxBuffers.Settled.setTop (h : s.Settled) {rest : List RoomFrame}
    (hitems : s.frames.items = f :: rest) {g : RoomFrame} (hg : g.Settled) :
    (s.setTop g).Settled := by
  refine ⟨h.report, h.frames.shorten ?_, h.scopes, fun x hx => ?_⟩
  · rw [hitems]
    exact Nat.le_refl _
  · rcases List.mem_cons.mp hx with rfl | hx
    · exact hg
    · exact h.sets x (List.mem_of_mem_tail hx)

/-- Other frames, no more of them. -/
lemma VctxBuffers.Settled.setFrames (h : s.Settled) {fs : List RoomFrame}
    (hle : fs.length ≤ s.frames.items.length) (hfs : ∀ x ∈ fs, x.Settled) :
    VctxBuffers.Settled { s with frames := { s.frames with items := fs } } :=
  ⟨h.report, h.frames.shorten hle, h.scopes, hfs⟩

/-- A step that is granted what it asks for. -/
lemma step_upto (h : s.Settled) (hg : s.StepGranted a op) :
    Upto VctxBuffers.Settled (s.step a op) := by
  cases op with
  | out t ht => exact (outPut_upto h.report ht hg).map fun b hb => ⟨hb, h.frames, h.scopes, h.sets⟩
  | rewind n => exact (outRewind_upto h.report n).map fun b hb => ⟨hb, h.frames, h.scopes, h.sets⟩
  | push inst =>
    obtain ⟨frames, hgrow, hsettled, hitems, hlt⟩ := h.frames.grow (by decide) hg
    have hroom : ({ inst } :: frames.items : List RoomFrame).length ≤ frames.room := by
      rw [← hsettled.2, List.length_cons, hitems]
      exact hlt
    simp only [VctxBuffers.step, hgrow, Recorded.store, if_pos hroom]
    refine ⟨h.report, ⟨hsettled.2 ▸ hroom, hsettled.2⟩, h.scopes, fun x hx => ?_⟩
    rcases List.mem_cons.mp hx with rfl | hx
    · exact roomFrame_settled inst
    · exact h.sets x (hitems ▸ hx)
  | pop =>
    rw [VctxBuffers.step]
    cases hitems : s.frames.items with
    | nil => exact h.setFrames (Nat.zero_le _) (by simp)
    | cons f rest =>
      cases rest with
      | nil => exact h.setFrames (Nat.zero_le _) (by simp)
      | cons p rest =>
        have hall := h.sets
        rw [hitems] at hall
        refine (frameMergeUp_upto (hall p (by simp)) (hg f p rest hitems)).map fun p' hp' => ?_
        refine h.setFrames (by simp [hitems]) fun x hx => ?_
        rcases List.mem_cons.mp hx with rfl | hx
        · exact hp'
        · exact hall x (by simp [hx])
  | key k =>
    rw [VctxBuffers.step]
    cases hitems : s.frames.items with
    | nil => exact h
    | cons f rest =>
      have hf := h.sets f (by simp [hitems])
      refine (AnnotSet.add_upto hf.1 (hg f (by simp [hitems]))).map fun keys hkeys => ?_
      exact h.setTop hitems ⟨hkeys, hf.2⟩
  | idx i =>
    rw [VctxBuffers.step]
    cases hitems : s.frames.items with
    | nil => exact h
    | cons f rest =>
      have hf := h.sets f (by simp [hitems])
      refine (AnnotSet.add_upto hf.2 (hg f (by simp [hitems]))).map fun idx hidx => ?_
      exact h.setTop hitems ⟨hf.1, hidx⟩
  | truncate nKeys nIdx =>
    rw [VctxBuffers.step]
    cases hitems : s.frames.items with
    | nil => exact h
    | cons f rest =>
      have hf := h.sets f (by simp [hitems])
      exact h.setTop hitems ⟨hf.1.shorten (List.length_take_le' _ _),
        hf.2.shorten (List.length_take_le' _ _)⟩
  | scope name node res owner =>
    match name, node, owner with
    | some name, some node, some owner =>
      obtain ⟨scopes, hgrow, hsettled, hitems, hlt⟩ := h.scopes.grow (by decide) hg
      have hroom : (⟨⟨name, node, res⟩, owner⟩ :: scopes.items).length ≤ scopes.cap := by
        rw [List.length_cons, hitems]
        exact hlt
      simp only [VctxBuffers.step, hgrow]
      exact (hsettled.store hroom).map fun scopes hs => ⟨h.report, h.frames, hs, h.sets⟩
    | none, _, _ | some _, none, _ | some _, some _, none => exact h
  | leave base =>
    have hle : (s.scopes.items.drop (s.scopes.items.length - base)).length ≤
        s.scopes.items.length := by
      rw [List.length_drop]
      exact Nat.sub_le _ _
    exact ⟨h.report, h.frames, h.scopes.shorten hle, h.sets⟩

/-- A step that is not. -/
lemma step_breaks (h : s.Settled) (hg : ¬ s.StepGranted a op) :
    Breaks VctxBuffers.Within (s.step a op) := by
  cases op with
  | out t ht => exact (outPut_breaks h.report ht hg).map fun b hb => hb.report
  | push inst =>
    obtain ⟨frames, hgrow, hkept⟩ := h.frames.grow_refused (by decide) hg
    simp only [VctxBuffers.step, hgrow]
    exact fun hw => hkept hw.frames
  | pop =>
    simp only [VctxBuffers.StepGranted, not_forall] at hg
    obtain ⟨f, p, rest, hitems, hmerge⟩ := hg
    rw [VctxBuffers.step, hitems]
    simp only [frameMergeUp_outside (h.sets p (by simp [hitems])) hmerge]
    exact rfl
  | key k =>
    simp only [VctxBuffers.StepGranted, not_forall] at hg
    obtain ⟨f, hf, hadd⟩ := hg
    obtain ⟨rest, hitems⟩ := List.head?_eq_some_iff.mp hf
    rw [VctxBuffers.step, hitems]
    refine (AnnotSet.add_breaks (h.sets f (by simp [hitems])).1 hadd).map fun keys hw => ?_
    exact hw.keys _ List.mem_cons_self
  | idx i =>
    simp only [VctxBuffers.StepGranted, not_forall] at hg
    obtain ⟨f, hf, hadd⟩ := hg
    obtain ⟨rest, hitems⟩ := List.head?_eq_some_iff.mp hf
    rw [VctxBuffers.step, hitems]
    refine (AnnotSet.add_breaks (h.sets f (by simp [hitems])).2 hadd).map fun idx hw => ?_
    exact hw.idx _ List.mem_cons_self
  | scope name node res owner =>
    match name, node, owner with
    | some name, some node, some owner =>
      obtain ⟨scopes, hgrow, hkept⟩ := h.scopes.grow_refused (by decide) hg
      simp only [VctxBuffers.step, hgrow]
      exact fun hw => hkept hw.scopes
    | none, _, _ | some _, none, _ | some _, some _, none => exact absurd trivial hg
  | rewind n => exact absurd trivial hg
  | truncate nKeys nIdx => exact absurd trivial hg
  | leave base => exact absurd trivial hg

end Steps

/-! ## Every run -/

section Runs

variable {N : Type} {ops pre : List (BufAnswers × BufOp N)} {s : VctxBuffers N}

lemma settled_start : ({} : VctxBuffers N).Settled :=
  ⟨⟨Recorded.settled_new, .inr rfl, Nat.zero_le _⟩, Recorded.settled_new, Recorded.settled_new,
    by simp⟩

lemma bufferRun_snoc (s : VctxBuffers N) (pre : List (BufAnswers × BufOp N))
    (o : BufAnswers × BufOp N) :
    bufferRun s (pre ++ [o]) = (bufferRun s pre).bind fun s => s.step o.1 o.2 := by
  induction pre generalizing s with
  | nil =>
    change (s.step o.1 o.2).bind _ = s.step o.1 o.2
    cases s.step o.1 o.2 <;> rfl
  | cons o' pre ih =>
    change (s.step o'.1 o'.2).bind _ = ((s.step o'.1 o'.2).bind _).bind _
    cases s.step o'.1 o'.2 with
    | error e => rfl
    | ok s => exact ih s

/-- While its steps are granted what they ask for, a run keeps the capacities at the rooms. -/
lemma bufferRun_upto (hg : RunGranted ops) (hpre : pre <+: ops) :
    Upto VctxBuffers.Settled (bufferRun {} pre) := by
  induction pre using List.reverseRecOn with
  | nil => exact settled_start
  | append_singleton pre o ih =>
    have hrun := ih ((List.prefix_append _ _).trans hpre)
    rw [bufferRun_snoc]
    cases hs : bufferRun {} pre with
    | error e =>
      rw [hs] at hrun
      exact hrun
    | ok s =>
      rw [hs] at hrun
      exact step_upto hrun (hg pre o.1 o.2 hpre s hs)

/-- A settled state of a run that stays within grants its next step what it asks for. -/
lemma stepGranted_of_runWithin {o : BufAnswers × BufOp N} (hw : RunWithin ops)
    (hpre : pre ++ [o] <+: ops) (hs : bufferRun {} pre = .ok s) (h : s.Settled) :
    s.StepGranted o.1 o.2 := by
  by_contra hrefused
  have hbreaks := step_breaks h hrefused
  obtain ⟨hinside, hwithin⟩ := hw _ hpre
  rw [bufferRun_snoc, hs] at hinside hwithin
  cases hstep : s.step o.1 o.2 with
  | error e =>
    rw [hstep] at hbreaks
    exact hinside (hstep.trans (congrArg Except.error hbreaks))
  | ok s' =>
    rw [hstep] at hbreaks
    exact hbreaks (hwithin s' hstep)

/-- While a run stays within, every state is settled. -/
lemma settled_of_runWithin (hw : RunWithin ops) (hpre : pre <+: ops)
    (hs : bufferRun {} pre = .ok s) : s.Settled := by
  induction pre using List.reverseRecOn generalizing s with
  | nil =>
    obtain rfl := Except.ok.inj hs
    exact settled_start
  | append_singleton pre o ih =>
    cases hs₀ : bufferRun {} pre with
    | error e =>
      rw [bufferRun_snoc, hs₀] at hs
      cases hs
    | ok s₀ =>
      have h₀ := ih ((List.prefix_append _ _).trans hpre) hs₀
      have hstep := step_upto h₀ (stepGranted_of_runWithin hw hpre hs₀ h₀)
      rw [bufferRun_snoc, hs₀] at hs
      have hs' : s₀.step o.1 o.2 = .ok s := hs
      rwa [hs'] at hstep

/-- In every run of the validator's buffers no cell is written that is not there and every recorded
capacity is within the room, if and only if every step is granted what it asks for. -/
theorem buffers_within_iff (ops : List (BufAnswers × BufOp N)) :
    RunWithin ops ↔ RunGranted ops := by
  constructor
  · intro hw pre a op hpre s hs
    exact stepGranted_of_runWithin hw hpre hs
      (settled_of_runWithin hw ((List.prefix_append _ _).trans hpre) hs)
  · intro hg pre hpre
    have hrun := bufferRun_upto hg hpre
    constructor
    · intro hout
      rw [hout] at hrun
      exact BufFault.noConfusion hrun
    · intro s hs
      rw [hs] at hrun
      exact VctxBuffers.Settled.within hrun

end Runs

/-- Every request is refused. -/
def refusesAll : BufAnswers := ⟨false, false, false, false, false, fun _ => false, fun _ => false⟩

/-- Two characters of a report. -/
def twoPuts : List (BufAnswers × BufOp Unit) :=
  [(refusesAll, .out [0x5b] (by decide)), (refusesAll, .out [0x7b] (by decide))]

/-- Behind a refusal the next character is within the capacity that was recorded, and it is written
where there is no buffer. -/
theorem report_written_outside : ¬ ∀ ops : List (BufAnswers × BufOp Unit), RunWithin ops := by
  intro h
  have hout : bufferRun {} twoPuts = .error .outside := rfl
  exact (h twoPuts twoPuts List.prefix_rfl).1 hout

end Teptris
