import Teptris.Dom.Node
import Teptris.Library.Probing

/-!
# The index of a table

The entries of a `teptris_node` table and its open-addressed hash index, `dom.c` and `dom.h`:
lookup, the probe that remembers a free slot, insertion with such a slot, and the rebuild of the
index, where every allocation may fail.  A loop over the index that does not end is `none`.
-/

namespace Teptris

open Probing

/-- `teptris_entry`. -/
structure TableEntry (V : Type) where
  /-- The key. -/
  key : Bytes
  /-- The value. -/
  value : V
  /-- The hash that rebuilds use. -/
  hash : UInt64

/-- The table of a `teptris_node`. -/
structure TableNode (V : Type) where
  /-- `entries`, up to `len`. -/
  entries : List (TableEntry V)
  /-- `cap`. -/
  cap : ℕ
  /-- `index`, with `idx_cap` slots: an entry's number from one on, and zero in a free slot. -/
  index : List UInt32

/-- The allocations of one insertion that succeed. -/
structure Allocs where
  /-- That of a new index. -/
  index : Bool
  /-- The growth of the entries in place. -/
  grow : Bool
  /-- That of new entries. -/
  entries : Bool

/-- A slot of the index without an entry. -/
def isFreeSlot (x : UInt32) : Bool := x == 0

/-- `index_insert`, into the index `idx`. -/
def indexInsert (idx : List UInt32) (entryIdx : ℕ) (h : UInt64) : Option (List UInt32) :=
  (find isFreeSlot idx h.toNat).map fun slot => idx.set slot (UInt32.ofNat entryIdx + 1)

/-- The loop of `index_rebuild`, from entry `i` on. -/
def indexInsertAll : ℕ → List UInt64 → List UInt32 → Option (List UInt32)
  | _, [], idx => some idx
  | i, h :: hs, idx => (indexInsert idx i h).bind (indexInsertAll (i + 1) hs)

namespace TableNode

variable {V : Type}

/-- A new table: everything is zero. -/
def new : TableNode V := ⟨[], 0, []⟩

/-- `index_rebuild`, its allocation apart. -/
def indexRebuild (t : TableNode V) (newCap : ℕ) : Option (TableNode V) :=
  (indexInsertAll 0 (t.entries.map TableEntry.hash) (List.replicate newCap 0)).map
    fun index => { t with index }

/-- What ends the walk of a lookup: a free slot, or an entry that matches. -/
def endsWalk (t : TableNode V) (p : TableEntry V → Bool) (x : UInt32) : Bool :=
  isFreeSlot x || t.entries[x.toNat - 1]?.any p

/-- The entry in a slot; a free one has none. -/
def entryAt (t : TableNode V) (slot : ℕ) : Option (TableEntry V) :=
  t.index[slot]?.bind fun x => if isFreeSlot x then none else t.entries[x.toNat - 1]?

/-- `teptris_dom_table_find_h`, without the hash that it hands out. -/
def findH (t : TableNode V) (key : Bytes) : Option (Option (TableEntry V)) :=
  if t.index.length = 0 then some none
  else (find (t.endsWalk fun e => e.key == key) t.index (keyHash key).toNat).map t.entryAt

/-- `teptris_dom_table_probe_slot`: the entry, or the slot that the walk stopped at, where it can
be used. -/
def probeSlot (t : TableNode V) (hash : UInt64) (key : Bytes) :
    Option (Option (TableEntry V) × Option ℕ) :=
  if t.index.length = 0 then some (none, none)
  else
    (find (t.endsWalk fun e => e.hash == hash && e.key == key) t.index hash.toNat).map fun slot =>
      match t.entryAt slot with
      | some e => (some e, none)
      | none => (none, some slot)

/-- The end of `teptris_dom_table_insert_slot`: the new entry, and its number in the index. -/
def store (t : TableNode V) (key : Bytes) (hash : UInt64) (value : V) (slot : Option ℕ) :
    Option (TableNode V) :=
  let index := match slot with
    | some slot => some (t.index.set slot (UInt32.ofNat t.entries.length + 1))
    | none => indexInsert t.index t.entries.length hash
  index.map fun index => { t with entries := t.entries ++ [⟨key, value, hash⟩], index }

/-- The growth of the entries in `teptris_dom_table_insert_slot`, and what follows it. -/
def insertEntry (t : TableNode V) (al : Allocs) (key : Bytes) (hash : UInt64) (value : V)
    (slot : Option ℕ) : Option (Option Status × TableNode V) :=
  if t.entries.length = t.cap then
    let ncap := if t.cap = 0 then 8 else t.cap * 2
    if al.grow || al.entries then
      ({ t with cap := ncap }.store key hash value slot).map fun t => (none, t)
    else some (some .errAlloc, t)
  else (t.store key hash value slot).map fun t => (none, t)

/-- `teptris_dom_table_insert_slot`; no status is `TEPTRIS_OK`, and no slot `SIZE_MAX`. -/
def insertSlot (t : TableNode V) (al : Allocs) (key : Bytes) (hash : UInt64) (value : V)
    (slot : Option ℕ) : Option (Option Status × TableNode V) :=
  if t.index.length * 7 ≤ (t.entries.length + 1) * 10 then
    let ncap := if t.index.length = 0 then 16 else t.index.length * 2
    -- a rebuild makes the slot stale
    if al.index then (t.indexRebuild ncap).bind fun t => t.insertEntry al key hash value none
    else some (some .errAlloc, t)
  else t.insertEntry al key hash value slot

/-- `teptris_dom_table_insert_h`, under the hash of the key. -/
def insertH (t : TableNode V) (al : Allocs) (key : Bytes) (value : V) :
    Option (Option Status × TableNode V) :=
  t.insertSlot al key (keyHash key) value none

end TableNode

/-! ## Runs -/

/-- A table, what has been inserted into it in order, and the keys that have been probed and missed
since the last attempt to insert, with the slots their probes handed out. -/
structure IndexState (V : Type) where
  /-- The table. -/
  table : TableNode V
  /-- The keys and values of the insertions that succeeded. -/
  inserted : List (Bytes × V)
  /-- What callers remember. -/
  probed : List (Bytes × Option ℕ)

/-- What callers do with a table. -/
inductive TableOp (V : Type) where
  /-- A lookup. -/
  | find (key : Bytes)
  /-- A probe, whose slot is remembered. -/
  | probe (key : Bytes)
  /-- An insertion without a slot. -/
  | insert (al : Allocs) (key : Bytes) (value : V)
  /-- An insertion with a remembered slot. -/
  | insertProbed (al : Allocs) (key : Bytes) (slot : Option ℕ) (value : V)

namespace IndexState

variable {V : Type}

/-- A new table. -/
def new : IndexState V := ⟨.new, [], []⟩

/-- The state behind an attempt to insert: no slot is remembered beyond it. -/
def attempted (s : IndexState V) (key : Bytes) (value : V) (r : Option Status × TableNode V) :
    Option Status × IndexState V :=
  (r.1, ⟨r.2, if r.1 = none then s.inserted ++ [(key, value)] else s.inserted, []⟩)

/-- One step, with the status of an insertion. -/
def step (s : IndexState V) : TableOp V → Option (Option Status × IndexState V)
  | .find key => (s.table.findH key).map fun _ => (none, s)
  | .probe key => (s.table.probeSlot (keyHash key) key).map fun r =>
      (none, { s with probed := if r.1.isSome then s.probed else (key, r.2) :: s.probed })
  | .insert al key value => (s.table.insertH al key value).map (s.attempted key value)
  | .insertProbed al key slot value =>
      (s.table.insertSlot al key (keyHash key) value slot).map (s.attempted key value)

/-- Callers insert fresh keys only, with slots they remember, below the number of entries that the
index can hold. -/
def Allows (s : IndexState V) : TableOp V → Prop
  | .find _ | .probe _ => True
  | .insert _ key _ => key ∉ s.inserted.map Prod.fst ∧ s.inserted.length < 2 ^ 32 - 1
  | .insertProbed _ key slot _ => key ∉ s.inserted.map Prod.fst ∧
      s.inserted.length < 2 ^ 32 - 1 ∧ (key, slot) ∈ s.probed

/-- The states that runs from a new table reach. -/
inductive Reachable : IndexState V → Prop
  | new : Reachable new
  | step {s s' : IndexState V} {op : TableOp V} {st : Option Status} (h : Reachable s)
      (hop : s.Allows op) (hstep : s.step op = some (st, s')) : Reachable s'

end IndexState

end Teptris
