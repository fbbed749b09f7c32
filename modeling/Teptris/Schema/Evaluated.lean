import Teptris.Library.Probing
import Teptris.Schema.Names

/-!
# Evaluated properties and items

The annotation frames of `validate.c` with their hash tables, slot by slot: `frame_add_key`,
`frame_add_idx`, the merge of a frame into its parent and the truncation behind a failed trial.
A truncation leaves the slots of what it drops; they count again as soon as the stamps of new
elements reach theirs, and they are never given back but by a rebuild.

All allocations succeed here.  A loop over the slots that does not end is `none`.
-/

namespace Teptris

open Probing

/-! ## One set of a frame -/

/-- `keys` with `khash`, or `idx` with `ihash`: the elements up to `n_keys`, and the slots with
their stamps, a free one where the stamp is `SIZE_MAX`. -/
structure EvalSet (κ : Type) where
  /-- The current elements. -/
  items : List κ
  /-- The hash table. -/
  slots : List (Option (κ × ℕ))

namespace EvalSet

variable {κ : Type}

/-- The set of a new frame. -/
def empty : EvalSet κ := ⟨[], []⟩

section Hash

variable (hash : κ → ℕ)

/-- The first free slot behind the home of an element takes it. -/
def place (slots : List (Option (κ × ℕ))) (e : κ × ℕ) : Option (List (Option (κ × ℕ))) :=
  (find Option.isNone slots (hash e.1)).map fun j => slots.set j (some e)

/-- Elements with their stamps, one after the other. -/
def placeAll : List (κ × ℕ) → List (Option (κ × ℕ)) → Option (List (Option (κ × ℕ)))
  | [], slots => some slots
  | e :: es, slots => (place hash slots e).bind (placeAll es)

/-- `frame_khash_build` and `frame_ihash_build`. -/
def build (s : EvalSet κ) : Option (EvalSet κ) :=
  let cap := khashCapFor (s.items.length + 1) (s.items.length + 1) 16
  (placeAll hash s.items.zipIdx (List.replicate cap none)).map fun slots => { s with slots }

/-- The elements are too many for the slots. -/
def IsCrowded (s : EvalSet κ) : Prop := s.slots.length * 7 / 10 < s.items.length + 1

instance (s : EvalSet κ) : Decidable s.IsCrowded := inferInstanceAs (Decidable (_ < _))

/-- `frame_khash_insert` and `frame_ihash_insert`. -/
def hashInsert (s : EvalSet κ) (k : κ) : Option (EvalSet κ) :=
  (if s.IsCrowded then s.build hash else some s).bind fun s =>
    (place hash s.slots (k, s.items.length - 1)).map fun slots => { s with slots }

/-- The insertions of a merge. -/
def hashInsertAll : List κ → EvalSet κ → Option (EvalSet κ)
  | [], s => some s
  | k :: ks, s => (s.hashInsert hash k).bind (hashInsertAll ks)

/-- New elements behind the current ones: one in `frame_add_key` and `frame_add_idx`, those of the
child in `frame_merge_up`. -/
def append (s : EvalSet κ) (ks : List κ) : Option (EvalSet κ) :=
  hashInsertAll hash ks { s with items := s.items ++ ks }

/-- Drops the elements from `n` on; the slots stay. -/
def truncate (s : EvalSet κ) (n : ℕ) : EvalSet κ := { s with items := s.items.take n }

variable [DecidableEq κ]

/-- What ends a lookup: a free slot, or the element in a slot whose stamp is below the count. -/
def ends (s : EvalSet κ) (k : κ) : Option (κ × ℕ) → Bool
  | none => true
  | some e => e.2 < s.items.length && e.1 = k

/-- `frame_key_seen` and `frame_idx_seen`. -/
def seen (s : EvalSet κ) (k : κ) : Option Bool :=
  if s.slots.length = 0 then some false
  else (find (s.ends k) s.slots (hash k)).map fun j => (s.slots[j]?.join).isSome

/-- `frame_add_key` and `frame_add_idx`. -/
def add (s : EvalSet κ) (k : κ) : Option (EvalSet κ) :=
  (s.seen hash k).bind fun found => if found then some s else s.append hash [k]

/-- Lookups end, and answer what the current elements say. -/
def Exact (s : EvalSet κ) : Prop := ∀ k, s.seen hash k = some (decide (k ∈ s.items))

end Hash

/-- The new elements are taken rightly: where the slots are built anew they hold every element and
the new ones once more, with one left free; elsewhere one is left free behind the new ones, and no
slot of a dropped element gets back into range, unless that element is among the elements again. -/
def Takes (s : EvalSet κ) (ks : List κ) : Prop :=
  let n := s.items.length + ks.length
  if s.slots.length * 7 / 10 < n + 1 then n + ks.length < khashCapFor (n + 1) (n + 1) 16
  else ks.length < s.slots.countP Option.isNone ∧
    ∀ e, some e ∈ s.slots → s.items.length ≤ e.2 → e.2 < n → e.1 ∈ s.items ++ ks

end EvalSet

/-! ## Frames -/

/-- `frame_mix`. -/
def frameMix (x : UInt64) : UInt64 :=
  let x := x ^^^ (x >>> 33)
  let x := x * 0xff51afd7ed558ccd
  let x := x ^^^ (x >>> 33)
  let x := x * 0xc4ceb9fe1a85ec53
  x ^^^ (x >>> 33)

/-- The home of a key: `frame_mix` of `frame_str_hash`, which is the hash of the tables. -/
def keyHome (key : Bytes) : ℕ := (frameMix (key.foldl fnvStep fnvBasis)).toNat

/-- The home of an index. -/
def idxHome (i : ℕ) : ℕ := (frameMix (UInt64.ofNat i)).toNat

/-- `struct eval_frame`, with the counts that the trials on it have saved. -/
structure EvalFrame where
  /-- `inst`, the value that is annotated. -/
  inst : ℕ
  /-- `keys` and `khash`. -/
  keys : EvalSet Bytes
  /-- `idx` and `ihash`. -/
  idx : EvalSet ℕ
  /-- `keys_before` and `idx_before` of the trials that are not over, the last one first. -/
  trials : List (ℕ × ℕ)

namespace EvalFrame

/-- The frame of `frame_push`. -/
def new (inst : ℕ) : EvalFrame := ⟨inst, .empty, .empty, []⟩

/-- `frame_key_seen`. -/
def keySeen (f : EvalFrame) (key : Bytes) : Option Bool := f.keys.seen keyHome key

/-- `frame_idx_seen`. -/
def idxSeen (f : EvalFrame) (i : ℕ) : Option Bool := f.idx.seen idxHome i

/-- `frame_add_key`. -/
def addKey (f : EvalFrame) (key : Bytes) : Option EvalFrame :=
  (f.keys.add keyHome key).map fun keys => { f with keys }

/-- `frame_add_idx`. -/
def addIdx (f : EvalFrame) (i : ℕ) : Option EvalFrame :=
  (f.idx.add idxHome i).map fun idx => { f with idx }

/-- `frame_merge_up`, of the frame `f` into its parent `p`. -/
def mergeUp (f p : EvalFrame) : Option EvalFrame :=
  if p.inst ≠ f.inst then some p
  else
    (p.keys.append keyHome f.keys.items).bind fun keys =>
      (p.idx.append idxHome f.idx.items).map fun idx => { p with keys, idx }

/-- The start of `passes` and of `passes_annot_free`. -/
def saveCounts (f : EvalFrame) : EvalFrame :=
  { f with trials := (f.keys.items.length, f.idx.items.length) :: f.trials }

/-- `frame_truncate_to`, behind a failed or a discarded trial. -/
def truncateTo (f : EvalFrame) : EvalFrame :=
  match f.trials with
  | [] => f
  | t :: trials => { f with keys := f.keys.truncate t.1, idx := f.idx.truncate t.2, trials }

/-- The end of a trial whose annotations are kept. -/
def keepCounts (f : EvalFrame) : EvalFrame := { f with trials := f.trials.tail }

/-- `frame_key_seen` holds of the current keys, and `frame_idx_seen` of the current indices. -/
def Exact (f : EvalFrame) : Prop := f.keys.Exact keyHome ∧ f.idx.Exact idxHome

end EvalFrame

/-! ## Runs -/

/-- What happens to the frames, the top one first. -/
inductive FrameOp where
  /-- `frame_push`. -/
  | push (inst : ℕ)
  /-- `frame_pop`, with its merge. -/
  | pop
  /-- `frame_add_key`. -/
  | key (k : Bytes)
  /-- `frame_add_idx`. -/
  | idx (i : ℕ)
  /-- A trial starts. -/
  | trial
  /-- A trial ends, and its annotations are dropped. -/
  | discard
  /-- A trial ends, and its annotations stay. -/
  | keep

/-- One step; `none` where a loop over slots does not end. -/
def frameStep : List EvalFrame → FrameOp → Option (List EvalFrame)
  | fs, .push inst => some (EvalFrame.new inst :: fs)
  | f :: p :: fs, .pop => (f.mergeUp p).map (· :: fs)
  | f :: fs, .key k => (f.addKey k).map (· :: fs)
  | f :: fs, .idx i => (f.addIdx i).map (· :: fs)
  | f :: fs, .trial => some (f.saveCounts :: fs)
  | f :: fs, .discard => some (f.truncateTo :: fs)
  | f :: fs, .keep => some (f.keepCounts :: fs)
  | [_], .pop => some []
  | [], _ => some []

/-- The steps of a run. -/
def frameRun : List EvalFrame → List FrameOp → Option (List EvalFrame)
  | fs, [] => some fs
  | fs, op :: ops => (frameStep fs op).bind (frameRun · ops)

/-- Every state of the run is reached, and its lookups are right. -/
def RunExact (fs : List EvalFrame) (ops : List FrameOp) : Prop :=
  ∀ pre, pre <+: ops → ∃ fs', frameRun fs pre = some fs' ∧ ∀ f ∈ fs', f.Exact

/-- What a merge adds to the parent is taken rightly. -/
def EvalFrame.MergeTakes (f p : EvalFrame) : Prop :=
  p.inst = f.inst → (f.keys.items ≠ [] → p.keys.Takes f.keys.items) ∧
    (f.idx.items ≠ [] → p.idx.Takes f.idx.items)

/-- What a step adds to a set is taken rightly. -/
def StepTakes (fs : List EvalFrame) : FrameOp → Prop
  | .pop => ∀ f p rest, fs = f :: p :: rest → f.MergeTakes p
  | .key k => ∀ f ∈ fs.head?, k ∉ f.keys.items → f.keys.Takes [k]
  | .idx i => ∀ f ∈ fs.head?, i ∉ f.idx.items → f.idx.Takes [i]
  | .push _ | .trial | .discard | .keep => True

/-- Every step of a run takes what it adds rightly. -/
def RunTakes : List EvalFrame → List FrameOp → Prop
  | _, [] => True
  | fs, op :: ops => StepTakes fs op ∧ ∀ fs' ∈ frameStep fs op, RunTakes fs' ops

end Teptris
