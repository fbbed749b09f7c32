import Mathlib.Data.Nat.Bitwise
import Teptris.Library.Storage

/-!
# The arena

`arena.c`, and the inline allocator of `arena.h`.  Sizes are `size_t` values, whose sums wrap; an
address is a number.  What `malloc` answers is a parameter of each call.

The ranges that were handed out are kept beside the arena, in the order of their allocation: the
arena itself knows its blocks and how far each is used, and nothing of the ranges.
-/

namespace Teptris

open Storage

/-! ## Sizes -/

/-- `TEPTRIS_ARENA_BLOCK_SIZE`. -/
def arenaBlockSize : ℕ := 64 * 1024

/-- `TEPTRIS_ARENA_ALIGN`. -/
def arenaAlign : ℕ := 16

/-- `round_up`. -/
def roundUp (n align : ℕ) : ℕ := wrapSize (n + align - 1) &&& (2 ^ 64 - align)

/-- `sizeof(teptris_arena_block)`: a pointer and two sizes. -/
def sizeofBlock : ℕ := 24

/-- `block_data_offset`. -/
def blockDataOffset : ℕ := roundUp sizeofBlock arenaAlign

/-! ## Blocks -/

/-- `teptris_arena_block`, at its address. -/
structure ArenaBlock where
  /-- Where the block is. -/
  addr : ℕ
  /-- `used`. -/
  used : ℕ
  /-- `cap`. -/
  cap : ℕ
deriving DecidableEq

/-- `block_data`. -/
def ArenaBlock.data (b : ArenaBlock) : ℕ := b.addr + blockDataOffset

/-- `teptris_arena`: the blocks from `head` on. -/
structure Arena where
  /-- The blocks. -/
  blocks : List ArenaBlock
deriving DecidableEq

/-- `teptris_arena_init`. -/
def arenaInit : Arena := ⟨[]⟩

/-- `block_new`. -/
def blockNew (malloc : ℕ → Option ℕ) (cap : ℕ) : Option ArenaBlock :=
  (malloc (wrapSize (blockDataOffset + cap))).map fun addr => { addr, used := 0, cap }

/-- The capacity of a new block. -/
def Arena.nextCap (arena : Arena) (need : ℕ) : ℕ :=
  let cap := if arenaBlockSize < need then need else arenaBlockSize
  match arena.blocks with
  | [] => cap
  | b :: _ => if cap < wrapSize (b.cap * 2) then wrapSize (b.cap * 2) else cap

/-- A new block in front, and the range at its start. -/
def arenaExtend (malloc : ℕ → Option ℕ) (arena : Arena) (need : ℕ) : Option (ℕ × Arena) :=
  (blockNew malloc (arena.nextCap need)).map fun nb =>
    (nb.data + nb.used, ⟨{ nb with used := wrapSize (nb.used + need) } :: arena.blocks⟩)

/-- `teptris_arena_alloc`; `none` is a null pointer, with which nothing changes. -/
def arenaAlloc (malloc : ℕ → Option ℕ) (arena : Arena) (size : ℕ) : Option (ℕ × Arena) :=
  let need := roundUp size arenaAlign
  match arena.blocks with
  | [] => arenaExtend malloc arena need
  | b :: bs =>
    if wrapSize (b.used + need) ≤ b.cap then
      some (b.data + b.used, ⟨{ b with used := wrapSize (b.used + need) } :: bs⟩)
    else arenaExtend malloc arena need

/-- `teptris_arena_fast_alloc`. -/
def arenaFastAlloc (malloc : ℕ → Option ℕ) (arena : Arena) (size : ℕ) : Option (ℕ × Arena) :=
  let need := wrapSize (size + 15) &&& (2 ^ 64 - 16)
  match arena.blocks with
  | [] => arenaAlloc malloc arena size
  | b :: bs =>
    if wrapSize (b.used + need) ≤ b.cap then
      let base := b.addr + (wrapSize (sizeofBlock + 15) &&& (2 ^ 64 - 16))
      let used := wrapSize (b.used + need)
      some (base + used - need, ⟨{ b with used } :: bs⟩)
    else arenaAlloc malloc arena size

/-- `teptris_arena_try_grow`. -/
def arenaTryGrow (arena : Arena) (last : Option ℕ) (oldSize newSize : ℕ) : Option (ℕ × Arena) :=
  match arena.blocks, last with
  | b :: bs, some last =>
    let oldRounded := roundUp oldSize arenaAlign
    let newRounded := roundUp newSize arenaAlign
    if newSize < oldSize then none
    else if last + oldRounded = b.data + b.used ∧
        wrapSize (b.used + subSize newRounded oldRounded) ≤ b.cap then
      some (last, ⟨{ b with used := wrapSize (b.used + subSize newRounded oldRounded) } :: bs⟩)
    else none
  | _, _ => none

/-! ## Runs -/

/-- A range that was handed out. -/
structure ArenaRange where
  /-- Its first byte. -/
  addr : ℕ
  /-- The size that was asked for. -/
  size : ℕ
  /-- The address of the block it was taken from. -/
  home : ℕ
deriving DecidableEq

/-- A byte of the range. -/
def ArenaRange.Has (r : ArenaRange) (x : ℕ) : Prop := r.addr ≤ x ∧ x < r.addr + r.size

/-- The arena and its ranges. -/
structure ArenaState where
  /-- The arena. -/
  arena : Arena
  /-- The ranges, in the order of their allocation. -/
  live : List ArenaRange
deriving DecidableEq

/-- A call. -/
inductive ArenaOp where
  /-- `teptris_arena_alloc`. -/
  | alloc (size : ℕ)
  /-- `teptris_arena_fast_alloc`. -/
  | fastAlloc (size : ℕ)
  /-- `teptris_arena_try_grow`, of the range of that number. -/
  | grow (i size : ℕ)

/-- The size that a call asks for. -/
def ArenaOp.size : ArenaOp → ℕ
  | .alloc size => size
  | .fastAlloc size => size
  | .grow _ size => size

namespace ArenaState

/-- No call yet. -/
def init : ArenaState := ⟨arenaInit, []⟩

/-- The answer of an allocation is a new range. -/
def hand (st : ArenaState) (size : ℕ) : Option (ℕ × Arena) → ArenaState
  | none => st
  | some (addr, arena) =>
    { arena, live := st.live ++ [⟨addr, size, (arena.blocks.map (·.addr)).headD 0⟩] }

/-- One call. -/
def step (malloc : ℕ → Option ℕ) (st : ArenaState) : ArenaOp → ArenaState
  | .alloc size => st.hand size (arenaAlloc malloc st.arena size)
  | .fastAlloc size => st.hand size (arenaFastAlloc malloc st.arena size)
  | .grow i size =>
    match st.live[i]? with
    | none => st
    | some r =>
      match arenaTryGrow st.arena (some r.addr) r.size size with
      | none => st
      | some (addr, arena) => { arena, live := st.live.set i { r with addr, size } }

end ArenaState

/-- What `malloc` promises, beside the blocks that it gave before: memory that is aligned for
every type, inside the address space and apart from those blocks, and none for requests above the
limit. -/
structure MallocSound (limit : ℕ) (malloc : ℕ → Option ℕ) (blocks : List ArenaBlock) : Prop where
  /-- Alignment. -/
  aligned : ∀ n addr, malloc n = some addr → 16 ∣ addr
  /-- Requests above the limit are refused. -/
  bounded : ∀ n addr, malloc n = some addr → n ≤ limit
  /-- The memory ends below `2 ^ 64`. -/
  inside : ∀ n addr, malloc n = some addr → addr + n ≤ 2 ^ 64
  /-- It is apart from the blocks. -/
  fresh : ∀ n addr, malloc n = some addr → ∀ b ∈ blocks,
    addr + n ≤ b.addr ∨ b.addr + (blockDataOffset + b.cap) ≤ addr

/-- A size that is not near `SIZE_MAX`: with a block of the limit and two headers it stays
below. -/
def Modest (limit size : ℕ) : Prop := size + limit + 48 ≤ 2 ^ 64

instance (limit size : ℕ) : Decidable (Modest limit size) := inferInstanceAs (Decidable (_ ≤ _))

/-- The states behind any calls of modest sizes, whatever a sound `malloc` answers. -/
inductive ArenaReach (limit : ℕ) : ArenaState → Prop
  /-- No call. -/
  | init : ArenaReach limit .init
  /-- One more call. -/
  | step {st : ArenaState} {malloc : ℕ → Option ℕ} {op : ArenaOp} (h : ArenaReach limit st)
      (hmalloc : MallocSound limit malloc st.arena.blocks) (hsize : Modest limit op.size) :
      ArenaReach limit (st.step malloc op)

end Teptris
