import Mathlib.Data.List.Pairwise
import Teptris.Memory.Arena

/-!
# The ranges of the arena

Whatever is allocated and grown, the ranges are aligned, lie inside a block each and share no byte
(`arena_ranges`).  The invariant is about where the ranges end: in a block they stand in the order
of their allocation, below the part that is used.
-/

namespace Teptris

open Storage

/-! ## Rounding -/

/-- The mask of `round_up` clears the low bits. -/
lemma land_mask {m : ℕ} (h : m < 2 ^ 64) : m &&& (2 ^ 64 - 16) = m / 16 * 16 := by
  have hmask : 2 ^ 64 - 16 = (2 ^ 60 - 1) <<< 4 := by decide
  have hclear : m / 16 * 16 = (m >>> 4) <<< 4 := by
    rw [Nat.shiftLeft_eq, Nat.shiftRight_eq_div_pow]
  rw [hmask, hclear]
  refine Nat.eq_of_testBit_eq fun i => ?_
  rw [Nat.testBit_and, Nat.testBit_shiftLeft, Nat.testBit_shiftLeft, Nat.testBit_shiftRight,
    Nat.testBit_two_pow_sub_one]
  by_cases hi : 4 ≤ i
  · rw [Nat.add_sub_cancel' hi]
    by_cases hlt : i < 64
    · have hin : i - 4 < 60 := by omega
      simp [hi, hin]
    · have hzero : m.testBit i = false :=
        Nat.testBit_lt_two_pow (Nat.lt_of_lt_of_le h (Nat.pow_le_pow_right Nat.two_pos (by omega)))
      simp [hzero]
  · simp [hi]

lemma roundUp_eq {n : ℕ} (h : n + 15 < 2 ^ 64) : roundUp n arenaAlign = (n + 15) / 16 * 16 := by
  have hsum : n + arenaAlign - 1 = n + 15 := rfl
  rw [roundUp, hsum, wrapSize_of_lt h]
  exact land_mask h

lemma blockDataOffset_eq : blockDataOffset = 32 := roundUp_eq (by decide)

/-- The inline allocator gives what the other one gives. -/
lemma arenaFastAlloc_eq (malloc : ℕ → Option ℕ) {arena : Arena} {size : ℕ}
    (h : ∀ b ∈ arena.blocks, b.used + size + 15 < 2 ^ 64) :
    arenaFastAlloc malloc arena size = arenaAlloc malloc arena size := by
  obtain ⟨blocks⟩ := arena
  cases blocks with
  | nil => rfl
  | cons b bs =>
    have hlt := h b (by simp)
    have hneed : wrapSize (size + 15) &&& (2 ^ 64 - 16) = roundUp size arenaAlign := rfl
    have hround := @roundUp_eq size (by omega)
    have hused : wrapSize (b.used + roundUp size arenaAlign) = b.used + roundUp size arenaAlign :=
      wrapSize_of_lt (by omega)
    simp only [arenaFastAlloc, arenaAlloc, hneed]
    split_ifs with hroom
    · have hbase : b.addr + (wrapSize (sizeofBlock + 15) &&& (2 ^ 64 - 16)) = b.data := rfl
      rw [hbase, hused, ← Nat.add_assoc, Nat.add_sub_cancel]
    · rfl

/-! ## The invariant -/

/-- The end of a block. -/
def ArenaBlock.limit (b : ArenaBlock) : ℕ := b.addr + (blockDataOffset + b.cap)

/-- Two blocks that share no byte. -/
def ArenaBlock.Apart (b c : ArenaBlock) : Prop := b.limit ≤ c.addr ∨ c.limit ≤ b.addr

instance : Std.Symm ArenaBlock.Apart := ⟨fun _ _ => Or.symm⟩

/-- A block that `malloc` gave and that is used up to an aligned place inside. -/
structure ArenaBlock.Sound (limit : ℕ) (b : ArenaBlock) : Prop where
  /-- The block is aligned. -/
  aligned : 16 ∣ b.addr
  /-- So is what is used. -/
  used_aligned : 16 ∣ b.used
  /-- What is used is there. -/
  used_le : b.used ≤ b.cap
  /-- `malloc` gave it. -/
  bounded : blockDataOffset + b.cap ≤ limit

/-- Where the next range behind a range begins. -/
def ArenaRange.stop (r : ArenaRange) : ℕ := r.addr + roundUp r.size arenaAlign

/-- The range lies in the used part of the block. -/
structure ArenaRange.Within (r : ArenaRange) (b : ArenaBlock) : Prop where
  /-- The range was taken from the block. -/
  home : r.home = b.addr
  /-- It begins inside. -/
  start : b.data ≤ r.addr
  /-- It ends below what is free. -/
  stop : r.stop ≤ b.data + b.used

/-- What holds behind every call. -/
structure ArenaState.Sound (limit : ℕ) (st : ArenaState) : Prop where
  /-- The blocks. -/
  blocks : ∀ b ∈ st.arena.blocks, b.Sound limit
  /-- No two blocks overlap. -/
  apart : st.arena.blocks.Pairwise ArenaBlock.Apart
  /-- The sizes of the ranges can be rounded. -/
  sizes : ∀ r ∈ st.live, r.size + 15 < 2 ^ 64
  /-- The ranges are aligned. -/
  aligned : ∀ r ∈ st.live, 16 ∣ r.addr
  /-- Every range lies in a block. -/
  within : ∀ r ∈ st.live, ∃ b ∈ st.arena.blocks, r.Within b
  /-- A range that is not empty lies behind the older ranges of its block. -/
  order : ∀ (i j : ℕ) (r r' : ArenaRange), i < j → st.live[i]? = some r → st.live[j]? = some r' →
    r.home = r'.home → r'.size = 0 ∨ r.stop ≤ r'.addr
  /-- Behind a range of the first block there are ranges of the first block only. -/
  later : ∀ (i j : ℕ) (r r' : ArenaRange) (b : ArenaBlock), i < j → st.live[i]? = some r →
    st.live[j]? = some r' → st.arena.blocks.head? = some b → r.home = b.addr → r'.home = b.addr

namespace ArenaState

variable {limit : ℕ} {st : ArenaState}

/-- No two blocks have one address. -/
lemma Sound.block_eq (h : st.Sound limit) {b c : ArenaBlock} (hb : b ∈ st.arena.blocks)
    (hc : c ∈ st.arena.blocks) (heq : b.addr = c.addr) : b = c := by
  have hoff := blockDataOffset_eq
  by_contra hne
  have hapart := h.apart.forall hb hc hne
  unfold ArenaBlock.Apart ArenaBlock.limit at hapart
  omega

lemma sound_init (limit : ℕ) : init.Sound limit where
  blocks := by simp [init, arenaInit]
  apart := by simp [init, arenaInit]
  sizes := by simp [init]
  aligned := by simp [init]
  within := by simp [init]
  order := by simp [init]
  later := by simp [init]

/-- More of the first block is used. -/
lemma Sound.reuse (h : st.Sound limit) {b : ArenaBlock} {bs : List ArenaBlock}
    (hst : st.arena.blocks = b :: bs) {used : ℕ} (hle : b.used ≤ used) (hcap : used ≤ b.cap)
    (hdvd : 16 ∣ used) : (⟨⟨{ b with used } :: bs⟩, st.live⟩ : ArenaState).Sound limit where
  blocks := by
    intro c hc
    rcases List.mem_cons.mp hc with rfl | hc
    · obtain ⟨haddr, -, -, hbound⟩ := h.blocks b (by simp [hst])
      exact ⟨haddr, hdvd, hcap, hbound⟩
    · exact h.blocks c (by simp [hst, hc])
  apart := by
    have hapart := h.apart
    rw [hst, List.pairwise_cons] at hapart
    exact List.pairwise_cons.mpr hapart
  sizes := h.sizes
  aligned := h.aligned
  within := by
    intro r hr
    obtain ⟨c, hc, hhome, hstart, hstop⟩ := h.within r hr
    rw [hst] at hc
    rcases List.mem_cons.mp hc with rfl | hc
    · exact ⟨_, List.mem_cons_self, hhome, hstart, by
        have hdata : ({ c with used } : ArenaBlock).data = c.data := rfl
        simp only [hdata]
        omega⟩
    · exact ⟨c, List.mem_cons_of_mem _ hc, hhome, hstart, hstop⟩
  order := h.order
  later := by
    intro i j r r' c hij hr hr' hc hhome
    obtain rfl : { b with used } = c := by simpa using hc
    exact h.later i j r r' b hij hr hr' (by simp [hst]) hhome

/-- A block in front that is not used yet. -/
lemma Sound.newBlock (h : st.Sound limit) {addr cap : ℕ} (hdvd : 16 ∣ addr)
    (hbound : blockDataOffset + cap ≤ limit)
    (hfresh : ∀ b ∈ st.arena.blocks, ArenaBlock.Apart ⟨addr, 0, cap⟩ b) :
    (⟨⟨⟨addr, 0, cap⟩ :: st.arena.blocks⟩, st.live⟩ : ArenaState).Sound limit where
  blocks := by
    intro c hc
    rcases List.mem_cons.mp hc with rfl | hc
    · exact ⟨hdvd, Nat.dvd_zero 16, Nat.zero_le _, hbound⟩
    · exact h.blocks c hc
  apart := List.pairwise_cons.mpr ⟨fun b hb => hfresh b hb, h.apart⟩
  sizes := h.sizes
  aligned := h.aligned
  within := by
    intro r hr
    obtain ⟨c, hc, hw⟩ := h.within r hr
    exact ⟨c, List.mem_cons_of_mem _ hc, hw⟩
  order := h.order
  later := by
    intro i j r r' c hij hr hr' hc hhome
    obtain rfl : (⟨addr, 0, cap⟩ : ArenaBlock) = c := by simpa using hc
    -- no range was taken from the new block
    obtain ⟨d, hd, hw⟩ := h.within r (List.mem_of_getElem? hr)
    have hoff := blockDataOffset_eq
    have hapart := hfresh d hd
    have hsame : d.addr = addr := hw.home ▸ hhome
    simp only [ArenaBlock.Apart, ArenaBlock.limit] at hapart
    omega

/-- What stands in a list with one more element. -/
lemma getElem?_push {α : Type} {l : List α} {x a : α} {j : ℕ} (h : (l ++ [x])[j]? = some a) :
    (j < l.length ∧ l[j]? = some a) ∨ (j = l.length ∧ a = x) := by
  rcases Nat.lt_trichotomy j l.length with hj | rfl | hj
  · rw [List.getElem?_append_left hj] at h
    exact .inl ⟨hj, h⟩
  · exact .inr ⟨rfl, by simpa [eq_comm] using h⟩
  · rw [List.getElem?_eq_none (by rw [List.length_append]; exact hj)] at h
    cases h

/-- A range at the end of what is used in the first block. -/
lemma Sound.bump (h : st.Sound limit) {b : ArenaBlock} {bs : List ArenaBlock}
    (hst : st.arena.blocks = b :: bs) {size : ℕ} (hsize : size + 15 < 2 ^ 64)
    (hroom : b.used + roundUp size arenaAlign ≤ b.cap) :
    (⟨⟨{ b with used := b.used + roundUp size arenaAlign } :: bs⟩,
      st.live ++ [⟨b.data + b.used, size, b.addr⟩]⟩ : ArenaState).Sound limit := by
  have hb := h.blocks b (by simp [hst])
  have hoff := blockDataOffset_eq
  have hround := roundUp_eq hsize
  have hold := h.reuse hst (Nat.le_add_right b.used (roundUp size arenaAlign)) hroom
    (by have := hb.used_aligned; omega)
  refine ⟨hold.blocks, hold.apart, ?_, ?_, ?_, ?_, ?_⟩
  · intro r hr
    rcases List.mem_append.mp hr with hr | hr
    · exact h.sizes r hr
    · obtain rfl := List.mem_singleton.mp hr
      exact hsize
  · intro r hr
    rcases List.mem_append.mp hr with hr | hr
    · exact h.aligned r hr
    · obtain rfl := List.mem_singleton.mp hr
      have haddr := hb.aligned
      have hused := hb.used_aligned
      simp only [ArenaBlock.data]
      omega
  · intro r hr
    rcases List.mem_append.mp hr with hr | hr
    · exact hold.within r hr
    · obtain rfl := List.mem_singleton.mp hr
      refine ⟨_, List.mem_cons_self, rfl, ?_, ?_⟩
      · simp only [ArenaBlock.data]
        omega
      · simp only [ArenaRange.stop, ArenaBlock.data]
        omega
  · intro i j r r' hij hr hr' hhome
    rcases getElem?_push hr' with ⟨hj, hr'⟩ | ⟨rfl, rfl⟩
    · rw [List.getElem?_append_left (Nat.lt_trans hij hj)] at hr
      exact h.order i j r r' hij hr hr' hhome
    · rw [List.getElem?_append_left hij] at hr
      obtain ⟨c, hc, hw⟩ := h.within r (List.mem_of_getElem? hr)
      obtain rfl : c = b := h.block_eq hc (by simp [hst]) (hw.home ▸ hhome)
      exact .inr hw.stop
  · intro i j r r' c hij hr hr' hc hhome
    obtain rfl : { b with used := b.used + roundUp size arenaAlign } = c := by simpa using hc
    rcases getElem?_push hr' with ⟨hj, hr'⟩ | ⟨rfl, rfl⟩
    · rw [List.getElem?_append_left (Nat.lt_trans hij hj)] at hr
      exact h.later i j r r' b hij hr hr' (by simp [hst]) hhome
    · rfl

/-- The range that ends where the first block is used up to lies in that block, and no range that
is not empty is newer. -/
lemma Sound.tail (h : st.Sound limit) {b : ArenaBlock} {bs : List ArenaBlock}
    (hst : st.arena.blocks = b :: bs) {i : ℕ} {r : ArenaRange} (hr : st.live[i]? = some r)
    (hend : r.stop = b.data + b.used) :
    r.Within b ∧ ∀ j r', i < j → st.live[j]? = some r' → r'.home = b.addr ∧ r'.size = 0 := by
  have hoff := blockDataOffset_eq
  have hmem : b ∈ st.arena.blocks := by simp [hst]
  have hused := (h.blocks b hmem).used_le
  obtain ⟨c, hc, hw⟩ := h.within r (List.mem_of_getElem? hr)
  have hcused := (h.blocks c hc).used_le
  have hcb : c = b := by
    by_contra hne
    have hapart := h.apart.forall hc hmem hne
    have hstart := hw.start
    have hstop := hw.stop
    have hle : r.addr ≤ r.stop := Nat.le_add_right _ _
    simp only [ArenaBlock.Apart, ArenaBlock.limit, ArenaBlock.data] at *
    omega
  obtain rfl := hcb
  refine ⟨hw, fun j r' hij hr' => ?_⟩
  have hhome := h.later i j r r' c hij hr hr' (by simp [hst]) hw.home
  refine ⟨hhome, ?_⟩
  rcases h.order i j r r' hij hr hr' (hw.home.trans hhome.symm) with hempty | hbehind
  · exact hempty
  · -- the newer range begins behind what is used
    obtain ⟨d, hd, hw'⟩ := h.within r' (List.mem_of_getElem? hr')
    obtain rfl : d = c := h.block_eq hd hc (hw'.home ▸ hhome)
    have hround := roundUp_eq (h.sizes r' (List.mem_of_getElem? hr'))
    have hstop := hw'.stop
    simp only [ArenaRange.stop] at hstop hbehind hend
    omega

/-- That range is made longer. -/
lemma Sound.grow (h : st.Sound limit) {b : ArenaBlock} {bs : List ArenaBlock}
    (hst : st.arena.blocks = b :: bs) {i size : ℕ} {r : ArenaRange} (hr : st.live[i]? = some r)
    (hend : r.stop = b.data + b.used) (hsize : size + 15 < 2 ^ 64) (hle : r.size ≤ size)
    (hroom : b.used + (roundUp size arenaAlign - roundUp r.size arenaAlign) ≤ b.cap) :
    (⟨⟨{ b with used := b.used + (roundUp size arenaAlign - roundUp r.size arenaAlign) } :: bs⟩,
      st.live.set i { r with size }⟩ : ArenaState).Sound limit := by
  have hi : i < st.live.length := (List.getElem?_eq_some_iff.mp hr).1
  have hround := roundUp_eq hsize
  have hold := roundUp_eq (h.sizes r (List.mem_of_getElem? hr))
  obtain ⟨hw, hnewer⟩ := h.tail hst hr hend
  have hkeep := h.reuse hst (Nat.le_add_right b.used _) hroom
    (by have := (h.blocks b (by simp [hst])).used_aligned; omega)
  have hstop : ({ r with size } : ArenaRange).stop =
      b.data + (b.used + (roundUp size arenaAlign - roundUp r.size arenaAlign)) := by
    simp only [ArenaRange.stop] at hend ⊢
    omega
  have hget : ∀ j r', (st.live.set i { r with size })[j]? = some r' →
      (j = i ∧ r' = { r with size }) ∨ (j ≠ i ∧ st.live[j]? = some r') := by
    intro j r' hj
    rw [List.getElem?_set] at hj
    split_ifs at hj with hji
    · exact .inl ⟨hji.symm, by simpa [eq_comm] using hj⟩
    · exact .inr ⟨fun heq => hji heq.symm, hj⟩
  refine ⟨hkeep.blocks, hkeep.apart, ?_, ?_, ?_, ?_, ?_⟩
  · intro r' hr'
    rcases List.mem_or_eq_of_mem_set hr' with hr' | rfl
    · exact h.sizes r' hr'
    · exact hsize
  · intro r' hr'
    rcases List.mem_or_eq_of_mem_set hr' with hr' | rfl
    · exact h.aligned r' hr'
    · exact h.aligned r (List.mem_of_getElem? hr)
  · intro r' hr'
    rcases List.mem_or_eq_of_mem_set hr' with hr' | rfl
    · exact hkeep.within r' hr'
    · exact ⟨_, List.mem_cons_self, hw.home, hw.start, Nat.le_of_eq hstop⟩
  · intro j k r₁ r₂ hjk h₁ h₂ hhome
    rcases hget j r₁ h₁ with ⟨rfl, rfl⟩ | ⟨hj, h₁'⟩
    · rcases hget k r₂ h₂ with ⟨rfl, rfl⟩ | ⟨hk, h₂'⟩
      · exact absurd hjk (Nat.lt_irrefl _)
      · exact .inl (hnewer k r₂ hjk h₂').2
    · rcases hget k r₂ h₂ with ⟨rfl, rfl⟩ | ⟨hk, h₂'⟩
      · -- a range that was empty stood at the end of what was used
        obtain ⟨c, hc, hw₁⟩ := h.within r₁ (List.mem_of_getElem? h₁')
        obtain rfl : c = b := h.block_eq hc (by simp [hst]) (by rw [← hw₁.home, hhome, hw.home])
        rcases h.order j k r₁ r hjk h₁' hr hhome with hempty | hbehind
        · have hzero : r.stop = r.addr := by
            simp only [ArenaRange.stop, hempty]
            rfl
          exact .inr (hzero ▸ hend ▸ hw₁.stop)
        · exact .inr hbehind
      · exact h.order j k r₁ r₂ hjk h₁' h₂' hhome
  · intro j k r₁ r₂ c hjk h₁ h₂ hc hhome
    obtain rfl : { b with
      used := b.used + (roundUp size arenaAlign - roundUp r.size arenaAlign) } = c := by
        simpa using hc
    rcases hget k r₂ h₂ with ⟨rfl, rfl⟩ | ⟨hk, h₂'⟩
    · exact hw.home
    · rcases hget j r₁ h₁ with ⟨rfl, rfl⟩ | ⟨hj, h₁'⟩
      · exact (hnewer k r₂ hjk h₂').1
      · exact h.later j k r₁ r₂ b hjk h₁' h₂' (by simp [hst]) hhome

/-! ## Calls -/

/-- A new block has room for what is needed. -/
lemma Sound.nextCap (h : st.Sound limit) (hlimit : limit ≤ ptrdiffMax) {need : ℕ}
    (hneed : need + 32 < 2 ^ 64) :
    need ≤ st.arena.nextCap need ∧ st.arena.nextCap need + 32 < 2 ^ 64 := by
  have hsize : arenaBlockSize = 65536 := rfl
  have hptr : ptrdiffMax = 2 ^ 63 - 1 := rfl
  have hoff := blockDataOffset_eq
  unfold Arena.nextCap
  cases hst : st.arena.blocks with
  | nil =>
    simp only
    split_ifs <;> omega
  | cons b bs =>
    have hbound := (h.blocks b (by simp [hst])).bounded
    have hdouble : wrapSize (b.cap * 2) = b.cap * 2 := wrapSize_of_lt (by omega)
    simp only [hdouble]
    split_ifs <;> omega

/-- An allocation from a new block. -/
lemma Sound.extend (h : st.Sound limit) (hlimit : limit ≤ ptrdiffMax) {malloc : ℕ → Option ℕ}
    (hmalloc : MallocSound limit malloc st.arena.blocks) {size : ℕ} (hsize : Modest limit size) :
    (st.hand size (arenaExtend malloc st.arena (roundUp size arenaAlign))).Sound limit := by
  unfold Modest at hsize
  have hround := @roundUp_eq size (by omega)
  have hoff := blockDataOffset_eq
  obtain ⟨hneed, hcap⟩ := h.nextCap hlimit (by omega : roundUp size arenaAlign + 32 < 2 ^ 64)
  have hwrap : wrapSize (blockDataOffset + st.arena.nextCap (roundUp size arenaAlign)) =
      blockDataOffset + st.arena.nextCap (roundUp size arenaAlign) := wrapSize_of_lt (by omega)
  rw [arenaExtend, blockNew, hwrap]
  cases ha : malloc (blockDataOffset + st.arena.nextCap (roundUp size arenaAlign)) with
  | none => exact h
  | some addr =>
    have hnew := h.newBlock (hmalloc.aligned _ _ ha) (hmalloc.bounded _ _ ha)
      (hmalloc.fresh _ _ ha)
    have hused : wrapSize (0 + roundUp size arenaAlign) = 0 + roundUp size arenaAlign :=
      wrapSize_of_lt (by omega)
    simp only [Option.map_some, hused]
    exact hnew.bump rfl (by omega) (by simpa using hneed)

lemma Sound.alloc (h : st.Sound limit) (hlimit : limit ≤ ptrdiffMax) {malloc : ℕ → Option ℕ}
    (hmalloc : MallocSound limit malloc st.arena.blocks) {size : ℕ} (hsize : Modest limit size) :
    (st.hand size (arenaAlloc malloc st.arena size)).Sound limit := by
  have hextend := h.extend hlimit hmalloc hsize
  unfold Modest at hsize
  have hround := @roundUp_eq size (by omega)
  unfold arenaAlloc
  cases hst : st.arena.blocks with
  | nil => exact hextend
  | cons b bs =>
    have hb := h.blocks b (by simp [hst])
    have hused := hb.used_le
    have hbound := hb.bounded
    have hwrap : wrapSize (b.used + roundUp size arenaAlign) = b.used + roundUp size arenaAlign :=
      wrapSize_of_lt (by omega)
    simp only [hwrap]
    split_ifs with hroom
    · exact h.bump hst (by omega) hroom
    · exact hextend

/-- What a growth has found. -/
lemma Sound.tryGrow (h : st.Sound limit) {i size addr : ℕ} {r : ArenaRange} {arena : Arena}
    (hr : st.live[i]? = some r) (hsize : Modest limit size)
    (hgrow : arenaTryGrow st.arena (some r.addr) r.size size = some (addr, arena)) :
    addr = r.addr ∧ r.size ≤ size ∧ ∃ b bs, st.arena.blocks = b :: bs ∧ r.stop = b.data + b.used ∧
      b.used + (roundUp size arenaAlign - roundUp r.size arenaAlign) ≤ b.cap ∧ arena =
        ⟨{ b with
          used := b.used + (roundUp size arenaAlign - roundUp r.size arenaAlign) } :: bs⟩ := by
  unfold Modest at hsize
  unfold arenaTryGrow at hgrow
  cases hst : st.arena.blocks with
  | nil =>
    rw [hst] at hgrow
    cases hgrow
  | cons b bs =>
    have hb := h.blocks b (by simp [hst])
    have hused := hb.used_le
    have hbound := hb.bounded
    have hold := roundUp_eq (h.sizes r (List.mem_of_getElem? hr))
    have hnew := @roundUp_eq size (by omega)
    simp only [hst] at hgrow
    split_ifs at hgrow with hle hroom
    have hsub : subSize (roundUp size arenaAlign) (roundUp r.size arenaAlign) =
        roundUp size arenaAlign - roundUp r.size arenaAlign :=
      subSize_of_le (by omega) (by omega)
    have hwrap : wrapSize (b.used + (roundUp size arenaAlign - roundUp r.size arenaAlign)) =
        b.used + (roundUp size arenaAlign - roundUp r.size arenaAlign) :=
      wrapSize_of_lt (by omega)
    rw [hsub, hwrap] at hgrow hroom
    obtain ⟨rfl, rfl⟩ := Prod.mk.inj (Option.some.inj hgrow)
    exact ⟨rfl, Nat.not_lt.mp hle, b, bs, rfl, hroom.1, hroom.2, rfl⟩

lemma Sound.step (h : st.Sound limit) (hlimit : limit ≤ ptrdiffMax) {malloc : ℕ → Option ℕ}
    (hmalloc : MallocSound limit malloc st.arena.blocks) {op : ArenaOp}
    (hsize : Modest limit op.size) : (st.step malloc op).Sound limit := by
  cases op with
  | alloc size => exact h.alloc hlimit hmalloc hsize
  | fastAlloc size =>
    rw [ArenaState.step, arenaFastAlloc_eq]
    · exact h.alloc hlimit hmalloc hsize
    · intro b hb
      have hused := (h.blocks b hb).used_le
      have hbound := (h.blocks b hb).bounded
      have hmodest : size + limit + 48 ≤ 2 ^ 64 := hsize
      omega
  | grow i size =>
    rw [ArenaState.step]
    cases hr : st.live[i]? with
    | none => exact h
    | some r =>
      simp only
      cases hgrow : arenaTryGrow st.arena (some r.addr) r.size size with
      | none => exact h
      | some p =>
        obtain ⟨addr, arena⟩ := p
        obtain ⟨rfl, hle, b, bs, hst, hend, hroom, rfl⟩ := h.tryGrow hr hsize hgrow
        have hmodest : size + limit + 48 ≤ 2 ^ 64 := hsize
        have hround : size + 15 < 2 ^ 64 := by omega
        exact h.grow hst hr hend hround hle hroom

lemma sound_of_reach (hlimit : limit ≤ ptrdiffMax) (h : ArenaReach limit st) : st.Sound limit := by
  induction h with
  | init => exact sound_init limit
  | step _ hmalloc hsize ih => exact ih.step hlimit hmalloc hsize

/-- Two ranges share no byte. -/
lemma Sound.disjoint (h : st.Sound limit) {i j : ℕ} {r r' : ArenaRange} (hij : i < j)
    (hr : st.live[i]? = some r) (hr' : st.live[j]? = some r') (x : ℕ) : ¬ (r.Has x ∧ r'.Has x) := by
  rintro ⟨⟨hlo, hhi⟩, hlo', hhi'⟩
  obtain ⟨b, hb, hw⟩ := h.within r (List.mem_of_getElem? hr)
  obtain ⟨c, hc, hw'⟩ := h.within r' (List.mem_of_getElem? hr')
  have hround := roundUp_eq (h.sizes r (List.mem_of_getElem? hr))
  have hround' := roundUp_eq (h.sizes r' (List.mem_of_getElem? hr'))
  by_cases hhome : r.home = r'.home
  · rcases h.order i j r r' hij hr hr' hhome with hempty | hbehind
    · omega
    · simp only [ArenaRange.stop] at hbehind
      omega
  · have hne : b ≠ c := fun heq => hhome (hw.home.trans (heq ▸ hw'.home.symm))
    have hapart := h.apart.forall hb hc hne
    have hstart := hw.start
    have hstop := hw.stop
    have hstart' := hw'.start
    have hstop' := hw'.stop
    have hused := (h.blocks b hb).used_le
    have hused' := (h.blocks c hc).used_le
    simp only [ArenaBlock.Apart, ArenaBlock.limit, ArenaBlock.data, ArenaRange.stop] at *
    omega

end ArenaState

/-! ## Every run -/

open ArenaState

/-- Behind any calls: every range is aligned and lies inside a block; no two share a byte; and
where a range can be grown in place it is in the first block, the newer ranges are all empty, the
first block is used further and nothing else changes. -/
theorem arena_ranges {limit : ℕ} (hlimit : limit ≤ ptrdiffMax) {st : ArenaState}
    (h : ArenaReach limit st) :
    (∀ r ∈ st.live, 16 ∣ r.addr ∧ ∃ b ∈ st.arena.blocks,
      b.data ≤ r.addr ∧ r.addr + r.size ≤ b.data + b.cap) ∧
    (∀ (i j : ℕ) (r r' : ArenaRange), i ≠ j → st.live[i]? = some r → st.live[j]? = some r' →
      ∀ x, ¬ (r.Has x ∧ r'.Has x)) ∧
    ∀ (i size addr : ℕ) (r : ArenaRange) (arena : Arena), st.live[i]? = some r →
      Modest limit size →
      arenaTryGrow st.arena (some r.addr) r.size size = some (addr, arena) →
        addr = r.addr ∧
        (∃ b bs used, st.arena.blocks = b :: bs ∧ arena.blocks = { b with used } :: bs ∧
          b.data ≤ r.addr ∧ r.addr + size ≤ b.data + b.cap) ∧
        ∀ (j : ℕ) (r' : ArenaRange), i < j → st.live[j]? = some r' → r'.size = 0 := by
  have hs := sound_of_reach hlimit h
  refine ⟨fun r hr => ⟨hs.aligned r hr, ?_⟩, fun i j r r' hne hr hr' x => ?_,
    fun i size addr r arena hr hsize hgrow => ?_⟩
  · obtain ⟨b, hb, hw⟩ := hs.within r hr
    have hround := roundUp_eq (hs.sizes r hr)
    have hstop := hw.stop
    have hused := (hs.blocks b hb).used_le
    simp only [ArenaRange.stop] at hstop
    exact ⟨b, hb, hw.start, by omega⟩
  · rcases Nat.lt_or_gt_of_ne hne with hij | hji
    · exact hs.disjoint hij hr hr' x
    · exact fun hx => hs.disjoint hji hr' hr x hx.symm
  · obtain ⟨haddr, hle, b, bs, hst, hend, hroom, rfl⟩ := hs.tryGrow hr hsize hgrow
    obtain ⟨hw, hnewer⟩ := hs.tail hst hr hend
    unfold Modest at hsize
    have hround := roundUp_eq (hs.sizes r (List.mem_of_getElem? hr))
    have hround' := @roundUp_eq size (by omega)
    simp only [ArenaRange.stop] at hend
    exact ⟨haddr, ⟨b, bs, _, hst, rfl, hw.start, by omega⟩,
      fun j r' hij hr' => (hnewer j r' hij hr').2⟩

/-- A `malloc` that has one page to give. -/
def firstPage (n : ℕ) : Option ℕ := if n ≤ ptrdiffMax then some 4096 else none

lemma firstPage_sound : MallocSound ptrdiffMax firstPage [] := by
  have hget : ∀ n addr, firstPage n = some addr → n ≤ ptrdiffMax ∧ addr = 4096 := by
    intro n addr h
    unfold firstPage at h
    split_ifs at h with hn
    exact ⟨hn, by simpa [eq_comm] using h⟩
  refine ⟨fun n addr h => ?_, fun n addr h => (hget n addr h).1, fun n addr h => ?_, by simp⟩
  · obtain ⟨-, rfl⟩ := hget n addr h
    decide
  · obtain ⟨hn, rfl⟩ := hget n addr h
    have hptr : ptrdiffMax = 2 ^ 63 - 1 := rfl
    omega

/-- A `malloc` that refuses everything. -/
lemma noMalloc_sound (blocks : List ArenaBlock) :
    MallocSound ptrdiffMax (fun _ => none) blocks := by
  constructor <;> simp

/-- Sixteen bytes and none. -/
def emptyBehind : ArenaState :=
  (ArenaState.init.step firstPage (.alloc 16)).step (fun _ => none) (.alloc 0)

lemma emptyBehind_reach : ArenaReach ptrdiffMax emptyBehind :=
  .step (.step .init firstPage_sound (by decide)) (noMalloc_sound _) (by decide)

/-- The sixteen bytes are grown although they are not the newest range. -/
theorem arena_grows_older : ¬ ∀ st, ArenaReach ptrdiffMax st →
    ∀ (i size : ℕ) (r : ArenaRange), st.live[i]? = some r → Modest ptrdiffMax size →
      (arenaTryGrow st.arena (some r.addr) r.size size).isSome = true →
        ∀ (j : ℕ) (r' : ArenaRange), i < j → st.live[j]? = some r' → r'.home ≠ r.home := by
  intro h
  exact h emptyBehind emptyBehind_reach 0 32 ⟨4128, 16, 4096⟩ (by decide) (by decide) (by decide) 1
    ⟨4144, 0, 4096⟩ (by decide) (by decide) rfl

/-- The ranges of the same calls. -/
theorem arena_ranges_emptyBehind : ArenaReach ptrdiffMax emptyBehind ∧
    ∀ r ∈ emptyBehind.live, 16 ∣ r.addr ∧
      ∃ b ∈ emptyBehind.arena.blocks, b.data ≤ r.addr ∧ r.addr + r.size ≤ b.data + b.cap :=
  ⟨emptyBehind_reach, (arena_ranges (Nat.le_refl _) emptyBehind_reach).1⟩

end Teptris
