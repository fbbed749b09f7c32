import Teptris.Emit.Buffered
import Teptris.Library.Storage

/-!
# The output buffer in memory

`ebuf` of `emit_shared.h` with the storage it points to: every write names the cells it is for, and
a write to a cell that is not there is a fault.  Whatever the sizes and whichever requests are
refused, no operation writes outside; under the status `TEPTRIS_OK` the storage begins with the
pieces that were put, and the cell of the terminator is there (`ebuf_contents`).
-/

namespace Teptris

open Storage

/-! ## The operations -/

/-- Why operations come to no state. -/
inductive EbufFault where
  /-- A cell is written that is not there. -/
  | outside
  /-- The capacity is doubled without end. -/
  | endless
deriving DecidableEq

/-- `ebuf`. -/
structure EbufMem where
  /-- The cells `p` points to, none if it is `NULL`. -/
  p : Option Bytes := none
  /-- `len`. -/
  len : ℕ := 0
  /-- `cap`. -/
  cap : ℕ := 0
  /-- `st` is not `TEPTRIS_OK`. -/
  failed : Bool := false
deriving DecidableEq

/-- What `realloc` answers to a request. -/
abbrev Grant := ℕ → Option Bytes

namespace EbufMem

/-- `eb_reserve`. -/
def reserve (grant : Grant) (b : EbufMem) (extra : ℕ) : Except EbufFault EbufMem :=
  if b.failed then .ok b
  else if wrapSize (b.len + extra + 1) ≤ b.cap then .ok b
  else
    match doubleSize (wrapSize (b.len + extra + 1)) (if b.cap = 0 then 256 else b.cap) with
    | none => .error .endless
    | some ncap =>
      match realloc grant b.p ncap with
      | none => .ok { b with p := none, failed := true }
      | some mem => .ok { b with p := some mem, cap := ncap }

/-- `memcpy` to the end of the text. -/
def store (b : EbufMem) (s : Bytes) : Except EbufFault EbufMem :=
  match b.p.bind (write · b.len s) with
  | none => .error .outside
  | some mem => .ok { b with p := some mem, len := wrapSize (b.len + s.length) }

/-- `eb_put` and `eb_str`. -/
def put (grant : Grant) (b : EbufMem) (s : Bytes) : Except EbufFault EbufMem :=
  if b.failed then .ok b
  else if wrapSize (b.len + s.length + 1) ≤ b.cap then b.store s
  else do
    let b ← b.reserve grant s.length
    if b.failed then .ok b else b.store s

/-- `eb_c`. -/
def char (grant : Grant) (b : EbufMem) (c : UInt8) : Except EbufFault EbufMem :=
  if b.failed = false ∧ wrapSize (b.len + 2) ≤ b.cap then b.store [c] else b.put grant [c]

/-- `eb_sep2`. -/
def sep (grant : Grant) (b : EbufMem) : Except EbufFault EbufMem :=
  if b.failed = false ∧ wrapSize (b.len + 3) ≤ b.cap then b.store ([Ch.comma, Ch.sp])
  else b.put grant ([Ch.comma, Ch.sp])

end EbufMem

/-- An operation on the buffer. -/
inductive EbufOp where
  /-- `eb_reserve`. -/
  | reserve (extra : ℕ)
  /-- `eb_put`. -/
  | put (s : Bytes)
  /-- `eb_c`. -/
  | char (c : UInt8)
  /-- `eb_sep2`. -/
  | sep

/-- The piece an operation puts. -/
def EbufOp.piece : EbufOp → Bytes
  | .reserve _ => []
  | .put s => s
  | .char c => [c]
  | .sep => [Ch.comma, Ch.sp]

/-- One operation. -/
def EbufMem.step (b : EbufMem) (grant : Grant) : EbufOp → Except EbufFault EbufMem
  | .reserve extra => b.reserve grant extra
  | .put s => b.put grant s
  | .char c => b.char grant c
  | .sep => b.sep grant

/-- Operations, each with the answers of `realloc` while it runs. -/
def ebufRun (b : EbufMem) : List (Grant × EbufOp) → Except EbufFault EbufMem
  | [] => .ok b
  | (grant, op) :: ops => (b.step grant op).bind fun b => ebufRun b ops

/-! ## The invariant -/

/-- Under the status `TEPTRIS_OK` the storage is of the recorded size and begins with the text, and
one more cell is there; without a storage there is no text. -/
structure EbufMem.Holds (b : EbufMem) (t : Bytes) : Prop where
  /-- No storage yet. -/
  absent : b.failed = false → b.p = none → b.len = 0 ∧ b.cap = 0 ∧ t = []
  /-- A storage. -/
  present : b.failed = false → ∀ mem, b.p = some mem →
    mem.length = b.cap ∧ b.cap ≤ ptrdiffMax ∧ b.len + 1 ≤ b.cap ∧ mem.take b.len = t

/-- What an operation that puts a piece comes to. -/
def ComesTo (t : Bytes) : Except EbufFault EbufMem → Prop
  | .ok b => b.Holds t
  | .error e => e = .endless

namespace EbufMem

variable {grant : Grant} {b : EbufMem} {t s : Bytes}

/-- Nothing is said under another status. -/
lemma holds_of_failed (h : b.failed = true) (t : Bytes) : b.Holds t := by
  constructor <;> simp [h]

lemma holds_start : ({} : EbufMem).Holds [] := by
  constructor <;> simp

/-- A storage that begins with the text. -/
lemma holds_of_storage {mem : Bytes} (hp : b.p = some mem) (hlen : mem.length = b.cap)
    (hmax : b.cap ≤ ptrdiffMax) (hroom : b.len + 1 ≤ b.cap) (htext : mem.take b.len = t) :
    b.Holds t where
  absent _ hnone := absurd (hp.symm.trans hnone) (by simp)
  present _ m hm := by
    obtain rfl : mem = m := Option.some.inj (hp.symm.trans hm)
    exact ⟨hlen, hmax, hroom, htext⟩

/-- A piece that has room in front of the last cell. -/
lemma Holds.store_eq (h : b.Holds t) (hok : b.failed = false)
    (hroom : b.len + s.length + 1 ≤ b.cap) : ∃ mem,
      b.store s = .ok { b with p := some mem, len := b.len + s.length } ∧
        EbufMem.Holds { b with p := some mem, len := b.len + s.length } (t ++ s) := by
  have hptr : ptrdiffMax = 2 ^ 63 - 1 := rfl
  cases hp : b.p with
  | none =>
    obtain ⟨-, hcap, -⟩ := h.absent hok hp
    omega
  | some mem =>
    obtain ⟨hsize, hmax, -, htext⟩ := h.present hok mem hp
    obtain ⟨mem', hwrite, hlen, htake⟩ := @write_spec _ mem s b.len (by omega)
    have hwrap : wrapSize (b.len + s.length) = b.len + s.length := wrapSize_of_lt (by omega)
    refine ⟨mem', by simp only [EbufMem.store, hp, Option.bind_some, hwrite, hwrap], ?_⟩
    exact holds_of_storage rfl (hlen.trans hsize) hmax hroom (by rw [htake, htext])

lemma Holds.store (h : b.Holds t) (hok : b.failed = false) (hroom : b.len + s.length + 1 ≤ b.cap) :
    ComesTo (t ++ s) (b.store s) := by
  obtain ⟨mem, hstore, h'⟩ := h.store_eq hok hroom
  rw [hstore]
  exact h'

/-- What a growth gives behind: the text as it was, and room for what was asked. -/
lemma Holds.grown (hgrant : GrantSound grant) (h : b.Holds t) (hok : b.failed = false)
    {need ncap : ℕ}
    (hneed : b.cap < need) (hle : need ≤ ncap) {mem : Bytes}
    (hmem : realloc grant b.p ncap = some mem) :
    EbufMem.Holds { b with p := some mem, cap := ncap } t := by
  have hold : (b.p.getD []).length ≤ b.cap ∧ b.len ≤ (b.p.getD []).length ∧
      (b.p.getD []).take b.len = t ∧ b.len + 1 ≤ ncap := by
    cases hp : b.p with
    | none =>
      obtain ⟨hlen, hzero, rfl⟩ := h.absent hok hp
      exact ⟨Nat.zero_le _, Nat.le_of_eq hlen, List.take_nil, by omega⟩
    | some old =>
      obtain ⟨hsize, -, hroom, htext⟩ := h.present hok old hp
      simp only [Option.getD_some]
      exact ⟨Nat.le_of_eq hsize, by omega, htext, by omega⟩
  obtain ⟨hsize, hlen, htake, hnext⟩ := hold
  obtain ⟨hlength, hmax, hsame⟩ := realloc_spec hgrant hmem (by omega)
  exact holds_of_storage rfl hlength hmax hnext ((hsame _ hlen).trans htake)

/-- Behind a reservation the text is as it was, and there is room or the status is set. -/
lemma Holds.reserve (hgrant : GrantSound grant) (h : b.Holds t) (extra : ℕ) :
    b.reserve grant extra = .error .endless ∨ ∃ b', b.reserve grant extra = .ok b' ∧ b'.Holds t ∧
      (b'.failed = false → b'.len = b.len ∧ wrapSize (b.len + extra + 1) ≤ b'.cap) := by
  unfold EbufMem.reserve
  by_cases hfailed : b.failed = true
  · rw [if_pos hfailed]
    exact .inr ⟨b, rfl, h, fun hok => by rw [hfailed] at hok; cases hok⟩
  rw [if_neg hfailed]
  by_cases hroom : wrapSize (b.len + extra + 1) ≤ b.cap
  · rw [if_pos hroom]
    exact .inr ⟨b, rfl, h, fun _ => ⟨rfl, hroom⟩⟩
  rw [if_neg hroom]
  have hok : b.failed = false := by simpa using hfailed
  cases hcap : doubleSize (wrapSize (b.len + extra + 1)) (if b.cap = 0 then 256 else b.cap) with
  | none => exact .inl rfl
  | some ncap =>
    cases hmem : realloc grant b.p ncap with
    | none =>
      simp only [hmem]
      exact .inr ⟨_, rfl, holds_of_failed rfl _, fun hok' => absurd hok' (by simp)⟩
    | some mem =>
      simp only [hmem]
      exact .inr ⟨_, rfl, h.grown hgrant hok (Nat.not_le.mp hroom) (le_of_doubleSize hcap) hmem,
        fun _ => ⟨rfl, le_of_doubleSize hcap⟩⟩

/-- The length and the capacity are no larger than an object. -/
lemma Holds.len_le (h : b.Holds t) (hok : b.failed = false) :
    b.len ≤ ptrdiffMax ∧ b.cap ≤ ptrdiffMax := by
  cases hp : b.p with
  | none =>
    obtain ⟨hlen, hcap, -⟩ := h.absent hok hp
    omega
  | some mem =>
    obtain ⟨-, hmax, hroom, -⟩ := h.present hok mem hp
    omega

lemma Holds.put (hgrant : GrantSound grant) (h : b.Holds t) (hs : s.length ≤ ptrdiffMax) :
    ComesTo (t ++ s) (b.put grant s) := by
  have hptr : ptrdiffMax = 2 ^ 63 - 1 := rfl
  unfold EbufMem.put
  by_cases hfailed : b.failed = true
  · rw [if_pos hfailed]
    exact holds_of_failed hfailed _
  rw [if_neg hfailed]
  have hok : b.failed = false := by simpa using hfailed
  obtain ⟨hlen, hcap⟩ := h.len_le hok
  have hwrap : wrapSize (b.len + s.length + 1) = b.len + s.length + 1 := wrapSize_of_lt (by omega)
  by_cases hroom : wrapSize (b.len + s.length + 1) ≤ b.cap
  · rw [if_pos hroom]
    rw [hwrap] at hroom
    exact h.store hok hroom
  rw [if_neg hroom]
  rcases h.reserve hgrant s.length with hend | ⟨b', hb', h', hafter⟩
  · rw [hend]
    rfl
  · rw [hb']
    change ComesTo (t ++ s) (if b'.failed = true then .ok b' else b'.store s)
    split_ifs with hfailed'
    · exact holds_of_failed hfailed' _
    · have hok' : b'.failed = false := by simpa using hfailed'
      obtain ⟨hlen', hroom'⟩ := hafter hok'
      rw [hwrap] at hroom'
      exact h'.store hok' (by omega)

lemma Holds.char (hgrant : GrantSound grant) (h : b.Holds t) (c : UInt8) :
    ComesTo (t ++ [c]) (b.char grant c) := by
  have hptr : ptrdiffMax = 2 ^ 63 - 1 := rfl
  unfold EbufMem.char
  split_ifs with hroom
  · obtain ⟨hlen, hcap⟩ := h.len_le hroom.1
    have hfits := hroom.2
    rw [wrapSize_of_lt (by omega)] at hfits
    exact h.store hroom.1 hfits
  · exact h.put hgrant (by simp [hptr])

lemma Holds.sep (hgrant : GrantSound grant) (h : b.Holds t) :
    ComesTo (t ++ [Ch.comma, Ch.sp]) (b.sep grant) := by
  have hptr : ptrdiffMax = 2 ^ 63 - 1 := rfl
  have hsep : ([Ch.comma, Ch.sp]).length = 2 := rfl
  unfold EbufMem.sep
  split_ifs with hroom
  · obtain ⟨hlen, hcap⟩ := h.len_le hroom.1
    have hfits := hroom.2
    rw [wrapSize_of_lt (by omega)] at hfits
    exact h.store hroom.1 (by omega)
  · exact h.put hgrant (by omega)

/-- Every operation keeps the invariant, with its piece behind the text. -/
lemma Holds.step (hgrant : GrantSound grant) (h : b.Holds t) {op : EbufOp}
    (hop : op.piece.length ≤ ptrdiffMax) : ComesTo (t ++ op.piece) (b.step grant op) := by
  cases op with
  | reserve extra =>
    rw [EbufOp.piece, List.append_nil, EbufMem.step]
    rcases h.reserve hgrant extra with hend | ⟨b', hb', h', -⟩
    · rw [hend]
      rfl
    · rw [hb']
      exact h'
  | put s => exact h.put hgrant hop
  | char c => exact h.char hgrant c
  | sep => exact h.sep hgrant

end EbufMem

lemma EbufMem.Holds.run {ops : List (Grant × EbufOp)} (hgrants : ∀ o ∈ ops, GrantSound o.1)
    (hops : ∀ o ∈ ops, o.2.piece.length ≤ ptrdiffMax) {b : EbufMem} {t : Bytes} (h : b.Holds t) :
    ComesTo (t ++ ops.flatMap fun o => o.2.piece) (ebufRun b ops) := by
  induction ops generalizing b t with
  | nil =>
    rw [List.flatMap_nil, List.append_nil]
    exact h
  | cons o ops ih =>
    obtain ⟨grant, op⟩ := o
    have hstep := h.step (hgrants _ List.mem_cons_self) (hops _ List.mem_cons_self)
    rw [ebufRun, List.flatMap_cons, ← List.append_assoc]
    simp only at hstep
    cases hb : b.step grant op with
    | error e =>
      rw [hb] at hstep
      exact hstep
    | ok b' =>
      rw [hb] at hstep
      exact ih (fun o ho => hgrants o (by simp [ho])) (fun o ho => hops o (by simp [ho])) hstep

/-! ## The buffer of the emitters -/

/-- The doubling of the other model, where it does not wrap. -/
lemma doubleSize_of_leastDoubling {cap need m : ℕ} (h : GrowBuf.LeastDoubling cap need m)
    (hcap : 0 < cap) (hm : m < 2 ^ 64) : doubleSize need cap = some m := by
  have hwithin : ∀ k n cap, k < n → need ≤ cap * 2 ^ k → (k = 0 ∨ cap * 2 ^ (k - 1) < need) →
      cap * 2 ^ k < 2 ^ 64 → doubleWithin need n cap = some (cap * 2 ^ k) := by
    intro k
    induction k with
    | zero =>
      intro n cap hn hle _ _
      obtain ⟨n, rfl⟩ := Nat.exists_eq_succ_of_ne_zero (Nat.ne_of_gt hn)
      rw [Nat.pow_zero, Nat.mul_one] at hle ⊢
      rw [doubleWithin, if_neg (Nat.not_lt.mpr hle)]
    | succ k ih =>
      intro n cap hn hle hlt hmax
      obtain ⟨n, rfl⟩ := Nat.exists_eq_succ_of_ne_zero (Nat.ne_of_gt (Nat.zero_lt_of_lt hn))
      have hsame : cap * 2 * 2 ^ k = cap * 2 ^ (k + 1) := by rw [Nat.pow_succ', Nat.mul_assoc]
      have hlast : cap * 2 ^ k < need := by simpa using hlt
      have hpow : cap ≤ cap * 2 ^ k := Nat.le_mul_of_pos_right _ (Nat.two_pow_pos k)
      have hdouble : cap * 2 ≤ cap * 2 ^ (k + 1) := by
        rw [← hsame]
        exact Nat.le_mul_of_pos_right _ (Nat.two_pow_pos k)
      have hprev : k = 0 ∨ cap * 2 * 2 ^ (k - 1) < need := by
        rcases Nat.eq_zero_or_pos k with rfl | hk
        · exact .inl rfl
        · refine .inr ?_
          rwa [Nat.mul_assoc, ← Nat.pow_succ', Nat.succ_eq_add_one, Nat.sub_add_cancel hk]
      rw [doubleWithin, if_pos (Nat.lt_of_le_of_lt hpow hlast), wrapSize_of_lt (by omega),
        ih n (cap * 2) (by omega) (by rw [hsame]; exact hle) hprev (by rw [hsame]; exact hmax),
          hsame]
  obtain ⟨k, rfl, hle, hlt⟩ := h
  have hk : k < 65 := by
    by_contra hk
    have hpow : 2 ^ 64 ≤ 2 ^ k := Nat.pow_le_pow_right Nat.two_pos (by omega)
    have hmul : 2 ^ k ≤ cap * 2 ^ k := Nat.le_mul_of_pos_left _ hcap
    omega
  exact hwithin k 65 cap hk hle hlt hm

/-- The storage shows a buffer of the emitters. -/
structure EbufMem.Shows (m : EbufMem) (b : Ebuf) : Prop where
  /-- The text. -/
  holds : m.Holds b.data
  /-- The status. -/
  failed : m.failed = b.failed
  /-- Null pointers. -/
  null : m.p.isNone = b.null
  /-- The length and the capacity. -/
  size : m.failed = false → m.len = b.data.length ∧ m.cap = b.cap

/-- `eb_put` in memory shows what it does to a buffer of the emitters, as long as the text is no
longer than `2 ^ 62` bytes. -/
theorem EbufMem.put_shows {grant : Grant} (hgrant : GrantSound grant) {a : GrowBuf.Pattern}
    {m : EbufMem} {b : Ebuf} (h : m.Shows b)
    (ha : ∀ n ≤ ptrdiffMax, (grant n).isSome = a b.requests) {s : Bytes}
    (hs : b.data.length + s.length + 1 ≤ 2 ^ 62) :
    ∃ m', m.put grant s = .ok m' ∧ m'.Shows (ebPut a b s) := by
  have hptr : ptrdiffMax = 2 ^ 63 - 1 := rfl
  by_cases hfailed : b.failed = true
  · refine ⟨m, by rw [EbufMem.put, if_pos (h.failed.trans hfailed)], ?_⟩
    rwa [ebPut, GrowBuf.put_failed hfailed]
  have hok : b.failed = false := by simpa using hfailed
  have hmok : m.failed = false := h.failed.trans hok
  obtain ⟨hlen, hcap⟩ := h.size hmok
  have hwrap : wrapSize (m.len + s.length + 1) = b.data.length + s.length + 1 := by
    rw [hlen]
    exact wrapSize_of_lt (by omega)
  rw [EbufMem.put, if_neg (by simp [hmok]), hwrap, hcap]
  by_cases hroom : b.data.length + s.length + 1 ≤ b.cap
  · rw [if_pos hroom, ebPut, GrowBuf.put_room hok hroom]
    obtain ⟨mem, hstore, h'⟩ := h.holds.store_eq hmok (s := s) (by omega)
    refine ⟨_, hstore, h', h.failed, ?_, fun _ => ⟨by simp [hlen], hcap⟩⟩
    rw [← h.null]
    cases hp : m.p with
    | none =>
      have hzero := (h.holds.absent hmok hp).2.1
      omega
    | some mem => rfl
  rw [if_neg hroom]
  have hfirst : 0 < if b.cap = 0 then ebShape.first else b.cap := by
    split_ifs with hzero
    · decide
    · exact Nat.pos_of_ne_zero hzero
  have hleast : GrowBuf.LeastDoubling (if b.cap = 0 then ebShape.first else b.cap)
      (b.data.length + s.length + 1) _ := GrowBuf.leastDoubling_need hfirst
  obtain ⟨k, hk, hle, hlast⟩ := id hleast
  -- the last doubling starts below the need
  have hncap : GrowBuf.double (b.data.length + s.length + 1) (b.data.length + s.length + 1)
      (if b.cap = 0 then ebShape.first else b.cap) ≤ ptrdiffMax := by
    rcases Nat.eq_zero_or_pos k with rfl | hpos
    · have hmax := (h.holds.len_le hmok).2
      have hshape : ebShape.first = 256 := rfl
      rw [hk, Nat.pow_zero, Nat.mul_one]
      split_ifs <;> omega
    · have hpow : 2 ^ k = 2 ^ (k - 1) * 2 := by
        rw [← Nat.pow_succ, Nat.succ_eq_add_one, Nat.sub_add_cancel hpos]
      rw [hk, hpow, ← Nat.mul_assoc]
      omega
  have hdouble := doubleSize_of_leastDoubling hleast hfirst (by omega)
  have hsame : (if m.cap = 0 then 256 else m.cap) = if b.cap = 0 then ebShape.first else b.cap := by
    rw [hcap]
    rfl
  have hgrown := GrowBuf.put_grown (s := ebShape) (a := a) (t := s) hok hroom
  obtain ⟨ncap, hdef⟩ : ∃ n, GrowBuf.double (b.data.length + s.length + 1)
    (b.data.length + s.length + 1) (if b.cap = 0 then ebShape.first else b.cap) = n := ⟨_, rfl⟩
  have hshape : ebShape.spare = 1 := rfl
  rw [hshape, hdef] at hgrown
  rw [hdef] at hncap hdouble hk
  have hneed : b.data.length + s.length + 1 ≤ ncap := le_of_doubleSize hdouble
  have hreserve : m.reserve grant s.length = (realloc grant m.p ncap).elim
      (.ok { m with p := none, failed := true })
      fun mem => .ok { m with p := some mem, cap := ncap } := by
    rw [EbufMem.reserve, if_neg (by simp [hmok]), hwrap, if_neg (by rwa [hcap]), hsame, hdouble]
    dsimp only
    cases realloc grant m.p ncap <;> rfl
  rw [hreserve]
  have hanswer := ha ncap hncap
  cases hreq : a b.requests with
  | false =>
    rw [hreq] at hanswer
    have hfresh : grant ncap = none := by simpa using hanswer
    have hnone : realloc grant m.p ncap = none := by rw [realloc, hfresh, Option.map_none]
    rw [hnone, Option.elim_none, ebPut, GrowBuf.put_refused hok hroom (by simp [hreq])]
    exact ⟨_, rfl, EbufMem.holds_of_failed rfl _, rfl, rfl, fun h => absurd h Bool.noConfusion⟩
  | true =>
    rw [hreq] at hanswer
    obtain ⟨fresh, hfresh⟩ := Option.isSome_iff_exists.mp hanswer
    obtain ⟨mem, hmem⟩ : ∃ mem, realloc grant m.p ncap = some mem := by
      rw [realloc, hfresh]
      exact ⟨_, rfl⟩
    rw [hmem, Option.elim_some, ebPut, hgrown hreq]
    have hmore := h.holds.grown hgrant hmok (by rw [hcap]; exact Nat.not_le.mp hroom) hneed hmem
    obtain ⟨mem', hstore, h'⟩ := hmore.store_eq hmok (s := s) (by simp only; omega)
    refine ⟨_, ?_, h', hmok, rfl, fun _ => ⟨by simp [hlen], rfl⟩⟩
    rw [← hstore]
    change (if m.failed = true then _ else _) = _
    rw [if_neg (by simp [hmok])]

/-! ## Every run -/

/-- Whatever is reserved and put, and whichever requests are refused: no cell is written that is
not there.  Where the operations come to a state with the status `TEPTRIS_OK` and a storage, the
text ends in front of the last cell of the capacity, which is the size of the storage, the storage
begins with the pieces, and the terminator can be written behind them. -/
theorem ebuf_contents {ops : List (Grant × EbufOp)} (hgrants : ∀ o ∈ ops, GrantSound o.1)
    (hops : ∀ o ∈ ops, o.2.piece.length ≤ ptrdiffMax) :
    ebufRun {} ops ≠ .error .outside ∧
    ∀ b mem, ebufRun {} ops = .ok b → b.failed = false → b.p = some mem →
      b.len + 1 ≤ b.cap ∧ mem.length = b.cap ∧
        (mem.take b.len = ops.flatMap fun o => o.2.piece) ∧
          (write mem b.len [0]).isSome = true := by
  have hrun := EbufMem.holds_start.run hgrants hops
  rw [List.nil_append] at hrun
  constructor
  · intro h
    rw [h] at hrun
    cases hrun
  · intro b mem hb hok hp
    rw [hb] at hrun
    obtain ⟨hsize, -, hroom, htext⟩ := EbufMem.Holds.present hrun hok mem hp
    refine ⟨hroom, hsize, htext, ?_⟩
    rw [write_of_le (by rw [hsize]; exact hroom)]
    rfl

/-- A `realloc` that gives zeros, up to the largest object. -/
def zeros (n : ℕ) : Option Bytes := if n ≤ ptrdiffMax then some (List.replicate n 0) else none

lemma zeros_sound : GrantSound zeros := by
  have hget : ∀ n fresh, zeros n = some fresh → n ≤ ptrdiffMax ∧ fresh = List.replicate n 0 := by
    intro n fresh h
    unfold zeros at h
    split_ifs at h with hn
    exact ⟨hn, by simpa [eq_comm] using h⟩
  constructor
  · intro n fresh h
    rw [(hget n fresh h).2, List.length_replicate]
  · exact fun n fresh h => (hget n fresh h).1

/-- `ab, ` in a buffer that grows twice. -/
theorem ebuf_contents_twice :
    ebufRun {} [(zeros, .char 0x61), (zeros, .reserve 300), (zeros, .put [0x62]), (zeros, .sep)] ≠
      .error .outside := by
  refine (ebuf_contents ?_ ?_).1
  · simp only [List.mem_cons, List.not_mem_nil, or_false, forall_eq_or_imp, forall_eq, zeros_sound,
      and_self]
  · decide

end Teptris
