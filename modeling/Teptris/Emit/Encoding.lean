import Teptris.Emit.Writer

/-!
# Op encodings

The byte encoding of writer ops, and what the writer does with an encoded op sequence: feeding
it, in whatever chunks of whole ops, runs the ops one after the other.
-/

namespace Teptris

open Loop

/-! ## Bytes of an op -/

/-- A number in that many little-endian bytes. -/
def leBytes : ℕ → ℕ → Bytes
  | 0, _ => []
  | n + 1, v => UInt8.ofNat v :: leBytes n (v / 256)

/-- The kind byte of a datetime. -/
def dtKindByte : DtKind → UInt8
  | .datetimeOffset => 4
  | .datetimeLocal => 5
  | .dateLocal => 6
  | .timeLocal => 7

/-- The payload of `W_DATETIME`. -/
def encodeDatetime (kind : DtKind) (dt : Datetime) : Bytes :=
  dtKindByte kind :: leBytes 8 dt.year.toInt64.toUInt64.toNat ++
    [dt.month, dt.day, dt.hour, dt.minute, dt.second] ++ leBytes 4 dt.nanosecond.toNat ++
    leBytes 8 dt.offsetSeconds.toInt64.toUInt64.toNat

/-- An op in bytes; a key takes at most 255 bytes, a string fewer than `2 ^ 32`. -/
def encodeOp : WOp → Option Bytes
  | .key k => if k.length < 256 then some (0x01 :: UInt8.ofNat k.length :: k) else none
  | .string s => if s.length < 2 ^ 32 then some (0x02 :: leBytes 4 s.length ++ s) else none
  | .int v => some (0x03 :: leBytes 8 v.toUInt64.toNat)
  | .float f => some (0x04 :: leBytes 8 f.bits.toNat)
  | .bool false => some [0x05]
  | .bool true => some [0x06]
  | .datetime kind dt => some (0x07 :: encodeDatetime kind dt)
  | .beginTable => some [0x08]
  | .beginArray => some [0x09]
  | .beginAot => some [0x0A]
  | .beginInlineTable => some [0x0B]
  | .close => some [0x0C]
  | .emptyTable => some [0x0D]
  | .emptyArray => some [0x0E]

/-- A sequence of ops in bytes. -/
def encodeOps : List WOp → Option Bytes
  | [] => some []
  | op :: ops =>
    match encodeOp op, encodeOps ops with
    | some b, some bs => some (b ++ bs)
    | _, _ => none

/-! ## Decoding -/

@[simp] lemma length_leBytes (n v : ℕ) : (leBytes n v).length = n := by
  induction n generalizing v with
  | zero => rfl
  | succ n ih => simp [leBytes, ih]

/-- Little-endian bytes hold the number, up to their width. -/
lemma leVal_leBytes (n v : ℕ) : leVal (leBytes n v) = v % 256 ^ n := by
  induction n generalizing v with
  | zero => simp [leBytes, leVal, Nat.mod_one]
  | succ n ih =>
    have hcons : leVal (leBytes (n + 1) v) =
        (UInt8.ofNat v).toNat + 256 * leVal (leBytes n (v / 256)) := rfl
    have hbyte : (UInt8.ofNat v).toNat = v % 256 := UInt8.toNat_ofNat'
    rw [hcons, ih, hbyte, Nat.pow_succ', Nat.mod_mul]

lemma takeBytes_append (a r : Bytes) : takeBytes a.length (a ++ r) = some (a, r) := by
  simp [takeBytes]

/-- A number of the width of its bytes, and what follows it. -/
lemma takeBytes_leBytes (n v : ℕ) (r : Bytes) :
    takeBytes n (leBytes n v ++ r) = some (leBytes n v, r) := by
  have := takeBytes_append (leBytes n v) r
  rwa [length_leBytes] at this

lemma dtKindOf_byte (kind : DtKind) : dtKindOf (dtKindByte kind) = some kind := by
  cases kind <;> rfl

lemma int64_ofNat_toNat (u : UInt64) : Int64.ofNat u.toNat = u.toInt64 :=
  Int64.toBitVec_inj.mp (by simp)

/-- Sign extension to eight bytes and truncation to four cancel. -/
lemma int32_of_leBytes (v : Int32) :
    Int32.ofNat (leVal (leBytes 8 v.toInt64.toUInt64.toNat)) = v := by
  have hlt : v.toInt64.toUInt64.toNat < 256 ^ 8 := UInt64.toNat_lt _
  rw [leVal_leBytes, Nat.mod_eq_of_lt hlt, ← Int64.toInt32_ofNat', int64_ofNat_toNat,
    Int64.toInt64_toUInt64, Int32.toInt32_toInt64]

lemma int64_of_leBytes (v : Int64) : Int64.ofNat (leVal (leBytes 8 v.toUInt64.toNat)) = v := by
  have hlt : v.toUInt64.toNat < 256 ^ 8 := UInt64.toNat_lt _
  rw [leVal_leBytes, Nat.mod_eq_of_lt hlt, int64_ofNat_toNat, Int64.toInt64_toUInt64]

lemma uint64_of_leBytes (v : UInt64) : UInt64.ofNat (leVal (leBytes 8 v.toNat)) = v := by
  have hlt : v.toNat < 256 ^ 8 := UInt64.toNat_lt _
  rw [leVal_leBytes, Nat.mod_eq_of_lt hlt, UInt64.ofNat_toNat]

lemma uint32_of_leBytes (v : UInt32) : UInt32.ofNat (leVal (leBytes 4 v.toNat)) = v := by
  have hlt : v.toNat < 256 ^ 4 := UInt32.toNat_lt _
  rw [leVal_leBytes, Nat.mod_eq_of_lt hlt, UInt32.ofNat_toNat]

@[simp] lemma length_encodeDatetime (kind : DtKind) (dt : Datetime) :
    (encodeDatetime kind dt).length = 26 := by
  simp [encodeDatetime]

/-- The payload of a datetime decodes to it. -/
lemma decodeDatetime_encode (kind : DtKind) (dt : Datetime) :
    decodeDatetime (encodeDatetime kind dt) = some (.datetime kind dt) := by
  have hyear : ((encodeDatetime kind dt).drop 1).take 8 =
      leBytes 8 dt.year.toInt64.toUInt64.toNat := by
    simp [encodeDatetime]
  have hnanos : ((encodeDatetime kind dt).drop 14).take 4 = leBytes 4 dt.nanosecond.toNat := by
    rw [show encodeDatetime kind dt =
      (dtKindByte kind :: leBytes 8 dt.year.toInt64.toUInt64.toNat ++
        [dt.month, dt.day, dt.hour, dt.minute, dt.second]) ++ (leBytes 4 dt.nanosecond.toNat ++
          leBytes 8 dt.offsetSeconds.toInt64.toUInt64.toNat) by simp [encodeDatetime]]
    rw [List.drop_left' (by simp), List.take_left' (by simp)]
  have hoffset : ((encodeDatetime kind dt).drop 18).take 8 =
      leBytes 8 dt.offsetSeconds.toInt64.toUInt64.toNat := by
    rw [encodeDatetime, List.drop_left' (by simp), List.take_of_length_le (by simp)]
  rw [decodeDatetime, hyear, hnanos, hoffset, int32_of_leBytes, int32_of_leBytes,
    uint32_of_leBytes]
  simp [encodeDatetime, dtKindOf_byte]

/-- An op read back from its bytes. -/
lemma decodeOp_encodeOp {op : WOp} {bs : Bytes} (h : encodeOp op = some bs) :
    ∃ code payload, bs = code :: payload ∧ code ≠ 0x00 ∧
      ∀ r, decodeOp code (payload ++ r) = some (op, r) := by
  cases op with
  | key k =>
    simp only [encodeOp, Option.ite_none_right_eq_some, Option.some.injEq] at h
    obtain ⟨hlen, rfl⟩ := h
    refine ⟨_, _, rfl, by decide, fun r => ?_⟩
    have hbyte : (UInt8.ofNat k.length).toNat = k.length := by
      have : (UInt8.ofNat k.length).toNat = k.length % 256 := UInt8.toNat_ofNat'
      rw [this, Nat.mod_eq_of_lt hlen]
    simp [decodeOp, decodeKey, hbyte, takeBytes_append]
  | string s =>
    simp only [encodeOp, Option.ite_none_right_eq_some, Option.some.injEq] at h
    obtain ⟨hlen, rfl⟩ := h
    refine ⟨_, _, rfl, by decide, fun r => ?_⟩
    have hval : leVal (leBytes 4 s.length) = s.length := by
      have hwidth : s.length < 256 ^ 4 := by simpa using hlen
      rw [leVal_leBytes, Nat.mod_eq_of_lt hwidth]
    simp [decodeOp, decodeString, takeBytes_leBytes, hval, takeBytes_append]
  | int v =>
    obtain rfl := Option.some.inj h
    refine ⟨_, _, rfl, by decide, fun r => ?_⟩
    simp [decodeOp, takeBytes_leBytes, int64_of_leBytes]
  | float f =>
    obtain rfl := Option.some.inj h
    refine ⟨_, _, rfl, by decide, fun r => ?_⟩
    simp [decodeOp, takeBytes_leBytes, uint64_of_leBytes]
  | bool b =>
    cases b <;> obtain rfl := Option.some.inj h <;>
      exact ⟨_, _, rfl, by decide, fun r => rfl⟩
  | datetime kind dt =>
    obtain rfl := Option.some.inj h
    refine ⟨_, _, rfl, by decide, fun r => ?_⟩
    have htake := takeBytes_append (encodeDatetime kind dt) r
    rw [length_encodeDatetime] at htake
    simp [decodeOp, htake, decodeDatetime_encode]
  | beginTable | beginArray | beginAot | beginInlineTable | close | emptyTable | emptyArray =>
    obtain rfl := Option.some.inj h
    exact ⟨_, _, rfl, by decide, fun r => rfl⟩

/-! ## Running ops -/

/-- Ops one after the other, up to the first that fails. -/
def Writer.runOps (fc : FloatConv) : Writer → List WOp → Writer
  | w, [] => w
  | w, op :: ops => if w.st ≠ none then w else runOps fc (w.apply fc op) ops

namespace Writer

variable {fc : FloatConv} {w : Writer}

/-- A failed writer ignores its ops. -/
lemma runOps_of_failed (h : w.st ≠ none) (ops : List WOp) : w.runOps fc ops = w := by
  cases ops with
  | nil => rfl
  | cons op ops => simp [runOps, h]

lemma runOps_append (ops more : List WOp) :
    w.runOps fc (ops ++ more) = (w.runOps fc ops).runOps fc more := by
  induction ops generalizing w with
  | nil => rfl
  | cons op ops ih =>
    by_cases hst : w.st ≠ none
    · rw [runOps_of_failed hst, runOps_of_failed hst, runOps_of_failed hst]
    · simp only [List.cons_append, runOps, hst, if_false, ih]

end Writer

/-! ## Feeding encoded ops -/

lemma takeBytes_length {n : ℕ} {r a r' : Bytes} (h : takeBytes n r = some (a, r')) :
    r'.length ≤ r.length := by
  simp only [takeBytes, Option.ite_none_right_eq_some, Option.some.injEq, Prod.mk.injEq] at h
  obtain ⟨-, -, rfl⟩ := h
  simp

/-- A reader that hands back no more than it was given. -/
def Consumes (r : Bytes) (res : Option (WOp × Bytes)) : Prop :=
  ∀ op r', res = some (op, r') → r'.length ≤ r.length

lemma consumes_none (r : Bytes) : Consumes r none := fun _ _ h => by cases h

lemma consumes_some (r : Bytes) (op : WOp) : Consumes r (some (op, r)) := by
  intro op' r' h
  obtain ⟨-, rfl⟩ := Prod.mk.inj (Option.some.inj h)
  exact le_rfl

lemma consumes_take (n : ℕ) (r : Bytes) (f : Bytes → WOp) :
    Consumes r ((takeBytes n r).map fun x => (f x.1, x.2)) := by
  intro op r' h
  obtain ⟨⟨a, r''⟩, htake, hx⟩ := Option.map_eq_some_iff.mp h
  obtain ⟨-, rfl⟩ := Prod.mk.inj hx
  exact takeBytes_length htake

lemma consumes_key (r : Bytes) : Consumes r (decodeKey r) := by
  cases r with
  | nil => exact consumes_none _
  | cons klen r => exact fun op r' h => Nat.le_succ_of_le (consumes_take _ r _ op r' h)

lemma consumes_string (r : Bytes) : Consumes r (decodeString r) := by
  rw [decodeString]
  split
  · exact consumes_none _
  next n r₁ htake =>
  exact fun op r' h => le_trans (consumes_take _ r₁ _ op r' h) (takeBytes_length htake)

lemma consumes_datetime (r : Bytes) : Consumes r
    (match takeBytes 26 r with
    | none => none
    | some (p, r) => (decodeDatetime p).map fun op => (op, r)) := by
  split
  · exact consumes_none _
  next p r₁ htake =>
  intro op r' h
  obtain ⟨op', -, hx⟩ := Option.map_eq_some_iff.mp h
  obtain ⟨-, rfl⟩ := Prod.mk.inj hx
  exact takeBytes_length htake

/-- A payload is read from the chunk. -/
lemma consumes_op (code : UInt8) (r : Bytes) : Consumes r (decodeOp code r) := by
  rw [decodeOp]
  refine iteInduction (fun _ => consumes_key r) fun _ => ?_
  refine iteInduction (fun _ => consumes_string r) fun _ => ?_
  refine iteInduction (fun _ => consumes_take 8 r fun n => .int (Int64.ofNat (leVal n)))
    fun _ => ?_
  refine iteInduction (fun _ => consumes_take 8 r fun n => .float ⟨UInt64.ofNat (leVal n)⟩)
    fun _ => ?_
  refine iteInduction (fun _ => consumes_some r _) fun _ => ?_
  refine iteInduction (fun _ => consumes_some r _) fun _ => ?_
  refine iteInduction (fun _ => consumes_datetime r) fun _ => ?_
  iterate 7 refine iteInduction (fun _ => consumes_some r _) fun _ => ?_
  exact consumes_none r

/-- Every turn of a feed reads an op code. -/
lemma feedTurn_shrinks (fc : FloatConv) :
    Shrinks (feedTurn fc) (fun s : Writer × Bytes => s.2.length) := by
  rintro ⟨w, r⟩ ⟨w', r'⟩ h
  rw [feedTurn] at h
  split at h
  · cases h
  split at h
  · cases h
  next code r₁ hr =>
  split at h
  · cases h
  split at h
  · cases h
  next op r₂ hop =>
  obtain ⟨-, rfl⟩ := Prod.mk.inj (Turn.next.inj (Except.ok.inj h))
  obtain rfl : r = code :: r₁ := hr
  exact Nat.lt_succ_of_le (consumes_op code r₁ op _ hop)

namespace Writer

variable {fc : FloatConv} {w : Writer}

/-- Feeding encoded ops runs them. -/
lemma feedAll_encodeOps {ops : List WOp} {bs : Bytes} (h : encodeOps ops = some bs) :
    w.feedAll fc bs = w.runOps fc ops := by
  induction ops generalizing w bs with
  | nil =>
    obtain rfl := Option.some.inj h
    have hturn : feedTurn fc (w, []) = .ok (.stop w) := by simp [feedTurn]
    rw [feedAll, loop_stop hturn]
    rfl
  | cons op ops ih =>
    rw [encodeOps] at h
    split at h
    next b bs' hb hbs =>
      obtain rfl := Option.some.inj h
      obtain ⟨code, payload, rfl, hcode, hdecode⟩ := decodeOp_encodeOp hb
      rw [feedAll, runOps]
      split_ifs with hst
      · have hturn : feedTurn fc (w, code :: payload ++ bs') = .ok (.stop w) := by
          simp [feedTurn, hst]
        rw [loop_stop hturn]
      · have hturn : feedTurn fc (w, code :: payload ++ bs') =
            .ok (.next (w.apply fc op, bs')) := by
          simp [feedTurn, hst, hcode, hdecode]
        rw [loop_next (feedTurn_shrinks fc) hturn, ← ih hbs, feedAll,
          loop_stuck (feedTurn_shrinks fc) (w.apply fc op)]
    · cases h

/-! ## Feeding chunks of encoded ops -/

@[simp] lemma put_finished (s : Bytes) : (w.put s).finished = w.finished := rfl

@[simp] lemma fail_finished (st : Status) : (w.fail st).finished = w.finished := rfl

@[simp] lemma clearKey_finished : w.clearKey.finished = w.finished := rfl

@[simp] lemma push_finished (f : WFrame) : (w.push f).finished = w.finished := rfl

@[simp] lemma modifyTop_finished (f : WFrame → WFrame) :
    (w.modifyTop f).finished = w.finished := rfl

@[simp] lemma sepVal_finished : w.sepVal.finished = w.finished := by
  simp [sepVal, apply_ite Writer.finished]

@[simp] lemma endLine_finished : w.endLine.finished = w.finished := by
  simp [endLine, apply_ite Writer.finished]

@[simp] lemma keyedPrefix_finished : w.keyedPrefix.finished = w.finished := by
  simp only [keyedPrefix]
  split
  · simp
  · split <;> simp [apply_ite Writer.finished]

@[simp] lemma value_finished (text : Bytes) : (w.value text).finished = w.finished := by
  simp [value, apply_ite Writer.finished]

@[simp] lemma openKeyed_finished (bracket : UInt8) (frame : WFrame) :
    (w.openKeyed bracket frame).finished = w.finished := by
  rw [openKeyed]
  split <;> simp [apply_ite Writer.finished]

/-- No op finishes the writer. -/
lemma apply_finished (op : WOp) : (w.apply fc op).finished = w.finished := by
  cases op with
  | key => rfl
  | string | int | float | bool | datetime | emptyTable | emptyArray => exact value_finished _
  | beginTable =>
    simp only [apply, beginTable]
    split_ifs
    · simp
    · simp
    · split <;> simp
  | beginArray => simp [apply, beginArray, apply_ite Writer.finished]
  | beginAot =>
    simp only [apply, beginAot]
    split <;> simp [apply_ite Writer.finished]
  | beginInlineTable => simp [apply, beginInlineTable, apply_ite Writer.finished]
  | close =>
    simp only [apply, close]
    split <;> simp [apply_ite Writer.finished]

lemma runOps_finished (ops : List WOp) : (w.runOps fc ops).finished = w.finished := by
  induction ops generalizing w with
  | nil => rfl
  | cons op ops ih => simp [runOps, apply_ite Writer.finished, ih, apply_finished]

/-- Chunks of encoded ops that run without failure are fed without failure. -/
lemma feeds_encodeOps {chunks : List (List WOp)} {bss : List Bytes}
    (h : chunks.mapM encodeOps = some bss) (hfin : w.finished = false) (hst : w.st = none)
    (hrun : (w.runOps fc chunks.flatten).st = none) :
    w.feeds fc bss = (none, w.runOps fc chunks.flatten) := by
  induction chunks generalizing w bss with
  | nil =>
    obtain rfl : [] = bss := by simpa using h
    rfl
  | cons ops chunks ih =>
    simp only [List.mapM_cons, Option.bind_eq_bind, Option.bind_eq_some_iff, Option.pure_def,
      Option.some.injEq] at h
    obtain ⟨b, hb, bss', hbss, rfl⟩ := h
    rw [List.flatten_cons, runOps_append] at hrun ⊢
    have hmid : (w.runOps fc ops).st = none := by
      by_contra hne
      rw [runOps_of_failed hne] at hrun
      exact hne hrun
    have hfeed : w.feed fc b = (none, w.runOps fc ops) := by
      simp [feed, hfin, feedAll_encodeOps hb, hmid]
    rw [feeds, hfeed]
    exact ih hbss (by rw [runOps_finished, hfin]) hmid hrun

end Writer

/-- Ops with encodings are encoded. -/
lemma encodeOps_isSome {ops : List WOp} (h : ∀ op ∈ ops, (encodeOp op).isSome) :
    ∃ bs, encodeOps ops = some bs := by
  induction ops with
  | nil => exact ⟨[], rfl⟩
  | cons op ops ih =>
    obtain ⟨b, hb⟩ := Option.isSome_iff_exists.mp (h op (by simp))
    obtain ⟨bs, hbs⟩ := ih fun op hop => h op (by simp [hop])
    exact ⟨b ++ bs, by simp [encodeOps, hb, hbs]⟩

/-- Chunks of ops with encodings are encoded. -/
lemma mapM_encodeOps_isSome {chunks : List (List WOp)}
    (h : ∀ op ∈ chunks.flatten, (encodeOp op).isSome) :
    ∃ bss, chunks.mapM encodeOps = some bss := by
  induction chunks with
  | nil => exact ⟨[], rfl⟩
  | cons ops chunks ih =>
    rw [List.flatten_cons] at h
    obtain ⟨bs, hbs⟩ := encodeOps_isSome fun op hop => h op (List.mem_append_left _ hop)
    obtain ⟨bss, hbss⟩ := ih fun op hop => h op (List.mem_append_right _ hop)
    exact ⟨bs :: bss, by simp [hbs, hbss]⟩

end Teptris
