import Teptris.Emit.Buffered
import Teptris.Emit.Flatten

/-!
# Flattening into a buffer that may fail to grow

`teptris_document_flatten` write by write.  The status of the buffer is looked at behind every key
and every string, and nowhere else: what a refused growth behind the last of them loses is not
noticed, and the call hands over a null pointer.
-/

namespace Teptris

open GrowBuf

/-! ## The buffer -/

/-- `flatbuf`. -/
def fbShape : Shape := ⟨0, 512⟩

/-- The output buffer of `teptris_document_flatten`. -/
abbrev Flatbuf := Buf UInt8

section Writes

variable (a : Pattern)

/-- `fb_byte`. -/
def fbByteTo (b : Flatbuf) (v : UInt8) : Flatbuf := put fbShape a b [v]

/-- `fb_u32`: one growth for the four bytes. -/
def fbU32To (b : Flatbuf) (v : UInt32) : Flatbuf := put fbShape a b (fbU32 v)

/-- `fb_u64`: a growth for each of the eight bytes. -/
def fbU64To (b : Flatbuf) (v : UInt64) : Flatbuf := (fbU64 v).foldl (fbByteTo a) b

/-- `fb_i64`. -/
def fbI64To (b : Flatbuf) (v : Int64) : Flatbuf := fbU64To a b v.toUInt64

/-- `fb_f64`. -/
def fbF64To (b : Flatbuf) (v : Double) : Flatbuf := fbU64To a b v.bits

/-- `fb_dt`. -/
def fbDtTo (b : Flatbuf) (d : Datetime) : Flatbuf :=
  let b := fbI64To a b d.year.toInt64
  let b := [d.month, d.day, d.hour, d.minute, d.second].foldl (fbByteTo a) b
  fbI64To a (fbU32To a b d.nanosecond) d.offsetSeconds.toInt64

/-- The length and the bytes of a key or a string. -/
def fbBlockTo (b : Flatbuf) (s : Bytes) : Flatbuf :=
  put fbShape a (fbU32To a b (UInt32.ofNat s.length)) s

mutual

/-- `flatten_node`: the buffer, and whether the status returned is `TEPTRIS_OK`. -/
def flattenNodeTo (b : Flatbuf) : Node → Flatbuf × Bool
  | .table _ es => flattenEntriesTo (fbU32To a (fbByteTo a b 0x01) (UInt32.ofNat es.length)) es
  | .array _ items =>
    flattenItemsTo (fbU32To a (fbByteTo a b 0x02) (UInt32.ofNat items.length)) items
  | .string s =>
    let b := fbBlockTo a (fbByteTo a b 0x03) s
    (b, !b.failed)
  | .integer i => (fbI64To a (fbByteTo a b 0x04) i, true)
  | .float f => (fbF64To a (fbByteTo a b 0x05) f, true)
  | .boolean v => (fbByteTo a b (if v then 0x07 else 0x06), true)
  | .datetime kind dt => (fbDtTo a (fbByteTo a b (flatDtTag kind)) dt, true)

/-- The elements of an array, up to the first that fails. -/
def flattenItemsTo (b : Flatbuf) : List Node → Flatbuf × Bool
  | [] => (b, true)
  | v :: vs =>
    let r := flattenNodeTo b v
    if r.2 then flattenItemsTo r.1 vs else (r.1, false)

/-- The entries of a table, up to the first that fails. -/
def flattenEntriesTo (b : Flatbuf) : List (Key × Node) → Flatbuf × Bool
  | [] => (b, true)
  | (k, v) :: es =>
    let b := fbBlockTo a b k.bytes
    if b.failed then (b, false)
    else
      let r := flattenNodeTo b v
      if r.2 then flattenEntriesTo r.1 es else (r.1, false)

end

/-- The buffer flattening starts with. -/
def fbStart : Flatbuf := grow fbShape a {} 512

/-- `teptris_document_flatten`, of the root. -/
def flattenTo (root : Node) : CallOutput :=
  let r := flattenNodeTo a (fbStart a) root
  if r.2 then .ok (r.1.shown, r.1.data.length) else .error .errAlloc

end Writes

/-! ## Requests that are looked at -/

mutual

/-- The number of requests made, when none is refused, up to the last place where the status is
looked at; `m` is that number in front of the node. -/
def checkedRequests (b : Flatbuf) (m : ℕ) : Node → ℕ
  | .table _ es =>
    checkedEntries (fbU32To always (fbByteTo always b 0x01) (UInt32.ofNat es.length)) m es
  | .array _ items =>
    checkedItems (fbU32To always (fbByteTo always b 0x02) (UInt32.ofNat items.length)) m items
  | .string s => (fbBlockTo always (fbByteTo always b 0x03) s).requests
  | _ => m

/-- The same for the elements of an array. -/
def checkedItems (b : Flatbuf) (m : ℕ) : List Node → ℕ
  | [] => m
  | v :: vs => checkedItems (flattenNodeTo always b v).1 (checkedRequests b m v) vs

/-- The same for the entries of a table. -/
def checkedEntries (b : Flatbuf) (m : ℕ) : List (Key × Node) → ℕ
  | [] => m
  | (k, v) :: es =>
    let b := fbBlockTo always b k.bytes
    checkedEntries (flattenNodeTo always b v).1 (checkedRequests b b.requests v) es

end

/-! ## Programs of puts -/

/-- A program that emits a text, and fails only by a refused growth. -/
structure Puts (f : Pattern → Flatbuf → Flatbuf) (t : Bytes) : Prop where
  /-- It emits the text. -/
  emits : Emits fbShape f t
  /-- It fails with a null pointer. -/
  null : NullOnFailure f

section Puts

variable {f g : Pattern → Flatbuf → Flatbuf} {t u : Bytes}

lemma Puts.put (t : Bytes) : Puts (fun a b => put fbShape a b t) t :=
  ⟨.put t, nullOnFailure_put t⟩

lemma Puts.comp (hf : Puts f t) (hg : Puts g u) : Puts (fun a b => g a (f a b)) (t ++ u) :=
  ⟨hf.emits.comp hg.emits, hf.null.comp hg.null hg.emits⟩

lemma Puts.of_eq (hf : Puts f t) (h : t = u) : Puts f u := h ▸ hf

lemma puts_bytes (t : Bytes) : Puts (fun a b => t.foldl (fbByteTo a) b) t := by
  induction t with
  | nil => exact ⟨.skip, fun a b hb hfailed => absurd hfailed (Bool.eq_false_iff.mp hb)⟩
  | cons c t ih => exact (Puts.put [c]).comp ih

lemma puts_u32 (v : UInt32) : Puts (fun a b => fbU32To a b v) (fbU32 v) := .put _

lemma puts_u64 (v : UInt64) : Puts (fun a b => fbU64To a b v) (fbU64 v) := puts_bytes (fbU64 v)

lemma puts_i64 (v : Int64) : Puts (fun a b => fbI64To a b v) (fbI64 v) := puts_u64 v.toUInt64

lemma puts_dt (d : Datetime) : Puts (fun a b => fbDtTo a b d) (fbDt d) := by
  have hdate := (puts_i64 d.year.toInt64).comp
    (puts_bytes [d.month, d.day, d.hour, d.minute, d.second])
  exact (hdate.comp (puts_u32 d.nanosecond)).comp (puts_i64 d.offsetSeconds.toInt64)

lemma puts_head (tag : UInt8) (v : UInt32) :
    Puts (fun a b => fbU32To a (fbByteTo a b tag) v) (tag :: fbU32 v) :=
  (Puts.put [tag]).comp (puts_u32 v)

lemma puts_block (s : Bytes) :
    Puts (fun a b => fbBlockTo a b s) (fbU32 (UInt32.ofNat s.length) ++ s) :=
  (puts_u32 _).comp (.put s)

end Puts

/-! ## A run beside the run without failures -/

/-- The buffer `b` beside the buffer `b'` of the run in which no request is refused: the same, or
lost. -/
structure FlatBeside (a : Pattern) (b b' : Flatbuf) : Prop where
  /-- The other run has not failed. -/
  ok : b'.failed = false
  /-- It has its buffer. -/
  ptr : b'.null = false
  /-- Either no request was refused, or one was. -/
  same : (b = b' ∧ ∀ i < b'.requests, a i = true) ∨
    (b.failed = true ∧ b.null = true ∧ ∃ i < b'.requests, a i = false)

section FlatBeside

variable {a : Pattern} {b b' : Flatbuf} {f : Pattern → Flatbuf → Flatbuf} {t : Bytes}

/-- A program of puts keeps the runs beside each other. -/
lemma FlatBeside.step (h : FlatBeside a b b') (hf : Puts f t) :
    FlatBeside a (f a b) (f always b') := by
  obtain ⟨hok, -, hle, hnull, -⟩ := hf.emits.ideal b' h.ok
  refine ⟨hok, hnull h.ptr, ?_⟩
  obtain ⟨rfl, hall⟩ | ⟨hfailed, hptr, i, hi, hrefused⟩ := h.same
  · by_cases hmore : ∀ i < (f always b).requests, a i = true
    · exact .inl ⟨hf.emits.same a b h.ok fun i _ hi => hmore i hi, hmore⟩
    · push Not at hmore
      obtain ⟨i, hi, hrefused⟩ := hmore
      have hno := Bool.eq_false_iff.mpr hrefused
      have hlost := hf.emits.lost a b h.ok
        ⟨i, Nat.not_lt.mp fun hlt => hrefused (hall i hlt), hi, hno⟩
      exact .inr ⟨hlost, hf.null a b h.ok hlost, i, hi, hno⟩
  · obtain ⟨hfailed', -, hptr'⟩ := hf.emits.stuck a b hfailed
    exact .inr ⟨hfailed', hptr'.trans hptr, i, Nat.lt_of_lt_of_le hi hle, hrefused⟩

/-- A look at the status tells whether a request was refused. -/
lemma FlatBeside.failed_iff (h : FlatBeside a b b') :
    b.failed = false ↔ ∀ i < b'.requests, a i = true := by
  obtain ⟨rfl, hall⟩ | ⟨hfailed, -, i, hi, hrefused⟩ := h.same
  · exact iff_of_true h.ok hall
  · exact iff_of_false (by simp [hfailed]) fun hall => by simp [hall i hi] at hrefused

/-- What `flatten_node` makes of the two runs: it goes on where the requests that were looked at
are granted, and the runs are beside each other then. -/
def GoesOn (a : Pattern) (r r' : Flatbuf × Bool) (m : ℕ) : Prop :=
  r'.2 = true ∧
    if r.2 then FlatBeside a r.1 r'.1 ∧ ∀ i < m, a i = true else ∃ i < m, a i = false

/-- A last step without a look at the status. -/
lemma FlatBeside.goesOn (h : FlatBeside a b b') {m : ℕ} (hm : ∀ i < m, a i = true) :
    GoesOn a (b, true) (b', true) m := ⟨rfl, h, hm⟩

/-- A step that ends in a look at the status. -/
lemma FlatBeside.look (h : FlatBeside a b b') :
    GoesOn a (b, !b.failed) (b', !b'.failed) b'.requests := by
  refine ⟨by simp [h.ok], ?_⟩
  by_cases hb : b.failed = false
  · simp only [hb, Bool.not_false, if_true]
    exact ⟨h, h.failed_iff.mp hb⟩
  · have hrefused := mt h.failed_iff.mpr hb
    push Not at hrefused
    obtain ⟨i, hi, hno⟩ := hrefused
    simp only [Bool.not_eq_false] at hb
    simp only [hb, Bool.not_true, Bool.false_eq_true, if_false]
    exact ⟨i, hi, Bool.eq_false_iff.mpr hno⟩

end FlatBeside

/-! ## The run without failures -/

/-- A step of the run in which no request is refused: it writes the text, and of the requests up
to the last look at the status in front of it, it makes those behind it. -/
structure Ideal (b : Flatbuf) (r : Flatbuf × Bool) (t : Bytes) (checked : ℕ → ℕ) : Prop where
  /-- It goes on. -/
  goes : r.2 = true
  /-- It does not fail. -/
  ok : r.1.failed = false
  /-- It writes the text. -/
  data : r.1.data = b.data ++ t
  /-- It keeps its buffer. -/
  ptr : b.null = false → r.1.null = false
  /-- It makes requests. -/
  requests : b.requests ≤ r.1.requests
  /-- Looks at the status only add up. -/
  checked : ∀ m ≤ b.requests, m ≤ checked m ∧ checked m ≤ r.1.requests

section Ideal

variable {b : Flatbuf} {r r' : Flatbuf × Bool} {t u : Bytes} {c c' : ℕ → ℕ}
  {f : Pattern → Flatbuf → Flatbuf}

lemma Ideal.trans (h : Ideal b r t c) (h' : Ideal r.1 r' u c') :
    Ideal b r' (t ++ u) fun m => c' (c m) where
  goes := h'.goes
  ok := h'.ok
  data := by rw [h'.data, h.data, List.append_assoc]
  ptr := fun hptr => h'.ptr (h.ptr hptr)
  requests := Nat.le_trans h.requests h'.requests
  checked := fun m hm => by
    obtain ⟨hle, hle'⟩ := h.checked m hm
    obtain ⟨hnext, hnext'⟩ := h'.checked (c m) hle'
    exact ⟨Nat.le_trans hle hnext, hnext'⟩

/-- Puts do not look at the status. -/
lemma Puts.ideal (hf : Puts f t) (hb : b.failed = false) : Ideal b (f always b, true) t id := by
  obtain ⟨hok, hdata, hle, hptr, -⟩ := hf.emits.ideal b hb
  exact ⟨rfl, hok, hdata, hptr, hle, fun m hm => ⟨Nat.le_refl _, Nat.le_trans hm hle⟩⟩

/-- A look at the status behind puts. -/
lemma Puts.ideal_look (hf : Puts f t) (hb : b.failed = false) :
    Ideal b (f always b, !(f always b).failed) t fun _ => (f always b).requests := by
  obtain ⟨hok, hdata, hle, hptr, -⟩ := hf.emits.ideal b hb
  exact ⟨by simp [hok], hok, hdata, hptr, hle, fun m hm => ⟨Nat.le_trans hm hle, Nat.le_refl _⟩⟩

end Ideal

mutual

/-- With every request granted, flattening goes through. -/
lemma ideal_node : ∀ (b : Flatbuf) (v : Node), b.failed = false →
    Ideal b (flattenNodeTo always b v) (flattenNode v) fun m => checkedRequests b m v
  | b, .table flag es, hb => by
    have hhead := (puts_head 0x01 (UInt32.ofNat es.length)).ideal hb
    simp only [flattenNodeTo, flattenNode, checkedRequests]
    exact hhead.trans (ideal_entries _ es hhead.ok)
  | b, .array aot items, hb => by
    have hhead := (puts_head 0x02 (UInt32.ofNat items.length)).ideal hb
    simp only [flattenNodeTo, flattenNode, checkedRequests]
    exact hhead.trans (ideal_items _ items hhead.ok)
  | b, .string s, hb => by
    have hblock := ((Puts.put [0x03]).comp (puts_block s)).ideal_look hb
    simp only [flattenNodeTo, flattenNode, checkedRequests]
    exact hblock
  | b, .integer i, hb => by
    simp only [flattenNodeTo, flattenNode, checkedRequests]
    exact ((Puts.put [0x04]).comp (puts_i64 i)).ideal hb
  | b, .float f, hb => by
    simp only [flattenNodeTo, flattenNode, checkedRequests]
    exact ((Puts.put [0x05]).comp (puts_u64 f.bits)).ideal hb
  | b, .boolean v, hb => by
    simp only [flattenNodeTo, flattenNode, checkedRequests]
    exact (Puts.put [if v then 0x07 else 0x06]).ideal hb
  | b, .datetime kind dt, hb => by
    simp only [flattenNodeTo, flattenNode, checkedRequests]
    exact ((Puts.put [flatDtTag kind]).comp (puts_dt dt)).ideal hb

lemma ideal_items : ∀ (b : Flatbuf) (vs : List Node), b.failed = false →
    Ideal b (flattenItemsTo always b vs) (flattenItems vs) fun m => checkedItems b m vs
  | b, [], hb => by
    simp only [flattenItemsTo, flattenItems, checkedItems]
    exact (puts_bytes []).ideal hb
  | b, v :: vs, hb => by
    have hfirst := ideal_node b v hb
    simp only [flattenItemsTo, flattenItems, checkedItems, hfirst.goes, if_true]
    exact hfirst.trans (ideal_items _ vs hfirst.ok)

lemma ideal_entries : ∀ (b : Flatbuf) (es : List (Key × Node)), b.failed = false →
    Ideal b (flattenEntriesTo always b es) (flattenEntries es) fun m => checkedEntries b m es
  | b, [], hb => by
    simp only [flattenEntriesTo, flattenEntries, checkedEntries]
    exact (puts_bytes []).ideal hb
  | b, (k, v) :: es, hb => by
    have hkey := (puts_block k.bytes).ideal_look hb
    have hvalue := ideal_node _ v hkey.ok
    have hok : (fbBlockTo always b k.bytes).failed = false := hkey.ok
    simp only [flattenEntriesTo, flattenEntries, checkedEntries, hok, Bool.false_eq_true, if_false,
      hvalue.goes, if_true]
    exact (hkey.trans hvalue).trans (ideal_entries _ es hvalue.ok)

end

/-! ## Any run -/

mutual

/-- `flatten_node` goes on where the requests that were looked at are granted. -/
lemma goesOn_node {a : Pattern} : ∀ {b b' : Flatbuf} {m : ℕ} (v : Node), FlatBeside a b b' →
    m ≤ b'.requests → (∀ i < m, a i = true) →
      GoesOn a (flattenNodeTo a b v) (flattenNodeTo always b' v) (checkedRequests b' m v)
  | b, b', m, .table flag es, h, hle, hm => by
    have hstep := h.step (puts_head 0x01 (UInt32.ofNat es.length))
    have hle' := ((puts_head 0x01 (UInt32.ofNat es.length)).ideal h.ok).requests
    simp only [flattenNodeTo, checkedRequests]
    exact goesOn_entries es hstep (Nat.le_trans hle hle') hm
  | b, b', m, .array aot items, h, hle, hm => by
    have hstep := h.step (puts_head 0x02 (UInt32.ofNat items.length))
    have hle' := ((puts_head 0x02 (UInt32.ofNat items.length)).ideal h.ok).requests
    simp only [flattenNodeTo, checkedRequests]
    exact goesOn_items items hstep (Nat.le_trans hle hle') hm
  | b, b', m, .string s, h, hle, hm => by
    simp only [flattenNodeTo, checkedRequests]
    exact (h.step ((Puts.put [0x03]).comp (puts_block s))).look
  | b, b', m, .integer i, h, hle, hm => by
    simp only [flattenNodeTo, checkedRequests]
    exact (h.step ((Puts.put [0x04]).comp (puts_i64 i))).goesOn hm
  | b, b', m, .float f, h, hle, hm => by
    simp only [flattenNodeTo, checkedRequests]
    exact (h.step ((Puts.put [0x05]).comp (puts_u64 f.bits))).goesOn hm
  | b, b', m, .boolean v, h, hle, hm => by
    simp only [flattenNodeTo, checkedRequests]
    exact (h.step (Puts.put [if v then 0x07 else 0x06])).goesOn hm
  | b, b', m, .datetime kind dt, h, hle, hm => by
    simp only [flattenNodeTo, checkedRequests]
    exact (h.step ((Puts.put [flatDtTag kind]).comp (puts_dt dt))).goesOn hm

lemma goesOn_items {a : Pattern} : ∀ {b b' : Flatbuf} {m : ℕ} (vs : List Node), FlatBeside a b b' →
    m ≤ b'.requests → (∀ i < m, a i = true) →
      GoesOn a (flattenItemsTo a b vs) (flattenItemsTo always b' vs) (checkedItems b' m vs)
  | b, b', m, [], h, hle, hm => by
    simp only [flattenItemsTo, checkedItems]
    exact h.goesOn hm
  | b, b', m, v :: vs, h, hle, hm => by
    have hideal := ideal_node b' v h.ok
    obtain ⟨-, hfirst⟩ := goesOn_node v h hle hm
    have hbound := (hideal.checked m hle).2
    simp only [flattenItemsTo, checkedItems, hideal.goes, if_true]
    split_ifs at hfirst ⊢ with hgoes
    · exact goesOn_items vs hfirst.1 hbound hfirst.2
    · obtain ⟨i, hi, hrefused⟩ := hfirst
      have hrest := ideal_items _ vs hideal.ok
      refine ⟨hrest.goes, ?_⟩
      rw [if_neg Bool.false_ne_true]
      exact ⟨i, Nat.lt_of_lt_of_le hi (hrest.checked _ hbound).1, hrefused⟩

lemma goesOn_entries {a : Pattern} : ∀ {b b' : Flatbuf} {m : ℕ} (es : List (Key × Node)),
    FlatBeside a b b' → m ≤ b'.requests → (∀ i < m, a i = true) →
      GoesOn a (flattenEntriesTo a b es) (flattenEntriesTo always b' es) (checkedEntries b' m es)
  | b, b', m, [], h, hle, hm => by
    simp only [flattenEntriesTo, checkedEntries]
    exact h.goesOn hm
  | b, b', m, (k, v) :: es, h, hle, hm => by
    have hblock := h.step (puts_block k.bytes)
    have hideal := ideal_node _ v hblock.ok
    have hok : (fbBlockTo always b' k.bytes).failed = false := hblock.ok
    have hbound := hideal.checked _ (Nat.le_refl _)
    simp only [flattenEntriesTo, checkedEntries, hok, Bool.false_eq_true, if_false, hideal.goes,
      if_true]
    by_cases hlook : (fbBlockTo a b k.bytes).failed = false
    · have hgranted := hblock.failed_iff.mp hlook
      obtain ⟨-, hvalue⟩ := goesOn_node v hblock (Nat.le_refl _) hgranted
      simp only [hlook, Bool.false_eq_true, if_false]
      split_ifs at hvalue ⊢ with hgoes
      · exact goesOn_entries es hvalue.1 hbound.2 hvalue.2
      · obtain ⟨i, hi, hrefused⟩ := hvalue
        have hrest := ideal_entries _ es hideal.ok
        refine ⟨hrest.goes, ?_⟩
        rw [if_neg Bool.false_ne_true]
        exact ⟨i, Nat.lt_of_lt_of_le hi (hrest.checked _ hbound.2).1, hrefused⟩
    · have hrefused := mt hblock.failed_iff.mpr hlook
      push Not at hrefused
      obtain ⟨i, hi, hno⟩ := hrefused
      have hrest := ideal_entries _ es hideal.ok
      rw [Bool.not_eq_false] at hlook
      simp only [hlook, if_true]
      refine ⟨hrest.goes, ?_⟩
      rw [if_neg Bool.false_ne_true]
      exact ⟨i, Nat.lt_of_lt_of_le hi (Nat.le_trans hbound.1 (hrest.checked _ hbound.2).1),
        Bool.eq_false_iff.mpr hno⟩

end

/-! ## Documents -/

/-- The number of requests of `teptris_document_flatten` when none is refused. -/
def flattenRequests (root : Node) : ℕ := (flattenNodeTo always (fbStart always) root).1.requests

/-- The number of those requests up to the last look at the status. -/
def flattenChecked (root : Node) : ℕ := checkedRequests (fbStart always) 0 root

/-- The buffer flattening starts with. -/
lemma fbStart_always : fbStart always = ⟨[], 512, false, false, 1⟩ := rfl

/-- The first request decides whether the run starts beside the other. -/
lemma flatBeside_fbStart (a : Pattern) : FlatBeside a (fbStart a) (fbStart always) := by
  refine ⟨rfl, rfl, ?_⟩
  by_cases hfirst : a 0 = true
  · have hstart : fbStart a = fbStart always := by simp [fbStart, grow, hfirst, always]
    refine .inl ⟨hstart, fun i hi => ?_⟩
    rw [fbStart_always] at hi
    rwa [Nat.lt_one_iff.mp hi]
  · have hno : a 0 = false := Bool.eq_false_iff.mpr hfirst
    exact .inr ⟨by simp [fbStart, grow, fbShape, hno], by simp [fbStart, grow, fbShape, hno],
      0, Nat.zero_lt_one, hno⟩

/-- With every request granted, the whole encoding is handed over. -/
lemma flattenTo_always (root : Node) :
    flattenTo always root = .ok (some (flattenNode root), (flattenNode root).length) := by
  have hideal := ideal_node (fbStart always) root rfl
  have hdata : (flattenNodeTo always (fbStart always) root).1.data = flattenNode root := hideal.data
  rw [flattenTo]
  simp only [hideal.goes, if_true, Buf.shown, hideal.ptr rfl, Bool.false_eq_true, if_false, hdata]

/-- The whole encoding is handed over exactly where the requests behind the last look at the
status are granted if those up to it are. -/
lemma flattenTo_whole_iff (a : Pattern) (root : Node) :
    Whole (flattenTo a root) (flattenTo always root) ↔
      ((∀ i < flattenChecked root, a i = true) → ∀ i < flattenRequests root, a i = true) := by
  have hideal := ideal_node (fbStart always) root rfl
  obtain ⟨-, hgoes⟩ := goesOn_node root (flatBeside_fbStart a) (Nat.zero_le _)
    fun i hi => absurd hi (Nat.not_lt_zero i)
  split_ifs at hgoes with hok
  · obtain ⟨hbeside, hchecked⟩ := hgoes
    simp only [flattenTo, hok, hideal.goes, if_true]
    rcases hbeside.same with ⟨hsame, hall⟩ | ⟨-, hnull, i, hi, hrefused⟩
    · refine iff_of_true (fun out hout => ?_) fun _ => hall
      rw [← hsame]
      refine ⟨?_, hout⟩
      rw [← Except.ok.inj hout, Buf.shown, hsame, hbeside.ptr]
      rfl
    · refine iff_of_false (fun hwhole => ?_) fun hall => ?_
      · have hptr := (hwhole _ rfl).1
        simp [Buf.shown, hnull] at hptr
      · have hgranted := hall hchecked i hi
        simp [hrefused] at hgranted
  · obtain ⟨i, hi, hrefused⟩ := hgoes
    refine iff_of_true (fun out hout => ?_) fun hall => ?_
    · simp [flattenTo, hok] at hout
    · have hgranted := hall i hi
      simp [hrefused] at hgranted

end Teptris
