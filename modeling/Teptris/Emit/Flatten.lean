import Teptris.Dom.Height
import Teptris.Dom.Tree
import Teptris.Emit.Encoding

/-!
# The flat encoding

`teptris_document_flatten` writes a whole tree as one self-describing byte string.  `unflatten`
reads the format as its documentation states it: a tag, and for each kind its little-endian
payload.  The two are inverse exactly on the trees whose counts and lengths have room in their
32-bit slots (`Tree.Fits`), and an output below `2 ^ 32` bytes leaves none without room.
-/

namespace Teptris

/-! ## `flatten_node` -/

/-- `fb_u32`. -/
def fbU32 (v : UInt32) : Bytes := leBytes 4 v.toNat

/-- `fb_u64`. -/
def fbU64 (v : UInt64) : Bytes := leBytes 8 v.toNat

/-- `fb_i64`. -/
def fbI64 (v : Int64) : Bytes := fbU64 v.toUInt64

/-- `fb_f64`. -/
def fbF64 (v : Double) : Bytes := fbU64 v.bits

/-- `fb_dt`. -/
def fbDt (d : Datetime) : Bytes :=
  fbI64 d.year.toInt64 ++ [d.month, d.day, d.hour, d.minute, d.second] ++ fbU32 d.nanosecond ++
    fbI64 d.offsetSeconds.toInt64

/-- `0x08 + (kind - TEPTRIS_DATETIME_OFFSET)`. -/
def flatDtTag : DtKind → UInt8
  | .datetimeOffset => 0x08
  | .datetimeLocal => 0x09
  | .dateLocal => 0x0A
  | .timeLocal => 0x0B

mutual

/-- `flatten_node`; the casts of counts and lengths are those of the source. -/
def flattenNode : Node → Bytes
  | .table _ es => 0x01 :: fbU32 (UInt32.ofNat es.length) ++ flattenEntries es
  | .array _ items => 0x02 :: fbU32 (UInt32.ofNat items.length) ++ flattenItems items
  | .string s => 0x03 :: fbU32 (UInt32.ofNat s.length) ++ s
  | .integer i => 0x04 :: fbI64 i
  | .float f => 0x05 :: fbF64 f
  | .boolean b => [if b then 0x07 else 0x06]
  | .datetime kind dt => flatDtTag kind :: fbDt dt

/-- The elements of an array. -/
def flattenItems : List Node → Bytes
  | [] => []
  | v :: vs => flattenNode v ++ flattenItems vs

/-- The entries of a table: key length, key, value. -/
def flattenEntries : List (Key × Node) → Bytes
  | [] => []
  | (k, v) :: es =>
    fbU32 (UInt32.ofNat k.bytes.length) ++ k.bytes ++ flattenNode v ++ flattenEntries es

end

/-! ## A decoder of the documented format -/

/-- A `u32`. -/
def readU32 (r : Bytes) : Option (ℕ × Bytes) :=
  (takeBytes 4 r).map fun x => (leVal x.1, x.2)

/-- A `u32` length, and that many bytes. -/
def readBlock (r : Bytes) : Option (Bytes × Bytes) :=
  match readU32 r with
  | none => none
  | some (n, r) => takeBytes n r

/-- The kind a datetime tag stands for. -/
def flatDtKind (tag : UInt8) : Option DtKind :=
  if tag = 0x08 then some .datetimeOffset
  else if tag = 0x09 then some .datetimeLocal
  else if tag = 0x0A then some .dateLocal
  else if tag = 0x0B then some .timeLocal
  else none

/-- The 25 bytes `i64 y u8 mo d h mi s u32 ns i64 off`. -/
def readDt (p : Bytes) : Datetime where
  year := Int32.ofNat (leVal (p.take 8))
  month := byteAt p 8
  day := byteAt p 9
  hour := byteAt p 10
  minute := byteAt p 11
  second := byteAt p 12
  nanosecond := UInt32.ofNat (leVal ((p.drop 13).take 4))
  offsetSeconds := Int32.ofNat (leVal ((p.drop 17).take 8))
where
  /-- The byte at an offset. -/
  byteAt (p : Bytes) (i : ℕ) : UInt8 := p.getD i 0

/-- That many items, one after the other. -/
def readTimes {α : Type} (read : Bytes → Option (α × Bytes)) : ℕ → Bytes → Option (List α × Bytes)
  | 0, r => some ([], r)
  | n + 1, r =>
    match read r with
    | none => none
    | some (a, r) =>
      match readTimes read n r with
      | none => none
      | some (as, r) => some (a :: as, r)

/-- A key, and its value. -/
def readEntry (read : Bytes → Option (Tree × Bytes)) (r : Bytes) :
    Option ((Bytes × Tree) × Bytes) :=
  match readBlock r with
  | none => none
  | some (k, r) => (read r).map fun x => ((k, x.1), x.2)

/-- A count, and that many items. -/
def readCounted {α : Type} (read : Bytes → Option (α × Bytes)) (r : Bytes) :
    Option (List α × Bytes) :=
  match readU32 r with
  | none => none
  | some (n, r) => readTimes read n r

/-- A scalar behind its tag. -/
def readScalar (tag : UInt8) (r : Bytes) : Option (Tree × Bytes) :=
  if tag = 0x03 then (readBlock r).map fun x => (.string x.1, x.2)
  else if tag = 0x04 then
    (takeBytes 8 r).map fun x => (.integer (Int64.ofNat (leVal x.1)), x.2)
  else if tag = 0x05 then
    (takeBytes 8 r).map fun x => (.float ⟨UInt64.ofNat (leVal x.1)⟩, x.2)
  else if tag = 0x06 then some (.boolean false, r)
  else if tag = 0x07 then some (.boolean true, r)
  else
    match flatDtKind tag with
    | none => none
    | some kind => (takeBytes 25 r).map fun x => (.datetime kind (readDt x.1), x.2)

/-- A value that nests at most that many levels deep, and what follows it. -/
def unflatten : ℕ → Bytes → Option (Tree × Bytes)
  | _, [] => none
  | 0, tag :: r => readScalar tag r
  | levels + 1, tag :: r =>
    if tag = 0x01 then
      (readCounted (readEntry (unflatten levels)) r).map fun x => (.table x.1, x.2)
    else if tag = 0x02 then
      (readCounted (unflatten levels) r).map fun x => (.array x.1, x.2)
    else readScalar tag r

/-- The value a whole byte string holds; it cannot nest deeper than it is long. -/
def decodeFlat (data : Bytes) : Option Tree :=
  match unflatten data.length data with
  | some (t, []) => some t
  | _ => none

/-! ## What has room -/

mutual

/-- Every count and every length of the tree has room in 32 bits. -/
def Tree.Fits : Tree → Prop
  | .string s => s.length < 2 ^ 32
  | .array items => items.length < 2 ^ 32 ∧ roomyItems items
  | .table es => es.length < 2 ^ 32 ∧ roomyEntries es
  | _ => True

/-- The elements have room. -/
def roomyItems : List Tree → Prop
  | [] => True
  | t :: ts => t.Fits ∧ roomyItems ts

/-- The keys and values have room. -/
def roomyEntries : List (Bytes × Tree) → Prop
  | [] => True
  | (k, t) :: es => k.length < 2 ^ 32 ∧ t.Fits ∧ roomyEntries es

end

lemma roomyItems_iff {ts : List Tree} : roomyItems ts ↔ ∀ t ∈ ts, t.Fits := by
  induction ts with
  | nil => simp [roomyItems]
  | cons t ts ih => simp [roomyItems, ih]

lemma roomyEntries_iff {es : List (Bytes × Tree)} :
    roomyEntries es ↔ ∀ e ∈ es, e.1.length < 2 ^ 32 ∧ e.2.Fits := by
  induction es with
  | nil => simp [roomyEntries]
  | cons e es ih => simp [roomyEntries, ih, and_assoc]

/-! ## Numbers and blocks -/

lemma readU32_fbU32 (v : UInt32) (r : Bytes) : readU32 (fbU32 v ++ r) = some (v.toNat, r) := by
  have hlt : v.toNat < 256 ^ 4 := UInt32.toNat_lt _
  rw [readU32, fbU32, takeBytes_leBytes, Option.map_some, leVal_leBytes, Nat.mod_eq_of_lt hlt]

/-- A length that has room is read back. -/
lemma readU32_length {n : ℕ} (h : n < 2 ^ 32) (r : Bytes) :
    readU32 (fbU32 (UInt32.ofNat n) ++ r) = some (n, r) := by
  rw [readU32_fbU32, UInt32.toNat_ofNat_of_lt' h]

lemma readBlock_append {s : Bytes} (h : s.length < 2 ^ 32) (r : Bytes) :
    readBlock (fbU32 (UInt32.ofNat s.length) ++ (s ++ r)) = some (s, r) := by
  simp only [readBlock, readU32_length h, takeBytes_append]

@[simp] lemma length_fbDt (d : Datetime) : (fbDt d).length = 25 := by
  simp [fbDt, fbI64, fbU64, fbU32]

/-- The payload of a datetime is read back, field by field. -/
lemma readDt_fbDt (d : Datetime) : readDt (fbDt d) = d := by
  have hyear : (fbDt d).take 8 = fbI64 d.year.toInt64 := by
    simp [fbDt, fbI64, fbU64]
  have hnanos : ((fbDt d).drop 13).take 4 = fbU32 d.nanosecond := by
    rw [show fbDt d = (fbI64 d.year.toInt64 ++ [d.month, d.day, d.hour, d.minute, d.second]) ++
      (fbU32 d.nanosecond ++ fbI64 d.offsetSeconds.toInt64) by simp [fbDt]]
    rw [List.drop_left' (by simp [fbI64, fbU64]), List.take_left' (by simp [fbU32])]
  have hoff : ((fbDt d).drop 17).take 8 = fbI64 d.offsetSeconds.toInt64 := by
    rw [fbDt, List.drop_left' (by simp [fbI64, fbU64, fbU32]),
      List.take_of_length_le (by simp [fbI64, fbU64])]
  simp only [readDt, hyear, hnanos, hoff]
  simp only [fbI64, fbU64, fbU32, int32_of_leBytes, uint32_of_leBytes]
  simp [readDt.byteAt, fbDt, fbI64, fbU64, List.getElem?_append]

/-! ## The round trip -/

lemma flatDtKind_tag (kind : DtKind) : flatDtKind (flatDtTag kind) = some kind := by
  cases kind <;> rfl

/-- Elements that are read back one by one are read back together. -/
lemma readTimes_flattenItems {read : Bytes → Option (Tree × Bytes)} {vs : List Node}
    (h : ∀ v ∈ vs, ∀ r, read (flattenNode v ++ r) = some (v.tree, r)) (r : Bytes) :
    readTimes read vs.length (flattenItems vs ++ r) = some (itemsTree vs, r) := by
  induction vs with
  | nil => rfl
  | cons v vs ih =>
    have hfirst := h v List.mem_cons_self (flattenItems vs ++ r)
    have hrest := ih fun w hw => h w (List.mem_cons_of_mem _ hw)
    simp only [flattenItems, List.append_assoc, List.length_cons, readTimes, hfirst, hrest,
      itemsTree]

/-- Entries whose values are read back one by one are read back together. -/
lemma readTimes_flattenEntries {read : Bytes → Option (Tree × Bytes)} {es : Entries}
    (hkey : ∀ e ∈ es, e.1.bytes.length < 2 ^ 32)
    (h : ∀ e ∈ es, ∀ r, read (flattenNode e.2 ++ r) = some (e.2.tree, r)) (r : Bytes) :
    readTimes (readEntry read) es.length (flattenEntries es ++ r) = some (entriesTree es, r) := by
  induction es with
  | nil => rfl
  | cons e es ih =>
    obtain ⟨k, v⟩ := e
    have hvalue := h (k, v) List.mem_cons_self (flattenEntries es ++ r)
    have hrest := ih (fun e he => hkey e (List.mem_cons_of_mem _ he))
      fun e he => h e (List.mem_cons_of_mem _ he)
    have hblock := readBlock_append (hkey (k, v) List.mem_cons_self)
      (flattenNode v ++ (flattenEntries es ++ r))
    simp only [flattenEntries, List.append_assoc, List.length_cons, readTimes, readEntry, hblock,
      hvalue, Option.map_some, hrest, entriesTree]

lemma readScalar_boolean (b : Bool) (r : Bytes) :
    readScalar (if b then 0x07 else 0x06) r = some (.boolean b, r) := by
  cases b <;> rfl

lemma readScalar_datetime (kind : DtKind) (dt : Datetime) (r : Bytes) :
    readScalar (flatDtTag kind) (fbDt dt ++ r) = some (.datetime kind dt, r) := by
  have htake : takeBytes 25 (fbDt dt ++ r) = some (fbDt dt, r) := by
    rw [← length_fbDt dt, takeBytes_append]
  have hread : readScalar (flatDtTag kind) (fbDt dt ++ r) =
      (takeBytes 25 (fbDt dt ++ r)).map fun x => (.datetime kind (readDt x.1), x.2) := by
    cases kind <;> rfl
  rw [hread, htake, Option.map_some, readDt_fbDt]

/-- A tag of no container is that of a scalar, on every level. -/
lemma unflatten_scalar {tag : UInt8} (htable : tag ≠ 0x01) (harray : tag ≠ 0x02) (levels : ℕ)
    (r : Bytes) : unflatten levels (tag :: r) = readScalar tag r := by
  cases levels with
  | zero => rw [unflatten]
  | succ levels => rw [unflatten, if_neg htable, if_neg harray]

/-- A scalar whose length has room is read back, on every level. -/
lemma unflatten_leaf {n : Node} (hleaf : n.height = 0) (hfits : n.tree.Fits) (levels : ℕ)
    (r : Bytes) : unflatten levels (flattenNode n ++ r) = some (n.tree, r) := by
  cases n with
  | array | table => simp [Node.height] at hleaf
  | string s =>
    rw [flattenNode, List.cons_append, List.cons_append, List.append_assoc,
      unflatten_scalar (by decide) (by decide), readScalar, if_pos rfl, readBlock_append hfits]
    rfl
  | integer i =>
    rw [flattenNode, List.cons_append, unflatten_scalar (by decide) (by decide), fbI64, fbU64]
    simp [readScalar, takeBytes_leBytes, int64_of_leBytes, Node.tree]
  | float f =>
    rw [flattenNode, List.cons_append, unflatten_scalar (by decide) (by decide), fbF64, fbU64]
    simp [readScalar, takeBytes_leBytes, uint64_of_leBytes, Node.tree]
  | boolean b =>
    rw [flattenNode, List.cons_append, List.nil_append,
      unflatten_scalar (by cases b <;> decide) (by cases b <;> decide), readScalar_boolean]
    rfl
  | datetime kind dt =>
    rw [flattenNode, List.cons_append,
      unflatten_scalar (by cases kind <;> decide) (by cases kind <;> decide), readScalar_datetime]
    rfl

/-- A tree that nests no deeper than the levels, and whose counts and lengths have room, is read
back, with whatever follows it. -/
lemma unflatten_flattenNode (levels : ℕ) : ∀ {n : Node}, n.height ≤ levels → n.tree.Fits →
    ∀ r, unflatten levels (flattenNode n ++ r) = some (n.tree, r) := by
  induction levels with
  | zero => exact fun hn hfits r => unflatten_leaf (Nat.le_zero.mp hn) hfits 0 r
  | succ levels ih =>
    intro n hn hfits r
    by_cases hleaf : n.height = 0
    · exact unflatten_leaf hleaf hfits _ r
    cases n with
    | string | integer | float | boolean | datetime => exact absurd rfl hleaf
    | array aot items =>
      rw [Node.height, Nat.add_le_add_iff_right] at hn
      obtain ⟨hlen, hitems⟩ := hfits
      rw [itemsTree_eq, List.length_map] at hlen
      have hread : ∀ v ∈ items, ∀ r,
          unflatten levels (flattenNode v ++ r) = some (v.tree, r) := by
        intro v hv r
        have hvfits : v.tree.Fits :=
          roomyItems_iff.mp hitems _ (itemsTree_eq items ▸ List.mem_map_of_mem hv)
        exact ih (Nat.le_trans (height_le_itemsHeight hv) hn) hvfits r
      rw [flattenNode, List.cons_append, List.cons_append, List.append_assoc, unflatten,
        if_neg (by decide), if_pos rfl, readCounted, readU32_length hlen]
      simp only [readTimes_flattenItems hread, Option.map_some, Node.tree]
    | table flag es =>
      rw [Node.height, Nat.add_le_add_iff_right] at hn
      obtain ⟨hlen, hes⟩ := hfits
      rw [entriesTree_eq, List.length_map] at hlen
      rw [entriesTree_eq, roomyEntries_iff] at hes
      have hentry : ∀ e ∈ es, e.1.bytes.length < 2 ^ 32 ∧ e.2.tree.Fits := fun e he =>
        hes _ (List.mem_map_of_mem he)
      have hread : ∀ e ∈ es, ∀ r,
          unflatten levels (flattenNode e.2 ++ r) = some (e.2.tree, r) := fun e he r =>
        ih (Nat.le_trans (height_le_entriesHeight he) hn) (hentry e he).2 r
      rw [flattenNode, List.cons_append, List.cons_append, List.append_assoc, unflatten, if_pos rfl,
        readCounted, readU32_length hlen]
      simp only [readTimes_flattenEntries (fun e he => (hentry e he).1) hread, Option.map_some,
        Node.tree]

/-! ## Sizes -/

mutual

/-- A tree nests less deep than its encoding is long. -/
lemma height_lt_flattenNode : ∀ n : Node, n.height < (flattenNode n).length
  | .string s | .integer i | .float f | .boolean b | .datetime kind dt => by
    simp [Node.height, flattenNode]
  | .array aot items => by
    have := itemsHeight_le_flattenItems items
    simp only [Node.height, flattenNode, fbU32, List.length_append, List.length_cons,
      length_leBytes]
    omega
  | .table flag es => by
    have := entriesHeight_le_flattenEntries es
    simp only [Node.height, flattenNode, fbU32, List.length_append, List.length_cons,
      length_leBytes]
    omega

lemma itemsHeight_le_flattenItems : ∀ vs : List Node, itemsHeight vs ≤ (flattenItems vs).length
  | [] => Nat.le_refl _
  | v :: vs => by
    have hv := height_lt_flattenNode v
    have hvs := itemsHeight_le_flattenItems vs
    rw [itemsHeight, flattenItems, List.length_append]
    omega

lemma entriesHeight_le_flattenEntries :
    ∀ es : List (Key × Node), entriesHeight es ≤ (flattenEntries es).length
  | [] => Nat.le_refl _
  | (k, v) :: es => by
    have hv := height_lt_flattenNode v
    have hes := entriesHeight_le_flattenEntries es
    simp only [entriesHeight, flattenEntries, List.length_append]
    omega

end

mutual

/-- An encoding below `2 ^ 32` bytes leaves no count and no length without room. -/
lemma fits_of_flattenNode : ∀ n : Node, (flattenNode n).length < 2 ^ 32 → n.tree.Fits
  | .string s, h => by
    simp only [flattenNode, List.length_append, List.length_cons] at h
    rw [Node.tree, Tree.Fits]
    omega
  | .integer _, _ | .float _, _ | .boolean _, _ | .datetime _ _, _ => trivial
  | .array aot items, h => by
    simp only [flattenNode, List.length_append, List.length_cons] at h
    obtain ⟨hlen, hfit⟩ := fits_of_flattenItems items (by omega)
    refine ⟨?_, hfit⟩
    rw [itemsTree_eq, List.length_map]
    omega
  | .table flag es, h => by
    simp only [flattenNode, List.length_append, List.length_cons] at h
    obtain ⟨hlen, hfit⟩ := fits_of_flattenEntries es (by omega)
    refine ⟨?_, hfit⟩
    rw [entriesTree_eq, List.length_map]
    omega

lemma fits_of_flattenItems : ∀ vs : List Node, (flattenItems vs).length < 2 ^ 32 →
    vs.length ≤ (flattenItems vs).length ∧ roomyItems (itemsTree vs)
  | [], _ => ⟨Nat.le_refl _, trivial⟩
  | v :: vs, h => by
    rw [flattenItems, List.length_append] at h ⊢
    have hpos := height_lt_flattenNode v
    obtain ⟨hlen, hfit⟩ := fits_of_flattenItems vs (by omega)
    refine ⟨by rw [List.length_cons]; omega, fits_of_flattenNode v (by omega), hfit⟩

lemma fits_of_flattenEntries : ∀ es : List (Key × Node), (flattenEntries es).length < 2 ^ 32 →
    es.length ≤ (flattenEntries es).length ∧ roomyEntries (entriesTree es)
  | [], _ => ⟨Nat.le_refl _, trivial⟩
  | (k, v) :: es, h => by
    simp only [flattenEntries, List.length_append] at h ⊢
    have hpos := height_lt_flattenNode v
    obtain ⟨hlen, hfit⟩ := fits_of_flattenEntries es (by omega)
    refine ⟨by rw [List.length_cons]; omega, by omega, fits_of_flattenNode v (by omega), hfit⟩

end

/-! ## What the decoder returns -/

lemma leVal_lt (bs : Bytes) : leVal bs < 256 ^ bs.length := by
  induction bs with
  | nil => simp [leVal]
  | cons b bs ih =>
    have hcons : leVal (b :: bs) = b.toNat + 256 * leVal bs := rfl
    have hb := b.toNat_lt
    rw [hcons, List.length_cons, Nat.pow_succ]
    omega

/-- A number that was read has room in its 32 bits. -/
lemma readU32_lt {r r' : Bytes} {n : ℕ} (h : readU32 r = some (n, r')) : n < 2 ^ 32 := by
  simp only [readU32, takeBytes] at h
  split_ifs at h with hlen
  · simp only [Option.map_some, Option.some.injEq, Prod.mk.injEq] at h
    obtain ⟨rfl, -⟩ := h
    have hlt := leVal_lt (r.take 4)
    rw [List.length_take, Nat.min_eq_left hlen] at hlt
    exact hlt
  · simp at h

lemma readBlock_lt {r r' s : Bytes} (h : readBlock r = some (s, r')) : s.length < 2 ^ 32 := by
  rw [readBlock] at h
  split at h
  · simp at h
  next n r₁ hn =>
  rw [takeBytes] at h
  split_ifs at h with hlen
  obtain ⟨rfl, -⟩ : r₁.take n = s ∧ r₁.drop n = r' := by simpa using h
  have := readU32_lt hn
  rw [List.length_take]
  omega

/-- Items that were read are as many as asked for, and each was read. -/
lemma readTimes_spec {α : Type} {read : Bytes → Option (α × Bytes)} {P : α → Prop}
    (hread : ∀ r a r', read r = some (a, r') → P a) :
    ∀ {n : ℕ} {r r' : Bytes} {as : List α}, readTimes read n r = some (as, r') →
      as.length = n ∧ ∀ a ∈ as, P a := by
  intro n
  induction n with
  | zero =>
    intro r r' as h
    obtain ⟨rfl, -⟩ : [] = as ∧ r = r' := by simpa [readTimes] using h
    simp
  | succ n ih =>
    intro r r' as h
    rw [readTimes] at h
    split at h
    · simp at h
    next a r₁ ha =>
    split at h
    · simp at h
    next bs r₂ hbs =>
    obtain ⟨rfl, -⟩ : a :: bs = as ∧ r₂ = r' := by simpa using h
    obtain ⟨hlen, hall⟩ := ih hbs
    refine ⟨by rw [List.length_cons, hlen], ?_⟩
    intro b hb
    rcases List.mem_cons.mp hb with rfl | hb
    · exact hread _ _ _ ha
    · exact hall b hb

/-- What is read behind a count is fewer than `2 ^ 32` items. -/
lemma readCounted_spec {α : Type} {read : Bytes → Option (α × Bytes)} {P : α → Prop}
    (hread : ∀ r a r', read r = some (a, r') → P a) {r r' : Bytes} {as : List α}
    (h : readCounted read r = some (as, r')) : as.length < 2 ^ 32 ∧ ∀ a ∈ as, P a := by
  rw [readCounted] at h
  split at h
  · simp at h
  next n r₁ hn =>
  obtain ⟨hlen, hall⟩ := readTimes_spec hread h
  exact ⟨hlen ▸ readU32_lt hn, hall⟩

lemma readScalar_fits {tag : UInt8} {r r' : Bytes} {t : Tree}
    (h : readScalar tag r = some (t, r')) : t.Fits := by
  rw [readScalar] at h
  split_ifs at h
  · obtain ⟨⟨s, r₁⟩, hs, heq⟩ := Option.map_eq_some_iff.mp h
    obtain ⟨rfl, -⟩ := Prod.mk.inj heq
    exact readBlock_lt hs
  · obtain ⟨x, -, heq⟩ := Option.map_eq_some_iff.mp h
    obtain ⟨rfl, -⟩ := Prod.mk.inj heq
    trivial
  · obtain ⟨x, -, heq⟩ := Option.map_eq_some_iff.mp h
    obtain ⟨rfl, -⟩ := Prod.mk.inj heq
    trivial
  · obtain ⟨rfl, -⟩ := Prod.mk.inj (Option.some.inj h)
    trivial
  · obtain ⟨rfl, -⟩ := Prod.mk.inj (Option.some.inj h)
    trivial
  · split at h
    · simp at h
    · obtain ⟨x, -, heq⟩ := Option.map_eq_some_iff.mp h
      obtain ⟨rfl, -⟩ := Prod.mk.inj heq
      trivial

/-- What the decoder returns has room everywhere. -/
lemma unflatten_fits (levels : ℕ) : ∀ {r r' : Bytes} {t : Tree},
    unflatten levels r = some (t, r') → t.Fits := by
  induction levels with
  | zero =>
    intro r r' t h
    cases r with
    | nil => simp [unflatten] at h
    | cons tag r => exact readScalar_fits (by rwa [unflatten] at h)
  | succ levels ih =>
    intro r r' t h
    obtain _ | ⟨tag, r⟩ := r
    · simp [unflatten] at h
    rw [unflatten] at h
    split_ifs at h
    · obtain ⟨⟨es, r₁⟩, hes, heq⟩ := Option.map_eq_some_iff.mp h
      obtain ⟨rfl, -⟩ := Prod.mk.inj heq
      have hentry : ∀ r e r', readEntry (unflatten levels) r = some (e, r') →
          e.1.length < 2 ^ 32 ∧ e.2.Fits := by
        intro r e r' he
        rw [readEntry] at he
        split at he
        · simp at he
        next k r₂ hk =>
        obtain ⟨⟨v, r₃⟩, hv, heq⟩ := Option.map_eq_some_iff.mp he
        obtain ⟨rfl, -⟩ := Prod.mk.inj heq
        exact ⟨readBlock_lt hk, ih hv⟩
      obtain ⟨hlen, hall⟩ := readCounted_spec hentry hes
      exact ⟨hlen, roomyEntries_iff.mpr hall⟩
    · obtain ⟨⟨ts, r₁⟩, hts, heq⟩ := Option.map_eq_some_iff.mp h
      obtain ⟨rfl, -⟩ := Prod.mk.inj heq
      obtain ⟨hlen, hall⟩ := readCounted_spec (fun _ _ _ h => ih h) hts
      exact ⟨hlen, roomyItems_iff.mpr hall⟩
    · exact readScalar_fits h

end Teptris
