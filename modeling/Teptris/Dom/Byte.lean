import Mathlib.Algebra.Group.Int.Defs
import Mathlib.Algebra.Group.Nat.Defs
import Mathlib.Data.List.Basic
import Mathlib.Tactic.Common

/-!
# Bytes and character classes

Byte strings, the bytes the grammar names, the character classes of `chartype.c`, and the
FNV-1a hash of a key (`teptris_dom_key_hash`).
-/

namespace Teptris

/-- A byte string. -/
abbrev Bytes := List UInt8

/-- A property of all bytes is checked byte by byte. -/
instance (priority := low) decidableForallByte (P : UInt8 → Prop) [DecidablePred P] :
    Decidable (∀ c, P c) :=
  decidable_of_iff (∀ i : Fin 256, P (UInt8.ofFin i))
    ⟨fun h c => by simpa using h c.toFin, fun h i => h _⟩

/-! ## The bytes the grammar names -/

namespace Ch

/-- Backspace. -/
abbrev bs : UInt8 := 0x08
/-- Horizontal tab. -/
abbrev tab : UInt8 := 0x09
/-- Line feed. -/
abbrev lf : UInt8 := 0x0A
/-- Form feed. -/
abbrev ff : UInt8 := 0x0C
/-- Carriage return. -/
abbrev cr : UInt8 := 0x0D
/-- Escape. -/
abbrev esc : UInt8 := 0x1B
/-- Space. -/
abbrev sp : UInt8 := 0x20
/-- `"`. -/
abbrev dquote : UInt8 := 0x22
/-- `#`. -/
abbrev hash : UInt8 := 0x23
/-- `'`. -/
abbrev squote : UInt8 := 0x27
/-- `+`. -/
abbrev plus : UInt8 := 0x2B
/-- `,`. -/
abbrev comma : UInt8 := 0x2C
/-- `-`. -/
abbrev minus : UInt8 := 0x2D
/-- `.`. -/
abbrev dot : UInt8 := 0x2E
/-- `0`. -/
abbrev zero : UInt8 := 0x30
/-- `:`. -/
abbrev colon : UInt8 := 0x3A
/-- `=`. -/
abbrev eq : UInt8 := 0x3D
/-- `[`. -/
abbrev lbrack : UInt8 := 0x5B
/-- `\`. -/
abbrev bslash : UInt8 := 0x5C
/-- `]`. -/
abbrev rbrack : UInt8 := 0x5D
/-- `_`. -/
abbrev under : UInt8 := 0x5F
/-- `{`. -/
abbrev lbrace : UInt8 := 0x7B
/-- `}`. -/
abbrev rbrace : UInt8 := 0x7D
/-- Delete. -/
abbrev del : UInt8 := 0x7F

end Ch

/-! ## Character classes -/

/-- `tep_is_ws`: space or tab. -/
def isWs (c : UInt8) : Bool := c == Ch.sp || c == Ch.tab

/-- `tep_is_dec`: a decimal digit. -/
def isDec (c : UInt8) : Bool := 0x30 ≤ c && c ≤ 0x39

/-- `tep_is_hex`: a hexadecimal digit. -/
def isHex (c : UInt8) : Bool :=
  isDec c || (0x61 ≤ c && c ≤ 0x66) || (0x41 ≤ c && c ≤ 0x46)

/-- `tep_is_barekey`: a byte of a bare key. -/
def isBareKey (c : UInt8) : Bool :=
  isDec c || (0x61 ≤ c && c ≤ 0x7A) || (0x41 ≤ c && c ≤ 0x5A) || c == Ch.under || c == Ch.minus

/-- The control bytes no string, key or comment may hold: all below space but the tab, and DEL. -/
def isControl (c : UInt8) : Bool := (c < 0x20 && c != Ch.tab) || c == Ch.del

/-! ## The key hash -/

/-- One step of the FNV-1a hash. -/
def fnvStep (h : UInt64) (c : UInt8) : UInt64 := (h ^^^ c.toUInt64) * 1099511628211

/-- The FNV-1a offset basis. -/
def fnvBasis : UInt64 := 1469598103934665603

/-- `teptris_dom_key_hash`. -/
def keyHash (key : Bytes) : UInt64 := key.foldl fnvStep fnvBasis

/-- A key together with its hash, as table entries and index probes carry it. -/
structure Key where
  /-- The bytes of the key. -/
  bytes : Bytes
  /-- The hash the index is probed with. -/
  hash : UInt64
  /-- The hash is the one of the bytes, whoever computed it. -/
  hash_eq : hash = keyHash bytes
deriving DecidableEq

/-- The key with the given bytes, hashed by `teptris_dom_key_hash`. -/
def Key.ofBytes (b : Bytes) : Key := ⟨b, keyHash b, rfl⟩

@[simp] lemma Key.ofBytes_bytes (b : Bytes) : (Key.ofBytes b).bytes = b := rfl

/-- Keys with the same bytes are equal. -/
@[ext] lemma Key.ext {k l : Key} (h : k.bytes = l.bytes) : k = l := by
  obtain ⟨kb, kh, hk⟩ := k
  obtain ⟨lb, lh, hl⟩ := l
  obtain rfl : kb = lb := h
  obtain rfl : kh = lh := hk.trans hl.symm
  rfl

@[simp] lemma Key.ofBytes_self (k : Key) : Key.ofBytes k.bytes = k := Key.ext rfl

/-- The comparison of `teptris_dom_table_probe_slot`: the cached hashes first, then the bytes. -/
def Key.same (k l : Key) : Bool := k.hash == l.hash && k.bytes == l.bytes

/-- A probe compares keys by their bytes: the hashes follow. -/
@[simp] lemma Key.same_iff {k l : Key} : k.same l = true ↔ k = l := by
  constructor
  · intro h
    simp only [Key.same, Bool.and_eq_true, beq_iff_eq] at h
    exact Key.ext h.2
  · rintro rfl
    simp [Key.same]

end Teptris
