import Mathlib.Data.List.Basic
import Mathlib.Tactic.Common

/-!
# Texts of internet addresses

The text forms of IPv6 addresses, as RFC 4291 has them in section 2.2: eight groups, or fewer of
them around one `::`, with the last two groups given as a dotted quad where one likes.
-/

namespace Inet

/-- Bytes. -/
abbrev Text := List UInt8

/-! ## Dotted quads -/

/-- A decimal digit. -/
def IsDigit (c : UInt8) : Prop := 0x30 ≤ c ∧ c ≤ 0x39

/-- A number up to 255 in decimal, without leading zeros. -/
inductive IsOctet : Text → Prop
  /-- `0` to `9`. -/
  | one {a : UInt8} (ha : IsDigit a) : IsOctet [a]
  /-- `10` to `99`. -/
  | two {a b : UInt8} (ha : 0x31 ≤ a ∧ a ≤ 0x39) (hb : IsDigit b) : IsOctet [a, b]
  /-- `100` to `199`. -/
  | three {b c : UInt8} (hb : IsDigit b) (hc : IsDigit c) : IsOctet [0x31, b, c]
  /-- `200` to `249`. -/
  | high {b c : UInt8} (hb : 0x30 ≤ b ∧ b ≤ 0x34) (hc : IsDigit c) : IsOctet [0x32, b, c]
  /-- `250` to `255`. -/
  | top {c : UInt8} (hc : 0x30 ≤ c ∧ c ≤ 0x35) : IsOctet [0x32, 0x35, c]

/-- Four numbers with dots between them. -/
def IsQuad (t : Text) : Prop :=
  ∃ a b c d, IsOctet a ∧ IsOctet b ∧ IsOctet c ∧ IsOctet d ∧
    t = a ++ 0x2E :: (b ++ 0x2E :: (c ++ 0x2E :: d))

lemma IsOctet.digits {t : Text} (h : IsOctet t) : t ≠ [] ∧ ∀ c ∈ t, IsDigit c := by
  cases h <;> grind [IsDigit]

lemma IsQuad.dotted {t : Text} (h : IsQuad t) : 0x2E ∈ t := by
  obtain ⟨a, b, c, d, -, -, -, -, rfl⟩ := h
  simp

lemma IsQuad.no_colon {t : Text} (h : IsQuad t) : 0x3A ∉ t := by
  obtain ⟨a, b, c, d, ha, hb, hc, hd, rfl⟩ := h
  have hno : ∀ o : Text, IsOctet o → 0x3A ∉ o := fun o ho hm => by
    have := ho.digits.2 _ hm
    grind [IsDigit]
  simp [hno a ha, hno b hb, hno c hc, hno d hd]

/-! ## Groups -/

/-- A hexadecimal digit. -/
def IsHexDigit (c : UInt8) : Prop :=
  IsDigit c ∨ (0x61 ≤ c ∧ c ≤ 0x66) ∨ (0x41 ≤ c ∧ c ≤ 0x46)

/-- One to four hexadecimal digits. -/
def IsGroup (t : Text) : Prop := t ≠ [] ∧ t.length ≤ 4 ∧ ∀ c ∈ t, IsHexDigit c

/-- Pieces that stand for a number of groups: each for one, but a dotted quad at the end for
two. -/
inductive Pieces : List Text → ℕ → Prop
  /-- No pieces. -/
  | nil : Pieces [] 0
  /-- A dotted quad at the end. -/
  | quad {t : Text} (h : IsQuad t) : Pieces [t] 2
  /-- A group in front. -/
  | group {t : Text} {ts : List Text} {k : ℕ} (h : IsGroup t) (hs : Pieces ts k) :
      Pieces (t :: ts) (k + 1)

lemma IsGroup.no_dot {t : Text} (h : IsGroup t) : 0x2E ∉ t := fun hm => by
  have := h.2.2 _ hm
  grind [IsHexDigit, IsDigit]

lemma IsGroup.no_colon {t : Text} (h : IsGroup t) : 0x3A ∉ t := fun hm => by
  have := h.2.2 _ hm
  grind [IsHexDigit, IsDigit]

lemma IsQuad.ne_nil {t : Text} (h : IsQuad t) : t ≠ [] := List.ne_nil_of_mem h.dotted

lemma Pieces.length_le {ts : List Text} {k : ℕ} (h : Pieces ts k) : ts.length ≤ k := by
  induction h with
  | nil => simp
  | quad => simp
  | group _ _ ih => simpa using ih

lemma Pieces.ne_nil {ts : List Text} {k : ℕ} (h : Pieces ts k) : [] ∉ ts := by
  induction h with
  | nil => simp
  | quad h => simpa using h.ne_nil.symm
  | group h _ ih => simpa using ⟨h.1, ih⟩

lemma Pieces.no_colon {ts : List Text} {k : ℕ} (h : Pieces ts k) : ∀ t ∈ ts, 0x3A ∉ t := by
  induction h with
  | nil => simp
  | quad h => simpa using h.no_colon
  | group h _ ih => simpa using ⟨h.no_colon, ih⟩

/-! ## Addresses -/

/-- Texts with colons between them. -/
def joined (ts : List Text) : Text := [0x3A].intercalate ts

/-- An IPv6 address. -/
inductive IsIpv6 : Text → Prop
  /-- Eight groups. -/
  | full {ts : List Text} (h : Pieces ts 8) : IsIpv6 (joined ts)
  /-- At most seven groups around `::`, which stands for the others. -/
  | short {l r : List Text} {k : ℕ} (hl : ∀ t ∈ l, IsGroup t) (hr : Pieces r k)
      (hk : l.length + k ≤ 7) : IsIpv6 (joined l ++ [0x3A, 0x3A] ++ joined r)

/-- What stands between the colons of joined texts; joining no texts leaves one empty one. -/
lemma splitOn_joined {ts : List Text} (h : ∀ t ∈ ts, 0x3A ∉ t) :
    (joined ts).splitOn 0x3A = if ts = [] then [[]] else ts := by
  by_cases hts : ts = []
  · simp [hts, joined]
  · rw [if_neg hts, joined, List.splitOn_intercalate _ h hts]

/-- What stands between the colons of two texts with `::` between them. -/
lemma splitOn_short (a b : Text) :
    (a ++ [0x3A, 0x3A] ++ b).splitOn 0x3A = a.splitOn 0x3A ++ [] :: b.splitOn 0x3A := by
  rw [List.append_assoc, List.cons_append, List.splitOn_append_cons_self, List.cons_append,
    List.nil_append, ← List.nil_append (0x3A :: b), List.splitOn_append_cons_self]
  rfl

end Inet
