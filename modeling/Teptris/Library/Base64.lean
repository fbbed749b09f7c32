import Mathlib.Data.List.Basic
import Mathlib.Tactic.Common

/-!
# Base64

The standard alphabet of base64 with padding: the encoding of bytes, three to a quantum of four
characters, and the texts that are sequences of quanta.
-/

namespace Base64

/-- Bytes. -/
abbrev Text := List UInt8

/-- The padding, `=`. -/
def pad : UInt8 := 0x3D

/-- The character for a value below 64. -/
def digit (n : ℕ) : UInt8 :=
  if n < 26 then UInt8.ofNat (0x41 + n)
  else if n < 52 then UInt8.ofNat (0x61 + (n - 26))
  else if n < 62 then UInt8.ofNat (0x30 + (n - 52))
  else if n = 62 then 0x2B
  else 0x2F

/-- A character of the alphabet. -/
def IsDigit (c : UInt8) : Prop := ∃ n < 64, c = digit n

/-- The encoding of bytes; a last quantum of one or two bytes is padded. -/
def encode : Text → Text
  | [] => []
  | [a] => [digit (a.toNat / 4), digit (a.toNat % 4 * 16), pad, pad]
  | [a, b] =>
    [digit (a.toNat / 4), digit (a.toNat % 4 * 16 + b.toNat / 16), digit (b.toNat % 16 * 4), pad]
  | a :: b :: c :: rest =>
    digit (a.toNat / 4) :: digit (a.toNat % 4 * 16 + b.toNat / 16) ::
      digit (b.toNat % 16 * 4 + c.toNat / 64) :: digit (c.toNat % 64) :: encode rest

/-- Sequences of quanta, of which only the last is padded. -/
inductive IsText : Text → Prop
  /-- No quantum. -/
  | nil : IsText []
  /-- A last quantum for one byte. -/
  | one {a b : UInt8} (ha : IsDigit a) (hb : IsDigit b) : IsText [a, b, pad, pad]
  /-- A last quantum for two bytes. -/
  | two {a b c : UInt8} (ha : IsDigit a) (hb : IsDigit b) (hc : IsDigit c) : IsText [a, b, c, pad]
  /-- A quantum for three bytes in front. -/
  | cons {a b c d : UInt8} {t : Text} (ha : IsDigit a) (hb : IsDigit b) (hc : IsDigit c)
      (hd : IsDigit d) (ht : IsText t) : IsText (a :: b :: c :: d :: t)

lemma isDigit_digit {n : ℕ} (h : n < 64) : IsDigit (digit n) := ⟨n, h, rfl⟩

/-- What is encoded is a sequence of quanta. -/
lemma isText_encode : ∀ b : Text, IsText (encode b)
  | [] => .nil
  | [a] => by
    have ha := a.toNat_lt
    exact .one (isDigit_digit (by omega)) (isDigit_digit (by omega))
  | [a, b] => by
    have ha := a.toNat_lt
    have hb := b.toNat_lt
    exact .two (isDigit_digit (by omega)) (isDigit_digit (by omega)) (isDigit_digit (by omega))
  | a :: b :: c :: rest => by
    have ha := a.toNat_lt
    have hb := b.toNat_lt
    have hc := c.toNat_lt
    exact .cons (isDigit_digit (by omega)) (isDigit_digit (by omega)) (isDigit_digit (by omega))
      (isDigit_digit (by omega)) (isText_encode rest)

lemma digit_ne_pad {n : ℕ} (h : n < 64) : digit n ≠ pad := by
  have hall : ∀ n : Fin 64, digit n ≠ pad := by decide
  exact hall ⟨n, h⟩

/-- Characters in fours, the last four with at most two paddings, are quanta. -/
lemma isText_append : ∀ (ds : Text) {p : ℕ}, (∀ c ∈ ds, IsDigit c) → p ≤ 2 →
    (ds.length + p) % 4 = 0 → IsText (ds ++ List.replicate p pad)
  | [], p, _, hp, hlen => by
    obtain rfl : p = 0 := by simp only [List.length_nil] at hlen; omega
    exact .nil
  | [a], p, _, hp, hlen => by simp only [List.length_singleton] at hlen; omega
  | [a, b], p, hds, hp, hlen => by
    obtain rfl : p = 2 := by simp only [List.length_cons, List.length_nil] at hlen; omega
    exact .one (hds a (by simp)) (hds b (by simp))
  | [a, b, c], p, hds, hp, hlen => by
    obtain rfl : p = 1 := by simp only [List.length_cons, List.length_nil] at hlen; omega
    exact .two (hds a (by simp)) (hds b (by simp)) (hds c (by simp))
  | a :: b :: c :: d :: ds, p, hds, hp, hlen =>
    .cons (hds a (by simp)) (hds b (by simp)) (hds c (by simp)) (hds d (by simp))
      (isText_append ds (fun e he => hds e (by simp [he])) hp
        (by simp only [List.length_cons] at hlen; omega))

/-- Sequences of quanta are characters with at most two paddings behind them, in fours. -/
lemma isText_iff {t : Text} : IsText t ↔ ∃ ds p, t = ds ++ List.replicate p pad ∧
    (∀ c ∈ ds, IsDigit c) ∧ p ≤ 2 ∧ t.length % 4 = 0 := by
  constructor
  · intro h
    induction h with
    | nil => exact ⟨[], 0, rfl, by simp, by omega, rfl⟩
    | @one a b ha hb => exact ⟨[a, b], 2, rfl, by simp [ha, hb], by omega, by simp⟩
    | @two a b c ha hb hc => exact ⟨[a, b, c], 1, rfl, by simp [ha, hb, hc], by omega, by simp⟩
    | @cons a b c d t ha hb hc hd _ ih =>
      obtain ⟨ds, p, rfl, hds, hp, hlen⟩ := ih
      refine ⟨a :: b :: c :: d :: ds, p, rfl, by simpa [ha, hb, hc, hd] using hds, hp, ?_⟩
      simp only [List.length_cons] at hlen ⊢
      omega
  · rintro ⟨ds, p, rfl, hds, hp, hlen⟩
    exact isText_append ds hds hp (by simpa using hlen)

end Base64
