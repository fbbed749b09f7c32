import Teptris.Library.Strides
import Teptris.Parse.Encoding
import Teptris.Schema.Regex

/-!
# The two passes over a pattern

`utf8_to_cp` counts the code points of a pattern by its lead bytes and then decodes them.  Both
passes are walks over the bytes, and they differ where a lead byte covers bytes that do not
continue it.  In an encoded text the decoding pass finds the characters (`decodeCps_encode`).
-/

namespace Teptris

open Strides

/-! ## The passes as walks -/

/-- The bytes a lead byte claims behind it, all of them or none. -/
def claimed (b : UInt8) (rest : Bytes) : ℕ :=
  let step := if b < 0x80 then 0 else if b < 0xE0 then 1 else if b < 0xF0 then 2 else 3
  if rest.length < step then 0 else step

/-- The continuation bytes of the well-formed sequence that `b` begins. -/
def continued (b : UInt8) (rest : Bytes) : ℕ := (decodeCp b rest).2

/-- The counting pass counts its stops. -/
lemma countFrom_eq_stops : ∀ (skip : ℕ) (s : Bytes), countFrom skip s = stops claimed skip s
  | _, [] => rfl
  | skip + 1, _ :: rest => by
    rw [countFrom, countFrom_eq_stops skip rest, stops, stops, marks,
      List.count_cons_of_ne (by simp)]
  | 0, b :: rest => by
    rw [countFrom, countFrom_eq_stops, stops, stops, marks, List.count_cons_self]
    rfl

/-- The decoding pass writes one code point at each stop. -/
lemma decodeFrom_length : ∀ (skip : ℕ) (s : Bytes),
    (decodeFrom skip s).length = stops continued skip s
  | _, [] => rfl
  | skip + 1, _ :: rest => by
    rw [decodeFrom, decodeFrom_length skip rest, stops, stops, marks,
      List.count_cons_of_ne (by simp)]
  | 0, b :: rest => by
    rw [decodeFrom, List.length_cons, decodeFrom_length, stops, stops, marks,
      List.count_cons_self]
    rfl

/-! ## Continuation bytes -/

/-- The byte at position `j` continues a well-formed sequence. -/
def Continues (s : Bytes) (j : ℕ) : Prop :=
  ∃ i < j, ∃ b ∈ s[i]?, j ≤ i + continued b (s.drop (i + 1))

instance (s : Bytes) (j : ℕ) : Decidable (Continues s j) :=
  inferInstanceAs (Decidable (∃ i < j, ∃ b ∈ s[i]?, j ≤ i + continued b (s.drop (i + 1))))

/-- The byte at position `j` is counted as the first of a code point. -/
def Counted (s : Bytes) (j : ℕ) : Prop := StopsAt claimed s j

instance (s : Bytes) (j : ℕ) : Decidable (Counted s j) :=
  inferInstanceAs (Decidable (StopsAt claimed s j))

/-- The bytes of a well-formed sequence behind the first. -/
lemma continued_spec (b : UInt8) (rest : Bytes) :
    continued b rest ≤ rest.length ∧ (rest.take (continued b rest)).all isTail = true := by
  unfold continued decodeCp
  split_ifs with h1 h2 h3 h4
  · simp
  · simpa [tailsAhead] using h2.2
  · simpa [tailsAhead] using h3.2
  · simpa [tailsAhead] using h4.2
  · simp

/-- A continuation byte begins nothing. -/
lemma continued_of_isTail {b : UInt8} (h : isTail b = true) (rest : Bytes) :
    continued b rest = 0 := by
  have hno : ∀ b : UInt8, isTail b = true →
      b &&& 0xE0 ≠ 0xC0 ∧ b &&& 0xF0 ≠ 0xE0 ∧ b &&& 0xF8 ≠ 0xF0 := by decide +kernel
  obtain ⟨h2, h3, h4⟩ := hno b h
  simp only [continued, decodeCp, h2, h3, h4, false_and, if_false]
  split_ifs <;> rfl

/-- One byte further on. -/
lemma continues_cons {b : UInt8} {s : Bytes} {j : ℕ} :
    Continues (b :: s) (j + 1) ↔ j + 1 ≤ continued b s ∨ Continues s j := by
  constructor
  · rintro ⟨i, hij, c, hc, hj⟩
    cases i with
    | zero =>
      obtain rfl : b = c := by simpa using hc
      exact .inl (by simpa using hj)
    | succ i => exact .inr ⟨i, by omega, c, by simpa using hc, by simp at hj; omega⟩
  · rintro (h | ⟨i, hij, c, hc, hj⟩)
    · exact ⟨0, by omega, b, by simp, by simpa using h⟩
    · exact ⟨i + 1, by omega, c, by simpa using hc, by simp; omega⟩

/-- The decoding pass passes over the continuation bytes and over no others: a well-formed
sequence begins with a byte that continues none, so the pass never misses its start. -/
lemma marks_continued : ∀ (skip : ℕ) (s : Bytes), (s.take skip).all isTail = true → ∀ j < s.length,
    ((marks continued skip s)[j]? = some true ↔ ¬ (j < skip ∨ Continues s j))
  | _, [], _, j, hj => absurd hj (Nat.not_lt_zero j)
  | skip + 1, b :: rest, ht, 0, _ => by simp [marks]
  | skip + 1, b :: rest, ht, j + 1, hj => by
    rw [List.take_succ_cons, List.all_cons, Bool.and_eq_true] at ht
    rw [marks, List.getElem?_cons_succ, marks_continued skip rest ht.2 j (by simpa using hj),
      continues_cons, continued_of_isTail ht.1]
    simp
  | 0, b :: rest, _, 0, _ => by simp [marks, Continues]
  | 0, b :: rest, _, j + 1, hj => by
    rw [marks, List.getElem?_cons_succ,
      marks_continued _ rest (continued_spec b rest).2 j (by simpa using hj), continues_cons]
    have h0 : ¬ j + 1 < 0 := Nat.not_lt_zero _
    rw [Nat.lt_iff_add_one_le]
    exact ⟨fun h hor => h (hor.resolve_left h0), fun h hor => h (.inr hor)⟩

/-- The decoding pass stops at the bytes that continue nothing. -/
lemma stopsAt_continued {s : Bytes} {j : ℕ} (hj : j < s.length) :
    StopsAt continued s j ↔ ¬ Continues s j := by
  simpa [StopsAt] using marks_continued 0 s (by simp) j hj

/-! ## The room reserved -/

/-- The bytes that a lead byte claims though they continue no well-formed sequence. -/
def miscounted (s : Bytes) : Finset ℕ :=
  (Finset.range s.length).filter fun j => ¬ Continues s j ∧ ¬ Counted s j

/-- The bytes counted as code points though they continue a well-formed sequence. -/
def overcounted (s : Bytes) : Finset ℕ :=
  (Finset.range s.length).filter fun j => Continues s j ∧ Counted s j

/-- The decoding pass stays within the room the counting pass reserves exactly where the bytes
that wrong claims swallow are at most one more than the continuation bytes that are counted. -/
theorem decoded_fits_iff (s : Bytes) :
    (decodeCps s).length ≤ countFrom 0 s + 1 ↔ (miscounted s).card ≤ (overcounted s).card + 1 := by
  have hmis : onlyFirst continued claimed s = miscounted s := Finset.filter_congr fun j hj => by
    rw [stopsAt_continued (Finset.mem_range.1 hj), Counted]
  have hover : onlyFirst claimed continued s = overcounted s := Finset.filter_congr fun j hj => by
    rw [stopsAt_continued (Finset.mem_range.1 hj), Counted, not_not, and_comm]
  rw [decodeCps, decodeFrom_length, countFrom_eq_stops, stops_le_iff, hmis, hover]

/-- Two lead bytes with a letter behind each of them decode to four code points, and two were
counted. -/
theorem decoded_overflows :
    ¬ ∀ s : Bytes, (decodeCps s).length ≤ countFrom 0 s + 1 :=
  fun h => absurd (h [0xC3, 0x41, 0xC3, 0x41]) (by decide)

/-! ## Encoded texts -/

/-- A continuation byte of an encoding. -/
lemma tail_byte {x : ℕ} (hx : x < 64) : isTail (UInt8.ofNat (x + 0x80)) = true ∧
    (UInt8.ofNat (x + 0x80) &&& 0x3F).toNat = x := by
  have hall : ∀ i : Fin 64, isTail (UInt8.ofNat (i.val + 0x80)) = true ∧
      (UInt8.ofNat (i.val + 0x80) &&& 0x3F).toNat = i.val := by decide
  exact hall ⟨x, hx⟩

/-- The lead byte of two. -/
lemma lead_two {x : ℕ} (hx : x < 32) : ¬ UInt8.ofNat (x + 0xC0) < 0x80 ∧
    UInt8.ofNat (x + 0xC0) &&& 0xE0 = 0xC0 ∧ (UInt8.ofNat (x + 0xC0) &&& 0x1F).toNat = x := by
  have hall : ∀ i : Fin 32, ¬ UInt8.ofNat (i.val + 0xC0) < 0x80 ∧
      UInt8.ofNat (i.val + 0xC0) &&& 0xE0 = 0xC0 ∧
      (UInt8.ofNat (i.val + 0xC0) &&& 0x1F).toNat = i.val := by decide
  exact hall ⟨x, hx⟩

/-- The lead byte of three. -/
lemma lead_three {x : ℕ} (hx : x < 16) : ¬ UInt8.ofNat (x + 0xE0) < 0x80 ∧
    UInt8.ofNat (x + 0xE0) &&& 0xE0 ≠ 0xC0 ∧ UInt8.ofNat (x + 0xE0) &&& 0xF0 = 0xE0 ∧
    (UInt8.ofNat (x + 0xE0) &&& 0x0F).toNat = x := by
  have hall : ∀ i : Fin 16, ¬ UInt8.ofNat (i.val + 0xE0) < 0x80 ∧
      UInt8.ofNat (i.val + 0xE0) &&& 0xE0 ≠ 0xC0 ∧ UInt8.ofNat (i.val + 0xE0) &&& 0xF0 = 0xE0 ∧
      (UInt8.ofNat (i.val + 0xE0) &&& 0x0F).toNat = i.val := by decide
  exact hall ⟨x, hx⟩

/-- The lead byte of four. -/
lemma lead_four {x : ℕ} (hx : x < 8) : ¬ UInt8.ofNat (x + 0xF0) < 0x80 ∧
    UInt8.ofNat (x + 0xF0) &&& 0xE0 ≠ 0xC0 ∧ UInt8.ofNat (x + 0xF0) &&& 0xF0 ≠ 0xE0 ∧
    UInt8.ofNat (x + 0xF0) &&& 0xF8 = 0xF0 ∧ (UInt8.ofNat (x + 0xF0) &&& 0x07).toNat = x := by
  have hall : ∀ i : Fin 8, ¬ UInt8.ofNat (i.val + 0xF0) < 0x80 ∧
      UInt8.ofNat (i.val + 0xF0) &&& 0xE0 ≠ 0xC0 ∧ UInt8.ofNat (i.val + 0xF0) &&& 0xF0 ≠ 0xE0 ∧
      UInt8.ofNat (i.val + 0xF0) &&& 0xF8 = 0xF0 ∧
      (UInt8.ofNat (i.val + 0xF0) &&& 0x07).toNat = i.val := by decide
  exact hall ⟨x, hx⟩

/-- Bits that are all six bits wide, as continuation bytes with anything behind them. -/
lemma tails_encode {xs : List ℕ} (hxs : ∀ x ∈ xs, x < 64) (lead : UInt8) (rest : Bytes) :
    tailsAhead xs.length ((xs.map fun x => UInt8.ofNat (x + 0x80)) ++ rest) = true ∧
      gather lead xs.length ((xs.map fun x => UInt8.ofNat (x + 0x80)) ++ rest) =
        xs.foldl (fun cp x => cp * 64 + x) lead.toNat := by
  have htake : ((xs.map fun x => UInt8.ofNat (x + 0x80)) ++ rest).take xs.length =
      xs.map fun x => UInt8.ofNat (x + 0x80) := by
    rw [List.take_append_of_le_length (by simp), List.take_of_length_le (by simp)]
  constructor
  · unfold tailsAhead
    rw [htake]
    simp only [List.length_append, List.length_map, List.all_map, List.all_eq_true,
      Function.comp_apply, decide_eq_true_eq]
    exact ⟨Nat.le_add_right _ _, fun x hx => (tail_byte (hxs x hx)).1⟩
  · unfold gather
    rw [htake, List.foldl_map]
    refine List.foldl_ext _ _ _ fun cp x hx => ?_
    rw [(tail_byte (hxs x hx)).2, shift_or _ (hxs x hx)]

/-- The code point of a character is read back, and the next one behind its bytes. -/
lemma decodeFrom_encode (c : Char) (rest : Bytes) :
    decodeFrom 0 (String.utf8EncodeChar c ++ rest) = c.toNat :: decodeFrom 0 rest := by
  have hmax : c.val.toNat < 0x110000 := by
    rcases c.valid with h | ⟨-, h⟩
    · exact h.trans (by decide)
    · exact h
  have hcp : c.toNat = c.val.toNat := rfl
  have hmod : ∀ x : ℕ, x % 0x40 < 64 := fun x => Nat.mod_lt x (by decide)
  rw [hcp, String.utf8EncodeChar]
  generalize c.val.toNat = v at hmax ⊢
  split_ifs with h1 h2 h3
  · have hb : (UInt8.ofNat v).toNat = v :=
      UInt8.toNat_ofNat_of_lt' (Nat.lt_of_le_of_lt h1 (by decide))
    have hlow : UInt8.ofNat v < 0x80 := by
      rw [UInt8.lt_iff_toNat_lt, hb]
      exact Nat.lt_succ_of_le h1
    have hd : decodeCp (UInt8.ofNat v) rest = (v, 0) := by rw [decodeCp, if_pos hlow, hb]
    rw [List.cons_append, List.nil_append, decodeFrom, hd]
  · obtain ⟨hlow, hlead, hbits⟩ := lead_two (x := v / 64 % 0x20) (Nat.mod_lt _ (by decide))
    obtain ⟨ht, hg⟩ := @tails_encode [v % 0x40] (by simp [hmod])
      (UInt8.ofNat (v / 64 % 0x20 + 0xC0) &&& 0x1F) rest
    have hv : v / 64 % 0x20 * 64 + v % 0x40 = v := by omega
    have hd : decodeCp (UInt8.ofNat (v / 64 % 0x20 + 0xC0))
        (UInt8.ofNat (v % 0x40 + 0x80) :: rest) = (v, 1) := by
      rw [decodeCp, if_neg hlow, if_pos ⟨hlead, ht⟩]
      exact Prod.ext (by rw [hbits] at hg; exact hg.trans hv) rfl
    simp only [List.cons_append, List.nil_append, decodeFrom, hd]
  · obtain ⟨hlow, hno, hlead, hbits⟩ :=
      lead_three (x := v / 4096 % 0x10) (Nat.mod_lt _ (by decide))
    obtain ⟨ht, hg⟩ := @tails_encode [v / 64 % 0x40, v % 0x40] (by simp [hmod])
      (UInt8.ofNat (v / 4096 % 0x10 + 0xE0) &&& 0x0F) rest
    have hv : (v / 4096 % 0x10 * 64 + v / 64 % 0x40) * 64 + v % 0x40 = v := by omega
    have hd : decodeCp (UInt8.ofNat (v / 4096 % 0x10 + 0xE0))
        (UInt8.ofNat (v / 64 % 0x40 + 0x80) :: UInt8.ofNat (v % 0x40 + 0x80) :: rest) = (v, 2) := by
      rw [decodeCp, if_neg hlow, if_neg (fun h => hno h.1), if_pos ⟨hlead, ht⟩]
      exact Prod.ext (by rw [hbits] at hg; exact hg.trans hv) rfl
    simp only [List.cons_append, List.nil_append, decodeFrom, hd]
  · obtain ⟨hlow, hno, hno', hlead, hbits⟩ :=
      lead_four (x := v / 262144 % 0x08) (Nat.mod_lt _ (by decide))
    obtain ⟨ht, hg⟩ := @tails_encode [v / 4096 % 0x40, v / 64 % 0x40, v % 0x40] (by simp [hmod])
      (UInt8.ofNat (v / 262144 % 0x08 + 0xF0) &&& 0x07) rest
    have hv : ((v / 262144 % 0x08 * 64 + v / 4096 % 0x40) * 64 + v / 64 % 0x40) * 64 +
        v % 0x40 = v := by omega
    have hd : decodeCp (UInt8.ofNat (v / 262144 % 0x08 + 0xF0))
        (UInt8.ofNat (v / 4096 % 0x40 + 0x80) :: UInt8.ofNat (v / 64 % 0x40 + 0x80) ::
          UInt8.ofNat (v % 0x40 + 0x80) :: rest) = (v, 3) := by
      rw [decodeCp, if_neg hlow, if_neg (fun h => hno h.1), if_neg (fun h => hno' h.1),
        if_pos ⟨hlead, ht⟩]
      exact Prod.ext (by rw [hbits] at hg; exact hg.trans hv) rfl
    simp only [List.cons_append, List.nil_append, decodeFrom, hd]

/-- The code points of an encoded text are those of its characters. -/
theorem decodeCps_encode (text : List Char) :
    decodeCps (text.flatMap String.utf8EncodeChar) = text.map Char.toNat := by
  unfold decodeCps
  induction text with
  | nil => rfl
  | cons c text ih => rw [List.flatMap_cons, decodeFrom_encode, ih, List.map_cons]

end Teptris
