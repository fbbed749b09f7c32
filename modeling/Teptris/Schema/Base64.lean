import Teptris.Dom.Byte
import Teptris.Library.Base64

/-!
# Base64 content

`str_is_base64` and `b64_decode` of `validate.c`.  The decoder keeps everything it has read in an
`int` and never clears it: what is written is taken from its low bits, which the wrap-around of
the shift leaves alone.
-/

namespace Teptris

open Base64 (digit encode IsText)

/-! ## The decoder -/

/-- A letter, a digit, `+` or `/`. -/
def isB64Char (c : UInt8) : Bool :=
  (0x41 ≤ c && c ≤ 0x5A) || (0x61 ≤ c && c ≤ 0x7A) || (0x30 ≤ c && c ≤ 0x39) || c = 0x2B ||
    c = 0x2F

/-- The loop of `str_is_base64`; the result is the number of paddings. -/
def b64Pads (pad : ℕ) : Bytes → Option ℕ
  | [] => some pad
  | c :: s =>
    if ¬ (isB64Char c ∨ c = Ch.eq) then none
    else if c = Ch.eq then b64Pads (pad + 1) s
    else if 0 < pad then none
    else b64Pads pad s

/-- `str_is_base64`. -/
def strIsBase64 (s : Bytes) : Bool :=
  if s.length = 0 then true
  else if s.length % 4 ≠ 0 then false
  else (b64Pads 0 s).any (· ≤ 2)

/-- `b64_val`. -/
def b64Val (c : UInt8) : Option ℕ :=
  if 0x41 ≤ c ∧ c ≤ 0x5A then some (c.toNat - 0x41)
  else if 0x61 ≤ c ∧ c ≤ 0x7A then some (c.toNat - 0x61 + 26)
  else if 0x30 ≤ c ∧ c ≤ 0x39 then some (c.toNat - 0x30 + 52)
  else if c = 0x2B then some 62
  else if c = 0x2F then some 63
  else none

/-- `(acc << 6) | d`. -/
def b64Push (acc : BitVec 32) (d : ℕ) : BitVec 32 := acc <<< 6 ||| BitVec.ofNat 32 d

/-- `(acc >> bits) & 0xFF`. -/
def b64Byte (acc : BitVec 32) (bits : ℕ) : UInt8 :=
  UInt8.ofNat (acc.sshiftRight bits &&& 0xFF#32).toNat

/-- The loop of `b64_decode`, with the bytes written so far. -/
def b64Loop (dn : ℕ) (acc : BitVec 32) (bits : ℕ) (out : Bytes) : Bytes → Bytes
  | [] => out
  | c :: s =>
    if ¬ out.length < dn then out
    else if c = Ch.eq then out
    else
      match b64Val c with
      | none => out
      | some d =>
        let acc := b64Push acc d
        let bits := bits + 6
        if 8 ≤ bits then b64Loop dn acc (bits - 8) (out ++ [b64Byte acc (bits - 8)]) s
        else b64Loop dn acc bits out s

/-- `dn`, the number of bytes of the result. -/
def b64Length (s : Bytes) : ℕ :=
  s.length / 4 * 3 - (if s.getLast? = some Ch.eq then 1 else 0) -
    (if s.dropLast.getLast? = some Ch.eq then 1 else 0)

/-- `b64_decode`, the bytes of the result or `NULL`. -/
def b64Decode (s : Bytes) : Option Bytes :=
  if strIsBase64 s then some (b64Loop (b64Length s) 0 0 [] s) else none

/-! ## The texts -/

lemma isB64Char_iff (c : UInt8) : isB64Char c = true ↔ Base64.IsDigit c := by
  have hvalue : ∀ c : UInt8, isB64Char c = true →
      (b64Val c).getD 0 < 64 ∧ c = digit ((b64Val c).getD 0) := by decide +kernel
  have hdigit : ∀ n < 64, isB64Char (digit n) = true := by decide +kernel
  constructor
  · exact fun h => ⟨_, hvalue c h⟩
  · rintro ⟨n, hn, rfl⟩
    exact hdigit n hn

lemma isDigit_ne_eq {c : UInt8} (h : Base64.IsDigit c) : c ≠ Ch.eq := by
  obtain ⟨n, hn, rfl⟩ := h
  exact Base64.digit_ne_pad hn

/-- Characters, and paddings behind them; behind a padding there are no characters. -/
lemma b64Pads_eq_some {s : Bytes} {pad p : ℕ} : b64Pads pad s = some p ↔
    ∃ ds k, s = ds ++ List.replicate k Ch.eq ∧ (∀ c ∈ ds, Base64.IsDigit c) ∧ p = pad + k ∧
      (0 < pad → ds = []) := by
  induction s generalizing pad with
  | nil =>
    rw [b64Pads, Option.some.injEq]
    constructor
    · rintro rfl
      exact ⟨[], 0, rfl, by simp, rfl, fun _ => rfl⟩
    · rintro ⟨ds, k, h, -, rfl, -⟩
      obtain ⟨rfl, hk⟩ := List.append_eq_nil_iff.1 h.symm
      simpa using hk
  | cons c s ih =>
    rw [b64Pads]
    have hchar := isB64Char_iff c
    by_cases heq : c = Ch.eq
    · rw [if_neg (by simp [heq]), if_pos heq, ih]
      constructor
      · rintro ⟨ds, k, rfl, -, rfl, hds⟩
        obtain rfl := hds (by omega)
        exact ⟨[], k + 1, by simp [heq, List.replicate_succ], by simp, by omega, fun _ => rfl⟩
      · rintro ⟨ds, k, h, hds, rfl, -⟩
        obtain rfl : ds = [] := by
          cases ds with
          | nil => rfl
          | cons d ds =>
            obtain rfl := (List.cons.inj h).1
            exact absurd heq (isDigit_ne_eq (hds c (by simp)))
        cases k with
        | zero => simp at h
        | succ k =>
          rw [List.nil_append, List.replicate_succ] at h
          exact ⟨[], k, (List.cons.inj h).2, by simp, by omega, fun _ => rfl⟩
    · by_cases hc : Base64.IsDigit c
      · rw [if_neg (by simp [hchar.2 hc]), if_neg heq]
        have hhead : ∀ {ds k}, c :: s = ds ++ List.replicate k Ch.eq →
            ∃ ds', ds = c :: ds' ∧ s = ds' ++ List.replicate k Ch.eq := by
          intro ds k h
          cases ds with
          | nil =>
            cases k with
            | zero => simp at h
            | succ k => exact absurd (List.cons.inj h).1 heq
          | cons d ds =>
            obtain ⟨hcd, hs⟩ := List.cons.inj h
            exact ⟨ds, hcd ▸ rfl, hs⟩
        by_cases hp : 0 < pad
        · rw [if_pos hp]
          constructor
          · exact fun h => absurd h (by simp)
          · rintro ⟨ds, k, h, -, -, hds⟩
            obtain ⟨ds', rfl, -⟩ := hhead h
            exact absurd (hds hp) (by simp)
        · rw [if_neg hp, ih]
          constructor
          · rintro ⟨ds, k, rfl, hds, rfl, -⟩
            exact ⟨c :: ds, k, rfl, by simpa [hc] using hds, rfl, fun h => absurd h hp⟩
          · rintro ⟨ds, k, h, hds, rfl, -⟩
            obtain ⟨ds', rfl, rfl⟩ := hhead h
            exact ⟨ds', k, rfl, fun d hd => hds d (by simp [hd]), rfl, fun h => absurd h hp⟩
      · rw [if_pos (by simpa [heq] using mt hchar.1 hc)]
        constructor
        · exact fun h => absurd h (by simp)
        · rintro ⟨ds, k, h, hds, -, -⟩
          have hmem : c ∈ ds ++ List.replicate k Ch.eq := h ▸ List.mem_cons_self
          rcases List.mem_append.1 hmem with hd | hd
          · exact absurd (hds c hd) hc
          · exact absurd (List.eq_of_mem_replicate hd) heq

/-- `str_is_base64` accepts the sequences of quanta. -/
lemma strIsBase64_iff (s : Bytes) : strIsBase64 s = true ↔ IsText s := by
  have hpads : ∀ p, b64Pads 0 s = some p ↔
      ∃ ds, s = ds ++ List.replicate p Ch.eq ∧ ∀ c ∈ ds, Base64.IsDigit c := fun p => by
    simp only [b64Pads_eq_some, Nat.zero_add, Nat.lt_irrefl, false_imp_iff, and_true]
    exact ⟨fun ⟨ds, k, h, hds, hp⟩ => ⟨ds, hp ▸ h, hds⟩, fun ⟨ds, h, hds⟩ => ⟨ds, p, h, hds, rfl⟩⟩
  have hloop : (b64Pads 0 s).any (· ≤ 2) = true ↔
      ∃ ds p, s = ds ++ List.replicate p Base64.pad ∧ (∀ c ∈ ds, Base64.IsDigit c) ∧ p ≤ 2 := by
    simp only [Option.any_eq_true, hpads, decide_eq_true_eq]
    exact ⟨fun ⟨p, ⟨ds, h, hds⟩, hp⟩ => ⟨ds, p, h, hds, hp⟩,
      fun ⟨ds, p, h, hds, hp⟩ => ⟨p, ⟨ds, h, hds⟩, hp⟩⟩
  rw [strIsBase64]
  split_ifs with h0 h4
  · rw [List.length_eq_zero_iff.1 h0]
    exact ⟨fun _ => .nil, fun _ => rfl⟩
  · refine ⟨fun h => absurd h (by simp), fun h => ?_⟩
    obtain ⟨ds, p, -, -, -, hlen⟩ := Base64.isText_iff.1 h
    exact absurd hlen h4
  · rw [hloop, Base64.isText_iff]
    have h4 := not_not.1 h4
    exact ⟨fun ⟨ds, p, h, hds, hp⟩ => ⟨ds, p, h, hds, hp, h4⟩,
      fun ⟨ds, p, h, hds, hp, _⟩ => ⟨ds, p, h, hds, hp⟩⟩

/-! ## The bits -/

/-- The shift and the new digit, modulo the width of an `int`. -/
lemma b64Push_toNat (acc : BitVec 32) {d : ℕ} (hd : d < 64) :
    (b64Push acc d).toNat = (acc.toNat * 64 + d) % 2 ^ 32 := by
  have hshift : acc.toNat <<< 6 % 2 ^ 32 = 2 ^ 6 * (acc.toNat % 2 ^ 26) := by
    rw [Nat.shiftLeft_eq]
    omega
  rw [b64Push, BitVec.toNat_or, BitVec.toNat_shiftLeft, BitVec.toNat_ofNat,
    Nat.mod_eq_of_lt (a := d) (by omega), hshift, ← Nat.two_pow_add_eq_or_of_lt hd]
  omega

/-- The low bits do not see that the shift keeps the sign. -/
lemma b64Byte_toNat (acc : BitVec 32) {bits : ℕ} (hb : bits ≤ 24) :
    (b64Byte acc bits).toNat = acc.toNat / 2 ^ bits % 256 := by
  have hshift : acc.sshiftRight bits &&& 0xFF#32 = acc >>> bits &&& 0xFF#32 := by
    refine BitVec.eq_of_getLsbD_eq fun i hi => ?_
    by_cases h8 : i < 8
    · have hin : bits + i < 32 := by omega
      have hi : ¬ 32 ≤ i := by omega
      simp [BitVec.getLsbD_sshiftRight, hin, hi]
    · have hmask : (0xFF#32).getLsbD i = false := by
        rw [BitVec.getLsbD_ofNat,
          Nat.testBit_lt_two_pow (Nat.lt_of_lt_of_le (by decide) (Nat.pow_le_pow_right (by decide)
            (Nat.not_lt.1 h8))), Bool.and_false]
      simp [hmask]
  have hmask : (acc >>> bits &&& 0xFF#32).toNat = acc.toNat / 2 ^ bits % 256 := by
    rw [BitVec.toNat_and, BitVec.toNat_ushiftRight, Nat.shiftRight_eq_div_pow]
    exact Nat.and_two_pow_sub_one_eq_mod _ 8
  rw [b64Byte, hshift, hmask]
  simp

/-! ## Decoding -/

lemma b64Val_digit {n : ℕ} (h : n < 64) : b64Val (digit n) = some n := by
  have hall : ∀ n : Fin 64, b64Val (digit n) = some n.1 := by decide
  exact hall ⟨n, h⟩

lemma digit_ne_eq {n : ℕ} (h : n < 64) : digit n ≠ Ch.eq := Base64.digit_ne_pad h

variable {dn bits n : ℕ} {acc : BitVec 32} {out s : Bytes}

/-- A digit that completes a byte. -/
lemma b64Loop_byte (hn : n < 64) (hout : out.length < dn) (hbits : 2 ≤ bits) :
    b64Loop dn acc bits out (digit n :: s) =
      b64Loop dn (b64Push acc n) (bits - 2) (out ++ [b64Byte (b64Push acc n) (bits - 2)]) s := by
  have h8 : 8 ≤ bits + 6 := by omega
  have hsub : bits + 6 - 8 = bits - 2 := by omega
  rw [b64Loop, if_neg (not_not.2 hout), if_neg (digit_ne_eq hn), b64Val_digit hn]
  simp only [h8, if_true, hsub]

/-- The first digit of a quantum. -/
lemma b64Loop_first (hn : n < 64) (hout : out.length < dn) :
    b64Loop dn acc 0 out (digit n :: s) = b64Loop dn (b64Push acc n) 6 out s := by
  rw [b64Loop, if_neg (not_not.2 hout), if_neg (digit_ne_eq hn), b64Val_digit hn]
  rfl

/-- All bytes are there. -/
lemma b64Loop_full (hout : dn ≤ out.length) : b64Loop dn acc bits out s = out := by
  cases s with
  | nil => rfl
  | cons c s => rw [b64Loop, if_pos (by omega)]

/-- A byte of a quantum, from the low bits of what has been read. -/
lemma b64Byte_eq {b : UInt8} (hbits : bits ≤ 24) (h : acc.toNat / 2 ^ bits % 256 = b.toNat) :
    b64Byte acc bits = b :=
  UInt8.toNat_inj.1 ((b64Byte_toNat acc hbits).trans h)

/-- The first byte of a quantum. -/
lemma b64Byte_one (acc : BitVec 32) (a : UInt8) {m : ℕ} (hm : m < 16) :
    b64Byte (b64Push (b64Push acc (a.toNat / 4)) (a.toNat % 4 * 16 + m)) 4 = a := by
  have ha := a.toNat_lt
  refine b64Byte_eq (by omega) ?_
  rw [b64Push_toNat _ (by omega), b64Push_toNat _ (by omega)]
  omega

/-- The second byte, whose upper half came with the digit before. -/
lemma b64Byte_two (acc : BitVec 32) (b : UInt8) {m k : ℕ} (hm : m < 4) (hk : k < 4) :
    b64Byte (b64Push (b64Push acc (m * 16 + b.toNat / 16)) (b.toNat % 16 * 4 + k)) 2 = b := by
  have hb := b.toNat_lt
  refine b64Byte_eq (by omega) ?_
  rw [b64Push_toNat _ (by omega), b64Push_toNat _ (by omega)]
  omega

/-- The third byte, whose upper two bits came with the digit before. -/
lemma b64Byte_three (acc : BitVec 32) (c : UInt8) {m : ℕ} (hm : m < 16) :
    b64Byte (b64Push (b64Push acc (m * 4 + c.toNat / 64)) (c.toNat % 64)) 0 = c := by
  have hc := c.toNat_lt
  refine b64Byte_eq (by omega) ?_
  rw [b64Push_toNat _ (by omega), b64Push_toNat _ (by omega)]
  omega

/-- Whatever the accumulator holds in front of a quantum, the loop reads back what was encoded. -/
lemma b64Loop_encode : ∀ (b : Bytes) (acc : BitVec 32) (out : Bytes),
    b64Loop (out.length + b.length) acc 0 out (encode b) = out ++ b
  | [], acc, out => by simp [encode, b64Loop]
  | [a], acc, out => by
    have ha := a.toNat_lt
    rw [encode, List.length_singleton, b64Loop_first (by omega) (by omega),
      b64Loop_byte (by omega) (by omega) (by omega), b64Loop_full (by simp)]
    exact congrArg (fun x => out ++ [x]) (b64Byte_one acc a (m := 0) (by omega))
  | [a, b], acc, out => by
    have ha := a.toNat_lt
    have hb := b.toNat_lt
    have hlen : out.length + [a, b].length = out.length + 2 := rfl
    rw [encode, hlen, b64Loop_first (by omega) (by omega),
      b64Loop_byte (by omega) (by omega) (by omega), b64Byte_one acc a (by omega),
      b64Loop_byte (by omega) (by simp) (by omega), b64Loop_full (by simp)]
    rw [List.append_assoc]
    exact congrArg (fun x => out ++ ([a] ++ [x]))
      (b64Byte_two _ b (m := a.toNat % 4) (k := 0) (by omega) (by omega))
  | a :: b :: c :: rest, acc, out => by
    have ha := a.toNat_lt
    have hb := b.toNat_lt
    have hc := c.toNat_lt
    have hlen : out.length + (a :: b :: c :: rest).length = out.length + 3 + rest.length := by
      simp only [List.length_cons]
      omega
    rw [encode, hlen, b64Loop_first (by omega) (by omega),
      b64Loop_byte (by omega) (by omega) (by omega), b64Byte_one acc a (by omega),
      b64Loop_byte (by omega) (by simp; omega) (by omega),
      b64Byte_two _ b (by omega) (by omega),
      b64Loop_byte (by omega) (by simp; omega) (by omega), b64Byte_three _ c (by omega)]
    have hrest := b64Loop_encode rest
      (b64Push (b64Push (b64Push (b64Push acc (a.toNat / 4)) (a.toNat % 4 * 16 + b.toNat / 16))
        (b.toNat % 16 * 4 + c.toNat / 64)) (c.toNat % 64)) (out ++ [a] ++ [b] ++ [c])
    simp only [List.length_append, List.length_singleton] at hrest
    simpa using hrest

/-! ## The length -/

/-- A quantum in front of others makes the result three bytes longer. -/
lemma b64Length_cons (a b c d : UInt8) {s : Bytes} (hs : 4 ≤ s.length) :
    b64Length (a :: b :: c :: d :: s) = b64Length s + 3 := by
  obtain ⟨x, s, rfl⟩ := List.exists_cons_of_length_pos (by omega : 0 < s.length)
  obtain ⟨y, s, rfl⟩ := List.exists_cons_of_length_pos
    (by simp only [List.length_cons] at hs; omega : 0 < s.length)
  simp only [List.length_cons] at hs
  simp only [b64Length, List.length_cons, List.getLast?_cons_cons, List.dropLast_cons_cons]
  split_ifs <;> omega

/-- There is at least one quantum. -/
lemma four_le_encode (a : UInt8) : ∀ b : Bytes, 4 ≤ (encode (a :: b)).length
  | [] => by simp [encode]
  | [_] => by simp [encode]
  | _ :: _ :: _ => by simp [encode]

/-- The length of the result is that of what was encoded. -/
lemma b64Length_encode : ∀ b : Bytes, b64Length (encode b) = b.length
  | [] => rfl
  | [a] => by simp [b64Length, encode, Base64.pad]
  | [a, b] => by
    have h3 := digit_ne_eq (by omega : b.toNat % 16 * 4 < 64)
    simp [b64Length, encode, Base64.pad, h3]
  | [a, b, c] => by
    have hc := c.toNat_lt
    have h3 := digit_ne_eq (by omega : b.toNat % 16 * 4 + c.toNat / 64 < 64)
    have h4 := digit_ne_eq (by omega : c.toNat % 64 < 64)
    simp [b64Length, encode, h3, h4]
  | a :: b :: c :: d :: rest => by
    rw [encode, b64Length_cons _ _ _ _ (four_le_encode d rest), b64Length_encode (d :: rest)]
    rfl

/-- Base64 texts decode to what was encoded, and nothing else is decoded. -/
theorem b64Decode_correct : (∀ b : Bytes, b64Decode (encode b) = some b) ∧
    ∀ s : Bytes, b64Decode s = none ↔ ¬ IsText s := by
  constructor
  · intro b
    have hloop := b64Loop_encode b 0 []
    rw [List.length_nil, Nat.zero_add, List.nil_append] at hloop
    rw [b64Decode, if_pos ((strIsBase64_iff _).2 (Base64.isText_encode b)), b64Length_encode,
      hloop]
  · intro s
    rw [b64Decode, ← strIsBase64_iff]
    split_ifs with h <;> simp [h]

end Teptris
