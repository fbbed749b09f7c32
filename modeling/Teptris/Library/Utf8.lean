import Mathlib.Data.List.Basic
import Mathlib.Tactic.Common

/-!
# Well-formed UTF-8

Byte strings that are sequences of well-formed UTF-8 code units, by the ranges of their bytes.
A well-formed string splits at every byte below `0x80` (`Utf8.valid_append_cons_iff`), which is
what a scanner with ASCII delimiters relies on.
-/

namespace Utf8

/-- A continuation byte. -/
def IsCont (c : UInt8) : Prop := 0x80 ≤ c ∧ c < 0xC0

/-- The sequences of more than one byte. -/
inductive Multi : List UInt8 → Prop
  /-- Code points from `0x80` to `0x7FF`. -/
  | two {a b : UInt8} (ha : 0xC2 ≤ a) (ha' : a ≤ 0xDF) (hb : IsCont b) : Multi [a, b]
  /-- Code points from `0x800` to `0xFFFF`, without the surrogates. -/
  | three {a b c : UInt8} (ha : 0xE0 ≤ a) (ha' : a ≤ 0xEF) (hb : IsCont b) (hc : IsCont c)
      (hmin : a = 0xE0 → 0xA0 ≤ b) (hsur : a = 0xED → b < 0xA0) : Multi [a, b, c]
  /-- Code points from `0x10000` to `0x10FFFF`. -/
  | four {a b c d : UInt8} (ha : 0xF0 ≤ a) (ha' : a ≤ 0xF4) (hb : IsCont b) (hc : IsCont c)
      (hd : IsCont d) (hmin : a = 0xF0 → 0x90 ≤ b) (hmax : a = 0xF4 → b < 0x90) :
      Multi [a, b, c, d]

/-- Well-formed UTF-8. -/
inductive Valid : List UInt8 → Prop
  /-- The empty string. -/
  | nil : Valid []
  /-- A byte below `0x80` in front. -/
  | ascii {c : UInt8} {cs : List UInt8} (hc : c < 0x80) (h : Valid cs) : Valid (c :: cs)
  /-- A longer sequence in front. -/
  | multi {s cs : List UInt8} (hs : Multi s) (h : Valid cs) : Valid (s ++ cs)

/-- A longer sequence has no byte below `0x80`. -/
lemma Multi.not_ascii {s : List UInt8} (h : Multi s) : ∀ c ∈ s, ¬ c < 0x80 := by
  cases h with
  | two => grind [IsCont]
  | three => grind [IsCont]
  | four => grind [IsCont]

/-- Well-formed strings compose. -/
lemma Valid.append {a b : List UInt8} (ha : Valid a) (hb : Valid b) : Valid (a ++ b) := by
  induction ha with
  | nil => exact hb
  | ascii hc _ ih => exact .ascii hc ih
  | multi hs _ ih =>
    rw [List.append_assoc]
    exact .multi hs ih

/-- A longer sequence is well formed on its own. -/
lemma Multi.valid {s : List UInt8} (h : Multi s) : Valid s := by
  simpa using Valid.multi h .nil

/-- A string of bytes below `0x80` is well formed. -/
lemma valid_of_ascii {s : List UInt8} (h : ∀ c ∈ s, c < 0x80) : Valid s := by
  induction s with
  | nil => exact .nil
  | cons c cs ih => exact .ascii (h c (by simp)) (ih fun d hd => h d (by simp [hd]))

lemma valid_of_all {s : List UInt8} (h : s.all (· < 0x80) = true) : Valid s :=
  valid_of_ascii fun c hc => of_decide_eq_true (List.all_eq_true.mp h c hc)

/-- One direction of the split at a byte below `0x80`. -/
lemma Valid.split {a b : List UInt8} {c : UInt8} (hc : c < 0x80) (h : Valid (a ++ c :: b)) :
    Valid a ∧ Valid b := by
  generalize hx : a ++ c :: b = x at h
  induction h generalizing a with
  | nil => simp at hx
  | @ascii d cs hd hcs ih =>
    obtain _ | ⟨a₀, a⟩ := a
    · obtain ⟨rfl, rfl⟩ := List.cons.inj hx
      exact ⟨.nil, hcs⟩
    · obtain ⟨rfl, htail⟩ := List.cons.inj hx
      obtain ⟨ha, hb⟩ := ih htail
      exact ⟨.ascii hd ha, hb⟩
  | @multi s cs hs hcs ih =>
    rcases List.append_eq_append_iff.mp hx with ⟨s', rfl, hb⟩ | ⟨a', rfl, hcs'⟩
    · -- the sequence would reach over the byte below `0x80`
      obtain _ | ⟨s₀, s'⟩ := s'
      · obtain ⟨ha, hb⟩ := ih (a := []) (by simpa using hb)
        exact ⟨by simpa using hs.valid, hb⟩
      · obtain ⟨rfl, -⟩ := List.cons.inj hb
        exact absurd hc (hs.not_ascii c (by simp))
    · obtain ⟨ha, hb⟩ := ih hcs'.symm
      exact ⟨.multi hs ha, hb⟩

/-- A string is well formed when its parts around a byte below `0x80` are. -/
lemma valid_append_cons_iff {a b : List UInt8} {c : UInt8} (hc : c < 0x80) :
    Valid (a ++ c :: b) ↔ Valid a ∧ Valid b :=
  ⟨Valid.split hc, fun h => h.1.append (.ascii hc h.2)⟩

/-- The tail behind a byte below `0x80`. -/
lemma Valid.tail {c : UInt8} {cs : List UInt8} (hc : c < 0x80) (h : Valid (c :: cs)) :
    Valid cs :=
  (Valid.split (a := []) hc h).2

/-- A suffix that starts with a byte below `0x80`. -/
lemma Valid.of_append_right {a b : List UInt8} (h : Valid (a ++ b)) (hb : ∀ c ∈ b.head?, c < 0x80) :
    Valid b := by
  obtain _ | ⟨c, cs⟩ := b
  · exact .nil
  · have hc : c < 0x80 := hb c (by simp)
    exact .ascii hc (Valid.split hc h).2

/-- A prefix that a byte below `0x80` follows, or nothing. -/
lemma Valid.of_append_left {a b : List UInt8} (h : Valid (a ++ b)) (hb : ∀ c ∈ b.head?, c < 0x80) :
    Valid a := by
  obtain _ | ⟨c, cs⟩ := b
  · simpa using h
  · exact (Valid.split (hb c (by simp)) h).1

/-- What follows a longer sequence in front. -/
lemma Valid.of_multi {s r : List UInt8} (hs : Multi s) (h : Valid (s ++ r)) : Valid r := by
  generalize hx : s ++ r = x at h
  cases h with
  | nil =>
    obtain ⟨rfl, -⟩ := List.append_eq_nil_iff.mp hx
    cases hs
  | @ascii c cs hc h =>
    obtain _ | ⟨d, s⟩ := s
    · cases hs
    · obtain ⟨rfl, -⟩ := List.cons.inj hx
      exact absurd hc (hs.not_ascii d (by simp))
  | @multi t cs ht h =>
    -- the lead byte fixes the length of a sequence
    have hlen : s.length = t.length := by
      cases hs <;> cases ht <;> simp at hx ⊢ <;> grind
    obtain ⟨-, rfl⟩ := List.append_inj hx hlen
    exact h

/-- What follows a stretch of bytes below `0x80`. -/
lemma Valid.of_append_right' {a b : List UInt8} (h : Valid (a ++ b)) (ha : ∀ c ∈ a, c < 0x80) :
    Valid b := by
  induction a with
  | nil => exact h
  | cons c cs ih => exact ih (h.tail (ha c (by simp))) fun d hd => ha d (by simp [hd])

/-- A mapping that is evaluated at each byte: its texts are searched, not all bytes. -/
lemma ascii_of_all {text : UInt8 → List UInt8}
    (h : ∀ c, c < 0x80 → (text c).all (· < 0x80) = true) :
    ∀ c, c < 0x80 → ∀ d ∈ text c, d < 0x80 :=
  fun c hc d hd => of_decide_eq_true (List.all_eq_true.mp (h c hc) d hd)

/-- A mapping of bytes that keeps the bytes from `0x80` on as they are, and the others below
`0x80`, keeps text well formed. -/
lemma Valid.flatMap {text : UInt8 → List UInt8} (hascii : ∀ c, c < 0x80 → ∀ d ∈ text c, d < 0x80)
    (hmulti : ∀ c, ¬ c < 0x80 → text c = [c]) {s : List UInt8} (h : Valid s) :
    Valid (s.flatMap text) := by
  induction h with
  | nil => exact .nil
  | @ascii c cs hc _ ih =>
    rw [List.flatMap_cons]
    exact (valid_of_ascii (hascii c hc)).append ih
  | @multi s cs hs _ ih =>
    have hself : s.flatMap text = s := by
      have hall : ∀ c ∈ s, text c = [c] := fun c hc => hmulti c (hs.not_ascii c hc)
      rw [List.flatMap_congr hall, List.flatMap_singleton']
    rw [List.flatMap_append, hself]
    exact .multi hs ih

/-- Bytes below `0x80` in front say nothing about the rest. -/
lemma valid_ascii_append_iff {a b : List UInt8} (ha : a.all (· < 0x80) = true) :
    Valid (a ++ b) ↔ Valid b :=
  ⟨fun h => h.of_append_right' fun c hc => of_decide_eq_true (List.all_eq_true.mp ha c hc),
    fun h => (valid_of_all ha).append h⟩

/-- A string is well formed when its halves are, where the second starts below `0x80`. -/
lemma valid_append_iff {a b : List UInt8} (hb : ∀ c ∈ b.head?, c < 0x80) :
    Valid (a ++ b) ↔ Valid a ∧ Valid b :=
  ⟨fun h => ⟨h.of_append_left hb, h.of_append_right hb⟩, fun h => h.1.append h.2⟩

/-- The parts between separators below `0x80`. -/
lemma valid_intercalate_iff {c : UInt8} (hc : c < 0x80) (parts : List (List UInt8)) :
    Valid ([c].intercalate parts) ↔ ∀ s ∈ parts, Valid s := by
  match parts with
  | [] => simpa [List.intercalate] using Valid.nil
  | [s] => simp [List.intercalate]
  | s :: s' :: parts =>
    have hcons : [c].intercalate (s :: s' :: parts) = s ++ c :: [c].intercalate (s' :: parts) := by
      simp [List.intercalate]
    rw [hcons, valid_append_cons_iff hc, valid_intercalate_iff hc (s' :: parts)]
    simp

section Mapped

variable {text : UInt8 → List UInt8}

/-- Bytes from `0x80` on in the image of such a mapping are those of the source. -/
lemma exists_of_flatMap_eq (hne : ∀ c, c < 0x80 → text c ≠ [])
    (hascii : ∀ c, c < 0x80 → ∀ d ∈ text c, d < 0x80) (hmulti : ∀ c, ¬ c < 0x80 → text c = [c])
    {m r s : List UInt8} (hm : ∀ c ∈ m, ¬ c < 0x80) (h : s.flatMap text = m ++ r) :
    ∃ s', s = m ++ s' ∧ s'.flatMap text = r := by
  induction m generalizing s with
  | nil => exact ⟨s, rfl, h⟩
  | cons d m ih =>
    cases s with
    | nil => simp at h
    | cons c s =>
      rw [List.flatMap_cons] at h
      by_cases hc : c < 0x80
      · obtain ⟨e, es, he⟩ := List.exists_cons_of_ne_nil (hne c hc)
        rw [he] at h
        obtain ⟨rfl, -⟩ := List.cons.inj h
        exact absurd (hascii c hc e (by simp [he])) (hm e (by simp))
      · rw [hmulti c hc] at h
        obtain ⟨rfl, htail⟩ := List.cons.inj h
        obtain ⟨s', rfl, hs'⟩ := ih (fun e he => hm e (by simp [he])) htail
        exact ⟨s', rfl, hs'⟩

/-- Such a mapping keeps text well formed, and ill formed. -/
lemma valid_flatMap_iff (hne : ∀ c, c < 0x80 → text c ≠ [])
    (hascii : ∀ c, c < 0x80 → ∀ d ∈ text c, d < 0x80) (hmulti : ∀ c, ¬ c < 0x80 → text c = [c])
    (s : List UInt8) : Valid (s.flatMap text) ↔ Valid s := by
  refine ⟨fun h => ?_, fun h => h.flatMap hascii hmulti⟩
  generalize hx : s.flatMap text = x at h
  induction hn : s.length using Nat.strongRecOn generalizing s x with
  | _ n ih =>
    cases s with
    | nil => exact .nil
    | cons c s =>
      rw [List.flatMap_cons] at hx
      by_cases hc : c < 0x80
      · have hrest : Valid (s.flatMap text) := by
          rw [← hx] at h
          exact h.of_append_right' (hascii c hc)
        exact .ascii hc (ih s.length (by simp [← hn]) s _ rfl hrest rfl)
      · rw [hmulti c hc] at hx
        cases h with
        | nil => simp at hx
        | ascii hd =>
          obtain ⟨rfl, -⟩ := List.cons.inj hx
          exact absurd hd hc
        | @multi m r hm hr =>
          have hsource : (c :: s).flatMap text = m ++ r := by
            rw [List.flatMap_cons, hmulti c hc]
            exact hx
          obtain ⟨s', heq, hs'⟩ := exists_of_flatMap_eq hne hascii hmulti hm.not_ascii hsource
          rw [heq]
          refine .multi hm (ih s'.length ?_ s' r hs' hr rfl)
          have hpos : 0 < m.length := by cases hm <;> simp
          rw [← hn, heq, List.length_append]
          omega

end Mapped

/-! ## Where a string stops being well formed -/

/-- One well-formed sequence. -/
def IsSequence (s : List UInt8) : Prop := (∃ c, c < 0x80 ∧ s = [c]) ∨ Multi s

/-- The first ill-formed sequence starts at the offset `i`: what stands in front is well formed,
and no well-formed sequence starts there. -/
structure IllFormedAt (t : List UInt8) (i : ℕ) : Prop where
  /-- There is a byte. -/
  lt : i < t.length
  /-- The bytes in front. -/
  front : Valid (t.take i)
  /-- No well-formed sequence starts at `i`. -/
  stuck : ∀ s, IsSequence s → ¬ s <+: t.drop i

/-- A well-formed string is empty or starts with a well-formed sequence. -/
lemma Valid.cases_front {t : List UInt8} (h : Valid t) (hne : t ≠ []) :
    ∃ s r, IsSequence s ∧ t = s ++ r ∧ Valid r := by
  cases h with
  | nil => exact absurd rfl hne
  | @ascii c cs hc h => exact ⟨[c], cs, Or.inl ⟨c, hc, rfl⟩, rfl, h⟩
  | @multi s cs hs h => exact ⟨s, cs, Or.inr hs, rfl, h⟩

/-- What follows a well-formed sequence in a well-formed string. -/
lemma Valid.of_sequence {s r : List UInt8} (hs : IsSequence s) (h : Valid (s ++ r)) :
    Valid r := by
  rcases hs with ⟨c, hc, rfl⟩ | hs
  · exact h.tail hc
  · exact h.of_multi hs

/-- The rest of a well-formed string behind a well-formed front. -/
lemma Valid.of_front {a r : List UInt8} (ha : Valid a) (h : Valid (a ++ r)) : Valid r := by
  induction ha with
  | nil => exact h
  | ascii hc _ ih => exact ih (h.tail hc)
  | multi hs _ ih =>
    rw [List.append_assoc] at h
    exact ih (h.of_multi hs)

/-- A string with an ill-formed sequence is ill formed. -/
lemma IllFormedAt.not_valid {t : List UInt8} {i : ℕ} (h : IllFormedAt t i) : ¬ Valid t := by
  intro hvalid
  rw [← List.take_append_drop i t] at hvalid
  have hrest := Valid.of_front h.front hvalid
  have hne : t.drop i ≠ [] := by
    rw [Ne, List.drop_eq_nil_iff]
    exact Nat.not_le.mpr h.lt
  obtain ⟨s, r, hs, heq, -⟩ := hrest.cases_front hne
  exact h.stuck s hs ⟨r, heq.symm⟩

/-- There is one first ill-formed sequence. -/
lemma IllFormedAt.unique {t : List UInt8} {i j : ℕ} (hi : IllFormedAt t i)
    (hj : IllFormedAt t j) : i = j := by
  have hle : ∀ {i j : ℕ}, IllFormedAt t i → IllFormedAt t j → j ≤ i := by
    intro i j hi hj
    by_contra hlt
    rw [Nat.not_le] at hlt
    -- the front of the later one goes on behind the front of the earlier one
    have hsplit : t.take j = t.take i ++ (t.drop i).take (j - i) := by
      rw [← List.take_append_drop i (t.take j), List.take_take, Nat.min_eq_left (Nat.le_of_lt hlt),
        List.drop_take]
    have hfront := hj.front
    rw [hsplit] at hfront
    have hrest := Valid.of_front hi.front hfront
    have hne : (t.drop i).take (j - i) ≠ [] := by
      have hlen := hi.lt
      rw [Ne, List.take_eq_nil_iff, List.drop_eq_nil_iff]
      omega
    obtain ⟨s, r, hs, heq, -⟩ := hrest.cases_front hne
    refine hi.stuck s hs ?_
    exact List.IsPrefix.trans ⟨r, heq.symm⟩ (List.take_prefix _ _)
  exact Nat.le_antisymm (hle hj hi) (hle hi hj)

end Utf8
