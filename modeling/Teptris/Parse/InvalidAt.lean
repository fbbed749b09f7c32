import Teptris.Parse.Encoding

/-!
# The offset of invalid UTF-8

`utf8_invalid_at` returns the offset of the first ill-formed sequence, with and without its
eight-byte steps.
-/

namespace Teptris

open Loop

/-- `utf8_invalid_at`. -/
def utf8InvalidAt (data : Bytes) : ℕ :=
  match loop utf8Turn [] List.length data with
  | .ok () => data.length
  | .error rest => data.length - rest.length

/-- One turn of the byte loop alone. -/
def utf8ByteTurn (r : Bytes) : Except Bytes (Turn Bytes Unit) :=
  match r with
  | [] => .ok (.stop ())
  | c :: cs =>
    if c < 0x80 then .ok (.next cs)
    else match utf8Multi c cs with
      | none => .error (c :: cs)
      | some r => .ok (.next r)

/-- `utf8_invalid_at` without the eight-byte steps. -/
def utf8InvalidAtBytewise (data : Bytes) : ℕ :=
  match loop utf8ByteTurn [] List.length data with
  | .ok () => data.length
  | .error rest => data.length - rest.length

/-- The eight-byte steps skip bytes below `0x80`. -/
lemma skipAsciiWords_front (r : Bytes) :
    ∃ a : Bytes, (∀ c ∈ a, c < 0x80) ∧ r = a ++ skipAsciiWords r := by
  fun_induction skipAsciiWords r with
  | case1 c0 c1 c2 c3 c4 c5 c6 c7 cs hall ih =>
    obtain ⟨a, ha, heq⟩ := ih
    refine ⟨[c0, c1, c2, c3, c4, c5, c6, c7] ++ a, fun c hc => ?_, ?_⟩
    · rcases List.mem_append.mp hc with hc | hc
      · exact of_decide_eq_true (List.all_eq_true.mp hall c hc)
      · exact ha c hc
    · rw [List.append_assoc, ← heq]
      rfl
  | case2 => exact ⟨[], by simp, rfl⟩
  | case3 => exact ⟨[], by simp, rfl⟩

/-- A byte step that goes on takes one well-formed sequence. -/
lemma utf8ByteTurn_next {r r' : Bytes} :
    utf8ByteTurn r = .ok (.next r') ↔ ∃ s, Utf8.IsSequence s ∧ r = s ++ r' := by
  constructor
  · intro h
    match r with
    | [] => simp [utf8ByteTurn] at h
    | c :: cs =>
      rw [utf8ByteTurn] at h
      by_cases hc : c < 0x80
      · rw [if_pos hc] at h
        obtain rfl : cs = r' := by simpa using h
        exact ⟨[c], Or.inl ⟨c, hc, rfl⟩, rfl⟩
      · rw [if_neg hc] at h
        cases hm : utf8Multi c cs with
        | none => simp [hm] at h
        | some r₁ =>
          obtain rfl : r₁ = r' := by simpa [hm] using h
          obtain ⟨s, hs, rfl⟩ := utf8Multi_iff.mp hm
          exact ⟨c :: s, Or.inr hs, rfl⟩
  · rintro ⟨s, ⟨c, hc, rfl⟩ | hs, rfl⟩
    · rw [List.singleton_append, utf8ByteTurn, if_pos hc]
    · match s, hs with
      | c :: s, hs =>
        have hc : ¬ c < 0x80 := hs.not_ascii c (by simp)
        have hm : utf8Multi c (s ++ r') = some r' := utf8Multi_iff.mpr ⟨s, hs, rfl⟩
        rw [List.cons_append, utf8ByteTurn, if_neg hc, hm]

/-- A byte step stops at the end. -/
lemma utf8ByteTurn_stop {r : Bytes} {b : Unit} : utf8ByteTurn r = .ok (.stop b) ↔ r = [] := by
  match r with
  | [] => simp [utf8ByteTurn]
  | c :: cs =>
    rw [utf8ByteTurn]
    split_ifs
    · simp
    · cases utf8Multi c cs <;> simp

/-- A byte step that fails stands at an ill-formed sequence. -/
lemma utf8ByteTurn_error {r e : Bytes} (h : utf8ByteTurn r = .error e) :
    e = r ∧ r ≠ [] ∧ ∀ s, Utf8.IsSequence s → ¬ s <+: r := by
  have hsame : e = r := by
    match r with
    | [] => simp [utf8ByteTurn] at h
    | c :: cs =>
      rw [utf8ByteTurn] at h
      split_ifs at h
      cases hm : utf8Multi c cs with
      | none => simpa [hm, eq_comm] using h
      | some r₁ => simp [hm] at h
  refine ⟨hsame, ?_, ?_⟩
  · rintro rfl
    simp [utf8ByteTurn] at h
  · rintro s hs ⟨r', rfl⟩
    rw [utf8ByteTurn_next.mpr ⟨s, hs, rfl⟩] at h
    cases h

lemma utf8ByteTurn_shrinks : Shrinks utf8ByteTurn List.length := by
  intro r r' h
  obtain ⟨s, hs, rfl⟩ := utf8ByteTurn_next.mp h
  have hpos : 0 < s.length := by
    rcases hs with ⟨c, -, rfl⟩ | hs
    · simp
    · cases hs <;> simp
  rw [List.length_append]
  omega

/-- Bytes below `0x80` are taken one by one. -/
lemma bytewise_ascii {a : Bytes} (ha : ∀ c ∈ a, c < 0x80) (r : Bytes) :
    loop utf8ByteTurn [] List.length (a ++ r) = loop utf8ByteTurn [] List.length r := by
  induction a with
  | nil => rfl
  | cons c a ih =>
    have hc : c < 0x80 := ha c (by simp)
    have hone : utf8ByteTurn (c :: (a ++ r)) = .ok (.next (a ++ r)) := by
      rw [utf8ByteTurn, if_pos hc]
    rw [List.cons_append, loop_next utf8ByteTurn_shrinks hone]
    exact ih fun d hd => ha d (by simp [hd])

/-- The eight-byte steps never change where the loop ends. -/
lemma bytewise_eq (data : Bytes) :
    loop utf8Turn [] List.length data = loop utf8ByteTurn [] List.length data := by
  have hturn : ∀ r, utf8Turn r = utf8ByteTurn (skipAsciiWords r) := fun _ => rfl
  have hskip : ∀ r, loop utf8ByteTurn [] List.length r =
      loop utf8ByteTurn [] List.length (skipAsciiWords r) := by
    intro r
    obtain ⟨a, ha, heq⟩ := skipAsciiWords_front r
    conv_lhs => rw [heq]
    exact bytewise_ascii ha _
  have hshrinks : Shrinks utf8Turn List.length := fun _ _ h => (utf8Turn_next h).1
  refine loop_rec (P := fun r res => res = loop utf8ByteTurn [] List.length r) hshrinks
    ?_ ?_ ?_ data
  · intro r e h
    rw [hskip]
    exact (loop_error ((hturn r).symm.trans h)).symm
  · intro r b h
    rw [hskip]
    exact (loop_stop ((hturn r).symm.trans h)).symm
  · intro r r' res h hres
    rw [hres, hskip r]
    exact (loop_next utf8ByteTurn_shrinks ((hturn r).symm.trans h)).symm

/-- The loop ends at the end of a well-formed string, or at the first ill-formed sequence. -/
lemma bytewise_spec (data : Bytes) :
    match loop utf8ByteTurn [] List.length data with
    | .ok () => Utf8.Valid data
    | .error rest => ∃ a, data = a ++ rest ∧ Utf8.Valid a ∧ rest ≠ [] ∧
        ∀ s, Utf8.IsSequence s → ¬ s <+: rest := by
  refine loop_rec (P := fun r res =>
    match res with
    | .ok () => Utf8.Valid r
    | .error rest => ∃ a, r = a ++ rest ∧ Utf8.Valid a ∧ rest ≠ [] ∧
        ∀ s, Utf8.IsSequence s → ¬ s <+: rest) utf8ByteTurn_shrinks ?_ ?_ ?_ data
  · intro r e h
    obtain ⟨rfl, hne, hstuck⟩ := utf8ByteTurn_error h
    exact ⟨[], rfl, .nil, hne, hstuck⟩
  · intro r b h
    obtain rfl := utf8ByteTurn_stop.mp h
    exact .nil
  · intro r r' res h hres
    obtain ⟨s, hs, rfl⟩ := utf8ByteTurn_next.mp h
    have hfront : Utf8.Valid s := by
      rcases hs with ⟨c, hc, rfl⟩ | hs
      · exact .ascii hc .nil
      · exact hs.valid
    match res, hres with
    | .ok (), hres => exact hfront.append hres
    | .error rest, ⟨a, heq, ha, hrest⟩ =>
      exact ⟨s ++ a, by rw [heq, List.append_assoc], hfront.append ha, hrest⟩

/-- `utf8_invalid_at` returns the length of a well-formed string and of no other; of any other
string it returns the offset of the first ill-formed sequence; and the eight-byte steps change
nothing. -/
theorem utf8InvalidAt_spec (data : Bytes) :
    (utf8InvalidAt data = data.length ↔ Utf8.Valid data) ∧
      (∀ i, Utf8.IllFormedAt data i ↔ ¬ Utf8.Valid data ∧ utf8InvalidAt data = i) ∧
      utf8InvalidAt data = utf8InvalidAtBytewise data := by
  have hsame : utf8InvalidAt data = utf8InvalidAtBytewise data := by
    rw [utf8InvalidAt, utf8InvalidAtBytewise, bytewise_eq]
  have hspec : (Utf8.Valid data ∧ utf8InvalidAt data = data.length) ∨
      Utf8.IllFormedAt data (utf8InvalidAt data) := by
    have h := bytewise_spec data
    rw [hsame, utf8InvalidAtBytewise]
    cases hloop : loop utf8ByteTurn [] List.length data with
    | ok u =>
      rw [hloop] at h
      exact Or.inl ⟨h, rfl⟩
    | error rest =>
      rw [hloop] at h
      obtain ⟨a, rfl, ha, hne, hstuck⟩ := h
      refine Or.inr ?_
      have hlen : (a ++ rest).length - rest.length = a.length := by
        rw [List.length_append, Nat.add_sub_cancel]
      have hpos : 0 < rest.length := List.length_pos_iff.mpr hne
      dsimp only
      rw [hlen]
      refine ⟨by rw [List.length_append]; omega, by simpa using ha, ?_⟩
      simpa using hstuck
  refine ⟨?_, fun i => ?_, hsame⟩
  · rcases hspec with ⟨hvalid, heq⟩ | hill
    · simp [hvalid, heq]
    · have hlt := hill.lt
      simp only [hill.not_valid, iff_false]
      omega
  · constructor
    · intro hill
      rcases hspec with ⟨hvalid, -⟩ | hill'
      · exact absurd hvalid hill.not_valid
      · exact ⟨hill.not_valid, hill'.unique hill⟩
    · rintro ⟨hnot, rfl⟩
      exact hspec.resolve_left fun h => hnot h.1

end Teptris
