import Teptris.Dom.Tree
import Teptris.Parse.Reachable

/-!
# The UTF-8 check

`validate_utf8` accepts exactly the well-formed byte strings.
-/

namespace Teptris

open Loop

/-- A continuation byte, by its mask. -/
lemma cont_mask_iff (c : UInt8) : c &&& 0xC0 = 0x80 ↔ Utf8.IsCont c := by
  have hall : ∀ c : UInt8, c &&& 0xC0 = 0x80 ↔ 0x80 ≤ c ∧ c < 0xC0 := by decide +kernel
  exact hall c

/-- The six bits of a continuation byte. -/
lemma cont_bits {c : UInt8} (h : Utf8.IsCont c) : (c &&& 0x3F).toNat = c.toNat - 0x80 := by
  have hall : ∀ c : UInt8, 0x80 ≤ c ∧ c < 0xC0 → (c &&& 0x3F).toNat = c.toNat - 0x80 := by
    decide +kernel
  exact hall c h

/-- Six more bits of a code point. -/
lemma shift_or (cp : ℕ) {x : ℕ} (h : x < 64) : cp <<< 6 ||| x = cp * 64 + x := by
  rw [← Nat.shiftLeft_add_eq_or_of_lt (i := 6) h, Nat.shiftLeft_eq]

/-- The lead bytes of sequences of two, three and four bytes. -/
lemma utf8Lead_cases {c : UInt8} (need cp : ℕ) :
    utf8Lead c = some (need, cp) ↔
      (0xC0 ≤ c ∧ c ≤ 0xDF ∧ need = 1 ∧ cp = c.toNat - 0xC0) ∨
      (0xE0 ≤ c ∧ c ≤ 0xEF ∧ need = 2 ∧ cp = c.toNat - 0xE0) ∨
      (0xF0 ≤ c ∧ c ≤ 0xF7 ∧ need = 3 ∧ cp = c.toNat - 0xF0) := by
  have h2 : ∀ c : UInt8, (c &&& 0xE0 = 0xC0 ↔ 0xC0 ≤ c ∧ c ≤ 0xDF) ∧
      (0xC0 ≤ c ∧ c ≤ 0xDF → (c &&& 0x1F).toNat = c.toNat - 0xC0) := by decide +kernel
  have h3 : ∀ c : UInt8, (c &&& 0xF0 = 0xE0 ↔ 0xE0 ≤ c ∧ c ≤ 0xEF) ∧
      (0xE0 ≤ c ∧ c ≤ 0xEF → (c &&& 0x0F).toNat = c.toNat - 0xE0) := by decide +kernel
  have h4 : ∀ c : UInt8, (c &&& 0xF8 = 0xF0 ↔ 0xF0 ≤ c ∧ c ≤ 0xF7) ∧
      (0xF0 ≤ c ∧ c ≤ 0xF7 → (c &&& 0x07).toNat = c.toNat - 0xF0) := by decide +kernel
  obtain ⟨i2, b2⟩ := h2 c
  obtain ⟨i3, b3⟩ := h3 c
  obtain ⟨i4, b4⟩ := h4 c
  simp only [utf8Lead, i2, i3, i4]
  split_ifs with c2 c3 c4
  · rw [b2 c2]
    grind
  · rw [b3 c3]
    grind
  · rw [b4 c4]
    grind
  · grind

/-- One continuation byte. -/
lemma utf8Cont_succ {need cp : ℕ} {r : Bytes} {x : ℕ × Bytes} :
    utf8Cont (need + 1) cp r = some x ↔
      ∃ c cs, r = c :: cs ∧ Utf8.IsCont c ∧
        utf8Cont need (cp * 64 + (c.toNat - 0x80)) cs = some x := by
  obtain _ | ⟨c, cs⟩ := r
  · simp [utf8Cont]
  rw [utf8Cont]
  split_ifs with hc
  · have hcont := (cont_mask_iff c).mp hc
    have hlt : (c &&& 0x3F).toNat < 64 := by
      rw [cont_bits hcont]
      have : c.toNat < 0xC0 := UInt8.lt_iff_toNat_lt.mp hcont.2
      omega
    rw [shift_or cp hlt, cont_bits hcont]
    constructor
    · intro h
      exact ⟨c, cs, rfl, hcont, h⟩
    · rintro ⟨_, _, heq, -, h⟩
      obtain ⟨rfl, rfl⟩ := List.cons.inj heq
      exact h
  · constructor
    · intro h
      exact absurd h (by simp)
    · rintro ⟨_, _, heq, hcont, -⟩
      obtain ⟨rfl, rfl⟩ := List.cons.inj heq
      exact absurd ((cont_mask_iff c).mpr hcont) hc

/-- The sequences the check accepts behind a byte from `0x80` on. -/
lemma utf8Multi_iff {c : UInt8} {cs r : Bytes} :
    utf8Multi c cs = some r ↔ ∃ s, Utf8.Multi (c :: s) ∧ cs = s ++ r := by
  have toNat_le : ∀ {a b : UInt8}, a ≤ b ↔ a.toNat ≤ b.toNat := UInt8.le_iff_toNat_le
  have toNat_lt : ∀ {a b : UInt8}, a < b ↔ a.toNat < b.toNat := UInt8.lt_iff_toNat_lt
  constructor
  · intro h
    rw [utf8Multi] at h
    split at h
    · simp at h
    next need cp hlead =>
    split at h
    · simp at h
    next cp' r' hcont =>
    split_ifs at h with hbad
    obtain rfl := Option.some_inj.mp h
    rw [not_or, not_or] at hbad
    obtain ⟨hmin, hsur, hmax⟩ := hbad
    rcases (utf8Lead_cases need cp).mp hlead with ⟨ha, ha', hneed, hcp⟩ |
      ⟨ha, ha', hneed, hcp⟩ | ⟨ha, ha', hneed, hcp⟩
    all_goals
      rw [hneed, hcp] at hcont
      rw [hneed] at hmin
    · obtain ⟨b, bs, rfl, hb, heq⟩ := utf8Cont_succ.mp hcont
      rw [utf8Cont] at heq
      obtain ⟨hcp', rfl⟩ := Prod.mk.inj (Option.some_inj.mp heq)
      rw [← hcp'] at hmin hsur hmax
      refine ⟨[b], .two ?_ ha' hb, rfl⟩
      have hb' := hb.2
      simp only [utf8Min, toNat_le, toNat_lt] at *
      simp at *
      omega
    · obtain ⟨b, bs, rfl, hb, heq⟩ := utf8Cont_succ.mp hcont
      obtain ⟨d, ds, rfl, hd, heq⟩ := utf8Cont_succ.mp heq
      rw [utf8Cont] at heq
      obtain ⟨hcp', rfl⟩ := Prod.mk.inj (Option.some_inj.mp heq)
      rw [← hcp'] at hmin hsur hmax
      refine ⟨[b, d], .three ha ha' hb hd ?_ ?_, rfl⟩
      · rintro rfl
        obtain ⟨hb1, hb2⟩ := hb
        obtain ⟨hd1, hd2⟩ := hd
        simp only [utf8Min, toNat_le, toNat_lt] at *
        simp at *
        omega
      · rintro rfl
        obtain ⟨hb1, hb2⟩ := hb
        obtain ⟨hd1, hd2⟩ := hd
        simp only [utf8Min, toNat_le, toNat_lt] at *
        simp at *
        omega
    · obtain ⟨b, bs, rfl, hb, heq⟩ := utf8Cont_succ.mp hcont
      obtain ⟨d, ds, rfl, hd, heq⟩ := utf8Cont_succ.mp heq
      obtain ⟨e, es, rfl, he, heq⟩ := utf8Cont_succ.mp heq
      rw [utf8Cont] at heq
      obtain ⟨hcp', rfl⟩ := Prod.mk.inj (Option.some_inj.mp heq)
      rw [← hcp'] at hmin hsur hmax
      have hb1 := hb.1
      have hb2 := hb.2
      have hd2 := hd.2
      have he2 := he.2
      refine ⟨[b, d, e], .four ha ?_ hb hd he ?_ ?_, rfl⟩
      · simp only [utf8Min, toNat_le, toNat_lt] at *
        simp at *
        omega
      · rintro rfl
        simp only [utf8Min, toNat_le, toNat_lt] at *
        simp at *
        omega
      · rintro rfl
        simp only [utf8Min, toNat_le, toNat_lt] at *
        simp at *
        omega
  · rintro ⟨s, hs, rfl⟩
    rw [utf8Multi]
    cases hs with
    | @two _ b ha ha' hb =>
      rw [(utf8Lead_cases 1 (c.toNat - 0xC0)).mpr (.inl ⟨by grind, ha', rfl, rfl⟩)]
      have hcont : utf8Cont 1 (c.toNat - 0xC0) (b :: r) =
          some ((c.toNat - 0xC0) * 64 + (b.toNat - 0x80), r) :=
        utf8Cont_succ.mpr ⟨b, r, rfl, hb, rfl⟩
      simp only [List.cons_append, List.nil_append, hcont]
      have hb1 := hb.1
      have hb2 := hb.2
      rw [if_neg]
      simp only [utf8Min, toNat_le, toNat_lt] at *
      simp at *
      omega
    | @three _ b d ha ha' hb hd hmin hsur =>
      rw [(utf8Lead_cases 2 (c.toNat - 0xE0)).mpr (.inr (.inl ⟨ha, ha', rfl, rfl⟩))]
      have hcont : utf8Cont 2 (c.toNat - 0xE0) (b :: d :: r) =
          some (((c.toNat - 0xE0) * 64 + (b.toNat - 0x80)) * 64 + (d.toNat - 0x80), r) :=
        utf8Cont_succ.mpr ⟨b, _, rfl, hb, utf8Cont_succ.mpr ⟨d, r, rfl, hd, rfl⟩⟩
      simp only [List.cons_append, List.nil_append, hcont]
      have hb1 := hb.1
      have hb2 := hb.2
      have hd1 := hd.1
      have hd2 := hd.2
      rw [if_neg]
      simp only [utf8Min, toNat_le, toNat_lt, ← UInt8.toNat_inj] at *
      simp at *
      omega
    | @four _ b d e ha ha' hb hd he hmin hmax =>
      rw [(utf8Lead_cases 3 (c.toNat - 0xF0)).mpr (.inr (.inr ⟨ha, by grind, rfl, rfl⟩))]
      have hcont : utf8Cont 3 (c.toNat - 0xF0) (b :: d :: e :: r) =
          some ((((c.toNat - 0xF0) * 64 + (b.toNat - 0x80)) * 64 + (d.toNat - 0x80)) * 64 +
            (e.toNat - 0x80), r) :=
        utf8Cont_succ.mpr ⟨b, _, rfl, hb, utf8Cont_succ.mpr ⟨d, _, rfl, hd,
          utf8Cont_succ.mpr ⟨e, r, rfl, he, rfl⟩⟩⟩
      simp only [List.cons_append, List.nil_append, hcont]
      have hb1 := hb.1
      have hb2 := hb.2
      have hd1 := hd.1
      have hd2 := hd.2
      have he1 := he.1
      have he2 := he.2
      rw [if_neg]
      simp only [utf8Min, toNat_le, toNat_lt, ← UInt8.toNat_inj] at *
      simp at *
      omega

/-- A turn of the check reads one or more whole characters. -/
lemma utf8Turn_next {r r' : Bytes} (h : utf8Turn r = .ok (.next r')) :
    r'.length < r.length ∧ (Utf8.Valid r' → Utf8.Valid r) := by
  obtain ⟨hle, hvalid⟩ := skipAsciiWords_spec r
  have hback := hvalid.mp
  rw [utf8Turn] at h
  split at h
  · simp at h
  next c cs hskip =>
  rw [hskip, List.length_cons] at hle
  rw [hskip] at hback
  split_ifs at h with hc
  · obtain rfl : cs = r' := by simpa using h
    exact ⟨by omega, fun hv => hback (.ascii hc hv)⟩
  split at h
  · simp at h
  next r₁ hm =>
  obtain rfl : r₁ = r' := by simpa using h
  obtain ⟨s, hs, rfl⟩ := utf8Multi_iff.mp hm
  rw [List.length_append] at hle
  exact ⟨by omega, fun hv => hback (by simpa using Utf8.Valid.multi hs hv)⟩

/-- `validate_utf8` accepts exactly the well-formed byte strings. -/
theorem validateUtf8_iff (data : Bytes) : validateUtf8 data = .ok () ↔ Utf8.Valid data := by
  have hshrinks : Shrinks utf8Turn List.length := fun _ _ h => (utf8Turn_next h).1
  have hloop : loop utf8Turn [] List.length data = .ok () ↔ Utf8.Valid data := by
    refine loop_rec (P := fun r res => res = .ok () ↔ Utf8.Valid r) hshrinks ?_ ?_ ?_ data
    · -- a failing turn stands at a sequence that is not well formed
      intro r e h
      refine ⟨fun hres => absurd hres (by simp), fun hv => ?_⟩
      have hv' := (skipAsciiWords_spec r).2.mpr hv
      rw [utf8Turn] at h
      split at h
      · simp at h
      next c cs hskip =>
      rw [hskip] at hv'
      split_ifs at h with hc
      split at h
      next hm =>
        generalize hx : c :: cs = x at hv'
        cases hv' with
        | nil => simp at hx
        | ascii hd _ =>
          obtain ⟨rfl, -⟩ := List.cons.inj hx
          exact absurd hd hc
        | @multi s cs' hs _ =>
          obtain _ | ⟨d, s⟩ := s
          · cases hs
          · obtain ⟨rfl, rfl⟩ := List.cons.inj hx
            exact absurd (hm.symm.trans (utf8Multi_iff.mpr ⟨s, hs, rfl⟩)) (by simp)
      · simp at h
    · intro r b h
      refine ⟨fun _ => ?_, fun _ => rfl⟩
      have hback := (skipAsciiWords_spec r).2.mp
      rw [utf8Turn] at h
      split at h
      next hskip =>
        rw [hskip] at hback
        exact hback .nil
      · split_ifs at h
        · simp at h
        · split at h <;> simp at h
    · intro r r' res h hres
      rw [hres]
      refine ⟨(utf8Turn_next h).2, fun hv => ?_⟩
      have hv' := (skipAsciiWords_spec r).2.mpr hv
      rw [utf8Turn] at h
      split at h
      · simp at h
      next c cs hskip =>
      rw [hskip] at hv'
      split_ifs at h with hc
      · obtain rfl : cs = r' := by simpa using h
        exact hv'.tail hc
      split at h
      · simp at h
      next r₁ hm =>
      obtain rfl : r₁ = r' := by simpa using h
      obtain ⟨s, hs, rfl⟩ := utf8Multi_iff.mp hm
      exact Utf8.Valid.of_multi hs (by simpa using hv')
  rw [← hloop, validateUtf8]
  cases loop utf8Turn [] List.length data <;> simp [Except.mapError]

/-- The byte order mark is one character. -/
lemma skipBom_valid {data : Bytes} (h : Utf8.Valid data) : Utf8.Valid (skipBom data) := by
  rw [skipBom]
  split_ifs with hb
  · obtain ⟨t, rfl⟩ := hb
    have hbom : Utf8.Multi bom :=
      .three (by decide) (by decide) ⟨by decide, by decide⟩ ⟨by decide, by decide⟩
        (by decide) (by decide)
    exact Utf8.Valid.of_multi hbom h
  · exact h

/-! ## Reachable states -/

/-- The states between two lines of the document `data`. -/
inductive Reachable (cfg : Config) (data : Bytes) : PState → Prop
  /-- Behind the byte order mark of a well-formed text. -/
  | init (h : validateUtf8 data = .ok ()) : Reachable cfg data (PState.init (skipBom data))
  /-- One turn of the line loop later. -/
  | step {s s' : PState} (hs : Reachable cfg data s) (h : lineTurn cfg s = .ok (.next s')) :
      Reachable cfg data s'

/-- Every reachable state is well formed. -/
theorem Reachable.ok {cfg : Config} {data : Bytes} {s : PState} (h : Reachable cfg data s) :
    s.Ok := by
  induction h with
  | init h =>
    exact ⟨skipBom_valid ((validateUtf8_iff data).mp h), GoodEntries.nil, trivial⟩
  | step _ h ih => exact (lineTurn_ok h).2 ih

/-- What `teptris_parse` returns is a well-formed tree. -/
theorem parse_good {cfg : Config} {data : Bytes} {n : Node} (h : parse cfg data = .ok n) :
    ∃ es, n = .table .explicit es ∧ GoodEntries IsEntry es := by
  obtain ⟨es, hrun, rfl⟩ := map_eq_ok_iff.mp h
  refine ⟨es, rfl, ?_⟩
  rw [parserRun] at hrun
  split at hrun
  · simp at hrun
  next hvalid =>
  have hinit : Reachable cfg data (PState.init (skipBom data)) := .init hvalid
  refine loop_invariant (I := PState.Ok) (Q := GoodEntries IsEntry)
    (fun s s' hs hturn => (lineTurn_ok hturn).2 hs) ?_ hinit.ok hrun
  intro s es hs hturn
  exact (lineTurn_stop hturn).1 ▸ hs.root

/-- No text `teptris_parse` accepts contains the byte DEL. -/
theorem parse_clean {cfg : Config} {data : Bytes} {n : Node} (h : parse cfg data = .ok n) :
    Ch.del ∉ data := by
  intro hdel
  obtain ⟨es, hrun, -⟩ := map_eq_ok_iff.mp h
  rw [parserRun] at hrun
  split at hrun
  · simp at hrun
  have hbom : Ch.del ∈ skipBom data := by
    rw [skipBom]
    split_ifs with hb
    · obtain ⟨t, rfl⟩ := hb
      exact (List.mem_append.mp hdel).resolve_left (by decide)
    · exact hdel
  -- the loop stops at the end of the input, and DEL is still ahead
  refine loop_invariant (I := fun s => Ch.del ∈ s.rest) (Q := fun _ => False)
    (fun s s' hs hturn => (lineTurn_ok hturn).1.clean hs) ?_ hbom hrun
  intro s es hs hturn
  have hws := (reaches_skipWs s.rest).clean hs
  rw [(lineTurn_stop hturn).2] at hws
  exact absurd hws List.not_mem_nil

/-- Every string value and every key of a document `teptris_parse` accepts, at any depth and
however it was written, is well-formed UTF-8. -/
theorem parse_texts_valid {cfg : Config} {data : Bytes} {n : Node} (h : parse cfg data = .ok n) :
    ∀ s ∈ n.tree.texts, Utf8.Valid s := by
  obtain ⟨es, rfl, hes⟩ := parse_good h
  intro s hs
  obtain ⟨e, he, rfl | hs⟩ := mem_texts_table.mp hs
  · exact hes.key e he
  · exact (hes.value e he).texts_valid s hs

/-- The document `a="\u00e9"` in bytes: a bare key, and a string that is rebuilt. -/
def escapedDocument : Bytes :=
  [0x61, Ch.eq, Ch.dquote, Ch.bslash, 0x75, 0x30, 0x30, 0x65, 0x39, Ch.dquote]

theorem parse_texts_valid_escaped :
    parse (.ofOptions .zero 0) escapedDocument =
        .ok (.table .explicit [(Key.ofBytes [0x61], .string [0xC3, 0xA9])]) ∧
      ∀ s ∈ (Node.table .explicit [(Key.ofBytes [0x61], .string [0xC3, 0xA9])]).tree.texts,
        Utf8.Valid s :=
  ⟨rfl, @parse_texts_valid (.ofOptions .zero 0) escapedDocument _ rfl⟩

/-- The state at the first byte of a line that is not white space. -/
def PState.atLine (s : PState) : PState := { s with rest := skipWs s.rest }

lemma PState.Ok.atLine {s : PState} (h : s.Ok) : s.atLine.Ok :=
  ⟨(reaches_skipWs s.rest).valid h.rest, h.root, h.cur⟩

end Teptris
