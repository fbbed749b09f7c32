import Teptris.Emit.Scalars
import Teptris.Library.Toml

/-!
# Numbers and their grammar

What the routines behind `teptris_parse_number` read, and the kinds of value they make.
-/

namespace Teptris

/-! ## Kinds -/

/-- An integer or a float. -/
def Node.IsNumber : Node → Prop
  | .integer _ | .float _ => True
  | _ => False

section Kinds

variable {fc : FloatConv} {r q : Bytes} {v : Node}

lemma isNumber_signedInteger {neg : Bool} {mag : ℕ} (h : signedInteger neg mag r = .ok (v, q)) :
    v.IsNumber := by
  unfold signedInteger at h
  split_ifs at h with hneg hmin hmax
  · exact absurd h failAt_ne_ok
  · obtain ⟨rfl, -⟩ := Prod.mk.inj (Except.ok.inj h)
    trivial
  · obtain ⟨rfl, -⟩ := Prod.mk.inj (Except.ok.inj h)
    trivial
  · exact absurd h failAt_ne_ok
  · obtain ⟨rfl, -⟩ := Prod.mk.inj (Except.ok.inj h)
    trivial

lemma isNumber_slowDecimal {neg : Bool} (h : slowDecimal fc neg r = .ok (v, q)) : v.IsNumber := by
  unfold slowDecimal at h
  split at h
  · cases h
  · next buf s hrun =>
    by_cases hzero : buf.head? = some Ch.zero ∧ 1 < buf.length
    · rw [if_pos hzero] at h
      exact absurd h failAt_ne_ok
    rw [if_neg hzero] at h
    by_cases hmark : atFloatMark s = true
    · rw [if_pos hmark] at h
      split at h
      · cases h
      · split at h
        · cases h
        · obtain ⟨rfl, -⟩ := Prod.mk.inj (Except.ok.inj h)
          trivial
    · rw [if_neg hmark] at h
      split at h
      · exact absurd h failAt_ne_ok
      · exact isNumber_signedInteger h

lemma isNumber_radixInteger {radix : ℕ} (h : radixInteger radix r = .ok (v, q)) : v.IsNumber := by
  unfold radixInteger at h
  split at h
  · cases h
  · split at h
    · exact absurd h failAt_ne_ok
    · split_ifs at h
      · exact absurd h failAt_ne_ok
      · obtain ⟨rfl, -⟩ := Prod.mk.inj (Except.ok.inj h)
        trivial

lemma isNumber_decimal {signedInput neg : Bool} (h : decimal fc signedInput neg r = .ok (v, q)) :
    v.IsNumber := by
  unfold decimal at h
  dsimp only at h
  split_ifs at h with hplain hzero hmark hneg
  · exact absurd h failAt_ne_ok
  · unfold decimalFloat at h
    split at h
    · obtain ⟨rfl, -⟩ := Prod.mk.inj (Except.ok.inj h)
      trivial
    · split at h
      · cases h
      · obtain ⟨rfl, -⟩ := Prod.mk.inj (Except.ok.inj h)
        trivial
      · exact isNumber_slowDecimal h
  · obtain ⟨rfl, -⟩ := Prod.mk.inj (Except.ok.inj h)
    trivial
  · obtain ⟨rfl, -⟩ := Prod.mk.inj (Except.ok.inj h)
    trivial
  · exact isNumber_slowDecimal h

lemma isNumber_parseUnsigned {signedInput neg : Bool}
    (h : parseUnsigned fc signedInput neg r = .ok (v, q)) : v.IsNumber := by
  unfold parseUnsigned at h
  split at h
  · exact absurd h failAt_ne_ok
  · next c cs =>
    have hword : ∀ {f : Double} {w : Bytes}, (expectWord w (c :: cs)).map (fun r => (.float f, r)) =
        .ok (v, q) → v.IsNumber := by
      intro f w hmap
      obtain ⟨s, -, heq⟩ := map_eq_ok_iff.mp hmap
      obtain ⟨rfl, -⟩ := Prod.mk.inj heq
      trivial
    by_cases hinf : c = 0x69
    · rw [if_pos hinf] at h
      exact hword h
    rw [if_neg hinf] at h
    by_cases hnan : c = 0x6E
    · rw [if_pos hnan] at h
      exact hword h
    rw [if_neg hnan] at h
    by_cases hdec : (!isDec c) = true
    · rw [if_pos hdec] at h
      exact absurd h failAt_ne_ok
    rw [if_neg hdec] at h
    split at h
    · split_ifs at h
      · exact absurd h failAt_ne_ok
      · exact isNumber_radixInteger h
    · exact isNumber_decimal h

/-- `teptris_parse_number` makes a number. -/
lemma isNumber_parseNumber {signedInput : Bool} (h : parseNumber fc signedInput r = .ok (v, q)) :
    v.IsNumber := by
  unfold parseNumber at h
  split_ifs at h
  · exact isNumber_parseUnsigned h
  · exact isNumber_parseUnsigned h

lemma parseString_kind (h : parseString r = .ok (v, q)) : ∃ s, v = .string s := by
  unfold parseString at h
  dsimp only at h
  split at h
  · cases h
  · obtain ⟨rfl, -⟩ := Prod.mk.inj (Except.ok.inj h)
    exact ⟨_, rfl⟩

lemma parseOffset_kind {start : Bytes} {dt : Datetime} (h : parseOffset start r dt = .ok (v, q)) :
    ∃ kind dt', v = .datetime kind dt' := by
  unfold parseOffset at h
  by_cases hz : r.head? = some 0x5A ∨ r.head? = some 0x7A
  · rw [if_pos hz] at h
    obtain ⟨rfl, -⟩ := Prod.mk.inj (Except.ok.inj h)
    exact ⟨_, _, rfl⟩
  rw [if_neg hz] at h
  by_cases hoffset : hasOffset r = true
  · rw [if_pos hoffset] at h
    dsimp only at h
    by_cases hrange : 23 < d2 r 1 ∨ 59 < d2 r 4
    · rw [if_pos hrange] at h
      exact absurd h failAt_ne_ok
    rw [if_neg hrange] at h
    obtain ⟨rfl, -⟩ := Prod.mk.inj (Except.ok.inj h)
    exact ⟨_, _, rfl⟩
  rw [if_neg hoffset] at h
  obtain ⟨rfl, -⟩ := Prod.mk.inj (Except.ok.inj h)
  exact ⟨_, _, rfl⟩

/-- `teptris_parse_datetime` makes a date-time. -/
lemma parseDatetime_kind (h : parseDatetime r = .ok (v, q)) : ∃ kind dt, v = .datetime kind dt := by
  unfold parseDatetime at h
  split_ifs at h
  · unfold parseDateLed at h
    dsimp only at h
    split_ifs at h
    · exact absurd h failAt_ne_ok
    · exact absurd h failAt_ne_ok
    · obtain ⟨rfl, -⟩ := Prod.mk.inj (Except.ok.inj h)
      exact ⟨_, _, rfl⟩
    · split at h
      · cases h
      · split at h
        · cases h
        · exact parseOffset_kind h
  · unfold parseTimeOnly at h
    split at h
    · cases h
    · split at h
      · cases h
      · obtain ⟨rfl, -⟩ := Prod.mk.inj (Except.ok.inj h)
        exact ⟨_, _, rfl⟩

end Kinds

/-! ## The dispatch -/

/-- A value that starts like a date or a time starts with a digit. -/
lemma lookahead_dec {r : Bytes} (h : datetimeLookahead r = true) :
    ∃ c cs, r = c :: cs ∧ isDec c = true := by
  have hfirst : digAt r 0 = true := by
    rw [datetimeLookahead, Bool.or_eq_true] at h
    rcases h with h | h
    · simp only [dateShape, Bool.and_eq_true] at h
      exact h.1.1.1.1.1.1.1.2
    · simp only [timeShape, Bool.and_eq_true] at h
      exact h.1.1.1.2
  cases r with
  | nil => exact absurd hfirst (by decide)
  | cons c cs => exact ⟨c, cs, rfl, hfirst⟩

/-- A value that is a number or a date-time comes from `teptris_parse_number` or
`teptris_parse_datetime`. -/
lemma valueDispatch_scalar_iff {fc : FloatConv} {array inline : Bytes → Res Node} {r q : Bytes}
    {v : Node} (hstring : ∀ s, v ≠ .string s) (hboolean : ∀ b, v ≠ .boolean b)
    (harray : array r ≠ .ok (v, q)) (hinline : inline r ≠ .ok (v, q)) :
    valueDispatch fc array inline r = .ok (v, q) ↔ ∃ c cs, r = c :: cs ∧
      ((c = Ch.plus ∨ c = Ch.minus) ∧ parseNumber fc true r = .ok (v, q) ∨
        (c = 0x69 ∨ c = 0x6E) ∧ parseNumber fc false r = .ok (v, q) ∨
        isDec c = true ∧ datetimeLookahead r = true ∧ parseDatetime r = .ok (v, q) ∨
        isDec c = true ∧ datetimeLookahead r = false ∧ parseNumber fc false r = .ok (v, q)) := by
  have hquote : parseString r ≠ .ok (v, q) := by
    intro h
    obtain ⟨s, hs⟩ := parseString_kind h
    exact hstring s hs
  have hword : ∀ b w, (expectWord w r).map (fun r => (Node.boolean b, r)) ≠ .ok (v, q) := by
    intro b w h
    obtain ⟨s, -, heq⟩ := map_eq_ok_iff.mp h
    exact hboolean b (Prod.mk.inj heq).1.symm
  constructor
  · intro h
    cases r with
    | nil => exact absurd h failAt_ne_ok
    | cons c cs =>
      unfold valueDispatch at h
      dsimp only at h
      by_cases hquoted : c = Ch.dquote ∨ c = Ch.squote
      · rw [if_pos hquoted] at h
        exact absurd h hquote
      rw [if_neg hquoted] at h
      by_cases hopen : c = Ch.lbrack
      · rw [if_pos hopen] at h
        exact absurd h harray
      rw [if_neg hopen] at h
      by_cases hbrace : c = Ch.lbrace
      · rw [if_pos hbrace] at h
        exact absurd h hinline
      rw [if_neg hbrace] at h
      by_cases htrue : c = 0x74
      · rw [if_pos htrue] at h
        exact absurd h (hword _ _)
      rw [if_neg htrue] at h
      by_cases hfalse : c = 0x66
      · rw [if_pos hfalse] at h
        exact absurd h (hword _ _)
      rw [if_neg hfalse] at h
      refine ⟨c, cs, rfl, ?_⟩
      by_cases hspecial : c = 0x69 ∨ c = 0x6E
      · rw [if_pos hspecial] at h
        exact .inr (.inl ⟨hspecial, h⟩)
      rw [if_neg hspecial] at h
      by_cases hsign : c = Ch.plus ∨ c = Ch.minus
      · rw [if_pos hsign] at h
        exact .inl ⟨hsign, h⟩
      rw [if_neg hsign] at h
      by_cases hlook : datetimeLookahead (c :: cs) = true
      · rw [if_pos hlook] at h
        obtain ⟨c', cs', heq, hc⟩ := lookahead_dec hlook
        obtain ⟨rfl, rfl⟩ := List.cons.inj heq
        exact .inr (.inr (.inl ⟨hc, hlook, h⟩))
      rw [if_neg hlook] at h
      by_cases hdec : isDec c = true
      · rw [if_pos hdec] at h
        exact .inr (.inr (.inr ⟨hdec, by simpa using hlook, h⟩))
      rw [if_neg hdec] at h
      exact absurd h failAt_ne_ok
  · rintro ⟨c, cs, rfl, ⟨hsign, h⟩ | ⟨hspecial, h⟩ | ⟨hc, hlook, h⟩ | ⟨hc, hlook, h⟩⟩
    · rw [← h]
      rcases hsign with rfl | rfl <;> rfl
    · rw [← h]
      rcases hspecial with rfl | rfl <;> rfl
    · rw [valueDispatch_digit fc array inline hc, if_pos hlook, h]
    · rw [valueDispatch_digit fc array inline hc, hlook, if_neg (by decide), h]

/-- The arrays and inline tables of a value are no scalars. -/
lemma parseValue_scalar_iff {cfg : Config} {cp : Bytes} {levels : ℕ} {r q : Bytes} {v : Node}
    (hstring : ∀ s, v ≠ .string s) (hboolean : ∀ b, v ≠ .boolean b)
    (harray : ∀ items, v ≠ .array false items) (htable : ∀ es, v ≠ .table .inline es) :
    parseValue cfg cp levels r = .ok (v, q) ↔ ∃ c cs, r = c :: cs ∧
      ((c = Ch.plus ∨ c = Ch.minus) ∧ parseNumber cfg.fc true r = .ok (v, q) ∨
        (c = 0x69 ∨ c = 0x6E) ∧ parseNumber cfg.fc false r = .ok (v, q) ∨
        isDec c = true ∧ datetimeLookahead r = true ∧ parseDatetime r = .ok (v, q) ∨
        isDec c = true ∧ datetimeLookahead r = false ∧
          parseNumber cfg.fc false r = .ok (v, q)) := by
  cases levels with
  | zero => exact valueDispatch_scalar_iff hstring hboolean failAt_ne_ok failAt_ne_ok
  | succ levels =>
    refine valueDispatch_scalar_iff hstring hboolean (fun h => ?_) fun h => ?_
    · unfold arrayBody at h
      split at h
      · cases h
      · exact harray _ (Prod.mk.inj (Except.ok.inj h)).1.symm
    · unfold inlineBody at h
      split at h
      · cases h
      · exact htable _ (Prod.mk.inj (Except.ok.inj h)).1.symm

end Teptris
