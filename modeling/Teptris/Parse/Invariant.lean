import Mathlib.Data.List.TakeWhile
import Teptris.Parse.Progress

/-!
# What every parsed value satisfies

Each value routine stops behind what it read, and from well-formed text it builds a well-formed
value (`parseValue_spec`).  With `GoodEntries` for the open table this carries over to key/value
pairs, headers and the line loop: every state the loop reaches is `PState.Ok`.
-/

namespace Teptris

open Loop

/-- What `teptris_parse_value` returns: a value, and a table only if it is inline. -/
def GoodValue (v : Node) : Prop := IsValue v ∧ ∀ es, v ≠ .table .dotted es

/-! ## Strings -/

lemma plainShort_spec {close : UInt8} {r s : Bytes} (h : plainShort close r = some s) :
    r = s ++ close :: r.drop (s.length + 1) ∧
      ∀ c ∈ s, c ≠ close ∧ isControl c = false ∧ (close = Ch.dquote → c ≠ Ch.bslash) := by
  induction r generalizing s with
  | nil => simp [plainShort] at h
  | cons c cs ih =>
    rw [plainShort] at h
    split_ifs at h with hc hbad
    · obtain rfl := Option.some_inj.mp h
      simp [hc]
    · obtain ⟨t, ht, rfl⟩ := Option.map_eq_some_iff.mp h
      obtain ⟨hr, hall⟩ := ih ht
      simp only [Bool.or_eq_true, decide_eq_true_eq, not_or, Bool.not_eq_true] at hbad
      refine ⟨?_, ?_⟩
      · conv_lhs => rw [hr]
        simp
      · intro d hd
        rcases List.mem_cons.mp hd with rfl | hd
        · exact ⟨hc, hbad.2, fun _ => hbad.1⟩
        · exact hall d hd

/-- A plain body is followed by the closing quote, and holds no control byte and, where there are
escapes, no backslash. -/
lemma tryPlainBody_spec {close : UInt8} {r s : Bytes} (h : tryPlainBody close r = some s) :
    r = s ++ close :: r.drop (s.length + 1) ∧
      ∀ c ∈ s, c ≠ close ∧ isControl c = false ∧ (close = Ch.dquote → c ≠ Ch.bslash) := by
  rw [tryPlainBody] at h
  by_cases hlong : 32 ≤ r.length
  swap
  · rw [if_neg hlong] at h
    exact plainShort_spec h
  simp only [if_pos hlong] at h
  generalize hesc : (if close = Ch.dquote then Ch.bslash else (0 : UInt8)) = esc at h
  split_ifs at h with hend hstop
  obtain rfl := Option.some_inj.mp h
  have hlt : r.findIdx (· == close) < r.length :=
    lt_of_le_of_ne List.findIdx_le_length hend
  have hget : r[r.findIdx (· == close)] = close := by
    simpa using List.findIdx_getElem (w := hlt)
  have hlen : (r.take (r.findIdx (· == close))).length = r.findIdx (· == close) := by
    rw [List.length_take, Nat.min_eq_left (Nat.le_of_lt hlt)]
  refine ⟨?_, ?_⟩
  · rw [hlen]
    conv_lhs =>
      rw [← List.take_append_drop (r.findIdx (· == close)) r, List.drop_eq_getElem_cons hlt,
        hget]
  · intro c hc
    obtain ⟨i, hi, rfl⟩ := List.getElem_of_mem hc
    have hi' : i < r.findIdx (· == close) := hlen ▸ hi
    have hle : i < simdStrStop esc 0 (r.take (r.findIdx (· == close))) :=
      lt_of_lt_of_le hi' (not_lt.mp hstop)
    have hstopped := List.not_of_lt_findIdx hle
    rw [Bool.or_eq_false_iff, Bool.or_eq_false_iff] at hstopped
    refine ⟨?_, hstopped.2, fun hclose => ?_⟩
    · have := List.not_of_lt_findIdx hi'
      simpa [List.getElem_take] using this
    · rw [if_pos hclose] at hesc
      simpa [← hesc] using hstopped.1.1

lemma singleLineBody_spec {basic : Bool} {r r' s : Bytes}
    (h : singleLineBody basic r = .ok (s, r')) :
    Behind r r' ∧ (Utf8.Valid r → Utf8.Valid s) := by
  rw [singleLineBody] at h
  cases hp : tryPlainBody (if basic then Ch.dquote else Ch.squote) r with
  | some t =>
    simp only [hp] at h
    obtain ⟨rfl, rfl⟩ : t = s ∧ r.drop (t.length + 1) = r' := by simpa using h
    have hr := (tryPlainBody_spec hp).1
    have hclose : (if basic then Ch.dquote else Ch.squote) < Ch.del := by
      cases basic <;> decide
    have hclean : Ch.del ∉ t := fun hmem =>
      absurd ((tryPlainBody_spec hp).2 _ hmem).2.1 (by decide)
    refine ⟨?_, fun hv => ?_⟩
    · have := behind_append (r := r.drop (t.length + 1)) hclean hclose
      rwa [← hr] at this
    · rw [hr] at hv
      exact (hv.split (ascii_of_lt hclose)).1
  | none =>
    simp only [hp] at h
    cases basic with
    | true => exact scanBasic_spec h
    | false => exact scanLiteral_spec h

lemma reaches_skipFirstNewline (r : Bytes) : Reaches r (skipFirstNewline r) := by
  rw [skipFirstNewline]
  split_ifs with h1 h2
  · exact (behind_drop_two h1.1 (by decide) h1.2 (by decide)).toReaches
  · exact (behind_drop_one h2 (by decide)).toReaches
  · exact Reaches.refl r

lemma parseString_spec {r r' : Bytes} {v : Node}
    (hr : r.head? = some Ch.dquote ∨ r.head? = some Ch.squote)
    (h : parseString r = .ok (v, r')) :
    Behind r r' ∧ (Utf8.Valid r → GoodValue v) := by
  obtain ⟨q, hq, hlt⟩ : ∃ q, r.head? = some q ∧ q < Ch.del := by
    rcases hr with hr | hr
    · exact ⟨_, hr, by decide⟩
    · exact ⟨_, hr, by decide⟩
  have hbody : ∀ {s s' : Bytes}, (Behind r s' ∧ (Utf8.Valid r → Utf8.Valid s)) →
      (.string s, s') = (v, r') → Behind r r' ∧ (Utf8.Valid r → GoodValue v) := by
    rintro s s' ⟨hb, hs⟩ heq
    obtain ⟨rfl, rfl⟩ := Prod.mk.inj heq
    exact ⟨hb, fun hv => ⟨.string (hs hv), by simp⟩⟩
  have hdrop : Behind r (r.drop 1) := behind_drop_one hq hlt
  have hopen : ∀ {s s' : Bytes}, r[1]? = r.head? → r[2]? = r.head? →
      Behind (skipFirstNewline (r.drop 3)) s' ∧
        (Utf8.Valid (skipFirstNewline (r.drop 3)) → Utf8.Valid s) →
      Behind r s' ∧ (Utf8.Valid r → Utf8.Valid s) := by
    rintro s s' h1 h2 ⟨hb, hs⟩
    have h3 : Behind r (r.drop 3) := by
      rw [show r.drop 3 = (r.drop 1).drop 2 by rw [List.drop_drop]]
      refine hdrop.trans (behind_drop_two (c := q) (d := q) ?_ hlt ?_ hlt)
      · rw [List.head?_drop, h1, hq]
      · rw [List.getElem?_drop, h2, hq]
    have hstart := h3.trans_reaches (reaches_skipFirstNewline (r.drop 3))
    exact ⟨hstart.trans hb, fun hv => hs (hstart.valid hv)⟩
  simp only [parseString] at h
  split at h
  · simp at h
  next s s' hres =>
  refine hbody ?_ (by simpa using h)
  split_ifs at hres with hml hbasic
  · simp only [Bool.and_eq_true, decide_eq_true_eq] at hml
    exact hopen hml.1.2 hml.2 (scanBasic_spec hres)
  · simp only [Bool.and_eq_true, decide_eq_true_eq] at hml
    exact hopen hml.1.2 hml.2 (scanLiteral_spec hres)
  · obtain ⟨hb, hs⟩ := singleLineBody_spec hres
    exact ⟨hdrop.trans hb, fun hv => hs (hdrop.valid hv)⟩

lemma quotedKey_spec {r r' s : Bytes} (hr : r.head? = some Ch.dquote ∨ r.head? = some Ch.squote)
    (h : quotedKey r = .ok (s, r')) : Behind r r' ∧ (Utf8.Valid r → Utf8.Valid s) := by
  have hdrop : Behind r (r.drop 1) := by
    rcases hr with hr | hr
    · exact behind_drop_one hr (by decide)
    · exact behind_drop_one hr (by decide)
  obtain ⟨hb, hs⟩ := singleLineBody_spec h
  exact ⟨hdrop.trans hb, fun hv => hs (hdrop.valid hv)⟩

/-! ## Numbers -/

/-- A word of ASCII bytes is read as a whole. -/
lemma expectWord_spec {w r r' : Bytes} (hne : w ≠ []) (hw : w.all (· < Ch.del) = true)
    (h : expectWord w r = .ok r') : Behind r r' := by
  rw [expectWord] at h
  split_ifs at h with hp
  swap
  · exact absurd h failAt_ne_ok
  obtain ⟨t, rfl⟩ := hp
  obtain rfl : t = r' := by simpa using h
  obtain ⟨w, c, rfl⟩ : ∃ w' c, w = w' ++ [c] := ⟨_, _, (List.dropLast_append_getLast hne).symm⟩
  rw [List.append_assoc]
  have hlt : ∀ d ∈ w ++ [c], d < Ch.del := by simpa using List.all_eq_true.mp hw
  refine behind_append (fun hmem => ?_) (hlt c (by simp))
  exact absurd (hlt _ (List.mem_append_left _ hmem)) (UInt8.lt_irrefl _)

lemma scanRunFrom_spec {radix : ℕ} {buf r b r' : Bytes} {pd : Bool}
    (h : scanRunFrom radix buf pd r = .ok (b, r')) :
    Reaches r r' ∧ b ≠ [] ∧ b.length + r'.length ≤ buf.length + r.length := by
  have hfinish : ∀ {buf pd r}, scanRunFrom.finish buf pd r = .ok (b, r') →
      Reaches r r' ∧ b ≠ [] ∧ b.length + r'.length ≤ buf.length + r.length := by
    intro buf pd r h
    rw [scanRunFrom.finish] at h
    split_ifs at h with h1 h2
    · exact absurd h failAt_ne_ok
    · exact absurd h failAt_ne_ok
    · obtain ⟨rfl, rfl⟩ : buf = b ∧ r = r' := by simpa using h
      exact ⟨Reaches.refl _, by simpa using h1, le_rfl⟩
  induction r generalizing buf pd with
  | nil => exact hfinish h
  | cons c cs ih =>
    rw [scanRunFrom] at h
    split_ifs at h with hd hmax hu hpd
    · exact absurd h failAt_ne_ok
    · obtain ⟨hr, hne, hlen⟩ := ih h
      refine ⟨(behind_cons (digitFor_lt hd)).toReaches.trans hr, hne, ?_⟩
      simp only [List.length_append, List.length_cons, List.length_nil] at hlen ⊢
      omega
    · exact absurd h failAt_ne_ok
    · obtain ⟨hr, hne, hlen⟩ := ih h
      refine ⟨(behind_cons (hu ▸ by decide)).toReaches.trans hr, hne, ?_⟩
      simp only [List.length_cons]
      omega
    · exact hfinish h

lemma scanRun_spec {radix : ℕ} {r b r' : Bytes} (h : scanRun radix r = .ok (b, r')) :
    Behind r r' := by
  obtain ⟨hr, hne, hlen⟩ := scanRunFrom_spec h
  have := List.length_pos_iff.mpr hne
  refine ⟨hr, ?_⟩
  simp only [List.length_nil] at hlen
  omega

lemma reaches_dropDigits (r : Bytes) : Reaches r (r.dropWhile isDec) :=
  reaches_dropWhile (fun _ => isDec_lt) r

lemma atExp_lt {r : Bytes} (h : atExp r = true) : Behind r (r.drop 1) := by
  simp only [atExp, Bool.or_eq_true, decide_eq_true_eq] at h
  rcases h with h | h
  · exact behind_drop_one h (by decide)
  · exact behind_drop_one h (by decide)

lemma atSign_lt {r : Bytes} (h : atSign r = true) : Behind r (r.drop 1) := by
  simp only [atSign, Bool.or_eq_true, decide_eq_true_eq] at h
  rcases h with h | h
  · exact behind_drop_one h (by decide)
  · exact behind_drop_one h (by decide)

/-- An optional sign is read. -/
lemma reaches_dropSign (r : Bytes) : Reaches r (if atSign r then r.drop 1 else r) := by
  split_ifs with h
  · exact (atSign_lt h).toReaches
  · exact Reaches.refl r

lemma reaches_fracSpan {r fd q : Bytes} (h : fracSpan r = some (fd, q)) : Reaches r q := by
  simp only [fracSpan] at h
  split_ifs at h with hdot hbad
  · obtain ⟨-, rfl⟩ := Prod.mk.inj (Option.some_inj.mp h)
    exact (behind_drop_one hdot (by decide)).toReaches.trans (reaches_dropDigits _)
  · obtain ⟨-, rfl⟩ := Prod.mk.inj (Option.some_inj.mp h)
    exact Reaches.refl _

lemma reaches_expSpan {r q : Bytes} {e : ℤ} (h : expSpan r = some (e, q)) : Reaches r q := by
  rw [expSpan] at h
  by_cases he : atExp r = true
  · simp only [if_pos he] at h
    have hsign := (atExp_lt he).toReaches.trans (reaches_dropSign (r.drop 1))
    generalize (if atSign (r.drop 1) then (r.drop 1).drop 1 else r.drop 1) = s at h hsign
    split_ifs at h with hbad
    all_goals
      obtain ⟨-, rfl⟩ := Prod.mk.inj (Option.some_inj.mp h)
      exact hsign.trans (reaches_dropDigits s)
  · rw [if_neg he] at h
    obtain ⟨-, rfl⟩ := Prod.mk.inj (Option.some_inj.mp h)
    exact Reaches.refl _

lemma reaches_floatFast {fc : FloatConv} {neg : Bool} {dstart ds r q : Bytes} {d : Double}
    (h : floatFast fc neg dstart ds r = some (d, q)) : Reaches r q := by
  rw [floatFast] at h
  cases hf : fracSpan r with
  | none => simp [hf] at h
  | some x =>
    obtain ⟨fd, q1⟩ := x
    simp only [hf] at h
    cases he : expSpan q1 with
    | none => simp [he] at h
    | some y =>
      obtain ⟨e10, q2⟩ := y
      simp only [he] at h
      have hq : Reaches r q2 := (reaches_fracSpan hf).trans (reaches_expSpan he)
      split_ifs at h
      all_goals first
        | obtain ⟨-, rfl⟩ := Prod.mk.inj (Option.some_inj.mp h)
          exact hq
        | split at h
          · obtain ⟨-, rfl⟩ := Prod.mk.inj (Option.some_inj.mp h)
            exact hq
          · simp at h

lemma reaches_copyExp {fbuf r fbuf' r' : Bytes} (h : copyExp fbuf r = .ok (some (fbuf', r'))) :
    Reaches r r' := by
  rw [copyExp] at h
  by_cases he : atExp r = true
  · simp only [if_pos he] at h
    have hsign := (atExp_lt he).toReaches.trans (reaches_dropSign (r.drop 1))
    generalize (if atSign (r.drop 1) then (r.drop 1).drop 1 else r.drop 1) = s at h hsign
    generalize (if atSign (r.drop 1) then _ else _ : Bytes) = f at h
    split_ifs at h with h1 h2
    · exact absurd h failAt_ne_ok
    · simp at h
    · obtain ⟨-, rfl⟩ := Prod.mk.inj (Option.some_inj.mp (Except.ok.inj h))
      exact hsign.trans (reaches_dropDigits s)
  · rw [if_neg he] at h
    obtain ⟨-, rfl⟩ := Prod.mk.inj (Option.some_inj.mp (Except.ok.inj h))
    exact Reaches.refl _

lemma reaches_floatCopy {neg : Bool} {ds r fbuf r' : Bytes}
    (h : floatCopy neg ds r = .ok (some (fbuf, r'))) : Reaches r r' := by
  simp only [floatCopy] at h
  generalize (if neg = true then [Ch.minus] else []) ++ ds = f at h
  split_ifs at h with h1 h2 h3
  · exact absurd h failAt_ne_ok
  · simp at h
  · exact ((behind_drop_one h1 (by decide)).toReaches.trans
      (reaches_dropDigits _)).trans (reaches_copyExp h)
  · exact reaches_copyExp h

lemma reaches_slowFrac {fbuf r fbuf' r' : Bytes} (h : slowFrac fbuf r = .ok (fbuf', r')) :
    Reaches r r' := by
  rw [slowFrac] at h
  split_ifs at h with hdot
  · cases hs : scanRun 10 (r.drop 1) with
    | error e =>
      simp only [hs] at h
      exact absurd h (by simp)
    | ok x =>
      simp only [hs] at h
      obtain ⟨-, rfl⟩ := Prod.mk.inj (Except.ok.inj h)
      exact (behind_drop_one hdot (by decide)).toReaches.trans (scanRun_spec hs).toReaches
  · obtain ⟨-, rfl⟩ := Prod.mk.inj (Except.ok.inj h)
    exact Reaches.refl _

lemma reaches_slowExp {fbuf r fbuf' r' : Bytes} (h : slowExp fbuf r = .ok (fbuf', r')) :
    Reaches r r' := by
  rw [slowExp] at h
  by_cases he : atExp r = true
  · simp only [if_pos he] at h
    have hsign := (atExp_lt he).toReaches.trans (reaches_dropSign (r.drop 1))
    generalize (if atSign (r.drop 1) then (r.drop 1).drop 1 else r.drop 1) = s at h hsign
    cases hs : scanRun 10 s with
    | error e => simp [hs] at h
    | ok x =>
      simp only [hs] at h
      obtain ⟨-, rfl⟩ := Prod.mk.inj (Except.ok.inj h)
      exact hsign.trans (scanRun_spec hs).toReaches
  · rw [if_neg he] at h
    obtain ⟨-, rfl⟩ := Prod.mk.inj (Except.ok.inj h)
    exact Reaches.refl _

/-- A number is an integer or a float. -/
lemma goodValue_integer (i : Int64) : GoodValue (.integer i) := ⟨.integer i, by simp⟩

lemma goodValue_float (f : Double) : GoodValue (.float f) := ⟨.float f, by simp⟩

lemma signedInteger_spec {neg : Bool} {mag : ℕ} {r r' : Bytes} {v : Node}
    (h : signedInteger neg mag r = .ok (v, r')) : r' = r ∧ GoodValue v := by
  rw [signedInteger] at h
  split_ifs at h
  all_goals first
    | exact absurd h failAt_ne_ok
    | obtain ⟨rfl, rfl⟩ := Prod.mk.inj (Except.ok.inj h)
      exact ⟨rfl, goodValue_integer _⟩

lemma slowDecimal_spec {fc : FloatConv} {neg : Bool} {r r' : Bytes} {v : Node}
    (h : slowDecimal fc neg r = .ok (v, r')) : Behind r r' ∧ GoodValue v := by
  rw [slowDecimal] at h
  cases hs : scanRun 10 r with
  | error e => simp [hs] at h
  | ok x =>
    obtain ⟨buf, s⟩ := x
    have hb := scanRun_spec hs
    simp only [hs] at h
    split_ifs at h with h1 h2 h3
    · exact absurd h failAt_ne_ok
    all_goals first
      | generalize (_ ++ buf : Bytes) = f at h
        cases hf : slowFrac f s with
        | error e => simp [hf] at h
        | ok y =>
          obtain ⟨f1, s1⟩ := y
          simp only [hf] at h
          cases he : slowExp f1 s1 with
          | error e => simp [he] at h
          | ok z =>
            simp only [he] at h
            obtain ⟨rfl, rfl⟩ := Prod.mk.inj (Except.ok.inj h)
            exact ⟨hb.trans_reaches ((reaches_slowFrac hf).trans (reaches_slowExp he)),
              goodValue_float _⟩
      | cases hm : magFrom 10 0 buf with
        | none =>
          simp only [hm] at h
          exact absurd h failAt_ne_ok
        | some mag =>
          simp only [hm] at h
          obtain ⟨rfl, hv⟩ := signedInteger_spec h
          exact ⟨hb, hv⟩

lemma radixInteger_spec {radix : ℕ} {r r' : Bytes} {v : Node}
    (h : radixInteger radix r = .ok (v, r')) : Behind r r' ∧ GoodValue v := by
  rw [radixInteger] at h
  cases hs : scanRun radix r with
  | error e => simp [hs] at h
  | ok x =>
    obtain ⟨buf, s⟩ := x
    simp only [hs] at h
    cases hm : magFrom radix 0 buf with
    | none =>
      simp only [hm] at h
      exact absurd h failAt_ne_ok
    | some mag =>
      simp only [hm] at h
      split_ifs at h
      · exact absurd h failAt_ne_ok
      · obtain ⟨rfl, rfl⟩ := Prod.mk.inj (Except.ok.inj h)
        exact ⟨scanRun_spec hs, goodValue_integer _⟩

lemma decimal_spec {fc : FloatConv} {signedInput neg : Bool} {c : UInt8} {cs r' : Bytes}
    {v : Node} (hc : isDec c = true) (h : decimal fc signedInput neg (c :: cs) = .ok (v, r')) :
    Behind (c :: cs) r' ∧ GoodValue v := by
  have hb : Behind (c :: cs) ((c :: cs).dropWhile isDec) :=
    behind_dropWhile (fun _ => isDec_lt) hc
  simp only [decimal] at h
  generalize (c :: cs).dropWhile isDec = r at h hb
  generalize (c :: cs).takeWhile isDec = ds at h
  split_ifs at h with hplain hzero hmark hneg
  · exact absurd h failAt_ne_ok
  · rw [decimalFloat] at h
    cases hf : (if !signedInput || neg then floatFast fc neg (c :: cs) ds r else none) with
    | some x =>
      simp only [hf] at h
      obtain ⟨rfl, rfl⟩ := Prod.mk.inj (Except.ok.inj h)
      have hfast : floatFast fc neg (c :: cs) ds r = some (x.1, x.2) := by
        split_ifs at hf
        exact hf
      exact ⟨hb.trans_reaches (reaches_floatFast hfast), goodValue_float _⟩
    | none =>
      simp only [hf] at h
      cases hcopy : floatCopy neg ds r with
      | error e => simp [hcopy] at h
      | ok y =>
        cases y with
        | none =>
          simp only [hcopy] at h
          exact slowDecimal_spec h
        | some z =>
          simp only [hcopy] at h
          obtain ⟨rfl, rfl⟩ := Prod.mk.inj (Except.ok.inj h)
          exact ⟨hb.trans_reaches (reaches_floatCopy hcopy), goodValue_float _⟩
  · obtain ⟨rfl, rfl⟩ := Prod.mk.inj (Except.ok.inj h)
    exact ⟨hb, goodValue_integer _⟩
  · obtain ⟨rfl, rfl⟩ := Prod.mk.inj (Except.ok.inj h)
    exact ⟨hb, goodValue_integer _⟩
  · exact slowDecimal_spec h

/-- The two bytes of a radix prefix. -/
lemma behind_radix {r : Bytes} {radix : ℕ} (h : radixOf r = some radix) :
    Behind r (r.drop 2) := by
  rw [radixOf] at h
  split_ifs at h with h0 hx ho hb
  · exact behind_drop_two h0 (by decide) hx (by decide)
  · exact behind_drop_two h0 (by decide) ho (by decide)
  · exact behind_drop_two h0 (by decide) hb (by decide)

lemma parseUnsigned_spec {fc : FloatConv} {signedInput neg : Bool} {r r' : Bytes} {v : Node}
    (h : parseUnsigned fc signedInput neg r = .ok (v, r')) : Behind r r' ∧ GoodValue v := by
  obtain _ | ⟨c, cs⟩ := r
  · simp [parseUnsigned] at h
  rw [parseUnsigned] at h
  by_cases hword : c = 0x69 ∨ c = 0x6E ∨ (!isDec c) = true
  swap
  · rw [not_or, not_or] at hword
    rw [if_neg hword.1, if_neg hword.2.1, if_neg hword.2.2] at h
    cases hr : radixOf (c :: cs) with
    | some radix =>
      simp only [hr] at h
      split_ifs at h
      · exact absurd h failAt_ne_ok
      · obtain ⟨hb, hv⟩ := radixInteger_spec h
        exact ⟨(behind_radix hr).trans hb, hv⟩
    | none =>
      simp only [hr] at h
      exact decimal_spec (by simpa using hword.2.2) h
  split_ifs at h with hi hn hdec
  · obtain ⟨s, hs, heq⟩ := map_eq_ok_iff.mp h
    obtain ⟨rfl, rfl⟩ := Prod.mk.inj heq
    exact ⟨expectWord_spec (by simp) rfl hs, goodValue_float _⟩
  · obtain ⟨s, hs, heq⟩ := map_eq_ok_iff.mp h
    obtain ⟨rfl, rfl⟩ := Prod.mk.inj heq
    exact ⟨expectWord_spec (by simp) rfl hs, goodValue_float _⟩
  · exact absurd h failAt_ne_ok
  · exact absurd hword (by simp [hi, hn, hdec])
  · exact absurd hword (by simp [hi, hn, hdec])

lemma parseNumber_spec {fc : FloatConv} {signedInput : Bool} {r r' : Bytes} {v : Node}
    (hr : signedInput = true → r.head? = some Ch.plus ∨ r.head? = some Ch.minus)
    (h : parseNumber fc signedInput r = .ok (v, r')) : Behind r r' ∧ GoodValue v := by
  rw [parseNumber] at h
  split_ifs at h with hs
  · obtain ⟨hb, hv⟩ := parseUnsigned_spec h
    refine ⟨Behind.trans ?_ hb, hv⟩
    rcases hr hs with hr | hr
    · exact behind_drop_one hr (by decide)
    · exact behind_drop_one hr (by decide)
  · exact parseUnsigned_spec h

/-! ## Dates and times -/

/-- A digit at an offset is inside the input. -/
lemma lt_length_of_digAt {p : Bytes} {i : ℕ} (h : digAt p i = true) : i < p.length := by
  by_contra hi
  rw [digAt, byteAt, List.getD_eq_getElem?_getD, List.getElem?_eq_none (by omega)] at h
  exact absurd h (by decide)

/-- Behind a digit, where all bytes up to it are below DEL. -/
lemma behind_digAt {p : Bytes} {i : ℕ} (h : digAt p i = true) (hlt : ∀ j < i, byteAt p j < Ch.del) :
    Behind p (p.drop (i + 1)) := by
  refine behind_drop (lt_length_of_digAt h) fun j hj => ?_
  rcases Nat.lt_or_eq_of_le hj with hj | rfl
  · exact hlt j hj
  · exact isDec_lt h

/-- Five bytes below DEL, the last of them a digit. -/
def TimeLed (p : Bytes) : Prop := digAt p 4 = true ∧ ∀ j < 4, byteAt p j < Ch.del

lemma digit_le {c : UInt8} (h : isDec c = true) : c.toNat - 0x30 ≤ 9 := by
  have : c ≤ 0x39 := by grind [isDec]
  have : c.toNat ≤ 0x39 := UInt8.le_iff_toNat_le.mp this
  omega

lemma d2_le {p : Bytes} {i : ℕ} (h : digAt p i = true) (h' : digAt p (i + 1) = true) :
    d2 p i ≤ 99 := by
  have h1 := digit_le h
  have h2 := digit_le h'
  simp only [d2]
  omega

/-- The value of the fraction stays below one second. -/
lemma fracNanos_lt {ds : Bytes} (h : ∀ c ∈ ds, isDec c = true) : fracNanos ds < 1000000000 := by
  have step : ∀ (ds : Bytes) (s : ℕ × ℕ), (∀ c ∈ ds, isDec c = true) →
      s.1 < 1000000000 → s.1 + 10 * s.2 ≤ 1000000000 →
      (ds.foldl (fun (s : ℕ × ℕ) c => (s.1 + (c.toNat - 0x30) * s.2, s.2 / 10)) s).1
        < 1000000000 := by
    intro ds
    induction ds with
    | nil => intro s _ hs _; exact hs
    | cons c cs ih =>
      intro s hdig hs hbound
      have hc : c.toNat - 0x30 ≤ 9 := digit_le (hdig c (by simp))
      have hmul : (c.toNat - 0x30) * s.2 ≤ 9 * s.2 := Nat.mul_le_mul_right _ hc
      refine ih _ (fun d hd => hdig d (by simp [hd])) ?_ ?_
      · dsimp only
        rcases Nat.eq_zero_or_pos s.2 with h0 | hpos
        · simpa [h0] using hs
        · omega
      · dsimp only
        have : 10 * (s.2 / 10) ≤ s.2 := Nat.mul_div_le _ _
        omega
  exact step ds _ h (by decide) (by decide)

lemma parseFrac_spec {start p p' : Bytes} {ns : ℕ} (h : parseFrac start p = .ok (ns, p')) :
    Reaches p p' ∧ ns < 1000000000 := by
  rw [parseFrac] at h
  by_cases hdot : p.head? = some Ch.dot
  swap
  · rw [if_neg hdot] at h
    obtain ⟨rfl, rfl⟩ := Prod.mk.inj (Except.ok.inj h)
    exact ⟨Reaches.refl _, by decide⟩
  simp only [if_pos hdot] at h
  split_ifs at h
  · exact absurd h failAt_ne_ok
  · obtain ⟨rfl, rfl⟩ := Prod.mk.inj (Except.ok.inj h)
    exact ⟨(behind_drop_one hdot (by decide)).toReaches.trans (reaches_dropDigits _),
      fracNanos_lt fun c hc => List.mem_takeWhile_imp hc⟩

lemma parseClock_spec {need : ℕ} {start p p' : Bytes} {h mi s : ℕ} (hd : TimeLed p)
    (hok : parseClock need start p = .ok (h, mi, s, p')) :
    Behind p p' ∧ h ≤ 23 ∧ mi ≤ 59 ∧ s ≤ 60 := by
  have hcheck : ∀ {sec consumed : ℕ}, Behind p (p.drop consumed) →
      checkClock start p sec consumed = .ok (h, mi, s, p') →
      Behind p p' ∧ h ≤ 23 ∧ mi ≤ 59 ∧ s ≤ 60 := by
    intro sec consumed hb hok
    simp only [checkClock] at hok
    split_ifs at hok with h1 h2 h3
    · exact absurd hok failAt_ne_ok
    · exact absurd hok failAt_ne_ok
    · exact absurd hok failAt_ne_ok
    · obtain ⟨rfl, rfl, rfl, rfl⟩ : d2 p 0 = h ∧ d2 p 3 = mi ∧ sec = s ∧ p.drop consumed = p' := by
        simpa using hok
      exact ⟨hb, by omega, by omega, by omega⟩
  rw [parseClock] at hok
  split_ifs at hok with hcolon hbad
  · exact absurd hok failAt_ne_ok
  · have h7 : digAt p 7 = true := by
      rw [not_or, not_or] at hbad
      simpa using hbad.2.2
    have h6 : digAt p 6 = true := by
      rw [not_or, not_or] at hbad
      simpa using hbad.2.1
    have hlt : ∀ j < 7, byteAt p j < Ch.del := by
      intro j hj
      rcases (by omega : j < 4 ∨ j = 4 ∨ j = 5 ∨ j = 6) with hj | rfl | rfl | rfl
      · exact hd.2 j hj
      · exact isDec_lt hd.1
      · exact hcolon.2 ▸ by decide
      · exact isDec_lt h6
    exact hcheck (behind_digAt h7 hlt) hok
  · exact hcheck (behind_digAt hd.1 hd.2) hok

/-- The fields of a checked clock. -/
lemma timeOk_of_clock (dt : Datetime) {h mi s ns : ℕ} (hh : h ≤ 23) (hm : mi ≤ 59) (hs : s ≤ 60)
    (hns : ns < 1000000000) :
    Datetime.TimeOk { dt with
      hour := UInt8.ofNat h, minute := UInt8.ofNat mi, second := UInt8.ofNat s,
      nanosecond := UInt32.ofNat ns } := by
  constructor
  · rw [UInt8.toNat_ofNat']; omega
  · rw [UInt8.toNat_ofNat']; omega
  · rw [UInt8.toNat_ofNat']; omega
  · rw [UInt32.toNat_ofNat']; omega

lemma hasOffset_digits {p : Bytes} (h : hasOffset p = true) :
    digAt p 1 = true ∧ digAt p 2 = true ∧ digAt p 4 = true ∧ digAt p 5 = true := by
  simp only [hasOffset, Bool.and_eq_true] at h
  exact ⟨h.1.1.1.1.2, h.1.1.1.2, h.1.2, h.2⟩

/-- Behind an offset. -/
lemma behind_offset {p : Bytes} (h : hasOffset p = true) : Behind p (p.drop 6) := by
  obtain ⟨h1, h2, h4, h5⟩ := hasOffset_digits h
  simp only [hasOffset, hasOffset.atSignByte, Bool.and_eq_true, Bool.or_eq_true,
    beq_iff_eq] at h
  refine behind_digAt h5 fun j hj => ?_
  rcases (by omega : j = 0 ∨ j = 1 ∨ j = 2 ∨ j = 3 ∨ j = 4) with rfl | rfl | rfl | rfl | rfl
  · rcases h.1.1.1.1.1.1 with h0 | h0
    · exact h0 ▸ by decide
    · exact h0 ▸ by decide
  · exact isDec_lt h1
  · exact isDec_lt h2
  · exact h.1.1.2 ▸ by decide
  · exact isDec_lt h4

lemma parseOffset_spec {start p r' : Bytes} {dt : Datetime} {v : Node} {y : ℕ}
    (hdate : dt.DateOk y) (htime : dt.TimeOk) (hoff : dt.offsetSeconds = 0)
    (h : parseOffset start p dt = .ok (v, r')) : Reaches p r' ∧ GoodValue v := by
  have hdate' : ∀ o, Datetime.DateOk { dt with offsetSeconds := o } y :=
    fun o => ⟨hdate.year, hdate.month, hdate.day⟩
  have htime' : ∀ o, Datetime.TimeOk { dt with offsetSeconds := o } :=
    fun o => ⟨htime.hour, htime.minute, htime.second, htime.nanosecond⟩
  rw [parseOffset] at h
  by_cases hz : p.head? = some 0x5A ∨ p.head? = some 0x7A
  · rw [if_pos hz] at h
    obtain ⟨rfl, rfl⟩ := Prod.mk.inj (Except.ok.inj h)
    refine ⟨?_, .datetime ⟨⟨y, hdate' 0⟩, htime' 0, 0, by omega, 0, by omega, .inl rfl⟩, by simp⟩
    rcases hz with hz | hz
    · exact (behind_drop_one hz (by decide)).toReaches
    · exact (behind_drop_one hz (by decide)).toReaches
  rw [if_neg hz] at h
  by_cases ho : hasOffset p = true
  · simp only [if_pos ho] at h
    by_cases hbad : 23 < d2 p 1 ∨ 59 < d2 p 4
    · rw [if_pos hbad] at h
      exact absurd h failAt_ne_ok
    rw [if_neg hbad] at h
    obtain ⟨rfl, rfl⟩ := Prod.mk.inj (Except.ok.inj h)
    refine ⟨(behind_offset ho).toReaches, .datetime ⟨⟨y, hdate' _⟩,
      htime' _, d2 p 1, by omega, d2 p 4, by omega, ?_⟩, by simp⟩
    split_ifs
    · exact .inr rfl
    · exact .inl rfl
  · rw [if_neg ho] at h
    obtain ⟨rfl, rfl⟩ := Prod.mk.inj (Except.ok.inj h)
    exact ⟨Reaches.refl _, .datetime ⟨⟨y, hdate⟩, htime, hoff⟩, by simp⟩

/-- The shape of a date, byte by byte. -/
lemma dateShape_digits {p : Bytes} (h : dateShape p = true) :
    digAt p 0 = true ∧ digAt p 1 = true ∧ digAt p 2 = true ∧ digAt p 3 = true ∧
      digAt p 9 = true := by
  simp only [dateShape, Bool.and_eq_true] at h
  exact ⟨h.1.1.1.1.1.1.1.2, h.1.1.1.1.1.1.2, h.1.1.1.1.1.2, h.1.1.1.1.2, h.2⟩

/-- Behind a date. -/
lemma behind_date {p : Bytes} (h : dateShape p = true) : Behind p (p.drop 10) := by
  obtain ⟨h0, h1, h2, h3, h9⟩ := dateShape_digits h
  simp only [dateShape, Bool.and_eq_true, beq_iff_eq] at h
  refine behind_digAt h9 fun j hj => ?_
  rcases (by omega : j = 0 ∨ j = 1 ∨ j = 2 ∨ j = 3 ∨ j = 4 ∨ j = 5 ∨ j = 6 ∨ j = 7 ∨ j = 8) with
    rfl | rfl | rfl | rfl | rfl | rfl | rfl | rfl | rfl
  · exact isDec_lt h0
  · exact isDec_lt h1
  · exact isDec_lt h2
  · exact isDec_lt h3
  · exact h.1.1.1.1.1.1.1.1.1.2 ▸ by decide
  · exact isDec_lt h.1.1.1.2
  · exact isDec_lt h.1.1.2
  · exact h.1.1.1.1.1.1.1.1.2 ▸ by decide
  · exact isDec_lt h.1.2

/-- The shape of a time, byte by byte. -/
lemma timeLed_of_shape {p : Bytes} {n : ℕ} (h0 : digAt p n = true) (h1 : digAt p (n + 1) = true)
    (hcolon : byteAt p (n + 2) = Ch.colon) (h3 : digAt p (n + 3) = true)
    (h4 : digAt p (n + 4) = true) : TimeLed (p.drop n) := by
  refine ⟨by rwa [digAt, byteAt_drop], fun j hj => ?_⟩
  rw [byteAt_drop]
  rcases (by omega : j = 0 ∨ j = 1 ∨ j = 2 ∨ j = 3) with rfl | rfl | rfl | rfl
  · exact isDec_lt h0
  · exact isDec_lt h1
  · exact hcolon ▸ by decide
  · exact isDec_lt h3

lemma timeLed_of_timeShape {p : Bytes} (h : timeShape p = true) : TimeLed p := by
  simp only [timeShape, Bool.and_eq_true, beq_iff_eq] at h
  exact timeLed_of_shape (n := 0) h.1.1.1.2 h.1.1.2 h.1.1.1.1.2 h.1.2 h.2

lemma num4_le {p : Bytes} (h : dateShape p = true) : num4 p 0 ≤ 9999 := by
  obtain ⟨h0, h1, h2, h3, -⟩ := dateShape_digits h
  have ha := d2_le h0 h1
  have hb := d2_le h2 h3
  simp only [num4, Nat.zero_add]
  omega

lemma hasTime_digit {p : Bytes} (h : hasTime p = true) : Behind p (p.drop 1) ∧
    TimeLed (p.drop 1) := by
  simp only [hasTime, Bool.and_eq_true, Bool.or_eq_true, decide_eq_true_eq, beq_iff_eq] at h
  refine ⟨?_, ?_⟩
  · rcases h.1.1.1.1.1.1 with (hs | hs) | hs
    · exact behind_drop_one hs (by decide)
    · exact behind_drop_one hs (by decide)
    · exact behind_drop_one hs (by decide)
  · exact timeLed_of_shape (n := 1) h.1.1.1.1.2 h.1.1.1.2 h.1.1.2 h.1.2 h.2

lemma parseDateLed_spec {r r' : Bytes} {v : Node} (hshape : dateShape r = true)
    (h : parseDateLed r = .ok (v, r')) : Behind r r' ∧ GoodValue v := by
  have hdrop := behind_date hshape
  have hyear := num4_le hshape
  simp only [parseDateLed] at h
  by_cases hmonth : d2 r 5 < 1 ∨ 12 < d2 r 5
  · rw [if_pos hmonth] at h
    exact absurd h failAt_ne_ok
  rw [if_neg hmonth] at h
  by_cases hday : d2 r 8 < 1 ∨ daysInMonth (num4 r 0) (d2 r 5) < d2 r 8
  · rw [if_pos hday] at h
    exact absurd h failAt_ne_ok
  rw [if_neg hday] at h
  have hdays := daysInMonth_le (num4 r 0) (d2 r 5)
  have hdate : ∀ h mi s ns o, Datetime.DateOk
      { year := Int32.ofNat (num4 r 0), month := UInt8.ofNat (d2 r 5),
        day := UInt8.ofNat (d2 r 8), hour := h, minute := mi, second := s, nanosecond := ns,
        offsetSeconds := o } (num4 r 0) := by
    have hm : (UInt8.ofNat (d2 r 5)).toNat = d2 r 5 := by
      rw [UInt8.toNat_ofNat']
      omega
    have hd : (UInt8.ofNat (d2 r 8)).toNat = d2 r 8 := by
      rw [UInt8.toNat_ofNat']
      omega
    intro h mi s ns o
    refine ⟨⟨rfl, hyear⟩, ?_, ?_⟩
    · simp only [hm]
      omega
    · simp only [hm, hd]
      omega
  by_cases ht : hasTime (r.drop 10) = true
  swap
  · simp only [ht, Bool.not_false, if_true] at h
    obtain ⟨rfl, rfl⟩ := Prod.mk.inj (Except.ok.inj h)
    exact ⟨hdrop, .datetime ⟨⟨_, hdate 0 0 0 0 0⟩, ⟨rfl, rfl, rfl, rfl⟩, rfl⟩, by simp⟩
  simp only [ht, Bool.not_true, Bool.false_eq_true, if_false] at h
  obtain ⟨hsep, hdig⟩ := hasTime_digit ht
  split at h
  · simp at h
  next hh mi s p hclock =>
  obtain ⟨hb, hh23, hm59, hs60⟩ := parseClock_spec hdig hclock
  split at h
  · simp at h
  next ns q hfrac =>
  obtain ⟨hq, hns⟩ := parseFrac_spec hfrac
  obtain ⟨hr, hv⟩ := parseOffset_spec (hdate _ _ _ _ 0)
    (timeOk_of_clock { year := _, month := _, day := _ } hh23 hm59 hs60 hns) rfl h
  exact ⟨hdrop.trans (hsep.trans (hb.trans_reaches (hq.trans hr))), hv⟩

lemma parseTimeOnly_spec {r r' : Bytes} {v : Node} (hdig : TimeLed r)
    (h : parseTimeOnly r = .ok (v, r')) : Behind r r' ∧ GoodValue v := by
  rw [parseTimeOnly] at h
  split at h
  · simp at h
  next hh mi s p hclock =>
  obtain ⟨hb, hh23, hm59, hs60⟩ := parseClock_spec hdig hclock
  split at h
  · simp at h
  next ns q hfrac =>
  obtain ⟨hq, hns⟩ := parseFrac_spec hfrac
  obtain ⟨rfl, rfl⟩ := Prod.mk.inj (Except.ok.inj h)
  exact ⟨hb.trans_reaches hq, .datetime ⟨⟨rfl, rfl, rfl⟩,
    timeOk_of_clock {} hh23 hm59 hs60 hns, rfl⟩, by simp⟩

lemma parseDatetime_spec {r r' : Bytes} {v : Node} (hlook : datetimeLookahead r = true)
    (h : parseDatetime r = .ok (v, r')) : Behind r r' ∧ GoodValue v := by
  rw [datetimeLookahead, Bool.or_eq_true] at hlook
  rw [parseDatetime] at h
  split_ifs at h with hminus
  · refine parseDateLed_spec ?_ h
    rcases hlook with hd | ht
    · exact hd
    · -- a time has a digit where a date has its first dash
      simp only [timeShape, Bool.and_eq_true, digAt, hminus] at ht
      exact absurd ht.2 (by decide)
  · refine parseTimeOnly_spec ?_ h
    rcases hlook with hd | ht
    · simp only [dateShape, Bool.and_eq_true, beq_iff_eq] at hd
      exact absurd hd.1.1.1.1.1.1.1.1.1.2 hminus
    · exact timeLed_of_timeShape ht

end Teptris
