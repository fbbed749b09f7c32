import Teptris.Grammar.Integer
import Teptris.Grammar.Lexical
import Teptris.Parse.PlainBody
import Teptris.Schema.JsonLeaves

/-!
# Strings by the grammar

The scanners of `scalars.c` read the strings of the grammar, with what they stand for.
-/

namespace Teptris

open Loop

/-! ## Escapes -/

section Escapes

variable {r q t o : Bytes} {cp : ℕ} {ml : Bool}

lemma shortEscape_eq : ∀ e : UInt8, shortEscape e = Toml.shortEscape e := by decide +kernel

lemma utf8Put_eq (h : cp < 0x110000) : utf8Put cp = Json.encode cp := jputUtf8_eq h

lemma readHex_sound {n v : ℕ} (h : readHex n v r = .ok (cp, q)) :
    ∃ t, r = t ++ q ∧ t.length = n ∧ (∀ c ∈ t, Toml.isHexDigit c = true) ∧
      cp = Toml.runFrom 16 v t := by
  induction n generalizing v r with
  | zero =>
    obtain ⟨rfl, rfl⟩ := Prod.mk.inj (Except.ok.inj h)
    exact ⟨[], rfl, rfl, by simp, rfl⟩
  | succ n ih =>
    cases r with
    | nil => cases h
    | cons c cs =>
      rw [readHex] at h
      split_ifs at h with hc
      · obtain ⟨t, rfl, hlen, hdigits, rfl⟩ := ih h
        refine ⟨c :: t, rfl, by simp [hlen], ?_, by rw [hexVal_eq hc]; rfl⟩
        intro d hd
        rcases List.mem_cons.mp hd with rfl | hd
        · exact hc
        · exact hdigits d hd
      · exact absurd h failAt_ne_ok

lemma readHex_complete {v : ℕ} (ht : ∀ c ∈ t, Toml.isHexDigit c = true) (q : Bytes) :
    readHex t.length v (t ++ q) = .ok (Toml.runFrom 16 v t, q) := by
  induction t generalizing v with
  | nil => rfl
  | cons c t ih =>
    have hc : isHex c = true := ht c (by simp)
    rw [List.length_cons, List.cons_append, readHex, if_pos hc, hexVal_eq hc]
    exact ih fun d hd => ht d (List.mem_cons_of_mem c hd)

lemma readHex_iff {n : ℕ} : readHex n 0 r = .ok (cp, q) ↔ ∃ t, r = t ++ q ∧ Toml.IsHex n t cp := by
  constructor
  · intro h
    obtain ⟨t, ht, hlen, hdigits, rfl⟩ := readHex_sound h
    exact ⟨t, ht, hlen, hdigits, rfl⟩
  · rintro ⟨t, rfl, rfl, hdigits, rfl⟩
    exact readHex_complete hdigits q

lemma isHex_value_lt {n : ℕ} (h : Toml.IsHex n t cp) : cp < 16 ^ n := by
  obtain ⟨rfl, hdigits, rfl⟩ := h
  have hdigit : ∀ c : UInt8, Toml.isHexDigit c = true → Toml.digitValue c < 16 := by
    decide +kernel
  have hrun : ∀ v, Toml.runFrom 16 v t < (v + 1) * 16 ^ t.length := by
    induction t with
    | nil => simp [Toml.runFrom]
    | cons c t ih =>
      intro v
      have hstep := ih (fun d hd => hdigits d (List.mem_cons_of_mem c hd))
        (v * 16 + Toml.digitValue c)
      have hc := hdigit c (hdigits c (by simp))
      calc Toml.runFrom 16 v (c :: t) = Toml.runFrom 16 (v * 16 + Toml.digitValue c) t := rfl
        _ < (v * 16 + Toml.digitValue c + 1) * 16 ^ t.length := hstep
        _ ≤ (v + 1) * 16 * 16 ^ t.length := Nat.mul_le_mul_right _ (by omega)
        _ = (v + 1) * 16 ^ (c :: t).length := by rw [List.length_cons, pow_succ]; ring
  simpa using hrun 0

lemma unicodeEscape_iff {n : ℕ} : unicodeEscape n r = .ok (o, q) ↔
    ∃ t cp, r = t ++ q ∧ Toml.IsHex n t cp ∧ Toml.IsScalarValue cp ∧ o = Json.encode cp := by
  rw [unicodeEscape]
  constructor
  · intro h
    cases hr : readHex n 0 r with
    | error e =>
      rw [hr] at h
      cases h
    | ok x =>
      rw [hr] at h
      dsimp only at h
      split_ifs at h with hbad
      · exact absurd h failAt_ne_ok
      · obtain ⟨rfl, rfl⟩ := Prod.mk.inj (Except.ok.inj h)
        obtain ⟨t, ht, hhex⟩ := readHex_iff.mp hr
        rw [not_or, not_lt] at hbad
        exact ⟨t, x.1, ht, hhex, hbad.symm, utf8Put_eq (by omega)⟩
  · rintro ⟨t, cp, rfl, hhex, ⟨hmax, hsur⟩, rfl⟩
    rw [readHex_iff.mpr ⟨t, rfl, hhex⟩]
    dsimp only
    rw [if_neg (not_or.mpr ⟨hsur, not_lt.mpr hmax⟩), utf8Put_eq (by omega)]

lemma hexEscape_iff : hexEscape 2 r = .ok (o, q) ↔
    ∃ t cp, r = t ++ q ∧ Toml.IsHex 2 t cp ∧ o = Json.encode cp := by
  rw [hexEscape]
  constructor
  · intro h
    cases hr : readHex 2 0 r with
    | error e =>
      rw [hr] at h
      cases h
    | ok x =>
      rw [hr] at h
      obtain ⟨rfl, rfl⟩ := Prod.mk.inj (Except.ok.inj h)
      obtain ⟨t, ht, hhex⟩ := readHex_iff.mp hr
      have hlt := isHex_value_lt hhex
      exact ⟨t, x.1, ht, hhex, utf8Put_eq (by omega)⟩
  · rintro ⟨t, cp, rfl, hhex, rfl⟩
    have hlt := isHex_value_lt hhex
    rw [readHex_iff.mpr ⟨t, rfl, hhex⟩]
    dsimp only
    rw [utf8Put_eq (by omega)]

/-- The white space and line ends a line-ending backslash takes. -/
lemma trimLines_sound (r : Bytes) :
    ∃ g, r = g ++ trimLines r ∧ Toml.IsBlank g ∧ Toml.StartsSolid (trimLines r) := by
  have hnil : Toml.StartsSolid [] := by
    refine ⟨by simp, ?_⟩
    rw [startsNewline_iff]
    simp
  have hblank : ∀ {c : UInt8} {g : Bytes}, (isWs c || decide (c = Ch.lf)) = true →
      Toml.IsBlank g → Toml.IsBlank (c :: g) := by
    intro c g hc hg
    rw [Bool.or_eq_true, decide_eq_true_eq] at hc
    rcases hc with hc | rfl
    · exact .ws hc hg
    · exact .newline .lf hg
  fun_induction trimLines r with
  | case1 => exact ⟨[], rfl, .nil, hnil⟩
  | case2 c hc => exact ⟨[c], rfl, hblank hc .nil, hnil⟩
  | case3 c hc =>
    rw [Bool.or_eq_true, decide_eq_true_eq, not_or] at hc
    refine ⟨[], rfl, .nil, by simpa using hc.1, ?_⟩
    rw [startsNewline_iff]
    simpa using hc.2
  | case4 c d ds hc ih =>
    obtain ⟨g, hg, hgap, hsolid⟩ := ih
    exact ⟨c :: g, by rw [List.cons_append, ← hg], hblank hc hgap, hsolid⟩
  | case5 d c ds hc hcrlf ih =>
    obtain ⟨g, hg, hgap, hsolid⟩ := ih
    obtain ⟨rfl, rfl⟩ := hcrlf
    exact ⟨[Ch.cr, Ch.lf] ++ g, by rw [List.append_assoc, ← hg]; rfl, .newline .crlf hgap, hsolid⟩
  | case6 c d ds hc hcrlf =>
    rw [Bool.or_eq_true, decide_eq_true_eq, not_or] at hc
    refine ⟨[], rfl, .nil, by simpa using hc.1, ?_⟩
    rw [startsNewline_iff]
    simpa [hc.2] using hcrlf

lemma trimLines_blank (ht : Toml.IsBlank t) (hq : Toml.StartsSolid q) :
    trimLines (t ++ q) = q := by
  obtain ⟨hws, hnl⟩ := hq
  rw [startsNewline_iff, not_or] at hnl
  have hpass : ∀ {c : UInt8} (r : Bytes), (isWs c || decide (c = Ch.lf)) = true →
      trimLines (c :: r) = trimLines r := by
    intro c r hc
    cases r with
    | nil => simp only [trimLines, if_pos hc]
    | cons d r => rw [trimLines, if_pos hc]
  induction ht with
  | nil =>
    rw [List.nil_append]
    cases q with
    | nil => rfl
    | cons c q =>
      have hc : ¬ (isWs c || decide (c = Ch.lf)) = true := by
        rw [Bool.or_eq_true, decide_eq_true_eq, not_or]
        exact ⟨by simpa using hws c rfl, by simpa using hnl.1⟩
      cases q with
      | nil => rw [trimLines, if_neg hc]
      | cons d q => rw [trimLines, if_neg hc, if_neg (by simpa using hnl.2)]
  | @ws c t hc _ ih =>
    rw [List.cons_append, hpass _ (by rw [show isWs c = true from hc, Bool.true_or]), ih]
  | @newline n t hn _ ih =>
    cases hn with
    | lf => rw [List.append_assoc, List.singleton_append, hpass _ (by decide), ih]
    | crlf =>
      rw [List.append_assoc]
      change trimLines (Ch.cr :: Ch.lf :: (t ++ q)) = q
      rw [trimLines, if_neg (by decide), if_pos ⟨rfl, rfl⟩, ih]

lemma trimLines_append (hw : Toml.IsWs t) (q : Bytes) :
    trimLines (t ++ q) = trimLines q := by
  obtain ⟨g, hg, hblank, hsolid⟩ := trimLines_sound q
  have hall : Toml.IsBlank (t ++ g) := by
    induction t with
    | nil => exact hblank
    | cons c t ih => exact .ws (hw c (by simp)) (ih fun d hd => hw d (List.mem_cons_of_mem c hd))
  conv_lhs => rw [hg, ← List.append_assoc]
  exact trimLines_blank hall hsolid

/-- A backslash that ends a line, and what it takes. -/
def IsFold (e : Bytes) : Prop :=
  ∃ w n g, Toml.IsWs w ∧ Toml.IsNewline n ∧ Toml.IsBlank g ∧ e = w ++ (n ++ g)

lemma scanEscape_sound (h : scanEscape ml r = .ok (o, q)) :
    ∃ e, r = e ++ q ∧
      (Toml.IsEscape e o ∨ ml = true ∧ IsFold e ∧ o = [] ∧ Toml.StartsSolid q) := by
  cases r with
  | nil => cases h
  | cons c cs =>
    rw [scanEscape] at h
    by_cases hml : (ml && (isWs c || decide (c = Ch.lf) || decide (c = Ch.cr))) = true
    · rw [if_pos hml] at h
      split_ifs at h with hnl
      · obtain ⟨rfl, rfl⟩ := Prod.mk.inj (Except.ok.inj h)
        obtain ⟨w, hsplit, hw⟩ := skipWs_split (c :: cs)
        change c :: cs = w ++ (c :: cs).dropWhile isWs at hsplit
        generalize (c :: cs).dropWhile isWs = s at hnl hsplit
        have hstart : Toml.StartsNewline s := by
          rw [startsNewline_iff]
          simpa [atNewline] using hnl
        obtain ⟨n, u, hn, rfl⟩ := hstart
        obtain ⟨g, hg, hblank, hsolid⟩ := trimLines_sound u
        have htrim : trimLines (c :: cs) = trimLines u := by
          rw [hsplit, trimLines_append hw]
          conv_lhs => rw [hg, ← List.append_assoc]
          exact trimLines_blank (.newline hn hblank) hsolid
        rw [htrim]
        refine ⟨w ++ (n ++ g), ?_, .inr ⟨(Bool.and_eq_true_iff.mp hml).1,
          ⟨w, n, g, hw, hn, hblank, rfl⟩, rfl, hsolid⟩⟩
        rw [hsplit, List.append_assoc, List.append_assoc, ← hg]
      · exact absurd h failAt_ne_ok
    rw [if_neg hml] at h
    cases hshort : shortEscape c with
    | some b =>
      simp only [hshort] at h
      obtain ⟨rfl, rfl⟩ := Prod.mk.inj (Except.ok.inj h)
      exact ⟨[c], rfl, .inl (.short (shortEscape_eq c ▸ hshort))⟩
    | none =>
      simp only [hshort] at h
      split_ifs at h with hx hu hU
      · obtain ⟨t, cp, rfl, hhex, rfl⟩ := hexEscape_iff.mp h
        exact ⟨c :: t, rfl, .inl (hx ▸ .two hhex)⟩
      · obtain ⟨t, cp, rfl, hhex, hcp, rfl⟩ := unicodeEscape_iff.mp h
        exact ⟨c :: t, rfl, .inl (hu ▸ .four hhex hcp)⟩
      · obtain ⟨t, cp, rfl, hhex, hcp, rfl⟩ := unicodeEscape_iff.mp h
        exact ⟨c :: t, rfl, .inl (hU ▸ .eight hhex hcp)⟩
      · exact absurd h failAt_ne_ok

/-- The first byte of an escape. -/
lemma isEscape_head {e : Bytes} (he : Toml.IsEscape e o) : ∃ c cs, e = c :: cs ∧
    (isWs c || decide (c = Ch.lf) || decide (c = Ch.cr)) = false := by
  have hshort : ∀ c : UInt8, (shortEscape c).isSome = true →
      (isWs c || decide (c = Ch.lf) || decide (c = Ch.cr)) = false := by decide +kernel
  cases he with
  | @short c b h => exact ⟨c, [], rfl, hshort c (by rw [shortEscape_eq, h]; rfl)⟩
  | two h => exact ⟨_, _, rfl, by decide⟩
  | four h hcp => exact ⟨_, _, rfl, by decide⟩
  | eight h hcp => exact ⟨_, _, rfl, by decide⟩

lemma scanEscape_escape {e : Bytes} (he : Toml.IsEscape e o) (q : Bytes) :
    scanEscape ml (e ++ q) = .ok (o, q) := by
  obtain ⟨c, cs, rfl, hc⟩ := isEscape_head he
  rw [List.cons_append, scanEscape, hc, Bool.and_false, if_neg (by decide)]
  cases he with
  | short h => rw [shortEscape_eq, h]; rfl
  | two h => exact hexEscape_iff.mpr ⟨_, _, rfl, h, rfl⟩
  | four h hcp => exact unicodeEscape_iff.mpr ⟨_, _, rfl, h, hcp, rfl⟩
  | eight h hcp => exact unicodeEscape_iff.mpr ⟨_, _, rfl, h, hcp, rfl⟩

lemma scanEscape_fold {e : Bytes} (he : IsFold e) (hq : Toml.StartsSolid q) :
    scanEscape true (e ++ q) = .ok ([], q) := by
  obtain ⟨w, n, g, hw, hn, hg, rfl⟩ := he
  have htrim : trimLines (w ++ (n ++ g) ++ q) = q := by
    rw [List.append_assoc, trimLines_append hw]
    exact trimLines_blank (.newline hn hg) hq
  have hnl : atNewline ((w ++ (n ++ g) ++ q).dropWhile isWs) = true := by
    have hdrop : (w ++ (n ++ g) ++ q).dropWhile isWs = n ++ (g ++ q) := by
      rw [List.append_assoc, List.append_assoc]
      refine (skipWs_append hw _).trans (skipWs_self fun c hc => ?_)
      cases hn <;> obtain rfl := Option.some.inj hc <;> rfl
    rw [hdrop]
    cases hn <;> rfl
  have hhead : ∃ c cs, w ++ (n ++ g) ++ q = c :: cs ∧
      (isWs c || decide (c = Ch.lf) || decide (c = Ch.cr)) = true := by
    cases w with
    | nil => cases hn <;> exact ⟨_, _, rfl, by decide⟩
    | cons c w => exact ⟨c, _, rfl, by rw [show isWs c = true from hw c (by simp)]; rfl⟩
  obtain ⟨c, cs, hcs, hc⟩ := hhead
  rw [hcs] at htrim hnl ⊢
  rw [scanEscape, hc, Bool.true_and, if_pos rfl, if_pos hnl, htrim]

end Escapes

/-! ## The scanners -/

/-- The scanner of one kind of strings, from the text decoded so far. -/
def scanFrom (basic ml : Bool) (s : Bytes × Bytes) : Res Bytes :=
  loop (scanTurn (Toml.quote basic) (if basic then some (scanEscape ml) else none) ml) Diag.stuck
    (fun s => s.2.length) s

section Scanners

variable {basic ml : Bool} {r q t o s out str : Bytes}

lemma scanBasic_eq (ml : Bool) (r : Bytes) : scanBasic ml r = scanFrom true ml ([], r) := rfl

lemma scanLiteral_eq (ml : Bool) (r : Bytes) : scanLiteral ml r = scanFrom false ml ([], r) := rfl

lemma scanFrom_shrinks (basic ml : Bool) :
    Shrinks (scanTurn (Toml.quote basic) (if basic then some (scanEscape ml) else none) ml)
      (fun s => s.2.length) := by
  cases basic
  · exact scan_shrinks (by decide) escapeOk_none
  · exact scan_shrinks (by decide) (escapeOk_scanEscape ml)

/-- What one turn of a scanner reads, and what it makes of it. -/
inductive ScanStep (basic ml : Bool) :
    Bytes × Bytes → Turn (Bytes × Bytes) (Bytes × Bytes) → Prop
  | char {out r : Bytes} {c : UInt8} (hc : Toml.isOrdinary basic c = true) :
      ScanStep basic ml (out, c :: r) (.next (out ++ [c], r))
  | escape {out r e o : Bytes} (hb : basic = true) (he : Toml.IsEscape e o) :
      ScanStep basic ml (out, Ch.bslash :: (e ++ r)) (.next (out ++ o, r))
  | fold {out r e : Bytes} (hb : basic = true) (hml : ml = true) (he : IsFold e)
      (hr : Toml.StartsSolid r) :
      ScanStep basic ml (out, Ch.bslash :: (e ++ r)) (.next (out, r))
  | newline {out r n : Bytes} (hml : ml = true) (hn : Toml.IsNewline n) :
      ScanStep basic ml (out, n ++ r) (.next (out ++ [Ch.lf], r))
  | quotes {out r : Bytes} {n : ℕ} (hml : ml = true) (hn : n = 1 ∨ n = 2)
      (hr : r.head? ≠ some (Toml.quote basic)) :
      ScanStep basic ml (out, List.replicate n (Toml.quote basic) ++ r)
        (.next (out ++ List.replicate n (Toml.quote basic), r))
  | closeMl {out r : Bytes} {n : ℕ} (hml : ml = true) (hn : n ≤ 2)
      (hr : r.head? ≠ some (Toml.quote basic)) :
      ScanStep basic ml (out, List.replicate (n + 3) (Toml.quote basic) ++ r)
        (.stop (out ++ List.replicate n (Toml.quote basic), r))
  | close {out r : Bytes} (hml : ml = false) :
      ScanStep basic ml (out, Toml.quote basic :: r) (.stop (out, r))

lemma isOrdinary_iff {c : UInt8} : Toml.isOrdinary basic c = true ↔
    c ≠ Toml.quote basic ∧ ¬ (c = Ch.bslash ∧ basic = true) ∧ isControl c = false := by
  rw [Toml.isOrdinary, isNonEol_eq]
  simp only [Bool.and_eq_true, Bool.not_eq_true', bne_iff_ne, Bool.and_eq_false_iff,
    beq_eq_false_iff_ne, ne_eq, not_and, Bool.not_eq_true]
  tauto

lemma quote_ne (basic : Bool) : Toml.quote basic ≠ Ch.bslash ∧ Toml.quote basic ≠ Ch.lf ∧
    Toml.quote basic ≠ Ch.cr ∧ Toml.quote basic ≠ Ch.hash ∧ isWs (Toml.quote basic) = false := by
  cases basic <;> decide

/-- The quotes in front of an input. -/
lemma quotes_run {c : UInt8} (n : ℕ) (hr : r.head? ≠ some c) :
    ((List.replicate n c ++ r).takeWhile (· = c)).length = n ∧
      (List.replicate n c ++ r).drop n = r := by
  constructor
  · rw [List.takeWhile_append_of_pos (by simp)]
    cases r with
    | nil => simp
    | cons d r =>
      have hd : d ≠ c := by simpa using hr
      simp [hd]
  · rw [List.drop_left' (by simp)]

/-- Behind the quotes in front of an input stands no quote. -/
lemma drop_run_head (c : UInt8) (r : Bytes) :
    (r.drop (r.takeWhile (· = c)).length).head? ≠ some c := by
  induction r with
  | nil => simp
  | cons d r ih =>
    by_cases hd : d = c
    · rw [List.takeWhile_cons_of_pos (by simpa using hd)]
      exact ih
    · rw [List.takeWhile_cons_of_neg (by simpa using hd)]
      simpa using hd

/-- A turn does what it reads off the input. -/
lemma ScanStep.turn {x : Bytes × Bytes} {y : Turn (Bytes × Bytes) (Bytes × Bytes)}
    (h : ScanStep basic ml x y) :
    scanTurn (Toml.quote basic) (if basic then some (scanEscape ml) else none) ml x = .ok y := by
  obtain ⟨-, hlf, hcr, -, -⟩ := quote_ne basic
  have hquotes : ∀ {n : ℕ} (out r : Bytes), 0 < n → ml = true →
      scanTurn (Toml.quote basic) (if basic then some (scanEscape ml) else none) ml
        (out, List.replicate n (Toml.quote basic) ++ r) =
      scanQuotes (Toml.quote basic) out (List.replicate n (Toml.quote basic) ++ r) := by
    intro n out r hn hml
    obtain ⟨n, rfl⟩ := Nat.exists_eq_succ_of_ne_zero (Nat.pos_iff_ne_zero.mp hn)
    rw [List.replicate_succ, List.cons_append, scanTurn]
    rw [if_pos rfl, if_pos hml]
  cases h with
  | @char out r c hc =>
    obtain ⟨hquote, hescape, hctl⟩ := isOrdinary_iff.mp hc
    have hlf' : c ≠ Ch.lf := by
      rintro rfl
      exact absurd hctl (by decide)
    have hcr' : c ≠ Ch.cr := by
      rintro rfl
      exact absurd hctl (by decide)
    have hsome : ¬ (c = Ch.bslash ∧
        (if basic then some (scanEscape ml) else none).isSome = true) := by
      rintro ⟨rfl, hb⟩
      cases basic
      · cases hb
      · exact hescape ⟨rfl, rfl⟩
    rw [scanTurn]
    rw [if_neg hquote, if_neg hsome, if_neg hlf', if_neg hcr', hctl, if_neg (by decide)]
  | escape hb he =>
    subst hb
    rw [scanTurn]
    rw [if_neg (by decide), if_pos ⟨rfl, rfl⟩, if_pos rfl, Option.getD_some, scanEscape_escape he]
  | fold hb hml he hr =>
    subst hb hml
    rw [scanTurn]
    rw [if_neg (by decide), if_pos ⟨rfl, rfl⟩, if_pos rfl, Option.getD_some, scanEscape_fold he hr]
    dsimp only
    rw [List.append_nil]
  | newline hml hn =>
    subst hml
    cases hn with
    | lf =>
      rw [List.cons_append, scanTurn]
      rw [if_neg hlf.symm, if_neg (fun h => absurd h.1 (by decide)), if_pos rfl, if_pos rfl]
      rfl
    | crlf =>
      rw [List.cons_append, scanTurn]
      rw [if_neg hcr.symm, if_neg (fun h => absurd h.1 (by decide)), if_neg (by decide), if_pos rfl,
        if_pos ⟨rfl, rfl⟩]
      rfl
  | @quotes out r n hml hn hr =>
    obtain ⟨hrun, hdrop⟩ := quotes_run n hr
    rw [hquotes out r (by omega) hml, scanQuotes]
    dsimp only
    rw [hrun, hdrop, if_neg (show ¬ 6 ≤ n by omega), if_neg (show ¬ 3 ≤ n by omega),
      if_pos (show n ≤ 2 by omega)]
  | @closeMl out r n hml hn hr =>
    obtain ⟨hrun, hdrop⟩ := quotes_run (n + 3) hr
    rw [hquotes out r (by omega) hml, scanQuotes]
    dsimp only
    rw [hrun, hdrop, if_neg (show ¬ 6 ≤ n + 3 by omega), if_pos (show 3 ≤ n + 3 by omega),
      if_neg (show ¬ n + 3 ≤ 2 by omega), Nat.add_sub_cancel]
  | close hml =>
    subst hml
    rw [scanTurn]
    rw [if_pos rfl, if_neg (by decide)]

/-- A turn that does not fail is one of these. -/
lemma scanTurn_step {x : Bytes × Bytes} {y : Turn (Bytes × Bytes) (Bytes × Bytes)}
    (h : scanTurn (Toml.quote basic) (if basic then some (scanEscape ml) else none) ml x =
      .ok y) : ScanStep basic ml x y := by
  obtain ⟨out, _ | ⟨c, cs⟩⟩ := x
  · cases h
  rw [scanTurn] at h
  by_cases hquote : c = Toml.quote basic
  · subst hquote
    rw [if_pos rfl] at h
    by_cases hml : ml = true
    · rw [if_pos hml, scanQuotes] at h
      have hsplit := replicate_append_drop (Toml.quote basic) (Toml.quote basic :: cs)
      have hhead := drop_run_head (Toml.quote basic) (Toml.quote basic :: cs)
      have hpos : 0 < ((Toml.quote basic :: cs).takeWhile (· = Toml.quote basic)).length := by
        simp
      generalize ((Toml.quote basic :: cs).takeWhile (· = Toml.quote basic)).length = run
        at h hsplit hpos hhead
      generalize (Toml.quote basic :: cs).drop run = rest at h hsplit hhead
      dsimp only at h
      rw [← hsplit]
      by_cases h6 : 6 ≤ run
      · rw [if_pos h6] at h
        exact absurd h failAt_ne_ok
      rw [if_neg h6] at h
      by_cases h2 : run ≤ 2
      · rw [if_neg (show ¬ 3 ≤ run by omega), if_pos h2] at h
        obtain rfl := Except.ok.inj h
        exact .quotes hml (by omega) hhead
      · rw [if_pos (show 3 ≤ run by omega), if_neg h2] at h
        obtain rfl := Except.ok.inj h
        obtain ⟨n, rfl⟩ := Nat.exists_eq_add_of_le (show 3 ≤ run by omega)
        rw [Nat.add_comm, Nat.add_sub_cancel]
        exact .closeMl hml (by omega) hhead
    · rw [if_neg hml] at h
      obtain rfl := Except.ok.inj h
      exact .close (by simpa using hml)
  rw [if_neg hquote] at h
  by_cases hslash : c = Ch.bslash ∧ (if basic then some (scanEscape ml) else none).isSome = true
  · have hb : basic = true := by
      cases basic
      · cases hslash.2
      · rfl
    rw [if_pos hslash, if_pos hb, Option.getD_some] at h
    obtain ⟨rfl, -⟩ := hslash
    cases he : scanEscape ml cs with
    | error e =>
      rw [he] at h
      cases h
    | ok x =>
      rw [he] at h
      obtain rfl := Except.ok.inj h
      obtain ⟨e, rfl, hesc | ⟨hml, hfold, ho, hsolid⟩⟩ := scanEscape_sound he
      · exact .escape hb hesc
      · rw [ho, List.append_nil]
        exact .fold hb hml hfold hsolid
  rw [if_neg hslash] at h
  by_cases hlf : c = Ch.lf
  · rw [if_pos hlf] at h
    split_ifs at h with hml
    · obtain rfl := Except.ok.inj h
      subst hlf
      exact .newline (n := [Ch.lf]) hml .lf
    · exact absurd h failAt_ne_ok
  rw [if_neg hlf] at h
  by_cases hcr : c = Ch.cr
  · rw [if_pos hcr] at h
    split_ifs at h with hml
    · obtain rfl := Except.ok.inj h
      subst hcr
      obtain ⟨hml, hnext⟩ := hml
      obtain ⟨cs, rfl⟩ := List.head?_eq_some_iff.mp hnext
      exact .newline (n := [Ch.cr, Ch.lf]) hml .crlf
    · exact absurd h failAt_ne_ok
  rw [if_neg hcr] at h
  split_ifs at h with hctl
  · exact absurd h failAt_ne_ok
  · obtain rfl := Except.ok.inj h
    refine .char (isOrdinary_iff.mpr ⟨hquote, ?_, by simpa using hctl⟩)
    rintro ⟨rfl, rfl⟩
    exact hslash ⟨rfl, rfl⟩

lemma scanFrom_next {x x' : Bytes × Bytes} (h : ScanStep basic ml x (.next x')) :
    scanFrom basic ml x = scanFrom basic ml x' :=
  loop_next (scanFrom_shrinks basic ml) h.turn

/-- Induction along the turns of a scan that succeeds. -/
lemma scanFrom_rec {P : Bytes × Bytes → Bytes × Bytes → Prop}
    (stop : ∀ x y, ScanStep basic ml x (.stop y) → P x y)
    (next : ∀ x x' y, ScanStep basic ml x (.next x') → P x' y → P x y) {x y : Bytes × Bytes}
    (h : scanFrom basic ml x = .ok y) : P x y := by
  refine loop_rec (scanFrom_shrinks basic ml) (P := fun x z => z = .ok y → P x y) ?_ ?_ ?_ x h
  · intro x e _ hz
    cases hz
  · intro x b hturn hz
    obtain rfl := Except.ok.inj hz
    exact stop x b (scanTurn_step hturn)
  · intro x x' z hturn ih hz
    exact next x x' y (scanTurn_step hturn) (ih hz)

/-- A single-line body. -/
lemma scanFrom_chars : scanFrom basic false (out, r) = .ok (str, q) ↔
    ∃ t s, r = t ++ Toml.quote basic :: q ∧ str = out ++ s ∧ Toml.IsChars basic t s := by
  constructor
  · intro h
    refine scanFrom_rec (P := fun x y => ∃ t s, x.2 = t ++ Toml.quote basic :: y.2 ∧
      y.1 = x.1 ++ s ∧ Toml.IsChars basic t s) ?_ ?_ h
    · intro x y hstep
      cases hstep with
      | closeMl hml => cases hml
      | close => exact ⟨[], [], rfl, (List.append_nil _).symm, .nil⟩
    · rintro x x' y hstep ⟨t, s, ht, hs, hchars⟩
      cases hstep with
      | char hc =>
        dsimp only at ht hs ⊢
        exact ⟨_ :: t, _ :: s, by rw [ht]; rfl, by rw [hs, List.append_assoc]; rfl, .char hc hchars⟩
      | escape hb he =>
        dsimp only at ht hs ⊢
        exact ⟨_, _, by rw [ht]; simp, by rw [hs, List.append_assoc], .escape hb he hchars⟩
      | fold hb hml => cases hml
      | newline hml => cases hml
      | quotes hml => cases hml
  · rintro ⟨t, s, rfl, rfl, hchars⟩
    induction hchars generalizing out with
    | nil =>
      rw [List.append_nil]
      exact loop_stop (ScanStep.close rfl).turn
    | @char c t s hc _ ih =>
      rw [List.append_cons out c s, ← ih]
      simp only [List.cons_append]
      exact scanFrom_next (.char hc)
    | @escape e x t s hb he _ ih =>
      rw [← List.append_assoc out x s, ← ih]
      simp only [List.cons_append, List.append_assoc]
      exact scanFrom_next (.escape hb he)

lemma isMlBody_ne_nil (h : Toml.IsMlBody basic t s) : t ≠ [] := by
  cases h with
  | newline hn => cases hn <;> simp
  | quotes hn => rcases hn with rfl | rfl <;> simp [List.replicate_succ]
  | _ => simp [List.replicate_succ]

lemma head_append (ht : t ≠ []) (q : Bytes) : (t ++ q).head? = t.head? := by
  obtain ⟨c, t, rfl⟩ := List.exists_cons_of_ne_nil ht
  rfl

lemma StartsNewline.append (h : Toml.StartsNewline t) (q : Bytes) :
    Toml.StartsNewline (t ++ q) := by
  obtain ⟨n, r, hn, rfl⟩ := h
  exact ⟨n, r ++ q, hn, by rw [List.append_assoc]⟩

/-- The body of a multi-line string starts with no line end its last bytes have to complete. -/
lemma startsNewline_body (h : Toml.IsMlBody basic t s) :
    Toml.StartsNewline (t ++ q) ↔ Toml.StartsNewline t := by
  refine ⟨fun hstart => ?_, fun hstart => StartsNewline.append hstart q⟩
  rw [startsNewline_iff] at hstart ⊢
  rw [head_append (isMlBody_ne_nil h)] at hstart
  refine hstart.imp_right fun ⟨hcr, hlf⟩ => ⟨hcr, ?_⟩
  obtain ⟨-, -, hquote, -, -⟩ := quote_ne basic
  cases h with
  | close hn =>
    rw [List.replicate_succ] at hcr
    exact absurd (Option.some.inj hcr) hquote
  | quotes hn =>
    rcases hn with rfl | rfl
    all_goals exact absurd (Option.some.inj hcr) hquote
  | char hc =>
    obtain rfl := Option.some.inj hcr
    exact absurd (isOrdinary_iff.mp hc).2.2 (by decide)
  | newline hn =>
    cases hn with
    | lf => exact absurd (Option.some.inj hcr) (by decide)
    | crlf => rfl
  | escape => exact absurd (Option.some.inj hcr) (by decide)
  | fold => exact absurd (Option.some.inj hcr) (by decide)

lemma startsSolid_body (h : Toml.IsMlBody basic t s) :
    Toml.StartsSolid (t ++ q) ↔ Toml.StartsSolid t := by
  rw [Toml.StartsSolid, Toml.StartsSolid, startsNewline_body h,
    head_append (isMlBody_ne_nil h)]

/-- The body of a multi-line string. -/
lemma scanFrom_body : scanFrom basic true (out, r) = .ok (str, q) ↔
    q.head? ≠ some (Toml.quote basic) ∧
      ∃ t s, r = t ++ q ∧ str = out ++ s ∧ Toml.IsMlBody basic t s := by
  constructor
  · intro h
    refine scanFrom_rec (P := fun x y => y.2.head? ≠ some (Toml.quote basic) ∧
      ∃ t s, x.2 = t ++ y.2 ∧ y.1 = x.1 ++ s ∧ Toml.IsMlBody basic t s) ?_ ?_ h
    · intro x y hstep
      cases hstep with
      | closeMl _ hn hr => exact ⟨hr, _, _, rfl, rfl, .close hn⟩
      | close hml => cases hml
    · rintro x x' y hstep ⟨hy, t, s, ht, hs, hbody⟩
      refine ⟨hy, ?_⟩
      cases hstep with
      | char hc =>
        dsimp only at ht hs ⊢
        exact ⟨_ :: t, _ :: s, by rw [ht]; rfl, by rw [hs, List.append_assoc]; rfl, .char hc hbody⟩
      | escape hb he =>
        dsimp only at ht hs ⊢
        exact ⟨_, _, by rw [ht]; simp, by rw [hs, List.append_assoc], .escape hb he hbody⟩
      | fold hb _ he hr =>
        obtain ⟨w, n, g, hw, hn, hg, rfl⟩ := he
        dsimp only at ht hs ⊢
        rw [ht, startsSolid_body hbody] at hr
        exact ⟨_, s, by rw [ht]; simp, hs, .fold hb hw hn hg hr hbody⟩
      | newline _ hn =>
        dsimp only at ht hs ⊢
        exact ⟨_ ++ t, Ch.lf :: s, by rw [ht]; simp, by rw [hs, List.append_assoc]; rfl,
          .newline hn hbody⟩
      | quotes _ hn hr =>
        dsimp only at ht hs ⊢
        rw [ht, head_append (isMlBody_ne_nil hbody)] at hr
        exact ⟨_ ++ t, _ ++ s, by rw [ht]; simp, by rw [hs, List.append_assoc],
          .quotes hn hr hbody⟩
  · rintro ⟨hq, t, s, rfl, rfl, hbody⟩
    induction hbody generalizing out with
    | close hn => exact loop_stop (ScanStep.closeMl rfl hn hq).turn
    | quotes hn ht h ih =>
      rw [← List.append_assoc out, ← ih, List.append_assoc]
      exact scanFrom_next (.quotes rfl hn (by rwa [head_append (isMlBody_ne_nil h)]))
    | @char c t s hc _ ih =>
      rw [List.append_cons out c s, ← ih]
      exact scanFrom_next (.char hc)
    | @newline n t s hn _ ih =>
      rw [List.append_cons out _ s, ← ih, List.append_assoc]
      exact scanFrom_next (.newline rfl hn)
    | @escape e x t s hb he _ ih =>
      rw [← List.append_assoc out x s, ← ih, List.cons_append, List.append_assoc]
      exact scanFrom_next (.escape hb he)
    | @fold w n g t s hb hw hn hg ht h ih =>
      have hfold : ScanStep basic true
          (out, Ch.bslash :: ((w ++ (n ++ g)) ++ (t ++ q))) (.next (out, t ++ q)) :=
        .fold hb rfl ⟨w, n, g, hw, hn, hg, rfl⟩ ((startsSolid_body h).mpr ht)
      rw [← ih, ← scanFrom_next hfold]
      simp only [List.cons_append, List.append_assoc]

end Scanners

/-! ## Strings and quoted keys -/

section Strings

variable {basic : Bool} {r q t s : Bytes} {v : Node}

lemma singleLineBody_eq (basic : Bool) (r : Bytes) :
    singleLineBody basic r = scanFrom basic false ([], r) := by
  have hscan : scanSingle basic r = scanFrom basic false ([], r) := by cases basic <;> rfl
  rw [singleLineBody]
  cases hplain : tryPlainBody (if basic then Ch.dquote else Ch.squote) r with
  | some content => exact (scanSingle_of_plain hplain).symm.trans hscan
  | none => exact hscan

/-- A quoted key is a string on one line. -/
lemma quotedKey_iff (hr : r.head? = some Ch.dquote ∨ r.head? = some Ch.squote) :
    quotedKey r = .ok (s, q) ↔ ∃ t, r = t ++ q ∧ Toml.IsQuoted t s := by
  have key : ∀ basic cs, r = Toml.quote basic :: cs →
      (quotedKey r = .ok (s, q) ↔ ∃ t, r = t ++ q ∧ Toml.IsQuoted t s) := by
    rintro basic cs rfl
    have hb : decide ((Toml.quote basic :: cs).head? = some Ch.dquote) = basic := by
      cases basic <;> rfl
    rw [quotedKey, hb, singleLineBody_eq, List.drop_succ_cons, List.drop_zero, scanFrom_chars]
    constructor
    · rintro ⟨t, s', rfl, rfl, hchars⟩
      exact ⟨_, by simp, .mk hchars⟩
    · rintro ⟨t, ht, hquoted⟩
      obtain @⟨basic', t, s, hchars⟩ := hquoted
      obtain ⟨hquote, hrest⟩ := List.cons.inj ht
      obtain rfl : basic = basic' := by
        cases basic <;> cases basic' <;> first | rfl | exact absurd hquote (by decide)
      exact ⟨t, s, by rw [hrest]; simp, rfl, hchars⟩
  rcases hr with hr | hr
  · obtain ⟨cs, rfl⟩ := List.head?_eq_some_iff.mp hr
    exact key true cs rfl
  · obtain ⟨cs, rfl⟩ := List.head?_eq_some_iff.mp hr
    exact key false cs rfl

/-- The two routes of `parse_string` behind an opening quote. -/
lemma parseString_quote (basic : Bool) (cs : Bytes) :
    parseString (Toml.quote basic :: cs) =
      (if cs[0]? = some (Toml.quote basic) ∧ cs[1]? = some (Toml.quote basic) then
        scanFrom basic true ([], skipFirstNewline (cs.drop 2))
      else scanFrom basic false ([], cs)).map fun x => (.string x.1, x.2) := by
  have hb : decide ((Toml.quote basic :: cs).head? = some Ch.dquote) = basic := by
    cases basic <;> rfl
  have hml : ((Toml.quote basic :: cs).head?.isSome &&
      decide ((Toml.quote basic :: cs)[1]? = (Toml.quote basic :: cs).head?) &&
      decide ((Toml.quote basic :: cs)[2]? = (Toml.quote basic :: cs).head?)) =
        decide (cs[0]? = some (Toml.quote basic) ∧ cs[1]? = some (Toml.quote basic)) := by
    rw [Bool.eq_iff_iff]
    simp only [List.head?_cons, Option.isSome_some, Bool.true_and, List.getElem?_cons_succ,
      Bool.and_eq_true]
    exact ⟨fun h => decide_eq_true ⟨of_decide_eq_true h.1, of_decide_eq_true h.2⟩,
      fun h => ⟨decide_eq_true (of_decide_eq_true h).1, decide_eq_true (of_decide_eq_true h).2⟩⟩
  have hmulti : (if basic = true then scanBasic true (skipFirstNewline (cs.drop 2))
      else scanLiteral true (skipFirstNewline (cs.drop 2))) =
        scanFrom basic true ([], skipFirstNewline (cs.drop 2)) := by
    cases basic <;> rfl
  rw [parseString]
  dsimp only
  rw [hb, hml]
  simp only [List.drop_succ_cons, List.drop_zero, singleLineBody_eq, hmulti, decide_eq_true_eq]
  generalize (if cs[0]? = some (Toml.quote basic) ∧ cs[1]? = some (Toml.quote basic) then
    scanFrom basic true ([], skipFirstNewline (cs.drop 2))
    else scanFrom basic false ([], cs)) = x
  cases x <;> rfl

lemma skipFirstNewline_newline {n : Bytes} (hn : Toml.IsNewline n) (r : Bytes) :
    skipFirstNewline (n ++ r) = r := by
  cases hn <;> rfl

lemma skipFirstNewline_plain (hr : ¬ Toml.StartsNewline r) : skipFirstNewline r = r := by
  rw [startsNewline_iff, not_or] at hr
  rw [skipFirstNewline, if_neg hr.2, if_neg hr.1]

/-- What is read as a string is one. -/
lemma parseString_sound (hr : r.head? = some Ch.dquote ∨ r.head? = some Ch.squote)
    (h : parseString r = .ok (v, q)) :
    ∃ t s, r = t ++ q ∧ v = .string s ∧ Toml.IsString t s := by
  obtain ⟨basic, cs, rfl⟩ : ∃ basic cs, r = Toml.quote basic :: cs := by
    rcases hr with hr | hr
    · obtain ⟨cs, rfl⟩ := List.head?_eq_some_iff.mp hr
      exact ⟨true, cs, rfl⟩
    · obtain ⟨cs, rfl⟩ := List.head?_eq_some_iff.mp hr
      exact ⟨false, cs, rfl⟩
  rw [parseString_quote] at h
  obtain ⟨⟨str, q'⟩, hscan, heq⟩ := map_eq_ok_iff.mp h
  obtain ⟨rfl, rfl⟩ := Prod.mk.inj heq
  split_ifs at hscan with hml
  · obtain ⟨-, t, s, ht, rfl, hbody⟩ := scanFrom_body.mp hscan
    obtain ⟨cs, rfl⟩ : ∃ u, cs = Toml.quote basic :: Toml.quote basic :: u := by
      obtain _ | ⟨a, _ | ⟨b, u⟩⟩ := cs
      · exact absurd hml.1 (by simp)
      · exact absurd hml.2 (by simp)
      · obtain rfl := Option.some.inj hml.1
        obtain rfl := Option.some.inj hml.2
        exact ⟨u, rfl⟩
    rw [List.drop_succ_cons, List.drop_succ_cons, List.drop_zero] at ht
    by_cases hstart : Toml.StartsNewline cs
    · obtain ⟨n, u, hn, rfl⟩ := hstart
      rw [skipFirstNewline_newline hn] at ht
      exact ⟨_, _, by rw [ht]; simp [List.replicate_succ], rfl, .inr (.newline hn hbody)⟩
    · rw [skipFirstNewline_plain hstart] at ht
      subst ht
      rw [startsNewline_body hbody] at hstart
      exact ⟨_, _, by simp [List.replicate_succ], rfl, .inr (.plain hstart hbody)⟩
  · obtain ⟨t, s, rfl, rfl, hchars⟩ := scanFrom_chars.mp hscan
    exact ⟨Toml.quote basic :: (t ++ [Toml.quote basic]), _, by simp, rfl, .inl (.mk hchars)⟩

/-- A string is read, up to what follows it. -/
lemma parseString_complete (ht : Toml.IsString t s)
    (hq : ∀ basic, q.head? ≠ some (Toml.quote basic)) :
    parseString (t ++ q) = .ok (.string s, q) := by
  have multi : ∀ basic u, (∃ body, skipFirstNewline (u ++ q) = body ++ q ∧
      Toml.IsMlBody basic body s) →
      parseString (List.replicate 3 (Toml.quote basic) ++ u ++ q) = .ok (.string s, q) := by
    rintro basic u ⟨body, hskip, hbody⟩
    have hscan : scanFrom basic true ([], body ++ q) = .ok (s, q) :=
      scanFrom_body.mpr ⟨hq basic, body, s, rfl, rfl, hbody⟩
    rw [List.append_assoc]
    change parseString (Toml.quote basic :: Toml.quote basic :: Toml.quote basic :: (u ++ q)) = _
    rw [parseString_quote, if_pos ⟨rfl, rfl⟩, List.drop_succ_cons, List.drop_succ_cons,
      List.drop_zero, hskip, hscan]
    rfl
  rcases ht with hquoted | hml
  · obtain @⟨basic, t, s, hchars⟩ := hquoted
    have hsingle : ¬ ((t ++ [Toml.quote basic] ++ q)[0]? = some (Toml.quote basic) ∧
        (t ++ [Toml.quote basic] ++ q)[1]? = some (Toml.quote basic)) := by
      rintro ⟨h0, h1⟩
      cases hchars with
      | nil => exact hq basic (by rw [List.head?_eq_getElem?]; exact h1)
      | char hc => exact (isOrdinary_iff.mp hc).1 (Option.some.inj h0)
      | escape => exact (quote_ne basic).1 (Option.some.inj h0).symm
    have hscan : scanFrom basic false ([], t ++ [Toml.quote basic] ++ q) = .ok (s, q) :=
      scanFrom_chars.mpr ⟨t, s, by simp, rfl, hchars⟩
    rw [List.cons_append, parseString_quote, if_neg hsingle, hscan]
    rfl
  · cases hml with
    | @newline basic n body s hn hbody =>
      exact multi basic _ ⟨body, by rw [List.append_assoc, skipFirstNewline_newline hn], hbody⟩
    | @plain basic body s hstart hbody =>
      exact multi basic _ ⟨body, skipFirstNewline_plain (by rwa [startsNewline_body hbody]), hbody⟩

end Strings

end Teptris
