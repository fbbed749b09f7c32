import Teptris.Parse.PlainBody

/-!
# The editor's strings

`edit_skip_string` of `edit.c` steps over a string without decoding it.  Where the parser accepts
a string the two stop at the same byte (`editSkipString_eq`).
-/

namespace Teptris

open Loop

/-! ## The skipper -/

/-- The loop of `edit_skip_string`, the first `skip` bytes being passed over; `none` is the
`NULL` of an unterminated string. -/
def editScan (q : UInt8) (ml : Bool) : ℕ → Bytes → Option Bytes
  | _, [] => none
  | skip + 1, _ :: r => editScan q ml skip r
  | 0, c :: r =>
    if q = Ch.dquote ∧ c = Ch.bslash then if r = [] then none else editScan q ml 1 r
    else if c = q then
      let run := ((c :: r).takeWhile (· = q)).length
      if ¬ ml then some r
      else if 3 ≤ run then some ((c :: r).drop run)
      else editScan q ml (run - 1) r
    else editScan q ml 0 r

/-- `edit_skip_string`, from the opening quote; the result is what follows the string. -/
def editSkipString (p : Bytes) : Option Bytes :=
  match p with
  | [] => none
  | q :: r =>
    let ml : Bool := r[0]? = some q && r[1]? = some q
    editScan q ml 0 (if ml then r.drop 2 else r)

/-! ## The skipper and the scanners -/

variable {q : UInt8} {ml : Bool}

lemma editScan_skip (k : ℕ) (r : Bytes) : editScan q ml k r = editScan q ml 0 (r.drop k) := by
  induction k generalizing r with
  | zero => rfl
  | succ k ih =>
    cases r with
    | nil => rfl
    | cons c r => exact ih r

/-- A byte the skipper steps over: no quote, and no backslash of a basic string. -/
def Passed (q c : UInt8) : Prop := c ≠ q ∧ ¬ (q = Ch.dquote ∧ c = Ch.bslash)

lemma editScan_passed {c : UInt8} (h : Passed q c) (r : Bytes) :
    editScan q ml 0 (c :: r) = editScan q ml 0 r := by
  rw [editScan, if_neg h.2, if_neg h.1]

/-- White space and line ends are stepped over. -/
lemma passed_of_space {c : UInt8} (hq : q = Ch.dquote ∨ q = Ch.squote)
    (h : isWs c = true ∨ c = Ch.lf ∨ c = Ch.cr) : Passed q c := by
  rcases hq with rfl | rfl <;> rcases h with h | rfl | rfl <;>
    grind [Passed, isWs]

lemma passed_of_isHex {c : UInt8} (h : isHex c = true) : Passed Ch.dquote c := by
  grind [Passed, isHex, isDec]

/-- The white space behind a line-ending backslash. -/
lemma editScan_trimLines (hq : q = Ch.dquote ∨ q = Ch.squote) (r : Bytes) :
    editScan q ml 0 (trimLines r) = editScan q ml 0 r := by
  have hspace : ∀ {c : UInt8}, (isWs c || decide (c = Ch.lf)) = true → Passed q c := by
    intro c h
    rw [Bool.or_eq_true, decide_eq_true_eq] at h
    exact passed_of_space hq (h.imp_right .inl)
  fun_induction trimLines r with
  | case1 => rfl
  | case2 c h => rw [editScan_passed (hspace h)]
  | case3 c h => rfl
  | case4 c d ds h ih => rw [ih, editScan_passed (hspace h)]
  | case5 d c ds h hcr ih =>
    rw [ih, editScan_passed (passed_of_space hq (.inr (.inr hcr.1))),
      editScan_passed (passed_of_space hq (.inr (.inl hcr.2)))]
  | case6 c d ds h hcr => rfl

/-- Hexadecimal digits. -/
lemma editScan_readHex {n v cp : ℕ} {r r' : Bytes} (h : readHex n v r = .ok (cp, r')) :
    editScan Ch.dquote ml 0 r = editScan Ch.dquote ml 0 r' := by
  induction n generalizing v r with
  | zero => simp_all [readHex]
  | succ n ih =>
    cases r with
    | nil => simp [readHex] at h
    | cons c r =>
      rw [readHex] at h
      split_ifs at h with hc
      · rw [editScan_passed (passed_of_isHex hc)]
        exact ih h
      · exact absurd h failAt_ne_ok

lemma editScan_unicodeEscape {digits : ℕ} {r r' o : Bytes}
    (h : unicodeEscape digits r = .ok (o, r')) :
    editScan Ch.dquote ml 0 r = editScan Ch.dquote ml 0 r' := by
  rw [unicodeEscape] at h
  cases hr : readHex digits 0 r with
  | error e => simp [hr] at h
  | ok x =>
    simp only [hr] at h
    split_ifs at h with hcp
    · exact absurd h failAt_ne_ok
    · obtain rfl : x.2 = r' := (Prod.mk.inj (Except.ok.inj h)).2
      exact editScan_readHex hr

/-- An escape: the skipper passes over its first byte and over what follows it. -/
lemma editScan_scanEscape {r r' o : Bytes} (h : scanEscape ml r = .ok (o, r')) :
    r ≠ [] ∧ editScan Ch.dquote ml 1 r = editScan Ch.dquote ml 0 r' := by
  obtain _ | ⟨e, es⟩ := r
  · simp [scanEscape] at h
  refine ⟨by simp, ?_⟩
  change editScan Ch.dquote ml 0 es = _
  rw [scanEscape] at h
  by_cases hml : (ml && (isWs e || e = Ch.lf || e = Ch.cr)) = true
  · rw [if_pos hml] at h
    split_ifs at h with hnl
    · obtain ⟨rfl, rfl⟩ : [] = o ∧ trimLines (e :: es) = r' := by simpa using h
      have he : isWs e = true ∨ e = Ch.lf ∨ e = Ch.cr := by
        simp only [Bool.and_eq_true, Bool.or_eq_true, decide_eq_true_eq, or_assoc] at hml
        exact hml.2
      rw [editScan_trimLines (.inl rfl), editScan_passed (passed_of_space (.inl rfl) he)]
    · exact absurd h failAt_ne_ok
  rw [if_neg hml] at h
  cases hs : shortEscape e with
  | some b =>
    simp only [hs] at h
    obtain ⟨rfl, rfl⟩ : [b] = o ∧ es = r' := by simpa using h
    rfl
  | none =>
    simp only [hs] at h
    split_ifs at h with hx hu hU
    · rw [hexEscape] at h
      cases hr : readHex 2 0 es with
      | error e => simp [hr] at h
      | ok x =>
        obtain rfl : x.2 = r' := by simp [hr] at h; exact h.2
        exact editScan_readHex hr
    · exact editScan_unicodeEscape h
    · exact editScan_unicodeEscape h
    · exact absurd h failAt_ne_ok

/-- Quotes inside a multi-line string, and those that close it. -/
lemma editScan_quotes (hq : q = Ch.dquote ∨ q = Ch.squote) {out r : Bytes}
    (hr : r.head? = some q) {t : Turn (Bytes × Bytes) (Bytes × Bytes)}
    (h : scanQuotes q out r = .ok t) :
    (∃ o r', t = .next (o, r') ∧ editScan q true 0 r = editScan q true 0 r') ∨
      ∃ o r', t = .stop (o, r') ∧ editScan q true 0 r = some r' := by
  obtain _ | ⟨c, cs⟩ := r
  · simp at hr
  obtain rfl : c = q := by simpa using hr
  have hbs : ¬ (c = Ch.dquote ∧ c = Ch.bslash) := by grind
  have hrun : ((c :: cs).takeWhile (· = c)).length = (cs.takeWhile (· = c)).length + 1 := by simp
  rw [editScan, if_neg hbs, if_pos rfl]
  simp only [scanQuotes, hrun] at h ⊢
  generalize (cs.takeWhile (· = c)).length = run at h ⊢
  generalize (if 3 ≤ run + 1 then run + 1 - 3 else run + 1) = content at h
  split_ifs at h with h6 h2
  · exact absurd h failAt_ne_ok
  · obtain rfl := Except.ok.inj h
    refine .inl ⟨_, _, rfl, ?_⟩
    rw [if_neg (by simp), if_neg (show ¬ 3 ≤ run + 1 by omega), editScan_skip]
    rfl
  · obtain rfl := Except.ok.inj h
    refine .inr ⟨_, _, rfl, ?_⟩
    rw [if_neg (by simp), if_pos (show 3 ≤ run + 1 by omega)]

/-- The two scanners of the parser. -/
def ScannerOf (q : UInt8) (ml : Bool)
    (escape : Option (Bytes → Except Diag (Bytes × Bytes))) : Prop :=
  q = Ch.dquote ∧ escape = some (scanEscape ml) ∨ q = Ch.squote ∧ escape = none

variable {escape : Option (Bytes → Except Diag (Bytes × Bytes))}

lemma ScannerOf.quote (hq : ScannerOf q ml escape) : q = Ch.dquote ∨ q = Ch.squote :=
  hq.imp And.left And.left

/-- Where a scanner goes on, the skipper comes by. -/
lemma editScan_next (hq : ScannerOf q ml escape) {s s' : Bytes × Bytes}
    (h : scanTurn q escape ml s = .ok (.next s')) :
    editScan q ml 0 s.2 = editScan q ml 0 s'.2 := by
  obtain ⟨out, _ | ⟨c, cs⟩⟩ := s
  · simp [scanTurn] at h
  simp only [scanTurn] at h
  split_ifs at h with hc hml hbs hlf hml hcr hcrlf hctl
  · subst hml
    rcases editScan_quotes hq.quote (by simp [hc]) h with ⟨o, r', ht, he⟩ | ⟨o, r', ht, -⟩
    · obtain rfl := (Turn.next.inj ht)
      exact he
    · exact absurd ht (by simp)
  · simp at h
  · rcases hq with ⟨rfl, rfl⟩ | ⟨rfl, rfl⟩
    · simp only [Option.getD_some] at h
      cases he : scanEscape ml cs with
      | error e => simp [he] at h
      | ok x =>
        obtain rfl : (out ++ x.1, x.2) = s' := by simpa [he] using h
        obtain ⟨hne, hskip⟩ := editScan_scanEscape he
        rw [editScan, if_pos ⟨rfl, hbs.1⟩, if_neg hne]
        exact hskip
    · exact absurd hbs.2 (by simp)
  · obtain rfl : (out ++ [Ch.lf], cs) = s' := by simpa using h
    exact editScan_passed (passed_of_space hq.quote (.inr (.inl hlf))) cs
  · exact absurd h failAt_ne_ok
  · obtain rfl : (out ++ [Ch.lf], cs.drop 1) = s' := by simpa using h
    obtain ⟨d, cs, rfl⟩ := List.exists_cons_of_ne_nil
      (fun h0 => by simp [h0] at hcrlf : cs ≠ [])
    obtain rfl : d = Ch.lf := by simpa using hcrlf.2
    exact (editScan_passed (passed_of_space hq.quote (.inr (.inr hcr))) _).trans
      (editScan_passed (passed_of_space hq.quote (.inr (.inl rfl))) cs)
  · exact absurd h failAt_ne_ok
  · exact absurd h failAt_ne_ok
  · obtain rfl : (out ++ [c], cs) = s' := by simpa using h
    refine editScan_passed ⟨hc, fun hb => ?_⟩ cs
    rcases hq with ⟨rfl, rfl⟩ | ⟨rfl, rfl⟩
    · exact hbs ⟨hb.2, rfl⟩
    · exact absurd hb.1 (by decide)

/-- Where a scanner stops, the skipper stops. -/
lemma editScan_stop (hq : ScannerOf q ml escape) {s s' : Bytes × Bytes}
    (h : scanTurn q escape ml s = .ok (.stop s')) : editScan q ml 0 s.2 = some s'.2 := by
  obtain ⟨out, _ | ⟨c, cs⟩⟩ := s
  · simp [scanTurn] at h
  simp only [scanTurn] at h
  split_ifs at h with hc hml hbs hlf hml hcr hcrlf hctl
  · subst hml
    rcases editScan_quotes hq.quote (by simp [hc]) h with ⟨o, r', ht, -⟩ | ⟨o, r', ht, he⟩
    · exact absurd ht (by simp)
    · obtain rfl := (Turn.stop.inj ht)
      exact he
  · obtain rfl : (out, cs) = s' := by simpa using h
    have hbs : ¬ (q = Ch.dquote ∧ c = Ch.bslash) := by
      rcases hq.quote with rfl | rfl <;> grind
    rw [editScan, if_neg hbs, if_pos hc]
    simp only [if_pos hml]
  · split at h <;> simp at h
  · simp at h
  · exact absurd h failAt_ne_ok
  · simp at h
  · exact absurd h failAt_ne_ok
  · exact absurd h failAt_ne_ok
  · simp at h

/-- A scanner and the skipper end at the same byte. -/
lemma editScan_loop (hq : ScannerOf q ml escape) {r r' str : Bytes}
    (h : loop (scanTurn q escape ml) Diag.stuck (fun s => s.2.length) ([], r) = .ok (str, r')) :
    editScan q ml 0 r = some r' :=
  loop_invariant (I := fun s => editScan q ml 0 r = editScan q ml 0 s.2)
    (Q := fun s => editScan q ml 0 r = some s.2)
    (fun _ _ hs hn => hs.trans (editScan_next hq hn))
    (fun _ _ hs hn => hs.trans (editScan_stop hq hn)) rfl h

lemma editScan_basic {r r' str : Bytes} (h : scanBasic ml r = .ok (str, r')) :
    editScan Ch.dquote ml 0 r = some r' :=
  editScan_loop (.inl ⟨rfl, rfl⟩) h

lemma editScan_literal {r r' str : Bytes} (h : scanLiteral ml r = .ok (str, r')) :
    editScan Ch.squote ml 0 r = some r' :=
  editScan_loop (.inr ⟨rfl, rfl⟩) h

/-- The line end behind the opening quotes. -/
lemma editScan_skipFirstNewline (hq : q = Ch.dquote ∨ q = Ch.squote) (r : Bytes) :
    editScan q ml 0 (skipFirstNewline r) = editScan q ml 0 r := by
  have hpassed : ∀ {c : UInt8} {s : Bytes}, s.head? = some c → c = Ch.lf ∨ c = Ch.cr →
      editScan q ml 0 (s.drop 1) = editScan q ml 0 s := by
    intro c s hs hc
    obtain ⟨s, rfl⟩ := List.head?_eq_some_iff.1 hs
    exact (editScan_passed (passed_of_space hq (.inr hc)) s).symm
  rw [skipFirstNewline]
  split_ifs with hcrlf hlf
  · rw [← List.drop_drop (i := 1) (j := 1), hpassed _ (.inl rfl), hpassed hcrlf.1 (.inr rfl)]
    rw [List.head?_drop, hcrlf.2]
  · exact hpassed hlf (.inl rfl)
  · rfl

lemma editScan_singleLine {basic : Bool} {r r' str : Bytes}
    (h : singleLineBody basic r = .ok (str, r')) :
    editScan (quoteOf basic) false 0 r = some r' := by
  have hscan : scanSingle basic r = .ok (str, r') := by
    rw [singleLineBody] at h
    cases hp : tryPlainBody (quoteOf basic) r with
    | some content =>
      simp only [quoteOf] at hp
      simp only [hp] at h
      rw [← h]
      exact scanSingle_of_plain hp
    | none =>
      simp only [quoteOf] at hp
      simp only [hp] at h
      exact h
  cases basic with
  | true => exact editScan_basic hscan
  | false => exact editScan_literal hscan

/-- Wherever the parser reads a string, `edit_skip_string` stops where the parser does. -/
theorem editSkipString_eq {r r' : Bytes} {v : Node}
    (hr : r.head? = some Ch.dquote ∨ r.head? = some Ch.squote)
    (h : parseString r = .ok (v, r')) : editSkipString r = some r' := by
  obtain _ | ⟨q, cs⟩ := r
  · simp at hr
  have hq : q = Ch.dquote ∨ q = Ch.squote := by simpa using hr
  have hquote : quoteOf (q = Ch.dquote) = q := by
    rcases hq with rfl | rfl <;> rfl
  simp only [parseString, List.head?_cons, Option.some.injEq, Option.isSome_some, Bool.true_and,
    List.drop_succ_cons, List.drop_zero, List.getElem?_cons_succ] at h
  split at h
  · simp at h
  next s s' hbody =>
  obtain rfl : s' = r' := (Prod.mk.inj (Except.ok.inj h)).2
  have hskip : ∀ {b : Bool}, (cs[0]? = some q ∧ cs[1]? = some q ↔ b = true) →
      editSkipString (q :: cs) = editScan q b 0 (if b then cs.drop 2 else cs) := by
    rintro b hb
    have hml : (decide (cs[0]? = some q) && decide (cs[1]? = some q)) = b := by
      cases b <;> simpa using hb
    rw [editSkipString, hml]
  have hmulti : cs[0]? = some q ∧ cs[1]? = some q →
      editSkipString (q :: cs) = editScan q true 0 (skipFirstNewline (cs.drop 2)) := fun h => by
    rw [hskip (b := true) (by simpa using h), if_pos rfl, editScan_skipFirstNewline hq]
  split_ifs at hbody with hml hbasic
  · have hml := Bool.and_eq_true_iff.1 hml
    rw [hmulti ⟨of_decide_eq_true hml.1, of_decide_eq_true hml.2⟩]
    obtain rfl : q = Ch.dquote := by simpa using hbasic
    exact editScan_basic hbody
  · have hml := Bool.and_eq_true_iff.1 hml
    rw [hmulti ⟨of_decide_eq_true hml.1, of_decide_eq_true hml.2⟩]
    obtain rfl := hq.resolve_left (by simpa using hbasic)
    exact editScan_literal hbody
  · have hml : ¬ (cs[0]? = some q ∧ cs[1]? = some q) := fun h =>
      hml (Bool.and_eq_true_iff.2 ⟨decide_eq_true h.1, decide_eq_true h.2⟩)
    have hline := editScan_singleLine hbody
    rw [hquote] at hline
    rw [hskip (b := false) (by simpa using hml)]
    exact hline

/-- `"a\""`, with a space behind it. -/
theorem editSkipString_escape : editSkipString [0x22, 0x61, 0x5C, 0x22, 0x22, 0x20] = some [0x20] :=
  @editSkipString_eq _ _ (.string [0x61, 0x22]) (.inl rfl) (by rfl)

end Teptris
