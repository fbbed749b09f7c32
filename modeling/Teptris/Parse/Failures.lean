import Mathlib.Data.Nat.Find
import Teptris.Parse.InvalidAt
import Teptris.Parse.Limit

/-!
# Failures

Every failure of the parser is reported at a position of its input and is one of four kinds: the
internal ones never show.
-/

namespace Teptris

open Loop

/-! ## Where and why -/

/-- What fails does so at a position of `r`, for one of the reasons `kinds`. -/
def FailsIn {α : Type} (kinds : List Status) (r : Bytes) (x : Except Diag α) : Prop :=
  ∀ e, x = .error e → e.pos <:+ r ∧ e.status ∈ kinds

section FailsIn

variable {α β : Type} {kinds : List Status} {r p : Bytes} {x : Except Diag α}

lemma FailsIn.ok (a : α) : FailsIn kinds r (.ok a : Except Diag α) := by
  intro e h
  cases h

lemma FailsIn.failNaming {st : Status} {fmt : String} {args : List Bytes} (hp : p <:+ r)
    (hst : st ∈ kinds) : FailsIn kinds r (failNaming p st fmt args : Except Diag α) := by
  intro e h
  cases h
  exact ⟨hp, hst⟩

lemma FailsIn.failAt {st : Status} {fmt : String} (hp : p <:+ r) (hst : st ∈ kinds) :
    FailsIn kinds r (failAt p st fmt : Except Diag α) :=
  .failNaming hp hst

/-- A failure is passed on. -/
lemma FailsIn.pass (h : FailsIn kinds r x) {e : Diag} (hx : x = .error e) :
    FailsIn kinds r (.error e : Except Diag β) := by
  intro e' he'
  cases he'
  exact h e hx

/-- From a later position. -/
lemma FailsIn.mono (h : FailsIn kinds p x) (hp : p <:+ r) : FailsIn kinds r x :=
  fun e he => ⟨(h e he).1.trans hp, (h e he).2⟩

/-- For more reasons. -/
lemma FailsIn.of_subset {kinds' : List Status} (h : FailsIn kinds r x) (hk : kinds ⊆ kinds') :
    FailsIn kinds' r x :=
  fun e he => ⟨(h e he).1, hk (h e he).2⟩

lemma FailsIn.map (h : FailsIn kinds r x) (f : α → β) : FailsIn kinds r (x.map f) := by
  cases x with
  | error e => exact h.pass rfl
  | ok a => exact .ok _

/-- A loop over the rest of its input fails where its turns do. -/
lemma FailsIn.loop {σ : Type} {turn : σ → Except Diag (Turn σ β)} {size : σ → ℕ}
    (rest : σ → Bytes) (hshrinks : Shrinks turn size)
    (hnext : ∀ s s', turn s = .ok (.next s') → rest s' <:+ rest s) (s : σ)
    (hturn : ∀ s', rest s' <:+ rest s → FailsIn kinds (rest s') (turn s')) :
    FailsIn kinds (rest s) (loop turn Diag.stuck size s) := by
  intro e he
  have hfail : ∀ s' e', rest s' <:+ rest s → turn s' = .error e' →
      e'.pos <:+ rest s ∧ e'.status ∈ kinds :=
    fun s' e' hs' he' => (hturn s' hs').mono hs' e' he'
  exact loop_fails hshrinks (I := fun s' => rest s' <:+ rest s)
    (F := fun e => e.pos <:+ rest s ∧ e.status ∈ kinds)
    (fun s₁ s₂ h₁ h₂ => (hnext s₁ s₂ h₂).trans h₁) hfail List.suffix_rfl he

end FailsIn

/-- The one reason of the scanners. -/
abbrev syntaxOnly : List Status := [.errSyntax]

/-! ## White space and comments -/

lemma commentBody_fails (r : Bytes) : FailsIn syntaxOnly r (commentBody r) := by
  induction r with
  | nil => exact .ok _
  | cons c cs ih =>
    rw [commentBody]
    split_ifs
    · exact .ok _
    · exact .ok _
    · exact .failAt List.suffix_rfl (by simp)
    · exact .failAt List.suffix_rfl (by simp)
    · exact ih.mono (List.suffix_cons _ _)

lemma skipComment_fails (r : Bytes) : FailsIn syntaxOnly r (skipComment r) :=
  (commentBody_fails _).mono (List.drop_suffix _ _)

lemma skipWsNl_fails (r : Bytes) : FailsIn syntaxOnly r (skipWsNl r) := by
  refine FailsIn.loop id skipWsNl_shrinks
    (fun s s' h => (skipWsNlTurn_next h).suffix) r ?_
  rintro r -
  cases r with
  | nil => exact .ok _
  | cons c cs =>
    simp only [skipWsNlTurn]
    split_ifs
    · exact .ok _
    · exact .ok _
    · exact .ok _
    · exact (skipComment_fails _).map _
    · exact .ok _

lemma skipArrayGap_fails (r : Bytes) : FailsIn syntaxOnly r (skipArrayGap r) := by
  refine FailsIn.loop id skipArrayGap_shrinks
    (fun s s' h => (skipArrayGapTurn_next h).suffix) r ?_
  rintro r -
  have hws : r.dropWhile isWs <:+ r := List.dropWhile_suffix _
  rw [skipArrayGapTurn]
  split
  · exact .ok _
  next c cs heq =>
    rw [heq] at hws
    split_ifs
    · exact .ok _
    · exact ((skipWsNl_fails _).mono hws).map _
    · exact ((skipWsNl_fails _).mono hws).map _
    · exact .ok _

lemma lineEnd_fails (r : Bytes) : FailsIn syntaxOnly r (lineEnd r) := by
  cases r with
  | nil => exact .ok _
  | cons c cs =>
    simp only [lineEnd]
    split_ifs
    · exact .ok _
    · exact .ok _
    · exact .failAt List.suffix_rfl (by simp)

lemma finishLine_fails (r : Bytes) : FailsIn syntaxOnly r (finishLine r) := by
  have hws := (reaches_skipWs r).suffix
  simp only [finishLine]
  split_ifs with hhash
  · cases hc : skipComment (skipWs r) with
    | error e => exact ((skipComment_fails _).pass hc).mono hws
    | ok r' => exact (lineEnd_fails r').mono ((behind_skipComment hhash hc).suffix.trans hws)
  · exact (lineEnd_fails _).mono hws

/-! ## Strings -/

lemma readHex_fails (n v : ℕ) (r : Bytes) : FailsIn syntaxOnly r (readHex n v r) := by
  induction n generalizing v r with
  | zero => exact .ok _
  | succ n ih =>
    cases r with
    | nil => exact .failAt List.suffix_rfl (by simp)
    | cons c cs =>
      rw [readHex]
      split_ifs
      · exact (ih _ cs).mono (List.suffix_cons _ _)
      · exact .failAt List.suffix_rfl (by simp)

lemma hexEscape_fails (n : ℕ) (r : Bytes) : FailsIn syntaxOnly r (hexEscape n r) := by
  rw [hexEscape]
  cases h : readHex n 0 r with
  | error e => exact (readHex_fails n 0 r).pass h
  | ok x => exact .ok _

lemma unicodeEscape_fails (n : ℕ) (r : Bytes) : FailsIn syntaxOnly r (unicodeEscape n r) := by
  rw [unicodeEscape]
  cases h : readHex n 0 r with
  | error e => exact (readHex_fails n 0 r).pass h
  | ok x =>
    dsimp only
    split_ifs
    · exact .failAt (readHex_spec h).1.suffix (by simp)
    · exact .ok _

lemma scanEscape_fails (ml : Bool) (r : Bytes) : FailsIn syntaxOnly r (scanEscape ml r) := by
  cases r with
  | nil => exact .failAt List.suffix_rfl (by simp)
  | cons e es =>
    have htail : es <:+ e :: es := List.suffix_cons _ _
    simp only [scanEscape]
    split_ifs
    · exact .ok _
    · exact .failAt List.suffix_rfl (by simp)
    all_goals
      split
      · exact .ok _
    · exact (hexEscape_fails 2 es).mono htail
    · exact (unicodeEscape_fails 4 es).mono htail
    · exact (unicodeEscape_fails 8 es).mono htail
    · exact .failAt List.suffix_rfl (by simp)

lemma scanQuotes_fails (quote : UInt8) (out r : Bytes) :
    FailsIn syntaxOnly r (scanQuotes quote out r) := by
  simp only [scanQuotes]
  split_ifs
  all_goals
    first
    | exact .ok _
    | exact .failAt List.suffix_rfl (by simp)

/-- A scanner, where its escape routine fails in its input. -/
lemma scan_fails {quote : UInt8} {escape : Option (Bytes → Except Diag (Bytes × Bytes))}
    {ml : Bool} (hq : quote < Ch.del) (hesc : EscapeOk escape)
    (hfails : ∀ f ∈ escape, ∀ r, FailsIn syntaxOnly r (f r)) (r : Bytes) :
    FailsIn syntaxOnly r
      (loop (scanTurn quote escape ml) Diag.stuck (fun s => s.2.length) ([], r)) := by
  refine FailsIn.loop Prod.snd (scan_shrinks hq hesc)
    (fun s s' h => (scanTurn_next hq hesc h).suffix) ([], r) ?_
  rintro ⟨out, _ | ⟨c, cs⟩⟩ -
  · exact .failAt List.suffix_rfl (by simp)
  · simp only [scanTurn]
    split_ifs with hquote hml hbs
    · exact scanQuotes_fails _ _ _
    · exact .ok _
    · obtain ⟨f, rfl⟩ := Option.isSome_iff_exists.mp hbs.2
      cases hf : f cs with
      | error e =>
        simp only [Option.getD_some, hf]
        exact ((hfails f rfl cs).pass hf).mono (List.suffix_cons _ _)
      | ok x =>
        simp only [Option.getD_some, hf]
        exact .ok _
    all_goals
      first
      | exact .ok _
      | exact .failAt List.suffix_rfl (by simp)

lemma scanBasic_fails (ml : Bool) (r : Bytes) : FailsIn syntaxOnly r (scanBasic ml r) := by
  refine scan_fails (by decide) (escapeOk_scanEscape ml) ?_ r
  intro f hf r
  obtain rfl : scanEscape ml = f := by simpa using hf
  exact scanEscape_fails ml r

lemma scanLiteral_fails (ml : Bool) (r : Bytes) : FailsIn syntaxOnly r (scanLiteral ml r) :=
  scan_fails (by decide) escapeOk_none (fun f hf => by simp at hf) r

lemma singleLineBody_fails (basic : Bool) (r : Bytes) :
    FailsIn syntaxOnly r (singleLineBody basic r) := by
  rw [singleLineBody]
  split
  · exact .ok _
  · split_ifs
    · exact scanBasic_fails _ _
    · exact scanLiteral_fails _ _

lemma parseString_fails (r : Bytes) : FailsIn syntaxOnly r (parseString r) := by
  simp only [parseString]
  split
  next e he =>
    split_ifs at he
    · exact ((scanBasic_fails _ _).pass he).mono
        ((reaches_skipFirstNewline _).suffix.trans (List.drop_suffix _ _))
    · exact ((scanLiteral_fails _ _).pass he).mono
        ((reaches_skipFirstNewline _).suffix.trans (List.drop_suffix _ _))
    · exact ((singleLineBody_fails _ _).pass he).mono (List.drop_suffix _ _)
  · exact .ok _

lemma quotedKey_fails (r : Bytes) : FailsIn syntaxOnly r (quotedKey r) :=
  (singleLineBody_fails _ _).mono (List.drop_suffix _ _)

/-! ## Numbers -/

lemma expectWord_fails (w r : Bytes) : FailsIn syntaxOnly r (expectWord w r) := by
  rw [expectWord]
  split_ifs
  · exact .ok _
  · exact .failAt List.suffix_rfl (by simp)

lemma scanRunFrom_fails (radix : ℕ) (buf : Bytes) (prevDigit : Bool) (r : Bytes) :
    FailsIn syntaxOnly r (scanRunFrom radix buf prevDigit r) := by
  have hfinish : ∀ (buf : Bytes) (prevDigit : Bool) (r : Bytes),
      FailsIn syntaxOnly r (scanRunFrom.finish buf prevDigit r) := by
    intro buf prevDigit r
    rw [scanRunFrom.finish]
    split_ifs
    · exact .failAt List.suffix_rfl (by simp)
    · exact .failAt List.suffix_rfl (by simp)
    · exact .ok _
  induction r generalizing buf prevDigit with
  | nil => exact hfinish _ _ _
  | cons c cs ih =>
    rw [scanRunFrom]
    split_ifs
    · exact .failAt List.suffix_rfl (by simp)
    · exact (ih _ _).mono (List.suffix_cons _ _)
    · exact .failAt List.suffix_rfl (by simp)
    · exact (ih _ _).mono (List.suffix_cons _ _)
    · exact hfinish _ _ _

lemma scanRun_fails (radix : ℕ) (r : Bytes) : FailsIn syntaxOnly r (scanRun radix r) :=
  scanRunFrom_fails radix [] false r

lemma dropDigits_suffix (r : Bytes) : r.dropWhile isDec <:+ r := List.dropWhile_suffix _

lemma copyExp_fails (fbuf r : Bytes) : FailsIn syntaxOnly r (copyExp fbuf r) := by
  have hsign := (reaches_dropSign (r.drop 1)).suffix.trans (List.drop_suffix 1 r)
  simp only [copyExp]
  split_ifs at hsign ⊢
  all_goals
    first
    | exact .ok _
    | exact .failAt ((dropDigits_suffix _).trans hsign) (by simp)

lemma floatCopy_fails (neg : Bool) (ds r : Bytes) : FailsIn syntaxOnly r (floatCopy neg ds r) := by
  have hdigits := (dropDigits_suffix (r.drop 1)).trans (List.drop_suffix 1 r)
  simp only [floatCopy]
  by_cases hdot : r.head? = some Ch.dot
  · rw [if_pos hdot]
    split_ifs
    · exact .failAt hdigits (by simp)
    · exact .ok _
    all_goals exact (copyExp_fails _ _).mono hdigits
  · rw [if_neg hdot]
    exact copyExp_fails _ _

lemma slowFrac_fails (fbuf r : Bytes) : FailsIn syntaxOnly r (slowFrac fbuf r) := by
  rw [slowFrac]
  split_ifs
  · cases h : scanRun 10 (r.drop 1) with
    | error e => exact ((scanRun_fails _ _).pass h).mono (List.drop_suffix _ _)
    | ok x => exact .ok _
  · exact .ok _

lemma slowExp_fails (fbuf r : Bytes) : FailsIn syntaxOnly r (slowExp fbuf r) := by
  have hsign := (reaches_dropSign (r.drop 1)).suffix.trans (List.drop_suffix 1 r)
  rw [slowExp]
  split_ifs with hexp
  · cases h : scanRun 10 (if atSign (r.drop 1) then (r.drop 1).drop 1 else r.drop 1) with
    | error e =>
      simp only [h]
      exact ((scanRun_fails _ _).pass h).mono hsign
    | ok x =>
      simp only [h]
      exact .ok _
  · exact .ok _

lemma signedInteger_fails (neg : Bool) (mag : ℕ) (r : Bytes) :
    FailsIn syntaxOnly r (signedInteger neg mag r) := by
  rw [signedInteger]
  split_ifs
  all_goals
    first
    | exact .ok _
    | exact .failAt List.suffix_rfl (by simp)

lemma slowDecimal_fails (fc : FloatConv) (neg : Bool) (r : Bytes) :
    FailsIn syntaxOnly r (slowDecimal fc neg r) := by
  rw [slowDecimal]
  cases hrun : scanRun 10 r with
  | error e => exact (scanRun_fails 10 r).pass hrun
  | ok x =>
    have hq := (scanRun_spec hrun).toReaches.suffix
    dsimp only
    generalize (if neg then [Ch.minus] else []) = sign
    split_ifs
    · exact .failAt hq (by simp)
    · cases hfrac : slowFrac (sign ++ x.1) x.2 with
      | error e => exact ((slowFrac_fails _ _).pass hfrac).mono hq
      | ok y =>
        have hq₁ := (reaches_slowFrac hfrac).suffix.trans hq
        dsimp only
        cases hexp : slowExp y.1 y.2 with
        | error e => exact ((slowExp_fails _ _).pass hexp).mono hq₁
        | ok z => exact .ok _
    · cases magFrom 10 0 x.1 with
      | none => exact .failAt hq (by simp)
      | some mag => exact (signedInteger_fails _ _ _).mono hq

lemma radixInteger_fails (radix : ℕ) (r : Bytes) :
    FailsIn syntaxOnly r (radixInteger radix r) := by
  rw [radixInteger]
  split
  next e he => exact (scanRun_fails radix r).pass he
  next buf q hrun =>
  have hq := (scanRun_spec hrun).toReaches.suffix
  split
  · exact .failAt hq (by simp)
  · split_ifs
    · exact .failAt hq (by simp)
    · exact .ok _

lemma decimal_fails (fc : FloatConv) (signedInput neg : Bool) (r : Bytes) :
    FailsIn syntaxOnly r (decimal fc signedInput neg r) := by
  have hdigits := dropDigits_suffix r
  simp only [decimal]
  split_ifs
  · exact .failAt hdigits (by simp)
  · rw [decimalFloat]
    split
    · exact .ok _
    · split
      next e he => exact ((floatCopy_fails _ _ _).pass he).mono hdigits
      · exact .ok _
      · exact slowDecimal_fails _ _ _
  · exact .ok _
  · exact .ok _
  · exact slowDecimal_fails _ _ _

lemma parseUnsigned_fails (fc : FloatConv) (signedInput neg : Bool) (r : Bytes) :
    FailsIn syntaxOnly r (parseUnsigned fc signedInput neg r) := by
  cases r with
  | nil => exact .failAt List.suffix_rfl (by simp)
  | cons c cs =>
    simp only [parseUnsigned]
    split_ifs
    · exact (expectWord_fails _ _).map _
    · exact (expectWord_fails _ _).map _
    · exact .failAt List.suffix_rfl (by simp)
    all_goals split
    · exact .failAt List.suffix_rfl (by simp)
    · exact decimal_fails _ _ _ _
    · exact (radixInteger_fails _ _).mono (List.drop_suffix _ _)
    · exact decimal_fails _ _ _ _

lemma parseNumber_fails (fc : FloatConv) (signedInput : Bool) (r : Bytes) :
    FailsIn syntaxOnly r (parseNumber fc signedInput r) := by
  rw [parseNumber]
  split_ifs
  · exact (parseUnsigned_fails _ _ _ _).mono (List.drop_suffix _ _)
  · exact parseUnsigned_fails _ _ _ _

/-! ## Dates and times -/

lemma parseFrac_fails (start p : Bytes) : FailsIn syntaxOnly start (parseFrac start p) := by
  simp only [parseFrac]
  split_ifs
  all_goals
    first
    | exact .ok _
    | exact .failAt List.suffix_rfl (by simp)

lemma parseClock_fails (need : ℕ) (start p : Bytes) :
    FailsIn syntaxOnly start (parseClock need start p) := by
  have hcheck : ∀ s n, FailsIn syntaxOnly start (checkClock start p s n) := by
    intro s n
    simp only [checkClock]
    split_ifs
    all_goals
      first
      | exact .ok _
      | exact .failAt List.suffix_rfl (by simp)
  rw [parseClock]
  split_ifs
  · exact .failAt List.suffix_rfl (by simp)
  · exact hcheck _ _
  · exact hcheck _ _

lemma parseOffset_fails (start p : Bytes) (dt : Datetime) :
    FailsIn syntaxOnly start (parseOffset start p dt) := by
  simp only [parseOffset]
  split_ifs
  all_goals
    first
    | exact .ok _
    | exact .failAt List.suffix_rfl (by simp)

lemma parseDateLed_fails (r : Bytes) : FailsIn syntaxOnly r (parseDateLed r) := by
  simp only [parseDateLed]
  split_ifs
  · exact .failAt List.suffix_rfl (by simp)
  · exact .failAt List.suffix_rfl (by simp)
  · exact .ok _
  · split
    next e he => exact (parseClock_fails _ _ _).pass he
    · split
      next e he => exact (parseFrac_fails _ _).pass he
      · exact parseOffset_fails _ _ _

lemma parseDatetime_fails (r : Bytes) : FailsIn syntaxOnly r (parseDatetime r) := by
  rw [parseDatetime]
  split_ifs
  · exact parseDateLed_fails r
  · rw [parseTimeOnly]
    split
    next e he => exact (parseClock_fails _ _ _).pass he
    · split
      next e he => exact (parseFrac_fails _ _).pass he
      · exact .ok _

/-! ## Keys and values -/

lemma insertDotted_fails (pos : Bytes) (path : KeyPath) (v : Node) (ps : List Key) (t : Entries) :
    FailsIn [.errSemantic] pos (insertDotted pos path v ps t) := by
  induction ps generalizing t with
  | nil =>
    rw [insertDotted]
    split
    · split_ifs <;> exact .failNaming List.suffix_rfl (by simp)
    · exact .ok _
  | cons part ps ih =>
    rw [insertDotted]
    split
    · split
      next e he => exact (ih []).pass he
      · exact .ok _
    · split_ifs
      · exact .failNaming List.suffix_rfl (by simp)
      · exact .failNaming List.suffix_rfl (by simp)
      · split
        next e he => exact (ih _).pass he
        · exact .ok _
    · exact .failNaming List.suffix_rfl (by simp)

section Values

variable {kinds : List Status}

lemma keyPart_fails (hsyn : .errSyntax ∈ kinds) (r : Bytes) : FailsIn kinds r (keyPart r) := by
  cases r with
  | nil => exact .failAt List.suffix_rfl hsyn
  | cons c cs =>
    simp only [keyPart]
    split_ifs
    · exact (quotedKey_fails _).of_subset (by simpa using hsyn)
    · exact .ok _
    · exact .failAt List.suffix_rfl hsyn

/-- Within the depth: there is a level for each byte, or the depth is one of the reasons. -/
def DeepFailure (kinds : List Status) (r : Bytes) (levels : ℕ) : Prop :=
  r.length ≤ levels ∨ .errDepth ∈ kinds

lemma DeepFailure.mono {r r' : Bytes} {levels : ℕ} (h : DeepFailure kinds r levels)
    (hr : r' <:+ r) :
    DeepFailure kinds r' levels := h.imp_left hr.length_le.trans

/-- A key path fails at its parts, or has more of them than there are levels. -/
lemma parseKeyPath_fails (hsyn : .errSyntax ∈ kinds) {maxDepth : ℕ} {r : Bytes}
    (hdeep : DeepFailure kinds r maxDepth) : FailsIn kinds r (parseKeyPath maxDepth r) := by
  intro e he
  refine loop_fails (keyPath_shrinks maxDepth)
    (I := fun s => s.2 <:+ r ∧ s.1.length + s.2.length ≤ r.length)
    (F := fun e => e.pos <:+ r ∧ e.status ∈ kinds) ?_ ?_
    (s := ([], r)) ⟨List.suffix_rfl, by simp⟩ he
  · rintro s s' ⟨hs, hlen⟩ hturn
    obtain ⟨key, q, hb, -, -, ⟨hdot, ht⟩ | ⟨-, ht⟩⟩ := keyPathTurn_cases hturn
    · obtain rfl := Turn.next.inj ht
      have hlt := hb.lt
      refine ⟨(List.drop_suffix 1 q).trans (hb.suffix.trans hs), ?_⟩
      simp only [List.length_append, List.length_singleton, List.length_drop]
      omega
    · cases ht
  · rintro s e ⟨hs, hlen⟩ hturn
    have hws := (reaches_skipWs s.2).suffix
    rw [keyPathTurn] at hturn
    cases hkey : keyPart (skipWs s.2) with
    | error e' =>
      rw [hkey] at hturn
      obtain rfl := Except.error.inj hturn
      exact (keyPart_fails hsyn _).mono (hws.trans hs) _ hkey
    | ok x =>
      rw [hkey] at hturn
      dsimp only at hturn
      have hb := (keyPart_spec hkey).1
      split_ifs at hturn with hroom
      obtain rfl := Except.error.inj hturn
      refine ⟨hb.suffix.trans (hws.trans hs), hdeep.resolve_left fun hlevels => ?_⟩
      have hlt := hb.lt
      have hle := hws.length_le
      omega

variable {maxDepth : ℕ} {value : Bytes → Res Node}

lemma keyvalGeneral_fails (hsyn : .errSyntax ∈ kinds) (hsemantic : .errSemantic ∈ kinds)
    (hvalue : ValueOk value) {r : Bytes} (hdeep : DeepFailure kinds r maxDepth)
    (hfails : ∀ r', r' <:+ r → FailsIn kinds r' (value r')) (t : Entries) :
    FailsIn kinds r (keyvalGeneral maxDepth value t r) := by
  rw [keyvalGeneral]
  cases hpath : parseKeyPath maxDepth r with
  | error e => exact (parseKeyPath_fails hsyn hdeep).pass hpath
  | ok x =>
    have hx := (parseKeyPath_spec hpath).1.suffix
    have hws := (reaches_skipWs x.2).suffix.trans hx
    dsimp only
    split_ifs
    · have hstart := (reaches_skipWs _).suffix.trans ((List.drop_suffix 1 _).trans hws)
      cases hread : value (skipWs ((skipWs x.2).drop 1)) with
      | error e => exact ((hfails _ hstart).pass hread).mono hstart
      | ok y =>
        have hy := ((hvalue _ _ _ hread).1.suffix).trans hstart
        dsimp only
        cases hins : insertDotted y.2 x.1 y.1 x.1.parents t with
        | error e =>
          exact (((insertDotted_fails _ _ _ _ _).of_subset (by simpa using hsemantic)).pass
            hins).mono hy
        | ok es => exact .ok _
    · exact .failAt hws hsyn

lemma keyval_fails (hsyn : .errSyntax ∈ kinds) (hsemantic : .errSemantic ∈ kinds)
    (hvalue : ValueOk value) {r : Bytes} (hdeep : DeepFailure kinds r maxDepth)
    (hfails : ∀ r', r' <:+ r → FailsIn kinds r' (value r')) (curPath : Bytes) (t : Entries) :
    FailsIn kinds r (keyval curPath maxDepth value value t r) := by
  rw [keyval]
  split
  next res hres =>
    simp only [tryKeyvalFast, scanBareKey_eq] at hres
    by_cases hbare : r.head?.any isBareKey = true
    swap
    · rw [if_neg hbare] at hres
      cases hres
    rw [if_pos hbare] at hres
    by_cases heq : (skipWs (r.dropWhile isBareKey)).head? = some Ch.eq
    swap
    · rw [if_neg heq] at hres
      cases hres
    rw [if_pos heq] at hres
    have hstart : skipWs ((skipWs (r.dropWhile isBareKey)).drop 1) <:+ r :=
      (reaches_skipWs _).suffix.trans ((List.drop_suffix 1 _).trans
        ((reaches_skipWs _).suffix.trans (List.dropWhile_suffix _)))
    cases hread : value (skipWs ((skipWs (r.dropWhile isBareKey)).drop 1)) with
    | error e =>
      rw [hread] at hres
      obtain rfl := Option.some_inj.mp hres
      exact ((hfails _ hstart).pass hread).mono hstart
    | ok y =>
      have hy := ((hvalue _ _ _ hread).1.suffix).trans hstart
      rw [hread] at hres
      dsimp only at hres
      cases hprobe : probe (Key.ofBytes (r.takeWhile isBareKey)) t with
      | none =>
        rw [hprobe] at hres
        obtain rfl := Option.some_inj.mp hres
        exact .ok _
      | some w =>
        rw [hprobe] at hres
        dsimp only at hres
        split_ifs at hres
        all_goals
          obtain rfl := Option.some_inj.mp hres
          exact .failNaming hy hsemantic
  · exact keyvalGeneral_fails hsyn hsemantic hvalue hdeep hfails t

lemma members_fails {α : Type} {P : α → Prop} {member : α → Bytes → Res α}
    (hsyn : .errSyntax ∈ kinds) (hm : MemberOk P member) {r : Bytes}
    (hfails : ∀ a r', r' <:+ r → FailsIn kinds r' (member a r')) (close : UInt8)
    (unterminated expected : String) (a : α) :
    FailsIn kinds r (members close unterminated expected member a r) := by
  have hgap : ∀ r, FailsIn kinds r (skipArrayGap r) :=
    fun r => (skipArrayGap_fails r).of_subset (by simpa using hsyn)
  refine FailsIn.loop Prod.snd (members_shrinks hm)
    (fun s s' h => (memberTurn_next hm h).1.suffix) (a, r) ?_
  rintro ⟨a, q⟩ hq
  dsimp only at hq ⊢
  simp only [memberTurn]
  cases hskip : skipArrayGap q with
  | error e => exact (hgap q).pass hskip
  | ok q₁ =>
    have hq₁ := (reaches_skipArrayGap hskip).suffix
    cases q₁ with
    | nil => exact .failAt hq₁ hsyn
    | cons c cs =>
      dsimp only
      split_ifs
      · exact .ok _
      · cases hmem : member a (c :: cs) with
        | error e => exact ((hfails a _ (hq₁.trans hq)).pass hmem).mono hq₁
        | ok x =>
          have hx := (hm _ _ _ _ hmem).1.suffix.trans hq₁
          dsimp only
          cases hskip' : skipArrayGap x.2 with
          | error e => exact ((hgap _).pass hskip').mono hx
          | ok q₂ =>
            dsimp only
            split_ifs
            · exact .ok _
            · exact .ok _
            · exact .failAt ((reaches_skipArrayGap hskip').suffix.trans hx) hsyn

lemma valueDispatch_fails (hsyn : .errSyntax ∈ kinds) (fc : FloatConv)
    {array inline : Bytes → Res Node} {r : Bytes}
    (harray : r.head? = some Ch.lbrack → FailsIn kinds r (array r))
    (hinline : r.head? = some Ch.lbrace → FailsIn kinds r (inline r)) :
    FailsIn kinds r (valueDispatch fc array inline r) := by
  have hsub : syntaxOnly ⊆ kinds := by simpa using hsyn
  cases r with
  | nil => exact .failAt List.suffix_rfl hsyn
  | cons c cs =>
    simp only [valueDispatch]
    split_ifs with _ harr hinl
    · exact (parseString_fails _).of_subset hsub
    · exact harray (by rw [harr]; rfl)
    · exact hinline (by rw [hinl]; rfl)
    · exact ((expectWord_fails _ _).map _).of_subset hsub
    · exact ((expectWord_fails _ _).map _).of_subset hsub
    · exact (parseNumber_fails _ _ _).of_subset hsub
    · exact (parseNumber_fails _ _ _).of_subset hsub
    · exact (parseDatetime_fails _).of_subset hsub
    · exact (parseNumber_fails _ _ _).of_subset hsub
    · exact .failAt List.suffix_rfl hsyn

/-- A value fails in its text; the depth is a reason only where there are fewer levels than
bytes. -/
lemma parseValue_fails (hsyn : .errSyntax ∈ kinds) (hsemantic : .errSemantic ∈ kinds)
    (cfg : Config) (curPath : Bytes) {levels : ℕ} {r : Bytes} (hdeep : DeepFailure kinds r levels)
    (hpath : DeepFailure kinds r cfg.maxDepth) :
    FailsIn kinds r (parseValue cfg curPath levels r) := by
  induction levels generalizing r with
  | zero =>
    have hgate : ∀ c, r.head? = some c → FailsIn kinds r (tooDeep r) := by
      intro c hc
      refine .failAt (List.drop_suffix _ _) (hdeep.resolve_left fun hlen => ?_)
      rw [Nat.le_zero, List.length_eq_zero_iff] at hlen
      simp [hlen] at hc
    exact valueDispatch_fails hsyn _ (hgate _) (hgate _)
  | succ levels ih =>
    have hvalue := parseValue_ok cfg curPath levels
    have hinner : ∀ c, r.head? = some c → ∀ r', r' <:+ r.drop 1 →
        DeepFailure kinds r' levels ∧ DeepFailure kinds r' cfg.maxDepth := by
      intro c hc r' hr'
      have hne : r ≠ [] := by
        rintro rfl
        simp at hc
      have hlen := hr'.length_le
      have hpos := List.length_pos_iff.mpr hne
      rw [List.length_drop] at hlen
      exact ⟨hdeep.imp_left fun h => by omega, hpath.imp_left fun h => by omega⟩
    rw [parseValue_succ]
    refine valueDispatch_fails hsyn _ (fun hc => ?_) fun hc => ?_
    · rw [arrayBody]
      have hmember : ∀ items r', r' <:+ r.drop 1 →
          FailsIn kinds r' (arrayMember (parseValue cfg curPath levels) items r') := by
        intro items r' hr'
        obtain ⟨hdeep', hpath'⟩ := hinner _ hc r' hr'
        rw [arrayMember]
        split
        next e he => exact (ih hdeep' hpath').pass he
        · exact .ok _
      split
      next e he =>
        exact ((members_fails hsyn (arrayMember_ok hvalue) hmember _ _ _ _).pass he).mono
          (List.drop_suffix _ _)
      · exact .ok _
    · rw [inlineBody]
      have hmember : ∀ t r', r' <:+ r.drop 1 → FailsIn kinds r' (keyval curPath cfg.maxDepth
          (parseValue cfg curPath levels) (parseValue cfg curPath levels) t r') := by
        intro t r' hr'
        refine keyval_fails hsyn hsemantic hvalue (hinner _ hc r' hr').2 ?_ _ _
        intro r'' hr''
        exact ih (hinner _ hc _ (hr''.trans hr')).1 (hinner _ hc _ (hr''.trans hr')).2
      split
      next e he =>
        exact ((members_fails hsyn (keyval_ok hvalue hvalue extends_isValue fun _ hv => hv.1)
          hmember _ _ _ _).pass he).mono (List.drop_suffix _ _)
      · exact .ok _

/-! ## Lines -/

lemma parseKeyval_fails (hsyn : .errSyntax ∈ kinds) (hsemantic : .errSemantic ∈ kinds)
    (cfg : Config) (curPath : Bytes) {r : Bytes} (hdeep : DeepFailure kinds r cfg.maxDepth)
    (t : Entries) : FailsIn kinds r (parseKeyval cfg curPath t r) := by
  rw [parseKeyval, parseValueFast_eq]
  refine keyval_fails hsyn hsemantic (parseValue_ok _ _ _) hdeep ?_ _ _
  exact fun r' hr' => parseValue_fails hsyn hsemantic cfg curPath (hdeep.mono hr')
    (hdeep.mono hr')

lemma closeHeader_fails (hsyn : .errSyntax ∈ kinds) (aot : Bool) (r : Bytes) :
    FailsIn kinds r (closeHeader aot r) := by
  rw [closeHeader]
  split_ifs
  all_goals
    first
    | exact .ok _
    | exact .failAt List.suffix_rfl hsyn

/-- A header that does not resolve is reported behind it. -/
lemma resolveHeader_pos {pos : Bytes} {aot : Bool} {last : Key} {ps : List Key} {t : Entries}
    {e : Diag} (h : resolveHeader pos aot last ps t = .error e) : e.pos = pos := by
  induction ps generalizing t with
  | nil =>
    rw [resolveHeader, resolveLast] at h
    split_ifs at h
    all_goals
      split at h
      · cases h
      · cases h
      · cases h
        rfl
  | cons part ps ih =>
    rw [resolveHeader] at h
    split at h
    · split at h
      next e' he =>
        cases h
        exact ih he
      · cases h
    · split_ifs at h
      · cases h
        rfl
      split at h
      · split at h
        next e' he =>
          cases h
          exact ih he
        · cases h
      · cases h
        rfl
    · split_ifs at h
      · cases h
        rfl
      split at h
      next e' he =>
        cases h
        exact ih he
      · cases h
    · cases h
      rfl

lemma resolveHeader_fails (hsemantic : .errSemantic ∈ kinds) {pos : Bytes} {aot : Bool}
    {last : Key} {ps : List Key} {t : Entries} (ht : GoodEntries IsEntry t)
    (hps : ∀ k ∈ ps, Utf8.Valid k.bytes) :
    FailsIn kinds pos (resolveHeader pos aot last ps t) := by
  intro e he
  rw [resolveHeader_pos he, resolveHeader_status ht hps he]
  exact ⟨List.suffix_rfl, hsemantic⟩

variable {cfg : Config} {s : PState} {data : Bytes}

lemma parseHeader_fails (hsyn : .errSyntax ∈ kinds) (hsemantic : .errSemantic ∈ kinds)
    (hs : s.Ok) (hopen : s.rest.head? = some Ch.lbrack)
    (hdeep : DeepFailure kinds s.rest cfg.maxDepth) : FailsIn kinds s.rest (parseHeader cfg s) := by
  simp only [parseHeader]
  generalize haot : decide ((s.rest.drop 1).head? = some Ch.lbrack) = aot
  obtain ⟨q, hq⟩ : ∃ q, skipWs (if aot then (s.rest.drop 1).drop 1 else s.rest.drop 1) = q :=
    ⟨_, rfl⟩
  have hreach : Reaches s.rest q := by
    have hdrop : Behind s.rest (s.rest.drop 1) := behind_drop_one hopen (by decide)
    rw [← hq]
    split_ifs with ha
    · rw [ha, decide_eq_true_eq] at haot
      exact (hdrop.trans (behind_drop_one haot (by decide))).toReaches.trans (reaches_skipWs _)
    · exact hdrop.toReaches.trans (reaches_skipWs _)
  rw [hq]
  cases hpath : parseKeyPath cfg.maxDepth q with
  | error e =>
    exact ((parseKeyPath_fails hsyn (hdeep.mono hreach.suffix)).pass hpath).mono hreach.suffix
  | ok x =>
    obtain ⟨hx, hkeys, -⟩ := parseKeyPath_spec hpath
    have hend := (reaches_skipWs x.2).suffix.trans (hx.suffix.trans hreach.suffix)
    dsimp only
    cases hclose : closeHeader aot (skipWs x.2) with
    | error e => exact ((closeHeader_fails hsyn _ _).pass hclose).mono hend
    | ok r =>
      have hr := (behind_closeHeader hclose).suffix.trans hend
      dsimp only
      cases hres : resolveHeader r aot x.1.last x.1.parents s.root with
      | error e =>
        refine ((resolveHeader_fails hsemantic hs.root ?_).pass hres).mono hr
        intro k hk
        exact hkeys (hreach.valid hs.rest) k (by simp [KeyPath.parts, hk])
      | ok root => exact .ok _

lemma headerLine_fails (hsyn : .errSyntax ∈ kinds) (hsemantic : .errSemantic ∈ kinds)
    (hs : s.Ok) (hopen : s.rest.head? = some Ch.lbrack)
    (hdeep : DeepFailure kinds s.rest cfg.maxDepth) : FailsIn kinds s.rest (headerLine cfg s) := by
  cases htaken : (tryHeaderFast s).2 with
  | none =>
    rw [headerLine_of_handed_back cfg htaken]
    exact parseHeader_fails hsyn hsemantic hs hopen hdeep
  | some v =>
    obtain ⟨path, start, q, hshape, hline⟩ := headerLine_of_taken cfg htaken
    obtain ⟨-, -, rfl, hfast, -⟩ := fastShape_spec hshape
    obtain ⟨hb, hkeys⟩ := fastPath_spec hfast
    rw [hline]
    refine ((resolveHeader_fails hsemantic hs.root ?_).map _).mono
      ((List.drop_suffix 1 q).trans (hb.suffix.trans (List.drop_suffix _ _)))
    exact fun k hk => hkeys k (by simp [KeyPath.parts, hk])

lemma statement_fails (hsyn : .errSyntax ∈ kinds) (hsemantic : .errSemantic ∈ kinds)
    (hs : s.Ok) {c : UInt8} (hc : s.rest.head? = some c)
    (hdeep : DeepFailure kinds s.rest cfg.maxDepth) : FailsIn kinds s.rest (statement cfg c s) := by
  rw [statement]
  split
  next e he =>
    split_ifs at he with hopen
    · exact (headerLine_fails hsyn hsemantic hs (hopen ▸ hc) hdeep).pass he
    · rw [keyvalLine] at he
      split at he
      next e' he' =>
        cases he
        exact (parseKeyval_fails hsyn hsemantic cfg _ hdeep _).pass he'
      · cases he
  next s₁ hline =>
  have hb : Behind s.rest s₁.rest := by
    split_ifs at hline with hopen
    · exact (headerLine_ok (hopen ▸ hc) hline).1
    · exact (keyvalLine_ok hline).1
  split
  next e he =>
    exact (((finishLine_fails _).of_subset (by simpa using hsyn)).pass he).mono hb.suffix
  · exact .ok _

lemma lineTurn_fails (hsyn : .errSyntax ∈ kinds) (hsemantic : .errSemantic ∈ kinds)
    (hs : s.Ok) (hdeep : DeepFailure kinds s.rest cfg.maxDepth) :
    FailsIn kinds s.rest (lineTurn cfg s) := by
  have hws := reaches_skipWs s.rest
  rw [lineTurn]
  split
  · exact .ok _
  next c cs hrest =>
    rw [hrest] at hws
    split_ifs
    · exact .ok _
    · exact .ok _
    · exact .failAt hws.suffix hsyn
    · exact (((skipComment_fails _).of_subset (by simpa using hsyn)).map _).mono hws.suffix
    · refine FailsIn.map (FailsIn.mono ?_ hws.suffix) _
      exact statement_fails (s := { s with rest := c :: cs }) hsyn hsemantic
        ⟨hws.valid hs.rest, hs.root, hs.cur⟩ (by simp) (hdeep.mono hws.suffix)

/-- The lines of a document fail in its text. -/
lemma lines_fails (hsyn : .errSyntax ∈ kinds) (hsemantic : .errSemantic ∈ kinds)
    (hs : s.Ok) (hdeep : DeepFailure kinds s.rest cfg.maxDepth) :
    FailsIn kinds s.rest (lines cfg s) := by
  intro e he
  refine loop_fails (lines_shrinks cfg) (I := fun s' => s'.Ok ∧ s'.rest <:+ s.rest)
    (F := fun e => e.pos <:+ s.rest ∧ e.status ∈ kinds) ?_ ?_ ⟨hs, List.suffix_rfl⟩ he
  · rintro s₁ s₂ ⟨hok, hsuf⟩ hturn
    obtain ⟨hb, hnext⟩ := lineTurn_ok hturn
    exact ⟨hnext hok, hb.suffix.trans hsuf⟩
  · rintro s₁ e ⟨hok, hsuf⟩ hturn
    exact (lineTurn_fails hsyn hsemantic hok (hdeep.mono hsuf)).mono hsuf e hturn

/-- A parse fails in its text; the depth is a reason only where there are fewer levels than
bytes. -/
lemma parse_fails (hsyn : .errSyntax ∈ kinds) (hsemantic : .errSemantic ∈ kinds)
    (hencoding : ¬ Utf8.Valid data → .errEncoding ∈ kinds)
    (hdeep : DeepFailure kinds data cfg.maxDepth) : FailsIn kinds data (parse cfg data) := by
  have hbom : skipBom data <:+ data := by
    rw [skipBom]
    split_ifs
    · exact List.drop_suffix _ _
    · exact List.suffix_rfl
  refine FailsIn.map ?_ _
  rw [parserRun]
  cases hvalid : validateUtf8 data with
  | ok u =>
    have hok : (PState.init (skipBom data)).Ok :=
      ⟨skipBom_valid ((validateUtf8_iff data).mp hvalid), GoodEntries.nil, trivial⟩
    exact (lines_fails hsyn hsemantic hok (hdeep.mono hbom)).mono hbom
  | error e =>
    have hbad : ¬ Utf8.Valid data := by
      intro hv
      rw [(validateUtf8_iff data).mpr hv] at hvalid
      cases hvalid
    have hspec := bytewise_spec data
    rw [validateUtf8, bytewise_eq] at hvalid
    cases hloop : loop utf8ByteTurn [] List.length data with
    | ok u =>
      rw [hloop] at hvalid
      cases hvalid
    | error rest =>
      rw [hloop] at hvalid hspec
      obtain ⟨a, rfl, -⟩ := hspec
      obtain rfl := Except.error.inj hvalid
      intro e he
      obtain rfl := Except.error.inj he
      exact ⟨List.suffix_append a rest, hencoding hbad⟩

end Values

/-! ## Whole documents -/

/-- The reasons of a parse that fails, by what the text is. -/
lemma parse_reason {cfg : Config} {data : Bytes} {e : Diag} (h : parse cfg data = .error e) :
    (e.status = .errEncoding ↔ ¬ Utf8.Valid data) ∧
      (e.status = .errDepth → cfg.maxDepth < data.length) ∧
      e.status ∈ ([.errSyntax, .errSemantic, .errEncoding, .errDepth] : List Status) := by
  refine ⟨⟨fun hstatus hvalid => ?_, fun hbad => ?_⟩, fun hstatus => ?_, ?_⟩
  · have hkind : e.status ∈ [.errSyntax, .errSemantic, .errDepth] :=
      (parse_fails (by simp) (by simp) (absurd hvalid) (.inr (by simp)) e h).2
    rw [hstatus] at hkind
    simp at hkind
  · cases hcheck : validateUtf8 data with
    | ok u => exact absurd ((validateUtf8_iff data).mp hcheck) hbad
    | error d =>
      have hrun : parse cfg data = .error d := by
        rw [parse, parserRun, hcheck]
        rfl
      obtain rfl := Except.error.inj (hrun.symm.trans h)
      rw [validateUtf8] at hcheck
      cases hloop : loop utf8Turn [] List.length data with
      | ok u =>
        rw [hloop] at hcheck
        cases hcheck
      | error rest =>
        rw [hloop] at hcheck
        obtain rfl := Except.error.inj hcheck
        rfl
  · by_contra hlen
    have hkind : e.status ∈ [.errSyntax, .errSemantic, .errEncoding] :=
      (parse_fails (by simp) (by simp) (by simp) (.inl (not_lt.mp hlen)) e h).2
    rw [hstatus] at hkind
    simp at hkind
  · exact (parse_fails (by simp) (by simp) (by simp) (.inr (by simp)) e h).2

/-- A failed parse names a position of the text and one of four reasons: syntax, meaning, the
encoding exactly where the text is not UTF-8, and the depth only where the text has more bytes
than `max_depth`.  The internal failures never show. -/
theorem parse_failure {cfg : Config} {data : Bytes} {e : Diag} (h : parse cfg data = .error e) :
    e.pos <:+ data ∧ (e.status = .errEncoding ↔ ¬ Utf8.Valid data) ∧
      (e.status = .errDepth → cfg.maxDepth < data.length) ∧
      (e.status = .errSyntax ∨ e.status = .errSemantic ∨ e.status = .errEncoding ∨
        e.status = .errDepth) := by
  obtain ⟨hencoding, hdepth, hkind⟩ := parse_reason h
  have hfails : FailsIn [.errSyntax, .errSemantic, .errEncoding, .errDepth] data (parse cfg data) :=
    parse_fails (by simp) (by simp) (by simp) (.inr (by simp))
  exact ⟨(hfails e h).1, hencoding, hdepth, by simpa using hkind⟩

/-- `a=[[1]]` under a limit of one level fails in front of the `1`. -/
theorem parse_failure_nested :
    [0x31, Ch.rbrack, Ch.rbrack] <:+
        [0x61, Ch.eq, Ch.lbrack, Ch.lbrack, 0x31, Ch.rbrack, Ch.rbrack] ∧
      (Status.errDepth = .errEncoding ↔
        ¬ Utf8.Valid [0x61, Ch.eq, Ch.lbrack, Ch.lbrack, 0x31, Ch.rbrack, Ch.rbrack]) ∧
      (Status.errDepth = .errDepth → 1 < 7) ∧
      (Status.errDepth = .errSyntax ∨ Status.errDepth = .errSemantic ∨
        Status.errDepth = .errEncoding ∨ Status.errDepth = .errDepth) :=
  @parse_failure ⟨FloatConv.zero, 1, by decide⟩
    [0x61, Ch.eq, Ch.lbrack, Ch.lbrack, 0x31, Ch.rbrack, Ch.rbrack]
    ⟨.errDepth, [0x31, Ch.rbrack, Ch.rbrack], "nesting too deep", []⟩ rfl

/-- Every text has a depth of its own: under any `max_depth` from that depth on it has one and the
same result, which is not a failure of the depth, and under any smaller one its parse fails at the
depth. -/
theorem depth_threshold (fc : FloatConv) (data : Bytes) :
    ∃ depth ≤ data.length + 1, ∃ res : Except Diag Node,
      (∀ e, res = .error e → e.status ≠ .errDepth) ∧
      ∀ cfg : Config, cfg.fc = fc →
        (depth ≤ cfg.maxDepth → parse cfg data = res) ∧
        (cfg.maxDepth < depth → ∃ e, parse cfg data = .error e ∧ e.status = .errDepth) := by
  classical
  let top : Config := ⟨fc, data.length + 1, Nat.succ_pos _⟩
  have htop : ∀ e, parse top data = .error e → e.status ≠ .errDepth := by
    intro e he hdepth
    have hkind : e.status ∈ [.errSyntax, .errSemantic, .errEncoding] :=
      (parse_fails (by simp) (by simp) (by simp) (.inl (Nat.le_succ _)) e he).2
    rw [hdepth] at hkind
    simp at hkind
  have hex : ∃ n, ∃ hn : 0 < n, parse ⟨fc, n, hn⟩ data = parse top data :=
    ⟨_, top.maxDepth_pos, rfl⟩
  refine ⟨Nat.find hex, Nat.find_min' hex ⟨top.maxDepth_pos, rfl⟩, parse top data, htop, ?_⟩
  intro cfg hfc
  constructor
  · intro hle
    obtain ⟨hpos, heq⟩ := Nat.find_spec hex
    have hlimited : UpTo Diag.IsDepth (parse ⟨fc, Nat.find hex, hpos⟩ data) (parse cfg data) :=
      parse_limited hfc hle data
    rcases hlimited with hsame | ⟨e, he, hdepth⟩
    · exact hsame.symm.trans heq
    · exact absurd hdepth (htop e (heq.symm.trans he))
  · intro hlt
    have hne : parse cfg data ≠ parse top data := by
      intro heq
      refine Nat.find_min hex hlt ⟨cfg.maxDepth_pos, ?_⟩
      rw [← hfc]
      exact heq
    have hle : cfg.maxDepth ≤ top.maxDepth :=
      hlt.le.trans (Nat.find_min' hex ⟨top.maxDepth_pos, rfl⟩)
    have hlimited : UpTo Diag.IsDepth (parse cfg data) (parse top data) :=
      parse_limited hfc.symm hle data
    exact hlimited.resolve_left hne

end Teptris
