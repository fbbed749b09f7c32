import Mathlib.Data.List.DropRight
import Teptris.Parse.Run

/-!
# The value and key/value fast paths

`teptris_parse_value_fast` and `try_keyval_fast` against a parser that has only the general
routines.  The two agree on everything but the text of duplicate-key messages, so failures are
compared by `Diag.place`.
-/

namespace Teptris

open Loop

/-- The status and the position of a failure. -/
def Diag.place (d : Diag) : Status × Bytes := (d.status, d.pos)

/-- A result with its failure reduced to status and position. -/
def placed {α : Type} (x : Except Diag α) : Except (Status × Bytes) α := x.mapError Diag.place

@[simp] lemma placed_ok {α : Type} (a : α) : placed (.ok a) = .ok a := rfl

@[simp] lemma placed_error {α : Type} (d : Diag) :
    placed (.error d : Except Diag α) = .error d.place := rfl

/-- Results are not reduced. -/
lemma ok_of_placed {α : Type} {x : Except Diag α} {a : α} (h : placed x = .ok a) : x = .ok a := by
  cases x with
  | error e => simp at h
  | ok b =>
    rw [placed_ok] at h
    rw [Except.ok.inj h]

/-! ## The general parser -/

/-- `teptris_parse_value` where elements and members take the general routines only. -/
def parseValueGeneral (cfg : Config) : ℕ → Bytes → Res Node
  | 0 => valueDispatch cfg.fc tooDeep tooDeep
  | levels + 1 =>
    let value := parseValueGeneral cfg levels
    valueDispatch cfg.fc (arrayBody value) (inlineBody (keyvalGeneral cfg.maxDepth value))

/-- `parse_keyval` through `teptris_parse_key_path`, `teptris_parse_value` and `insert_dotted`
only. -/
def parseKeyvalGeneral (cfg : Config) (t : Entries) (r : Bytes) : Res Entries :=
  keyvalGeneral cfg.maxDepth (parseValueGeneral cfg cfg.maxDepth) t r

/-! ## Values -/

/-- A digit is none of the bytes the other branches of the dispatch look for. -/
lemma isDec_dispatch {c : UInt8} (h : isDec c = true) :
    c ≠ Ch.dquote ∧ c ≠ Ch.squote ∧ c ≠ Ch.lbrack ∧ c ≠ Ch.lbrace ∧ c ≠ 0x74 ∧ c ≠ 0x66 ∧
      c ≠ 0x69 ∧ c ≠ 0x6E ∧ c ≠ Ch.plus ∧ c ≠ Ch.minus := by
  grind [isDec]

/-- A digit-led value is a datetime where the lookahead says so, and a number elsewhere. -/
lemma valueDispatch_digit (fc : FloatConv) (array inline : Bytes → Res Node) {c : UInt8}
    {cs : Bytes} (h : isDec c = true) :
    valueDispatch fc array inline (c :: cs) =
      if datetimeLookahead (c :: cs) then parseDatetime (c :: cs)
      else parseNumber fc false (c :: cs) := by
  obtain ⟨h1, h2, h3, h4, h5, h6, h7, h8, h9, h10⟩ := isDec_dispatch h
  simp [valueDispatch, h, h1, h2, h3, h4, h5, h6, h7, h8, h9, h10]

/-- A number that starts with a digit but zero has no radix prefix. -/
lemma radixOf_eq_none {c : UInt8} {cs : Bytes} (h : c ≠ Ch.zero) : radixOf (c :: cs) = none := by
  simp [radixOf, h]

/-- The plain-integer path reads the integer that `teptris_parse_number` reads. -/
lemma parseNumber_plain (fc : FloatConv) {c : UInt8} {cs : Bytes} (hc : isDec c = true)
    (hlen : ((c :: cs).takeWhile isDec).length ≤ 18) (hz : c ≠ Ch.zero)
    (hmark : ¬ (atFloatMark ((c :: cs).dropWhile isDec) = true ∨
      ((c :: cs).dropWhile isDec).head? = some Ch.under)) :
    parseNumber fc false (c :: cs) =
      .ok (.integer (Int64.ofNat (decVal ((c :: cs).takeWhile isDec))),
        (c :: cs).dropWhile isDec) := by
  obtain ⟨-, -, -, -, -, -, hi, hn, -, -⟩ := isDec_dispatch hc
  obtain ⟨hfloat, hunder⟩ := not_or.mp hmark
  have hhead : ((c :: cs).takeWhile isDec).head? = some c := by
    simp [hc]
  have hpos : 0 < ((c :: cs).takeWhile isDec).length := by
    simp [hc]
  have hdec : decimal fc false false (c :: cs) =
      .ok (.integer (Int64.ofNat (decVal ((c :: cs).takeWhile isDec))),
        (c :: cs).dropWhile isDec) := by
    rw [decimal, if_pos ⟨hpos, hlen, hunder⟩, hhead, if_neg (by simp [hz]), if_neg hfloat]
    rfl
  simp only [parseNumber, parseUnsigned, Bool.false_eq_true, if_false, if_neg hi, if_neg hn, hc,
    Bool.not_true, radixOf_eq_none hz, hdec]

/-- `teptris_parse_value_fast` is `teptris_parse_value`. -/
lemma valueFast_eq (fc : FloatConv) (array inline : Bytes → Res Node) :
    valueFast fc (valueDispatch fc array inline) = valueDispatch fc array inline := by
  funext r
  obtain _ | ⟨c, cs⟩ := r
  · rfl
  by_cases hc : isDec c = true
  · rw [valueDispatch_digit fc array inline hc]
    simp only [valueFast, hc, if_true]
    by_cases hd : datetimeLookahead (c :: cs) = true
    · simp only [hd, if_true]
    · simp only [hd, if_false, Bool.false_eq_true]
      split_ifs with hplain
      · exact (parseNumber_plain fc hc hplain.1 hplain.2.1 hplain.2.2).symm
      · rfl
  · simp [valueFast, hc]

/-- A value is parsed the same way with and without the fast path in front. -/
lemma parseValueFast_eq (cfg : Config) (curPath : Bytes) (levels : ℕ) :
    parseValueFast cfg curPath levels = parseValue cfg curPath levels := by
  cases levels with
  | zero => exact valueFast_eq cfg.fc _ _
  | succ levels => exact valueFast_eq cfg.fc _ _

/-- The parser of one more level, with the fast value path folded away. -/
lemma parseValue_succ (cfg : Config) (curPath : Bytes) (levels : ℕ) :
    parseValue cfg curPath (levels + 1) =
      valueDispatch cfg.fc (arrayBody (parseValue cfg curPath levels))
        (inlineBody (keyval curPath cfg.maxDepth (parseValue cfg curPath levels)
          (parseValue cfg curPath levels))) := by
  have hfast : valueFast cfg.fc (parseValue cfg curPath levels) = parseValue cfg curPath levels :=
    parseValueFast_eq cfg curPath levels
  rw [parseValue, hfast]

/-! ## Key/value pairs -/

/-- White space does not start a bare key. -/
lemma isWs_of_isBareKey {c : UInt8} (h : isBareKey c = true) : isWs c = false := by
  grind [isBareKey, isDec, isWs]

/-- A quote does not start a bare key. -/
lemma not_quote_of_isBareKey {c : UInt8} (h : isBareKey c = true) :
    ¬ (c = Ch.dquote ∨ c = Ch.squote) := by
  grind [isBareKey, isDec]

/-- Nothing is skipped in front of a byte that is not white space. -/
lemma skipWs_cons {c : UInt8} (cs : Bytes) (h : isWs c = false) : skipWs (c :: cs) = c :: cs := by
  simp [skipWs, h]

@[simp] lemma skipWs_skipWs (r : Bytes) : skipWs (skipWs r) = skipWs r := by
  simp only [skipWs, List.dropWhile_idempotent]

/-- A bare part of a key path. -/
lemma keyPart_bare {c : UInt8} (cs : Bytes) (h : isBareKey c = true) :
    keyPart (c :: cs) = .ok ((c :: cs).takeWhile isBareKey, (c :: cs).dropWhile isBareKey) := by
  rw [keyPart, if_neg (not_quote_of_isBareKey h), if_pos h]

/-- A bare key with no dot behind it is a path of one part. -/
lemma parseKeyPath_single {maxDepth : ℕ} (hmax : 0 < maxDepth) {c : UInt8} {cs : Bytes}
    (hc : isBareKey c = true)
    (hdot : (skipWs ((c :: cs).dropWhile isBareKey)).head? ≠ some Ch.dot) :
    parseKeyPath maxDepth (c :: cs) =
      .ok (⟨[], Key.ofBytes ((c :: cs).takeWhile isBareKey)⟩,
        skipWs ((c :: cs).dropWhile isBareKey)) := by
  refine loop_stop ?_
  have hdepth : ¬ maxDepth < ([] : List Key).length + 1 := by
    simp only [List.length_nil]
    omega
  simp only [keyPathTurn, skipWs_cons cs (isWs_of_isBareKey hc), keyPart_bare cs hc, if_neg hdepth,
    if_neg hdot]

/-- Where `try_keyval_fast` takes a pair, the general route gives the same result. -/
lemma tryKeyvalFast_agrees {curPath : Bytes} {maxDepth : ℕ} (hmax : 0 < maxDepth)
    {value : Bytes → Res Node} {t : Entries} {r : Bytes} {res : Res Entries}
    (h : tryKeyvalFast curPath value t r = some res) :
    placed res = placed (keyvalGeneral maxDepth value t r) := by
  obtain _ | ⟨c, cs⟩ := r
  · simp [tryKeyvalFast] at h
  by_cases hc : isBareKey c = true
  swap
  · simp [tryKeyvalFast, hc] at h
  simp only [tryKeyvalFast, List.head?_cons, Option.any_some, hc, if_true, scanBareKey_eq] at h
  set key : Key := Key.ofBytes ((c :: cs).takeWhile isBareKey) with hkey
  set q : Bytes := skipWs ((c :: cs).dropWhile isBareKey) with hq
  by_cases heq : q.head? = some Ch.eq
  swap
  · rw [if_neg heq] at h
    exact absurd h (by simp)
  have hdot : q.head? ≠ some Ch.dot := by
    rw [heq]
    decide
  have hqq : skipWs q = q := skipWs_skipWs _
  rw [if_pos heq] at h
  rw [keyvalGeneral, parseKeyPath_single hmax hc hdot]
  simp only [← hkey, ← hq, hqq, if_pos heq]
  cases hv : value (skipWs (q.drop 1)) with
  | error e =>
    rw [hv] at h
    obtain rfl := Option.some_inj.mp h
    rfl
  | ok vr =>
    obtain ⟨v, r⟩ := vr
    rw [hv] at h
    simp only [insertDotted] at h ⊢
    cases hp : probe key t with
    | some w =>
      rw [hp] at h
      dsimp only at h
      -- only the text of the message depends on the enclosing header
      split_ifs at h <;> obtain rfl := Option.some_inj.mp h <;> rfl
    | none =>
      rw [hp] at h
      obtain rfl := Option.some_inj.mp h
      rfl

/-- A key/value pair is inserted the same way with and without the fast path in front. -/
lemma placed_keyval {curPath : Bytes} {maxDepth : ℕ} (hmax : 0 < maxDepth)
    (value : Bytes → Res Node) (t : Entries) (r : Bytes) :
    placed (keyval curPath maxDepth value value t r) =
      placed (keyvalGeneral maxDepth value t r) := by
  rw [keyval]
  cases h : tryKeyvalFast curPath value t r with
  | none => rfl
  | some res => exact tryKeyvalFast_agrees hmax h

/-! ## Congruence of the containers -/

/-- A general pair depends on the value routine up to messages. -/
lemma placed_keyvalGeneral_congr {maxDepth : ℕ} {v w : Bytes → Res Node}
    (h : ∀ r, placed (v r) = placed (w r)) (t : Entries) (r : Bytes) :
    placed (keyvalGeneral maxDepth v t r) = placed (keyvalGeneral maxDepth w t r) := by
  rw [keyvalGeneral, keyvalGeneral]
  cases parseKeyPath maxDepth r with
  | error e => rfl
  | ok pr =>
    obtain ⟨path, r⟩ := pr
    dsimp only
    split_ifs with heq
    · have hvw := h (skipWs ((skipWs r).drop 1))
      generalize v (skipWs ((skipWs r).drop 1)) = x at hvw ⊢
      generalize w (skipWs ((skipWs r).drop 1)) = y at hvw ⊢
      cases x <;> cases y <;> simp_all
    · rfl

/-- A member loop depends on its member routine up to messages. -/
lemma placed_members_congr {α : Type} (close : UInt8) (unterminated expected : String)
    {m n : α → Bytes → Res α} (h : ∀ a r, placed (m a r) = placed (n a r)) (a : α) (r : Bytes) :
    placed (members close unterminated expected m a r) =
      placed (members close unterminated expected n a r) := by
  have hturn : (fun s => (memberTurn close unterminated expected m s).mapError Diag.place) =
      fun s => (memberTurn close unterminated expected n s).mapError Diag.place := by
    funext ⟨a, r⟩
    simp only [memberTurn]
    cases skipArrayGap r with
    | error e => rfl
    | ok r =>
      obtain _ | ⟨c, cs⟩ := r
      · rfl
      dsimp only
      split_ifs
      · rfl
      · have hmn := h a (c :: cs)
        generalize m a (c :: cs) = x at hmn ⊢
        generalize n a (c :: cs) = y at hmn ⊢
        cases x <;> cases y <;> simp_all [placed, Except.mapError]
  rw [placed, members, loop_mapError, hturn, ← loop_mapError, placed, members]

/-- The dispatch is one of its container routines, or does not depend on them. -/
lemma valueDispatch_routine (fc : FloatConv) (r : Bytes) :
    (∀ array inline, valueDispatch fc array inline r = array r) ∨
      (∀ array inline, valueDispatch fc array inline r = inline r) ∨
        ∃ x, ∀ array inline, valueDispatch fc array inline r = x := by
  obtain _ | ⟨c, cs⟩ := r
  · exact .inr (.inr ⟨_, fun array inline => rfl⟩)
  by_cases hquote : c = Ch.dquote ∨ c = Ch.squote
  · refine .inr (.inr ⟨parseString (c :: cs), fun array inline => ?_⟩)
    rw [valueDispatch, if_pos hquote]
  by_cases harray : c = Ch.lbrack
  · refine .inl fun array inline => ?_
    rw [valueDispatch, if_neg hquote, if_pos harray]
  by_cases hinline : c = Ch.lbrace
  · refine .inr (.inl fun array inline => ?_)
    rw [valueDispatch, if_neg hquote, if_neg harray, if_pos hinline]
  · refine .inr (.inr ⟨valueDispatch fc tooDeep tooDeep (c :: cs), fun array inline => ?_⟩)
    simp only [valueDispatch, if_neg hquote, if_neg harray, if_neg hinline]

/-- The dispatch depends on its container routines up to messages. -/
lemma placed_valueDispatch_congr (fc : FloatConv) {a b i j : Bytes → Res Node}
    (harray : ∀ r, placed (a r) = placed (b r)) (hinline : ∀ r, placed (i r) = placed (j r))
    (r : Bytes) : placed (valueDispatch fc a i r) = placed (valueDispatch fc b j r) := by
  rcases valueDispatch_routine fc r with h | h | ⟨x, h⟩
  · rw [h, h, harray]
  · rw [h, h, hinline]
  · rw [h, h]

/-- An array depends on its value routine up to messages. -/
lemma placed_arrayBody_congr {v w : Bytes → Res Node} (h : ∀ r, placed (v r) = placed (w r))
    (r : Bytes) : placed (arrayBody v r) = placed (arrayBody w r) := by
  have hm : ∀ items r, placed (arrayMember v items r) = placed (arrayMember w items r) := by
    intro items r
    have hvw := h r
    simp only [arrayMember]
    generalize v r = x at hvw ⊢
    generalize w r = y at hvw ⊢
    cases x <;> cases y <;> simp_all
  have hloop := placed_members_congr Ch.rbrack "unterminated array" "expected ',' or ']'" hm []
    (r.drop 1)
  simp only [arrayBody]
  generalize members _ _ _ (arrayMember v) _ _ = x at hloop ⊢
  generalize members _ _ _ (arrayMember w) _ _ = y at hloop ⊢
  cases x <;> cases y <;> simp_all

/-- An inline table depends on its member routine up to messages. -/
lemma placed_inlineBody_congr {m n : Entries → Bytes → Res Entries}
    (h : ∀ t r, placed (m t r) = placed (n t r)) (r : Bytes) :
    placed (inlineBody m r) = placed (inlineBody n r) := by
  have hloop := placed_members_congr Ch.rbrace "unterminated inline table"
    "expected ',' or '\x7d'" h [] (r.drop 1)
  simp only [inlineBody]
  generalize members _ _ _ m _ _ = x at hloop ⊢
  generalize members _ _ _ n _ _ = y at hloop ⊢
  cases x <;> cases y <;> simp_all

/-! ## The agreement -/

/-- A value is parsed the same way by the general parser, at every depth. -/
lemma placed_parseValue (cfg : Config) (curPath : Bytes) (levels : ℕ) (r : Bytes) :
    placed (parseValue cfg curPath levels r) = placed (parseValueGeneral cfg levels r) := by
  induction levels generalizing r with
  | zero => rfl
  | succ levels ih =>
    rw [parseValue_succ, parseValueGeneral]
    refine placed_valueDispatch_congr cfg.fc (placed_arrayBody_congr ih)
      (placed_inlineBody_congr ?_) r
    intro t r
    rw [placed_keyval cfg.maxDepth_pos]
    exact placed_keyvalGeneral_congr ih t r

/-- The fast paths agree with the general routines on the status, the value or the table with
the inserted pair, the cursor, and the status and position of a failure: for the key/value line
of any open table, for the member of an inline table and for the element of an array at any
depth. -/
theorem fast_paths_agree (cfg : Config) (curPath : Bytes) :
    (∀ t r, placed (parseKeyval cfg curPath t r) = placed (parseKeyvalGeneral cfg t r)) ∧
    (∀ levels t r,
      placed (keyval curPath cfg.maxDepth (parseValueFast cfg curPath levels)
        (parseValue cfg curPath levels) t r) =
      placed (keyvalGeneral cfg.maxDepth (parseValueGeneral cfg levels) t r)) ∧
    (∀ levels r,
      placed (parseValueFast cfg curPath levels r) = placed (parseValueGeneral cfg levels r)) := by
  have hmember : ∀ levels t r,
      placed (keyval curPath cfg.maxDepth (parseValueFast cfg curPath levels)
        (parseValue cfg curPath levels) t r) =
      placed (keyvalGeneral cfg.maxDepth (parseValueGeneral cfg levels) t r) := by
    intro levels t r
    rw [parseValueFast_eq, placed_keyval cfg.maxDepth_pos]
    exact placed_keyvalGeneral_congr (placed_parseValue cfg curPath levels) t r
  refine ⟨fun t r => hmember cfg.maxDepth t r, hmember, fun levels r => ?_⟩
  rw [parseValueFast_eq]
  exact placed_parseValue cfg curPath levels r

end Teptris
