import Teptris.Schema.JsonLeaves

/-!
# What the reader of schema texts accepts

The grammar of RFC 8259 with the values `json_read` makes of it, the number tokens of a text, and
the reader between them: where every number token is a number, it reads exactly the texts of the
grammar (`jsonRead_ok_iff`).
-/

namespace Teptris

/-! ## The grammar, with the values of the reader -/

mutual

/-- `value`, nested at most so deep, with what it is read as; the name of a member ends at a NUL. -/
inductive IsJv (strtod : Bytes → Double) : ℕ → Bytes → Jv → Prop
  /-- `null`. -/
  | null {d : ℕ} : IsJv strtod (d + 1) Json.nullText .null
  /-- `true` and `false`. -/
  | bool {d : ℕ} (b : Bool) : IsJv strtod (d + 1) (Json.boolText b) (.bool b)
  /-- A number. -/
  | number {d : ℕ} {tok : Bytes} {n : JNum} (h : IsJNum strtod tok n) :
      IsJv strtod (d + 1) tok (.number n)
  /-- A string. -/
  | string {d : ℕ} {t s : Bytes} (h : Json.IsChars t s) :
      IsJv strtod (d + 1) (0x22 :: t ++ [0x22]) (.string s)
  /-- An empty array. -/
  | emptyArray {d : ℕ} {w : Bytes} (hw : Json.IsWs w) :
      IsJv strtod (d + 1) (0x5B :: w ++ [0x5D]) (.array [])
  /-- An array. -/
  | array {d : ℕ} {t : Bytes} {vs : List Jv} (h : IsJvItems strtod d t vs) :
      IsJv strtod (d + 1) (0x5B :: t ++ [0x5D]) (.array vs)
  /-- An empty object. -/
  | emptyObject {d : ℕ} {w : Bytes} (hw : Json.IsWs w) :
      IsJv strtod (d + 1) (0x7B :: w ++ [0x7D]) (.object [])
  /-- An object. -/
  | object {d : ℕ} {t : Bytes} {ms : List (Bytes × Jv)} (h : IsJvMembers strtod d t ms) :
      IsJv strtod (d + 1) (0x7B :: t ++ [0x7D]) (.object ms)

/-- The values of an array, between commas. -/
inductive IsJvItems (strtod : Bytes → Double) : ℕ → Bytes → List Jv → Prop
  /-- The last value. -/
  | last {d : ℕ} {w t w' : Bytes} {v : Jv} (hw : Json.IsWs w) (h : IsJv strtod d t v)
      (hw' : Json.IsWs w') : IsJvItems strtod d (w ++ t ++ w') [v]
  /-- A value in front. -/
  | cons {d : ℕ} {w t w' ts : Bytes} {v : Jv} {vs : List Jv} (hw : Json.IsWs w)
      (h : IsJv strtod d t v) (hw' : Json.IsWs w') (hs : IsJvItems strtod d ts vs) :
      IsJvItems strtod d (w ++ t ++ w' ++ 0x2C :: ts) (v :: vs)

/-- The members of an object, between commas. -/
inductive IsJvMembers (strtod : Bytes → Double) : ℕ → Bytes → List (Bytes × Jv) → Prop
  /-- The last member. -/
  | last {d : ℕ} {u k u' w t w' s : Bytes} {v : Jv} (hu : Json.IsWs u) (hk : Json.IsChars k s)
      (hu' : Json.IsWs u') (hw : Json.IsWs w) (h : IsJv strtod d t v) (hw' : Json.IsWs w') :
      IsJvMembers strtod d (u ++ 0x22 :: k ++ 0x22 :: u' ++ 0x3A :: (w ++ t ++ w'))
        [(cstr s, v)]
  /-- A member in front. -/
  | cons {d : ℕ} {u k u' w t w' s ts : Bytes} {v : Jv} {ms : List (Bytes × Jv)}
      (hu : Json.IsWs u) (hk : Json.IsChars k s) (hu' : Json.IsWs u') (hw : Json.IsWs w)
      (h : IsJv strtod d t v) (hw' : Json.IsWs w') (hs : IsJvMembers strtod d ts ms) :
      IsJvMembers strtod d
        (u ++ 0x22 :: k ++ 0x22 :: u' ++ 0x3A :: (w ++ t ++ w' ++ 0x2C :: ts))
        ((cstr s, v) :: ms)

end

/-- A value with white space around it. -/
def IsJvText (strtod : Bytes → Double) (d : ℕ) (t : Bytes) (v : Jv) : Prop :=
  ∃ w t' w', Json.IsWs w ∧ Json.IsWs w' ∧ IsJv strtod d t' v ∧ t = w ++ (t' ++ w')

section Grammar

variable {strtod : Bytes → Double}

mutual

/-- What is nested so deep is nested deeper. -/
lemma IsJv.mono {d d' : ℕ} (hd : d ≤ d') {t : Bytes} {v : Jv} (h : IsJv strtod d t v) :
    IsJv strtod d' t v := by
  obtain _ | d' := d'
  · obtain rfl := Nat.le_zero.mp hd
    cases h
  cases h with
  | null => exact .null
  | bool b => exact .bool b
  | number h => exact .number h
  | string h => exact .string h
  | emptyArray hw => exact .emptyArray hw
  | array h => exact .array (h.mono (Nat.le_of_succ_le_succ hd))
  | emptyObject hw => exact .emptyObject hw
  | object h => exact .object (h.mono (Nat.le_of_succ_le_succ hd))

lemma IsJvItems.mono {d d' : ℕ} (hd : d ≤ d') {t : Bytes} {vs : List Jv}
    (h : IsJvItems strtod d t vs) : IsJvItems strtod d' t vs := by
  cases h with
  | last hw h hw' => exact .last hw (h.mono hd) hw'
  | cons hw h hw' hs => exact .cons hw (h.mono hd) hw' (hs.mono hd)

lemma IsJvMembers.mono {d d' : ℕ} (hd : d ≤ d') {t : Bytes} {ms : List (Bytes × Jv)}
    (h : IsJvMembers strtod d t ms) : IsJvMembers strtod d' t ms := by
  cases h with
  | last hu hk hu' hw h hw' => exact .last hu hk hu' hw (h.mono hd) hw'
  | cons hu hk hu' hw h hw' hs => exact .cons hu hk hu' hw (h.mono hd) hw' (hs.mono hd)

end

mutual

/-- The text is a value of RFC 8259. -/
lemma IsJv.isValue {d : ℕ} {t : Bytes} {v : Jv} (h : IsJv strtod d t v) :
    ∃ v', Json.IsValue t v' := by
  cases h with
  | null => exact ⟨_, .null⟩
  | bool b => exact ⟨_, .bool b⟩
  | number h =>
    obtain ⟨neg, mag, h⟩ := h.isNumber
    exact ⟨_, .number h⟩
  | string h => exact ⟨_, .string h⟩
  | emptyArray hw => exact ⟨_, .emptyArray hw⟩
  | array h =>
    obtain ⟨vs, h⟩ := h.isItems
    exact ⟨_, .array h⟩
  | emptyObject hw => exact ⟨_, .emptyObject hw⟩
  | object h =>
    obtain ⟨ms, h⟩ := h.isMembers
    exact ⟨_, .object h⟩

lemma IsJvItems.isItems {d : ℕ} {t : Bytes} {vs : List Jv} (h : IsJvItems strtod d t vs) :
    ∃ vs', Json.IsItems t vs' := by
  cases h with
  | last hw h hw' =>
    obtain ⟨v, h⟩ := h.isValue
    exact ⟨_, .last hw h hw'⟩
  | cons hw h hw' hs =>
    obtain ⟨v, h⟩ := h.isValue
    obtain ⟨vs, hs⟩ := hs.isItems
    exact ⟨_, .cons hw h hw' hs⟩

lemma IsJvMembers.isMembers {d : ℕ} {t : Bytes} {ms : List (Bytes × Jv)}
    (h : IsJvMembers strtod d t ms) : ∃ ms', Json.IsMembers t ms' := by
  cases h with
  | last hu hk hu' hw h hw' =>
    obtain ⟨v, h⟩ := h.isValue
    exact ⟨_, .last hu hk hu' hw h hw'⟩
  | cons hu hk hu' hw h hw' hs =>
    obtain ⟨v, h⟩ := h.isValue
    obtain ⟨ms, hs⟩ := hs.isMembers
    exact ⟨_, .cons hu hk hu' hw h hw' hs⟩

end

mutual

/-- Every value of RFC 8259 stands for one of the reader. -/
lemma isJv_of_isValue {t : Bytes} {v' : Json.Value} (h : Json.IsValue t v') :
    ∃ d v, IsJv strtod d t v := by
  cases h with
  | null => exact ⟨1, _, .null⟩
  | bool b => exact ⟨1, _, .bool b⟩
  | number h => exact ⟨1, _, .number (isJNum_jnumber h)⟩
  | string h => exact ⟨1, _, .string h⟩
  | emptyArray hw => exact ⟨1, _, .emptyArray hw⟩
  | array h =>
    obtain ⟨d, vs, h⟩ := isJvItems_of_isItems h
    exact ⟨d + 1, _, .array h⟩
  | emptyObject hw => exact ⟨1, _, .emptyObject hw⟩
  | object h =>
    obtain ⟨d, ms, h⟩ := isJvMembers_of_isMembers h
    exact ⟨d + 1, _, .object h⟩

lemma isJvItems_of_isItems {t : Bytes} {vs' : List Json.Value} (h : Json.IsItems t vs') :
    ∃ d vs, IsJvItems strtod d t vs := by
  cases h with
  | last hw h hw' =>
    obtain ⟨d, v, h⟩ := isJv_of_isValue h
    exact ⟨d, _, .last hw h hw'⟩
  | cons hw h hw' hs =>
    obtain ⟨d, v, h⟩ := isJv_of_isValue h
    obtain ⟨d', vs, hs⟩ := isJvItems_of_isItems hs
    exact ⟨max d d', _, .cons hw (h.mono (le_max_left d d')) hw' (hs.mono (le_max_right d d'))⟩

lemma isJvMembers_of_isMembers {t : Bytes} {ms' : List (Bytes × Json.Value)}
    (h : Json.IsMembers t ms') : ∃ d ms, IsJvMembers strtod d t ms := by
  cases h with
  | last hu hk hu' hw h hw' =>
    obtain ⟨d, v, h⟩ := isJv_of_isValue h
    exact ⟨d, _, .last hu hk hu' hw h hw'⟩
  | cons hu hk hu' hw h hw' hs =>
    obtain ⟨d, v, h⟩ := isJv_of_isValue h
    obtain ⟨d', ms, hs⟩ := isJvMembers_of_isMembers hs
    exact ⟨max d d', _,
      .cons hu hk hu' hw (h.mono (le_max_left d d')) hw' (hs.mono (le_max_right d d'))⟩

end

end Grammar

/-! ## Number tokens -/

/-- Where a scan for numbers is. -/
inductive NumberMode where
  /-- Between tokens. -/
  | free
  /-- Behind the first byte of a number token. -/
  | number
  /-- In a string. -/
  | string
  /-- Behind a backslash in a string. -/
  | escaped

/-- The number tokens of what is left of a text: the runs of the bytes of numbers, outside of
strings, that start with a digit or a minus. -/
def numbersFrom : NumberMode → Bytes → List Bytes
  | _, [] => []
  | .free, c :: t =>
    if c = 0x22 then numbersFrom .string t
    else if c = 0x2D ∨ isDec c then numToken (c :: t) :: numbersFrom .number t
    else numbersFrom .free t
  | .number, c :: t =>
    if c = 0x22 then numbersFrom .string t
    else if isNumByte c then numbersFrom .number t
    else numbersFrom .free t
  | .string, c :: t =>
    if c = 0x22 then numbersFrom .free t
    else if c = 0x5C then numbersFrom .escaped t
    else numbersFrom .string t
  | .escaped, _ :: t => numbersFrom .string t

/-- The number tokens of a text. -/
def numberTokens (t : Bytes) : List Bytes := numbersFrom .free t

/-- A number of RFC 8259 that the buffer of the reader holds. -/
def GoodNumber (tok : Bytes) : Prop := tok.length < 64 ∧ ∃ neg mag, Json.IsNumber tok neg mag

/-- The number tokens that are left are good. -/
def GoodNumbers (m : NumberMode) (t : Bytes) : Prop := ∀ tok ∈ numbersFrom m t, GoodNumber tok

/-- So they are outside of strings, behind a number or not. -/
def GoodAhead (t : Bytes) : Prop := GoodNumbers .free t ∨ GoodNumbers .number t

section Tokens

variable {t : Bytes}

lemma numByte_start {c : UInt8} (h : c = 0x2D ∨ isDec c = true) : isNumByte c = true := by
  rcases h with rfl | h
  · rfl
  · simp [isNumByte, h]

/-- Bytes that start neither a string nor a number are stepped over. -/
lemma numbersFrom_other {w : Bytes} (h : ∀ c ∈ w, c ≠ 0x22 ∧ c ≠ 0x2D ∧ isDec c = false)
    (t : Bytes) : numbersFrom .free (w ++ t) = numbersFrom .free t := by
  induction w with
  | nil => rfl
  | cons c w ih =>
    obtain ⟨hquote, hminus, hdec⟩ := h c List.mem_cons_self
    rw [List.cons_append, numbersFrom, if_neg hquote, if_neg (by simp [hminus, hdec])]
    exact ih fun d hd => h d (List.mem_cons_of_mem c hd)

lemma numbersFrom_ws {w : Bytes} (hw : Json.IsWs w) (t : Bytes) :
    numbersFrom .free (w ++ t) = numbersFrom .free t := by
  refine numbersFrom_other (fun c hc => ?_) t
  have hc := hw c hc
  refine ⟨?_, ?_, ?_⟩
  · rintro rfl
    exact absurd hc (by decide)
  · rintro rfl
    exact absurd hc (by decide)
  · simp only [Json.isWs, Bool.or_eq_true, beq_iff_eq] at hc
    rcases hc with ((rfl | rfl) | rfl) | rfl <;> rfl

/-- A byte that is in no number and no quote ends what is in front of it. -/
lemma GoodAhead.tail {c : UInt8} (h : GoodAhead (c :: t)) (hquote : c ≠ 0x22)
    (hnum : isNumByte c = false) : GoodNumbers .free t := by
  have hstart : ¬ (c = 0x2D ∨ isDec c = true) := fun hc => by
    rw [numByte_start hc] at hnum
    cases hnum
  rcases h with h | h
  · rwa [GoodNumbers, numbersFrom, if_neg hquote, if_neg hstart] at h
  · rwa [GoodNumbers, numbersFrom, if_neg hquote, if_neg (by simp [hnum])] at h

lemma isNumByte_ws {c : UInt8} (h : Json.isWs c = true) : c ≠ 0x22 ∧ isNumByte c = false := by
  simp only [Json.isWs, Bool.or_eq_true, beq_iff_eq] at h
  rcases h with ((rfl | rfl) | rfl) | rfl <;> exact ⟨by decide, rfl⟩

lemma GoodAhead.ws {w : Bytes} (hw : Json.IsWs w) (h : GoodAhead (w ++ t)) : GoodAhead t := by
  induction w with
  | nil => exact h
  | cons c w ih =>
    obtain ⟨hquote, hnum⟩ := isNumByte_ws (hw c List.mem_cons_self)
    exact ih (fun d hd => hw d (List.mem_cons_of_mem c hd)) (.inl (h.tail hquote hnum))

lemma numbersFrom_digit {c : UInt8} {v : ℕ} (h : Json.hexVal c = some v) (t : Bytes) :
    numbersFrom .string (c :: t) = numbersFrom .string t := by
  have hc : c ≠ 0x22 ∧ c ≠ 0x5C := by
    constructor
    · rintro rfl
      cases h
    · rintro rfl
      cases h
  rw [numbersFrom, if_neg hc.1, if_neg hc.2]

lemma numbersFrom_hex4 {a b c d : UInt8} {v : ℕ} (h : Json.hex4 [a, b, c, d] = some v) (t : Bytes) :
    numbersFrom .string (a :: b :: c :: d :: t) = numbersFrom .string t := by
  obtain ⟨vs, hvs, -⟩ := Option.map_eq_some_iff.mp h
  simp only [List.mapM_cons, Option.bind_eq_bind, Option.bind_eq_some_iff] at hvs
  obtain ⟨_, ha, _, ⟨_, hb, _, ⟨_, hc, _, ⟨_, hd, -⟩, -⟩, -⟩, -⟩ := hvs
  rw [numbersFrom_digit ha, numbersFrom_digit hb, numbersFrom_digit hc, numbersFrom_digit hd]

/-- A string ends where its quote is. -/
lemma numbersFrom_chars {k s : Bytes} (hk : Json.IsChars k s) (t : Bytes) :
    numbersFrom .string (k ++ t) = numbersFrom .string t := by
  induction hk with
  | nil => rfl
  | cons h _ ih =>
    rw [List.append_assoc, ← ih]
    cases h with
    | unescaped _ hquote hslash =>
      rw [List.singleton_append, numbersFrom, if_neg hquote, if_neg hslash]
    | short h => rfl
    | unicode h => exact numbersFrom_hex4 h _
    | pair h h' => exact (numbersFrom_hex4 h _).trans (numbersFrom_hex4 h' _)

/-- A string behind its opening quote. -/
lemma GoodAhead.string {k s r : Bytes} (h : GoodAhead (0x22 :: (k ++ 0x22 :: r)))
    (hk : Json.IsChars k s) : GoodNumbers .free r := by
  rcases h with h | h
  · rwa [GoodNumbers, numbersFrom, if_pos rfl, numbersFrom_chars hk, numbersFrom, if_pos rfl] at h
  · rwa [GoodNumbers, numbersFrom, if_pos rfl, numbersFrom_chars hk, numbersFrom, if_pos rfl] at h

/-- No byte of a number follows. -/
def NumberEnds (r : Bytes) : Prop := ∀ c ∈ r.head?, isNumByte c = false

lemma numbersFrom_run {cs : Bytes} (h : ∀ c ∈ cs, isNumByte c = true) (r : Bytes) :
    numbersFrom .number (cs ++ r) = numbersFrom .number r := by
  induction cs with
  | nil => rfl
  | cons c cs ih =>
    have hc := h c List.mem_cons_self
    have hquote : c ≠ 0x22 := by
      rintro rfl
      exact absurd hc (by decide)
    rw [List.cons_append, numbersFrom, if_neg hquote, if_pos hc]
    exact ih fun d hd => h d (List.mem_cons_of_mem c hd)

/-- A token starts with its first byte, and is the run behind it. -/
lemma numToken_cons {c : UInt8} (h : c = 0x2D ∨ isDec c = true) (t : Bytes) :
    numToken (c :: t) = c :: t.takeWhile isNumByte := by
  rw [numToken]
  split_ifs with hminus
  · obtain rfl := Option.some.inj hminus
    rfl
  · exact List.takeWhile_cons_of_pos (numByte_start h)

/-- A number in front. -/
lemma GoodNumbers.number {c : UInt8} (h : GoodNumbers .free (c :: t)) (hquote : c ≠ 0x22)
    (hc : c = 0x2D ∨ isDec c = true) :
    GoodNumber (numToken (c :: t)) ∧ GoodNumbers .number (t.dropWhile isNumByte) := by
  rw [GoodNumbers, numbersFrom, if_neg hquote, if_pos hc] at h
  refine ⟨h _ List.mem_cons_self, fun tok htok => h _ (List.mem_cons_of_mem _ ?_)⟩
  rwa [← List.takeWhile_append_dropWhile (p := isNumByte) (l := t),
    numbersFrom_run fun d hd => List.mem_takeWhile_imp hd]

end Tokens

/-! ## Soundness -/

section Sound

variable {strtod : Bytes → Double}

/-- `jskip_ws` skips white space. -/
lemma exists_jskipWs (t : Bytes) : ∃ w, Json.IsWs w ∧ t = w ++ jskipWs t :=
  ⟨t.takeWhile isJws, fun _ hc => List.mem_takeWhile_imp hc,
    (List.takeWhile_append_dropWhile).symm⟩

/-- What is in front of a byte that `jskip_ws` stops at. -/
lemma skipped_head {t : Bytes} {c : UInt8} (h : (jskipWs t).head? = some c) :
    ∃ w q, Json.IsWs w ∧ t = w ++ c :: q ∧ jskipWs t = c :: q := by
  obtain ⟨w, hw, heq⟩ := exists_jskipWs t
  obtain ⟨q, hq⟩ := List.head?_eq_some_iff.mp h
  exact ⟨w, q, hw, by rw [← hq, ← heq], hq⟩

/-- What is read is a value of the grammar in front of the rest. -/
def SoundRead (strtod : Bytes → Double) (d : ℕ) (value : Bytes → JResult (Jv × Bytes)) : Prop :=
  ∀ t v r, value t = .ok (v, r) → GoodNumbers .free t →
    ∃ w t', Json.IsWs w ∧ t = w ++ (t' ++ r) ∧ IsJv strtod d t' v ∧ GoodAhead r

variable {d : ℕ} {value : Bytes → JResult (Jv × Bytes)}

lemma jitems_sound (hvalue : SoundRead strtod d value) {n : ℕ} {t r : Bytes} {vs : List Jv}
    (h : jitems value n t = .ok (vs, r)) (hn : GoodNumbers .free t) :
    ∃ t', IsJvItems strtod d t' vs ∧ t = t' ++ 0x5D :: r ∧ GoodNumbers .free r := by
  induction n generalizing t vs with
  | zero => cases h
  | succ n ih =>
    rw [jitems] at h
    cases hv : value t with
    | error f =>
      rw [hv] at h
      cases h
    | ok p =>
      obtain ⟨v, q⟩ := p
      rw [hv] at h
      dsimp only at h
      obtain ⟨w, t', hw, rfl, hj, hq⟩ := hvalue t v q hv hn
      split_ifs at h with hcomma hclose
      · obtain ⟨w', q, hw', rfl, hskip⟩ := skipped_head hcomma
        rw [hskip, List.drop_one, List.tail_cons] at h
        have hq := (hq.ws hw').tail (by decide) rfl
        cases hrest : jitems value n q with
        | error f =>
          rw [hrest] at h
          cases h
        | ok p =>
          obtain ⟨vs', r'⟩ := p
          rw [hrest] at h
          simp only [Except.ok.injEq, Prod.mk.injEq] at h
          obtain ⟨rfl, rfl⟩ := h
          obtain ⟨ts, hs, rfl, hr⟩ := ih hrest hq
          exact ⟨_, .cons hw hj hw' hs, by simp, hr⟩
      · obtain ⟨w', q, hw', rfl, hskip⟩ := skipped_head hclose
        rw [hskip, List.drop_one, List.tail_cons] at h
        simp only [Except.ok.injEq, Prod.mk.injEq] at h
        obtain ⟨rfl, rfl⟩ := h
        exact ⟨_, .last hw hj hw', by simp, (hq.ws hw').tail (by decide) rfl⟩

lemma jmembers_sound (hvalue : SoundRead strtod d value) {n : ℕ} {t r : Bytes}
    {ms : List (Bytes × Jv)} (h : jmembers value n t = .ok (ms, r)) (hn : GoodAhead t) :
    ∃ t', IsJvMembers strtod d t' ms ∧ t = t' ++ 0x7D :: r ∧ GoodNumbers .free r := by
  induction n generalizing t ms with
  | zero => cases h
  | succ n ih =>
    rw [jmembers] at h
    dsimp only at h
    split_ifs at h with hquote
    · obtain ⟨u, q, hu, rfl, hskip⟩ := skipped_head (not_not.mp hquote)
      rw [hskip, List.drop_one, List.tail_cons] at h
      cases hkey : jstring q with
      | error f =>
        rw [hkey] at h
        cases h
      | ok p =>
        obtain ⟨s, q⟩ := p
        rw [hkey] at h
        dsimp only at h
        obtain ⟨k, hk, rfl⟩ := jstring_iff.mp hkey
        have hq := (hn.ws hu).string hk
        split_ifs at h with hcolon
        · obtain ⟨u', q, hu', rfl, hskip⟩ := skipped_head (not_not.mp hcolon)
          rw [hskip, List.drop_one, List.tail_cons] at h
          have hq := (GoodAhead.ws hu' (.inl hq)).tail (by decide) rfl
          cases hv : value q with
          | error f =>
            rw [hv] at h
            cases h
          | ok p =>
            obtain ⟨v, q⟩ := p
            rw [hv] at h
            dsimp only at h
            obtain ⟨w, t', hw, rfl, hj, hq⟩ := hvalue _ v q hv hq
            split_ifs at h with hcomma hclose
            · obtain ⟨w', q, hw', rfl, hskip⟩ := skipped_head hcomma
              rw [hskip, List.drop_one, List.tail_cons] at h
              have hq := (hq.ws hw').tail (by decide) rfl
              cases hrest : jmembers value n q with
              | error f =>
                rw [hrest] at h
                cases h
              | ok p =>
                obtain ⟨ms', r'⟩ := p
                rw [hrest] at h
                simp only [Except.ok.injEq, Prod.mk.injEq] at h
                obtain ⟨rfl, rfl⟩ := h
                obtain ⟨ts, hs, rfl, hr⟩ := ih hrest (.inl hq)
                exact ⟨_, .cons hu hk hu' hw hj hw' hs, by simp, hr⟩
            · obtain ⟨w', q, hw', rfl, hskip⟩ := skipped_head hclose
              rw [hskip, List.drop_one, List.tail_cons] at h
              simp only [Except.ok.injEq, Prod.mk.injEq] at h
              obtain ⟨rfl, rfl⟩ := h
              exact ⟨_, .last hu hk hu' hw hj hw', by simp, (hq.ws hw').tail (by decide) rfl⟩

lemma isWs_append {w w' : Bytes} (hw : Json.IsWs w) (hw' : Json.IsWs w') : Json.IsWs (w ++ w') :=
  fun c hc => (List.mem_append.mp hc).elim (hw c) (hw' c)

/-- White space in front of the values of an array belongs to the first. -/
lemma IsJvItems.ws {w t : Bytes} {vs : List Jv} (hw : Json.IsWs w) (h : IsJvItems strtod d t vs) :
    IsJvItems strtod d (w ++ t) vs := by
  cases h with
  | last hw' h hw'' => simpa using IsJvItems.last (isWs_append hw hw') h hw''
  | cons hw' h hw'' hs => simpa using IsJvItems.cons (isWs_append hw hw') h hw'' hs

lemma IsJvMembers.ws {w t : Bytes} {ms : List (Bytes × Jv)} (hw : Json.IsWs w)
    (h : IsJvMembers strtod d t ms) : IsJvMembers strtod d (w ++ t) ms := by
  cases h with
  | last hu hk hu' hw' h hw'' =>
    simpa using IsJvMembers.last (isWs_append hw hu) hk hu' hw' h hw''
  | cons hu hk hu' hw' h hw'' hs =>
    simpa using IsJvMembers.cons (isWs_append hw hu) hk hu' hw' h hw'' hs

lemma jarray_sound (hvalue : SoundRead strtod d value) {t r : Bytes} {vs : List Jv}
    (h : jarray value t = .ok (vs, r)) (hn : GoodNumbers .free t) :
    ∃ t', IsJv strtod (d + 1) (0x5B :: t' ++ [0x5D]) (.array vs) ∧ t = t' ++ 0x5D :: r ∧
      GoodNumbers .free r := by
  rw [jarray] at h
  split_ifs at h with hclose
  · obtain ⟨w, q, hw, rfl, hskip⟩ := skipped_head hclose
    rw [hskip, List.drop_one, List.tail_cons] at h
    simp only [Except.ok.injEq, Prod.mk.injEq] at h
    obtain ⟨rfl, rfl⟩ := h
    exact ⟨w, .emptyArray hw, rfl, (GoodAhead.ws hw (.inl hn)).tail (by decide) rfl⟩
  · obtain ⟨w, hw, heq⟩ := exists_jskipWs t
    have hq : GoodNumbers .free (jskipWs t) := by
      rwa [heq, GoodNumbers, numbersFrom_ws hw] at hn
    obtain ⟨t', hs, hrest, hr⟩ := jitems_sound hvalue h hq
    exact ⟨w ++ t', .array (hs.ws hw), by rw [List.append_assoc, ← hrest, ← heq], hr⟩

lemma jobject_sound (hvalue : SoundRead strtod d value) {t r : Bytes} {ms : List (Bytes × Jv)}
    (h : jobject value t = .ok (ms, r)) (hn : GoodNumbers .free t) :
    ∃ t', IsJv strtod (d + 1) (0x7B :: t' ++ [0x7D]) (.object ms) ∧ t = t' ++ 0x7D :: r ∧
      GoodNumbers .free r := by
  rw [jobject] at h
  split_ifs at h with hclose
  · obtain ⟨w, q, hw, rfl, hskip⟩ := skipped_head hclose
    rw [hskip, List.drop_one, List.tail_cons] at h
    simp only [Except.ok.injEq, Prod.mk.injEq] at h
    obtain ⟨rfl, rfl⟩ := h
    exact ⟨w, .emptyObject hw, rfl, (GoodAhead.ws hw (.inl hn)).tail (by decide) rfl⟩
  · obtain ⟨w, hw, heq⟩ := exists_jskipWs t
    have hq : GoodAhead (jskipWs t) := by
      rw [heq] at hn
      exact GoodAhead.ws hw (.inl hn)
    obtain ⟨t', hs, hrest, hr⟩ := jmembers_sound hvalue h hq
    exact ⟨w ++ t', .object (hs.ws hw), by rw [List.append_assoc, ← hrest, ← heq], hr⟩

/-- A literal name in front. -/
lemma word_sound {q word : Bytes} {n : ℕ} (h : q.take n = word)
    (hword : ∀ c ∈ word, c ≠ 0x22 ∧ c ≠ 0x2D ∧ isDec c = false) (hn : GoodNumbers .free q) :
    q = word ++ q.drop n ∧ GoodAhead (q.drop n) := by
  have hq : q = word ++ q.drop n := by rw [← h, List.take_append_drop]
  refine ⟨hq, .inl ?_⟩
  rwa [hq, GoodNumbers, numbersFrom_other hword] at hn

/-- `jvalue` reads values. -/
lemma jvalue_sound (d : ℕ) : SoundRead strtod d (jvalue strtod d) := by
  induction d with
  | zero =>
    intro t v r h
    cases h
  | succ d ih =>
    intro t v r h hn
    obtain ⟨w, hw, heq⟩ := exists_jskipWs t
    rw [jvalue] at h
    cases hskip : jskipWs t with
    | nil =>
      rw [hskip] at h
      cases h
    | cons ch q =>
      rw [hskip] at h heq
      subst heq
      rw [GoodNumbers, numbersFrom_ws hw] at hn
      change GoodNumbers .free (ch :: q) at hn
      dsimp only at h
      split_ifs at h with hobject harray hstring htrue hfalse hnull hnumber hlong
      · subst hobject
        cases ho : jobject (jvalue strtod d) q with
        | error f =>
          rw [ho] at h
          cases h
        | ok o =>
          rw [ho] at h
          simp only [Except.map, Except.ok.injEq, Prod.mk.injEq] at h
          obtain ⟨rfl, rfl⟩ := h
          obtain ⟨t', hj, rfl, hr⟩ := jobject_sound ih ho (GoodAhead.tail (.inl hn) (by decide) rfl)
          exact ⟨w, _, hw, by simp, hj, .inl hr⟩
      · subst harray
        cases ha : jarray (jvalue strtod d) q with
        | error f =>
          rw [ha] at h
          cases h
        | ok a =>
          rw [ha] at h
          simp only [Except.map, Except.ok.injEq, Prod.mk.injEq] at h
          obtain ⟨rfl, rfl⟩ := h
          obtain ⟨t', hj, rfl, hr⟩ := jarray_sound ih ha (GoodAhead.tail (.inl hn) (by decide) rfl)
          exact ⟨w, _, hw, by simp, hj, .inl hr⟩
      · subst hstring
        cases hs : jstring q with
        | error f =>
          rw [hs] at h
          cases h
        | ok s =>
          rw [hs] at h
          simp only [Except.map, Except.ok.injEq, Prod.mk.injEq] at h
          obtain ⟨rfl, rfl⟩ := h
          obtain ⟨k, hk, rfl⟩ := jstring_iff.mp hs
          exact ⟨w, _, hw, by simp, .string hk, .inl (GoodAhead.string (.inl hn) hk)⟩
      · obtain ⟨heq, hr⟩ := word_sound htrue (by decide +kernel) hn
        simp only [Except.ok.injEq, Prod.mk.injEq] at h
        obtain ⟨rfl, rfl⟩ := h
        exact ⟨w, _, hw, congrArg (w ++ ·) heq, .bool true, hr⟩
      · obtain ⟨heq, hr⟩ := word_sound hfalse (by decide +kernel) hn
        simp only [Except.ok.injEq, Prod.mk.injEq] at h
        obtain ⟨rfl, rfl⟩ := h
        exact ⟨w, _, hw, congrArg (w ++ ·) heq, .bool false, hr⟩
      · obtain ⟨heq, hr⟩ := word_sound hnull (by decide +kernel) hn
        simp only [Except.ok.injEq, Prod.mk.injEq] at h
        obtain ⟨rfl, rfl⟩ := h
        exact ⟨w, _, hw, congrArg (w ++ ·) heq, .null, hr⟩
      · have hstart : ch = 0x2D ∨ isDec ch = true := by
          simpa [isDec] using hnumber
        obtain ⟨⟨-, neg, mag, htok⟩, hr⟩ := hn.number hstring hstart
        simp only [Except.ok.injEq, Prod.mk.injEq] at h
        obtain ⟨rfl, rfl⟩ := h
        have hrest : (ch :: q).drop (numToken (ch :: q)).length = q.dropWhile isNumByte := by
          rw [numToken_cons hstart, List.length_cons, List.drop_succ_cons]
          conv_lhs => rw [← List.takeWhile_append_dropWhile (p := isNumByte) (l := q)]
          rw [List.drop_left' (by simp)]
        refine ⟨w, numToken (ch :: q), hw, ?_, .number (isJNum_jnumber htok), ?_⟩
        · rw [hrest, numToken_cons hstart, List.cons_append, List.takeWhile_append_dropWhile]
        · rw [hrest]
          exact .inr hr

end Sound

/-! ## Completeness -/

section Complete

variable {strtod : Bytes → Double}

/-- `jskip_ws` stops at a byte that is no white space. -/
lemma jskipWs_append {w : Bytes} (hw : Json.IsWs w) {c : UInt8} (hc : isJws c = false) (q : Bytes) :
    jskipWs (w ++ c :: q) = c :: q :=
  (Runs.cut (p := isJws) (a := w) (b := c :: q) hw fun d hd => by
    obtain rfl := Option.some.inj hd
    exact hc).2

/-- White space ends a number, and so does a byte that is in none. -/
lemma numberEnds_append {w : Bytes} (hw : Json.IsWs w) {c : UInt8} (hc : isNumByte c = false)
    (q : Bytes) : NumberEnds (w ++ c :: q) := by
  cases w with
  | nil =>
    intro d hd
    obtain rfl := Option.some.inj hd
    exact hc
  | cons e w =>
    intro d hd
    obtain rfl := Option.some.inj hd
    exact (isNumByte_ws (hw _ List.mem_cons_self)).2

/-- The bytes of a number. -/
lemma isNumber_bytes {tok : Bytes} {neg : Bool} {mag : ℚ} (h : Json.IsNumber tok neg mag) :
    ∃ c cs, tok = c :: cs ∧ (c = 0x2D ∨ isDec c = true) ∧ ∀ e ∈ cs, isNumByte e = true := by
  obtain ⟨int, frac, ds, exp, e, hint, hfrac, hexp, rfl, -⟩ := h
  have hdec : ∀ {c : UInt8}, Json.isDigit c = true → isNumByte c = true := fun hc =>
    numByte_start (.inr hc)
  have hbytes : ∀ c ∈ int ++ frac ++ exp, isNumByte c = true := by
    intro c hc
    rcases List.mem_append.mp hc with hc | hc
    · rcases List.mem_append.mp hc with hc | hc
      · exact hdec (hint.digits c hc)
      · cases hfrac with
        | absent => cases hc
        | digits hds =>
          rcases List.mem_cons.mp hc with rfl | hc
          · rfl
          · exact hdec (hds c hc)
    · cases hexp with
      | absent => cases hc
      | unsigned hmark hds =>
        rcases List.mem_cons.mp hc with rfl | hc
        · rcases hmark with rfl | rfl <;> rfl
        · exact hdec (hds c hc)
      | @signed mark neg ds hmark hds =>
        rcases List.mem_cons.mp hc with rfl | hc
        · rcases hmark with rfl | rfl <;> rfl
        · rcases List.mem_cons.mp hc with rfl | hc
          · cases neg <;> rfl
          · exact hdec (hds c hc)
  cases neg with
  | true => exact ⟨0x2D, int ++ frac ++ exp, by simp, .inl rfl, hbytes⟩
  | false =>
    obtain ⟨c, int, rfl⟩ := List.exists_cons_of_ne_nil hint.ne_nil
    exact ⟨c, int ++ frac ++ exp, by simp, .inr (hint.digits c List.mem_cons_self),
      fun e he => hbytes e (List.mem_cons_of_mem c he)⟩

/-- What starts a number starts nothing else. -/
lemma numberStart_ne {c : UInt8} (hc : c = 0x2D ∨ isDec c = true) :
    isJws c = false ∧ c ≠ 0x7B ∧ c ≠ 0x5B ∧ c ≠ 0x22 ∧ c ≠ 0x74 ∧ c ≠ 0x66 ∧ c ≠ 0x6E := by
  rcases hc with rfl | hc
  · decide
  · simp only [isDec, Bool.and_eq_true, decide_eq_true_eq] at hc
    simp only [isJws, Bool.or_eq_false_iff, beq_eq_false_iff_ne]
    grind

lemma jvalue_number {w tok r : Bytes} {n : JNum} (hw : Json.IsWs w) (h : IsJNum strtod tok n)
    (hr : NumberEnds r) (hn : GoodNumbers .free (tok ++ r)) (d : ℕ) :
    jvalue strtod (d + 1) (w ++ (tok ++ r)) = .ok (.number n, r) ∧ GoodAhead r := by
  obtain ⟨neg, mag, hnum⟩ := h.isNumber
  obtain ⟨c, cs, rfl, hc, hcs⟩ := isNumber_bytes hnum
  obtain ⟨hws, hbrace, hbracket, hquote, ht, hf, hn'⟩ := numberStart_ne hc
  obtain ⟨htake, hdrop⟩ := Runs.cut hcs hr
  have htok : numToken (c :: (cs ++ r)) = c :: cs := by rw [numToken_cons hc, htake]
  obtain ⟨hgood, hahead⟩ := GoodNumbers.number hn hquote hc
  have hstart : c = 0x2D ∨ (0x30 ≤ c ∧ c ≤ 0x39) := by
    simpa [isDec] using hc
  have hlen : ¬ 64 ≤ (c :: cs).length := by
    rw [← htok]
    exact Nat.not_le.mpr hgood.1
  have htrue : (c :: (cs ++ r)).take 4 ≠ ascii "true" := fun heq => ht (List.cons.inj heq).1
  have hfalse : (c :: (cs ++ r)).take 5 ≠ ascii "false" := fun heq => hf (List.cons.inj heq).1
  have hnull : (c :: (cs ++ r)).take 4 ≠ ascii "null" := fun heq => hn' (List.cons.inj heq).1
  constructor
  · rw [List.cons_append, jvalue, jskipWs_append hw hws]
    simp only [if_neg hbrace, if_neg hbracket, if_neg hquote]
    rw [if_neg htrue, if_neg hfalse, if_neg hnull, if_pos hstart, htok, if_neg hlen, h.eq,
      List.length_cons, List.drop_succ_cons, List.drop_left]
  · change GoodNumbers .number ((cs ++ r).dropWhile isNumByte) at hahead
    rw [hdrop] at hahead
    exact .inr hahead

/-- A literal name is no number. -/
lemma goodAhead_word {word r : Bytes}
    (hword : ∀ c ∈ word, c ≠ 0x22 ∧ c ≠ 0x2D ∧ isDec c = false)
    (hn : GoodNumbers .free (word ++ r)) : GoodAhead r := by
  rw [GoodNumbers, numbersFrom_other hword] at hn
  exact .inl hn

/-- What starts a value: neither white space nor the end of an array. -/
lemma IsJv.head {d : ℕ} {t : Bytes} {v : Jv} (h : IsJv strtod d t v) :
    ∃ c cs, t = c :: cs ∧ isJws c = false ∧ c ≠ 0x5D := by
  cases h with
  | null => exact ⟨_, _, rfl, rfl, by decide⟩
  | bool b => cases b <;> exact ⟨_, _, rfl, rfl, by decide⟩
  | number h =>
    obtain ⟨neg, mag, hnum⟩ := h.isNumber
    obtain ⟨c, cs, rfl, hc, -⟩ := isNumber_bytes hnum
    refine ⟨c, cs, rfl, (numberStart_ne hc).1, ?_⟩
    rintro rfl
    revert hc
    decide
  | string | emptyArray | array | emptyObject | object => exact ⟨_, _, rfl, rfl, by decide⟩

lemma IsJvItems.exists_succ {d : ℕ} {t : Bytes} {vs : List Jv} (h : IsJvItems strtod d t vs) :
    ∃ e, d = e + 1 := by
  cases h with
  | last _ h | cons _ h => cases h <;> exact ⟨_, rfl⟩

/-- Every value of an array takes a byte. -/
lemma IsJvItems.length_le : ∀ {d : ℕ} {t : Bytes} {vs : List Jv}, IsJvItems strtod d t vs →
    vs.length ≤ t.length
  | _, _, _, .last hw h hw' => by
    obtain ⟨c, cs, rfl, -⟩ := h.head
    simp only [List.length_append, List.length_cons, List.length_nil]
    omega
  | _, _, _, .cons hw h hw' hs => by
    have := hs.length_le
    simp only [List.length_append, List.length_cons]
    omega

lemma IsJvMembers.length_le : ∀ {d : ℕ} {t : Bytes} {ms : List (Bytes × Jv)},
    IsJvMembers strtod d t ms → ms.length ≤ t.length
  | _, _, _, .last .. => by
    simp only [List.length_append, List.length_cons, List.length_nil]
    omega
  | _, _, _, .cons hu hk hu' hw h hw' hs => by
    have := hs.length_le
    simp only [List.length_append, List.length_cons]
    omega

/-- The values of an array without the white space in front. -/
lemma IsJvItems.skip {d : ℕ} {t : Bytes} {vs : List Jv} (h : IsJvItems strtod d t vs) (q : Bytes) :
    vs.length ≤ (jskipWs (t ++ q)).length ∧ (jskipWs (t ++ q)).head? ≠ some 0x5D := by
  cases h with
  | last hw h hw' =>
    obtain ⟨c, cs, rfl, hc, hclose⟩ := h.head
    simp only [List.append_assoc, List.cons_append]
    rw [jskipWs_append hw hc]
    exact ⟨by simp, by simpa using hclose⟩
  | cons hw h hw' hs =>
    obtain ⟨c, cs, rfl, hc, hclose⟩ := h.head
    have := hs.length_le
    simp only [List.append_assoc, List.cons_append]
    rw [jskipWs_append hw hc]
    refine ⟨?_, by simpa using hclose⟩
    simp only [List.length_append, List.length_cons]
    omega

lemma IsJvMembers.skip {d : ℕ} {t : Bytes} {ms : List (Bytes × Jv)}
    (h : IsJvMembers strtod d t ms) (q : Bytes) :
    ms.length ≤ (jskipWs (t ++ q)).length ∧ (jskipWs (t ++ q)).head? = some 0x22 := by
  cases h with
  | last hu =>
    simp only [List.append_assoc, List.cons_append]
    rw [jskipWs_append hu rfl]
    exact ⟨by simp, rfl⟩
  | cons hu hk hu' hw h hw' hs =>
    have := hs.length_le
    simp only [List.append_assoc, List.cons_append]
    rw [jskipWs_append hu rfl]
    refine ⟨?_, rfl⟩
    simp only [List.length_append, List.length_cons]
    omega

/-- White space that is skipped leaves none. -/
lemma jskipWs_jskipWs (t : Bytes) : jskipWs (jskipWs t) = jskipWs t :=
  List.dropWhile_idempotent isJws t

lemma jitems_skip (d n : ℕ) (t : Bytes) :
    jitems (jvalue strtod (d + 1)) (n + 1) (jskipWs t) =
      jitems (jvalue strtod (d + 1)) (n + 1) t := by
  rw [jitems, jitems, jvalue, jvalue, jskipWs_jskipWs]

lemma jmembers_skip (value : Bytes → JResult (Jv × Bytes)) (n : ℕ) (t : Bytes) :
    jmembers value (n + 1) (jskipWs t) = jmembers value (n + 1) t := by
  rw [jmembers, jmembers, jskipWs_jskipWs]

/-- The branches of `jvalue` on what starts a value. -/
lemma jvalue_object {w : Bytes} (hw : Json.IsWs w) (d : ℕ) (q : Bytes) :
    jvalue strtod (d + 1) (w ++ 0x7B :: q) =
      (jobject (jvalue strtod d) q).map fun o => (.object o.1, o.2) := by
  rw [jvalue, jskipWs_append hw rfl]
  rfl

lemma jvalue_array {w : Bytes} (hw : Json.IsWs w) (d : ℕ) (q : Bytes) :
    jvalue strtod (d + 1) (w ++ 0x5B :: q) =
      (jarray (jvalue strtod d) q).map fun a => (.array a.1, a.2) := by
  rw [jvalue, jskipWs_append hw rfl]
  rfl

lemma jvalue_string {w : Bytes} (hw : Json.IsWs w) (d : ℕ) (q : Bytes) :
    jvalue strtod (d + 1) (w ++ 0x22 :: q) = (jstring q).map fun s => (.string s.1, s.2) := by
  rw [jvalue, jskipWs_append hw rfl]
  rfl

/-- The loop of `jobject` up to a value. -/
lemma key_eq {value : Bytes → JResult (Jv × Bytes)} {n : ℕ} {u k s u' q : Bytes}
    (hu : Json.IsWs u) (hk : Json.IsChars k s) (hu' : Json.IsWs u')
    (hn : GoodNumbers .free (u ++ 0x22 :: (k ++ 0x22 :: (u' ++ 0x3A :: q)))) :
    jmembers value (n + 1) (u ++ 0x22 :: (k ++ 0x22 :: (u' ++ 0x3A :: q))) =
        (match value q with
          | .error f => .error f
          | .ok (v, t) =>
            let t := jskipWs t
            if t.head? = some 0x2C then
              match jmembers value n (t.drop 1) with
              | .error f => .error f
              | .ok (ms, t) => .ok ((cstr s, v) :: ms, t)
            else if t.head? = some 0x7D then .ok ([(cstr s, v)], t.drop 1)
            else .error ("expected ',' or '\x7d'", t)) ∧
      GoodNumbers .free q := by
  have hs : jstring (k ++ 0x22 :: (u' ++ 0x3A :: q)) = .ok (s, u' ++ 0x3A :: q) :=
    jstring_iff.mpr ⟨k, hk, rfl⟩
  constructor
  · rw [jmembers, jskipWs_append hu rfl]
    simp only [List.head?_cons, ne_eq, not_true_eq_false, if_false, List.drop_one, List.tail_cons,
      hs, jskipWs_append hu' (c := 0x3A) rfl] <;> rfl
  · exact (GoodAhead.ws hu' (.inl ((GoodAhead.ws hu (.inl hn)).string hk))).tail (by decide) rfl

mutual

/-- `jvalue` reads every value, up to its end. -/
lemma jvalue_eq {d : ℕ} {t : Bytes} {v : Jv} (h : IsJv strtod d t v) {w : Bytes}
    (hw : Json.IsWs w) {r : Bytes} (hr : NumberEnds r) (hn : GoodNumbers .free (t ++ r)) :
    jvalue strtod d (w ++ (t ++ r)) = .ok (v, r) ∧ GoodAhead r := by
  cases h with
  | null =>
    refine ⟨?_, @goodAhead_word Json.nullText _ (by decide +kernel) hn⟩
    rw [Json.nullText, List.cons_append, jvalue, jskipWs_append hw rfl]
    rfl
  | bool b =>
    refine ⟨?_, @goodAhead_word (Json.boolText b) _ (by cases b <;> decide +kernel) hn⟩
    cases b with
    | true =>
      rw [Json.boolText, if_pos rfl, List.cons_append, jvalue, jskipWs_append hw rfl]
      rfl
    | false =>
      rw [Json.boolText, if_neg Bool.false_ne_true, List.cons_append, jvalue,
        jskipWs_append hw rfl]
      rfl
  | number h => exact jvalue_number hw h hr hn _
  | @string d t s h =>
    have hs : jstring (t ++ 0x22 :: r) = .ok (s, r) := jstring_iff.mpr ⟨t, h, rfl⟩
    have htext : 0x22 :: t ++ [0x22] ++ r = 0x22 :: (t ++ 0x22 :: r) := by simp
    rw [htext] at hn ⊢
    rw [jvalue_string hw, hs]
    exact ⟨rfl, .inl (GoodAhead.string (.inl hn) h)⟩
  | @emptyArray d u hu =>
    have htext : 0x5B :: u ++ [0x5D] ++ r = 0x5B :: (u ++ 0x5D :: r) := by simp
    rw [htext] at hn ⊢
    have hfree := GoodAhead.tail (.inl hn) (by decide) rfl
    rw [jvalue_array hw, jarray, jskipWs_append hu (c := 0x5D) rfl]
    exact ⟨rfl, .inl ((GoodAhead.ws hu (.inl hfree)).tail (by decide) rfl)⟩
  | @array d t vs h =>
    have htext : 0x5B :: t ++ [0x5D] ++ r = 0x5B :: (t ++ 0x5D :: r) := by simp
    rw [htext] at hn ⊢
    have hfree := GoodAhead.tail (.inl hn) (by decide) rfl
    obtain ⟨hlen, hopen⟩ := h.skip (0x5D :: r)
    obtain ⟨hitems, hr⟩ := jitems_eq h (Nat.le_succ_of_le hlen) hfree
    obtain ⟨d, rfl⟩ := h.exists_succ
    rw [jvalue_array hw, jarray, if_neg hopen, jitems_skip, hitems]
    exact ⟨rfl, .inl hr⟩
  | @emptyObject d u hu =>
    have htext : 0x7B :: u ++ [0x7D] ++ r = 0x7B :: (u ++ 0x7D :: r) := by simp
    rw [htext] at hn ⊢
    have hfree := GoodAhead.tail (.inl hn) (by decide) rfl
    rw [jvalue_object hw, jobject, jskipWs_append hu (c := 0x7D) rfl]
    exact ⟨rfl, .inl ((GoodAhead.ws hu (.inl hfree)).tail (by decide) rfl)⟩
  | @object d t ms h =>
    have htext : 0x7B :: t ++ [0x7D] ++ r = 0x7B :: (t ++ 0x7D :: r) := by simp
    rw [htext] at hn ⊢
    have hfree := GoodAhead.tail (.inl hn) (by decide) rfl
    obtain ⟨hlen, hopen⟩ := h.skip (0x7D :: r)
    obtain ⟨hmembers, hr⟩ := jmembers_eq h (Nat.le_succ_of_le hlen) hfree
    rw [jvalue_object hw, jobject, if_neg (by rw [hopen]; decide), jmembers_skip, hmembers]
    exact ⟨rfl, .inl hr⟩

/-- `jarray` reads all of its values. -/
lemma jitems_eq {d : ℕ} {t : Bytes} {vs : List Jv} (h : IsJvItems strtod d t vs) {n : ℕ}
    (hlen : vs.length ≤ n) {r : Bytes} (hn : GoodNumbers .free (t ++ 0x5D :: r)) :
    jitems (jvalue strtod d) n (t ++ 0x5D :: r) = .ok (vs, r) ∧ GoodNumbers .free r := by
  cases h with
  | @last _ w t w' v hw h hw' =>
    obtain _ | n := n
    · exact absurd hlen (Nat.not_succ_le_zero _)
    have htext : w ++ t ++ w' ++ 0x5D :: r = w ++ (t ++ (w' ++ 0x5D :: r)) := by simp
    rw [htext] at hn ⊢
    rw [GoodNumbers, numbersFrom_ws hw] at hn
    obtain ⟨hv, hahead⟩ := jvalue_eq h hw (numberEnds_append hw' rfl r) hn
    refine ⟨?_, (hahead.ws hw').tail (by decide) rfl⟩
    rw [jitems, hv]
    simp only [jskipWs_append hw' (c := 0x5D) rfl]
    rfl
  | @cons _ w t w' ts v vs hw h hw' hs =>
    obtain _ | n := n
    · exact absurd hlen (Nat.not_succ_le_zero _)
    have htext : w ++ t ++ w' ++ 0x2C :: ts ++ 0x5D :: r =
        w ++ (t ++ (w' ++ 0x2C :: (ts ++ 0x5D :: r))) := by simp
    rw [htext] at hn ⊢
    rw [GoodNumbers, numbersFrom_ws hw] at hn
    obtain ⟨hv, hahead⟩ := jvalue_eq h hw (numberEnds_append hw' rfl _) hn
    obtain ⟨hrest, hr⟩ := jitems_eq hs (Nat.le_of_succ_le_succ hlen)
      ((hahead.ws hw').tail (by decide) rfl)
    refine ⟨?_, hr⟩
    rw [jitems, hv]
    simp only [jskipWs_append hw' (c := 0x2C) rfl, List.head?_cons, if_true, List.drop_one,
      List.tail_cons, hrest]

/-- `jobject` reads all of its members. -/
lemma jmembers_eq {d : ℕ} {t : Bytes} {ms : List (Bytes × Jv)} (h : IsJvMembers strtod d t ms)
    {n : ℕ} (hlen : ms.length ≤ n) {r : Bytes} (hn : GoodNumbers .free (t ++ 0x7D :: r)) :
    jmembers (jvalue strtod d) n (t ++ 0x7D :: r) = .ok (ms, r) ∧ GoodNumbers .free r := by
  cases h with
  | @last _ u k u' w t w' s v hu hk hu' hw h hw' =>
    obtain _ | n := n
    · exact absurd hlen (Nat.not_succ_le_zero _)
    have htext : u ++ 0x22 :: k ++ 0x22 :: u' ++ 0x3A :: (w ++ t ++ w') ++ 0x7D :: r =
        u ++ 0x22 :: (k ++ 0x22 :: (u' ++ 0x3A :: (w ++ (t ++ (w' ++ 0x7D :: r))))) := by simp
    rw [htext] at hn ⊢
    obtain ⟨hkey, hfree⟩ := key_eq hu hk hu' hn
    rw [GoodNumbers, numbersFrom_ws hw] at hfree
    obtain ⟨hv, hahead⟩ := jvalue_eq h hw (numberEnds_append hw' rfl r) hfree
    refine ⟨?_, (hahead.ws hw').tail (by decide) rfl⟩
    rw [hkey, hv]
    simp only [jskipWs_append hw' (c := 0x7D) rfl]
    rfl
  | @cons _ u k u' w t w' s ts v ms hu hk hu' hw h hw' hs =>
    obtain _ | n := n
    · exact absurd hlen (Nat.not_succ_le_zero _)
    have htext : u ++ 0x22 :: k ++ 0x22 :: u' ++ 0x3A :: (w ++ t ++ w' ++ 0x2C :: ts) ++ 0x7D :: r =
        u ++ 0x22 :: (k ++ 0x22 :: (u' ++ 0x3A ::
          (w ++ (t ++ (w' ++ 0x2C :: (ts ++ 0x7D :: r)))))) := by simp
    rw [htext] at hn ⊢
    obtain ⟨hkey, hfree⟩ := key_eq hu hk hu' hn
    rw [GoodNumbers, numbersFrom_ws hw] at hfree
    obtain ⟨hv, hahead⟩ := jvalue_eq h hw (numberEnds_append hw' rfl _) hfree
    obtain ⟨hrest, hr⟩ := jmembers_eq hs (Nat.le_of_succ_le_succ hlen)
      ((hahead.ws hw').tail (by decide) rfl)
    refine ⟨?_, hr⟩
    rw [hkey, hv]
    simp only [jskipWs_append hw' (c := 0x2C) rfl, List.head?_cons, if_true, List.drop_one,
      List.tail_cons, hrest]

end

end Complete

/-! ## The reader -/

section Reader

variable {strtod : Bytes → Double}

/-- Every text of RFC 8259 stands for a value of the reader, and no other text does. -/
lemma exists_isJvText_iff {t : Bytes} :
    (∃ d v, IsJvText strtod d t v) ↔
      ∃ w t' w' v', Json.IsWs w ∧ Json.IsWs w' ∧ Json.IsValue t' v' ∧ t = w ++ (t' ++ w') := by
  constructor
  · rintro ⟨d, v, w, t', w', hw, hw', h, heq⟩
    obtain ⟨v', h⟩ := h.isValue
    exact ⟨w, t', w', v', hw, hw', h, heq⟩
  · rintro ⟨w, t', w', v', hw, hw', h, heq⟩
    obtain ⟨d, v, h⟩ := @isJv_of_isValue strtod _ _ h
    exact ⟨d, v, w, t', w', hw, hw', h, heq⟩

/-- Only white space is in front of the end. -/
lemma jskipWs_eq_nil {t : Bytes} : jskipWs t = [] ↔ Json.IsWs t := by
  rw [jskipWs, List.dropWhile_eq_nil_iff]
  rfl

lemma jsonRead_sound {t : Bytes} {v : Jv} (hn : GoodNumbers .free t)
    (h : jsonRead strtod t = .ok v) : IsJvText strtod jsonMaxDepth t v := by
  rw [jsonRead] at h
  cases hv : jvalue strtod jsonMaxDepth t with
  | error f =>
    rw [hv] at h
    cases h
  | ok p =>
    obtain ⟨v', r⟩ := p
    rw [hv] at h
    dsimp only at h
    obtain ⟨w, t', hw, rfl, hj, -⟩ := jvalue_sound jsonMaxDepth t v' r hv hn
    split_ifs at h with hend
    obtain rfl := Except.ok.inj h
    exact ⟨w, t', r, hw, jskipWs_eq_nil.mp hend, hj, rfl⟩

lemma jsonRead_complete {t : Bytes} {v : Jv} (hn : GoodNumbers .free t)
    (h : IsJvText strtod jsonMaxDepth t v) : jsonRead strtod t = .ok v := by
  obtain ⟨w, t', w', hw, hw', hj, rfl⟩ := h
  rw [GoodNumbers, numbersFrom_ws hw] at hn
  have hends : NumberEnds w' := fun c hc => (isNumByte_ws (hw' c (List.mem_of_mem_head? hc))).2
  rw [jsonRead, (jvalue_eq hj hw hends hn).1]
  exact if_pos (jskipWs_eq_nil.mpr hw')

/-- `json_read` on a text whose number tokens are numbers of RFC 8259, none longer than its buffer:
it succeeds if and only if the text is a value, nested at most so deep, with white space around it,
and gives that value.  The texts of such values are those of RFC 8259. -/
theorem jsonRead_ok_iff (t : Bytes) (hn : ∀ tok ∈ numberTokens t, GoodNumber tok) :
    (∀ v, jsonRead strtod t = .ok v ↔ IsJvText strtod jsonMaxDepth t v) ∧
      ((∃ d v, IsJvText strtod d t v) ↔
        ∃ w t' w' v', Json.IsWs w ∧ Json.IsWs w' ∧ Json.IsValue t' v' ∧ t = w ++ (t' ++ w')) :=
  ⟨fun _ => ⟨jsonRead_sound hn, jsonRead_complete hn⟩, exists_isJvText_iff⟩

/-- An array of numbers is read. -/
theorem jsonRead_numbers :
    (∀ v, jsonRead (fun _ => ⟨0⟩) (ascii "[1, -20]") = .ok v ↔
      IsJvText (fun _ => ⟨0⟩) jsonMaxDepth (ascii "[1, -20]") v) ∧
      ((∃ d v, IsJvText (fun _ => ⟨0⟩) d (ascii "[1, -20]") v) ↔
        ∃ w t' w' v', Json.IsWs w ∧ Json.IsWs w' ∧ Json.IsValue t' v' ∧
          ascii "[1, -20]" = w ++ (t' ++ w')) := by
  refine jsonRead_ok_iff _ ?_
  have htokens : numberTokens (ascii "[1, -20]") = [ascii "1", ascii "-20"] := by decide
  rw [htokens]
  intro tok htok
  rcases List.mem_cons.mp htok with rfl | htok
  · exact ⟨by decide, false, _, [0x31], [], [], [], 0,
      ⟨by decide +kernel, by decide, by decide⟩, .absent, .absent, rfl, rfl⟩
  · obtain rfl := List.mem_singleton.mp htok
    exact ⟨by decide, true, _, [0x32, 0x30], [], [], [], 0,
      ⟨by decide +kernel, by decide, by decide⟩, .absent, .absent, rfl, rfl⟩

/-- `char` of RFC 8259, an escaped surrogate with or without its other half. -/
inductive IsCharText : Bytes → Prop
  /-- Itself. -/
  | unescaped {c : UInt8} (hctl : 0x20 ≤ c) (hquote : c ≠ 0x22) (hslash : c ≠ 0x5C) :
      IsCharText [c]
  /-- A two-character escape. -/
  | short {e c : UInt8} (h : Json.shortEscape e = some c) : IsCharText [0x5C, e]
  /-- Four hexadecimal digits. -/
  | unicode {a b c d : UInt8} {cp : ℕ} (h : Json.hex4 [a, b, c, d] = some cp) :
      IsCharText [0x5C, 0x75, a, b, c, d]

/-- `string` of RFC 8259. -/
def IsStringText (t : Bytes) : Prop :=
  ∃ cs : List Bytes, (∀ c ∈ cs, IsCharText c) ∧ t = 0x22 :: cs.flatten ++ [0x22]

/-- A string with a lone surrogate is not read, though RFC 8259 has it; `01` and `1.2.3` are read,
though RFC 8259 has neither. -/
theorem jsonRead_differs :
    (IsStringText (ascii "\"\\ud800\"") ∧
        ∀ v, jsonRead (fun _ => ⟨0⟩) (ascii "\"\\ud800\"") ≠ .ok v) ∧
      ∀ t ∈ [ascii "01", ascii "1.2.3"],
        (∀ v, ¬ Json.IsText t v) ∧ ∃ v, jsonRead (fun _ => ⟨0⟩) t = .ok v := by
  refine ⟨⟨⟨[ascii "\\ud800"], ?_, by decide⟩, fun v hv => ?_⟩, fun t ht => ⟨fun v hv => ?_, ?_⟩⟩
  · intro c hc
    obtain rfl := List.mem_singleton.mp hc
    have hhex : Json.hex4 [0x64, 0x38, 0x30, 0x30] = some 0xD800 := by decide
    exact .unicode hhex
  · have hfail : (jsonRead (fun _ => ⟨0⟩) (ascii "\"\\ud800\"")).toBool = false := by
      decide +kernel
    rw [hv] at hfail
    cases hfail
  · have hnone : ∀ t ∈ [ascii "01", ascii "1.2.3"], (Json.read t).isNone = true := by
      decide +kernel
    have hnone := hnone t ht
    rw [Json.read_eq hv] at hnone
    cases hnone
  · have hok : ∀ t ∈ [ascii "01", ascii "1.2.3"], (jsonRead (fun _ => ⟨0⟩) t).toBool = true := by
      decide +kernel
    have hok := hok t ht
    cases hread : jsonRead (fun _ => ⟨0⟩) t with
    | error f =>
      rw [hread] at hok
      cases hok
    | ok v => exact ⟨v, rfl⟩

end Reader

end Teptris
