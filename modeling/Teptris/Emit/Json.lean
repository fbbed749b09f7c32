import Teptris.Dom.Tree
import Teptris.Emit.Decimal
import Teptris.Emit.Digits
import Teptris.Parse.Encoding

/-!
# JSON output

`emitter.c`: the typed and the natural JSON of a document.  Both are JSON texts, and the value
of each is the document: containers in order, keys and strings exactly, and every scalar as its
mapping says.
-/

namespace Teptris

/-! ## The emitters -/

/-- One byte of `json_string`. -/
def jsonStringByte (c : UInt8) : Bytes :=
  if c = Ch.dquote then [Ch.bslash, Ch.dquote]
  else if c = Ch.bslash then [Ch.bslash, Ch.bslash]
  else if c = Ch.bs then [Ch.bslash, 0x62]
  else if c = Ch.tab then [Ch.bslash, 0x74]
  else if c = Ch.lf then [Ch.bslash, 0x6E]
  else if c = Ch.ff then [Ch.bslash, 0x66]
  else if c = Ch.cr then [Ch.bslash, 0x72]
  else if c < 0x20 then unicodeText c
  else [c]

/-- `json_string`. -/
def jsonString (s : Bytes) : Bytes := Ch.dquote :: s.flatMap jsonStringByte ++ [Ch.dquote]

/-- The datetime cases of `json_type_name`: `datetime`, `datetime-local`, `date-local` and
`time-local`. -/
def datetimeTypeName : DtKind → Bytes
  | .datetimeOffset => [0x64, 0x61, 0x74, 0x65, 0x74, 0x69, 0x6D, 0x65]
  | .datetimeLocal =>
    [0x64, 0x61, 0x74, 0x65, 0x74, 0x69, 0x6D, 0x65, Ch.minus, 0x6C, 0x6F, 0x63, 0x61, 0x6C]
  | .dateLocal => [0x64, 0x61, 0x74, 0x65, Ch.minus, 0x6C, 0x6F, 0x63, 0x61, 0x6C]
  | .timeLocal => [0x74, 0x69, 0x6D, 0x65, Ch.minus, 0x6C, 0x6F, 0x63, 0x61, 0x6C]

/-- The type names the typed output writes: `string`, `integer`, `float` and `bool`, and those of
`json_type_name`. -/
def jsonTypeName : Node → Bytes
  | .string _ => [0x73, 0x74, 0x72, 0x69, 0x6E, 0x67]
  | .integer _ => [0x69, 0x6E, 0x74, 0x65, 0x67, 0x65, 0x72]
  | .float _ => [0x66, 0x6C, 0x6F, 0x61, 0x74]
  | .boolean _ => [0x62, 0x6F, 0x6F, 0x6C]
  | .datetime kind _ => datetimeTypeName kind
  | _ => []

/-- `type`. -/
abbrev wType : Bytes := [0x74, 0x79, 0x70, 0x65]

/-- `value`. -/
abbrev wValue : Bytes := [0x76, 0x61, 0x6C, 0x75, 0x65]

/-- Text between quotes, as it is. -/
def quoted (s : Bytes) : Bytes := Ch.dquote :: s ++ [Ch.dquote]

/-- `{"type":"..","value":..}`, of a type name and the JSON of the value. -/
def typedText (name value : Bytes) : Bytes :=
  Ch.lbrace :: (quoted wType ++ Ch.colon :: (quoted name ++ Ch.comma ::
    (quoted wValue ++ Ch.colon :: value))) ++ [Ch.rbrace]

/-- The scalars of `emit_json_value`. -/
def jsonScalar (fc : FloatConv) (n : Node) : Bytes :=
  match n with
  | .string s => typedText (jsonTypeName n) (jsonString s)
  | .integer i => typedText (jsonTypeName n) (quoted (emitI64 i))
  | .float f => typedText (jsonTypeName n) (quoted (emitFloat fc f))
  | .boolean b => typedText (jsonTypeName n) (quoted (boolText b))
  | .datetime kind dt => typedText (jsonTypeName n) (quoted (emitDt kind dt))
  | _ => []

/-- The scalars of `emit_json_nat_value`. -/
def jsonNatScalar (fc : FloatConv) : Node → Bytes
  | .string s => jsonString s
  | .integer i => emitI64 i
  | .float f => if f.isNan || f.isInf then [0x6E, 0x75, 0x6C, 0x6C] else emitFloat fc f
  | .boolean b => boolText b
  | .datetime kind dt => quoted (emitDt kind dt)
  | _ => []

section Containers

variable (scalar : Node → Bytes)

mutual

/-- The containers of both emitters, over the text of the scalars. -/
def jsonTree : Node → Bytes
  | .string s => scalar (.string s)
  | .integer i => scalar (.integer i)
  | .float f => scalar (.float f)
  | .boolean b => scalar (.boolean b)
  | .datetime kind dt => scalar (.datetime kind dt)
  | .array _ items => Ch.lbrack :: jsonItems items ++ [Ch.rbrack]
  | .table _ es => Ch.lbrace :: jsonMembers es ++ [Ch.rbrace]

/-- The elements of an array, separated. -/
def jsonItems : List Node → Bytes
  | [] => []
  | v :: vs => jsonTree v ++ jsonMoreItems vs

/-- The elements behind the first one. -/
def jsonMoreItems : List Node → Bytes
  | [] => []
  | v :: vs => Ch.comma :: (jsonTree v ++ jsonMoreItems vs)

/-- The members of an object, separated. -/
def jsonMembers : List (Key × Node) → Bytes
  | [] => []
  | (k, v) :: es => jsonString k.bytes ++ Ch.colon :: jsonTree v ++ jsonMoreMembers es

/-- The members behind the first one. -/
def jsonMoreMembers : List (Key × Node) → Bytes
  | [] => []
  | (k, v) :: es =>
    Ch.comma :: (jsonString k.bytes ++ Ch.colon :: jsonTree v ++ jsonMoreMembers es)

end

end Containers

/-- `emit_json_value`. -/
def emitJsonValue (fc : FloatConv) (n : Node) : Bytes := jsonTree (jsonScalar fc) n

/-- `emit_json_nat_value`. -/
def emitJsonNatValue (fc : FloatConv) (n : Node) : Bytes := jsonTree (jsonNatScalar fc) n

/-! ## What the output says -/

/-- A JSON number says an integer. -/
def IntegerIs (neg : Bool) (mag : ℚ) (i : Int64) : Prop :=
  (if neg then -mag else mag) = (i.toInt : ℚ)

/-- The documented mapping of natural JSON: `nan` and `inf` to `null`, datetimes to text that
reads as them. -/
inductive NaturalScalar : Node → Json.Value → Prop
  /-- The same string. -/
  | string (s : Bytes) : NaturalScalar (.string s) (.string s)
  /-- The same integer. -/
  | integer {i : Int64} {neg : Bool} {mag : ℚ} (h : IntegerIs neg mag i) :
      NaturalScalar (.integer i) (.number neg mag)
  /-- A number with the sign of the float that rounds to it. -/
  | float {f : Double} {mag : ℚ} (h : f.IsNearest mag) :
      NaturalScalar (.float f) (.number f.signBit mag)
  /-- No number. -/
  | nonFinite {f : Double} (h : f.isFinite = false) : NaturalScalar (.float f) .null
  /-- The same boolean. -/
  | boolean (b : Bool) : NaturalScalar (.boolean b) (.bool b)
  /-- The text of the datetime. -/
  | datetime {kind : DtKind} {dt : Datetime} {t : Bytes}
      (h : parseDatetime t = .ok (.datetime kind dt, [])) :
      NaturalScalar (.datetime kind dt) (.string t)

/-- The text of a scalar in typed JSON. -/
inductive ScalarText : Node → Bytes → Prop
  /-- The string itself. -/
  | string (s : Bytes) : ScalarText (.string s) s
  /-- A number that is the integer. -/
  | integer {i : Int64} {t : Bytes} {neg : Bool} {mag : ℚ} (ht : Json.IsNumber t neg mag)
      (h : IntegerIs neg mag i) : ScalarText (.integer i) t
  /-- A number with the sign of the float that rounds to it. -/
  | float {f : Double} {t : Bytes} {mag : ℚ} (ht : Json.IsNumber t f.signBit mag)
      (h : f.IsNearest mag) : ScalarText (.float f) t
  /-- `nan`. -/
  | nan {f : Double} (h : f.isNan = true) : ScalarText (.float f) wNan
  /-- `inf` or `-inf`. -/
  | inf {f : Double} (h : f.isInf = true) :
      ScalarText (.float f) ((if f.signBit then [Ch.minus] else []) ++ wInf)
  /-- `true` or `false`. -/
  | boolean (b : Bool) : ScalarText (.boolean b) (if b then wTrue else wFalse)
  /-- Text that reads as the datetime. -/
  | datetime {kind : DtKind} {dt : Datetime} {t : Bytes}
      (h : parseDatetime t = .ok (.datetime kind dt, [])) : ScalarText (.datetime kind dt) t

/-- The wrapping of typed JSON: the type name and the text. -/
inductive TypedScalar : Node → Json.Value → Prop
  /-- `{"type":..,"value":..}`. -/
  | wrapped {n : Node} {t : Bytes} (h : ScalarText n t) :
      TypedScalar n (.object [(wType, .string (jsonTypeName n)), (wValue, .string t)])

section Says

variable (scalar : Node → Json.Value → Prop)

mutual

/-- A JSON value says a document: containers in order, and the scalars as given. -/
def Says : Node → Json.Value → Prop
  | .string s, w => scalar (.string s) w
  | .integer i, w => scalar (.integer i) w
  | .float f, w => scalar (.float f) w
  | .boolean b, w => scalar (.boolean b) w
  | .datetime kind dt, w => scalar (.datetime kind dt) w
  | .array _ items, w => ∃ ws, w = .array ws ∧ SaysItems items ws
  | .table _ es, w => ∃ ms, w = .object ms ∧ SaysMembers es ms

/-- Every element, in order. -/
def SaysItems : List Node → List Json.Value → Prop
  | [], ws => ws = []
  | v :: vs, ws => ∃ w ws', ws = w :: ws' ∧ Says v w ∧ SaysItems vs ws'

/-- Every entry, in order and under its key. -/
def SaysMembers : List (Key × Node) → List (Bytes × Json.Value) → Prop
  | [], ms => ms = []
  | (k, v) :: es, ms => ∃ w ms', ms = (k.bytes, w) :: ms' ∧ Says v w ∧ SaysMembers es ms'

end

end Says

/-! ## Strings -/

/-- An escaped control byte. -/
lemma hex4_control : ∀ c : UInt8, c < 0x20 →
    Json.hex4 [0x30, 0x30, hexChar (c.toNat / 16), hexChar (c.toNat % 16)] = some c.toNat ∧
      Json.encode c.toNat = [c] := by
  decide +kernel

/-- Every byte is written as a character that stands for it. -/
lemma isChar_jsonStringByte (c : UInt8) : Json.IsChar (jsonStringByte c) [c] := by
  rw [jsonStringByte]
  split_ifs with h1 h2 h3 h4 h5 h6 h7 h8
  · subst h1
    exact .short (by decide)
  · subst h2
    exact .short (by decide)
  · subst h3
    exact .short (by decide)
  · subst h4
    exact .short (by decide)
  · subst h5
    exact .short (by decide)
  · subst h6
    exact .short (by decide)
  · subst h7
    exact .short (by decide)
  · obtain ⟨hhex, hencode⟩ := hex4_control c h8
    have hsmall : c.toNat < 0xD800 := by
      have := c.toNat_lt
      omega
    have h := Json.IsChar.unicode hhex (.inl hsmall)
    rwa [hencode] at h
  · exact .unescaped (UInt8.not_lt.mp h8) h1 h2

lemma isChars_jsonStringBytes (s : Bytes) : Json.IsChars (s.flatMap jsonStringByte) s := by
  induction s with
  | nil => exact .nil
  | cons c cs ih => exact .cons (isChar_jsonStringByte c) ih

/-- `json_string` writes the string. -/
lemma isValue_jsonString (s : Bytes) : Json.IsValue (jsonString s) (.string s) :=
  .string (isChars_jsonStringBytes s)

/-- Bytes below `0x80` are written in bytes below `0x80`. -/
lemma jsonStringByte_ascii : ∀ c : UInt8, c < 0x80 → ∀ d ∈ jsonStringByte c, d < 0x80 :=
  Utf8.ascii_of_all (by decide +kernel)

/-- The other bytes are written as they are. -/
lemma jsonStringByte_multi : ∀ c : UInt8, ¬ c < 0x80 → jsonStringByte c = [c] := by
  decide +kernel

/-- `json_string` keeps text well formed. -/
lemma valid_jsonString {s : Bytes} (h : Utf8.Valid s) : Utf8.Valid (jsonString s) := by
  have hquote : Utf8.Valid [Ch.dquote] := .ascii (by decide) .nil
  have hbody := h.flatMap jsonStringByte_ascii jsonStringByte_multi
  exact .ascii (by decide) (hbody.append hquote)

/-! ## Scalars -/

/-- A JSON text of a node under a mapping of scalars. -/
def Renders (scalar : Node → Json.Value → Prop) (n : Node) (t : Bytes) : Prop :=
  Utf8.Valid t ∧ ∃ w, Json.IsValue t w ∧ Says scalar n w

/-- Text that stands for itself in a string, as a value. -/
lemma quoted_plain {t : Bytes} (h : ∀ c ∈ t, Json.isPlain c = true) :
    Utf8.Valid (quoted t) ∧ Json.IsValue (quoted t) (.string t) := by
  refine ⟨Utf8.valid_of_ascii ?_, .string (Json.isChars_of_plain h)⟩
  intro c hc
  simp only [quoted, List.mem_cons, List.mem_append, List.not_mem_nil, or_false] at hc
  rcases hc with (rfl | hc) | rfl
  · decide
  · have := h c hc
    simp only [Json.isPlain, Bool.and_eq_true, decide_eq_true_eq] at this
    exact this.2
  · decide

lemma isPlain_of_wordByte : ∀ c : UInt8, Json.isWordByte c = true → Json.isPlain c = true := by
  decide +kernel

lemma isPlain_of_dec : ∀ c : UInt8, isDec c = true → Json.isPlain c = true := by
  decide +kernel

/-- A number is plain. -/
lemma isPlain_number {t : Bytes} {neg : Bool} {mag : ℚ} (h : Json.IsNumber t neg mag) :
    ∀ c ∈ t, Json.isPlain c = true :=
  fun c hc => isPlain_of_wordByte c (h.word.1 c hc)

lemma valid_of_plain {t : Bytes} (h : ∀ c ∈ t, Json.isPlain c = true) : Utf8.Valid t := by
  refine Utf8.valid_of_ascii fun c hc => ?_
  have := h c hc
  simp only [Json.isPlain, Bool.and_eq_true, decide_eq_true_eq] at this
  exact this.2

lemma isPlain_putDigits2 {v : ℕ} (h : v < 100) : ∀ c ∈ putDigits2 v, Json.isPlain c = true := by
  intro c hc
  simp only [putDigits2, List.mem_cons, List.not_mem_nil, or_false] at hc
  rcases hc with rfl | rfl
  · exact isPlain_of_dec _ (isDec_digitChar (by omega))
  · exact isPlain_of_dec _ (isDec_digitChar (Nat.mod_lt _ (by decide)))

/-- The text of a date is plain. -/
lemma isPlain_dateText {dt : Datetime} {y : ℕ} (h : dt.DateOk y) :
    ∀ c ∈ dateText dt, Json.isPlain c = true := by
  have hyear := year_toNat h
  have hy := h.year.2
  have hm := h.month
  have hd := h.day
  have hdim := daysInMonth_le y dt.month.toNat
  have h1 : dt.year.toUInt32.toNat / 100 < 100 := by omega
  have h2 : dt.year.toUInt32.toNat % 100 < 100 := Nat.mod_lt _ (by decide)
  have h3 : dt.month.toNat < 100 := by omega
  have h4 : dt.day.toNat < 100 := by omega
  intro c hc
  simp only [dateText, putDigits4, List.mem_append, List.mem_singleton] at hc
  rcases hc with ((((hc | hc) | rfl) | hc) | rfl) | hc
  · exact isPlain_putDigits2 h1 c hc
  · exact isPlain_putDigits2 h2 c hc
  · decide
  · exact isPlain_putDigits2 h3 c hc
  · decide
  · exact isPlain_putDigits2 h4 c hc

/-- The text of a clock is plain. -/
lemma isPlain_clockText {dt : Datetime} (h : dt.TimeOk) :
    ∀ c ∈ clockText dt, Json.isPlain c = true := by
  have h1 : dt.hour.toNat < 100 := by have := h.hour; omega
  have h2 : dt.minute.toNat < 100 := by have := h.minute; omega
  have h3 : dt.second.toNat < 100 := by have := h.second; omega
  intro c hc
  rw [clockText_eq] at hc
  simp only [hmsText, List.mem_append, List.mem_singleton] at hc
  rcases hc with ((((hc | rfl) | hc) | rfl) | hc) | hc
  · exact isPlain_putDigits2 h1 c hc
  · decide
  · exact isPlain_putDigits2 h2 c hc
  · decide
  · exact isPlain_putDigits2 h3 c hc
  · split_ifs at hc with hne
    · rcases List.mem_cons.mp hc with rfl | hc
      · decide
      · exact isPlain_of_dec c ((nanosText_spec h.nanosecond hne).2.2 c hc)
    · simp at hc

/-- The text of an offset is plain. -/
lemma isPlain_offsetText {dt : Datetime} (h : dt.OffsetOk) :
    ∀ c ∈ offsetText dt, Json.isPlain c = true := by
  have habs := offset_natAbs h
  have h1 : dt.offsetSeconds.toInt.natAbs / 3600 < 100 := by omega
  have h2 : dt.offsetSeconds.toInt.natAbs % 3600 / 60 < 100 := by omega
  intro c hc
  rw [offsetText] at hc
  split_ifs at hc
  · obtain rfl := List.mem_singleton.mp hc
    decide
  all_goals
    simp only [List.mem_append, List.mem_singleton] at hc
    rcases hc with ((rfl | hc) | rfl) | hc
    · decide
    · exact isPlain_putDigits2 h1 c hc
    · decide
    · exact isPlain_putDigits2 h2 c hc

/-- The text of a datetime in range is plain. -/
lemma isPlain_emitDt {kind : DtKind} {dt : Datetime} (h : dt.Ok kind) :
    ∀ c ∈ emitDt kind dt, Json.isPlain c = true := by
  intro c hc
  cases kind with
  | datetimeOffset =>
    obtain ⟨⟨y, hd⟩, ht, ho⟩ := h
    simp only [emitDt, List.mem_append, List.mem_singleton] at hc
    rcases hc with ((hc | rfl) | hc) | hc
    · exact isPlain_dateText hd c hc
    · decide
    · exact isPlain_clockText ht c hc
    · exact isPlain_offsetText ho c hc
  | datetimeLocal =>
    obtain ⟨⟨y, hd⟩, ht, -⟩ := h
    simp only [emitDt, List.mem_append, List.mem_singleton] at hc
    rcases hc with (hc | rfl) | hc
    · exact isPlain_dateText hd c hc
    · decide
    · exact isPlain_clockText ht c hc
  | dateLocal =>
    obtain ⟨⟨y, hd⟩, -⟩ := h
    exact isPlain_dateText hd c hc
  | timeLocal => exact isPlain_clockText h.2.1 c hc

/-- `parse_datetime` reads the text of a datetime in range. -/
lemma parseDatetime_text {kind : DtKind} {dt : Datetime} (h : dt.Ok kind) :
    parseDatetime (emitDt kind dt) = .ok (.datetime kind dt, []) := by
  have hread := (parseDatetime_emitDt h ends_nil).1
  rwa [List.append_nil] at hread

/-- The integer of the text of `emit_i64`. -/
lemma integerIs_emitI64 (i : Int64) : IntegerIs (decide (i < 0)) i.toInt.natAbs i := by
  have hzero : (0 : Int64).toInt = 0 := rfl
  have hlt : i < 0 ↔ i.toInt < 0 := by rw [Int64.lt_iff_toInt_lt, hzero]
  have hcast : ((i.toInt.natAbs : ℕ) : ℚ) = ((i.toInt.natAbs : ℤ) : ℚ) :=
    (Int.cast_natCast _).symm
  rw [IntegerIs, hcast]
  by_cases hi : i.toInt < 0
  · have habs : (i.toInt.natAbs : ℤ) = -i.toInt := by omega
    simp [hlt, hi, habs]
  · have habs : (i.toInt.natAbs : ℤ) = i.toInt := by omega
    simp [hlt, hi, habs]

/-- Neither an array nor a table. -/
def Node.IsScalar : Node → Prop
  | .array .. => False
  | .table .. => False
  | _ => True

/-- What the emitters are given: scalars in range, and floats that `ryu` writes. -/
def Writable (fc : FloatConv) (n : Node) : Prop :=
  n.ScalarOk ∧ ∀ f, n = .float f → f.isFinite = true → fc.Writes f

/-- The special values in typed JSON. -/
lemma scalarText_nonFinite {fc : FloatConv} {f : Double} (h : f.isFinite = false) :
    ScalarText (.float f) (emitFloat fc f) := by
  by_cases hnan : f.isNan = true
  · rw [emitFloat, if_pos hnan]
    exact .nan hnan
  · have hinf : f.isInf = true := by
      simp only [Bool.not_eq_true] at hnan
      simpa [Double.isFinite, hnan] using h
    rw [emitFloat, if_neg hnan, if_pos hinf]
    have htext := ScalarText.inf hinf
    cases hsign : f.signBit <;> simpa [hsign] using htext

/-- The text of a special value is plain. -/
lemma isPlain_nonFinite {fc : FloatConv} {f : Double} (h : f.isFinite = false) :
    ∀ c ∈ emitFloat fc f, Json.isPlain c = true := by
  rw [emitFloat]
  split_ifs with hnan hinf
  · exact List.all_eq_true.mp (by decide)
  · exact List.all_eq_true.mp (by decide)
  · exact List.all_eq_true.mp (by decide)
  · simp [Double.isFinite, hnan, hinf] at h

/-- A wrapped scalar, of the JSON string of its text. -/
lemma isValue_typedText {name t value : Bytes} (hname : ∀ c ∈ name, Json.isPlain c = true)
    (hvalid : Utf8.Valid value) (h : Json.IsValue value (.string t)) :
    Utf8.Valid (typedText name value) ∧ Json.IsValue (typedText name value)
      (.object [(wType, .string name), (wValue, .string t)]) := by
  have hkey : Json.IsChars wType wType := Json.isChars_of_plain (List.all_eq_true.mp (by decide))
  have hkey' : Json.IsChars wValue wValue := Json.isChars_of_plain (List.all_eq_true.mp (by decide))
  have hmembers := Json.IsMembers.more hkey (quoted_plain hname).2 (.single hkey' h)
  refine ⟨?_, by simpa [typedText, quoted] using Json.IsValue.object hmembers⟩
  have hcolon : Utf8.Valid (Ch.lbrace :: (quoted wType ++ [Ch.colon])) :=
    Utf8.valid_of_all (by decide)
  have hcomma : Utf8.Valid (Ch.comma :: (quoted wValue ++ [Ch.colon])) :=
    Utf8.valid_of_all (by decide)
  have hbrace : Utf8.Valid [Ch.rbrace] := Utf8.valid_of_all (by decide)
  have hall := hcolon.append ((quoted_plain hname).1.append (hcomma.append (hvalid.append hbrace)))
  simpa [typedText] using hall

lemma isPlain_jsonTypeName (n : Node) : ∀ c ∈ jsonTypeName n, Json.isPlain c = true := by
  cases n with
  | datetime kind =>
    simp only [jsonTypeName]
    cases kind <;> exact List.all_eq_true.mp (by decide)
  | _ =>
    simp only [jsonTypeName]
    exact List.all_eq_true.mp (by decide)

/-- A wrapped scalar whose text is plain. -/
lemma renders_typed {n : Node} {t : Bytes} (hplain : ∀ c ∈ t, Json.isPlain c = true)
    (h : ScalarText n t) :
    Utf8.Valid (typedText (jsonTypeName n) (quoted t)) ∧
      ∃ w, Json.IsValue (typedText (jsonTypeName n) (quoted t)) w ∧ TypedScalar n w := by
  obtain ⟨hvalid, hvalue⟩ := quoted_plain hplain
  obtain ⟨hvalid, hvalue⟩ := isValue_typedText (isPlain_jsonTypeName n) hvalid hvalue
  exact ⟨hvalid, _, hvalue, .wrapped h⟩

/-- A scalar of `emit_json_value`. -/
lemma jsonScalar_renders {fc : FloatConv} {n : Node} (h : Writable fc n) (hn : n.IsScalar) :
    Utf8.Valid (jsonScalar fc n) ∧ ∃ w, Json.IsValue (jsonScalar fc n) w ∧ TypedScalar n w := by
  cases n with
  | string s =>
    obtain ⟨hvalid, hvalue⟩ := isValue_typedText (isPlain_jsonTypeName (.string s))
      (valid_jsonString h.1) (isValue_jsonString s)
    exact ⟨hvalid, _, hvalue, .wrapped (.string s)⟩
  | integer i =>
    have hnum := isNumber_emitI64 i
    exact renders_typed (isPlain_number hnum) (.integer hnum (integerIs_emitI64 i))
  | float f =>
    cases hf : f.isFinite with
    | false => exact renders_typed (isPlain_nonFinite hf) (scalarText_nonFinite hf)
    | true =>
      obtain ⟨mag, hnum, hnear⟩ := isNumber_emitFloat hf (h.2 f rfl hf)
      exact renders_typed (isPlain_number hnum) (.float hnum hnear)
  | boolean b =>
    have hplain : ∀ c ∈ boolText b, Json.isPlain c = true := by
      cases b <;> exact List.all_eq_true.mp (by decide)
    have htext : ScalarText (.boolean b) (boolText b) := .boolean b
    exact renders_typed hplain htext
  | datetime kind dt =>
    exact renders_typed (isPlain_emitDt h.1) (.datetime (parseDatetime_text h.1))
  | array | table => exact absurd hn id

/-- A scalar of `emit_json_nat_value`. -/
lemma jsonNatScalar_renders {fc : FloatConv} {n : Node} (h : Writable fc n) (hn : n.IsScalar) :
    Utf8.Valid (jsonNatScalar fc n) ∧
      ∃ w, Json.IsValue (jsonNatScalar fc n) w ∧ NaturalScalar n w := by
  cases n with
  | string s => exact ⟨valid_jsonString h.1, _, isValue_jsonString s, .string s⟩
  | integer i =>
    have hnum := isNumber_emitI64 i
    exact ⟨valid_of_plain (isPlain_number hnum), _, .number hnum, .integer (integerIs_emitI64 i)⟩
  | float f =>
    cases hf : f.isFinite with
    | false =>
      have hspecial : (f.isNan || f.isInf) = true := by
        cases hnan : f.isNan <;> cases hinf : f.isInf <;> simp [Double.isFinite, hnan, hinf] at hf ⊢
      rw [jsonNatScalar, if_pos hspecial]
      exact ⟨Utf8.valid_of_all (by decide), _, .null, .nonFinite hf⟩
    | true =>
      have hspecial : ¬ (f.isNan || f.isInf) = true := by
        cases hnan : f.isNan <;> cases hinf : f.isInf <;> simp [Double.isFinite, hnan, hinf] at hf ⊢
      obtain ⟨mag, hnum, hnear⟩ := isNumber_emitFloat hf (h.2 f rfl hf)
      rw [jsonNatScalar, if_neg hspecial]
      exact ⟨valid_of_plain (isPlain_number hnum), _, .number hnum, .float hnear⟩
  | boolean b =>
    have hplain : ∀ c ∈ boolText b, Json.isPlain c = true := by
      cases b <;> exact List.all_eq_true.mp (by decide)
    exact ⟨valid_of_plain hplain, _, .bool b, .boolean b⟩
  | datetime kind dt =>
    obtain ⟨hvalid, hvalue⟩ := quoted_plain (isPlain_emitDt h.1)
    exact ⟨hvalid, _, hvalue, .datetime (parseDatetime_text h.1)⟩
  | array | table => exact absurd hn id

/-! ## Containers -/

section Tree

variable {scalar : Node → Bytes} {means : Node → Json.Value → Prop}
  {key : Bytes → Prop} {ok : Node → Prop}

/-- Keys and values around a comma or a colon. -/
lemma valid_separated {a b : Bytes} {c : UInt8} (hc : c < 0x80) (ha : Utf8.Valid a)
    (hb : Utf8.Valid b) : Utf8.Valid (a ++ c :: b) :=
  (Utf8.valid_append_cons_iff hc).mpr ⟨ha, hb⟩

/-- Text between brackets. -/
lemma valid_bracketed {a : Bytes} {c d : UInt8} (hc : c < 0x80) (hd : d < 0x80)
    (ha : Utf8.Valid a) : Utf8.Valid (c :: a ++ [d]) :=
  .ascii hc (valid_separated hd ha .nil)

/-- The scalars that are given render. -/
def ScalarsRender (scalar : Node → Bytes) (means : Node → Json.Value → Prop)
    (key : Bytes → Prop) (ok : Node → Prop) : Prop :=
  (∀ k, key k → Utf8.Valid k) ∧ ∀ n, ok n → n.IsScalar →
    Utf8.Valid (scalar n) ∧ ∃ w, Json.IsValue (scalar n) w ∧ means n w

mutual

/-- A node renders when its scalars do. -/
lemma jsonTree_renders (hr : ScalarsRender scalar means key ok) (n : Node) (h : n.All key ok) :
    Renders means n (jsonTree scalar n) := by
  cases n with
  | string s => exact hr.2 _ h trivial
  | integer i => exact hr.2 _ h trivial
  | float f => exact hr.2 _ h trivial
  | boolean b => exact hr.2 _ h trivial
  | datetime kind dt => exact hr.2 _ h trivial
  | array aot items =>
    rw [jsonTree]
    rcases eq_or_ne items [] with rfl | hne
    · rw [jsonItems]
      exact ⟨Utf8.valid_of_all (by decide), _, .emptyArray Json.isWs_nil, [], rfl, rfl⟩
    · obtain ⟨hvalid, ws, hws, hsays⟩ := jsonItems_renders hr items h hne
      exact ⟨valid_bracketed (by decide) (by decide) hvalid, _, .array hws, ws, rfl, hsays⟩
  | table flag es =>
    rw [jsonTree]
    rcases eq_or_ne es [] with rfl | hne
    · rw [jsonMembers]
      exact ⟨Utf8.valid_of_all (by decide), _, .emptyObject Json.isWs_nil, [], rfl, rfl⟩
    · obtain ⟨hvalid, ms, hms, hsays⟩ := jsonMembers_renders hr es h hne
      exact ⟨valid_bracketed (by decide) (by decide) hvalid, _, .object hms, ms, rfl, hsays⟩

/-- The elements of an array render. -/
lemma jsonItems_renders (hr : ScalarsRender scalar means key ok) (items : List Node)
    (h : itemsAll key ok items) (hne : items ≠ []) :
    Utf8.Valid (jsonItems scalar items) ∧
      ∃ ws, Json.IsItems (jsonItems scalar items) ws ∧ SaysItems means items ws := by
  obtain _ | ⟨v, vs⟩ := items
  · exact absurd rfl hne
  obtain ⟨hvalid, w, hw, hsays⟩ := jsonTree_renders hr v h.1
  rw [jsonItems]
  rcases eq_or_ne vs [] with rfl | hmore
  · rw [jsonMoreItems, List.append_nil]
    exact ⟨hvalid, [w], .single hw, w, [], rfl, hsays, rfl⟩
  · obtain ⟨hvalid', ws, hws, hrest⟩ := jsonItems_renders hr vs h.2 hmore
    have htext : jsonMoreItems scalar vs = Ch.comma :: jsonItems scalar vs := by
      cases vs with
      | nil => exact absurd rfl hmore
      | cons => rw [jsonMoreItems, jsonItems]
    rw [htext]
    exact ⟨valid_separated (by decide) hvalid hvalid', w :: ws, .more hw hws, w, ws, rfl, hsays,
      hrest⟩

/-- The members of an object render. -/
lemma jsonMembers_renders (hr : ScalarsRender scalar means key ok) (es : List (Key × Node))
    (h : entriesAll key ok es) (hne : es ≠ []) :
    Utf8.Valid (jsonMembers scalar es) ∧
      ∃ ms, Json.IsMembers (jsonMembers scalar es) ms ∧ SaysMembers means es ms := by
  obtain _ | ⟨⟨k, v⟩, es⟩ := es
  · exact absurd rfl hne
  obtain ⟨hkey, hv, hes⟩ := h
  obtain ⟨hvalid, w, hw, hsays⟩ := jsonTree_renders hr v hv
  have hfirst : Utf8.Valid (jsonString k.bytes ++ Ch.colon :: jsonTree scalar v) :=
    valid_separated (by decide) (valid_jsonString (hr.1 _ hkey)) hvalid
  have hchars := isChars_jsonStringBytes k.bytes
  rw [jsonMembers]
  rcases eq_or_ne es [] with rfl | hmore
  · rw [jsonMoreMembers, List.append_nil]
    refine ⟨hfirst, [(k.bytes, w)], ?_, w, [], rfl, hsays, rfl⟩
    simpa [jsonString] using Json.IsMembers.single hchars hw
  · obtain ⟨hvalid', ms, hms, hrest⟩ := jsonMembers_renders hr es hes hmore
    have htext : jsonMoreMembers scalar es = Ch.comma :: jsonMembers scalar es := by
      cases es with
      | nil => exact absurd rfl hmore
      | cons e es =>
        obtain ⟨k', v'⟩ := e
        rw [jsonMoreMembers, jsonMembers]
    rw [htext]
    refine ⟨valid_separated (by decide) hfirst hvalid', (k.bytes, w) :: ms, ?_, w, ms, rfl, hsays,
      hrest⟩
    simpa [jsonString] using Json.IsMembers.more hchars hw hms

end

end Tree

/-! ## Documents -/

/-- A JSON text of a document is well formed and decodes to it. -/
def Decodes (means : Node → Json.Value → Prop) (n : Node) (t : Bytes) : Prop :=
  ∃ w, Json.IsText t w ∧ Json.read t = some w ∧ Says means n w

lemma Renders.decodes {means : Node → Json.Value → Prop} {n : Node} {t : Bytes}
    (h : Renders means n t) : Decodes means n t := by
  obtain ⟨hvalid, w, hw, hsays⟩ := h
  have htext := hw.isText hvalid
  exact ⟨w, htext, Json.read_eq htext, hsays⟩

/-- The floats of a document are written by `ryu` with digits that round to them. -/
def Node.FloatsWritten (fc : FloatConv) (n : Node) : Prop :=
  n.All (fun _ => True) fun v => ∀ f, v = .float f → f.isFinite = true → fc.Writes f

/-- Both JSON outputs of a document `teptris_parse` accepts are JSON texts and decode to it. -/
theorem json_faithful {cfg : Config} {data : Bytes} {n : Node} (h : parse cfg data = .ok n)
    (hfloats : n.FloatsWritten cfg.fc) :
    Decodes NaturalScalar n (emitJsonNatValue cfg.fc n) ∧
      Decodes TypedScalar n (emitJsonValue cfg.fc n) := by
  obtain ⟨es, rfl, hes⟩ := parse_good h
  have hok : (Node.table .explicit es).All Utf8.Valid Node.ScalarOk :=
    entriesAll_iff.mpr fun e he => ⟨hes.key e he, (hes.value e he).all⟩
  have hall := Node.All.and _ hok hfloats
  constructor
  · exact (jsonTree_renders ⟨fun _ hk => hk.1, fun _ => jsonNatScalar_renders⟩ _ hall).decodes
  · exact (jsonTree_renders ⟨fun _ hk => hk.1, fun _ => jsonScalar_renders⟩ _ hall).decodes

/-- `1.5`. -/
def threeHalves : Double := ⟨0x3FF8000000000000⟩

/-- Conversions that know `1.5`. -/
def FloatConv.threeHalves : FloatConv where
  ryuS2d _ := some Teptris.threeHalves
  strtod _ := Teptris.threeHalves
  mulPow10 _ _ := Teptris.threeHalves
  divPow10 _ _ := Teptris.threeHalves
  ryuD2s _ := [0x31, Ch.dot, 0x35, 0x45, 0x30]

/-- `ryu` writes `1.5` as `1.5E0`. -/
lemma writes_threeHalves : FloatConv.threeHalves.Writes threeHalves := by
  refine ⟨0x31, [0x35], 0, rfl, ⟨List.all_eq_true.mp (by decide), by decide, by decide, by decide⟩,
    ?_⟩
  have hmag : Json.magnitude [0x31, 0x35] (0 - ([0x35] : Bytes).length) =
      threeHalves.magnitude := by
    have hexp : threeHalves.expBits ≠ 0 ∧ threeHalves.expBits.toNat = 1023 := by decide
    have hfrac : threeHalves.fracBits.toNat = 2251799813685248 := by decide
    have hdigits : Json.digitsVal [0x31, 0x35] = 15 := by decide
    rw [Double.magnitude, if_neg hexp.1, hexp.2, hfrac, Json.magnitude, hdigits]
    norm_num
  rw [hmag]
  exact Double.isNearest_magnitude (by decide)

/-- The document `a=1.5`. -/
def floatDocument : Bytes := [0x61, Ch.eq, 0x31, Ch.dot, 0x35]

/-- The tree of `a=1.5`. -/
def floatTree : Node := .table .explicit [(Key.ofBytes [0x61], .float threeHalves)]

lemma floatTree_written : floatTree.FloatsWritten FloatConv.threeHalves := by
  refine ⟨trivial, ?_, trivial⟩
  intro f hf _
  obtain rfl := Node.float.inj hf
  exact writes_threeHalves

theorem json_faithful_float :
    parse (.ofOptions .threeHalves 0) floatDocument = .ok floatTree ∧
      Decodes NaturalScalar floatTree
        (emitJsonNatValue (Config.ofOptions .threeHalves 0).fc floatTree) ∧
      Decodes TypedScalar floatTree
        (emitJsonValue (Config.ofOptions .threeHalves 0).fc floatTree) := by
  have hparse : parse (.ofOptions .threeHalves 0) floatDocument = .ok floatTree := rfl
  have hfc : (Config.ofOptions .threeHalves 0).fc = .threeHalves := rfl
  exact ⟨hparse, json_faithful hparse (hfc ▸ floatTree_written)⟩

end Teptris
