import Teptris.Emit.Document
import Teptris.Emit.Json
import Teptris.Library.GrowBuf

/-!
# The emitters over a buffer that may fail to grow

`emit_shared.h` and `emitter.c` once more, write by write: every function takes the output buffer
and the pattern of allocation failures, and returns the buffer.  Each emits the text that the
functions of `Emit/Text.lean`, `Emit/Document.lean` and `Emit/Json.lean` compute.  What goes wrong
comes after the text: the terminator is written behind the last look at the status.
-/

namespace Teptris

open GrowBuf

/-! ## The buffer -/

/-- `ebuf`: one byte is kept free for a terminator. -/
def ebShape : Shape := ⟨1, 256⟩

/-- The output buffer of the emitters. -/
abbrev Ebuf := Buf UInt8

/-- `eb_reserve`. -/
abbrev ebReserve (a : Pattern) (b : Ebuf) (extra : ℕ) : Ebuf := grow ebShape a b extra

/-- `eb_put` and `eb_str`; `eb_c` and `eb_sep2` first try the same write in place. -/
abbrev ebPut (a : Pattern) (b : Ebuf) (t : Bytes) : Ebuf := put ebShape a b t

/-- `eb_c`. -/
abbrev ebC (a : Pattern) (b : Ebuf) (c : UInt8) : Ebuf := ebPut a b [c]

/-! ## Strings and keys -/

/-- The loop of `emit_basic_bytes` and `json_string`: runs of plain bytes go out as one write,
each other byte as its escape. -/
def putSpans (plain : UInt8 → Bool) (esc : UInt8 → Bytes) (a : Pattern) (run : Bytes) :
    Bytes → Ebuf → Ebuf
  | [], b => if run = [] then b else ebPut a b run
  | c :: cs, b =>
    if plain c then putSpans plain esc a (run ++ [c]) cs b
    else putSpans plain esc a [] cs (ebPut a (ebPut a b run) (esc c))

/-- The bytes `emit_basic_bytes` does not escape. -/
def isBasicPlain (c : UInt8) : Bool :=
  !(c == Ch.dquote || c == Ch.bslash || c < 0x20 || c == Ch.del)

/-- The bytes `json_string` does not escape. -/
def isJsonPlain (c : UInt8) : Bool := !(c == Ch.dquote || c == Ch.bslash || c < 0x20)

/-- `emit_basic_bytes`. -/
def emitBasicBytesTo (a : Pattern) (b : Ebuf) (s : Bytes) : Ebuf :=
  ebC a (putSpans isBasicPlain basicByte a [] s (ebC a b Ch.dquote)) Ch.dquote

/-- `emit_string_value`. -/
def emitStringValueTo (a : Pattern) (b : Ebuf) (s : Bytes) : Ebuf :=
  if isLiteralText s then ebC a (ebPut a (ebC a b Ch.squote) s) Ch.squote
  else emitBasicBytesTo a b s

/-- `json_string`. -/
def jsonStringTo (a : Pattern) (b : Ebuf) (s : Bytes) : Ebuf :=
  ebC a (putSpans isJsonPlain jsonStringByte a [] s (ebC a b Ch.dquote)) Ch.dquote

/-- `emit_key`: a key that may need more than the 256 bytes on the stack is rendered in memory of
its own. -/
def emitKeyTo (a : Pattern) (b : Ebuf) (key : Bytes) : Ebuf :=
  scratch (keyBufCap key) 256 (fun a b => ebPut a b (emitKey key)) a b

lemma emits_putSpans (plain : UInt8 → Bool) (esc : UInt8 → Bytes) (run cs : Bytes) :
    Emits ebShape (fun a b => putSpans plain esc a run cs b)
      (run ++ cs.flatMap fun c => if plain c then [c] else esc c) := by
  induction cs generalizing run with
  | nil =>
    simp only [putSpans, List.flatMap_nil, List.append_nil]
    split_ifs with hrun
    · rw [hrun]
      exact .skip
    · exact .put run
  | cons c cs ih =>
    simp only [putSpans, List.flatMap_cons]
    by_cases hplain : plain c = true
    · simp only [hplain, if_true]
      exact (ih (run ++ [c])).of_eq (by simp)
    · simp only [hplain, if_false, Bool.false_eq_true]
      exact (((Emits.put run).comp (.put (esc c))).comp (ih [])).of_eq (by simp)

/-- Escaping the other bytes escapes every byte. -/
lemma basicByte_eq (c : UInt8) : (if isBasicPlain c then [c] else basicByte c) = basicByte c := by
  split_ifs with h
  · simp only [isBasicPlain, Bool.not_eq_true', Bool.or_eq_false_iff, beq_eq_false_iff_ne,
      decide_eq_false_iff_not] at h
    obtain ⟨⟨⟨hquote, hslash⟩, hlow⟩, hdel⟩ := h
    have hne : ∀ d : UInt8, d < 0x20 → c ≠ d := fun d hd hc => hlow (hc ▸ hd)
    rw [basicByte, if_neg hquote, if_neg hslash, if_neg (hne _ (by decide)),
      if_neg (hne _ (by decide)), if_neg (hne _ (by decide)), if_neg (hne _ (by decide)),
      if_neg (hne _ (by decide)), if_neg (not_or.mpr ⟨hlow, hdel⟩)]
  · rfl

lemma jsonStringByte_eq (c : UInt8) :
    (if isJsonPlain c then [c] else jsonStringByte c) = jsonStringByte c := by
  split_ifs with h
  · simp only [isJsonPlain, Bool.not_eq_true', Bool.or_eq_false_iff, beq_eq_false_iff_ne,
      decide_eq_false_iff_not] at h
    obtain ⟨⟨hquote, hslash⟩, hlow⟩ := h
    have hne : ∀ d : UInt8, d < 0x20 → c ≠ d := fun d hd hc => hlow (hc ▸ hd)
    rw [jsonStringByte, if_neg hquote, if_neg hslash, if_neg (hne _ (by decide)),
      if_neg (hne _ (by decide)), if_neg (hne _ (by decide)), if_neg (hne _ (by decide)),
      if_neg (hne _ (by decide)), if_neg hlow]
  · rfl

lemma emits_basicBytes (s : Bytes) :
    Emits ebShape (fun a b => emitBasicBytesTo a b s) (emitBasicBytes s) :=
  (((Emits.put [Ch.dquote]).comp (emits_putSpans isBasicPlain basicByte [] s)).comp
    (.put [Ch.dquote])).of_eq (by simp [emitBasicBytes, basicByte_eq])

lemma emits_stringValue (s : Bytes) :
    Emits ebShape (fun a b => emitStringValueTo a b s) (emitStringValue s) := by
  simp only [emitStringValueTo, emitStringValue]
  split_ifs
  · exact (((Emits.put [Ch.squote]).comp (.put s)).comp (.put [Ch.squote])).of_eq
      (by simp [literalText])
  · exact emits_basicBytes s

lemma emits_jsonString (s : Bytes) :
    Emits ebShape (fun a b => jsonStringTo a b s) (jsonString s) :=
  (((Emits.put [Ch.dquote]).comp (emits_putSpans isJsonPlain jsonStringByte [] s)).comp
    (.put [Ch.dquote])).of_eq (by simp [jsonString, jsonStringByte_eq])

lemma emits_key (key : Bytes) : Emits ebShape (fun a b => emitKeyTo a b key) (emitKey key) :=
  (Emits.put (emitKey key)).scratch (keyBufCap key) 256

/-! ## TOML -/

section Toml

variable (fc : FloatConv) (a : Pattern)

mutual

/-- `emit_value`. -/
def emitValueTo (b : Ebuf) : Node → Ebuf
  | .string s => emitStringValueTo a b s
  | .integer i => ebPut a b (emitI64 i)
  | .float f => ebPut a b (emitFloat fc f)
  | .boolean v => ebPut a b (boolText v)
  | .datetime kind dt => ebPut a b (emitDt kind dt)
  | .array _ items => ebC a (emitItemsTo (ebC a b Ch.lbrack) items) Ch.rbrack
  | .table _ es => ebC a (emitMembersTo (ebC a b Ch.lbrace) es) Ch.rbrace

/-- The elements of an array, the first without a separator. -/
def emitItemsTo (b : Ebuf) : List Node → Ebuf
  | [] => b
  | v :: vs => emitMoreItemsTo (emitValueTo b v) vs

/-- The elements behind the first one. -/
def emitMoreItemsTo (b : Ebuf) : List Node → Ebuf
  | [] => b
  | v :: vs => emitMoreItemsTo (emitValueTo (ebPut a b sepText) v) vs

/-- The members of `emit_inline_table`, the first without a separator. -/
def emitMembersTo (b : Ebuf) : List (Key × Node) → Ebuf
  | [] => b
  | (k, v) :: es =>
    emitMoreMembersTo (emitValueTo (ebPut a (emitKeyTo a b k.bytes) eqText) v) es

/-- The members behind the first one. -/
def emitMoreMembersTo (b : Ebuf) : List (Key × Node) → Ebuf
  | [] => b
  | (k, v) :: es =>
    emitMoreMembersTo
      (emitValueTo (ebPut a (emitKeyTo a (ebPut a b sepText) k.bytes) eqText) v) es

end

/-- One turn of the first loop of `emit_table_children`. -/
def emitLineTo (b : Ebuf) (e : Key × Node) : Ebuf :=
  if isSection e.2 then b
  else ebC a (emitValueTo fc a (ebPut a (emitKeyTo a b e.1.bytes) eqText) e.2) Ch.lf

/-- The first loop of `emit_table_children`. -/
def emitLinesTo (b : Ebuf) (es : Entries) : Ebuf := es.foldl (emitLineTo fc a) b

mutual

/-- `emit_section`, behind the rendering of its header path. -/
def emitSectionTo (hdr : Bytes) (b : Ebuf) : Node → Ebuf
  | .array _ items => emitElementsTo hdr b items
  | .table _ es =>
    emitSectionsTo hdr
      (emitLinesTo fc a (ebPut a (ebPut a (ebC a b Ch.lbrack) hdr) [Ch.rbrack, Ch.lf]) es) es
  | _ => b

/-- The elements of an array of tables, each under its header. -/
def emitElementsTo (hdr : Bytes) (b : Ebuf) : List Node → Ebuf
  | [] => b
  | .table _ es :: ts =>
    emitElementsTo hdr
      (emitSectionsTo hdr
        (emitLinesTo fc a
          (ebPut a (ebPut a (ebPut a b [Ch.lbrack, Ch.lbrack]) hdr)
            [Ch.rbrack, Ch.rbrack, Ch.lf]) es) es) ts
  -- the elements of an array of tables are tables
  | _ :: ts =>
    emitElementsTo hdr
      (ebPut a (ebPut a (ebPut a b [Ch.lbrack, Ch.lbrack]) hdr) [Ch.rbrack, Ch.rbrack, Ch.lf]) ts

/-- The second loop of `emit_table_children`; a header path that may need more than the 512 bytes
on the stack is rendered in memory of its own. -/
def emitSectionsTo (pfx : Bytes) (b : Ebuf) : List (Key × Node) → Ebuf
  | [] => b
  | (k, v) :: es =>
    emitSectionsTo pfx
      (if isSection v then
        scratch (pfx.length + keyBufCap k.bytes + 2) 512
          (fun _ b => emitSectionTo (headerPath pfx k.bytes) b v) a b
      else b) es

end

/-- `emit_table_children`. -/
def emitTableChildrenTo (pfx : Bytes) (b : Ebuf) (es : Entries) : Ebuf :=
  emitSectionsTo fc a pfx (emitLinesTo fc a b es) es

end Toml

mutual

/-- `emit_value` emits the text of the value. -/
lemma emits_value (fc : FloatConv) : ∀ v : Node,
    Emits ebShape (fun a b => emitValueTo fc a b v) (emitValue fc v)
  | .string s => by
    simp only [emitValueTo, emitValue]
    exact emits_stringValue s
  | .integer i => by
    simp only [emitValueTo, emitValue]
    exact .put _
  | .float f => by
    simp only [emitValueTo, emitValue]
    exact .put _
  | .boolean v => by
    simp only [emitValueTo, emitValue]
    exact .put _
  | .datetime kind dt => by
    simp only [emitValueTo, emitValue]
    exact .put _
  | .array _ items => by
    simp only [emitValueTo, emitValue]
    exact ((Emits.put [Ch.lbrack]).comp (emits_items fc items)).comp (.put [Ch.rbrack])
  | .table _ es => by
    simp only [emitValueTo, emitValue]
    exact ((Emits.put [Ch.lbrace]).comp (emits_members fc es)).comp (.put [Ch.rbrace])

lemma emits_items (fc : FloatConv) : ∀ vs : List Node,
    Emits ebShape (fun a b => emitItemsTo fc a b vs) (emitItems fc vs)
  | [] => by
    simp only [emitItemsTo, emitItems]
    exact .skip
  | v :: vs => by
    simp only [emitItemsTo, emitItems]
    exact (emits_value fc v).comp (emits_moreItems fc vs)

lemma emits_moreItems (fc : FloatConv) : ∀ vs : List Node,
    Emits ebShape (fun a b => emitMoreItemsTo fc a b vs) (emitMoreItems fc vs)
  | [] => by
    simp only [emitMoreItemsTo, emitMoreItems]
    exact .skip
  | v :: vs => by
    simp only [emitMoreItemsTo, emitMoreItems]
    exact ((Emits.put sepText).comp (emits_value fc v)).comp (emits_moreItems fc vs)

lemma emits_members (fc : FloatConv) : ∀ es : List (Key × Node),
    Emits ebShape (fun a b => emitMembersTo fc a b es) (emitMembers fc es)
  | [] => by
    simp only [emitMembersTo, emitMembers]
    exact .skip
  | (k, v) :: es => by
    simp only [emitMembersTo, emitMembers]
    exact (((emits_key k.bytes).comp (.put eqText)).comp (emits_value fc v)).comp
      (emits_moreMembers fc es)

lemma emits_moreMembers (fc : FloatConv) : ∀ es : List (Key × Node),
    Emits ebShape (fun a b => emitMoreMembersTo fc a b es) (emitMoreMembers fc es)
  | [] => by
    simp only [emitMoreMembersTo, emitMoreMembers]
    exact .skip
  | (k, v) :: es => by
    simp only [emitMoreMembersTo, emitMoreMembers]
    exact ((((Emits.put sepText).comp (emits_key k.bytes)).comp (.put eqText)).comp
      (emits_value fc v)).comp (emits_moreMembers fc es) |>.of_eq (by simp)

end

/-- The lines of a table. -/
lemma emits_lines (fc : FloatConv) (es : Entries) :
    Emits ebShape (fun a b => emitLinesTo fc a b es) (emitLines fc es) := by
  refine Emits.foldl (f := fun e a b => emitLineTo fc a b e) (fun e => ?_) es
  simp only [emitLineTo]
  split_ifs
  · exact .skip
  · exact ((((emits_key e.1.bytes).comp (.put eqText)).comp (emits_value fc e.2)).comp
      (.put [Ch.lf])).of_eq (by simp)

/-- The header of an element of an array of tables. -/
lemma emits_elementHeader (hdr : Bytes) :
    Emits ebShape (fun a b => ebPut a (ebPut a (ebPut a b [Ch.lbrack, Ch.lbrack]) hdr)
      [Ch.rbrack, Ch.rbrack, Ch.lf])
      ([Ch.lbrack, Ch.lbrack] ++ hdr ++ [Ch.rbrack, Ch.rbrack, Ch.lf]) :=
  ((Emits.put _).comp (.put hdr)).comp (.put _)

mutual

/-- `emit_section` emits the text of the section. -/
lemma emits_section (fc : FloatConv) (hdr : Bytes) : ∀ v : Node,
    Emits ebShape (fun a b => emitSectionTo fc a hdr b v) (emitSection fc hdr v)
  | .array _ items => by
    simp only [emitSectionTo, emitSection]
    exact emits_elements fc hdr items
  | .table _ es => by
    simp only [emitSectionTo, emitSection]
    exact ((((Emits.put [Ch.lbrack]).comp (.put hdr)).comp (.put [Ch.rbrack, Ch.lf])).comp
      (emits_lines fc es)).comp (emits_sections fc hdr es) |>.of_eq (by simp)
  | .string _ => by
    simp only [emitSectionTo, emitSection]
    exact .skip
  | .integer _ => by
    simp only [emitSectionTo, emitSection]
    exact .skip
  | .float _ => by
    simp only [emitSectionTo, emitSection]
    exact .skip
  | .boolean _ => by
    simp only [emitSectionTo, emitSection]
    exact .skip
  | .datetime _ _ => by
    simp only [emitSectionTo, emitSection]
    exact .skip

lemma emits_elements (fc : FloatConv) (hdr : Bytes) : ∀ ts : List Node,
    Emits ebShape (fun a b => emitElementsTo fc a hdr b ts) (emitElements fc hdr ts)
  | [] => by
    simp only [emitElementsTo, emitElements]
    exact .skip
  | v :: ts => by
    have hheader := emits_elementHeader hdr
    have hrest := emits_elements fc hdr ts
    cases v with
    | table flag es =>
      simp only [emitElementsTo, emitElements]
      exact ((hheader.comp (emits_lines fc es)).comp (emits_sections fc hdr es)).comp hrest
        |>.of_eq (by simp)
    | string | integer | float | boolean | datetime | array =>
      simp only [emitElementsTo, emitElements]
      exact hheader.comp hrest

lemma emits_sections (fc : FloatConv) (pfx : Bytes) : ∀ es : List (Key × Node),
    Emits ebShape (fun a b => emitSectionsTo fc a pfx b es) (emitSections fc pfx es)
  | [] => by
    simp only [emitSectionsTo, emitSections]
    exact .skip
  | (k, v) :: es => by
    simp only [emitSectionsTo, emitSections]
    split_ifs
    · exact ((emits_section fc (headerPath pfx k.bytes) v).scratch_given
        (pfx.length + keyBufCap k.bytes + 2) 512).comp (emits_sections fc pfx es)
    · exact emits_sections fc pfx es

end

/-! ## JSON -/

/-- The front of a typed scalar, up to its value. -/
def typedHead (name : Bytes) : Bytes :=
  Ch.lbrace :: (quoted wType ++ Ch.colon :: (quoted name ++ Ch.comma ::
    (quoted wValue ++ [Ch.colon])))

section Json

variable (fc : FloatConv) (a : Pattern)

/-- A typed scalar whose value is text between quotes. -/
def typedTextTo (b : Ebuf) (name value : Bytes) : Ebuf :=
  ebPut a (ebPut a (ebPut a b (typedHead name ++ [Ch.dquote])) value) [Ch.dquote, Ch.rbrace]

/-- The scalars of `emit_json_value`. -/
def jsonScalarTo (b : Ebuf) (n : Node) : Ebuf :=
  match n with
  | .string s => ebC a (jsonStringTo a (ebPut a b (typedHead (jsonTypeName n))) s) Ch.rbrace
  | .integer i => typedTextTo a b (jsonTypeName n) (emitI64 i)
  | .float f => typedTextTo a b (jsonTypeName n) (emitFloat fc f)
  | .boolean v => typedTextTo a b (jsonTypeName n) (boolText v)
  | .datetime kind dt =>
    let b := ebPut a b (Ch.lbrace :: (quoted wType ++ [Ch.colon, Ch.dquote]))
    let b := ebPut a b (jsonTypeName n)
    let b := ebPut a b (Ch.dquote :: Ch.comma :: (quoted wValue ++ [Ch.colon, Ch.dquote]))
    ebPut a (ebPut a b (emitDt kind dt)) [Ch.dquote, Ch.rbrace]
  | _ => b

/-- The scalars of `emit_json_nat_value`. -/
def jsonNatScalarTo (b : Ebuf) : Node → Ebuf
  | .string s => jsonStringTo a b s
  | .integer i => ebPut a b (emitI64 i)
  | .float f =>
    if f.isNan || f.isInf then ebPut a b [0x6E, 0x75, 0x6C, 0x6C] else ebPut a b (emitFloat fc f)
  | .boolean v => ebPut a b (boolText v)
  | .datetime kind dt => ebC a (ebPut a (ebC a b Ch.dquote) (emitDt kind dt)) Ch.dquote
  | _ => b

variable (scalar : Ebuf → Node → Ebuf)

mutual

/-- The containers of both JSON emitters, over the writer of the scalars. -/
def jsonTreeTo (b : Ebuf) : Node → Ebuf
  | .string s => scalar b (.string s)
  | .integer i => scalar b (.integer i)
  | .float f => scalar b (.float f)
  | .boolean v => scalar b (.boolean v)
  | .datetime kind dt => scalar b (.datetime kind dt)
  | .array _ items => ebC a (jsonItemsTo (ebC a b Ch.lbrack) items) Ch.rbrack
  | .table _ es => ebC a (jsonMembersTo (ebC a b Ch.lbrace) es) Ch.rbrace

/-- The elements of an array, the first without a separator. -/
def jsonItemsTo (b : Ebuf) : List Node → Ebuf
  | [] => b
  | v :: vs => jsonMoreItemsTo (jsonTreeTo b v) vs

/-- The elements behind the first one. -/
def jsonMoreItemsTo (b : Ebuf) : List Node → Ebuf
  | [] => b
  | v :: vs => jsonMoreItemsTo (jsonTreeTo (ebC a b Ch.comma) v) vs

/-- The members of an object, the first without a separator. -/
def jsonMembersTo (b : Ebuf) : List (Key × Node) → Ebuf
  | [] => b
  | (k, v) :: es =>
    jsonMoreMembersTo (jsonTreeTo (ebC a (jsonStringTo a b k.bytes) Ch.colon) v) es

/-- The members behind the first one. -/
def jsonMoreMembersTo (b : Ebuf) : List (Key × Node) → Ebuf
  | [] => b
  | (k, v) :: es =>
    jsonMoreMembersTo
      (jsonTreeTo (ebC a (jsonStringTo a (ebC a b Ch.comma) k.bytes) Ch.colon) v) es

end

end Json

lemma emits_typedText (name value : Bytes) :
    Emits ebShape (fun a b => typedTextTo a b name value) (typedText name (quoted value)) :=
  (((Emits.put _).comp (.put value)).comp (.put _)).of_eq
    (by simp [typedHead, typedText, quoted])

lemma emits_jsonScalar (fc : FloatConv) (n : Node) :
    Emits ebShape (fun a b => jsonScalarTo fc a b n) (jsonScalar fc n) := by
  cases n with
  | string s =>
    exact (((Emits.put _).comp (emits_jsonString s)).comp (.put [Ch.rbrace])).of_eq
      (by simp [jsonScalar, typedHead, typedText, quoted])
  | integer i => exact emits_typedText _ _
  | float f => exact emits_typedText _ _
  | boolean v => exact emits_typedText _ _
  | datetime kind dt =>
    exact (((((Emits.put _).comp (.put _)).comp (.put _)).comp (.put _)).comp (.put _)).of_eq
      (by simp [jsonScalar, typedText, quoted])
  | array => exact .skip
  | table => exact .skip

lemma emits_jsonNatScalar (fc : FloatConv) (n : Node) :
    Emits ebShape (fun a b => jsonNatScalarTo fc a b n) (jsonNatScalar fc n) := by
  cases n with
  | string s => exact emits_jsonString s
  | integer i => exact .put _
  | float f =>
    simp only [jsonNatScalarTo, jsonNatScalar]
    split_ifs <;> exact .put _
  | boolean v => exact .put _
  | datetime kind dt =>
    exact (((Emits.put [Ch.dquote]).comp (.put _)).comp (.put [Ch.dquote])).of_eq
      (by simp [jsonNatScalar, quoted])
  | array => exact .skip
  | table => exact .skip

section JsonTree

variable {scalar : Pattern → Ebuf → Node → Ebuf} {text : Node → Bytes}

mutual

/-- A JSON emitter whose scalars emit their texts emits the tree. -/
lemma emits_jsonTree (h : ∀ n, Emits ebShape (fun a b => scalar a b n) (text n)) : ∀ n : Node,
    Emits ebShape (fun a b => jsonTreeTo a (scalar a) b n) (jsonTree text n)
  | .string s => by
    simp only [jsonTreeTo, jsonTree]
    exact h _
  | .integer i => by
    simp only [jsonTreeTo, jsonTree]
    exact h _
  | .float f => by
    simp only [jsonTreeTo, jsonTree]
    exact h _
  | .boolean v => by
    simp only [jsonTreeTo, jsonTree]
    exact h _
  | .datetime kind dt => by
    simp only [jsonTreeTo, jsonTree]
    exact h _
  | .array _ items => by
    simp only [jsonTreeTo, jsonTree]
    exact ((Emits.put [Ch.lbrack]).comp (emits_jsonItems h items)).comp (.put [Ch.rbrack])
  | .table _ es => by
    simp only [jsonTreeTo, jsonTree]
    exact ((Emits.put [Ch.lbrace]).comp (emits_jsonMembers h es)).comp (.put [Ch.rbrace])

lemma emits_jsonItems (h : ∀ n, Emits ebShape (fun a b => scalar a b n) (text n)) :
    ∀ vs : List Node, Emits ebShape (fun a b => jsonItemsTo a (scalar a) b vs) (jsonItems text vs)
  | [] => by
    simp only [jsonItemsTo, jsonItems]
    exact .skip
  | v :: vs => by
    simp only [jsonItemsTo, jsonItems]
    exact (emits_jsonTree h v).comp (emits_jsonMoreItems h vs)

lemma emits_jsonMoreItems (h : ∀ n, Emits ebShape (fun a b => scalar a b n) (text n)) :
    ∀ vs : List Node,
      Emits ebShape (fun a b => jsonMoreItemsTo a (scalar a) b vs) (jsonMoreItems text vs)
  | [] => by
    simp only [jsonMoreItemsTo, jsonMoreItems]
    exact .skip
  | v :: vs => by
    simp only [jsonMoreItemsTo, jsonMoreItems]
    exact (((Emits.put [Ch.comma]).comp (emits_jsonTree h v)).comp
      (emits_jsonMoreItems h vs)).of_eq (by simp)

lemma emits_jsonMembers (h : ∀ n, Emits ebShape (fun a b => scalar a b n) (text n)) :
    ∀ es : List (Key × Node),
      Emits ebShape (fun a b => jsonMembersTo a (scalar a) b es) (jsonMembers text es)
  | [] => by
    simp only [jsonMembersTo, jsonMembers]
    exact .skip
  | (k, v) :: es => by
    simp only [jsonMembersTo, jsonMembers]
    exact ((((emits_jsonString k.bytes).comp (.put [Ch.colon])).comp (emits_jsonTree h v)).comp
      (emits_jsonMoreMembers h es)).of_eq (by simp)

lemma emits_jsonMoreMembers (h : ∀ n, Emits ebShape (fun a b => scalar a b n) (text n)) :
    ∀ es : List (Key × Node),
      Emits ebShape (fun a b => jsonMoreMembersTo a (scalar a) b es) (jsonMoreMembers text es)
  | [] => by
    simp only [jsonMoreMembersTo, jsonMoreMembers]
    exact .skip
  | (k, v) :: es => by
    simp only [jsonMoreMembersTo, jsonMoreMembers]
    exact (((((Emits.put [Ch.comma]).comp (emits_jsonString k.bytes)).comp
      (.put [Ch.colon])).comp (emits_jsonTree h v)).comp (emits_jsonMoreMembers h es)).of_eq
        (by simp)

end

end JsonTree

/-! ## Documents -/

/-- What a call hands over: a buffer, where `none` is a null pointer, and its length; or a
status. -/
abbrev CallOutput := Except Status (Option Bytes × ℕ)

/-- The call does not say `TEPTRIS_OK` without the whole output: a buffer that is not null, and
what the call hands over when no allocation fails. -/
def Whole (r ideal : CallOutput) : Prop :=
  ∀ out, r = .ok out → out.1.isSome = true ∧ ideal = .ok out

/-- The end of the three emitters: a look at the status, the terminator, and the buffer. -/
def handOver (a : Pattern) (b : Ebuf) : CallOutput :=
  if b.failed then .error .errAlloc
  else
    let b := ebC a b 0
    .ok (b.shown, b.data.length - 1)

/-- The buffer the emitters start with. -/
def ebStart (a : Pattern) : Ebuf := ebReserve a {} 256

/-- `emit_table_children`, of the root table. -/
def emitRootTo (fc : FloatConv) (a : Pattern) (b : Ebuf) (root : Node) : Ebuf :=
  match root with
  | .table _ es => emitTableChildrenTo fc a [] b es
  | _ => b

/-- `teptris_emit_document`, of the root table. -/
def emitDocumentTo (fc : FloatConv) (a : Pattern) (root : Node) : CallOutput :=
  handOver a (emitRootTo fc a (ebStart a) root)

/-- `teptris_emit_document_json`, of the root. -/
def emitDocumentJsonTo (fc : FloatConv) (a : Pattern) (root : Node) : CallOutput :=
  handOver a (jsonTreeTo a (jsonScalarTo fc a) (ebStart a) root)

/-- `teptris_emit_document_json_natural`, of the root. -/
def emitDocumentJsonNaturalTo (fc : FloatConv) (a : Pattern) (root : Node) : CallOutput :=
  handOver a (jsonTreeTo a (jsonNatScalarTo fc a) (ebStart a) root)

/-- The number of requests a program makes from the start, when none is refused; the next one is
for the terminator. -/
def requestsOf (f : Pattern → Ebuf → Ebuf) : ℕ := (f always (ebStart always)).requests

/-- The text fills its buffer up to the byte that is kept free. -/
def FillsBuffer (t : Bytes) : Prop := ∃ k, t.length + 1 = 512 * 2 ^ k

/-- The terminator gets its room: where the text fills its buffer and no request for the text is
refused, the one for the terminator is granted. -/
def TerminatorFits (a : Pattern) (n : ℕ) (t : Bytes) : Prop :=
  FillsBuffer t → (∀ i < n, a i = true) → a n = true

section Documents

variable {f : Pattern → Ebuf → Ebuf} {t : Bytes}

/-- The buffer the emitters start with, when it is granted. -/
lemma ebStart_granted {a : Pattern} (h : a 0 = true) :
    ebStart a = ⟨[], 512, false, false, 1⟩ := by
  have hdouble : double 257 257 256 = 512 := by decide
  simp [ebStart, ebReserve, grow, ebShape, h, hdouble]

/-- The first request refused sets the status. -/
lemma ebStart_refused {a : Pattern} (h : ¬ a 0 = true) : (ebStart a).failed = true := by
  simp [ebStart, ebReserve, grow, ebShape, h]

/-- What the emitters know of their text: it is written as long as no request is refused. -/
lemma emits_start (hf : Emits ebShape f t) (a : Pattern) :
    if ∀ i < requestsOf f, a i = true then f a (ebStart a) = f always (ebStart always)
    else (f a (ebStart a)).failed = true := by
  have hideal := hf.ideal (ebStart always) (by rw [ebStart_granted rfl])
  have hone : (ebStart always).requests = 1 := by rw [ebStart_granted rfl]
  rw [hone] at hideal
  have hpos : 0 < requestsOf f := hideal.2.2.1
  by_cases hfirst : a 0 = true
  · have hstart : ebStart a = ebStart always := by
      rw [ebStart_granted hfirst, ebStart_granted rfl]
    have hok : (ebStart always).failed = false := by rw [ebStart_granted rfl]
    rw [hstart]
    split_ifs with hall
    · exact hf.same a _ hok fun i _ hlt => hall i hlt
    · push Not at hall
      obtain ⟨i, hlt, hrefused⟩ := hall
      refine hf.lost a _ hok ⟨i, ?_, hlt, Bool.eq_false_iff.mpr hrefused⟩
      rw [hone]
      exact Nat.pos_iff_ne_zero.mpr fun hi => hrefused (hi ▸ hfirst)
  · rw [if_neg fun hall => hfirst (hall 0 hpos)]
    exact (hf.stuck a _ (ebStart_refused hfirst)).1

/-- An emitter hands over the whole text exactly where the terminator gets its room. -/
lemma handOver_whole_iff (hf : Emits ebShape f t) (a : Pattern) :
    Whole (handOver a (f a (ebStart a))) (handOver always (f always (ebStart always))) ↔
      TerminatorFits a (requestsOf f) t := by
  have hstart := emits_start hf a
  split_ifs at hstart with hall
  swap
  · refine iff_of_true (fun out hout => ?_) fun _ hall' => absurd hall' hall
    rw [handOver, if_pos hstart] at hout
    simp at hout
  rw [hstart]
  have hgranted := ebStart_granted (a := always) rfl
  obtain ⟨hok, hdata, -, hnull, -⟩ := hf.ideal (ebStart always) (by rw [hgranted])
  have hroom := hf.room (ebStart always) (by rw [hgranted]) (by rw [hgranted]; decide)
    (by rw [hgranted]; decide)
  rw [hgranted] at hdata hnull hroom
  dsimp only at hdata hroom
  rw [List.nil_append] at hdata hroom
  rw [← hgranted] at hdata hnull hroom
  have hfills : FillsBuffer t ↔ (f always (ebStart always)).cap = t.length + 1 :=
    hroom.eq_iff.symm
  have hlen : t.length + 1 ≤ (f always (ebStart always)).cap := by
    obtain ⟨-, -, hlen, -⟩ := hroom
    exact hlen
  rw [handOver, handOver, if_neg (Bool.eq_false_iff.mp hok), if_neg (Bool.eq_false_iff.mp hok)]
  dsimp only
  by_cases hfull : (f always (ebStart always)).cap = t.length + 1
  · -- the terminator needs a growth
    have hno : ¬ (f always (ebStart always)).data.length + [(0 : UInt8)].length + ebShape.spare ≤
        (f always (ebStart always)).cap := by
      rw [hdata, hfull, List.length_singleton, show ebShape.spare = 1 from rfl]
      omega
    by_cases hreq : a (requestsOf f) = true
    · refine iff_of_true ?_ fun _ _ => hreq
      rw [ebC, ebPut, put_grown hok hno hreq, ebC, ebPut, put_grown (a := always) hok hno rfl]
      exact fun out hout => ⟨by rw [← Except.ok.inj hout]; rfl, hout⟩
    · refine iff_of_false (fun hwhole => ?_) fun hfits => hreq (hfits (hfills.mpr hfull) hall)
      rw [ebC, ebPut, put_refused hok hno hreq] at hwhole
      exact absurd (hwhole _ rfl).1 Bool.false_ne_true
  · have hyes : (f always (ebStart always)).data.length + [(0 : UInt8)].length + ebShape.spare ≤
        (f always (ebStart always)).cap := by
      rw [hdata, List.length_singleton, show ebShape.spare = 1 from rfl]
      omega
    refine iff_of_true ?_ fun hfill => absurd (hfills.mp hfill) hfull
    rw [ebC, ebPut, put_room hok hyes, ebC, ebPut, put_room hok hyes]
    refine fun out hout => ⟨?_, hout⟩
    rw [← Except.ok.inj hout, Buf.shown, hnull rfl]
    rfl

/-- With every request granted, an emitter hands over its text and the terminator. -/
lemma handOver_always (hf : Emits ebShape f t) :
    handOver always (f always (ebStart always)) = .ok (some (t ++ [0]), t.length) := by
  have hgranted := ebStart_granted (a := always) rfl
  obtain ⟨hok, hdata, -, hnull, -⟩ := (hf.comp (.put [0])).ideal (ebStart always) (by rw [hgranted])
  obtain ⟨hok', -⟩ := hf.ideal (ebStart always) (by rw [hgranted])
  have hnone : (ebStart always).data = [] := by rw [hgranted]
  have hptr := hnull (by rw [hgranted])
  rw [handOver, if_neg (Bool.eq_false_iff.mp hok')]
  dsimp only
  rw [Buf.shown, hptr, hdata, hnone]
  simp

end Documents

lemma emits_root (fc : FloatConv) (root : Node) :
    Emits ebShape (fun a b => emitRootTo fc a b root) (emitDocument fc root) := by
  cases root with
  | table flag es => exact (emits_lines fc es).comp (emits_sections fc [] es)
  | string | integer | float | boolean | datetime | array => exact .skip

lemma emits_json (fc : FloatConv) (root : Node) :
    Emits ebShape (fun a b => jsonTreeTo a (jsonScalarTo fc a) b root) (emitJsonValue fc root) :=
  emits_jsonTree (emits_jsonScalar fc) root

lemma emits_jsonNatural (fc : FloatConv) (root : Node) :
    Emits ebShape (fun a b => jsonTreeTo a (jsonNatScalarTo fc a) b root)
      (emitJsonNatValue fc root) :=
  emits_jsonTree (emits_jsonNatScalar fc) root

end Teptris
