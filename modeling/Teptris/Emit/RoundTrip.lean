import Teptris.Emit.Json
import Teptris.Emit.Sections
import Teptris.Parse.Encoding
import Teptris.Parse.Limit

/-!
# Documents read back

`teptris_parse` over the text of `teptris_emit_document`.  The text is well-formed UTF-8, and it
is read as `rereadEntries` says (`parse_emitDocument`).  Emitting that tree gives the same text
again (`emit_stable`), whatever the flags and the order of the first tree were.
-/

namespace Teptris

open Loop

/-! ## The text is well formed -/

section Encoding

variable {fc : FloatConv}

lemma basicByte_ascii : ∀ c : UInt8, c < 0x80 → ∀ d ∈ basicByte c, d < 0x80 :=
  Utf8.ascii_of_all (by decide +kernel)

lemma basicByte_multi : ∀ c : UInt8, ¬ c < 0x80 → basicByte c = [c] := by
  decide +kernel

lemma keyByte_ascii : ∀ c : UInt8, c < 0x80 → ∀ d ∈ keyByte c, d < 0x80 :=
  Utf8.ascii_of_all (by decide +kernel)

lemma keyByte_multi : ∀ c : UInt8, ¬ c < 0x80 → keyByte c = [c] := by
  decide +kernel

/-- A string value is written as well-formed text. -/
lemma valid_emitStringValue {s : Bytes} (h : Utf8.Valid s) : Utf8.Valid (emitStringValue s) := by
  rw [emitStringValue]
  split_ifs with hliteral
  · exact valid_bracketed (by decide) (by decide) h
  · exact valid_bracketed (by decide) (by decide) (h.flatMap basicByte_ascii basicByte_multi)

/-- A key is written as well-formed text. -/
lemma valid_emitKey {key : Bytes} (h : Utf8.Valid key) : Utf8.Valid (emitKey key) := by
  rw [emitKey]
  split_ifs with hbare hliteral
  · exact h
  · exact valid_bracketed (by decide) (by decide) h
  · exact valid_bracketed (by decide) (by decide) (h.flatMap keyByte_ascii keyByte_multi)

/-- The members behind the first one are well-formed text when each is. -/
lemma valid_moreText {β : Type} {text : β → Bytes} {xs : List β}
    (h : ∀ x ∈ xs, Utf8.Valid (text x)) : Utf8.Valid (moreText text xs) := by
  induction xs with
  | nil => exact .nil
  | cons x xs ih =>
    have hsep : Utf8.Valid (sepText ++ text x) :=
      (Utf8.valid_of_all (s := sepText) (by decide)).append (h x (by simp))
    rw [moreText, List.flatMap_cons]
    exact hsep.append (ih fun y hy => h y (by simp [hy]))

/-- A pair is well-formed text when its value is. -/
lemma valid_pairText {e : Key × Node} (hkey : Utf8.Valid e.1.bytes)
    (h : Utf8.Valid (emitValue fc e.2)) : Utf8.Valid (pairText fc e) :=
  ((valid_emitKey hkey).append (Utf8.valid_of_all (by decide))).append h

/-- A value is written as well-formed text. -/
lemma valid_emitValue {v : Node} (hv : IsValue v) (hreads : v.Reads fc) :
    Utf8.Valid (emitValue fc v) := by
  induction hv with
  | string h => exact valid_emitStringValue h
  | integer i => exact valid_of_plain (isPlain_number (isNumber_emitI64 i))
  | float f =>
    cases hf : f.isFinite with
    | false => exact valid_of_plain (isPlain_nonFinite hf)
    | true =>
      obtain ⟨mag, hnum, -⟩ := isNumber_emitFloat hf (hreads hf).writes
      exact valid_of_plain (isPlain_number hnum)
  | boolean b =>
    rw [emitValue]
    cases b <;> exact Utf8.valid_of_all (by decide)
  | datetime h => exact valid_of_plain (isPlain_emitDt h)
  | @array items hitems ih =>
    have hall := itemsAll_iff.mp hreads
    refine valid_bracketed (by decide) (by decide) ?_
    cases items with
    | nil => exact .nil
    | cons v vs =>
      rw [emitItems_cons]
      exact (ih v (by simp) (hall v (by simp))).append
        (valid_moreText fun w hw => ih w (by simp [hw]) (hall w (by simp [hw])))
  | @table flag es hflag hnodup hkey hes ih =>
    have hall := entriesAll_iff.mp hreads
    have hpair : ∀ e ∈ es, Utf8.Valid (pairText fc e) :=
      fun e he => valid_pairText (hkey e he) (ih e he (hall e he).2)
    refine valid_bracketed (by decide) (by decide) ?_
    cases es with
    | nil => exact .nil
    | cons e es =>
      rw [emitMembers_cons]
      exact (hpair e (by simp)).append (valid_moreText fun f hf => hpair f (by simp [hf]))

/-- The lines of a table are well-formed text. -/
lemma valid_emitLines {es : Entries} (hkey : ∀ e ∈ es, Utf8.Valid e.1.bytes)
    (h : ∀ e ∈ es, isSection e.2 = false → Utf8.Valid (emitValue fc e.2)) :
    Utf8.Valid (emitLines fc es) := by
  induction es with
  | nil => exact .nil
  | cons e es ih =>
    rw [emitLines, List.flatMap_cons]
    refine Utf8.Valid.append ?_ (ih (fun f hf => hkey f (by simp [hf]))
      fun f hf => h f (by simp [hf]))
    split_ifs with hsec
    · exact .nil
    · exact (valid_pairText (hkey e (by simp)) (h e (by simp) (by simpa using hsec))).append
        (Utf8.valid_of_all (by decide))

/-- A header path is well-formed text. -/
lemma valid_headerPath {pfx key : Bytes} (hpfx : Utf8.Valid pfx) (hkey : Utf8.Valid key) :
    Utf8.Valid (headerPath pfx key) := by
  rw [headerPath]
  refine Utf8.Valid.append ?_ (valid_emitKey hkey)
  split_ifs
  · exact .nil
  · exact hpfx.append (Utf8.valid_of_all (by decide))

/-- What stands under a header is well-formed text. -/
lemma valid_emitTableChildren {es : Entries} (hkey : ∀ e ∈ es, Utf8.Valid e.1.bytes)
    (hentry : ∀ e ∈ es, IsEntry e.2) (hreads : ∀ e ∈ es, e.2.Reads fc)
    (hsection : ∀ e ∈ es, isSection e.2 = true →
      ∀ hdr, Utf8.Valid hdr → Utf8.Valid (emitSection fc hdr e.2))
    {pfx : Bytes} (hpfx : Utf8.Valid pfx) :
    Utf8.Valid (emitLines fc es ++ emitSections fc pfx es) := by
  have hlines := valid_emitLines hkey fun e he hsec =>
    valid_emitValue ((hentry e he).isValue hsec) (hreads e he)
  refine hlines.append ?_
  clear hlines
  induction es with
  | nil => exact .nil
  | cons e es ih =>
    obtain ⟨k, v⟩ := e
    rw [emitSections]
    refine Utf8.Valid.append ?_ (ih (fun f hf => hkey f (by simp [hf]))
      (fun f hf => hentry f (by simp [hf])) (fun f hf => hreads f (by simp [hf]))
      fun f hf => hsection f (by simp [hf]))
    split_ifs with hsec
    · exact hsection (k, v) (by simp) hsec _ (valid_headerPath hpfx (hkey (k, v) (by simp)))
    · exact .nil

/-- A section is written as well-formed text. -/
lemma valid_emitSection {v : Node} (hv : IsEntry v) (hreads : v.Reads fc)
    (hsec : isSection v = true) : ∀ hdr, Utf8.Valid hdr → Utf8.Valid (emitSection fc hdr v) := by
  have hheader : ∀ l hdr r : Bytes, l.all (· < 0x80) = true → r.all (· < 0x80) = true →
      Utf8.Valid hdr → Utf8.Valid (l ++ hdr ++ r) := fun l hdr r hl hr h =>
    ((Utf8.valid_of_all hl).append h).append (Utf8.valid_of_all hr)
  induction hv with
  | value h hflag =>
    rw [h.not_section hflag] at hsec
    exact absurd hsec (by decide)
  | @table flag es hflag hnodup hkey hes ih =>
    have hall := entriesAll_iff.mp hreads
    intro hdr hhdr
    rw [emitSection]
    exact (hheader [Ch.lbrack] hdr _ (by decide) (by decide) hhdr).append
      (valid_emitTableChildren hkey hes (fun e he => (hall e he).2)
        (fun e he hsec => ih e he (hall e he).2 hsec) hhdr)
  | @aot ts hne hnodup hkey hes ih =>
    have hall := itemsAll_iff.mp hreads
    intro hdr hhdr
    rw [emitSection]
    clear hne hnodup hreads hsec
    induction ts with
    | nil => exact .nil
    | cons es ts ihts =>
      have hhead := entriesAll_iff.mp (hall (.table .explicit es) (by simp))
      rw [List.map_cons, emitElements]
      refine Utf8.Valid.append ?_ (ihts (fun es h => hkey es (by simp [h]))
        (fun es h => hes es (by simp [h])) (fun es h => ih es (by simp [h]))
        fun v hv => hall v (by simp [hv]))
      exact (hheader _ hdr _ (by decide) (by decide) hhdr).append
        (valid_emitTableChildren (hkey es (by simp)) (hes es (by simp))
          (fun e he => (hhead e he).2)
          (fun e he hsec => ih es (by simp) e he (hhead e he).2 hsec) hhdr)

/-- A document is written as well-formed text. -/
lemma valid_emitDocument {flag : TblFlag} {es : Entries} (hes : GoodEntries IsEntry es)
    (hreads : (Node.table flag es).Reads fc) :
    Utf8.Valid (emitDocument fc (.table flag es)) := by
  have hall := entriesAll_iff.mp hreads
  exact valid_emitTableChildren hes.key hes.value (fun e he => (hall e he).2)
    (fun e he hsec => valid_emitSection (hes.value e he) (hall e he).2 hsec) .nil

/-- The text starts with a byte below `0x80`. -/
def AsciiHead (t : Bytes) : Prop := ∀ c ∈ t.head?, c < 0x80

lemma AsciiHead.append {a b : Bytes} (ha : AsciiHead a) (hb : AsciiHead b) :
    AsciiHead (a ++ b) := by
  cases a with
  | nil => exact hb
  | cons c cs => exact ha

lemma asciiHead_emitKey (key r : Bytes) : AsciiHead (emitKey key ++ r) := by
  rw [emitKey]
  split_ifs with hbare hliteral
  · obtain ⟨c, cs, rfl⟩ := List.exists_cons_of_ne_nil hbare.1
    intro d hd
    obtain rfl := Option.some.inj hd
    exact ascii_of_lt (isBareKey_lt (List.all_eq_true.mp hbare.2 c (by simp)))
  · intro d hd
    obtain rfl := Option.some.inj hd
    decide
  · intro d hd
    obtain rfl := Option.some.inj hd
    decide

/-- No document is written with a byte order mark. -/
lemma skipBom_emitDocument (root : Node) :
    skipBom (emitDocument fc root) = emitDocument fc root := by
  have hnil : AsciiHead [] := by simp [AsciiHead]
  have hbracket : ∀ r, AsciiHead (Ch.lbrack :: r) := by
    intro r d hd
    obtain rfl := Option.some.inj hd
    decide
  have hlines : ∀ es, AsciiHead (emitLines fc es) := by
    intro es
    induction es with
    | nil => exact hnil
    | cons e es ih =>
      rw [emitLines, List.flatMap_cons]
      refine AsciiHead.append ?_ ih
      split_ifs
      · exact hnil
      · rw [List.append_assoc, List.append_assoc]
        exact asciiHead_emitKey _ _
  have hsections : ∀ pfx es, AsciiHead (emitSections fc pfx es) := by
    intro pfx es
    induction es with
    | nil => exact hnil
    | cons e es ih =>
      obtain ⟨k, v⟩ := e
      rw [emitSections]
      refine AsciiHead.append ?_ ih
      split_ifs
      · cases v with
        | table => exact hbracket _
        | array aot items =>
          rw [emitSection]
          cases items with
          | nil => exact hnil
          | cons v items => cases v <;> exact hbracket _
        | _ => exact hnil
      · exact hnil
  have hhead : AsciiHead (emitDocument fc root) := by
    cases root with
    | table flag es => exact (hlines es).append (hsections [] es)
    | _ => exact hnil
  rw [skipBom, if_neg]
  rintro ⟨t, ht⟩
  rw [← ht] at hhead
  exact absurd (hhead 0xEF rfl) (by decide)

end Encoding

/-! ## The tree that is read back -/

/-- The text of a document is run through as its sections are. -/
lemma parse_emitDocument_lines {cfg : Config} {flag : TblFlag} {es : Entries}
    (hes : GoodEntries IsEntry es) (hreads : (Node.table flag es).Reads cfg.fc) :
    parse cfg (emitDocument cfg.fc (.table flag es)) =
      (lines cfg (PState.init (emitDocument cfg.fc (.table flag es)))).map (.table .explicit) := by
  have hvalid := (validateUtf8_iff _).mpr (valid_emitDocument hes hreads)
  rw [parse, parserRun, hvalid]
  dsimp only
  rw [skipBom_emitDocument]

/-- Within the limit the text of a document is parsed, and as `rereadEntries` says; beyond it the
text is not accepted. -/
theorem parse_emitDocument {cfg : Config} (hmax : 8 ≤ cfg.maxDepth) {flag : TblFlag} {es : Entries}
    (hes : GoodEntries IsEntry es) (hreads : (Node.table flag es).Reads cfg.fc) :
    (entriesNest cfg.maxDepth 0 es → parse cfg (emitDocument cfg.fc (.table flag es)) =
      .ok (.table .explicit (rereadEntries es))) ∧
    (¬ entriesNest cfg.maxDepth 0 es → ∀ n, parse cfg (emitDocument cfg.fc (.table flag es)) ≠
      .ok n) := by
  have hall := entriesAll_iff.mp hreads
  have hgoes := @lines_emitTableChildren cfg [] id [] Focus.root (by simp) es hes.nodup
    (fun e he hsec => (hes.value e he).isValue hsec)
    (fun e he hsec => readsSection hmax (hes.value e he) (hall e he).2 hsec) hreads []
  have htext : emitLines cfg.fc es ++ emitSections cfg.fc (pathText []) es ++ [] =
      emitDocument cfg.fc (.table flag es) := List.append_nil _
  rw [htext] at hgoes
  rw [parse_emitDocument_lines hes hreads]
  constructor
  · intro hfits
    obtain ⟨c, cp, hnext⟩ := hgoes.next hfits
    have hstop : lines cfg ⟨[], id (rereadEntries es), c, cp⟩ = .ok (rereadEntries es) :=
      loop_stop rfl
    have hrun : lines cfg (PState.init (emitDocument cfg.fc (.table flag es))) =
        .ok (rereadEntries es) := hnext.trans hstop
    rw [hrun]
    rfl
  · intro hdeep n h
    cases hrun : lines cfg (PState.init (emitDocument cfg.fc (.table flag es))) with
    | ok fs => exact hgoes.stuck hdeep fs hrun
    | error e =>
      rw [hrun] at h
      cases h

/-! ## Emitting it again -/

section Stable

variable (fc : FloatConv)

lemma emitFloat_reread (f : Double) : emitFloat fc f.reread = emitFloat fc f := by
  rw [Double.reread]
  split_ifs with hnan
  · rw [emitFloat, if_pos (by decide), emitFloat, if_pos hnan]
  · rfl

mutual

/-- A value that was read back is emitted as before. -/
lemma emitValue_asValue : ∀ v : Node, emitValue fc v.asValue = emitValue fc v
  | .string _ | .integer _ | .boolean _ | .datetime _ _ => rfl
  | .float f => emitFloat_reread fc f
  | .array _ items => by
    cases items with
    | nil => rfl
    | cons v vs =>
      rw [Node.asValue, itemsAsValue, emitValue, emitItems, emitValue_asValue v,
        emitMoreItems_asValue vs]
      rfl
  | .table _ es => by
    cases es with
    | nil => rfl
    | cons e es =>
      obtain ⟨k, v⟩ := e
      rw [Node.asValue, entriesAsValue, emitValue, emitMembers, emitValue_asValue v,
        emitMoreMembers_asValue es]
      rfl

lemma emitMoreItems_asValue : ∀ vs : List Node,
    emitMoreItems fc (itemsAsValue vs) = emitMoreItems fc vs
  | [] => rfl
  | v :: vs => by
    rw [itemsAsValue, emitMoreItems, emitValue_asValue v, emitMoreItems_asValue vs, emitMoreItems]

lemma emitMoreMembers_asValue : ∀ es : List (Key × Node),
    emitMoreMembers fc (entriesAsValue es) = emitMoreMembers fc es
  | [] => rfl
  | (k, v) :: es => by
    rw [entriesAsValue, emitMoreMembers, emitValue_asValue v, emitMoreMembers_asValue es,
      emitMoreMembers]

end

lemma isSection_asValue (v : Node) : isSection v.asValue = false := by
  cases v <;> rfl

lemma isSection_asSection {v : Node} (h : isSection v = true) : isSection v.asSection = true := by
  cases v with
  | array | table => rfl
  | _ => simp [isSection] at h

/-- The lines of a table that was read back are emitted as before. -/
lemma emitLines_reread (es : Entries) : emitLines fc (rereadEntries es) = emitLines fc es := by
  have hlines : emitLines fc (linesReread es) = emitLines fc es := by
    induction es with
    | nil => rfl
    | cons e es ih =>
      cases hsec : isSection e.2 with
      | true =>
        have hskip : linesReread (e :: es) = linesReread es := by simp [linesReread, hsec]
        rw [hskip, ih]
        simp [emitLines, hsec]
      | false =>
        have hcons : linesReread (e :: es) = (e.1, e.2.asValue) :: linesReread es := by
          simp [linesReread, hsec]
        have hone : ∀ f fs, emitLines fc (f :: fs) = (if isSection f.2 then [] else
            emitKey f.1.bytes ++ eqText ++ emitValue fc f.2 ++ [Ch.lf]) ++ emitLines fc fs :=
          fun _ _ => rfl
        rw [hcons, hone, hone, ih, isSection_asValue, hsec, emitValue_asValue]
  have hsections : emitLines fc (sectionsReread es) = [] := by
    clear hlines
    induction es with
    | nil => rfl
    | cons e es ih =>
      obtain ⟨k, v⟩ := e
      rw [sectionsReread]
      split_ifs with hsec
      · simpa [emitLines, isSection_asSection hsec] using ih
      · exact ih
  have happend : emitLines fc (rereadEntries es) =
      emitLines fc (linesReread es) ++ emitLines fc (sectionsReread es) := List.flatMap_append
  rw [happend, hlines, hsections, List.append_nil]

lemma emitSections_append (pfx : Bytes) (es fs : Entries) :
    emitSections fc pfx (es ++ fs) = emitSections fc pfx es ++ emitSections fc pfx fs := by
  induction es with
  | nil => rfl
  | cons e es ih =>
    obtain ⟨k, v⟩ := e
    rw [List.cons_append, emitSections, emitSections, ih, List.append_assoc]

/-- The values of a table are no sections. -/
lemma emitSections_linesReread (pfx : Bytes) (es : Entries) :
    emitSections fc pfx (linesReread es) = [] := by
  rw [linesReread]
  induction es.filter fun e => !isSection e.2 with
  | nil => rfl
  | cons e es ih =>
    rw [List.map_cons, emitSections, ih, isSection_asValue]
    rfl

mutual

/-- A section that was read back is emitted as before. -/
lemma emitSection_asSection : ∀ (hdr : Bytes) (v : Node),
    emitSection fc hdr v.asSection = emitSection fc hdr v
  | _, .string _ | _, .integer _ | _, .float _ | _, .boolean _ | _, .datetime _ _ => rfl
  | hdr, .array _ items => emitElements_reread hdr items
  | hdr, .table _ es => by
    have hlines := emitLines_reread fc es
    have hsections := emitSections_reread hdr es
    rw [rereadEntries] at hlines
    rw [Node.asSection, emitSection, hlines, emitSections_append, emitSections_linesReread,
      hsections]
    rfl

lemma emitElements_reread : ∀ (hdr : Bytes) (items : List Node),
    emitElements fc hdr (elementsReread items) = emitElements fc hdr items
  | _, [] => rfl
  | hdr, .table _ es :: ts => by
    have hlines := emitLines_reread fc es
    have hsections := emitSections_reread hdr es
    rw [rereadEntries] at hlines
    rw [elementsReread, emitElements, hlines, emitSections_append, emitSections_linesReread,
      hsections, emitElements_reread hdr ts]
    rfl
  | hdr, .string _ :: ts | hdr, .integer _ :: ts | hdr, .float _ :: ts | hdr, .boolean _ :: ts
  | hdr, .datetime _ _ :: ts | hdr, .array _ _ :: ts => by
    simp [elementsReread, emitElements, emitElements_reread hdr ts, emitLines, emitSections]

lemma emitSections_reread : ∀ (pfx : Bytes) (es : List (Key × Node)),
    emitSections fc pfx (sectionsReread es) = emitSections fc pfx es
  | _, [] => rfl
  | pfx, (k, v) :: es => by
    have hrest := emitSections_reread pfx es
    rw [sectionsReread, emitSections]
    split_ifs with hsec
    · rw [emitSections, isSection_asSection hsec, if_pos rfl, emitSection_asSection _ v, hrest]
    · exact hrest

end

/-- The tree that is read back is emitted as the tree that was written. -/
lemma emit_reread (flag : TblFlag) (es : Entries) :
    emitDocument fc (.table .explicit (rereadEntries es)) = emitDocument fc (.table flag es) := by
  have hlines := emitLines_reread fc es
  have hsections := emitSections_reread fc [] es
  rw [rereadEntries] at hlines
  rw [emitDocument, emitTableChildren, rereadEntries, hlines, emitSections_append,
    emitSections_linesReread, hsections]
  rfl

end Stable

/-! ## Keys with DEL -/

section Del

variable {fc : FloatConv}

/-- The bytes of a member are bytes of the list it is written in. -/
lemma mem_moreText {β : Type} {text : β → Bytes} {x y : β} {xs : List β} (hy : y ∈ x :: xs)
    {c : UInt8} (hc : c ∈ text y) : c ∈ text x ++ moreText text xs := by
  rcases List.mem_cons.mp hy with rfl | hy
  · exact List.mem_append_left _ hc
  · exact List.mem_append_right _ (List.mem_flatMap.mpr ⟨y, hy, List.mem_append_right _ hc⟩)

/-- The text of a pair holds those of its key and of its value. -/
lemma mem_pairText {e : Key × Node} {c : UInt8}
    (h : c ∈ emitKey e.1.bytes ∨ c ∈ emitValue fc e.2) : c ∈ pairText fc e := by
  simp only [pairText, List.mem_append]
  tauto

/-- A value whose text is without DEL has keys without DEL. -/
lemma clean_of_emitValue {v : Node} (hv : IsValue v) (h : Ch.del ∉ emitValue fc v) :
    v.All (fun k => Ch.del ∉ k) fun _ => True := by
  induction hv with
  | string | integer | float | boolean | datetime => exact trivial
  | @array items hitems ih =>
    refine itemsAll_iff.mpr fun v hv => ih v hv fun hdel => h ?_
    cases items with
    | nil => exact absurd hv List.not_mem_nil
    | cons w ws =>
      have := mem_moreText hv hdel
      simp only [emitValue, emitItems_cons, List.cons_append, List.mem_cons, List.mem_append]
        at this ⊢
      tauto
  | @table flag es hflag hnodup hkey hes ih =>
    have hpair : ∀ e ∈ es, Ch.del ∉ pairText fc e := by
      intro e he hdel
      refine h ?_
      cases es with
      | nil => exact absurd he List.not_mem_nil
      | cons f fs =>
        have := mem_moreText he hdel
        simp only [emitValue, emitMembers_cons, List.cons_append, List.mem_cons, List.mem_append]
          at this ⊢
        tauto
    exact entriesAll_iff.mpr fun e he => ⟨fun hdel => hpair e he
      (mem_pairText (.inl (del_mem_emitKey hdel))),
      ih e he fun hdel => hpair e he (mem_pairText (.inr hdel))⟩

/-- The header path of a section stands in its text. -/
lemma mem_emitSection {v : Node} (hv : IsEntry v) (hsec : isSection v = true) {hdr : Bytes}
    {c : UInt8} (hc : c ∈ hdr) : c ∈ emitSection fc hdr v := by
  cases hv with
  | value h hflag =>
    rw [h.not_section hflag] at hsec
    exact absurd hsec (by decide)
  | table =>
    rw [emitSection]
    simp [hc]
  | @aot ts hne =>
    obtain ⟨es, ts, rfl⟩ := List.exists_cons_of_ne_nil hne
    rw [emitSection, List.map_cons, emitElements]
    simp [hc]

/-- A table whose lines and sections are without DEL has keys without DEL. -/
lemma clean_of_emitTableChildren {pfx : Bytes} {es : Entries} (hes : ∀ e ∈ es, IsEntry e.2)
    (hsections : ∀ e ∈ es, isSection e.2 = true → ∀ hdr, Ch.del ∉ emitSection fc hdr e.2 →
      e.2.All (fun k => Ch.del ∉ k) fun _ => True)
    (h : Ch.del ∉ emitLines fc es ++ emitSections fc pfx es) :
    entriesAll (fun k => Ch.del ∉ k) (fun _ => True) es := by
  induction es with
  | nil => exact trivial
  | cons e es ih =>
    obtain ⟨k, v⟩ := e
    have hentry := hes (k, v) (by simp)
    have hone : emitLines fc ((k, v) :: es) = (if isSection v then [] else
        pairText fc (k, v) ++ [Ch.lf]) ++ emitLines fc es := rfl
    rw [hone, emitSections] at h
    simp only [List.mem_append, not_or] at h
    obtain ⟨⟨hline, hlines⟩, hsection, hmore⟩ := h
    have htail := ih (fun f hf => hes f (by simp [hf])) (fun f hf => hsections f (by simp [hf]))
      (by simp only [List.mem_append, not_or]; exact ⟨hlines, hmore⟩)
    cases hsec : isSection v with
    | false =>
      rw [hsec, if_neg (by decide)] at hline
      have hpair : Ch.del ∉ pairText fc (k, v) := fun hdel => hline (List.mem_append_left _ hdel)
      exact ⟨fun hdel => hpair (mem_pairText (.inl (del_mem_emitKey hdel))),
        clean_of_emitValue (hentry.isValue hsec) fun hdel => hpair (mem_pairText (.inr hdel)),
        htail⟩
    | true =>
      rw [if_pos hsec] at hsection
      have hkey : Ch.del ∉ k.bytes := by
        intro hdel
        have hpath : Ch.del ∈ headerPath pfx k.bytes :=
          List.mem_append_right _ (del_mem_emitKey hdel)
        exact hsection (mem_emitSection hentry hsec hpath)
      exact ⟨hkey, hsections (k, v) (by simp) hsec _ hsection, htail⟩

/-- A section whose text is without DEL has keys without DEL. -/
lemma clean_of_emitSection {v : Node} (hv : IsEntry v) (hsec : isSection v = true) :
    ∀ hdr, Ch.del ∉ emitSection fc hdr v → v.All (fun k => Ch.del ∉ k) fun _ => True := by
  induction hv with
  | value h hflag =>
    rw [h.not_section hflag] at hsec
    exact absurd hsec (by decide)
  | @table flag es hflag hnodup hkey hes ih =>
    intro hdr h
    rw [emitSection] at h
    exact clean_of_emitTableChildren hes ih fun hdel => h (List.mem_append_right _ hdel)
  | @aot ts hne hnodup hkey hes ih =>
    intro hdr h
    rw [emitSection] at h
    refine itemsAll_iff.mpr fun v hv => ?_
    obtain ⟨es, hmem, rfl⟩ := List.mem_map.mp hv
    refine @clean_of_emitTableChildren fc hdr es (hes es hmem) (ih es hmem) fun hdel => h ?_
    clear h ih hes hkey hnodup hne hv hsec
    induction ts with
    | nil => exact absurd hmem List.not_mem_nil
    | cons fs ts ihts =>
      rw [List.map_cons, emitElements]
      rcases List.mem_cons.mp hmem with rfl | hmem
      · exact List.mem_append_left _ (List.mem_append_right _ hdel)
      · exact List.mem_append_right _ (ihts hmem)

/-- A document whose text is without DEL has keys without DEL. -/
lemma clean_of_emitDocument {flag : TblFlag} {es : Entries} (hes : ∀ e ∈ es, IsEntry e.2)
    (h : Ch.del ∉ emitDocument fc (.table flag es)) :
    (Node.table flag es).All (fun k => Ch.del ∉ k) fun _ => True :=
  clean_of_emitTableChildren hes (fun e he hsec => clean_of_emitSection (hes e he) hsec) h

end Del

/-! ## Documents the parser accepts -/

/-- The finite floats of a document are kept by the conversions: what `ryu` writes rounds to the
float, and what rounds to the float is read as it. -/
def Node.FloatsKept (fc : FloatConv) (n : Node) : Prop :=
  n.All (fun _ => True) fun v => ∀ f, v = .float f → f.isFinite = true → fc.RoundTrips f

/-- The scalars of a document are read back. -/
lemma Node.FloatsKept.reads {fc : FloatConv} {n : Node} (h : n.FloatsKept fc)
    (hclean : n.All (fun k => Ch.del ∉ k) fun _ => True) (hok : n.All Utf8.Valid Node.ScalarOk) :
    n.Reads fc := by
  refine Node.All.imp (fun k hk => hk.1.1) ?_ n (Node.All.and n (Node.All.and n hclean hok) h)
  rintro v ⟨⟨-, hscalar⟩, hfloat⟩
  cases v with
  | float f => exact hfloat f rfl
  | datetime kind dt => exact hscalar
  | _ => exact trivial

/-- A parse of an emitted document, under any options, gives the tree of `rereadEntries`. -/
lemma parse_emit_eq {cfg : Config} {flag : TblFlag} {es : Entries} {n : Node}
    (hes : GoodEntries IsEntry es) (hfloats : (Node.table flag es).FloatsKept cfg.fc)
    (h : parse cfg (emitDocument cfg.fc (.table flag es)) = .ok n) :
    n = .table .explicit (rereadEntries es) := by
  have hclean := @clean_of_emitDocument cfg.fc flag es hes.value (parse_clean h)
  have hok : (Node.table flag es).All Utf8.Valid Node.ScalarOk :=
    entriesAll_iff.mpr fun e he => ⟨hes.key e he, (hes.value e he).all⟩
  -- the limit does not matter where the text is accepted
  let wide : Config := ⟨cfg.fc, cfg.maxDepth + (entriesHeight es + 8),
    Nat.add_pos_left cfg.maxDepth_pos _⟩
  have hwide : parse wide (emitDocument cfg.fc (.table flag es)) = .ok n :=
    @parse_mono cfg wide rfl (Nat.le_add_right _ _) _ _ h
  have hmax : 8 ≤ wide.maxDepth := by
    show 8 ≤ cfg.maxDepth + (entriesHeight es + 8)
    omega
  have hfits : entriesNest wide.maxDepth 0 es := by
    refine entriesNest_of_height ?_
    show 0 + entriesHeight es ≤ cfg.maxDepth + (entriesHeight es + 8)
    omega
  have hread := (@parse_emitDocument wide hmax flag es hes (hfloats.reads hclean hok)).1 hfits
  exact Except.ok.inj (hwide.symm.trans hread)

/-- Emitting is a fixed point: a document the parser accepts, whose text is accepted again, is
emitted as the same text after that. -/
theorem emit_fixed_point {cfg cfg' : Config} (hfc : cfg'.fc = cfg.fc) {data : Bytes} {n n' : Node}
    (h : parse cfg data = .ok n) (hfloats : n.FloatsKept cfg.fc)
    (h' : parse cfg' (emitDocument cfg.fc n) = .ok n') :
    emitDocument cfg.fc n' = emitDocument cfg.fc n := by
  obtain ⟨es, rfl, hes⟩ := parse_good h
  rw [← hfc] at h' hfloats ⊢
  rw [parse_emit_eq hes hfloats h']
  exact emit_reread _ _ es

/-- The document `[a.b]`, `c=1.5`. -/
def nestedDocument : Bytes :=
  [Ch.lbrack, 0x61, Ch.dot, 0x62, Ch.rbrack, Ch.lf, 0x63, Ch.eq, 0x31, Ch.dot, 0x35]

/-- The tree of `[a.b]`, `c=1.5`, with the flag of its table `a`. -/
def nestedTree (flag : TblFlag) : Node :=
  .table .explicit [(Key.ofBytes [0x61], .table flag [(Key.ofBytes [0x62],
    .table .explicit [(Key.ofBytes [0x63], .float threeHalves)])])]

lemma nestedTree_kept : (nestedTree .implicit).FloatsKept FloatConv.threeHalves := by
  refine ⟨trivial, ⟨trivial, ⟨trivial, ?_, trivial⟩, trivial⟩, trivial⟩
  intro f hf _
  obtain rfl := Node.float.inj hf
  have hsome : ∀ g ∈ some threeHalves, g = threeHalves := fun g hg => (Option.some.inj hg).symm
  exact ⟨writes_threeHalves, by decide, fun _ _ => hsome, fun _ _ => rfl, fun _ _ _ => rfl,
    fun _ _ _ => rfl⟩

/-- The table `a` of `[a.b]` gets a header of its own in the text, and keeps it. -/
theorem emit_fixed_point_nested :
    parse (.ofOptions .threeHalves 0) nestedDocument = .ok (nestedTree .implicit) ∧
      parse (.ofOptions .threeHalves 0) (emitDocument .threeHalves (nestedTree .implicit)) =
        .ok (nestedTree .explicit) ∧
      emitDocument .threeHalves (nestedTree .explicit) =
        emitDocument .threeHalves (nestedTree .implicit) := by
  have hparse : parse (.ofOptions .threeHalves 0) nestedDocument = .ok (nestedTree .implicit) := rfl
  have hagain : parse (.ofOptions .threeHalves 0)
      (emitDocument .threeHalves (nestedTree .implicit)) = .ok (nestedTree .explicit) := rfl
  exact ⟨hparse, hagain, @emit_fixed_point (.ofOptions .threeHalves 0) _ rfl _ _ _ hparse
    nestedTree_kept hagain⟩

end Teptris
