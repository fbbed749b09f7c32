import Teptris.Emit.Builder
import Teptris.Emit.Encoding

/-!
# The writer agrees with the emitter

The canonical ops of a tree, and the simulation between the writer's frame stack and the
recursion of the emitter: running the ops of a part of the tree appends the text the emitter has
for that part, and leaves the frames around it as they were.
-/

namespace Teptris

/-! ## Canonical ops -/

mutual

/-- The ops of a value.  An empty container takes one op or two, as `short` says. -/
def valueOps (short : Bool) : Node → List WOp
  | .string s => [.string s]
  | .integer i => [.int i]
  | .float f => [.float f]
  | .boolean b => [.bool b]
  | .datetime kind dt => [.datetime kind dt]
  | .array _ items =>
    if short ∧ items.isEmpty then [.emptyArray]
    else .beginArray :: itemsOps short items ++ [.close]
  | .table _ es =>
    if short ∧ es.isEmpty then [.emptyTable]
    else .beginInlineTable :: membersOps short es ++ [.close]

/-- The ops of the elements of an array. -/
def itemsOps (short : Bool) : List Node → List WOp
  | [] => []
  | v :: vs => valueOps short v ++ itemsOps short vs

/-- The ops of the members of an inline table. -/
def membersOps (short : Bool) : List (Key × Node) → List WOp
  | [] => []
  | (k, v) :: es => .key k.bytes :: valueOps short v ++ membersOps short es

end

/-- The ops of the values of a table. -/
def linesOps (short : Bool) (es : Entries) : List WOp :=
  es.flatMap fun e => if isSection e.2 then [] else .key e.1.bytes :: valueOps short e.2

mutual

/-- The ops of a section. -/
def sectionOps (short : Bool) : Node → List WOp
  | .array _ items => .beginAot :: elementsOps short items ++ [.close]
  | .table _ es =>
    .beginTable :: (linesOps short es ++ sectionsOps short es) ++ [.close]
  | _ => []

/-- The ops of the elements of an array of tables. -/
def elementsOps (short : Bool) : List Node → List WOp
  | [] => []
  | .table _ es :: ts =>
    .beginTable :: (linesOps short es ++ sectionsOps short es) ++ [.close] ++
      elementsOps short ts
  | _ :: ts => [.beginTable, .close] ++ elementsOps short ts

/-- The ops of the sections of a table. -/
def sectionsOps (short : Bool) : List (Key × Node) → List WOp
  | [] => []
  | (k, v) :: es =>
    (if isSection v then .key k.bytes :: sectionOps short v else []) ++ sectionsOps short es

end

/-- The canonical ops of a document: in every table the values come before the sections. -/
def documentOps (short : Bool) (root : Node) : List WOp :=
  match root with
  | .table _ es => linesOps short es ++ sectionsOps short es
  | _ => []

/-! ## Values -/

namespace Writer

variable {fc : FloatConv} {short : Bool}

/-- The frame and the pending key let a value in. -/
def Ready (f : WFrame) (key : Option Bytes) : Prop :=
  match f.kind with
  | .array => key = none
  | .itab | .table => key.isSome ∧ f.sawSubtable = false
  | .aot => False

/-- The text in front of a value. -/
def lead (f : WFrame) (key : Option Bytes) : Bytes :=
  (if f.kind ≠ .table ∧ f.first then sepText else []) ++
    key.elim [] fun k => emitKey k ++ eqText

/-- The frame behind a value. -/
def after (f : WFrame) : WFrame := if f.kind = .table then f else { f with first := true }

/-- The text behind a value. -/
def trail (f : WFrame) : Bytes := if f.kind = .table then [Ch.lf] else []

@[simp] lemma after_kind (f : WFrame) : (after f).kind = f.kind := by
  rw [after]; split_ifs <;> rfl

@[simp] lemma after_saw (f : WFrame) : (after f).sawSubtable = f.sawSubtable := by
  rw [after]; split_ifs <;> rfl

lemma after_first {f : WFrame} (h : f.kind ≠ .table) : (after f).first = true := by
  rw [after, if_neg h]

@[simp] lemma trail_after (f : WFrame) : trail (after f) = trail f := by
  rw [trail, trail, after_kind]

variable {out : Bytes} {key : Option Bytes} {f : WFrame} {fs : List WFrame} {fin : Bool}

/-- A value on one line. -/
lemma value_ready (h : Ready f key) (text : Bytes) :
    value ⟨out, key, f :: fs, fin, none⟩ text =
      ⟨out ++ (lead f key ++ text ++ trail f), none, after f :: fs, fin, none⟩ := by
  obtain ⟨kind, fkey, first, saw⟩ := f
  cases kind <;> cases first <;> cases key <;>
    simp_all [Ready, value, keyedPrefix, topKind, topSawSubtable, sepVal, put, modifyTop,
      clearKey, endLine, lead, after, trail]

/-- An opening bracket of an array. -/
lemma beginArray_ready (h : Ready f key) :
    beginArray ⟨out, key, f :: fs, fin, none⟩ =
      ⟨out ++ (lead f key ++ [Ch.lbrack]), none, { kind := .array } :: after f :: fs, fin,
        none⟩ := by
  obtain ⟨kind, fkey, first, saw⟩ := f
  cases kind <;> cases first <;> cases key <;>
    simp_all [Ready, beginArray, openKeyed, topKind, topSawSubtable, sepVal, put, modifyTop,
      clearKey, push, lead, after]

/-- An opening brace of an inline table. -/
lemma beginInlineTable_ready (h : Ready f key) :
    beginInlineTable ⟨out, key, f :: fs, fin, none⟩ =
      ⟨out ++ (lead f key ++ [Ch.lbrace]), none, { kind := .itab } :: after f :: fs, fin,
        none⟩ := by
  obtain ⟨kind, fkey, first, saw⟩ := f
  cases kind <;> cases first <;> cases key <;>
    simp_all [Ready, beginInlineTable, openKeyed, topKind, topSawSubtable, sepVal, put,
      modifyTop, clearKey, push, lead, after]

/-- A closing bracket. -/
lemma close_array {g : WFrame} (hg : g.kind = .array) :
    close ⟨out, key, g :: f :: fs, fin, none⟩ =
      ⟨out ++ ([Ch.rbrack] ++ trail f), key, f :: fs, fin, none⟩ := by
  by_cases hf : f.kind = .table <;> simp [close, hg, put, endLine, topKind, trail, hf]

/-- A closing brace. -/
lemma close_itab {g : WFrame} (hg : g.kind = .itab) :
    close ⟨out, key, g :: f :: fs, fin, none⟩ =
      ⟨out ++ ([Ch.rbrace] ++ trail f), key, f :: fs, fin, none⟩ := by
  by_cases hf : f.kind = .table <;> simp [close, hg, put, endLine, topKind, trail, hf]

/-- The end of a section, or of an array of tables. -/
lemma close_section {g : WFrame} (hg : g.kind = .table ∨ g.kind = .aot) :
    close ⟨out, key, g :: f :: fs, fin, none⟩ = ⟨out, key, f :: fs, fin, none⟩ := by
  obtain hg | hg := hg <;> simp [close, hg]

lemma runOps_cons (op : WOp) (ops : List WOp) :
    runOps fc ⟨out, key, fs, fin, none⟩ (op :: ops) =
      (apply fc ⟨out, key, fs, fin, none⟩ op).runOps fc ops := by
  simp [runOps]

lemma runOps_singleton (op : WOp) :
    runOps fc ⟨out, key, fs, fin, none⟩ [op] = apply fc ⟨out, key, fs, fin, none⟩ op := by
  simp [runOps]

/-- What the elements of an array add to its frame. -/
def itemsText (fc : FloatConv) (first : Bool) (vs : List Node) : Bytes :=
  if first then emitMoreItems fc vs else emitItems fc vs

/-- What the members of an inline table add to its frame. -/
def membersText (fc : FloatConv) (first : Bool) (es : List (Key × Node)) : Bytes :=
  if first then emitMoreMembers fc es else emitMembers fc es

mutual

/-- The ops of a value put its text between the frame's own. -/
lemma runOps_value (v : Node) (out : Bytes) (key : Option Bytes) (f : WFrame)
    (fs : List WFrame) (h : Ready f key) :
    runOps fc ⟨out, key, f :: fs, fin, none⟩ (valueOps short v) =
      ⟨out ++ (lead f key ++ emitValue fc v ++ trail f), none, after f :: fs, fin, none⟩ := by
  cases v with
  | string | integer | float | boolean | datetime =>
    rw [valueOps, runOps_singleton]
    exact value_ready h _
  | array aot items =>
    rw [valueOps]
    split_ifs with hempty
    · obtain rfl : items = [] := by simpa using hempty.2
      rw [runOps_singleton, apply]
      simpa [emitValue, emitItems] using value_ready h [Ch.lbrack, Ch.rbrack]
    · rw [List.cons_append, runOps_cons, runOps_append, apply, beginArray_ready h]
      obtain ⟨g, hg, hrun⟩ := runOps_items items (out ++ (lead f key ++ [Ch.lbrack]))
        { kind := .array } (after f :: fs) rfl
      rw [hrun, runOps_singleton, apply, close_array hg]
      simp [emitValue, itemsText]
  | table flag es =>
    rw [valueOps]
    split_ifs with hempty
    · obtain rfl : es = [] := by simpa using hempty.2
      rw [runOps_singleton, apply]
      simpa [emitValue, emitMembers] using value_ready h [Ch.lbrace, Ch.rbrace]
    · rw [List.cons_append, runOps_cons, runOps_append, apply, beginInlineTable_ready h]
      obtain ⟨g, hg, -, hrun⟩ := runOps_members es (out ++ (lead f key ++ [Ch.lbrace]))
        { kind := .itab } (after f :: fs) rfl rfl
      rw [hrun, runOps_singleton, apply, close_itab hg]
      simp [emitValue, membersText]

/-- The ops of elements put their texts behind what the array holds. -/
lemma runOps_items (vs : List Node) (out : Bytes) (f : WFrame) (fs : List WFrame)
    (hf : f.kind = .array) :
    ∃ g : WFrame, g.kind = .array ∧
      runOps fc ⟨out, none, f :: fs, fin, none⟩ (itemsOps short vs) =
        ⟨out ++ itemsText fc f.first vs, none, g :: fs, fin, none⟩ := by
  cases vs with
  | nil =>
    refine ⟨f, hf, ?_⟩
    cases hfirst : f.first <;> simp [itemsOps, runOps, itemsText, emitItems, emitMoreItems]
  | cons v vs =>
    have hready : Ready f none := by simp [Ready, hf]
    obtain ⟨g, hg, hrun⟩ := runOps_items vs
      (out ++ (lead f none ++ emitValue fc v ++ trail f)) (after f) fs (by simpa using hf)
    refine ⟨g, hg, ?_⟩
    rw [itemsOps, runOps_append, runOps_value v _ _ _ _ hready, hrun,
      after_first (by simp [hf])]
    cases hfirst : f.first <;>
      simp [itemsText, emitItems, emitMoreItems, lead, trail, hf, hfirst]

/-- The ops of members put their texts behind what the inline table holds. -/
lemma runOps_members (es : List (Key × Node)) (out : Bytes) (f : WFrame) (fs : List WFrame)
    (hf : f.kind = .itab) (hsaw : f.sawSubtable = false) :
    ∃ g : WFrame, g.kind = .itab ∧ g.sawSubtable = false ∧
      runOps fc ⟨out, none, f :: fs, fin, none⟩ (membersOps short es) =
        ⟨out ++ membersText fc f.first es, none, g :: fs, fin, none⟩ := by
  match es with
  | [] =>
    refine ⟨f, hf, hsaw, ?_⟩
    cases hfirst : f.first <;>
      simp [membersOps, runOps, membersText, emitMembers, emitMoreMembers]
  | (k, v) :: es =>
    have hready : Ready f (some k.bytes) := by simp [Ready, hf, hsaw]
    obtain ⟨g, hg, hgsaw, hrun⟩ := runOps_members es
      (out ++ (lead f (some k.bytes) ++ emitValue fc v ++ trail f)) (after f) fs
      (by simpa using hf) (by simpa using hsaw)
    refine ⟨g, hg, hgsaw, ?_⟩
    rw [membersOps, List.cons_append, runOps_cons, runOps_append, apply,
      runOps_value v _ _ _ _ hready, hrun, after_first (by simp [hf])]
    cases hfirst : f.first <;>
      simp [membersText, emitMembers, emitMoreMembers, lead, trail, hf, hfirst]

end

/-! ## Sections -/

/-- The keys of all the sections of a stack, outermost first. -/
def sectionKeys (stack : List WFrame) : List Bytes :=
  stack.reverse.filterMap fun f => if f.kind = .table ∨ f.kind = .aot then f.key else none

/-- Up to 600 frames, the path reads the whole stack. -/
lemma pathKeys_eq {w : Writer} (h : w.stack.length ≤ 600) : w.pathKeys = sectionKeys w.stack := by
  rw [pathKeys, sectionKeys, List.take_of_length_le h]

lemma sectionKeys_table (k : Bytes) (fs : List WFrame) :
    sectionKeys ({ kind := .table, key := some k } :: fs) = sectionKeys fs ++ [k] := by
  simp [sectionKeys]

lemma sectionKeys_aot (k : Bytes) (fs : List WFrame) :
    sectionKeys ({ kind := .aot, key := some k } :: fs) = sectionKeys fs ++ [k] := by
  simp [sectionKeys]

lemma sectionKeys_element (fs : List WFrame) :
    sectionKeys ({ kind := .table } :: fs) = sectionKeys fs := by
  simp [sectionKeys]

lemma sectionKeys_saw (f : WFrame) (saw : Bool) (fs : List WFrame) :
    sectionKeys ({ f with sawSubtable := saw } :: fs) = sectionKeys (f :: fs) := by
  simp [sectionKeys, List.filterMap_cons]

/-- A key is never written as no text. -/
lemma emitKey_ne_nil (k : Bytes) : emitKey k ≠ [] := by
  rw [emitKey]
  split_ifs with hbare
  · exact hbare.1
  · simp [literalText]
  · simp

lemma joinKeys_eq_nil {ks : List Bytes} : joinKeys ks = [] ↔ ks = [] := by
  obtain _ | ⟨k, _ | ⟨k', ks⟩⟩ := ks
  · simp [joinKeys]
  · simp [joinKeys, emitKey_ne_nil]
  · simp [joinKeys, List.intercalate, emitKey_ne_nil]

/-- A path with one more key is the emitter's header path. -/
lemma joinKeys_snoc (ks : List Bytes) (k : Bytes) :
    joinKeys (ks ++ [k]) = headerPath (joinKeys ks) k := by
  induction ks with
  | nil => simp [joinKeys, headerPath]
  | cons k' ks ih =>
    have hcons : ∀ ks : List Bytes, ks ≠ [] →
        joinKeys (k' :: ks) = emitKey k' ++ [Ch.dot] ++ joinKeys ks := by
      intro ks hks
      obtain ⟨k'', ks, rfl⟩ := List.exists_cons_of_ne_nil hks
      simp [joinKeys, List.intercalate]
    rw [List.cons_append, hcons _ (by simp), ih]
    by_cases hks : ks = []
    · simp [hks, headerPath, joinKeys, emitKey_ne_nil]
    · simp [headerPath, hcons _ hks, joinKeys_eq_nil, hks, emitKey_ne_nil]

/-- The ops of the values of a table are its lines. -/
lemma runOps_lines (es : Entries) (hf : f.kind = .table) (hsaw : f.sawSubtable = false) :
    ∀ out : Bytes, runOps fc ⟨out, none, f :: fs, fin, none⟩ (linesOps short es) =
      ⟨out ++ emitLines fc es, none, f :: fs, fin, none⟩ := by
  induction es with
  | nil => simp [linesOps, emitLines, runOps]
  | cons e es ih =>
    intro out
    have hready : Ready f (some e.1.bytes) := by simp [Ready, hf, hsaw]
    have hafter : after f = f := by simp [after, hf]
    rw [linesOps, List.flatMap_cons, emitLines, List.flatMap_cons, ← linesOps, ← emitLines]
    split_ifs with hsec
    · simpa using ih out
    · rw [List.cons_append, runOps_cons, runOps_append, apply, runOps_value _ _ _ _ _ hready,
        hafter, ih]
      simp [lead, trail, hf]

/-- The frame of a table opened, and the header in front of it. -/
lemma beginTable_keyed (hf : f.kind = .table) (hlen : (f :: fs).length ≤ 600) (k : Bytes) :
    beginTable ⟨out, some k, f :: fs, fin, none⟩ =
      ⟨out ++ (Ch.lbrack :: headerPath (joinKeys (sectionKeys (f :: fs))) k ++
          [Ch.rbrack, Ch.lf]), none,
        { kind := .table, key := some k } :: { f with sawSubtable := true } :: fs, fin, none⟩ := by
  obtain ⟨kind, fkey, first, saw⟩ := f
  obtain rfl : kind = .table := hf
  have hkeys : pathKeys ⟨out, some k, ⟨.table, fkey, first, true⟩ :: fs, fin, none⟩ =
      sectionKeys (⟨.table, fkey, first, saw⟩ :: fs) :=
    (pathKeys_eq (by simpa using hlen)).trans (sectionKeys_saw ⟨.table, fkey, first, saw⟩ true fs)
  simp [beginTable, topKind, modifyTop, path, hkeys, joinKeys_snoc, put, clearKey, push]

/-- The frame of an element opened, and the header in front of it. -/
lemma beginTable_element (hf : f.kind = .aot) (hlen : (f :: fs).length ≤ 600) :
    beginTable ⟨out, none, f :: fs, fin, none⟩ =
      ⟨out ++ ([Ch.lbrack, Ch.lbrack] ++ joinKeys (sectionKeys (f :: fs)) ++
          [Ch.rbrack, Ch.rbrack, Ch.lf]), none, { kind := .table } :: f :: fs, fin, none⟩ := by
  have hkeys : pathKeys ⟨out, none, f :: fs, fin, none⟩ = sectionKeys (f :: fs) :=
    pathKeys_eq hlen
  simp [beginTable, topKind, hf, path, hkeys, put, clearKey, push]

/-- The frame of an array of tables opened. -/
lemma beginAot_keyed (hf : f.kind = .table) (k : Bytes) :
    beginAot ⟨out, some k, f :: fs, fin, none⟩ =
      ⟨out, none, { kind := .aot, key := some k } :: { f with sawSubtable := true } :: fs, fin,
        none⟩ := by
  simp [beginAot, topKind, hf, modifyTop, clearKey, push]

mutual

/-- The ops of a section are the text under its header. -/
lemma runOps_section (v : Node) (hsec : isSection v) (out : Bytes) (f : WFrame)
    (fs : List WFrame) (k : Bytes) (hf : f.kind = .table)
    (hlen : (f :: fs).length + v.height ≤ 600) :
    runOps fc ⟨out, some k, f :: fs, fin, none⟩ (sectionOps short v) =
      ⟨out ++ emitSection fc (headerPath (joinKeys (sectionKeys (f :: fs))) k) v, none,
        { f with sawSubtable := true } :: fs, fin, none⟩ := by
  cases v with
  | string | integer | float | boolean | datetime => exact absurd hsec (by simp [isSection])
  | array aot items =>
    simp only [Node.height, List.length_cons] at hlen
    rw [sectionOps, List.cons_append, runOps_cons, runOps_append, apply, beginAot_keyed hf,
      runOps_elements items _ _ _ rfl (by simp only [List.length_cons]; omega), runOps_singleton,
      apply, close_section (Or.inr rfl), sectionKeys_aot, sectionKeys_saw f true fs,
      joinKeys_snoc, emitSection]
  | table flag es =>
    simp only [Node.height, List.length_cons] at hlen
    rw [sectionOps, List.cons_append, runOps_cons, runOps_append, apply,
      beginTable_keyed hf (by simp only [List.length_cons]; omega), runOps_append,
      runOps_lines es rfl rfl]
    obtain ⟨saw, hrun⟩ := runOps_sections es
      (out ++ (Ch.lbrack :: headerPath (joinKeys (sectionKeys (f :: fs))) k ++
          [Ch.rbrack, Ch.lf]) ++ emitLines fc es)
      { kind := .table, key := some k } ({ f with sawSubtable := true } :: fs) rfl
      (by simp only [List.length_cons]; omega)
    rw [hrun, runOps_singleton, apply, close_section (Or.inl rfl), sectionKeys_table,
      sectionKeys_saw f true fs, joinKeys_snoc, emitSection]
    simp

/-- The ops of the elements of an array of tables are the texts under their headers. -/
lemma runOps_elements (ts : List Node) (out : Bytes) (f : WFrame) (fs : List WFrame)
    (hf : f.kind = .aot) (hlen : (f :: fs).length + itemsHeight ts ≤ 600) :
    runOps fc ⟨out, none, f :: fs, fin, none⟩ (elementsOps short ts) =
      ⟨out ++ emitElements fc (joinKeys (sectionKeys (f :: fs))) ts, none, f :: fs, fin,
        none⟩ := by
  have hopen : (f :: fs).length ≤ 600 := by omega
  match ts with
  | [] => simp [elementsOps, emitElements, runOps]
  | .table flag es :: ts =>
    simp only [itemsHeight, Node.height, List.length_cons] at hlen
    rw [elementsOps, List.cons_append, List.cons_append, runOps_cons, runOps_append,
      runOps_append, apply, beginTable_element hf hopen, runOps_append, runOps_lines es rfl rfl]
    obtain ⟨saw, hrun⟩ := runOps_sections es
      (out ++ ([Ch.lbrack, Ch.lbrack] ++ joinKeys (sectionKeys (f :: fs)) ++
          [Ch.rbrack, Ch.rbrack, Ch.lf]) ++ emitLines fc es)
      { kind := .table } (f :: fs) rfl (by simp only [List.length_cons]; omega)
    rw [hrun, runOps_singleton, apply, close_section (Or.inl rfl),
      runOps_elements ts _ _ _ hf (by simp only [List.length_cons]; omega), sectionKeys_element,
      emitElements]
    simp
  | .string _ :: ts | .integer _ :: ts | .float _ :: ts | .boolean _ :: ts
  | .datetime _ _ :: ts | .array _ _ :: ts =>
    simp only [itemsHeight, List.length_cons] at hlen
    rw [elementsOps, List.cons_append, List.cons_append, runOps_cons, apply,
      beginTable_element hf hopen, runOps_cons, apply, close_section (Or.inl rfl), List.nil_append,
      runOps_elements ts _ _ _ hf (by simp only [List.length_cons]; omega), emitElements]
    all_goals simp

/-- The ops of the sections of a table are their texts. -/
lemma runOps_sections (es : List (Key × Node)) (out : Bytes) (f : WFrame) (fs : List WFrame)
    (hf : f.kind = .table) (hlen : (f :: fs).length + entriesHeight es ≤ 600) :
    ∃ saw, runOps fc ⟨out, none, f :: fs, fin, none⟩ (sectionsOps short es) =
      ⟨out ++ emitSections fc (joinKeys (sectionKeys (f :: fs))) es, none,
        { f with sawSubtable := saw } :: fs, fin, none⟩ := by
  match es with
  | [] => exact ⟨f.sawSubtable, by simp [sectionsOps, emitSections, runOps]⟩
  | (k, v) :: es =>
    simp only [entriesHeight, List.length_cons] at hlen
    rw [sectionsOps, emitSections]
    by_cases hsec : isSection v
    · obtain ⟨saw, hrun⟩ := runOps_sections es
        (out ++ emitSection fc (headerPath (joinKeys (sectionKeys (f :: fs))) k.bytes) v)
        { f with sawSubtable := true } fs hf
        (by simp only [List.length_cons]; omega)
      refine ⟨saw, ?_⟩
      rw [if_pos hsec, if_pos hsec, List.cons_append, runOps_cons, runOps_append, apply,
        runOps_section v hsec _ _ _ k.bytes hf (by simp only [List.length_cons]; omega), hrun,
        sectionKeys_saw f true fs]
      simp
    · obtain ⟨saw, hrun⟩ := runOps_sections es out f fs hf
        (by simp only [List.length_cons]; omega)
      refine ⟨saw, ?_⟩
      rw [if_neg hsec, if_neg hsec, List.nil_append, List.nil_append, hrun]

end

/-- The canonical ops of a document leave its text. -/
lemma runOps_document (fc : FloatConv) (short : Bool) {root : Node}
    (h : root.height ≤ builderMaxDepth + 1)
    (htable : ∃ flag es, root = .table flag es) :
    ∃ saw, new.runOps fc (documentOps short root) =
      ⟨emitDocument fc root, none, [{ kind := .table, sawSubtable := saw }], false, none⟩ := by
  obtain ⟨flag, es, rfl⟩ := htable
  simp only [Node.height, builderMaxDepth] at h
  rw [documentOps, runOps_append, new, runOps_lines es rfl rfl]
  obtain ⟨saw, hrun⟩ := runOps_sections es ([] ++ emitLines fc es) { kind := .table } [] rfl
    (by simp only [List.length_cons, List.length_nil]; omega)
  exact ⟨saw, by rw [hrun]; rfl⟩

end Writer

/-! ## Encodings of a tree -/

mutual

/-- Keys fit the length byte of `W_KEY`, and strings the four of `W_STRING`. -/
def Node.Fits : Node → Prop
  | .string s => s.length < 2 ^ 32
  | .array _ items => itemsFit items
  | .table _ es => entriesFit es
  | _ => True

/-- All elements fit. -/
def itemsFit : List Node → Prop
  | [] => True
  | v :: vs => v.Fits ∧ itemsFit vs

/-- All keys and values fit. -/
def entriesFit : List (Key × Node) → Prop
  | [] => True
  | (k, v) :: es => k.bytes.length ≤ 255 ∧ v.Fits ∧ entriesFit es

end

lemma encodeOp_key_isSome {k : Bytes} (h : k.length ≤ 255) : (encodeOp (.key k)).isSome := by
  simp [encodeOp, Nat.lt_succ_of_le h]

/-- Ops between an opening and a closing op. -/
lemma encodable_enclosed {a b : WOp} {ops : List WOp} (ha : (encodeOp a).isSome)
    (hb : (encodeOp b).isSome) (h : ∀ op ∈ ops, (encodeOp op).isSome) :
    ∀ op ∈ a :: ops ++ [b], (encodeOp op).isSome :=
  List.forall_mem_append.mpr ⟨List.forall_mem_cons.mpr ⟨ha, h⟩, by simpa using hb⟩

variable {short : Bool}

mutual

lemma valueOps_encodable (v : Node) (h : v.Fits) :
    ∀ op ∈ valueOps short v, (encodeOp op).isSome := by
  cases v with
  | string s =>
    have hop : encodeOp (.string s) = some (0x02 :: leBytes 4 s.length ++ s) := if_pos h
    simp [valueOps, hop]
  | boolean b => cases b <;> simp [valueOps, encodeOp]
  | integer | float | datetime => simp [valueOps, encodeOp]
  | array aot items =>
    rw [valueOps]
    split_ifs
    · simp [encodeOp]
    · exact encodable_enclosed rfl rfl (itemsOps_encodable items h)
  | table flag es =>
    rw [valueOps]
    split_ifs
    · simp [encodeOp]
    · exact encodable_enclosed rfl rfl (membersOps_encodable es h)

lemma itemsOps_encodable (vs : List Node) (h : itemsFit vs) :
    ∀ op ∈ itemsOps short vs, (encodeOp op).isSome := by
  cases vs with
  | nil => simp [itemsOps]
  | cons v vs =>
    rw [itemsOps, List.forall_mem_append]
    exact ⟨valueOps_encodable v h.1, itemsOps_encodable vs h.2⟩

lemma membersOps_encodable (es : List (Key × Node)) (h : entriesFit es) :
    ∀ op ∈ membersOps short es, (encodeOp op).isSome := by
  match es with
  | [] => simp [membersOps]
  | (k, v) :: es =>
    rw [membersOps, List.forall_mem_append, List.forall_mem_cons]
    exact ⟨⟨encodeOp_key_isSome h.1, valueOps_encodable v h.2.1⟩, membersOps_encodable es h.2.2⟩

end

lemma linesOps_encodable (es : Entries) (h : entriesFit es) :
    ∀ op ∈ linesOps short es, (encodeOp op).isSome := by
  induction es with
  | nil => simp [linesOps]
  | cons e es ih =>
    rw [linesOps, List.flatMap_cons, ← linesOps, List.forall_mem_append]
    refine ⟨?_, ih h.2.2⟩
    split_ifs
    · simp
    · exact List.forall_mem_cons.mpr ⟨encodeOp_key_isSome h.1, valueOps_encodable e.2 h.2.1⟩

mutual

lemma sectionOps_encodable (v : Node) (h : v.Fits) :
    ∀ op ∈ sectionOps short v, (encodeOp op).isSome := by
  cases v with
  | string | integer | float | boolean | datetime => simp [sectionOps]
  | array aot items => exact encodable_enclosed rfl rfl (elementsOps_encodable items h)
  | table flag es =>
    exact encodable_enclosed rfl rfl
      (List.forall_mem_append.mpr ⟨linesOps_encodable es h, sectionsOps_encodable es h⟩)

lemma elementsOps_encodable (ts : List Node) (h : itemsFit ts) :
    ∀ op ∈ elementsOps short ts, (encodeOp op).isSome := by
  match ts with
  | [] => simp [elementsOps]
  | .table flag es :: ts =>
    rw [elementsOps, List.forall_mem_append]
    exact ⟨encodable_enclosed rfl rfl (List.forall_mem_append.mpr
      ⟨linesOps_encodable es h.1, sectionsOps_encodable es h.1⟩), elementsOps_encodable ts h.2⟩
  | .string _ :: ts | .integer _ :: ts | .float _ :: ts | .boolean _ :: ts
  | .datetime _ _ :: ts | .array _ _ :: ts =>
    rw [elementsOps, List.forall_mem_append]
    · exact ⟨by simp [encodeOp], elementsOps_encodable ts h.2⟩
    all_goals simp

lemma sectionsOps_encodable (es : List (Key × Node)) (h : entriesFit es) :
    ∀ op ∈ sectionsOps short es, (encodeOp op).isSome := by
  match es with
  | [] => simp [sectionsOps]
  | (k, v) :: es =>
    rw [sectionsOps, List.forall_mem_append]
    refine ⟨?_, sectionsOps_encodable es h.2.2⟩
    split_ifs
    · exact List.forall_mem_cons.mpr ⟨encodeOp_key_isSome h.1, sectionOps_encodable v h.2.1⟩
    · simp

end

/-- The ops of a tree that fits have encodings. -/
lemma documentOps_encodable {root : Node} (h : root.Fits) :
    ∀ op ∈ documentOps short root, (encodeOp op).isSome := by
  cases root with
  | string | integer | float | boolean | datetime | array => simp [documentOps]
  | table flag es =>
    exact List.forall_mem_append.mpr ⟨linesOps_encodable es h, sectionsOps_encodable es h⟩

/-! ## Agreement -/

/-- The agreement of the writer with the builder and the emitter: the canonical ops of a tree
the builder built, fed in whatever chunks of whole ops, succeed and leave the text of the
document. -/
theorem writer_agrees (fc : FloatConv) (short : Bool) (calls : List BCall) {root : Node}
    (h : (Builder.run calls).finish = .ok root) (hfits : root.Fits) {chunks : List (List WOp)}
    (hchunks : chunks.flatten = documentOps short root) :
    ∃ bss w, chunks.mapM encodeOps = some bss ∧ Writer.new.feeds fc bss = (none, w) ∧
      w.finish = .ok (emitDocument fc root) := by
  have hencodable : ∀ op ∈ chunks.flatten, (encodeOp op).isSome :=
    hchunks ▸ documentOps_encodable hfits
  obtain ⟨bss, hbss⟩ := mapM_encodeOps_isSome hencodable
  obtain ⟨saw, hrun⟩ := Writer.runOps_document fc short (Builder.finish_height h)
    (Builder.finish_table h)
  rw [← hchunks] at hrun
  refine ⟨bss, _, hbss, Writer.feeds_encodeOps hbss rfl rfl (by rw [hrun]), ?_⟩
  rw [hrun]
  rfl

/-- The document `a = 1` with an array of tables `b` of one element `c = [{}]`, fed in two
chunks. -/
theorem writer_agrees_sections :
    ∃ bss w,
      [[WOp.key [0x61], .int 1, .key [0x62], .beginAot, .beginTable],
        [.key [0x63], .beginArray, .emptyTable, .close, .close, .close]].mapM encodeOps =
          some bss ∧
      Writer.new.feeds .zero bss = (none, w) ∧
      w.finish = .ok (emitDocument .zero (.table .explicit
        [(.ofBytes [0x61], .integer 1), (.ofBytes [0x62], .array true
          [.table .explicit [(.ofBytes [0x63], .array false [.table .inline []])]])])) := by
  have hfinish : (Builder.run [.putInteger (some [0x61]) 1, .openArray (some [0x62]),
      .openTable none, .openInlineArray (some [0x63]), .openTable none, .close, .close, .close,
      .close]).finish = .ok (.table .explicit [(.ofBytes [0x61], .integer 1),
        (.ofBytes [0x62], .array true
          [.table .explicit [(.ofBytes [0x63], .array false [.table .inline []])]])]) := rfl
  refine writer_agrees .zero true _ hfinish ?_ rfl
  simp [Node.Fits, itemsFit, entriesFit, Key.ofBytes]

end Teptris
