import Mathlib.Logic.Relation
import Teptris.Emit.Document
import Teptris.Emit.Session

/-!
# How built documents render

The flags of a built document fit together: no section lies in anything that renders on one
line, and an array of tables has tables to render (`session_renders`).  `Stacked` is the
invariant of the open containers; closing them all gives the document.
-/

namespace Teptris

/-! ## Trees -/

/-- A value that renders on one line. -/
inductive IsInline : Node → Prop
  | string (s : Bytes) : IsInline (.string s)
  | integer (i : Int64) : IsInline (.integer i)
  | float (f : Double) : IsInline (.float f)
  | boolean (b : Bool) : IsInline (.boolean b)
  | datetime (kind : DtKind) (dt : Datetime) : IsInline (.datetime kind dt)
  | array {items : List Node} (h : ∀ v ∈ items, IsInline v) : IsInline (.array false items)
  | table {es : Entries} (nodup : (es.map Prod.fst).Nodup) (h : ∀ e ∈ es, IsInline e.2) :
      IsInline (.table .inline es)

/-- The value of an entry of a table that renders as a section. -/
inductive IsBuilt : Node → Prop
  | inline {v : Node} (h : IsInline v) : IsBuilt v
  | table {es : Entries} (nodup : (es.map Prod.fst).Nodup) (h : ∀ e ∈ es, IsBuilt e.2) :
      IsBuilt (.table .explicit es)
  | aot {ts : List Entries} (hne : ts ≠ []) (nodup : ∀ es ∈ ts, (es.map Prod.fst).Nodup)
      (h : ∀ es ∈ ts, ∀ e ∈ es, IsBuilt e.2) :
      IsBuilt (.array true (ts.map (.table .explicit)))

/-- What renders on one line is no section. -/
lemma IsInline.isSection {v : Node} (h : IsInline v) : isSection v = false := by
  cases h <;> rfl

/-- A node is an element or a value of another one. -/
def Node.Child (v n : Node) : Prop :=
  match n with
  | .array _ items => v ∈ items
  | .table _ es => ∃ e ∈ es, e.2 = v
  | _ => False

/-- A node lies beneath another one. -/
def Node.Beneath : Node → Node → Prop := Relation.TransGen Node.Child

/-- A node is another one or lies beneath it. -/
def Node.Within : Node → Node → Prop := Relation.ReflTransGen Node.Child

/-- A plain array or an inline table. -/
def Node.OneLine (n : Node) : Prop :=
  (∃ items, n = .array false items) ∨ ∃ es, n = .table .inline es

/-- The flags of a document fit together. -/
structure Node.Renders (root : Node) : Prop where
  /-- No array of tables and no table with a header lies beneath a plain array or an inline
  table. -/
  oneLine {p n : Node} (hp : p.Within root) (hline : p.OneLine) (hn : n.Beneath p) :
    isSection n = false
  /-- An array of tables is not empty. -/
  nonempty {items : List Node} (h : (Node.array true items).Within root) : items ≠ []
  /-- It holds tables that are not inline. -/
  tables {items : List Node} (h : (Node.array true items).Within root) :
    ∀ v ∈ items, ∃ flag es, v = .table flag es ∧ flag ≠ .inline

lemma IsInline.child {v n : Node} (h : IsInline n) (hv : v.Child n) : IsInline v := by
  cases h with
  | array h => exact h v hv
  | table _ h =>
    obtain ⟨e, he, rfl⟩ := hv
    exact h e he
  | _ => exact absurd hv id

lemma IsBuilt.child {v n : Node} (h : IsBuilt n) (hv : v.Child n) : IsBuilt v := by
  cases h with
  | inline h => exact .inline (h.child hv)
  | table _ h =>
    obtain ⟨e, he, rfl⟩ := hv
    exact h e he
  | aot _ hnodup h =>
    obtain ⟨es, hes, rfl⟩ := List.mem_map.mp hv
    exact .table (hnodup es hes) (h es hes)

lemma IsInline.beneath {v n : Node} (h : IsInline n) (hv : v.Beneath n) : IsInline v := by
  induction hv using Relation.TransGen.head_induction_on with
  | single hv => exact h.child hv
  | head hv _ ih => exact ih.child hv

lemma IsBuilt.within {v n : Node} (h : IsBuilt n) (hv : v.Within n) : IsBuilt v := by
  induction hv using Relation.ReflTransGen.head_induction_on with
  | refl => exact h
  | head hv _ ih => exact ih.child hv

/-- The flags of a tree of this shape fit together. -/
lemma IsBuilt.renders {root : Node} (h : IsBuilt root) : root.Renders := by
  have haot : ∀ items, (Node.array true items).Within root →
      ∃ ts : List Entries, ts ≠ [] ∧ items = ts.map (.table .explicit) := by
    intro items hitems
    cases h.within hitems with
    | inline h => cases h
    | @aot ts hne => exact ⟨ts, hne, rfl⟩
  refine ⟨?_, ?_, ?_⟩
  · intro p n hp hline hn
    have hinline : IsInline p := by
      obtain ⟨items, rfl⟩ | ⟨es, rfl⟩ := hline
      · cases h.within hp with
        | inline h => exact h
      · cases h.within hp with
        | inline h => exact h
    exact (hinline.beneath hn).isSection
  · intro items hitems
    obtain ⟨ts, hne, rfl⟩ := haot items hitems
    simpa using hne
  · intro items hitems v hv
    obtain ⟨ts, -, rfl⟩ := haot items hitems
    obtain ⟨es, -, rfl⟩ := List.mem_map.mp hv
    exact ⟨.explicit, es, rfl, by decide⟩

/-! ## Open containers -/

/-- The content of an open container. -/
inductive BContent.Built : BContent → Prop
  | inlineTable {es : Entries} (nodup : (es.map Prod.fst).Nodup) (h : ∀ e ∈ es, IsInline e.2) :
      Built (.table .inline es)
  | table {es : Entries} (nodup : (es.map Prod.fst).Nodup) (h : ∀ e ∈ es, IsBuilt e.2) :
      Built (.table .explicit es)
  | undecided : Built (.array false .undecided [])
  | inline {items : List Node} (h : ∀ v ∈ items, IsInline v) : Built (.array false .inline items)
  | sections {ts : List Entries} (nodup : ∀ es ∈ ts, (es.map Prod.fst).Nodup)
      (h : ∀ es ∈ ts, ∀ e ∈ es, IsBuilt e.2) :
      Built (.array true .aotSections (ts.map (.table .explicit)))

/-- A container that will render on one line. -/
def BContent.Pinned (c : BContent) : Prop :=
  (∃ es, c = .table .inline es) ∨ ∃ items, c = .array false .inline items

/-- A table that will render as a section. -/
def BContent.Headed (c : BContent) : Prop := ∃ es, c = .table .explicit es

/-- A container that may be open in another one. -/
def BContent.Hosts : BContent → BContent → Prop
  | .table .inline _, c => c.Pinned
  | .table _ _, _ => True
  | .array _ .undecided _, _ => False
  | .array _ .inline _, c => c.Pinned
  | .array _ .aotSections _, c => c.Headed

/-- The key a container is going to be added under is new. -/
def BFrame.KeyNew (f : BFrame) (key : Bytes) : Prop :=
  match f.content with
  | .table _ es => probe (.ofBytes key) es = none
  | .array _ _ _ => True

/-- The containers around an open container, innermost first; the outermost is the root. -/
def Around : BFrame → List BFrame → Prop
  | g, [] => g.content.Headed
  | g, f :: fs => f.content.Built ∧ f.content.Hosts g.content ∧ f.KeyNew g.key ∧ Around f fs

/-- The current container has something to render, and so have the containers around it. -/
def BContent.Filled (c : BContent) : Prop := ∀ aot, c ≠ .array aot .aotSections []

/-- The open containers of a builder. -/
structure Builder.Stacked (b : Builder) : Prop where
  /-- The current container. -/
  cur : b.cur.content.Built
  /-- It is no array of tables without a table. -/
  filled : b.cur.content.Filled
  /-- The containers around it. -/
  around : Around b.cur b.outer

/-- A container that changes, but stays what it is. -/
structure BContent.Keeps (c c' : BContent) : Prop where
  /-- It stays on one line. -/
  pinned : c.Pinned → c'.Pinned
  /-- It stays under its header. -/
  headed : c.Headed → c'.Headed

lemma BContent.Keeps.hosts {p c c' : BContent} (h : c.Keeps c') (hp : p.Hosts c) : p.Hosts c' := by
  cases p with
  | table flag es => cases flag <;> first | exact h.pinned hp | exact trivial
  | array aot nature items =>
    cases nature with
    | undecided => exact hp
    | inline => exact h.pinned hp
    | aotSections => exact h.headed hp

lemma Around.keeps {g g' : BFrame} {fs : List BFrame} (h : Around g fs)
    (hkeeps : g.content.Keeps g'.content) (hkey : g'.key = g.key) : Around g' fs := by
  cases fs with
  | nil => exact hkeeps.headed h
  | cons f fs =>
    obtain ⟨hbuilt, hhosts, hnew, haround⟩ := h
    exact ⟨hbuilt, hkeeps.hosts hhosts, hkey ▸ hnew, haround⟩

/-- Deciding the nature of an array keeps what it is. -/
lemma keeps_decided (f : BFrame) (elementIsTable : Bool) :
    f.content.Keeps (f.decided elementIsTable).content := by
  obtain ⟨k, ⟨flag, es⟩ | ⟨aot, nature, items⟩⟩ := f
  · exact ⟨id, id⟩
  · constructor
    · rintro (⟨es, h⟩ | ⟨items, h⟩)
      · cases h
      · cases h
        exact .inr ⟨items, by simp [BFrame.decided, ArrNature.decided]⟩
    · rintro ⟨es, h⟩
      cases h

lemma keeps_add (f : BFrame) (key : Bytes) (n : Node) :
    f.content.Keeps (f.add key n).content := by
  obtain ⟨k, ⟨flag, es⟩ | ⟨aot, nature, items⟩⟩ := f
  · constructor
    · rintro (⟨es, h⟩ | ⟨items, h⟩)
      · cases h
        exact .inl ⟨_, rfl⟩
      · cases h
    · rintro ⟨es, h⟩
      cases h
      exact ⟨_, rfl⟩
  · constructor
    · rintro (⟨es, h⟩ | ⟨items, h⟩)
      · cases h
      · cases h
        exact .inr ⟨_, rfl⟩
    · rintro ⟨es, h⟩
      cases h

lemma BContent.Keeps.trans {c c' c'' : BContent} (h : c.Keeps c') (h' : c'.Keeps c'') :
    c.Keeps c'' :=
  ⟨fun hp => h'.pinned (h.pinned hp), fun hh => h'.headed (h.headed hh)⟩

/-! ## What the calls do -/

section Frames

variable {f g : BFrame} {key : Option Bytes} {elementIsTable : Bool} {n : Node}

lemma nodup_insert {es : Entries} {k : Key} (h : (es.map Prod.fst).Nodup)
    (hk : probe k es = none) (v : Node) : ((insert es k v).map Prod.fst).Nodup := by
  rw [insert, List.map_append, List.map_singleton, List.nodup_append]
  refine ⟨h, by simp, ?_⟩
  rintro l hl m hm rfl
  rw [List.mem_singleton.mp hm] at hl
  exact probe_eq_none.mp hk hl

/-- The nodes that go into a container. -/
def BContent.Receives : BContent → Node → Prop
  | .table .inline _, n => IsInline n
  | .table _ _, n => IsBuilt n
  | .array _ .undecided _, _ => False
  | .array _ .inline _, n => IsInline n
  | .array _ .aotSections _, n =>
    ∃ es, n = .table .explicit es ∧ (es.map Prod.fst).Nodup ∧ ∀ e ∈ es, IsBuilt e.2

lemma forall_mem_concat {α : Type} {P : α → Prop} {xs : List α} {x : α} (hxs : ∀ y ∈ xs, P y)
    (hx : P x) : ∀ y ∈ xs ++ [x], P y := by
  intro y hy
  rcases List.mem_append.mp hy with hy | hy
  · exact hxs y hy
  · rw [List.mem_singleton.mp hy]
    exact hx

/-- A container that receives a node stays built, and has something to render. -/
lemma built_add {k : Bytes} (hf : f.content.Built) (hn : f.content.Receives n)
    (hnew : f.KeyNew k) :
    (f.add k n).content.Built ∧ (f.add k n).content.Filled := by
  obtain ⟨l, c⟩ := f
  cases hf with
  | inlineTable hnodup h =>
    exact ⟨.inlineTable (nodup_insert hnodup hnew n) (forall_mem_concat h hn),
      fun _ h => by cases h⟩
  | table hnodup h =>
    exact ⟨.table (nodup_insert hnodup hnew n) (forall_mem_concat h hn), fun _ h => by cases h⟩
  | undecided => exact absurd hn id
  | inline h => exact ⟨.inline (forall_mem_concat h hn), fun _ h => by cases h⟩
  | @sections ts hnodup h =>
    obtain ⟨es, rfl, hnodup', hes⟩ := hn
    have hmap : ts.map (.table .explicit) ++ [.table .explicit es] =
        (ts ++ [es]).map (Node.table .explicit) := by simp
    refine ⟨?_, fun aot h => by simp [BFrame.add] at h⟩
    change BContent.Built (.array true .aotSections (ts.map (.table .explicit) ++ _))
    rw [hmap]
    exact .sections (forall_mem_concat hnodup hnodup') (forall_mem_concat h hes)

/-- A container that is decided is built, where its elements were. -/
lemma built_decided (hf : f.content.Built)
    (haccepts : f.content.accepts key elementIsTable = true) :
    (f.decided elementIsTable).content.Built := by
  obtain ⟨k, c⟩ := f
  cases hf with
  | inlineTable hnodup h => exact .inlineTable hnodup h
  | table hnodup h => exact .table hnodup h
  | undecided =>
    cases elementIsTable with
    | false => exact .inline fun v hv => absurd hv List.not_mem_nil
    | true => exact @BContent.Built.sections [] (by simp) (by simp)
  | @inline items h =>
    have hdecided : BFrame.decided ⟨k, .array false .inline items⟩ elementIsTable =
        ⟨k, .array false .inline items⟩ := by simp [BFrame.decided, ArrNature.decided]
    rw [hdecided]
    exact .inline h
  | @sections ts hnodup h =>
    have htable : elementIsTable = true := by simpa [BContent.accepts] using haccepts
    subst htable
    exact .sections hnodup h

/-- The node of a container that has something to render. -/
lemma BContent.Built.isBuilt {c : BContent} (h : c.Built) (hfilled : c.Filled) :
    IsBuilt c.node := by
  cases h with
  | inlineTable hnodup h => exact .inline (.table hnodup h)
  | table hnodup h => exact .table hnodup h
  | undecided => exact .inline (.array (by simp))
  | inline h => exact .inline (.array h)
  | @sections ts hnodup h =>
    refine .aot ?_ hnodup h
    rintro rfl
    exact hfilled true rfl

lemma BContent.Built.isInline {c : BContent} (h : c.Built) (hpinned : c.Pinned) :
    IsInline c.node := by
  obtain ⟨es, rfl⟩ | ⟨items, rfl⟩ := hpinned
  · cases h with
    | inlineTable hnodup h => exact .table hnodup h
  · cases h with
    | inline h => exact .array h

/-- What may be open in a container goes into it when it is closed. -/
lemma receives_of_hosts {c c' : BContent} (hhosts : c.Hosts c') (hbuilt : c'.Built)
    (hfilled : c'.Filled) : c.Receives c'.node := by
  cases c with
  | table flag es =>
    cases flag with
    | inline => exact hbuilt.isInline hhosts
    | _ => exact hbuilt.isBuilt hfilled
  | array aot nature items =>
    cases nature with
    | undecided => exact hhosts
    | inline => exact hbuilt.isInline hhosts
    | aotSections =>
      obtain ⟨es, rfl⟩ := hhosts
      cases hbuilt with
      | table hnodup h => exact ⟨es, rfl, hnodup, h⟩

/-- A key that is accepted is new, also behind the decision. -/
lemma keyNew_decided (haccepts : f.content.accepts key elementIsTable = true) :
    (f.decided elementIsTable).KeyNew (key.getD []) := by
  obtain ⟨k, ⟨flag, es⟩ | ⟨aot, nature, items⟩⟩ := f
  · cases key with
    | none => simp [BContent.accepts] at haccepts
    | some key => simpa [BContent.accepts, BFrame.KeyNew, BFrame.decided] using haccepts
  · exact trivial

/-- Any container that takes a value in receives what renders on one line. -/
lemma receives_value (hf : f.content.Built) (haccepts : f.content.accepts key false = true)
    (hn : IsInline n) : (f.decided false).content.Receives n := by
  obtain ⟨k, c⟩ := f
  cases hf with
  | inlineTable | undecided | inline => exact hn
  | table => exact .inline hn
  | sections => simp [BContent.accepts] at haccepts

/-- A table a container may be opened with. -/
lemma hosts_table (hf : f.content.Built) :
    (f.decided true).content.Hosts
      (.table (if Builder.inlineTerritory f then .inline else .explicit) []) := by
  obtain ⟨k, c⟩ := f
  cases hf with
  | inlineTable => exact .inl ⟨[], rfl⟩
  | table => exact trivial
  | undecided => exact ⟨[], rfl⟩
  | inline => exact .inl ⟨[], rfl⟩
  | sections => exact ⟨[], rfl⟩

/-- An array that is pinned may be opened in any container that takes a value in. -/
lemma hosts_array (hf : f.content.Built) (haccepts : f.content.accepts key false = true) :
    (f.decided false).content.Hosts (.array false .inline []) := by
  obtain ⟨k, c⟩ := f
  cases hf with
  | inlineTable | undecided | inline => exact .inr ⟨[], rfl⟩
  | table => exact trivial
  | sections => simp [BContent.accepts] at haccepts

/-- Another array may be opened only in a table with a header. -/
lemma hosts_undecided (hf : f.content.Built) (haccepts : f.content.accepts key false = true)
    (hterritory : Builder.inlineTerritory (f.decided false) = false) :
    (f.decided false).content.Hosts (.array false .undecided []) := by
  obtain ⟨k, c⟩ := f
  cases hf with
  | table => exact trivial
  | sections => simp [BContent.accepts] at haccepts
  | _ => simp [Builder.inlineTerritory, BFrame.decided, ArrNature.decided] at hterritory

end Frames

/-! ## Runs -/

namespace Builder

variable {b : Builder} {key : Option Bytes} {elementIsTable : Bool}

lemma putScalar_eq (n : Node) :
    b.putScalar key n = if b.cur.content.accepts key false then (none, b.added key false n)
      else (some .errArg, b) := by
  rw [putScalar, BFrame.check_eq]
  split_ifs <;> rfl

lemma pushContainer_eq (c : BContent) :
    b.pushContainer key elementIsTable c =
      if b.cur.content.accepts key elementIsTable then
        if builderMaxDepth ≤ b.depth + 1 then (some .errDepth, b.added key elementIsTable c.node)
        else (none, b.opened key elementIsTable c)
      else (some .errArg, b) := by
  rw [pushContainer, BFrame.check_eq]
  split_ifs <;> rfl

lemma stacked_new : new.Stacked where
  cur := .table (by simp) (by simp)
  filled := fun _ h => by cases h
  around := ⟨[], rfl⟩

/-- A node that the current container receives. -/
lemma Stacked.added (h : b.Stacked)
    (haccepts : b.cur.content.accepts key elementIsTable = true) {n : Node}
    (hn : (b.cur.decided elementIsTable).content.Receives n) :
    (b.added key elementIsTable n).Stacked := by
  obtain ⟨hbuilt, hfilled⟩ := built_add (built_decided h.cur haccepts) hn (keyNew_decided haccepts)
  refine ⟨hbuilt, hfilled, h.around.keeps ((keeps_decided _ _).trans (keeps_add _ _ _)) ?_⟩
  rw [Builder.added, add_key, decided_key]

/-- A container that may be open in the current one. -/
lemma Stacked.opened (h : b.Stacked)
    (haccepts : b.cur.content.accepts key elementIsTable = true) {c : BContent} (hc : c.Built)
    (hfilled : c.Filled) (hhosts : (b.cur.decided elementIsTable).content.Hosts c) :
    (b.opened key elementIsTable c).Stacked :=
  ⟨hc, hfilled, built_decided h.cur haccepts, hhosts, keyNew_decided haccepts,
    h.around.keeps (keeps_decided _ _) (decided_key _ _)⟩

lemma putScalar_stacked (h : b.Stacked) {n : Node} (hn : IsInline n) :
    (b.putScalar key n).2.Stacked := by
  rw [putScalar_eq]
  split_ifs with haccepts
  · exact h.added haccepts (receives_value h.cur haccepts hn)
  · exact h

lemma openTable_stacked (h : b.Stacked) : (b.openTable key).2.Stacked := by
  have hhosts := hosts_table h.cur
  have hbuilt :
      BContent.Built (.table (if inlineTerritory b.cur then .inline else .explicit) []) := by
    split_ifs
    · exact .inlineTable (by simp) (by simp)
    · exact .table (by simp) (by simp)
  have hfilled :
      BContent.Filled (.table (if inlineTerritory b.cur then .inline else .explicit) []) :=
    fun _ h => by cases h
  rw [openTable]
  generalize BContent.table (if inlineTerritory b.cur then .inline else .explicit) [] = c
    at hhosts hbuilt hfilled
  rw [pushContainer_eq]
  split_ifs with haccepts hlimit
  · exact h.added haccepts (receives_of_hosts hhosts hbuilt hfilled)
  · exact h.opened haccepts hbuilt hfilled hhosts
  · exact h

/-- An array the container would not take in is not opened: it is pinned, or left plain. -/
lemma openArray_stacked (h : b.Stacked) : (b.openArray key).2.Stacked := by
  have hpinned : BContent.Built (.array false .inline []) := .inline (by simp)
  rw [openArray, pushContainer_eq]
  split_ifs with haccepts hlimit
  · exact h.added haccepts (receives_value h.cur haccepts (.array (by simp)))
  · cases hterritory : inlineTerritory (b.cur.decided false) with
    | true =>
      simp only [Builder.opened, List.head?_cons, Option.any_some, hterritory, if_true]
      exact h.opened haccepts hpinned (fun _ h => by cases h) (hosts_array h.cur haccepts)
    | false =>
      simp only [Builder.opened, List.head?_cons, Option.any_some, hterritory, Bool.false_eq_true,
        if_false]
      exact h.opened haccepts .undecided (fun _ h => by cases h)
        (hosts_undecided h.cur haccepts hterritory)
  · exact h

lemma openInlineArray_stacked (h : b.Stacked) : (b.openInlineArray key).2.Stacked := by
  rw [openInlineArray, pushContainer_eq]
  split_ifs with haccepts hlimit
  · exact h.added haccepts (receives_value h.cur haccepts (.array (by simp)))
  · exact h.opened haccepts (.inline (by simp)) (fun _ h => by cases h)
      (hosts_array h.cur haccepts)
  · exact h

lemma close_stacked (h : b.Stacked) : b.close.2.Stacked := by
  obtain ⟨hcur, hfilled, haround⟩ := h
  rw [close]
  cases houter : b.outer with
  | nil => exact ⟨hcur, hfilled, haround⟩
  | cons f fs =>
    rw [houter] at haround
    obtain ⟨hbuilt, hhosts, hnew, haround⟩ := haround
    obtain ⟨hbuilt', hfilled'⟩ := built_add hbuilt (receives_of_hosts hhosts hcur hfilled) hnew
    exact ⟨hbuilt', hfilled', haround.keeps (keeps_add _ _ _) (add_key _ _ _)⟩

/-- Every call keeps the invariant, whether it succeeds or not. -/
lemma call_stacked (h : b.Stacked) (c : BCall) : (b.call c).2.Stacked := by
  cases c with
  | putString key s => exact putScalar_stacked h (.string s)
  | putInteger key v => exact putScalar_stacked h (.integer v)
  | putFloat key v => exact putScalar_stacked h (.float v)
  | putBoolean key v => exact putScalar_stacked h (.boolean v)
  | putDatetime key kind dt =>
    rw [call]
    split_ifs
    · exact putScalar_stacked h (.datetime kind dt)
    · exact h
  | openTable key => exact openTable_stacked h
  | openArray key => exact openArray_stacked h
  | openInlineArray key => exact openInlineArray_stacked h
  | close => exact close_stacked h

/-- The document behind the open containers. -/
lemma Stacked.tree (h : b.Stacked) :
    ∃ es, b.tree = .table .explicit es ∧ (es.map Prod.fst).Nodup ∧ ∀ e ∈ es, IsBuilt e.2 := by
  obtain ⟨cur, outer⟩ := b
  rw [Builder.tree]
  induction outer generalizing cur with
  | nil =>
    obtain ⟨hcur, -, es, hes⟩ := h
    rw [plug]
    dsimp only at hcur hes ⊢
    rw [hes] at hcur ⊢
    cases hcur with
    | table hnodup h => exact ⟨es, rfl, hnodup, h⟩
  | cons f fs ih =>
    have hclosed := ih _ (close_stacked h)
    dsimp only at hclosed
    rw [add_key] at hclosed
    exact hclosed

end Builder

/-- Every document a session shows renders: no array of tables and no table with a header lies
beneath a plain array or an inline table, and arrays of tables hold tables with headers, at
least one. -/
theorem session_renders (calls : List SessionCall) :
    (Session.run (calls.map fun c => (c, .all))).builder.tree.Renders := by
  have hcall : ∀ (s : Session) (c : SessionCall), s.builder.Stacked →
      (s.call .all c).2.builder.Stacked := by
    intro s c h
    cases c with
    | otherKind => exact h
    | op c =>
      rw [Session.call]
      split_ifs
      · exact h
      · rw [Builder.callWith_all]
        exact Builder.call_stacked h c
    | finish =>
      rw [Session.call]
      split_ifs
      · exact h
      · split <;> exact h
  have hrun : ∀ (calls : List SessionCall) (s : Session), s.builder.Stacked →
      ((calls.map fun c => (c, Grants.all)).foldl
        (fun s c => (s.call c.2 c.1).2) s).builder.Stacked := by
    intro calls
    induction calls with
    | nil => exact fun s h => h
    | cons c calls ih => exact fun s h => ih _ (hcall s c h)
  obtain ⟨es, hes, hnodup, h⟩ := (hrun calls .new Builder.stacked_new).tree
  rw [Session.run, hes]
  exact (IsBuilt.table hnodup h).renders

end Teptris
