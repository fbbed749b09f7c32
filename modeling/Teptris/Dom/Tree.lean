import Teptris.Dom.WellFormed

/-!
# What a document says

A document read through its API is a tree of values: the define-semantics flags of its tables
and the flag of its arrays of tables do not show.  `Node.tree` forgets them.
-/

namespace Teptris

/-- A value, as the accessors show it: tables and arrays in order, without flags. -/
inductive Tree where
  /-- A string. -/
  | string (s : Bytes)
  /-- An integer. -/
  | integer (i : Int64)
  /-- A float. -/
  | float (f : Double)
  /-- A boolean. -/
  | boolean (b : Bool)
  /-- A date, a time, or both. -/
  | datetime (kind : DtKind) (dt : Datetime)
  /-- An array. -/
  | array (items : List Tree)
  /-- A table, its entries in order. -/
  | table (entries : List (Bytes × Tree))

mutual

/-- A node without its flags. -/
def Node.tree : Node → Tree
  | .string s => .string s
  | .integer i => .integer i
  | .float f => .float f
  | .boolean b => .boolean b
  | .datetime kind dt => .datetime kind dt
  | .array _ items => .array (itemsTree items)
  | .table _ es => .table (entriesTree es)

/-- The elements of an array without their flags. -/
def itemsTree : List Node → List Tree
  | [] => []
  | v :: vs => v.tree :: itemsTree vs

/-- The entries of a table without their flags. -/
def entriesTree : List (Key × Node) → List (Bytes × Tree)
  | [] => []
  | (k, v) :: es => (k.bytes, v.tree) :: entriesTree es

end

lemma itemsTree_eq (items : List Node) : itemsTree items = items.map Node.tree := by
  induction items with
  | nil => rfl
  | cons v vs ih => rw [itemsTree, ih, List.map_cons]

lemma entriesTree_eq (es : Entries) :
    entriesTree es = es.map fun e => (e.1.bytes, e.2.tree) := by
  induction es with
  | nil => rfl
  | cons e es ih => rw [entriesTree, ih, List.map_cons]

/-! ## The texts of a tree -/

mutual

/-- Every string value and every key, at any depth. -/
def Tree.texts : Tree → List Bytes
  | .string s => [s]
  | .array items => itemsTexts items
  | .table es => entriesTexts es
  | _ => []

/-- The texts of the elements of an array. -/
def itemsTexts : List Tree → List Bytes
  | [] => []
  | t :: ts => t.texts ++ itemsTexts ts

/-- The keys of a table, and the texts of its values. -/
def entriesTexts : List (Bytes × Tree) → List Bytes
  | [] => []
  | (k, t) :: es => k :: (t.texts ++ entriesTexts es)

end

lemma mem_itemsTexts {s : Bytes} {ts : List Tree} :
    s ∈ itemsTexts ts ↔ ∃ t ∈ ts, s ∈ t.texts := by
  induction ts with
  | nil => simp [itemsTexts]
  | cons t ts ih => simp [itemsTexts, ih]

lemma mem_entriesTexts {s : Bytes} {es : List (Bytes × Tree)} :
    s ∈ entriesTexts es ↔ ∃ e ∈ es, s = e.1 ∨ s ∈ e.2.texts := by
  induction es with
  | nil => simp [entriesTexts]
  | cons e es ih =>
    obtain ⟨k, t⟩ := e
    simp only [entriesTexts, List.mem_cons, List.mem_append, ih, exists_eq_or_imp, or_assoc]

/-- The texts of an array node are those of its elements. -/
lemma mem_texts_array {s : Bytes} {aot : Bool} {items : List Node} :
    s ∈ (Node.array aot items).tree.texts ↔ ∃ v ∈ items, s ∈ v.tree.texts := by
  rw [Node.tree, Tree.texts, mem_itemsTexts, itemsTree_eq]
  simp

/-- The texts of a table node are its keys and the texts of its values. -/
lemma mem_texts_table {s : Bytes} {flag : TblFlag} {es : Entries} :
    s ∈ (Node.table flag es).tree.texts ↔ ∃ e ∈ es, s = e.1.bytes ∨ s ∈ e.2.tree.texts := by
  rw [Node.tree, Tree.texts, mem_entriesTexts, entriesTree_eq]
  simp

/-- The texts of a value are well-formed UTF-8. -/
lemma IsValue.texts_valid {n : Node} (h : IsValue n) : ∀ s ∈ n.tree.texts, Utf8.Valid s := by
  induction h with
  | string h =>
    intro s hs
    obtain rfl := List.mem_singleton.mp hs
    exact h
  | integer | float | boolean | datetime => exact fun s hs => absurd hs List.not_mem_nil
  | array _ ih =>
    intro s hs
    obtain ⟨v, hv, hs⟩ := mem_texts_array.mp hs
    exact ih v hv s hs
  | table _ _ hkey _ ih =>
    intro s hs
    obtain ⟨e, he, rfl | hs⟩ := mem_texts_table.mp hs
    · exact hkey e he
    · exact ih e he s hs

/-- The texts of an entry are well-formed UTF-8. -/
lemma IsEntry.texts_valid {n : Node} (h : IsEntry n) : ∀ s ∈ n.tree.texts, Utf8.Valid s := by
  induction h with
  | value h _ => exact h.texts_valid
  | table _ _ hkey _ ih =>
    intro s hs
    obtain ⟨e, he, rfl | hs⟩ := mem_texts_table.mp hs
    · exact hkey e he
    · exact ih e he s hs
  | aot _ _ hkey _ ih =>
    intro s hs
    obtain ⟨v, hv, hs⟩ := mem_texts_array.mp hs
    obtain ⟨es, hes, rfl⟩ := List.mem_map.mp hv
    obtain ⟨e, he, rfl | hs⟩ := mem_texts_table.mp hs
    · exact hkey es hes e he
    · exact ih es hes e he s hs

/-! ## Keys and scalars -/

section All

variable (key : Bytes → Prop) (scalar : Node → Prop)

mutual

/-- Every key is of one kind and every scalar of another, at any depth. -/
def Node.All : Node → Prop
  | .string s => scalar (.string s)
  | .integer i => scalar (.integer i)
  | .float f => scalar (.float f)
  | .boolean b => scalar (.boolean b)
  | .datetime kind dt => scalar (.datetime kind dt)
  | .array _ items => itemsAll items
  | .table _ es => entriesAll es

/-- Every element of an array. -/
def itemsAll : List Node → Prop
  | [] => True
  | v :: vs => v.All ∧ itemsAll vs

/-- Every entry of a table. -/
def entriesAll : List (Key × Node) → Prop
  | [] => True
  | (k, v) :: es => key k.bytes ∧ v.All ∧ entriesAll es

end

end All

variable {key : Bytes → Prop} {scalar : Node → Prop}

lemma itemsAll_iff {items : List Node} :
    itemsAll key scalar items ↔ ∀ v ∈ items, v.All key scalar := by
  induction items with
  | nil => simp [itemsAll]
  | cons v vs ih => simp [itemsAll, ih]

lemma entriesAll_iff {es : Entries} :
    entriesAll key scalar es ↔ ∀ e ∈ es, key e.1.bytes ∧ e.2.All key scalar := by
  induction es with
  | nil => simp [entriesAll]
  | cons e es ih =>
    obtain ⟨k, v⟩ := e
    simp [entriesAll, ih, and_assoc]

variable {key' : Bytes → Prop} {scalar' : Node → Prop}

mutual

/-- What holds of all keys and scalars for two reasons. -/
lemma Node.All.and (n : Node) (h : n.All key scalar) (h' : n.All key' scalar') :
    n.All (fun k => key k ∧ key' k) (fun v => scalar v ∧ scalar' v) := by
  cases n with
  | string | integer | float | boolean | datetime => exact ⟨h, h'⟩
  | array aot items => exact itemsAll_and items h h'
  | table flag es => exact entriesAll_and es h h'

lemma itemsAll_and (items : List Node) (h : itemsAll key scalar items)
    (h' : itemsAll key' scalar' items) :
    itemsAll (fun k => key k ∧ key' k) (fun v => scalar v ∧ scalar' v) items := by
  match items with
  | [] => trivial
  | v :: vs => exact ⟨Node.All.and v h.1 h'.1, itemsAll_and vs h.2 h'.2⟩

lemma entriesAll_and (es : List (Key × Node)) (h : entriesAll key scalar es)
    (h' : entriesAll key' scalar' es) :
    entriesAll (fun k => key k ∧ key' k) (fun v => scalar v ∧ scalar' v) es := by
  match es with
  | [] => trivial
  | (k, v) :: es =>
    exact ⟨⟨h.1, h'.1⟩, Node.All.and v h.2.1 h'.2.1, entriesAll_and es h.2.2 h'.2.2⟩

end

mutual

/-- What holds of all keys and scalars for a weaker reason. -/
lemma Node.All.imp (hkey : ∀ k, key k → key' k) (hscalar : ∀ v, scalar v → scalar' v) (n : Node)
    (h : n.All key scalar) : n.All key' scalar' := by
  cases n with
  | string | integer | float | boolean | datetime => exact hscalar _ h
  | array aot items => exact itemsAll_imp hkey hscalar items h
  | table flag es => exact entriesAll_imp hkey hscalar es h

lemma itemsAll_imp (hkey : ∀ k, key k → key' k) (hscalar : ∀ v, scalar v → scalar' v)
    (items : List Node) (h : itemsAll key scalar items) : itemsAll key' scalar' items := by
  match items with
  | [] => trivial
  | v :: vs => exact ⟨Node.All.imp hkey hscalar v h.1, itemsAll_imp hkey hscalar vs h.2⟩

lemma entriesAll_imp (hkey : ∀ k, key k → key' k) (hscalar : ∀ v, scalar v → scalar' v)
    (es : List (Key × Node)) (h : entriesAll key scalar es) : entriesAll key' scalar' es := by
  match es with
  | [] => trivial
  | (k, v) :: es =>
    exact ⟨hkey _ h.1, Node.All.imp hkey hscalar v h.2.1, entriesAll_imp hkey hscalar es h.2.2⟩

end

/-- A scalar in range: text in UTF-8, and the fields of a datetime. -/
def Node.ScalarOk : Node → Prop
  | .string s => Utf8.Valid s
  | .datetime kind dt => dt.Ok kind
  | _ => True

/-- The keys and scalars of a value. -/
lemma IsValue.all {n : Node} (h : IsValue n) : n.All Utf8.Valid Node.ScalarOk := by
  induction h with
  | string h => exact h
  | integer | float | boolean => exact trivial
  | datetime h => exact h
  | array _ ih => exact itemsAll_iff.mpr ih
  | table _ _ hkey _ ih => exact entriesAll_iff.mpr fun e he => ⟨hkey e he, ih e he⟩

/-- The keys and scalars of an entry. -/
lemma IsEntry.all {n : Node} (h : IsEntry n) : n.All Utf8.Valid Node.ScalarOk := by
  induction h with
  | value h _ => exact h.all
  | table _ _ hkey _ ih => exact entriesAll_iff.mpr fun e he => ⟨hkey e he, ih e he⟩
  | aot _ _ hkey _ ih =>
    refine itemsAll_iff.mpr fun v hv => ?_
    obtain ⟨es, hes, rfl⟩ := List.mem_map.mp hv
    exact entriesAll_iff.mpr fun e he => ⟨hkey es hes e he, ih es hes e he⟩

end Teptris
