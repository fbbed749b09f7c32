import Teptris.Dom.WellFormed

/-!
# Heights

How deep containers are nested in a tree, and what attaching, replacing and finding entries do
to it.
-/

namespace Teptris

mutual

/-- How deep containers are nested in a node. -/
def Node.height : Node → ℕ
  | .array _ items => itemsHeight items + 1
  | .table _ es => entriesHeight es + 1
  | _ => 0

/-- How deep containers are nested in the elements of an array. -/
def itemsHeight : List Node → ℕ
  | [] => 0
  | v :: vs => max v.height (itemsHeight vs)

/-- How deep containers are nested in the values of a table. -/
def entriesHeight : List (Key × Node) → ℕ
  | [] => 0
  | (_, v) :: es => max v.height (entriesHeight es)

end

lemma itemsHeight_append (vs : List Node) (v : Node) :
    itemsHeight (vs ++ [v]) = max (itemsHeight vs) v.height := by
  induction vs with
  | nil => simp [itemsHeight]
  | cons w vs ih => simp [itemsHeight, ih, Nat.max_assoc]

lemma entriesHeight_append (es : Entries) (e : Key × Node) :
    entriesHeight (es ++ [e]) = max (entriesHeight es) e.2.height := by
  induction es with
  | nil => simp [entriesHeight]
  | cons f es ih => simp [entriesHeight, ih, Nat.max_assoc]

/-- A member of an array is no higher than its elements together. -/
lemma height_le_itemsHeight {v : Node} {vs : List Node} (h : v ∈ vs) :
    v.height ≤ itemsHeight vs := by
  induction vs with
  | nil => exact absurd h List.not_mem_nil
  | cons w vs ih =>
    rw [itemsHeight]
    rcases List.mem_cons.mp h with rfl | h
    · exact Nat.le_max_left _ _
    · exact Nat.le_trans (ih h) (Nat.le_max_right _ _)

/-- A value of a table is no higher than its values together. -/
lemma height_le_entriesHeight {e : Key × Node} {es : Entries} (h : e ∈ es) :
    e.2.height ≤ entriesHeight es := by
  induction es with
  | nil => exact absurd h List.not_mem_nil
  | cons f es ih =>
    obtain ⟨l, w⟩ := f
    rw [entriesHeight]
    rcases List.mem_cons.mp h with rfl | h
    · exact Nat.le_max_left _ _
    · exact Nat.le_trans (ih h) (Nat.le_max_right _ _)

/-! ## Replacing and finding -/

/-- The value a probe finds is no higher than the values of the table. -/
lemma height_le_of_probe {k : Key} {es : Entries} {v : Node} (h : probe k es = some v) :
    v.height ≤ entriesHeight es := by
  induction es with
  | nil => simp [probe] at h
  | cons e es ih =>
    obtain ⟨l, w⟩ := e
    rw [probe] at h
    rw [entriesHeight]
    split_ifs at h
    · obtain rfl := Option.some.inj h
      exact Nat.le_max_left _ _
    · exact Nat.le_trans (ih h) (Nat.le_max_right _ _)

/-- Putting a value that is no lower in the place of another one. -/
lemma entriesHeight_setValue {k : Key} {es : Entries} {v w : Node} (h : probe k es = some w)
    (hle : w.height ≤ v.height) :
    entriesHeight (setValue k v es) = max (entriesHeight es) v.height := by
  induction es with
  | nil => simp [probe] at h
  | cons e es ih =>
    obtain ⟨l, u⟩ := e
    rw [probe] at h
    rw [setValue]
    split_ifs at h ⊢
    · obtain rfl := Option.some.inj h
      rw [entriesHeight, entriesHeight]
      omega
    · rw [entriesHeight, entriesHeight, ih h, Nat.max_assoc]

/-- Putting an element that is no lower in the place of the last one. -/
lemma itemsHeight_setLast {items : List Node} {v w : Node} (h : items.getLast? = some w)
    (hle : w.height ≤ v.height) :
    itemsHeight (items.dropLast ++ [v]) = max (itemsHeight items) v.height := by
  obtain ⟨init, rfl⟩ : ∃ init, items = init ++ [w] :=
    ⟨items.dropLast, (List.dropLast_append_getLast? _ h).symm⟩
  rw [List.dropLast_concat, itemsHeight_append, itemsHeight_append]
  omega

/-! ## Containers by depth -/

/-- A container `depth` levels below a node, the node itself at depth 0. -/
inductive Node.HasContainer : ℕ → Node → Prop
  /-- An array. -/
  | array {aot : Bool} {items : List Node} : HasContainer 0 (.array aot items)
  /-- A table. -/
  | table {flag : TblFlag} {es : List (Key × Node)} : HasContainer 0 (.table flag es)
  /-- A container in an element. -/
  | element {aot : Bool} {items : List Node} {depth : ℕ} {v : Node} (hv : v ∈ items)
      (h : HasContainer depth v) : HasContainer (depth + 1) (.array aot items)
  /-- A container in a value. -/
  | value {flag : TblFlag} {es : List (Key × Node)} {depth : ℕ} {e : Key × Node} (he : e ∈ es)
      (h : HasContainer depth e.2) : HasContainer (depth + 1) (.table flag es)

lemma Node.HasContainer.lt_height {depth : ℕ} {n : Node} (h : n.HasContainer depth) :
    depth < n.height := by
  induction h with
  | array | table =>
    rw [height]
    omega
  | element hv h ih =>
    rw [height]
    have := height_le_itemsHeight hv
    omega
  | value he h ih =>
    rw [height]
    have := height_le_entriesHeight he
    omega

mutual

/-- The deepest container lies one level above the height. -/
lemma Node.hasContainer_of_height : ∀ {n : Node} {depth : ℕ}, n.height = depth + 1 →
    n.HasContainer depth
  | .array aot items, depth, h => by
    rw [Node.height, Nat.add_right_cancel_iff] at h
    obtain _ | depth := depth
    · exact .array
    · obtain ⟨v, hv, hdeep⟩ := exists_of_itemsHeight h
      exact .element hv hdeep
  | .table flag es, depth, h => by
    rw [Node.height, Nat.add_right_cancel_iff] at h
    obtain _ | depth := depth
    · exact .table
    · obtain ⟨e, he, hdeep⟩ := exists_of_entriesHeight h
      exact .value he hdeep
  | .string _, _, h | .integer _, _, h | .float _, _, h | .boolean _, _, h
  | .datetime _ _, _, h => by
    simp [Node.height] at h

lemma exists_of_itemsHeight : ∀ {items : List Node} {depth : ℕ}, itemsHeight items = depth + 1 →
    ∃ v ∈ items, v.HasContainer depth
  | [], _, h => by simp [itemsHeight] at h
  | v :: items, depth, h => by
    rw [itemsHeight] at h
    rcases Nat.le_total v.height (itemsHeight items) with hle | hle
    · rw [Nat.max_eq_right hle] at h
      obtain ⟨w, hw, hdeep⟩ := exists_of_itemsHeight h
      exact ⟨w, List.mem_cons_of_mem _ hw, hdeep⟩
    · rw [Nat.max_eq_left hle] at h
      exact ⟨v, List.mem_cons_self, Node.hasContainer_of_height h⟩

lemma exists_of_entriesHeight : ∀ {es : List (Key × Node)} {depth : ℕ},
    entriesHeight es = depth + 1 → ∃ e ∈ es, e.2.HasContainer depth
  | [], _, h => by simp [entriesHeight] at h
  | (k, v) :: es, depth, h => by
    rw [entriesHeight] at h
    rcases Nat.le_total v.height (entriesHeight es) with hle | hle
    · rw [Nat.max_eq_right hle] at h
      obtain ⟨e, he, hdeep⟩ := exists_of_entriesHeight h
      exact ⟨e, List.mem_cons_of_mem _ he, hdeep⟩
    · rw [Nat.max_eq_left hle] at h
      exact ⟨(k, v), List.mem_cons_self, Node.hasContainer_of_height h⟩

end

/-- No container of a node lies deeper than a bound exactly where the height says so. -/
lemma Node.depth_le_iff_height {n : Node} {bound : ℕ} :
    (∀ depth, n.HasContainer depth → depth ≤ bound) ↔ n.height ≤ bound + 1 := by
  constructor
  · intro h
    obtain hzero | ⟨depth, hdepth⟩ : n.height = 0 ∨ ∃ depth, n.height = depth + 1 := by
      cases n.height with
      | zero => exact .inl rfl
      | succ depth => exact .inr ⟨depth, rfl⟩
    · omega
    · have := h depth (hasContainer_of_height hdepth)
      omega
  · intro h depth hdepth
    have := hdepth.lt_height
    omega

end Teptris
