import Mathlib.Data.List.TakeWhile
import Teptris.Schema.Validate

/-!
# What a schema says

The meaning of a compiled schema, by recursion on the schema alone: no report, no trials, no
order of checks.  Both the validator and this meaning rest on the same leaf predicates.
-/

namespace Teptris

/-! ## The instance -/

mutual

/-- The JSON view of a document: as the validator converts it, but with the keys whole. -/
def instanceOf : Node → SValue
  | .string s => .string s
  | .integer i => .int i
  | .float f => .float f
  | .boolean b => .bool b
  | .datetime kind dt => datetimeToSv kind dt
  | .array _ items => .array (itemsInstance items)
  | .table _ es => .table (entriesInstance es)

/-- The elements of an array. -/
def itemsInstance : List Node → List SValue
  | [] => []
  | v :: vs => instanceOf v :: itemsInstance vs

/-- The members of a table. -/
def entriesInstance : List (Key × Node) → List (Bytes × SValue)
  | [] => []
  | (k, v) :: es => (k.bytes, instanceOf v) :: entriesInstance es

end

mutual

/-- No key holds a NUL byte. -/
def NulFree : Node → Prop
  | .array _ items => itemsNulFree items
  | .table _ es => entriesNulFree es
  | _ => True

/-- No key of the elements holds a NUL byte. -/
def itemsNulFree : List Node → Prop
  | [] => True
  | v :: vs => NulFree v ∧ itemsNulFree vs

/-- No key of the members, or below, holds a NUL byte. -/
def entriesNulFree : List (Key × Node) → Prop
  | [] => True
  | (k, v) :: es => 0 ∉ k.bytes ∧ NulFree v ∧ entriesNulFree es

end

lemma cstr_eq_self {k : Bytes} (h : 0 ∉ k) : cstr k = k := by
  unfold cstr
  apply List.takeWhile_eq_self_iff.mpr
  intro b hb
  have hne : b ≠ 0 := fun h0 => h (h0 ▸ hb)
  simpa using hne

mutual

/-- Without NUL bytes the conversion loses nothing. -/
lemma nodeToSv_eq (n : Node) (h : NulFree n) : nodeToSv n = instanceOf n := by
  cases n with
  | string | integer | float | boolean | datetime => rfl
  | array aot items => rw [nodeToSv, instanceOf, itemsToSv_eq items h]
  | table flag es => rw [nodeToSv, instanceOf, entriesToSv_eq es h]

lemma itemsToSv_eq (vs : List Node) (h : itemsNulFree vs) : itemsToSv vs = itemsInstance vs := by
  cases vs with
  | nil => rfl
  | cons v vs => rw [itemsToSv, itemsInstance, nodeToSv_eq v h.1, itemsToSv_eq vs h.2]

lemma entriesToSv_eq (es : List (Key × Node)) (h : entriesNulFree es) :
    entriesToSv es = entriesInstance es := by
  match es with
  | [] => rfl
  | (k, v) :: es =>
    rw [entriesToSv, entriesInstance, cstr_eq_self h.1, nodeToSv_eq v h.2.1,
      entriesToSv_eq es h.2.2]

end

/-! ## The assertions of a schema -/

section Asserts

variable {R : Type} (lf : Leaves R) (a : Assertions R)

/-- The keywords without sub-schemas hold of a value. -/
structure Asserts (v : SValue) : Prop where
  /-- The schema is not the false schema. -/
  notFalse : a.isFalse = false
  /-- `type`. -/
  type : a.types = St.any ∨ a.types &&& svToSt lf v ≠ 0
  /-- `const`. -/
  const : ∀ cv, a.constVal = some cv → lf.svEqual cv v = true
  /-- `"enum": []`. -/
  enumEmpty : a.enumEmpty = false
  /-- `enum`. -/
  enum : a.enumVals ≠ [] → ∃ ev ∈ a.enumVals, lf.svEqual ev v = true
  /-- `minimum` and its kin. -/
  bounds : isNum v → ∀ kw b, a.bounds kw = some b → lf.within kw b v = true
  /-- `multipleOf`. -/
  mult : isNum v → ∀ m, a.mult = some m → lf.multOk m v = true
  /-- `minLength`. -/
  minLength : ∀ s, v.text = some s → ∀ l, a.minLength = some l → l ≤ cpCount s
  /-- `maxLength`. -/
  maxLength : ∀ s, v.text = some s → ∀ l, a.maxLength = some l → (cpCount s : ℤ) ≤ l
  /-- `pattern`. -/
  pattern : ∀ s, v.text = some s → ∀ re, a.pattern = some re → lf.isMatch re s = true
  /-- `minProperties`. -/
  minProps : ∀ ms, v = .table ms → ∀ l, a.minProps = some l → l ≤ ms.length
  /-- `maxProperties`. -/
  maxProps : ∀ ms, v = .table ms → ∀ l, a.maxProps = some l → (ms.length : ℤ) ≤ l
  /-- `required`. -/
  required : ∀ ms, v = .table ms → ∀ k ∈ a.required, k ∈ ms.map Prod.fst
  /-- `dependentRequired`. -/
  depReq : ∀ ms, v = .table ms → ∀ d ∈ a.depReq, d.1 ∈ ms.map Prod.fst →
    ∀ k ∈ d.2, k ∈ ms.map Prod.fst
  /-- `minItems`. -/
  minItems : ∀ vs, v = .array vs → ∀ l, a.minItems = some l → l ≤ vs.length
  /-- `maxItems`. -/
  maxItems : ∀ vs, v = .array vs → ∀ l, a.maxItems = some l → (vs.length : ℤ) ≤ l
  /-- `uniqueItems`. -/
  unique : ∀ vs, v = .array vs → a.uniqueItems = true →
    vs.Pairwise fun x y => lf.svEqual x y = false

end Asserts

/-! ## Sub-schemas -/

/-- The schemas right under a schema. -/
def SchNode.children {R : Type} : SchNode R → List (SchNode R)
  | .mk _ props pprops additional propNames depSchemas tuple items addItems contains allOf anyOf
      oneOf not_ if_ then_ else_ =>
    props.map Prod.snd ++ pprops.map Prod.snd ++ additional.toList ++ propNames.toList ++
      depSchemas.map Prod.snd ++ tuple ++ items.toList ++ addItems.toList ++ contains.toList ++
      allOf ++ anyOf ++ oneOf ++ not_.toList ++ if_.toList ++ then_.toList ++ else_.toList

lemma SchNode.mem_children {R : Type} {m : SchNode R} {a : Assertions R}
    {props : List (Bytes × SchNode R)} {pprops : List (R × SchNode R)}
    {additional propNames : Option (SchNode R)} {depSchemas : List (Bytes × SchNode R)}
    {tuple : List (SchNode R)} {items addItems contains : Option (SchNode R)}
    {allOf anyOf oneOf : List (SchNode R)} {not_ if_ then_ else_ : Option (SchNode R)} :
    m ∈ (SchNode.mk a props pprops additional propNames depSchemas tuple items addItems contains
      allOf anyOf oneOf not_ if_ then_ else_).children ↔
    (∃ p ∈ props, p.2 = m) ∨ (∃ p ∈ pprops, p.2 = m) ∨ additional = some m ∨
      propNames = some m ∨ (∃ p ∈ depSchemas, p.2 = m) ∨ m ∈ tuple ∨ items = some m ∨
      addItems = some m ∨ contains = some m ∨ m ∈ allOf ∨ m ∈ anyOf ∨ m ∈ oneOf ∨
      not_ = some m ∨ if_ = some m ∨ then_ = some m ∨ else_ = some m := by
  simp [SchNode.children]

lemma sizeOf_lt_of_mem_pairs {α β : Type} [SizeOf α] [SizeOf β] {l : List (α × β)} {m : β}
    (h : ∃ p ∈ l, p.2 = m) : sizeOf m < sizeOf l := by
  obtain ⟨p, hp, rfl⟩ := h
  have hlt := List.sizeOf_lt_of_mem hp
  have hpair : sizeOf p = 1 + sizeOf p.1 + sizeOf p.2 := by cases p; rfl
  omega

lemma sizeOf_lt_of_eq_some {β : Type} [SizeOf β] {o : Option β} {m : β} (h : o = some m) :
    sizeOf m < sizeOf o := by
  have hsome : sizeOf (some m) = 1 + sizeOf m := rfl
  rw [h]
  omega

/-- A schema is larger than those under it. -/
lemma SchNode.sizeOf_lt {R : Type} {n m : SchNode R} (h : m ∈ n.children) :
    sizeOf m < sizeOf n := by
  cases n with
  | mk =>
    rw [SchNode.mem_children] at h
    simp only [SchNode.mk.sizeOf_spec]
    rcases h with h | h | h | h | h | h | h | h | h | h | h | h | h | h | h | h
    all_goals
      first
      | have := sizeOf_lt_of_mem_pairs h
        omega
      | have := sizeOf_lt_of_eq_some h
        omega
      | have := List.sizeOf_lt_of_mem h
        omega

/-! ## The meaning of a schema -/

open Classical in
/-- A schema holds of a value. -/
noncomputable def Holds {R : Type} (lf : Leaves R) : SchNode R → SValue → Prop
  | .mk a props pprops additional propNames depSchemas tuple items addItems contains allOf anyOf
      oneOf not_ if_ then_ else_, v =>
    Asserts lf a v ∧
    -- the members of a table
    (∀ ms, v = .table ms →
      (∀ m ∈ ms,
        (∀ p, props.find? (fun p => p.1 = m.1) = some p → Holds lf p.2 m.2) ∧
        (∀ p, p ∈ pprops → lf.isMatch p.1 m.1 = true → Holds lf p.2 m.2) ∧
        (∀ s, additional = some s → (∀ p ∈ props, p.1 ≠ m.1) →
          (∀ p ∈ pprops, lf.isMatch p.1 m.1 = false) → Holds lf s m.2) ∧
        (∀ s, propNames = some s → Holds lf s (.string m.1))) ∧
      (∀ p, p ∈ depSchemas → p.1 ∈ ms.map Prod.fst → Holds lf p.2 v)) ∧
    -- the elements of an array
    (∀ vs, v = .array vs →
      (∀ (i : ℕ) w, vs[i]? = some w →
        (∀ s, tuple[i]? = some s → Holds lf s w) ∧
        (tuple.length ≤ i →
          (∀ s, items = some s → Holds lf s w) ∧
          (items = none → ∀ s, addItems = some s → Holds lf s w))) ∧
      (∀ s, contains = some s →
        a.minContains.getD 1 ≤ vs.countP (fun w => Holds lf s w) ∧
        (vs.countP (fun w => Holds lf s w) : ℤ) ≤ a.maxContains.getD vs.length)) ∧
    -- the applicators
    (∀ s, s ∈ allOf → Holds lf s v) ∧
    (anyOf ≠ [] → ∃ s, ∃ _ : s ∈ anyOf, Holds lf s v) ∧
    (oneOf ≠ [] → ∃ i : ℕ, (∃ s, ∃ _ : oneOf[i]? = some s, Holds lf s v) ∧
      ∀ j, j ≠ i → ∀ s, oneOf[j]? = some s → ¬ Holds lf s v) ∧
    (∀ s, not_ = some s → ¬ Holds lf s v) ∧
    (∀ s, if_ = some s →
      (Holds lf s v → ∀ t, then_ = some t → Holds lf t v) ∧
      (¬ Holds lf s v → ∀ e, else_ = some e → Holds lf e v))
termination_by n => n
decreasing_by
  all_goals
    apply SchNode.sizeOf_lt
    rw [SchNode.mem_children]
    grind [List.mem_of_find?_eq_some, List.mem_of_getElem?]

end Teptris
