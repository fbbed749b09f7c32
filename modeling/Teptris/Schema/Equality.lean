import Mathlib.Data.List.Nodup
import Teptris.Dom.Compare
import Teptris.Schema.JsonRead
import Teptris.Schema.Semantics

/-!
# Equality of values

`sv_equal` against the equality of JSON Schema, which is that of what two values stand for: numbers
by their value, arrays element by element, and objects as maps from names.
-/

namespace Teptris

/-! ## The values of a schema -/

mutual

/-- `jv_to_sv`. -/
def jvToSv : Jv → SValue
  | .null => .null
  | .bool b => .bool b
  | .number (.int i) => .int i
  | .number (.num d) => .float d
  | .string s => .string s
  | .array items => .array (jvItemsToSv items)
  | .object members => .table (jvMembersToSv members)

/-- The elements of an array. -/
def jvItemsToSv : List Jv → List SValue
  | [] => []
  | v :: vs => jvToSv v :: jvItemsToSv vs

/-- The members of an object. -/
def jvMembersToSv : List (Bytes × Jv) → List (Bytes × SValue)
  | [] => []
  | (k, v) :: ms => (cstr k, jvToSv v) :: jvMembersToSv ms

end

/-! ## The comparison -/

/-- `(long double)i == (long double)f`; a `long double` holds every integer of 64 bits. -/
def longDoubleEq (i : Int64) (f : Double) : Bool := f.isFinite && f.value = i.toInt

/-- A date or time, in text, and a string: UTC may be spelled out in the string. -/
def dateEqualsString (dt : SValue) (text s : Bytes) : Bool :=
  text = s ||
    match dt with
    | .datetime _ _ =>
      text.getLast? = some 0x5A && 6 < s.length && s.drop (s.length - 6) = ascii "+00:00" &&
        text.length - 1 = s.length - 6 && text.take (s.length - 6) = s.take (s.length - 6)
    | _ => false

/-- `sv_equal` of two values that are not both arrays or both tables. -/
def leafEqual : SValue → SValue → Bool
  | .string s, .string s' => s = s'
  | .int i, .int j => i = j
  | .float f, .float g => f.eq g
  | .bool b, .bool b' => b = b'
  | .null, .null => true
  | .datetime s _, .datetime s' _ => s = s'
  | .date s, .date s' => s = s'
  | .time s, .time s' => s = s'
  | .int i, .float f => longDoubleEq i f
  | .float f, .int i => longDoubleEq i f
  | .string s, .datetime t o => dateEqualsString (.datetime t o) t s
  | .string s, .date t => dateEqualsString (.date t) t s
  | .string s, .time t => dateEqualsString (.time t) t s
  | .datetime t o, .string s => dateEqualsString (.datetime t o) t s
  | .date t, .string s => dateEqualsString (.date t) t s
  | .time t, .string s => dateEqualsString (.time t) t s
  | _, _ => false

mutual

/-- `sv_equal`. -/
def svEqual : SValue → SValue → Bool
  | .array xs, .array ys => itemsEqual xs ys
  | .table ms, .table ms' => ms.length = ms'.length && membersEqual ms ms'
  | .string s, b => leafEqual (.string s) b
  | .int i, b => leafEqual (.int i) b
  | .float f, b => leafEqual (.float f) b
  | .bool c, b => leafEqual (.bool c) b
  | .null, b => leafEqual .null b
  | .datetime t o, b => leafEqual (.datetime t o) b
  | .date t, b => leafEqual (.date t) b
  | .time t, b => leafEqual (.time t) b
  | _, _ => false

/-- Arrays of one length, element by element. -/
def itemsEqual : List SValue → List SValue → Bool
  | [], [] => true
  | x :: xs, y :: ys => svEqual x y && itemsEqual xs ys
  | _, _ => false

/-- Every member of the one table against the first one of its name in the other. -/
def membersEqual : List (Bytes × SValue) → List (Bytes × SValue) → Bool
  | [], _ => true
  | (k, v) :: ms, ms' =>
    (match ms'.find? fun m => m.1 = k with
      | none => false
      | some m => svEqual v m.2) && membersEqual ms ms'

end

/-! ## What a value stands for -/

/-- A value of JSON Schema; an object is a map. -/
inductive JVal where
  /-- `null`. -/
  | null
  /-- `true` or `false`. -/
  | bool (b : Bool)
  /-- A number, infinities included. -/
  | number (x : WithBot (WithTop ℚ))
  /-- A string. -/
  | string (s : Bytes)
  /-- An array. -/
  | array (items : List JVal)
  /-- An object. -/
  | object (members : Bytes → Option JVal)
  /-- A date or time, which JSON does not have. -/
  | other

mutual

/-- What a value stands for. -/
def SValue.denote : SValue → JVal
  | .string s => .string s
  | .int i => .number ((i.toInt : ℚ) : WithTop ℚ)
  | .float f => .number f.ext
  | .bool b => .bool b
  | .null => .null
  | .array items => .array (itemsDenote items)
  | .table members => .object (membersDenote members)
  | .datetime _ _ => .other
  | .date _ => .other
  | .time _ => .other

/-- The elements of an array. -/
def itemsDenote : List SValue → List JVal
  | [] => []
  | v :: vs => v.denote :: itemsDenote vs

/-- The map of members: the last one of a name, as for `jv_member_get`. -/
def membersDenote : List (Bytes × SValue) → Bytes → Option JVal
  | [] => fun _ => none
  | (k, v) :: ms => fun k' => (membersDenote ms k').or (if k' = k then some v.denote else none)

end

/-! ## Parts -/

/-- A value is a part of another one. -/
inductive SValue.Part : SValue → SValue → Prop
  /-- Itself. -/
  | self (v : SValue) : Part v v
  /-- A part of an element. -/
  | item {w v : SValue} {items : List SValue} (hv : v ∈ items) (h : Part w v) :
      Part w (.array items)
  /-- A part of a member. -/
  | member {w : SValue} {m : Bytes × SValue} {ms : List (Bytes × SValue)} (hm : m ∈ ms)
      (h : Part w m.2) : Part w (.table ms)

namespace SValue

/-- No NaN. -/
def NaNFree (v : SValue) : Prop := ∀ f, Part (.float f) v → f.isNan = false

/-- No table with two members of one name. -/
def NoRepeat (v : SValue) : Prop := ∀ ms, Part (.table ms) v → (ms.map Prod.fst).Nodup

/-- No date or time, and no NUL in a name. -/
structure Plain (v : SValue) : Prop where
  /-- No datetime. -/
  noDatetime (t : Bytes) (o : Bool) : ¬ Part (.datetime t o) v
  /-- No date. -/
  noDate (t : Bytes) : ¬ Part (.date t) v
  /-- No time. -/
  noTime (t : Bytes) : ¬ Part (.time t) v
  /-- No NUL. -/
  names (ms : List (Bytes × SValue)) (h : Part (.table ms) v) : ∀ m ∈ ms, (0 : UInt8) ∉ m.1

/-- Neither an array nor a table. -/
def IsLeaf : SValue → Prop
  | .array _ => False
  | .table _ => False
  | _ => True

/-- Induction on the parts of a value. -/
theorem parts_induct {P : SValue → Prop} (leaf : ∀ v, v.IsLeaf → P v)
    (array : ∀ items, (∀ v ∈ items, P v) → P (.array items))
    (table : ∀ ms, (∀ m ∈ ms, P m.2) → P (.table ms)) : ∀ v, P v
  | .array items => array items fun v _ => parts_induct leaf array table v
  | .table ms => table ms fun m _ => parts_induct leaf array table m.2
  | .string s => leaf _ trivial
  | .int i => leaf _ trivial
  | .float f => leaf _ trivial
  | .bool b => leaf _ trivial
  | .null => leaf _ trivial
  | .datetime t o => leaf _ trivial
  | .date t => leaf _ trivial
  | .time t => leaf _ trivial
termination_by v => sizeOf v
decreasing_by
  · have := List.sizeOf_lt_of_mem (by assumption : v ∈ items)
    simp
    omega
  · have := List.sizeOf_lt_of_mem (by assumption : m ∈ ms)
    obtain ⟨k, v⟩ := m
    simp at this ⊢
    omega

section Parts

variable {v : SValue} {items : List SValue} {m : Bytes × SValue} {ms : List (Bytes × SValue)}

lemma NaNFree.item (h : (SValue.array items).NaNFree) (hv : v ∈ items) : v.NaNFree :=
  fun f hf => h f (.item hv hf)

lemma NaNFree.member (h : (SValue.table ms).NaNFree) (hm : m ∈ ms) : m.2.NaNFree :=
  fun f hf => h f (.member hm hf)

lemma NoRepeat.item (h : (SValue.array items).NoRepeat) (hv : v ∈ items) : v.NoRepeat :=
  fun ms hms => h ms (.item hv hms)

lemma NoRepeat.member (h : (SValue.table ms).NoRepeat) (hm : m ∈ ms) : m.2.NoRepeat :=
  fun ms hms => h ms (.member hm hms)

lemma NoRepeat.names (h : (SValue.table ms).NoRepeat) : (ms.map Prod.fst).Nodup := h ms (.self _)

lemma Plain.item (h : (SValue.array items).Plain) (hv : v ∈ items) : v.Plain where
  noDatetime t o hp := h.noDatetime t o (.item hv hp)
  noDate t hp := h.noDate t (.item hv hp)
  noTime t hp := h.noTime t (.item hv hp)
  names ms hms := h.names ms (.item hv hms)

lemma Plain.member (h : (SValue.table ms).Plain) (hm : m ∈ ms) : m.2.Plain where
  noDatetime t o hp := h.noDatetime t o (.member hm hp)
  noDate t hp := h.noDate t (.member hm hp)
  noTime t hp := h.noTime t (.member hm hp)
  names ms hms := h.names ms (.member hm hms)

end Parts

end SValue

/-! ## Members -/

section Members

variable {ms ms' : List (Bytes × SValue)} {m : Bytes × SValue} {k : Bytes} {w : JVal}

/-- Arrays are compared element by element. -/
lemma itemsEqual_iff {xs ys : List SValue}
    (ih : ∀ x ∈ xs, ∀ y ∈ ys, svEqual x y = true ↔ x.denote = y.denote) :
    itemsEqual xs ys = true ↔ itemsDenote xs = itemsDenote ys := by
  induction xs generalizing ys with
  | nil => cases ys <;> simp [itemsEqual, itemsDenote]
  | cons x xs ihxs =>
    cases ys with
    | nil => simp [itemsEqual, itemsDenote]
    | cons y ys =>
      have htail := ihxs fun x hx y hy =>
        ih x (List.mem_cons_of_mem _ hx) y (List.mem_cons_of_mem _ hy)
      rw [itemsEqual, Bool.and_eq_true, ih x (List.mem_cons_self ..) y (List.mem_cons_self ..),
        htail, itemsDenote, itemsDenote, List.cons.injEq]

lemma membersEqual_iff : membersEqual ms ms' = true ↔
    ∀ m ∈ ms, ∃ m', ms'.find? (fun m' => m'.1 = m.1) = some m' ∧ svEqual m.2 m'.2 = true := by
  induction ms with
  | nil => simp [membersEqual]
  | cons m ms ih =>
    obtain ⟨k, v⟩ := m
    rw [membersEqual, Bool.and_eq_true, ih, List.forall_mem_cons]
    refine and_congr_left fun _ => ?_
    cases ms'.find? fun m' => m'.1 = k <;> simp

lemma membersDenote_cons (k : Bytes) (v : SValue) (ms : List (Bytes × SValue)) (k' : Bytes) :
    membersDenote ((k, v) :: ms) k' =
      (membersDenote ms k').or (if k' = k then some v.denote else none) := by
  rw [membersDenote]

/-- The map of members has the names of the list. -/
lemma membersDenote_eq_none : membersDenote ms k = none ↔ k ∉ ms.map Prod.fst := by
  induction ms with
  | nil => simp [membersDenote]
  | cons m ms ih =>
    obtain ⟨k', v⟩ := m
    rw [membersDenote_cons, List.map_cons, List.mem_cons, not_or, ← ih, Option.or_eq_none_iff,
      and_comm]
    simp

/-- What the map has, a member stands for. -/
lemma exists_member (h : membersDenote ms k = some w) : ∃ m ∈ ms, m.1 = k ∧ m.2.denote = w := by
  induction ms with
  | nil => simp [membersDenote] at h
  | cons m ms ih =>
    obtain ⟨k', v⟩ := m
    rw [membersDenote_cons, Option.or_eq_some_iff] at h
    rcases h with hrest | ⟨-, hfirst⟩
    · obtain ⟨m, hm, hkey⟩ := ih hrest
      exact ⟨m, List.mem_cons_of_mem _ hm, hkey⟩
    · split_ifs at hfirst with hk
      exact ⟨(k', v), List.mem_cons_self .., hk.symm, by simpa using hfirst⟩

/-- Without repeated names every member counts. -/
lemma membersDenote_mem (hnodup : (ms.map Prod.fst).Nodup) (hm : m ∈ ms) :
    membersDenote ms m.1 = some m.2.denote := by
  cases hd : membersDenote ms m.1 with
  | none => exact absurd (List.mem_map_of_mem hm) (membersDenote_eq_none.mp hd)
  | some w =>
    obtain ⟨m', hm', hkey, rfl⟩ := exists_member hd
    rw [List.inj_on_of_nodup_map hnodup hm' hm hkey]

/-- Without repeated names a lookup finds the member. -/
lemma find_member (hnodup : (ms.map Prod.fst).Nodup) (hm : m ∈ ms) :
    ms.find? (fun m' => m'.1 = m.1) = some m := by
  cases hfind : ms.find? fun m' => m'.1 = m.1 with
  | none =>
    have := List.find?_eq_none.mp hfind m hm
    simp at this
  | some m' =>
    have hkey : m'.1 = m.1 := by simpa using List.find?_some hfind
    rw [List.inj_on_of_nodup_map hnodup (List.mem_of_find?_eq_some hfind) hm hkey]

end Members

/-! ## Values without repeated names -/

section Compare

variable {a b : SValue}

/-- An integer and a float are equal where their values are. -/
lemma longDoubleEq_iff {i : Int64} {f : Double} (hf : f.isNan = false) :
    longDoubleEq i f = true ↔ (((i.toInt : ℚ) : WithTop ℚ) : WithBot (WithTop ℚ)) = f.ext := by
  rw [longDoubleEq, Double.isFinite, hf, Double.ext]
  by_cases hinf : f.isInf = true
  · rw [hinf, if_pos rfl]
    split_ifs <;> simp
  · rw [Bool.not_eq_true] at hinf
    rw [hinf, if_neg (by simp)]
    simp [eq_comm]

/-- Values that are no containers. -/
lemma leafEqual_iff (ha : a.Plain) (hb : b.Plain) (hfa : a.NaNFree) (hfb : b.NaNFree)
    (hleaf : a.IsLeaf) : svEqual a b = true ↔ a.denote = b.denote := by
  have hnan : ∀ {f : Double}, (SValue.float f).NaNFree → f.isNan = false := fun h => h _ (.self _)
  have hdatetime : ∀ t o, ¬ (SValue.datetime t o).Plain := fun t o h => h.noDatetime t o (.self _)
  have hdate : ∀ t, ¬ (SValue.date t).Plain := fun t h => h.noDate t (.self _)
  have htime : ∀ t, ¬ (SValue.time t).Plain := fun t h => h.noTime t (.self _)
  cases a with
  | array | table => exact hleaf.elim
  | datetime t o => exact absurd ha (hdatetime t o)
  | date t => exact absurd ha (hdate t)
  | time t => exact absurd ha (htime t)
  | string s =>
    cases b with
    | datetime t o => exact absurd hb (hdatetime t o)
    | date t => exact absurd hb (hdate t)
    | time t => exact absurd hb (htime t)
    | _ => simp [svEqual, leafEqual, SValue.denote]
  | bool c => cases b <;> simp [svEqual, leafEqual, SValue.denote]
  | null => cases b <;> simp [svEqual, leafEqual, SValue.denote]
  | int i =>
    cases b with
    | int j =>
      have hcast : (i.toInt : ℚ) = j.toInt ↔ i = j := by
        rw [Int.cast_inj, Int64.toInt_inj]
      simp [svEqual, leafEqual, SValue.denote, hcast]
    | float f => simp [svEqual, leafEqual, SValue.denote, longDoubleEq_iff (hnan hfb)]
    | _ => simp [svEqual, leafEqual, SValue.denote]
  | float f =>
    cases b with
    | int j => simp [svEqual, leafEqual, SValue.denote, longDoubleEq_iff (hnan hfa), eq_comm]
    | float g => simp [svEqual, leafEqual, SValue.denote, Double.eq, hnan hfa, hnan hfb]
    | _ => simp [svEqual, leafEqual, SValue.denote]

/-- Without repeated names the comparison is that of the maps. -/
lemma membersEqual_eq_iff {ms ms' : List (Bytes × SValue)} (hms : (ms.map Prod.fst).Nodup)
    (hms' : (ms'.map Prod.fst).Nodup)
    (ih : ∀ m ∈ ms, ∀ m' ∈ ms', svEqual m.2 m'.2 = true ↔ m.2.denote = m'.2.denote) :
    (ms.length = ms'.length ∧ membersEqual ms ms' = true) ↔
      membersDenote ms = membersDenote ms' := by
  rw [membersEqual_iff]
  constructor
  · rintro ⟨hlen, hall⟩
    -- every member has a partner
    have hpartner : ∀ m ∈ ms, ∃ m' ∈ ms', m'.1 = m.1 ∧ m.2.denote = m'.2.denote := by
      intro m hm
      obtain ⟨m', hfind, heq⟩ := hall m hm
      have hmem := List.mem_of_find?_eq_some hfind
      exact ⟨m', hmem, by simpa using List.find?_some hfind, (ih m hm m' hmem).mp heq⟩
    have hsub : ms.map Prod.fst ⊆ ms'.map Prod.fst := by
      intro k hk
      obtain ⟨m, hm, rfl⟩ := List.mem_map.mp hk
      obtain ⟨m', hm', hkey, -⟩ := hpartner m hm
      exact hkey ▸ List.mem_map_of_mem hm'
    have hperm : (ms.map Prod.fst).Perm (ms'.map Prod.fst) :=
      (List.subperm_of_subset hms hsub).perm_of_length_le (by simp [hlen])
    funext k
    by_cases hk : k ∈ ms.map Prod.fst
    · obtain ⟨m, hm, rfl⟩ := List.mem_map.mp hk
      obtain ⟨m', hm', hkey, heq⟩ := hpartner m hm
      rw [membersDenote_mem hms hm, ← hkey, membersDenote_mem hms' hm', heq]
    · rw [membersDenote_eq_none.mpr hk, membersDenote_eq_none.mpr (mt hperm.mem_iff.mpr hk)]
  · intro heq
    have hmem : ∀ k, k ∈ ms.map Prod.fst ↔ k ∈ ms'.map Prod.fst := by
      intro k
      rw [← not_iff_not, ← membersDenote_eq_none, ← membersDenote_eq_none, heq]
    have hperm : (ms.map Prod.fst).Perm (ms'.map Prod.fst) :=
      (List.perm_ext_iff_of_nodup hms hms').mpr hmem
    refine ⟨by simpa using hperm.length_eq, fun m hm => ?_⟩
    obtain ⟨m', hm', hkey⟩ := List.mem_map.mp ((hmem m.1).mp (List.mem_map_of_mem hm))
    have hsame := congrFun heq m.1
    rw [membersDenote_mem hms hm, ← hkey, membersDenote_mem hms' hm', Option.some.injEq] at hsame
    exact ⟨m', by rw [← hkey, find_member hms' hm'], (ih m hm m' hm').mpr hsame⟩

/-- Without NaNs, dates and repeated names the comparison is the equality of JSON Schema. -/
theorem svEqual_iff_denote (a b : SValue) (ha : a.Plain) (hb : b.Plain) (hfa : a.NaNFree)
    (hfb : b.NaNFree) (hra : a.NoRepeat) (hrb : b.NoRepeat) :
    svEqual a b = true ↔ a.denote = b.denote := by
  induction a using SValue.parts_induct generalizing b with
  | leaf a hleaf => exact leafEqual_iff ha hb hfa hfb hleaf
  | array items ih =>
    cases b with
    | array items' =>
      have hall : ∀ v ∈ items, ∀ w ∈ items', svEqual v w = true ↔ v.denote = w.denote :=
        fun v hv w hw => ih v hv w (ha.item hv) (hb.item hw) (hfa.item hv) (hfb.item hw)
          (hra.item hv) (hrb.item hw)
      rw [svEqual, itemsEqual_iff hall, SValue.denote, SValue.denote, JVal.array.injEq]
    | _ => simp [svEqual, SValue.denote]
  | table ms ih =>
    cases b with
    | table ms' =>
      have hall : ∀ m ∈ ms, ∀ m' ∈ ms', svEqual m.2 m'.2 = true ↔ m.2.denote = m'.2.denote :=
        fun m hm m' hm' => ih m hm m'.2 (ha.member hm) (hb.member hm') (hfa.member hm)
          (hfb.member hm') (hra.member hm) (hrb.member hm')
      rw [SValue.denote, SValue.denote, JVal.object.injEq,
        ← membersEqual_eq_iff hra.names hrb.names hall, svEqual, Bool.and_eq_true,
        decide_eq_true_eq]
    | _ => simp [svEqual, SValue.denote]

end Compare

/-! ## Values with repeated names -/

section Repeats

variable {a b v : SValue} {items : List SValue} {ms : List (Bytes × SValue)}

lemma noRepeat_leaf (h : v.IsLeaf) : v.NoRepeat := by
  intro ms hms
  cases hms with
  | self => exact h.elim
  | item => exact h.elim
  | member => exact h.elim

lemma noRepeat_array (h : ∀ v ∈ items, v.NoRepeat) : (SValue.array items).NoRepeat := by
  intro ms hms
  cases hms with
  | item hv hpart => exact h _ hv ms hpart

lemma noRepeat_table (hnodup : (ms.map Prod.fst).Nodup) (h : ∀ m ∈ ms, m.2.NoRepeat) :
    (SValue.table ms).NoRepeat := by
  intro ms' hms
  cases hms with
  | self => exact hnodup
  | member hm hpart => exact h _ hm ms' hpart

lemma nanFree_array (h : ∀ v ∈ items, v.NaNFree) : (SValue.array items).NaNFree := by
  intro f hf
  cases hf with
  | item hv hpart => exact h _ hv f hpart

lemma nanFree_table (h : ∀ m ∈ ms, m.2.NaNFree) : (SValue.table ms).NaNFree := by
  intro f hf
  cases hf with
  | member hm hpart => exact h _ hm f hpart

lemma plain_array (h : ∀ v ∈ items, v.Plain) : (SValue.array items).Plain := by
  refine ⟨fun t o hp => ?_, fun t hp => ?_, fun t hp => ?_, fun ms hp => ?_⟩
  · cases hp with
    | item hv hpart => exact (h _ hv).noDatetime t o hpart
  · cases hp with
    | item hv hpart => exact (h _ hv).noDate t hpart
  · cases hp with
    | item hv hpart => exact (h _ hv).noTime t hpart
  · cases hp with
    | item hv hpart => exact (h _ hv).names ms hpart

lemma plain_table (hnames : ∀ m ∈ ms, (0 : UInt8) ∉ m.1) (h : ∀ m ∈ ms, m.2.Plain) :
    (SValue.table ms).Plain := by
  refine ⟨fun t o hp => ?_, fun t hp => ?_, fun t hp => ?_, fun ms' hp => ?_⟩
  · cases hp with
    | member hm hpart => exact (h _ hm).noDatetime t o hpart
  · cases hp with
    | member hm hpart => exact (h _ hm).noDate t hpart
  · cases hp with
    | member hm hpart => exact (h _ hm).noTime t hpart
  · cases hp with
    | self => exact hnames
    | member hm hpart => exact (h _ hm).names ms' hpart

/-- Every element of an array has a partner in an equal one. -/
lemma itemsEqual_partner {xs ys : List SValue} (heq : itemsEqual xs ys = true)
    (hd : itemsDenote xs = itemsDenote ys) :
    ∀ x ∈ xs, ∃ y ∈ ys, svEqual x y = true ∧ x.denote = y.denote := by
  induction xs generalizing ys with
  | nil => exact fun x hx => absurd hx (List.not_mem_nil)
  | cons x xs ih =>
    cases ys with
    | nil => simp [itemsEqual] at heq
    | cons y ys =>
      rw [itemsEqual, Bool.and_eq_true] at heq
      rw [itemsDenote, itemsDenote, List.cons.injEq] at hd
      intro z hz
      rcases List.mem_cons.mp hz with rfl | hz
      · exact ⟨y, List.mem_cons_self .., heq.1, hd.1⟩
      · obtain ⟨y', hy', hrest⟩ := ih heq.2 hd.2 z hz
        exact ⟨y', List.mem_cons_of_mem _ hy', hrest⟩

/-- A value that is the same as one without repeated names and is found equal to it has none. -/
lemma noRepeat_of_equal (a b : SValue) (heq : svEqual a b = true) (hd : a.denote = b.denote)
    (hb : b.NoRepeat) : a.NoRepeat := by
  induction a using SValue.parts_induct generalizing b with
  | leaf a hleaf => exact noRepeat_leaf hleaf
  | array items ih =>
    cases b with
    | array items' =>
      rw [svEqual] at heq
      rw [SValue.denote, SValue.denote, JVal.array.injEq] at hd
      refine noRepeat_array fun v hv => ?_
      obtain ⟨w, hw, hvw, hdw⟩ := itemsEqual_partner heq hd v hv
      exact ih v hv w hvw hdw (hb.item hw)
    | _ => simp [svEqual] at heq
  | table ms ih =>
    cases b with
    | table ms' =>
      rw [svEqual, Bool.and_eq_true, decide_eq_true_eq, membersEqual_iff] at heq
      rw [SValue.denote, SValue.denote, JVal.object.injEq] at hd
      -- as many members as names
      have hsub : ms'.map Prod.fst ⊆ ms.map Prod.fst := by
        intro k hk
        rw [← not_not (a := k ∈ ms.map Prod.fst), ← membersDenote_eq_none, hd,
          membersDenote_eq_none]
        exact not_not.mpr hk
      have hperm : (ms'.map Prod.fst).Perm (ms.map Prod.fst) :=
        (List.subperm_of_subset hb.names hsub).perm_of_length_le (by simp [heq.1])
      have hnodup : (ms.map Prod.fst).Nodup := hperm.nodup_iff.mp hb.names
      refine noRepeat_table hnodup fun m hm => ?_
      obtain ⟨m', hfind, hmm⟩ := heq.2 m hm
      have hm' := List.mem_of_find?_eq_some hfind
      have hkey : m'.1 = m.1 := by simpa using List.find?_some hfind
      have hsame := congrFun hd m.1
      rw [membersDenote_mem hnodup hm, ← hkey, membersDenote_mem hb.names hm',
        Option.some.injEq] at hsame
      exact ih m hm m'.2 hmm hsame (hb.member hm')
    | _ => simp [svEqual] at heq

end Repeats

/-! ## Produced values -/

/-- What `jv_to_sv` gives for a JSON value, and `node_to_sv` for a node without dates and times. -/
inductive SValue.Produced : SValue → Prop
  /-- From a schema. -/
  | jv (j : Jv) : Produced (jvToSv j)
  /-- From a document. -/
  | node {n : Node} (hdatetime : ∀ t o, ¬ Part (.datetime t o) (nodeToSv n))
      (hdate : ∀ t, ¬ Part (.date t) (nodeToSv n))
      (htime : ∀ t, ¬ Part (.time t) (nodeToSv n)) : Produced (nodeToSv n)

/-- A produced value without NaNs and repeated names. -/
structure SValue.Tidy (v : SValue) : Prop where
  /-- It is produced. -/
  produced : v.Produced
  /-- It has no NaN. -/
  nanFree : v.NaNFree
  /-- It has no repeated name. -/
  noRepeat : v.NoRepeat

section Produced

variable {a b v w : SValue}

lemma jvItemsToSv_eq (items : List Jv) : jvItemsToSv items = items.map jvToSv := by
  induction items with
  | nil => rfl
  | cons v vs ih => rw [jvItemsToSv, ih, List.map_cons]

lemma jvMembersToSv_eq (ms : List (Bytes × Jv)) :
    jvMembersToSv ms = ms.map fun m => (cstr m.1, jvToSv m.2) := by
  induction ms with
  | nil => rfl
  | cons m ms ih =>
    obtain ⟨k, v⟩ := m
    rw [jvMembersToSv, ih, List.map_cons]

lemma cstr_noNul (k : Bytes) : (0 : UInt8) ∉ cstr k := by
  intro h
  have := List.mem_takeWhile_imp h
  simp at this

/-- The parts of what `jv_to_sv` gives are given by it. -/
lemma part_jvToSv (h : w.Part v) : ∀ j, v = jvToSv j → ∃ j', w = jvToSv j' := by
  induction h with
  | self => exact fun j hj => ⟨j, hj⟩
  | item hv _ ih =>
    intro j hj
    cases j with
    | array js =>
      rw [jvToSv, SValue.array.injEq, jvItemsToSv_eq] at hj
      rw [hj] at hv
      obtain ⟨j', -, rfl⟩ := List.mem_map.mp hv
      exact ih j' rfl
    | number n => cases n <;> simp [jvToSv] at hj
    | _ => simp [jvToSv] at hj
  | member hm _ ih =>
    intro j hj
    cases j with
    | object js =>
      rw [jvToSv, SValue.table.injEq, jvMembersToSv_eq] at hj
      rw [hj] at hm
      obtain ⟨m', -, rfl⟩ := List.mem_map.mp hm
      exact ih m'.2 rfl
    | number n => cases n <;> simp [jvToSv] at hj
    | _ => simp [jvToSv] at hj

lemma itemsToSv_map (vs : List Node) : itemsToSv vs = vs.map nodeToSv := by
  induction vs with
  | nil => rfl
  | cons v vs ih => rw [itemsToSv, ih, List.map_cons]

lemma entriesToSv_map (es : List (Key × Node)) :
    entriesToSv es = es.map fun e => (cstr e.1.bytes, nodeToSv e.2) := by
  induction es with
  | nil => rfl
  | cons e es ih =>
    obtain ⟨k, v⟩ := e
    rw [entriesToSv, ih, List.map_cons]

lemma entriesToSv_names (es : List (Key × Node)) (h : entriesNulFree es) :
    (entriesToSv es).map Prod.fst = es.map fun e => e.1.bytes := by
  induction es with
  | nil => rfl
  | cons e es ih =>
    obtain ⟨k, n⟩ := e
    rw [entriesToSv, List.map_cons, List.map_cons, ih h.2.2, cstr_eq_self h.1]

lemma nulFree_item {n : Node} {ns : List Node} (h : itemsNulFree ns) (hn : n ∈ ns) :
    NulFree n := by
  induction ns with
  | nil => exact absurd hn (List.not_mem_nil)
  | cons m ns ih =>
    rcases List.mem_cons.mp hn with rfl | hn
    · exact h.1
    · exact ih h.2 hn

lemma nulFree_entry {e : Key × Node} {es : List (Key × Node)} (h : entriesNulFree es)
    (he : e ∈ es) : NulFree e.2 := by
  induction es with
  | nil => exact absurd he (List.not_mem_nil)
  | cons m es ih =>
    rcases List.mem_cons.mp he with rfl | he
    · exact h.2.1
    · exact ih h.2.2 he

/-- The parts of what `node_to_sv` gives are given by it. -/
lemma part_nodeToSv (h : w.Part v) : ∀ n, v = nodeToSv n → ∃ n', w = nodeToSv n' := by
  induction h with
  | self => exact fun n hn => ⟨n, hn⟩
  | item hv _ ih =>
    intro n hn
    cases n with
    | array aot ns =>
      rw [nodeToSv, SValue.array.injEq, itemsToSv_map] at hn
      rw [hn] at hv
      obtain ⟨n', -, rfl⟩ := List.mem_map.mp hv
      exact ih n' rfl
    | datetime kind dt => cases kind <;> simp [nodeToSv, datetimeToSv] at hn
    | _ => simp [nodeToSv] at hn
  | member hm _ ih =>
    intro n hn
    cases n with
    | table flag es =>
      rw [nodeToSv, SValue.table.injEq, entriesToSv_map] at hn
      rw [hn] at hm
      obtain ⟨e, -, rfl⟩ := List.mem_map.mp hm
      exact ih e.2 rfl
    | datetime kind dt => cases kind <;> simp [nodeToSv, datetimeToSv] at hn
    | _ => simp [nodeToSv] at hn

/-- A produced value is plain. -/
lemma SValue.Produced.plain (h : v.Produced) : v.Plain := by
  cases h with
  | jv j =>
    have hno (j : Jv) (t : Bytes) (o : Bool) :
        jvToSv j ≠ .datetime t o ∧ jvToSv j ≠ .date t ∧ jvToSv j ≠ .time t := by
      cases j with
      | number n => cases n <;> simp [jvToSv]
      | _ => simp [jvToSv]
    refine ⟨fun t o hp => ?_, fun t hp => ?_, fun t hp => ?_, fun ms hp m hm => ?_⟩
    · obtain ⟨j', hj⟩ := part_jvToSv hp j rfl
      exact (hno j' t o).1 hj.symm
    · obtain ⟨j', hj⟩ := part_jvToSv hp j rfl
      exact (hno j' t true).2.1 hj.symm
    · obtain ⟨j', hj⟩ := part_jvToSv hp j rfl
      exact (hno j' t true).2.2 hj.symm
    · obtain ⟨j', hj⟩ := part_jvToSv hp j rfl
      cases j' with
      | object js =>
        rw [jvToSv, SValue.table.injEq, jvMembersToSv_eq] at hj
        rw [hj] at hm
        obtain ⟨m', -, rfl⟩ := List.mem_map.mp hm
        exact cstr_noNul m'.1
      | number n => cases n <;> simp [jvToSv] at hj
      | _ => simp [jvToSv] at hj
  | node hdatetime hdate htime =>
    refine ⟨hdatetime, hdate, htime, fun ms hp m hm => ?_⟩
    obtain ⟨n, hn⟩ := part_nodeToSv hp _ rfl
    cases n with
    | table flag es =>
      rw [nodeToSv, SValue.table.injEq, entriesToSv_map] at hn
      rw [hn] at hm
      obtain ⟨e, -, rfl⟩ := List.mem_map.mp hm
      exact cstr_noNul e.1.bytes
    | datetime kind dt => cases kind <;> simp [nodeToSv, datetimeToSv] at hn
    | _ => simp [nodeToSv] at hn

/-- A plain value is what `jv_to_sv` gives for some JSON value. -/
lemma exists_jv (v : SValue) (h : v.Plain) : ∃ j, v = jvToSv j := by
  induction v using SValue.parts_induct with
  | leaf v hleaf =>
    cases v with
    | array | table => exact hleaf.elim
    | string s => exact ⟨.string s, rfl⟩
    | int i => exact ⟨.number (.int i), rfl⟩
    | float f => exact ⟨.number (.num f), rfl⟩
    | bool b => exact ⟨.bool b, rfl⟩
    | null => exact ⟨.null, rfl⟩
    | datetime t o => exact absurd (.self _) (h.noDatetime t o)
    | date t => exact absurd (.self _) (h.noDate t)
    | time t => exact absurd (.self _) (h.noTime t)
  | array items ih =>
    have hall : ∀ items' : List SValue, items' ⊆ items → ∃ js, items' = jvItemsToSv js := by
      intro items' hsub
      induction items' with
      | nil => exact ⟨[], rfl⟩
      | cons v vs ihvs =>
        obtain ⟨js, hjs⟩ := ihvs (List.subset_of_cons_subset hsub)
        have hv := hsub (List.mem_cons_self ..)
        obtain ⟨j, hj⟩ := ih v hv (h.item hv)
        exact ⟨j :: js, by rw [jvItemsToSv, ← hj, ← hjs]⟩
    obtain ⟨js, hjs⟩ := hall items (List.Subset.refl _)
    exact ⟨.array js, by rw [jvToSv, hjs]⟩
  | table ms ih =>
    have hall : ∀ ms' : List (Bytes × SValue), ms' ⊆ ms → ∃ js, ms' = jvMembersToSv js := by
      intro ms' hsub
      induction ms' with
      | nil => exact ⟨[], rfl⟩
      | cons m ms' ihms =>
        obtain ⟨js, hjs⟩ := ihms (List.subset_of_cons_subset hsub)
        have hm := hsub (List.mem_cons_self ..)
        obtain ⟨j, hj⟩ := ih m hm (h.member hm)
        refine ⟨(m.1, j) :: js, ?_⟩
        rw [jvMembersToSv, ← hj, ← hjs, cstr_eq_self (h.names ms (.self _) m hm)]
    obtain ⟨js, hjs⟩ := hall ms (List.Subset.refl _)
    exact ⟨.object js, by rw [jvToSv, hjs]⟩

/-- Repeated names can be left out. -/
lemma exists_tidy (v : SValue) (h : v.Plain) (hnan : v.NaNFree) :
    ∃ w : SValue, w.Plain ∧ w.NaNFree ∧ w.NoRepeat ∧ w.denote = v.denote := by
  induction v using SValue.parts_induct with
  | leaf v hleaf => exact ⟨v, h, hnan, noRepeat_leaf hleaf, rfl⟩
  | array items ih =>
    have hall : ∀ vs : List SValue, vs ⊆ items → ∃ ws : List SValue,
        (∀ w ∈ ws, w.Plain ∧ w.NaNFree ∧ w.NoRepeat) ∧ itemsDenote ws = itemsDenote vs := by
      intro vs hsub
      induction vs with
      | nil => exact ⟨[], by simp, rfl⟩
      | cons v vs ihvs =>
        obtain ⟨ws, hws, hd⟩ := ihvs (List.subset_of_cons_subset hsub)
        have hv := hsub (List.mem_cons_self ..)
        obtain ⟨w, hplain, hfree, hrep, hdw⟩ := ih v hv (h.item hv) (hnan.item hv)
        refine ⟨w :: ws, List.forall_mem_cons.mpr ⟨⟨hplain, hfree, hrep⟩, hws⟩, ?_⟩
        rw [itemsDenote, itemsDenote, hdw, hd]
    obtain ⟨ws, hws, hd⟩ := hall items (List.Subset.refl _)
    refine ⟨.array ws, plain_array fun w hw => (hws w hw).1,
      nanFree_array fun w hw => (hws w hw).2.1, noRepeat_array fun w hw => (hws w hw).2.2, ?_⟩
    rw [SValue.denote, SValue.denote, hd]
  | table ms ih =>
    have hall : ∀ ms' : List (Bytes × SValue), ms' ⊆ ms → ∃ ws : List (Bytes × SValue),
        (∀ m ∈ ws, (0 : UInt8) ∉ m.1 ∧ m.2.Plain ∧ m.2.NaNFree ∧ m.2.NoRepeat) ∧
          (ws.map Prod.fst).Nodup ∧ membersDenote ws = membersDenote ms' := by
      intro ms' hsub
      induction ms' with
      | nil => exact ⟨[], by simp, by simp, rfl⟩
      | cons m ms' ihms =>
        obtain ⟨ws, hws, hnodup, hd⟩ := ihms (List.subset_of_cons_subset hsub)
        have hm := hsub (List.mem_cons_self ..)
        obtain ⟨w, hplain, hfree, hrep, hdw⟩ := ih m hm (h.member hm) (hnan.member hm)
        by_cases hk : m.1 ∈ ws.map Prod.fst
        · -- a later member of the name counts
          refine ⟨ws, hws, hnodup, funext fun k => ?_⟩
          rw [membersDenote_cons, ← hd]
          by_cases hkey : k = m.1
          · cases hw : membersDenote ws k with
            | none =>
              rw [hkey] at hw
              exact absurd hk (membersDenote_eq_none.mp hw)
            | some w' => rfl
          · rw [if_neg hkey, Option.or_none]
        · refine ⟨(m.1, w) :: ws, ?_, ?_, funext fun k => ?_⟩
          · exact List.forall_mem_cons.mpr ⟨⟨h.names ms (.self _) m hm, hplain, hfree, hrep⟩, hws⟩
          · exact List.nodup_cons.mpr ⟨hk, hnodup⟩
          · rw [membersDenote_cons, membersDenote_cons, hd, hdw]
    obtain ⟨ws, hws, hnodup, hd⟩ := hall ms (List.Subset.refl _)
    refine ⟨.table ws, plain_table (fun m hm => (hws m hm).1) fun m hm => (hws m hm).2.1,
      nanFree_table fun m hm => (hws m hm).2.2.1,
      noRepeat_table hnodup fun m hm => (hws m hm).2.2.2, ?_⟩
    rw [SValue.denote, SValue.denote, hd]

/-- The comparison of a value with the others is that of JSON Schema. -/
structure ComparesExactly (a : SValue) : Prop where
  /-- It is equal to itself. -/
  refl : svEqual a a = true
  /-- The order does not matter. -/
  symm {b : SValue} (hb : b.Tidy) : svEqual a b = svEqual b a
  /-- What is equal to an equal value is equal. -/
  trans {b c : SValue} (hb : b.Tidy) (hc : c.Tidy) (hab : svEqual a b = true)
    (hbc : svEqual b c = true) : svEqual a c = true
  /-- It is equal to what stands for the same. -/
  same {b : SValue} (hb : b.Tidy) : svEqual a b = true ↔ a.denote = b.denote

/-- A produced value is compared as JSON Schema demands if and only if no name is repeated in it. -/
theorem comparesExactly_iff (ha : a.Produced) (hnan : a.NaNFree) :
    ComparesExactly a ↔ a.NoRepeat := by
  constructor
  · intro h
    obtain ⟨b, hplain, hfree, hrep, hd⟩ := exists_tidy a ha.plain hnan
    obtain ⟨j, rfl⟩ := exists_jv b hplain
    have heq := (h.same ⟨.jv j, hfree, hrep⟩).mpr hd.symm
    exact noRepeat_of_equal a _ heq hd.symm hrep
  · intro hrep
    have hiff : ∀ {b c : SValue}, b.Tidy → c.Tidy → (svEqual b c = true ↔ b.denote = c.denote) :=
      fun {b c} hb hc => svEqual_iff_denote b c hb.produced.plain hc.produced.plain hb.nanFree
        hc.nanFree hb.noRepeat hc.noRepeat
    have hself : a.Tidy := ⟨ha, hnan, hrep⟩
    refine ⟨(hiff hself hself).mpr rfl, fun hb => ?_, fun hb hc hab hbc => ?_, hiff hself⟩
    · rw [Bool.eq_iff_iff, hiff hself hb, hiff hb hself, eq_comm]
    · rw [hiff hself hc, (hiff hself hb).mp hab, (hiff hb hc).mp hbc]

lemma nodup_names {es : List (Key × Node)} (hnodup : (es.map Prod.fst).Nodup)
    (hnul : entriesNulFree es) : ((entriesToSv es).map Prod.fst).Nodup := by
  induction es with
  | nil => simp [entriesToSv]
  | cons e es ih =>
    obtain ⟨k, n⟩ := e
    rw [List.map_cons, List.nodup_cons] at hnodup
    obtain ⟨hk, -, hrest⟩ := hnul
    rw [entriesToSv, List.map_cons, List.nodup_cons]
    refine ⟨fun hmem => hnodup.1 ?_, ih hnodup.2 hrest⟩
    have hbytes : (entriesToSv es).map Prod.fst = es.map fun e => e.1.bytes :=
      entriesToSv_names es hrest
    rw [hbytes, cstr_eq_self hk, List.mem_map] at hmem
    obtain ⟨e, he, hkey⟩ := hmem
    exact List.mem_map.mpr ⟨e, he, Key.ext hkey⟩

/-- The names of a parsed value are not repeated, but where they are cut off at a NUL. -/
lemma noRepeat_value {n : Node} (h : IsValue n) (hnul : NulFree n) : (nodeToSv n).NoRepeat := by
  induction h with
  | array h ih =>
    rw [nodeToSv, itemsToSv_map]
    refine noRepeat_array fun v hv => ?_
    obtain ⟨n, hn, rfl⟩ := List.mem_map.mp hv
    exact ih n hn (nulFree_item hnul hn)
  | table hflag nodup key h ih =>
    rw [nodeToSv]
    refine noRepeat_table (nodup_names nodup hnul) fun m hm => ?_
    rw [entriesToSv_map] at hm
    obtain ⟨e, he, rfl⟩ := List.mem_map.mp hm
    exact ih e he (nulFree_entry hnul he)
  | @datetime kind dt h => cases kind <;> exact noRepeat_leaf trivial
  | _ => exact noRepeat_leaf trivial

/-- A lookup in the map of members is that of the schema reader. -/
lemma membersDenote_jv (ms : List (Bytes × Jv)) (hms : ∀ m ∈ ms, (0 : UInt8) ∉ m.1) (k : Bytes) :
    membersDenote (jvMembersToSv ms) k = (jvMemberGet ms k).map fun j => (jvToSv j).denote := by
  induction ms with
  | nil => rfl
  | cons m ms ih =>
    obtain ⟨k', j⟩ := m
    have hrest := ih fun m hm => hms m (List.mem_cons_of_mem _ hm)
    rw [jvMembersToSv, membersDenote_cons, hrest, cstr_eq_self (hms _ (List.mem_cons_self ..)),
      jvMemberGet, jvMemberGet, List.reverse_cons, List.find?_append]
    cases ms.reverse.find? fun m => m.1 = k with
    | some m => rfl
    | none =>
      by_cases hk : k = k'
      · simp [hk]
      · simp [hk, Ne.symm hk]

end Produced

/-- Two members of one name. -/
def repeatedName : Jv :=
  .object [(ascii "a", .number (.int 1)), (ascii "a", .number (.int 2))]

/-- A number is compared exactly. -/
theorem comparesExactly_one :
    ComparesExactly (jvToSv (.number (.int 1))) ↔ (jvToSv (.number (.int 1))).NoRepeat :=
  comparesExactly_iff (.jv _) fun f hf => by cases hf

/-- An object with two members of one name is not equal to itself. -/
theorem repeatedName_unequal :
    jsonRead (fun _ => ⟨0⟩) (ascii "\x7b\"a\":1,\"a\":2\x7d") = .ok repeatedName ∧
      (jvToSv repeatedName).NaNFree ∧ svEqual (jvToSv repeatedName) (jvToSv repeatedName) = false ∧
      ¬ ComparesExactly (jvToSv repeatedName) := by
  have hne : svEqual (jvToSv repeatedName) (jvToSv repeatedName) = false := by decide
  refine ⟨rfl, fun f hf => ?_, hne, fun h => ?_⟩
  · cases hf with
    | member hm hpart =>
      rw [jvMembersToSv_eq, List.mem_map] at hm
      obtain ⟨m, hm, rfl⟩ := hm
      rcases List.mem_pair.mp hm with rfl | rfl <;> cases hpart
  · have := h.refl
    rw [hne] at this
    simp at this

end Teptris
