import Teptris.Dom.Node
import Teptris.Library.Utf8

/-!
# Well-formed trees

What holds of every tree the parser builds: keys are distinct and well-formed UTF-8, scalars
are in range, the members of inline tables are values or tables of dotted keys, and an array of
tables is a non-empty list of tables named by headers.
-/

namespace Teptris

/-! ## Tables as maps -/

section Entries

variable {k l : Key} {v w : Node} {es : Entries}

lemma probe_cons (k l : Key) (v : Node) (es : Entries) :
    probe k ((l, v) :: es) = if l = k then some v else probe k es := by
  simp only [probe, Key.same_iff]

/-- A probe finds only entries. -/
lemma mem_of_probe (h : probe k es = some v) : (k, v) ∈ es := by
  induction es with
  | nil => simp [probe] at h
  | cons e es ih =>
    obtain ⟨l, w⟩ := e
    rw [probe_cons] at h
    split_ifs at h with hl
    · obtain rfl := Option.some_inj.mp h
      simp [hl]
    · exact List.mem_cons_of_mem _ (ih h)

/-- A probe misses exactly the keys that are not there. -/
lemma probe_eq_none : probe k es = none ↔ k ∉ es.map Prod.fst := by
  induction es with
  | nil => simp [probe]
  | cons e es ih =>
    obtain ⟨l, w⟩ := e
    rw [probe_cons]
    by_cases hl : l = k
    · simp [hl]
    · simp [hl, ih, Ne.symm hl]

/-- With distinct keys, a probe finds every entry. -/
lemma probe_of_mem (hd : (es.map Prod.fst).Nodup) (h : (k, v) ∈ es) : probe k es = some v := by
  induction es with
  | nil => simp at h
  | cons e es ih =>
    obtain ⟨l, w⟩ := e
    rw [List.map_cons, List.nodup_cons] at hd
    rw [probe_cons]
    rcases List.mem_cons.mp h with heq | htail
    · obtain ⟨rfl, rfl⟩ := Prod.mk.inj heq
      simp
    · have hne : l ≠ k := by
        rintro rfl
        exact hd.1 (List.mem_map.mpr ⟨_, htail, rfl⟩)
      rw [if_neg hne]
      exact ih hd.2 htail

lemma probe_insert_self (h : probe k es = none) : probe k (insert es k v) = some v := by
  induction es with
  | nil => simp [insert, probe]
  | cons e es ih =>
    obtain ⟨l, w⟩ := e
    rw [probe_cons] at h
    split_ifs at h with hl
    rw [insert, List.cons_append, probe_cons, if_neg hl]
    exact ih h

lemma probe_insert_ne (h : k ≠ l) : probe l (insert es k v) = probe l es := by
  induction es with
  | nil => simp [insert, probe, h]
  | cons e es ih =>
    obtain ⟨m, w⟩ := e
    rw [insert, List.cons_append, probe_cons, probe_cons]
    split_ifs
    · rfl
    · exact ih

lemma probe_setValue_self (h : probe k es = some w) :
    probe k (setValue k v es) = some v := by
  induction es with
  | nil => simp [probe] at h
  | cons e es ih =>
    obtain ⟨l, u⟩ := e
    rw [probe_cons] at h
    simp only [setValue, Key.same_iff]
    split_ifs at h ⊢ with hl
    · simp [probe_cons, hl]
    · rw [probe_cons, if_neg hl]
      exact ih h

lemma probe_setValue_ne (h : k ≠ l) : probe l (setValue k v es) = probe l es := by
  induction es with
  | nil => rfl
  | cons e es ih =>
    obtain ⟨m, w⟩ := e
    simp only [setValue, Key.same_iff]
    split_ifs with hm
    · rw [probe_cons, probe_cons, if_neg (hm ▸ h), if_neg (hm ▸ h)]
    · rw [probe_cons, probe_cons, ih]

/-- A write keeps the keys. -/
@[simp] lemma map_fst_setValue : (setValue k v es).map Prod.fst = es.map Prod.fst := by
  induction es with
  | nil => rfl
  | cons e es ih =>
    obtain ⟨l, w⟩ := e
    simp only [setValue]
    split_ifs
    · rfl
    · simp [ih]

/-- Every entry after a write was there, or is the written one. -/
lemma mem_setValue {e : Key × Node} (h : e ∈ setValue k v es) : e ∈ es ∨ e = (k, v) := by
  induction es with
  | nil => simp [setValue] at h
  | cons f es ih =>
    obtain ⟨l, w⟩ := f
    simp only [setValue, Key.same_iff] at h
    split_ifs at h with hl
    · rcases List.mem_cons.mp h with rfl | h
      · exact .inr (by rw [hl])
      · exact .inl (List.mem_cons_of_mem _ h)
    · rcases List.mem_cons.mp h with rfl | h
      · exact .inl (by simp)
      · exact (ih h).imp (List.mem_cons_of_mem _) id

/-- Writing the value a probe found changes nothing. -/
lemma setValue_self (h : probe k es = some v) : setValue k v es = es := by
  induction es with
  | nil => rfl
  | cons e es ih =>
    obtain ⟨l, w⟩ := e
    rw [probe_cons] at h
    simp only [setValue, Key.same_iff]
    split_ifs at h ⊢ with hl
    · obtain rfl := Option.some_inj.mp h
      rfl
    · rw [ih h]

/-- The entries of a table: distinct keys of well-formed text over values of a kind. -/
structure GoodEntries (child : Node → Prop) (es : Entries) : Prop where
  /-- No key occurs twice. -/
  nodup : (es.map Prod.fst).Nodup
  /-- Keys are text. -/
  key : ∀ e ∈ es, Utf8.Valid e.1.bytes
  /-- The values are of the kind. -/
  value : ∀ e ∈ es, child e.2

variable {child : Node → Prop}

lemma GoodEntries.nil : GoodEntries child [] := ⟨List.nodup_nil, by simp, by simp⟩

lemma GoodEntries.of_probe (h : GoodEntries child es) (hk : probe k es = some v) : child v :=
  h.value _ (mem_of_probe hk)

lemma GoodEntries.insert (h : GoodEntries child es) (hk : probe k es = none)
    (hkey : Utf8.Valid k.bytes) (hv : child v) : GoodEntries child (insert es k v) where
  nodup := by
    rw [Teptris.insert, List.map_append]
    refine List.nodup_append.mpr ⟨h.nodup, by simp, ?_⟩
    rintro l hl _ hl' rfl
    obtain rfl : l = k := by simpa using hl'
    exact probe_eq_none.mp hk hl
  key := by
    intro e he
    rcases List.mem_append.mp he with he | he
    · exact h.key e he
    · obtain rfl := List.mem_singleton.mp he
      exact hkey
  value := by
    intro e he
    rcases List.mem_append.mp he with he | he
    · exact h.value e he
    · obtain rfl := List.mem_singleton.mp he
      exact hv

lemma GoodEntries.setValue (h : GoodEntries child es) (hk : probe k es = some w)
    (hv : child v) : GoodEntries child (setValue k v es) where
  nodup := by
    rw [map_fst_setValue]
    exact h.nodup
  key := by
    intro e he
    rcases mem_setValue he with he | rfl
    · exact h.key e he
    · exact h.key (k, w) (mem_of_probe hk)
  value := by
    intro e he
    rcases mem_setValue he with he | rfl
    · exact h.value e he
    · exact hv

end Entries

/-! ## Scalars -/

/-- `days_in_month`. -/
def daysInMonth (y m : ℕ) : ℕ :=
  if m = 2 then
    if (y % 4 = 0 ∧ y % 100 ≠ 0) ∨ y % 400 = 0 then 29 else 28
  else [31, 28, 31, 30, 31, 30, 31, 31, 30, 31, 30, 31].getD (m - 1) 0

lemma daysInMonth_le (y m : ℕ) : daysInMonth y m ≤ 31 := by
  have hall : ∀ i < 12, [31, 28, 31, 30, 31, 30, 31, 31, 30, 31, 30, 31].getD i 0 ≤ 31 := by
    decide
  rw [daysInMonth]
  split_ifs
  · omega
  · omega
  · rcases Nat.lt_or_ge (m - 1) 12 with hlt | hge
    · exact hall _ hlt
    · have hnone := List.getElem?_eq_none (l := [31, 28, 31, 30, 31, 30, 31, 31, 30, 31, 30, 31])
        (by simpa using hge)
      rw [List.getD_eq_getElem?_getD, hnone]
      exact Nat.zero_le _

/-- The fields of a date are in range. -/
structure Datetime.DateOk (dt : Datetime) (y : ℕ) : Prop where
  /-- Four digits. -/
  year : dt.year = Int32.ofNat y ∧ y ≤ 9999
  /-- January to December. -/
  month : 1 ≤ dt.month.toNat ∧ dt.month.toNat ≤ 12
  /-- A day of the month. -/
  day : 1 ≤ dt.day.toNat ∧ dt.day.toNat ≤ daysInMonth y dt.month.toNat

/-- The fields of a time are in range. -/
structure Datetime.TimeOk (dt : Datetime) : Prop where
  /-- 0 to 23. -/
  hour : dt.hour.toNat ≤ 23
  /-- 0 to 59. -/
  minute : dt.minute.toNat ≤ 59
  /-- 0 to 60. -/
  second : dt.second.toNat ≤ 60
  /-- Nine digits. -/
  nanosecond : dt.nanosecond.toNat < 1000000000

/-- The date fields are unused. -/
def Datetime.NoDate (dt : Datetime) : Prop := dt.year = 0 ∧ dt.month = 0 ∧ dt.day = 0

/-- The time fields are unused. -/
def Datetime.NoTime (dt : Datetime) : Prop :=
  dt.hour = 0 ∧ dt.minute = 0 ∧ dt.second = 0 ∧ dt.nanosecond = 0

/-- The offset is a whole number of minutes within a day. -/
def Datetime.OffsetOk (dt : Datetime) : Prop :=
  ∃ oh ≤ 23, ∃ om ≤ 59,
    dt.offsetSeconds = Int32.ofNat (oh * 3600 + om * 60) ∨
    dt.offsetSeconds = -Int32.ofNat (oh * 3600 + om * 60)

/-- A datetime with the fields of its kind in range and the others unused. -/
def Datetime.Ok (dt : Datetime) : DtKind → Prop
  | .datetimeOffset => (∃ y, dt.DateOk y) ∧ dt.TimeOk ∧ dt.OffsetOk
  | .datetimeLocal => (∃ y, dt.DateOk y) ∧ dt.TimeOk ∧ dt.offsetSeconds = 0
  | .dateLocal => (∃ y, dt.DateOk y) ∧ dt.NoTime ∧ dt.offsetSeconds = 0
  | .timeLocal => dt.NoDate ∧ dt.TimeOk ∧ dt.offsetSeconds = 0

/-! ## Trees -/

/-- A value, as it stands behind an equals sign or in an array. -/
inductive IsValue : Node → Prop
  | string {s : Bytes} (h : Utf8.Valid s) : IsValue (.string s)
  | integer (i : Int64) : IsValue (.integer i)
  | float (f : Double) : IsValue (.float f)
  | boolean (b : Bool) : IsValue (.boolean b)
  | datetime {kind : DtKind} {dt : Datetime} (h : dt.Ok kind) : IsValue (.datetime kind dt)
  | array {items : List Node} (h : ∀ v ∈ items, IsValue v) : IsValue (.array false items)
  /-- An inline table; the members of a member `.table .dotted` are listed with it. -/
  | table {flag : TblFlag} {es : Entries} (hflag : flag = .inline ∨ flag = .dotted)
      (nodup : (es.map Prod.fst).Nodup) (key : ∀ e ∈ es, Utf8.Valid e.1.bytes)
      (h : ∀ e ∈ es, IsValue e.2) : IsValue (.table flag es)

/-- The value of an entry of the root or of a table a header names. -/
inductive IsEntry : Node → Prop
  | value {v : Node} (h : IsValue v) (hflag : ∀ es, v ≠ .table .dotted es) : IsEntry v
  | table {flag : TblFlag} {es : Entries} (hflag : flag ≠ .inline)
      (nodup : (es.map Prod.fst).Nodup) (key : ∀ e ∈ es, Utf8.Valid e.1.bytes)
      (h : ∀ e ∈ es, IsEntry e.2) : IsEntry (.table flag es)
  | aot {items : List Entries} (hne : items ≠ [])
      (nodup : ∀ es ∈ items, (es.map Prod.fst).Nodup)
      (key : ∀ es ∈ items, ∀ e ∈ es, Utf8.Valid e.1.bytes)
      (h : ∀ es ∈ items, ∀ e ∈ es, IsEntry e.2) :
      IsEntry (.array true (items.map (.table .explicit)))

/-- The inline tables of a value and their members. -/
lemma isValue_table_iff {flag : TblFlag} {es : Entries} :
    IsValue (.table flag es) ↔ (flag = .inline ∨ flag = .dotted) ∧ GoodEntries IsValue es := by
  constructor
  · rintro (_ | _ | _ | _ | _ | _ | ⟨hflag, hnodup, hkey, h⟩)
    exact ⟨hflag, hnodup, hkey, h⟩
  · rintro ⟨hflag, h⟩
    exact .table hflag h.nodup h.key h.value

/-- The tables that are not values. -/
lemma isEntry_table_iff {flag : TblFlag} {es : Entries} (hflag : flag ≠ .inline) :
    IsEntry (.table flag es) ↔ GoodEntries IsEntry es := by
  constructor
  · intro h
    cases h with
    | value h hd =>
      obtain ⟨hf, hes⟩ := isValue_table_iff.mp h
      rcases hf with rfl | rfl
      · exact absurd rfl hflag
      · exact absurd rfl (hd es)
    | table _ hnodup hkey h => exact ⟨hnodup, hkey, h⟩
  · intro h
    exact .table hflag h.nodup h.key h.value

/-- The arrays of tables. -/
lemma isEntry_aot_iff {items : List Node} :
    IsEntry (.array true items) ↔
      ∃ ts : List Entries, items = ts.map (.table .explicit) ∧ ts ≠ [] ∧
        ∀ es ∈ ts, GoodEntries IsEntry es := by
  constructor
  · intro h
    generalize hn : Node.array true items = n at h
    cases h with
    | value h hd =>
      subst hn
      cases h
    | table => simp at hn
    | aot hne hnodup hkey h =>
      obtain rfl := (Node.array.inj hn).2
      exact ⟨_, rfl, hne, fun es hes => ⟨hnodup es hes, hkey es hes, h es hes⟩⟩
  · rintro ⟨ts, rfl, hne, h⟩
    exact .aot hne (fun es hes => (h es hes).nodup) (fun es hes => (h es hes).key)
      fun es hes => (h es hes).value

end Teptris
