import Teptris.Dom.Indexed
import Teptris.Schema.Annotations

/-!
# The tables of a compile

The entries of `memo` and of `node_bases` with the hash table over the pointers that lead to them,
as `schema.c` grows, drops and builds it.  A slot holds the number of an entry from one on, in 32
bits, and a mask of 32 bits reaches no more than 2 ^ 32 slots.

Until 2 ^ 32 entries are put, a lookup ends and finds the entry of its key (`putsExact_iff`).  The
number of the entry that is put then is zero, which is a free slot, and it is not found.
-/

namespace Teptris

open Probing

/-! ## The tables -/

/-- `ptr_hash`. -/
def ptrHash (p : UInt64) : UInt32 :=
  (List.range 8).foldl
    (fun h i => (h ^^^ (p >>> UInt64.ofNat (8 * i) &&& 0xff).toUInt32) * 16777619) 2166136261

/-- The number of slots that a mask of 32 bits reaches. -/
def maskReach (cap : ℕ) : ℕ := (UInt32.ofNat cap - 1).toNat + 1

/-- `memo` or `node_bases`, each entry with the pointer it is found by. -/
structure PtrTable (α : Type) where
  /-- The entries. -/
  entries : List (UInt64 × α) := []
  /-- `cap_memo` or `cap_node_bases`. -/
  cap : ℕ := 0
  /-- The slots of the hash table that its mask reaches. -/
  slots : List UInt32 := []
  /-- `memo_hash_cap` or `node_base_hash_cap`. -/
  hashCap : ℕ := 0

/-- The capacity of a hash table for `n` entries. -/
def hashCapOf (n : ℕ) : ℕ := khashCapFor (n + 1) (n + 1) 64

/-- `hash_build`. -/
def hashBuild (keys : List UInt64) : Option (List UInt32) :=
  indexInsertAll 0 (keys.map fun k => (ptrHash k).toUInt64)
    (List.replicate (maskReach (hashCapOf keys.length)) 0)

namespace PtrTable

variable {α : Type}

/-- The pointers of the entries. -/
def keys (t : PtrTable α) : List UInt64 := t.entries.map Prod.fst

/-- What ends the loop of `hash_find`. -/
def endsFind (t : PtrTable α) (key : UInt64) (x : UInt32) : Bool :=
  isFreeSlot x || t.entries[x.toNat - 1]?.any fun e => e.1 == key

/-- `hash_find`; the inner `none` is `SIZE_MAX`. -/
def hashFind (t : PtrTable α) (key : UInt64) : Option (Option ℕ) :=
  if t.hashCap = 0 then some none
  else (find (t.endsFind key) t.slots (ptrHash key).toNat).map fun slot =>
    t.slots[slot]?.bind fun x => if isFreeSlot x then none else some (x.toNat - 1)

/-- The rebuild of `memo_hash_put` and `node_base_hash_put`. -/
def hashRoom (t : PtrTable α) : Option (PtrTable α) :=
  if t.hashCap * 7 / 10 < t.entries.length + 1 then
    (hashBuild t.keys).map fun slots => { t with slots, hashCap := hashCapOf t.keys.length }
  else some t

/-- `memo_hash_put` and `node_base_hash_put`. -/
def hashPut (t : PtrTable α) (key : UInt64) : Option (PtrTable α) :=
  t.hashRoom.bind fun t =>
    (indexInsert t.slots t.entries.length (ptrHash key).toUInt64).map fun slots => { t with slots }

/-- The growth of the entries, which drops the hash table. -/
def growEntries (first : ℕ) (t : PtrTable α) : PtrTable α :=
  if t.entries.length = t.cap then
    { t with cap := if t.cap = 0 then first else t.cap * 2, hashCap := 0 }
  else t

/-- `memo_put` and `node_base_put`, with the capacity of the first growth. -/
def put (first : ℕ) (t : PtrTable α) (key : UInt64) (a : α) : Option (PtrTable α) :=
  ((t.growEntries first).hashPut key).map fun t => { t with entries := t.entries ++ [(key, a)] }

/-- Lookups end, and find the entry of their key, or none where there is none. -/
def Exact (t : PtrTable α) : Prop :=
  ∀ key, t.hashFind key = some (t.entries.findIdx? fun e => e.1 == key)

/-- Insertions, one after the other. -/
def putAll (first : ℕ) : List (UInt64 × α) → PtrTable α → Option (PtrTable α)
  | [], t => some t
  | p :: ps, t => (t.put first p.1 p.2).bind (putAll first ps)

end PtrTable

/-- Every state of a run of insertions is reached, and its lookups are right. -/
def PutsExact {α : Type} (first : ℕ) (puts : List (UInt64 × α)) : Prop :=
  ∀ pre, pre <+: puts → ∃ t, PtrTable.putAll first pre {} = some t ∧ t.Exact

/-! ## The hash table -/

namespace PtrTable

variable {α : Type} {t : PtrTable α} {key : UInt64} {a : α} {first : ℕ}

/-- The mask reaches every slot, up to 2 ^ 32 of them. -/
lemma maskReach_two_pow (k : ℕ) : maskReach (2 ^ k) = 2 ^ min k 32 := by
  have hone : 1 % 2 ^ 32 = 1 := rfl
  rw [maskReach, UInt32.toNat_sub, UInt32.toNat_ofNat, UInt32.toNat_ofNat', hone]
  rcases Nat.lt_or_ge k 32 with hk | hk
  · have hlt : 2 ^ k < 2 ^ 32 := Nat.pow_lt_pow_right (by decide) hk
    have hpos := Nat.two_pow_pos k
    rw [Nat.min_eq_left hk.le, Nat.mod_eq_of_lt hlt]
    omega
  · rw [Nat.min_eq_right hk, Nat.mod_eq_zero_of_dvd (Nat.pow_dvd_pow 2 hk)]
    rfl

/-- What the hash table of some entries has: as many slots as a power of two, more than there are
entries, with the numbers of the entries in them. -/
structure Tabled (keys : List UInt64) (slots : List UInt32) (hashCap : ℕ) : Prop where
  /-- The slots. -/
  size : ∃ k, hashCap = 2 ^ k ∧ slots.length = 2 ^ min k 32
  /-- One is left free. -/
  room : keys.length < slots.length
  /-- The entries are indexed by their hashes. -/
  indexed : Indexed (keys.map fun k => (ptrHash k).toUInt64) slots

lemma Tabled.masked {keys : List UInt64} {slots : List UInt32} {hashCap : ℕ}
    (h : Tabled keys slots hashCap) : Masked slots := by
  obtain ⟨k, -, hlen⟩ := h.size
  exact ⟨_, hlen⟩

/-- A table whose entries are found by their pointers. -/
structure Good (t : PtrTable α) : Prop where
  /-- No pointer is there twice. -/
  nodup : t.keys.Nodup
  /-- Without a hash table there are no entries. -/
  tabled : t.hashCap = 0 ∧ t.entries = [] ∨ Tabled t.keys t.slots t.hashCap

lemma length_keys (t : PtrTable α) : t.keys.length = t.entries.length := List.length_map _

lemma good_new : ({} : PtrTable α).Good := ⟨List.nodup_nil, .inl ⟨rfl, rfl⟩⟩

lemma Good.bounded (h : t.Good) : t.entries.length < 2 ^ 32 := by
  rcases h.tabled with ⟨-, hnil⟩ | htab
  · rw [hnil]
    exact Nat.two_pow_pos 32
  · have hlen := htab.indexed.bounded
    rwa [List.length_map, length_keys] at hlen

/-- The hash table that is built for some pointers, and has room for one more. -/
lemma hashBuild_spec {keys : List UInt64} (h : keys.length < 2 ^ 32) :
    ∃ slots, hashBuild keys = some slots ∧ Tabled keys slots (hashCapOf keys.length) ∧
      keys.length + 1 ≤ hashCapOf keys.length * 7 / 10 := by
  obtain ⟨k, hk⟩ : ∃ k, hashCapOf keys.length = 2 ^ k := by
    obtain ⟨k, hk⟩ := EvalSet.exists_khashCapFor (keys.length + 1) (keys.length + 1) 6
    exact ⟨k, hk⟩
  have hload : keys.length + 1 ≤ hashCapOf keys.length * 7 / 10 :=
    EvalSet.le_khashCapFor_load (by decide) (by omega)
  have hroom : keys.length < 2 ^ min k 32 := by
    rcases Nat.le_total k 32 with hle | hle
    · rw [Nat.min_eq_left hle, ← hk]
      omega
    · rwa [Nat.min_eq_right hle]
  have hm : Masked (List.replicate (2 ^ min k 32) (0 : UInt32)) :=
    ⟨_, List.length_replicate⟩
  obtain ⟨slots, hall, hlen, hindexed⟩ :=
    indexInsertAll_spec (keys.map fun k => (ptrHash k).toUInt64) (indexed_free (2 ^ min k 32)) hm
      (by simpa using h) (by simpa using hroom.le)
  rw [List.length_replicate] at hlen
  refine ⟨slots, ?_, ⟨⟨k, hk, hlen⟩, by rwa [hlen], hindexed⟩, hload⟩
  rw [hashBuild, hk, maskReach_two_pow]
  exact hall

/-- A lookup ends at a free slot, where no entry in the slots is of the pointer. -/
lemma hashFind_none {keys : List UInt64} (htab : Tabled keys t.slots t.hashCap)
    (hno : ∀ x ∈ t.slots, isFreeSlot x = false →
      (t.entries[x.toNat - 1]?.any fun e => e.1 == key) = false) :
    t.hashFind key = some none := by
  rw [hashFind]
  split_ifs
  · rfl
  have hsame : find (t.endsFind key) t.slots (ptrHash key).toNat =
      find isFreeSlot t.slots (ptrHash key).toNat := by
    refine find_congr fun x hx => ?_
    rw [endsFind]
    cases hfree : isFreeSlot x with
    | true => rfl
    | false => rw [hno x hx hfree, Bool.or_false]
  have hfree : 0 < t.slots.countP isFreeSlot := by
    have hused := htab.indexed.used
    have hroom := htab.room
    rw [List.length_map] at hused
    omega
  obtain ⟨slot, hslot⟩ := exists_find_free htab.masked hfree (ptrHash key).toNat
  obtain ⟨x, hx, hxfree⟩ := stop_of_find htab.masked hslot
  rw [hsame, hslot, Option.map_some, hx, Option.bind_some, if_pos hxfree]

/-- The number in a used slot is that of an entry. -/
lemma Tabled.number_le {keys : List UInt64} {slots : List UInt32} {hashCap : ℕ}
    (h : Tabled keys slots hashCap) {x : UInt32} (hx : x ∈ slots) (hused : isFreeSlot x = false) :
    x.toNat - 1 < keys.length := by
  obtain ⟨j, hj⟩ := List.getElem?_of_mem hx
  obtain ⟨hash, hhash, -⟩ := h.indexed.homed hj hused
  simpa using (List.getElem?_eq_some_iff.mp hhash).1

/-- A lookup ends at the entry of its pointer. -/
lemma hashFind_some (hnodup : t.keys.Nodup) (htab : Tabled t.keys t.slots t.hashCap) {i : ℕ}
    (hi : t.keys[i]? = some key) : t.hashFind key = some (some i) := by
  obtain ⟨hlt, hget⟩ := List.getElem?_eq_some_iff.mp hi
  have hcap : t.hashCap ≠ 0 := by
    obtain ⟨k, hk, -⟩ := htab.size
    rw [hk]
    exact (Nat.two_pow_pos k).ne'
  have hbound : i + 1 < 2 ^ 32 := by
    have hlen := htab.indexed.bounded
    rw [List.length_map] at hlen
    omega
  have hentry : ∀ (k : ℕ) (e : UInt64 × α), t.entries[k]? = some e → e.1 = key → k = i := by
    intro k e he hkey
    have hk : t.keys[k]? = some key := by rw [keys, List.getElem?_map, he, Option.map_some, hkey]
    exact ((List.getElem?_inj hlt hnodup).mp (hi.trans hk.symm)).symm
  obtain ⟨j, hj⟩ := htab.indexed.listed (i := i) (by rwa [List.length_map])
  have hused := isFreeSlot_number hbound
  obtain ⟨hash, hhash, hreach⟩ := htab.indexed.homed hj hused
  rw [toNat_number hbound, Nat.add_sub_cancel, List.getElem?_map, hi, Option.map_some] at hhash
  obtain rfl := Option.some.inj hhash
  have hends : t.endsFind key (UInt32.ofNat i + 1) = true := by
    obtain ⟨e, he, hkey⟩ : ∃ e, t.entries[i]? = some e ∧ e.1 = key := by
      rw [keys, List.getElem?_map] at hi
      exact Option.map_eq_some_iff.mp hi
    rw [endsFind, toNat_number hbound, Nat.add_sub_cancel, he]
    simp [hkey]
  obtain ⟨slot, x, hfind, hx, hxused, hxends⟩ :=
    exists_find_of_reaches htab.masked hreach hj hused hends
  rw [endsFind, hxused, Bool.false_or, Option.any_eq_true] at hxends
  obtain ⟨e, he, hkey⟩ := hxends
  have hhome : (ptrHash key).toUInt64.toNat = (ptrHash key).toNat := UInt32.toNat_toUInt64 _
  rw [hhome] at hfind
  rw [hashFind, if_neg hcap, hfind, Option.map_some, hx, Option.bind_some, hxused,
    if_neg (by decide), hentry _ e he (by simpa using hkey)]

/-- The entries of a table are found, and nothing else is. -/
theorem Good.exact (h : t.Good) : t.Exact := by
  intro key
  cases hfind : t.entries.findIdx? fun e => e.1 == key with
  | none =>
    rcases h.tabled with ⟨hcap, -⟩ | htab
    · rw [hashFind, if_pos hcap]
    · refine hashFind_none htab fun x _ _ => ?_
      rw [Option.any_eq_false]
      intro e he
      have hall := List.findIdx?_eq_none_iff.mp hfind
      exact hall e (List.mem_of_getElem? he)
  | some i =>
    rcases h.tabled with ⟨-, hnil⟩ | htab
    · rw [hnil] at hfind
      cases hfind
    · refine hashFind_some h.nodup htab ?_
      obtain ⟨hlt, hkey, -⟩ := List.findIdx?_eq_some_iff_getElem.mp hfind
      rw [keys, List.getElem?_map, List.getElem?_eq_getElem hlt, Option.map_some]
      exact congrArg some (by simpa using hkey)

/-! ## Insertions -/

/-- The hash table in front of an insertion: it is below its load with one more entry. -/
lemma hashRoom_spec (hlen : t.keys.length < 2 ^ 32)
    (htab : t.hashCap = 0 ∨ Tabled t.keys t.slots t.hashCap) : ∃ slots hashCap,
      t.hashRoom = some { t with slots, hashCap } ∧ Tabled t.keys slots hashCap ∧
        t.keys.length + 1 ≤ hashCap * 7 / 10 := by
  rw [hashRoom, ← length_keys]
  by_cases hcrowded : t.hashCap * 7 / 10 < t.keys.length + 1
  · obtain ⟨slots, hbuild, htabled, hload⟩ := hashBuild_spec hlen
    rw [if_pos hcrowded, hbuild]
    exact ⟨slots, _, rfl, htabled, hload⟩
  · rw [if_neg hcrowded]
    refine ⟨t.slots, t.hashCap, rfl, htab.resolve_left fun hzero => ?_, Nat.not_lt.mp hcrowded⟩
    rw [hzero] at hcrowded
    omega

/-- A hash table below its load has a free slot behind the next entry as well. -/
lemma Tabled.lt_of_load {keys : List UInt64} {slots : List UInt32} {hashCap : ℕ}
    (h : Tabled keys slots hashCap) (hload : keys.length + 1 ≤ hashCap * 7 / 10)
    (hlen : keys.length + 1 < 2 ^ 32) : keys.length + 1 < slots.length := by
  obtain ⟨k, rfl, hslots⟩ := h.size
  rw [hslots]
  rcases Nat.le_total k 32 with hle | hle
  · rw [Nat.min_eq_left hle]
    omega
  · rwa [Nat.min_eq_right hle]

/-- The growth of the entries drops the hash table or leaves it. -/
lemma Good.growEntries (h : t.Good) (first : ℕ) :
    (t.growEntries first).entries = t.entries ∧ ((t.growEntries first).hashCap = 0 ∨
      Tabled (t.growEntries first).keys (t.growEntries first).slots
        (t.growEntries first).hashCap) := by
  by_cases hfull : t.entries.length = t.cap
  · rw [PtrTable.growEntries, if_pos hfull]
    exact ⟨rfl, .inl rfl⟩
  · rw [PtrTable.growEntries, if_neg hfull]
    exact ⟨rfl, h.tabled.imp_left And.left⟩

/-- What an insertion does: the number of the new entry goes to a free slot of a hash table that is
below its load. -/
lemma Good.put_eq (h : t.Good) (first : ℕ) (key : UInt64) (a : α) :
    ∃ (t' : PtrTable α) (slot : ℕ), t'.entries = t.entries ∧
      Tabled t.keys t'.slots t'.hashCap ∧ t.keys.length + 1 ≤ t'.hashCap * 7 / 10 ∧
      find isFreeSlot t'.slots (ptrHash key).toUInt64.toNat = some slot ∧
      t.put first key a = some { t' with
        entries := t.entries ++ [(key, a)]
        slots := t'.slots.set slot (UInt32.ofNat t.keys.length + 1) } := by
  obtain ⟨hentries, htab⟩ := h.growEntries first
  have hkeys : (t.growEntries first).keys = t.keys := congrArg (List.map Prod.fst) hentries
  have hlen : (t.growEntries first).keys.length < 2 ^ 32 := by
    rw [hkeys, length_keys]
    exact h.bounded
  obtain ⟨slots, hashCap, hroom, htabled, hload⟩ := hashRoom_spec hlen htab
  rw [hkeys] at htabled hload
  have hfree : 0 < slots.countP isFreeSlot := by
    have hused := htabled.indexed.used
    have hlt := htabled.room
    rw [List.length_map] at hused
    omega
  obtain ⟨slot, hslot⟩ := exists_find_free htabled.masked hfree (ptrHash key).toUInt64.toNat
  refine ⟨{ t.growEntries first with slots, hashCap }, slot, hentries, htabled, hload, hslot, ?_⟩
  rw [put, hashPut, hroom, Option.bind_some, indexInsert, hslot, hentries, length_keys]
  rfl

/-- Below 2 ^ 32 entries an insertion of another pointer keeps the table. -/
lemma Good.put (h : t.Good) (first : ℕ) (a : α) (hkey : key ∉ t.keys)
    (hlen : t.entries.length + 1 < 2 ^ 32) :
    ∃ t', t.put first key a = some t' ∧ t'.entries = t.entries ++ [(key, a)] ∧ t'.Good := by
  obtain ⟨t', slot, -, htabled, hload, hslot, hput⟩ := h.put_eq first key a
  rw [← length_keys] at hlen
  have hlt := htabled.lt_of_load hload hlen
  have hkeys : (t.entries ++ [(key, a)]).map Prod.fst = t.keys ++ [key] := List.map_append
  have hindexed := htabled.indexed.insert htabled.masked (by rwa [List.length_map]) hslot
  rw [List.length_map] at hindexed
  refine ⟨_, hput, rfl, ?_, .inr ⟨?_, ?_, ?_⟩⟩
  · rw [keys, hkeys, ← List.concat_eq_append]
    exact h.nodup.concat hkey
  · obtain ⟨k, hk, hslots⟩ := htabled.size
    exact ⟨k, hk, by rw [List.length_set, hslots]⟩
  · rw [keys, hkeys, List.length_append, List.length_singleton, List.length_set]
    exact hlt
  · rw [keys, hkeys, List.map_append]
    exact hindexed

/-- The entry with the number 2 ^ 32 is not found. -/
lemma Good.put_last (h : t.Good) (first : ℕ) (a : α) (hkey : key ∉ t.keys)
    (hlen : t.entries.length + 1 = 2 ^ 32) :
    ∃ t', t.put first key a = some t' ∧ t'.entries = t.entries ++ [(key, a)] ∧
      t'.hashFind key = some none := by
  obtain ⟨t', slot, -, htabled, -, hslot, hput⟩ := h.put_eq first key a
  have hlast : t.keys.length = 2 ^ 32 - 1 := by
    rw [length_keys]
    omega
  -- the number is zero, and that is what the slot holds
  have hzero : UInt32.ofNat (2 ^ 32 - 1) + 1 = 0 := rfl
  obtain ⟨x, hx, hfree⟩ := stop_of_find htabled.masked hslot
  have hsame : t'.slots.set slot 0 = t'.slots := by
    obtain ⟨hlt, hget⟩ := List.getElem?_eq_some_iff.mp hx
    have hx0 : x = 0 := by simpa [isFreeSlot] using hfree
    rw [← hx0, ← hget, List.set_getElem_self]
  rw [hlast, hzero, hsame] at hput
  refine ⟨_, hput, rfl, hashFind_none htabled fun x hx hused => ?_⟩
  have hlt := htabled.number_le hx hused
  rw [length_keys] at hlt
  rw [List.getElem?_append_left hlt, Option.any_eq_false]
  intro e he
  rw [beq_eq_false_iff_ne]
  rintro rfl
  exact hkey (List.mem_map_of_mem (List.mem_of_getElem? he))

/-! ## Runs -/

/-- Insertions of pointers that are new to a table. -/
lemma putAll_good {puts : List (UInt64 × α)} (h : t.Good) (first : ℕ)
    (hnodup : (t.keys ++ puts.map Prod.fst).Nodup)
    (hlen : t.entries.length + puts.length < 2 ^ 32) :
    ∃ t', putAll first puts t = some t' ∧ t'.entries = t.entries ++ puts ∧ t'.Good := by
  induction puts generalizing t with
  | nil => exact ⟨t, rfl, (List.append_nil _).symm, h⟩
  | cons p puts ih =>
    rw [List.length_cons] at hlen
    rw [List.map_cons] at hnodup
    have hkey : p.1 ∉ t.keys := fun hmem =>
      (List.nodup_append.mp hnodup).2.2 _ hmem _ List.mem_cons_self rfl
    obtain ⟨t₁, hput, hentries₁, h₁⟩ := h.put first p.2 hkey (by omega)
    have hkeys₁ : t₁.keys = t.keys ++ [p.1] := by
      rw [keys, hentries₁, List.map_append]
      rfl
    obtain ⟨t₂, hall, hentries₂, h₂⟩ := ih h₁
      (by rwa [hkeys₁, List.append_assoc, List.singleton_append])
      (by rw [hentries₁, List.length_append, List.length_singleton]; omega)
    refine ⟨t₂, by rw [putAll, hput, Option.bind_some, hall], ?_, h₂⟩
    rw [hentries₂, hentries₁, List.append_assoc]
    rfl

lemma putAll_snoc (puts : List (UInt64 × α)) (p : UInt64 × α) (t : PtrTable α) :
    putAll first (puts ++ [p]) t = (putAll first puts t).bind fun t => t.put first p.1 p.2 := by
  induction puts generalizing t with
  | nil =>
    rw [List.nil_append, putAll, putAll, Option.bind_some]
    cases t.put first p.1 p.2 <;> rfl
  | cons q puts ih =>
    rw [List.cons_append, putAll, putAll]
    cases t.put first q.1 q.2 with
    | none => rfl
    | some t => exact ih t

/-- A table that misses its last entry is not exact. -/
lemma not_exact_of_missed {es : List (UInt64 × α)} (hentries : t.entries = es ++ [(key, a)])
    (hfind : t.hashFind key = some none) : ¬ t.Exact := by
  intro hexact
  have hnone := Option.some.inj (hfind.symm.trans (hexact key))
  have hall := List.findIdx?_eq_none_iff.mp hnone.symm (key, a) (by simp [hentries])
  simp at hall

end PtrTable

/-- Insertions of pairwise different pointers: every state is reached, and its lookups are right, if
and only if there are fewer than 2 ^ 32 of them. -/
theorem putsExact_iff {α : Type} (first : ℕ) {puts : List (UInt64 × α)}
    (hnodup : (puts.map Prod.fst).Nodup) : PutsExact first puts ↔ puts.length < 2 ^ 32 := by
  have hstart : ∀ pre, pre <+: puts → pre.length < 2 ^ 32 →
      ∃ t', PtrTable.putAll first pre {} = some t' ∧ t'.entries = pre ∧ t'.Good := by
    intro pre hpre hlen
    obtain ⟨t', hall, hentries, h⟩ := PtrTable.putAll_good PtrTable.good_new first
      ((hpre.sublist.map Prod.fst).nodup hnodup) (by simpa using hlen)
    exact ⟨t', hall, hentries.trans (List.nil_append _), h⟩
  constructor
  · intro h
    by_contra hge
    obtain ⟨n, hn⟩ : ∃ n, n + 1 = 2 ^ 32 := ⟨2 ^ 32 - 1, rfl⟩
    have hlt : n < puts.length := by omega
    obtain ⟨t, hall, hentries, hgood⟩ := hstart (puts.take n) (List.take_prefix _ _)
      (by rw [List.length_take]; omega)
    have hpre : puts.take n ++ [puts[n]] <+: puts := by
      rw [List.take_append_getElem]
      exact List.take_prefix _ _
    have hkey : puts[n].1 ∉ t.keys := by
      have hkeys := (hpre.sublist.map Prod.fst).nodup hnodup
      rw [List.map_append, List.map_singleton] at hkeys
      rw [PtrTable.keys, hentries]
      exact fun hmem => (List.nodup_append.mp hkeys).2.2 _ hmem _ List.mem_cons_self rfl
    obtain ⟨t', hput, hentries', hmissed⟩ := hgood.put_last first puts[n].2 hkey
      (by rw [hentries, List.length_take_of_le hlt.le, hn])
    obtain ⟨t₂, hall₂, hexact⟩ := h _ hpre
    rw [PtrTable.putAll_snoc, hall, Option.bind_some, hput] at hall₂
    obtain rfl := Option.some.inj hall₂
    exact PtrTable.not_exact_of_missed hentries' hmissed hexact
  · intro hlen pre hpre
    obtain ⟨t, hall, -, hgood⟩ := hstart pre hpre (Nat.lt_of_le_of_lt hpre.length_le hlen)
    exact ⟨t, hall, hgood.exact⟩

end Teptris
