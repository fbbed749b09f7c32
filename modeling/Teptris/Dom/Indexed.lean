import Mathlib.Data.List.Nodup
import Teptris.Dom.Index

/-!
# The index stays consistent

Whatever is inserted into a table and whichever allocations fail, its index finds every entry and
nothing else: each entry is reached from the home of its hash, a slot stays free, and a slot that a
probe handed out is the one an insertion would search for, until the next insertion is attempted.
-/

namespace Teptris

open Probing

/-! ## Numbers in slots -/

lemma toNat_number {i : ℕ} (h : i + 1 < 2 ^ 32) : (UInt32.ofNat i + 1).toNat = i + 1 := by
  have h1 : (1 : UInt32).toNat = 1 := rfl
  rw [UInt32.toNat_add, UInt32.toNat_ofNat_of_lt' (by show i < 2 ^ 32; omega), h1,
    Nat.mod_eq_of_lt h]

lemma isFreeSlot_number {i : ℕ} (h : i + 1 < 2 ^ 32) : isFreeSlot (UInt32.ofNat i + 1) = false := by
  rw [isFreeSlot, beq_eq_false_iff_ne]
  intro hzero
  have hnat := toNat_number h
  rw [hzero] at hnat
  simp at hnat

/-! ## Hashes in an index -/

/-- The index holds the numbers of the hashes, each within reach of its home. -/
structure Indexed (hashes : List UInt64) (index : List UInt32) : Prop where
  /-- The numbers fit their slots. -/
  bounded : hashes.length < 2 ^ 32
  /-- Nothing else is in the index. -/
  used : index.countP isFreeSlot + hashes.length = index.length
  /-- A used slot is within reach of the home of its hash. -/
  homed {j : ℕ} {x : UInt32} (hj : index[j]? = some x) (hx : isFreeSlot x = false) :
    ∃ h, hashes[x.toNat - 1]? = some h ∧ Probing.Reaches isFreeSlot index h.toNat j
  /-- Every number is there. -/
  listed {i : ℕ} (hi : i < hashes.length) : ∃ j : ℕ, index[j]? = some (UInt32.ofNat i + 1)

section Insert

variable {hashes : List UInt64} {index : List UInt32} {h : UInt64} {j : ℕ}

lemma indexed_free (n : ℕ) : Indexed [] (List.replicate n 0) := by
  refine ⟨by decide, ?_, fun hj hx => ?_, fun hi => absurd hi (Nat.not_lt_zero _)⟩
  · simp [List.countP_replicate, isFreeSlot]
  · rw [List.getElem?_replicate] at hj
    split_ifs at hj
    rw [← Option.some.inj hj] at hx
    exact absurd hx (by decide)

/-- The next hash takes the free slot its walk stops at. -/
lemma Indexed.insert (hi : Indexed hashes index) (hm : Masked index)
    (hlen : hashes.length + 1 < 2 ^ 32) (hj : find isFreeSlot index h.toNat = some j) :
    Indexed (hashes ++ [h]) (index.set j (UInt32.ofNat hashes.length + 1)) := by
  obtain ⟨x, hx, hfree⟩ := stop_of_find hm hj
  have hlt : j < index.length := (List.getElem?_eq_some_iff.mp hx).1
  have hused := isFreeSlot_number hlen
  refine ⟨by simpa using hlen, ?_, fun {i y} hy hyused => ?_, fun {i} hlt' => ?_⟩
  · have hcount := countP_set_free hx hfree hused
    have := hi.used
    rw [List.length_append, List.length_singleton, List.length_set]
    omega
  · rw [List.getElem?_set] at hy
    split_ifs at hy with hji
    · obtain rfl := Option.some.inj hy
      subst hji
      refine ⟨h, ?_, (reaches_of_find hm (fun _ hs => hs) hj).set hused _⟩
      rw [toNat_number hlen, Nat.add_sub_cancel, List.getElem?_concat_length]
    · obtain ⟨h', hh', hr⟩ := hi.homed hy hyused
      refine ⟨h', ?_, hr.set hused _⟩
      rw [List.getElem?_append_left (List.getElem?_eq_some_iff.mp hh').1]
      exact hh'
  · rw [List.length_append, List.length_singleton] at hlt'
    by_cases hlast : i = hashes.length
    · exact ⟨j, by rw [hlast]; exact List.getElem?_set_self hlt⟩
    · obtain ⟨k, hk⟩ := hi.listed (i := i) (by omega)
      have hne : j ≠ k := by
        rintro rfl
        rw [hx] at hk
        rw [Option.some.inj hk, isFreeSlot_number (by omega)] at hfree
        exact absurd hfree (by decide)
      exact ⟨k, by rwa [List.getElem?_set_ne hne]⟩

/-- The loop of a rebuild ends, and indexes every hash. -/
lemma indexInsertAll_spec (hs : List UInt64) (hi : Indexed hashes index) (hm : Masked index)
    (hlen : hashes.length + hs.length < 2 ^ 32) (hroom : hashes.length + hs.length ≤ index.length) :
    ∃ index', indexInsertAll hashes.length hs index = some index' ∧
      index'.length = index.length ∧ Indexed (hashes ++ hs) index' := by
  induction hs generalizing hashes index with
  | nil => exact ⟨index, rfl, rfl, by rwa [List.append_nil]⟩
  | cons h hs ih =>
    rw [List.length_cons] at hlen hroom
    have hfree : 0 < index.countP isFreeSlot := by
      have := hi.used
      omega
    obtain ⟨j, hj⟩ := exists_find_free hm hfree h.toNat
    have hnext := hi.insert hm (by omega) hj
    obtain ⟨index', hall, hlen', hindexed⟩ := ih hnext (hm.set _ _)
      (by rw [List.length_append, List.length_singleton]; omega)
      (by rw [List.length_append, List.length_singleton, List.length_set]; omega)
    refine ⟨index', ?_, by rw [hlen', List.length_set], by simpa using hindexed⟩
    rw [List.length_append, List.length_singleton] at hall
    rw [indexInsertAll, indexInsert, hj, Option.map_some, Option.bind_some, hall]

end Insert

/-! ## Tables -/

namespace TableNode

variable {V : Type} {t : TableNode V} {key : Bytes}

/-- An index that is there has as many slots as a power of two, and few enough entries. -/
structure Good (t : TableNode V) : Prop where
  /-- The size of the index. -/
  slots : t.index = [] ∧ t.entries = [] ∨
    Masked t.index ∧ 16 ≤ t.index.length ∧ t.entries.length * 10 < t.index.length * 7
  /-- The entries are indexed by their hashes. -/
  indexed : Indexed (t.entries.map TableEntry.hash) t.index
  /-- These are the hashes of their keys. -/
  hash : ∀ e ∈ t.entries, e.hash = keyHash e.key
  /-- No key is there twice. -/
  nodup : (t.entries.map TableEntry.key).Nodup

lemma good_new : (new : TableNode V).Good :=
  ⟨.inl ⟨rfl, rfl⟩, indexed_free 0, fun _ he => absurd he List.not_mem_nil, List.nodup_nil⟩

lemma Good.free_pos (h : t.Good) (hne : t.index ≠ []) : 0 < t.index.countP isFreeSlot := by
  have hused := h.indexed.used
  rw [List.length_map] at hused
  rcases h.slots with ⟨hnil, -⟩ | ⟨-, -, hload⟩
  · exact absurd hnil hne
  · omega

lemma Good.masked (h : t.Good) (hne : t.index ≠ []) : Masked t.index :=
  h.slots.elim (fun hnil => absurd hnil.1 hne) fun hs => hs.1

/-- A walk for a key ends: at its entry, or, where it has none, at the free slot that an insertion
would search for. -/
lemma Good.walk (h : t.Good) (hne : t.index ≠ []) (key : Bytes) {p : TableEntry V → Bool}
    (hp : ∀ e ∈ t.entries, p e = true ↔ e.key = key) :
    ∃ slot, find (t.endsWalk p) t.index (keyHash key).toNat = some slot ∧
      ((∃ e ∈ t.entries, e.key = key ∧ t.entryAt slot = some e) ∨
        key ∉ t.entries.map TableEntry.key ∧ t.entryAt slot = none ∧
          find isFreeSlot t.index (keyHash key).toNat = some slot) := by
  have hm := h.masked hne
  by_cases hkey : key ∈ t.entries.map TableEntry.key
  · obtain ⟨e, he, rfl⟩ := List.mem_map.mp hkey
    obtain ⟨i, hi⟩ := List.getElem?_of_mem he
    have hlt := (List.getElem?_eq_some_iff.mp hi).1
    obtain ⟨j, hj⟩ := h.indexed.listed (i := i) (by rwa [List.length_map])
    have hbound : i + 1 < 2 ^ 32 := by
      have := h.indexed.bounded
      rw [List.length_map] at this
      omega
    have hused := isFreeSlot_number hbound
    obtain ⟨hash, hhash, hreach⟩ := h.indexed.homed hj hused
    rw [toNat_number hbound, Nat.add_sub_cancel, List.getElem?_map, hi, Option.map_some] at hhash
    obtain rfl := Option.some.inj hhash
    rw [h.hash e he] at hreach
    have hends : t.endsWalk p (UInt32.ofNat i + 1) = true := by
      rw [endsWalk, toNat_number hbound, Nat.add_sub_cancel, hi]
      simp [(hp e he).mpr rfl]
    obtain ⟨slot, x, hfind, hx, hxused, hxends⟩ := exists_find_of_reaches hm hreach hj hused hends
    rw [endsWalk, hxused, Bool.false_or, Option.any_eq_true] at hxends
    obtain ⟨e', he', hpe'⟩ := hxends
    have hmem := List.mem_of_getElem? he'
    refine ⟨slot, hfind, .inl ⟨e', hmem, (hp e' hmem).mp hpe', ?_⟩⟩
    rw [entryAt, hx, Option.bind_some, hxused, if_neg (by decide), he']
  · -- no entry ends the walk
    have hsame : find (t.endsWalk p) t.index (keyHash key).toNat =
        find isFreeSlot t.index (keyHash key).toNat := by
      refine find_congr fun x _ => ?_
      rw [endsWalk, Bool.or_eq_left_iff_imp, Option.any_eq_true]
      rintro ⟨e, he, hpe⟩
      have hmem := List.mem_of_getElem? he
      exact absurd (List.mem_map.mpr ⟨e, hmem, (hp e hmem).mp hpe⟩) hkey
    obtain ⟨slot, hslot⟩ := exists_find_free hm (h.free_pos hne) (keyHash key).toNat
    obtain ⟨x, hx, hfree⟩ := stop_of_find hm hslot
    refine ⟨slot, hsame.trans hslot, .inr ⟨hkey, ?_, hslot⟩⟩
    rw [entryAt, hx, Option.bind_some, if_pos hfree]

/-- A lookup that ends at an entry of the key, or at none where there is none. -/
def Finds (t : TableNode V) (key : Bytes) (r : Option (TableEntry V)) : Prop :=
  ∀ e, r = some e ↔ e ∈ t.entries ∧ e.key = key

/-- An entry of the key is the only one. -/
lemma Good.finds_some (h : t.Good) {e : TableEntry V} (he : e ∈ t.entries) (hkey : e.key = key) :
    t.Finds key (some e) := by
  intro e'
  rw [Option.some.injEq]
  constructor
  · rintro rfl
    exact ⟨he, hkey⟩
  · rintro ⟨he', hkey'⟩
    exact List.inj_on_of_nodup_map h.nodup he he' (hkey.trans hkey'.symm)

lemma finds_none (hkey : key ∉ t.entries.map TableEntry.key) : t.Finds key none := by
  refine fun e => ⟨fun hnone => by simp at hnone, ?_⟩
  rintro ⟨he, rfl⟩
  exact absurd (List.mem_map.mpr ⟨e, he, rfl⟩) hkey

lemma Good.nil (h : t.Good) (hnil : t.index = []) : t.entries = [] := by
  rcases h.slots with ⟨-, hentries⟩ | ⟨hm, -⟩
  · exact hentries
  · have hpos := hm.pos
    rw [hnil] at hpos
    exact absurd hpos (Nat.lt_irrefl 0)

/-- `teptris_dom_table_find_h` ends, and finds the key exactly where it is there. -/
lemma Good.findH (h : t.Good) (key : Bytes) : ∃ r, t.findH key = some r ∧ t.Finds key r := by
  rw [TableNode.findH]
  by_cases hnil : t.index = []
  · rw [hnil, if_pos List.length_nil]
    exact ⟨none, rfl, finds_none (by rw [h.nil hnil]; exact List.not_mem_nil)⟩
  · rw [if_neg (by simpa using hnil)]
    obtain ⟨slot, hfind, hat⟩ := h.walk hnil key (p := fun e => e.key == key) (by simp)
    rw [hfind, Option.map_some]
    refine ⟨_, rfl, ?_⟩
    rcases hat with ⟨e, he, hkey, hentry⟩ | ⟨hkey, hentry, -⟩ <;> rw [hentry]
    · exact h.finds_some he hkey
    · exact finds_none hkey

/-- The slot is the one that an insertion of the key would search for. -/
def RightSlot (t : TableNode V) (key : Bytes) (slot : Option ℕ) : Prop :=
  ∀ j ∈ slot, find isFreeSlot t.index (keyHash key).toNat = some j

/-- `teptris_dom_table_probe_slot` ends, and finds the key exactly where it is there; its slot is
the one of an insertion. -/
lemma Good.probeSlot (h : t.Good) (key : Bytes) :
    ∃ r, t.probeSlot (keyHash key) key = some r ∧ t.Finds key r.1 ∧ t.RightSlot key r.2 := by
  rw [TableNode.probeSlot]
  by_cases hnil : t.index = []
  · rw [hnil, if_pos List.length_nil]
    exact ⟨_, rfl, finds_none (by rw [h.nil hnil]; exact List.not_mem_nil), by simp [RightSlot]⟩
  · rw [if_neg (by simpa using hnil)]
    obtain ⟨slot, hfind, hat⟩ := h.walk hnil key
      (p := fun e => e.hash == keyHash key && e.key == key) (by
        intro e he
        rw [Bool.and_eq_true, beq_iff_eq, beq_iff_eq, h.hash e he]
        exact ⟨fun hand => hand.2, fun hkey => ⟨by rw [hkey], hkey⟩⟩)
    rw [hfind, Option.map_some]
    refine ⟨_, rfl, ?_⟩
    rcases hat with ⟨e, he, hkey, hentry⟩ | ⟨hkey, hentry, hslot⟩ <;> rw [hentry]
    · exact ⟨h.finds_some he hkey, by simp [RightSlot]⟩
    · refine ⟨finds_none hkey, fun j hj => ?_⟩
      rw [← Option.some.inj hj]
      exact hslot

/-! ## Insertion -/

/-- The index has room for one more entry. -/
def HasRoom (t : TableNode V) : Prop :=
  Masked t.index ∧ 16 ≤ t.index.length ∧ (t.entries.length + 1) * 10 < t.index.length * 7

/-- A fresh key: not in the table, with a number that fits. -/
def Fresh (t : TableNode V) (key : Bytes) : Prop :=
  key ∉ t.entries.map TableEntry.key ∧ t.entries.length < 2 ^ 32 - 1

/-- The table behind an insertion. -/
def Stored (t t' : TableNode V) (key : Bytes) (value : V) : Prop :=
  t'.Good ∧ t'.entries = t.entries ++ [⟨key, value, keyHash key⟩]

lemma Good.store (h : t.Good) (hroom : t.HasRoom) (hfresh : t.Fresh key) (value : V)
    {slot : Option ℕ} (hslot : t.RightSlot key slot) :
    ∃ t', t.store key (keyHash key) value slot = some t' ∧ t.Stored t' key value := by
  obtain ⟨hm, hlen, hload⟩ := hroom
  obtain ⟨hkey, hbound⟩ := hfresh
  have hne : t.index ≠ [] := List.ne_nil_of_length_pos hm.pos
  obtain ⟨j, hj⟩ := exists_find_free hm (h.free_pos hne) (keyHash key).toNat
  have hindexed := h.indexed.insert hm (by rw [List.length_map]; omega) hj
  rw [List.length_map] at hindexed
  refine ⟨{ t with
    entries := t.entries ++ [⟨key, value, keyHash key⟩]
    index := t.index.set j (UInt32.ofNat t.entries.length + 1) }, ?_, ⟨.inr ⟨hm.set _ _, ?_, ?_⟩,
      ?_, ?_, ?_⟩, rfl⟩
  · cases slot with
    | none => simp only [TableNode.store, indexInsert, hj, Option.map_some]
    | some i =>
      -- the remembered slot is the one that would be searched for
      obtain rfl : i = j := Option.some.inj ((hslot i rfl).symm.trans hj)
      rfl
  · rwa [List.length_set]
  · rwa [List.length_set, List.length_append, List.length_singleton]
  · rw [List.map_append]
    exact hindexed
  · intro e he
    rcases List.mem_append.mp he with he | he
    · exact h.hash e he
    · rw [List.mem_singleton.mp he]
  · rw [List.map_append]
    refine List.nodup_append.mpr ⟨h.nodup, List.nodup_singleton _, ?_⟩
    rintro k hk k' hk' rfl
    rw [List.map_singleton, List.mem_singleton] at hk'
    rw [hk'] at hk
    exact hkey hk

/-- The outcome of an insertion: a new entry at the end, or the same entries and an error. -/
def Inserts (t : TableNode V) (key : Bytes) (value : V) (r : Option Status × TableNode V) : Prop :=
  r.1 = none ∧ t.Stored r.2 key value ∨
    r.1 = some .errAlloc ∧ r.2.Good ∧ r.2.entries = t.entries

lemma Good.insertEntry (h : t.Good) (hroom : t.HasRoom) (hfresh : t.Fresh key) (al : Allocs)
    (value : V) {slot : Option ℕ} (hslot : t.RightSlot key slot) :
    ∃ r, t.insertEntry al key (keyHash key) value slot = some r ∧ t.Inserts key value r := by
  have hstore : ∀ cap, ∃ t', { t with cap := cap }.store key (keyHash key) value slot = some t' ∧
      t.Stored t' key value := fun cap =>
    @Good.store V { t with cap := cap } key ⟨h.slots, h.indexed, h.hash, h.nodup⟩ hroom hfresh
      value slot hslot
  rw [TableNode.insertEntry]
  dsimp only
  by_cases hfull : t.entries.length = t.cap
  · rw [if_pos hfull]
    by_cases hgrow : (al.grow || al.entries) = true
    · obtain ⟨t', ht', hstored⟩ := hstore (if t.cap = 0 then 8 else t.cap * 2)
      exact ⟨(none, t'), by rw [if_pos hgrow, ht', Option.map_some], .inl ⟨rfl, hstored⟩⟩
    · exact ⟨(some .errAlloc, t), by rw [if_neg hgrow], .inr ⟨rfl, h, rfl⟩⟩
  · obtain ⟨t', ht', hstored⟩ := h.store hroom hfresh value hslot
    exact ⟨(none, t'), by rw [if_neg hfull, ht', Option.map_some], .inl ⟨rfl, hstored⟩⟩

/-- A rebuild to a size that is enough keeps the table good. -/
lemma Good.indexRebuild (h : t.Good) {newCap : ℕ} (hpow : ∃ k, newCap = 2 ^ k)
    (hmin : 16 ≤ newCap) (hload : (t.entries.length + 1) * 10 < newCap * 7) :
    ∃ t', t.indexRebuild newCap = some t' ∧ t'.Good ∧ t'.HasRoom ∧ t'.entries = t.entries := by
  have hm : Masked (List.replicate newCap (0 : UInt32)) := by
    rw [Masked, List.length_replicate]
    exact hpow
  have hbound := h.indexed.bounded
  rw [List.length_map] at hbound
  obtain ⟨index, hall, hlen, hindexed⟩ := indexInsertAll_spec
    (t.entries.map TableEntry.hash) (indexed_free newCap) hm
    (by rw [List.length_map, List.length_nil]; omega)
    (by rw [List.length_map, List.length_replicate, List.length_nil]; omega)
  rw [List.length_replicate] at hlen
  rw [List.nil_append] at hindexed
  have hm' : Masked index := by rwa [Masked, hlen]
  refine ⟨{ t with index }, ?_,
    ⟨.inr ⟨hm', by rwa [hlen], by rw [hlen]; show t.entries.length * 10 < _; omega⟩,
    hindexed, h.hash,
    h.nodup⟩, ⟨hm', by rwa [hlen], by rwa [hlen]⟩, rfl⟩
  rw [TableNode.indexRebuild]
  rw [List.length_nil] at hall
  rw [hall, Option.map_some]

/-- An insertion ends; it puts the entry behind the others, or leaves the entries as they were. -/
theorem Good.insertSlot (h : t.Good) (hfresh : t.Fresh key) (al : Allocs) (value : V)
    {slot : Option ℕ} (hslot : t.RightSlot key slot) :
    ∃ r, t.insertSlot al key (keyHash key) value slot = some r ∧ t.Inserts key value r := by
  rw [TableNode.insertSlot]
  dsimp only
  by_cases hload : t.index.length * 7 ≤ (t.entries.length + 1) * 10
  · rw [if_pos hload]
    by_cases hal : al.index = true
    · rw [if_pos hal]
      have hrebuild : ∃ t', t.indexRebuild (if t.index.length = 0 then 16 else t.index.length * 2) =
          some t' ∧ t'.Good ∧ t'.HasRoom ∧ t'.entries = t.entries := by
        rcases h.slots with ⟨hnil, hentries⟩ | ⟨hm, hmin, hfew⟩
        · rw [hnil, List.length_nil, if_pos rfl]
          exact h.indexRebuild ⟨4, rfl⟩ (Nat.le_refl _) (by rw [hentries, List.length_nil]; decide)
        · rw [if_neg (by omega)]
          obtain ⟨k, hk⟩ := hm
          exact h.indexRebuild ⟨k + 1, by rw [hk, Nat.pow_succ]⟩ (by omega) (by omega)
      obtain ⟨t', ht', hgood, hroom, hentries⟩ := hrebuild
      have hfresh' : t'.Fresh key := by rwa [Fresh, hentries]
      obtain ⟨r, hr, hins⟩ := hgood.insertEntry hroom hfresh' al value
        (show t'.RightSlot key none by simp [RightSlot])
      refine ⟨r, by rw [ht', Option.bind_some, hr], ?_⟩
      rwa [Inserts, Stored, hentries] at hins
    · rw [if_neg hal]
      exact ⟨_, rfl, .inr ⟨rfl, h, rfl⟩⟩
  · rw [if_neg hload]
    have hroom : t.HasRoom := by
      rcases h.slots with ⟨hnil, -⟩ | ⟨hm, hmin, -⟩
      · rw [hnil, List.length_nil] at hload
        omega
      · exact ⟨hm, hmin, by omega⟩
    exact h.insertEntry hroom hfresh al value hslot

/-- A slot that a probe handed out is used like a fresh one. -/
lemma RightSlot.insertSlot_eq (al : Allocs) (value : V) {slot : Option ℕ}
    (hslot : t.RightSlot key slot) :
    t.insertSlot al key (keyHash key) value slot =
      t.insertSlot al key (keyHash key) value none := by
  cases slot with
  | none => rfl
  | some j =>
    have hstore : ∀ cap, { t with cap := cap }.store key (keyHash key) value (some j) =
        { t with cap := cap }.store key (keyHash key) value none := by
      intro cap
      simp only [TableNode.store, indexInsert, hslot j rfl, Option.map_some]
    rw [TableNode.insertSlot, TableNode.insertSlot, TableNode.insertEntry, TableNode.insertEntry]
    simp only [hstore]

end TableNode

/-! ## States -/

namespace IndexState

variable {V : Type} {s s' : IndexState V}

/-- The invariant of a run. -/
structure Good (s : IndexState V) : Prop where
  /-- The table is consistent. -/
  table : s.table.Good
  /-- Its entries are what has been inserted, in order. -/
  order : s.table.entries.map (fun e => (e.key, e.value)) = s.inserted
  /-- The slots that are remembered are right. -/
  probed : ∀ p ∈ s.probed, s.table.RightSlot p.1 p.2

lemma good_new : (new : IndexState V).Good :=
  ⟨TableNode.good_new, rfl, fun _ hp => absurd hp List.not_mem_nil⟩

lemma Good.keys (h : s.Good) : s.table.entries.map TableEntry.key = s.inserted.map Prod.fst := by
  rw [← h.order, List.map_map]
  rfl

lemma Good.fresh (h : s.Good) {key : Bytes} (hkey : key ∉ s.inserted.map Prod.fst)
    (hbound : s.inserted.length < 2 ^ 32 - 1) : s.table.Fresh key := by
  refine ⟨by rwa [h.keys], ?_⟩
  rwa [← h.order, List.length_map] at hbound

/-- The state behind an attempt to insert keeps the invariant. -/
lemma Good.attempted (h : s.Good) {key : Bytes} {value : V} {r : Option Status × TableNode V}
    (hins : s.table.Inserts key value r) : (s.attempted key value r).2.Good ∧
      (r.1 ≠ none → (s.attempted key value r).2.table.entries = s.table.entries) := by
  obtain ⟨st, t'⟩ := r
  rcases hins with ⟨rfl, hgood, hentries⟩ | ⟨rfl, hgood, hentries⟩
  · refine ⟨⟨hgood, ?_, fun _ hp => absurd hp List.not_mem_nil⟩, fun hne => absurd rfl hne⟩
    show t'.entries.map _ = _
    rw [hentries, List.map_append, h.order, IndexState.attempted, if_pos rfl]
    rfl
  · refine ⟨⟨hgood, ?_, fun _ hp => absurd hp List.not_mem_nil⟩, fun _ => hentries⟩
    show t'.entries.map _ = _
    rw [hentries, h.order, IndexState.attempted, if_neg (by simp)]

/-- A step ends and keeps the invariant; where it fails the entries stay. -/
theorem Good.step (h : s.Good) {op : TableOp V} (hop : s.Allows op) :
    ∃ st s', s.step op = some (st, s') ∧ s'.Good ∧
      (st ≠ none → s'.table.entries = s.table.entries) := by
  cases op with
  | find key =>
    obtain ⟨r, hr, -⟩ := h.table.findH key
    exact ⟨none, s, by rw [IndexState.step, hr, Option.map_some], h, fun _ => rfl⟩
  | probe key =>
    obtain ⟨r, hr, -, hslot⟩ := h.table.probeSlot key
    refine ⟨none, { s with probed := if r.1.isSome then s.probed else (key, r.2) :: s.probed },
      by rw [IndexState.step, hr, Option.map_some], ⟨h.table, h.order, ?_⟩, fun _ => rfl⟩
    intro p hp
    dsimp only at hp
    split_ifs at hp
    · exact h.probed p hp
    · rcases List.mem_cons.mp hp with rfl | hp
      · exact hslot
      · exact h.probed p hp
  | insert al key value =>
    obtain ⟨hkey, hbound⟩ := hop
    obtain ⟨r, hr, hins⟩ := h.table.insertSlot (h.fresh hkey hbound) al value
      (show s.table.RightSlot key none by simp [TableNode.RightSlot])
    obtain ⟨hgood, hfail⟩ := h.attempted hins
    exact ⟨r.1, _, by rw [IndexState.step, TableNode.insertH, hr, Option.map_some]; rfl, hgood,
      hfail⟩
  | insertProbed al key slot value =>
    obtain ⟨hkey, hbound, hmem⟩ := hop
    obtain ⟨r, hr, hins⟩ := h.table.insertSlot (h.fresh hkey hbound) al value (h.probed _ hmem)
    obtain ⟨hgood, hfail⟩ := h.attempted hins
    exact ⟨r.1, _, by rw [IndexState.step, hr, Option.map_some]; rfl, hgood, hfail⟩

/-- Every reachable state keeps the invariant. -/
lemma Reachable.good (h : s.Reachable) : s.Good := by
  induction h with
  | new => exact good_new
  | step _ hop hstep ih =>
    obtain ⟨st, s', hstep', hgood, -⟩ := ih.step hop
    obtain rfl := (Prod.mk.inj (Option.some.inj (hstep.symm.trans hstep'))).2
    exact hgood

/-- A consistent state: what the index of the table and its lookups promise. -/
structure Consistent (s : IndexState V) : Prop where
  /-- The entries are what has been inserted, in order. -/
  order : s.table.entries.map (fun e => (e.key, e.value)) = s.inserted
  /-- No key is there twice. -/
  nodup : (s.table.entries.map TableEntry.key).Nodup
  /-- The cached hashes are those of the keys. -/
  hash : ∀ e ∈ s.table.entries, e.hash = keyHash e.key
  /-- Every entry is reached by probing from its hash. -/
  reach : ∀ i e, s.table.entries[i]? = some e → ∃ j : ℕ,
    s.table.index[j]? = some (UInt32.ofNat i + 1) ∧
      Probing.Reaches isFreeSlot s.table.index e.hash.toNat j
  /-- An index that is there has a free slot. -/
  free : s.table.index ≠ [] → (0 : UInt32) ∈ s.table.index
  /-- `teptris_dom_table_find_h` ends, and finds a key exactly where it is there. -/
  find : ∀ key, ∃ r, s.table.findH key = some r ∧
    ∀ e, r = some e ↔ e ∈ s.table.entries ∧ e.key = key
  /-- So does `teptris_dom_table_probe_slot`. -/
  probe : ∀ key, ∃ r, s.table.probeSlot (keyHash key) key = some r ∧
    ∀ e, r.1 = some e ↔ e ∈ s.table.entries ∧ e.key = key
  /-- A remembered slot is as good as a fresh search. -/
  slot : ∀ p ∈ s.probed, ∀ al value, s.table.insertSlot al p.1 (keyHash p.1) value p.2 =
    s.table.insertSlot al p.1 (keyHash p.1) value none
  /-- Every step ends, and an insertion that fails leaves the entries as they were. -/
  step : ∀ op, s.Allows op → ∃ st s', s.step op = some (st, s') ∧
    (st ≠ none → s'.table.entries = s.table.entries)

/-- Whatever is inserted, and whichever allocations fail: every reachable state is consistent. -/
theorem table_index_consistent (h : s.Reachable) : s.Consistent where
  order := h.good.order
  nodup := h.good.table.nodup
  hash := h.good.table.hash
  reach := by
    intro i e hi
    have hindexed := h.good.table.indexed
    have hlt : i < (s.table.entries.map TableEntry.hash).length := by
      rw [List.length_map]
      exact (List.getElem?_eq_some_iff.mp hi).1
    have hbound : i + 1 < 2 ^ 32 := Nat.lt_of_le_of_lt hlt hindexed.bounded
    obtain ⟨j, hj⟩ := hindexed.listed hlt
    obtain ⟨hash, hhash, hreach⟩ := hindexed.homed hj (isFreeSlot_number hbound)
    rw [toNat_number hbound, Nat.add_sub_cancel, List.getElem?_map, hi, Option.map_some] at hhash
    rw [← Option.some.inj hhash] at hreach
    exact ⟨j, hj, hreach⟩
  free := by
    intro hne
    obtain ⟨x, hx, hfree⟩ := List.countP_pos_iff.mp (h.good.table.free_pos hne)
    rwa [beq_iff_eq.mp hfree] at hx
  find := h.good.table.findH
  probe := by
    intro key
    obtain ⟨r, hr, hfinds, -⟩ := h.good.table.probeSlot key
    exact ⟨r, hr, hfinds⟩
  slot p hp al value := TableNode.RightSlot.insertSlot_eq al value (h.good.probed p hp)
  step op hop := by
    obtain ⟨st, s', hstep, -, hfail⟩ := h.good.step hop
    exact ⟨st, s', hstep, hfail⟩

/-- A probe for `a`, and its insertion with the slot, where only the entries cannot be had. -/
theorem table_index_failed_insert :
    let t : TableNode ℕ := ⟨[], 0, List.replicate 16 0⟩
    (⟨t, [], []⟩ : IndexState ℕ).Consistent :=
  have hprobe :=
    @Reachable.step ℕ _ ⟨.new, [], [([0x61], none)]⟩ (.probe [0x61]) none .new trivial rfl
  table_index_consistent (@Reachable.step ℕ _ _ (.insertProbed ⟨true, false, false⟩ [0x61] none 1)
    (some .errAlloc) hprobe ⟨by simp, by decide, by simp⟩ rfl)

end IndexState

end Teptris
