import Mathlib.Data.List.Infix
import Mathlib.Data.Set.Finite.List
import Teptris.Schema.Evaluated

/-!
# Annotation sets under trials

When `frame_key_seen` and `frame_idx_seen` answer for exactly the current annotations: in a run they
do so up to the first step that adds an element wrongly (`StepTakes`).  Truncations never go wrong
by themselves; what they leave behind does, as soon as an addition brings its stamps back into
range, and as soon as it has used up the free slots.
-/

namespace Teptris

open Probing

namespace EvalSet

variable {κ : Type} {hash : κ → ℕ} {s s' : EvalSet κ} {slots slots' : List (Option (κ × ℕ))}

/-! ## Slots -/

/-- Every element reaches its slot from its home. -/
def Homed (hash : κ → ℕ) (slots : List (Option (κ × ℕ))) : Prop :=
  ∀ j e, slots[j]? = some (some e) → Probing.Reaches Option.isNone slots (hash e.1) j

lemma homed_free (n : ℕ) : Homed hash (List.replicate n none) := by
  intro j e h
  rw [List.getElem?_replicate] at h
  split_ifs at h
  simp at h

/-- An element is placed where a slot is free. -/
lemma place_spec (hm : Masked slots) (hh : Homed hash slots)
    (hfree : 0 < slots.countP Option.isNone) (e : κ × ℕ) :
    ∃ slots', place hash slots e = some slots' ∧ slots'.length = slots.length ∧
      Homed hash slots' ∧ slots'.countP Option.isNone + 1 = slots.countP Option.isNone ∧
      ∀ d, some d ∈ slots' ↔ some d ∈ slots ∨ d = e := by
  obtain ⟨j, hj⟩ := exists_find_free hm hfree (hash e.1)
  obtain ⟨x, hx, hnone⟩ := stop_of_find hm hj
  obtain rfl : x = none := by simpa using hnone
  have hlt : j < slots.length := (List.getElem?_eq_some_iff.mp hx).1
  refine ⟨slots.set j (some e), by rw [place, hj, Option.map_some], List.length_set, ?_,
    countP_set_free hx rfl rfl, fun d => ?_⟩
  · intro i d hi
    rw [List.getElem?_set] at hi
    split_ifs at hi with hij
    · obtain rfl : e = d := by simpa using hi
      subst hij
      exact (reaches_of_find hm (fun _ h => h) hj).set rfl _
    · exact (hh i d hi).set rfl _
  · constructor
    · intro hd
      rcases List.mem_or_eq_of_mem_set hd with hd | hd
      · exact .inl hd
      · exact .inr (by simpa using hd)
    · rintro (hd | rfl)
      · obtain ⟨i, hi⟩ := List.getElem?_of_mem hd
        have hne : j ≠ i := by
          rintro rfl
          rw [hx] at hi
          simp at hi
        exact List.mem_of_getElem? (i := i) (by rwa [List.getElem?_set_ne hne])
      · exact List.mem_of_getElem? (i := j) (List.getElem?_set_self hlt)

/-- Elements are placed while slots are free. -/
lemma placeAll_spec {es : List (κ × ℕ)} (hm : Masked slots) (hh : Homed hash slots)
    (hfree : es.length ≤ slots.countP Option.isNone) :
    ∃ slots', placeAll hash es slots = some slots' ∧ slots'.length = slots.length ∧
      Homed hash slots' ∧
      slots'.countP Option.isNone + es.length = slots.countP Option.isNone ∧
      ∀ d, some d ∈ slots' ↔ some d ∈ slots ∨ d ∈ es := by
  induction es generalizing slots with
  | nil => exact ⟨slots, rfl, rfl, hh, rfl, by simp⟩
  | cons e es ih =>
    rw [List.length_cons] at hfree
    obtain ⟨slots₁, hplace, hlen₁, hh₁, hcount₁, hmem₁⟩ := place_spec hm hh (by omega) e
    have hm₁ : Masked slots₁ := by rwa [Masked, hlen₁]
    obtain ⟨slots₂, hall, hlen₂, hh₂, hcount₂, hmem₂⟩ := ih hm₁ hh₁ (by omega)
    refine ⟨slots₂, by rw [placeAll, hplace, Option.bind_some, hall], by rw [hlen₂, hlen₁], hh₂,
      by rw [List.length_cons]; omega, fun d => ?_⟩
    rw [hmem₂, hmem₁, List.mem_cons, or_assoc]

/-- What has been placed had free slots. -/
lemma length_le_of_placeAll {es : List (κ × ℕ)} (hm : Masked slots) (hh : Homed hash slots)
    (h : placeAll hash es slots = some slots') : es.length ≤ slots.countP Option.isNone := by
  induction es generalizing slots with
  | nil => exact Nat.zero_le _
  | cons e es ih =>
    rw [placeAll] at h
    by_cases hfree : 0 < slots.countP Option.isNone
    · obtain ⟨slots₁, hplace, hlen₁, hh₁, hcount₁, -⟩ := place_spec hm hh hfree e
      rw [hplace, Option.bind_some] at h
      have := ih (by rwa [Masked, hlen₁]) hh₁ h
      rw [List.length_cons]
      omega
    · -- no slot is free, and the search for one does not end
      have hnone : find Option.isNone slots (hash e.1) = none := by
        refine (find_eq_none_iff hm).mpr fun x hx => ?_
        rw [← Bool.not_eq_true]
        exact fun hxn => hfree (List.countP_pos_iff.mpr ⟨x, hx, hxn⟩)
      rw [place, hnone] at h
      simp at h

lemma countP_replicate_none (n : ℕ) :
    (List.replicate n (none : Option (κ × ℕ))).countP Option.isNone = n := by
  simp [List.countP_replicate]

/-! ## The capacity of a rebuild -/

/-- The capacity is a power of two. -/
lemma exists_khashCapFor (need fuel k : ℕ) : ∃ m, khashCapFor need fuel (2 ^ k) = 2 ^ m := by
  induction fuel generalizing k with
  | zero => exact ⟨k, rfl⟩
  | succ fuel ih =>
    rw [khashCapFor]
    split_ifs
    · rw [← Nat.pow_succ]
      exact ih (k + 1)
    · exact ⟨k, rfl⟩

/-- The doubling gets to a capacity that is enough. -/
lemma le_khashCapFor_load {need fuel cap : ℕ} (hcap : 16 ≤ cap)
    (hfuel : need ≤ fuel + cap * 7 / 10) :
    need ≤ khashCapFor need fuel cap * 7 / 10 := by
  induction fuel generalizing cap with
  | zero =>
    rw [khashCapFor]
    omega
  | succ fuel ih =>
    rw [khashCapFor]
    split_ifs with h
    · exact ih (by omega) (by omega)
    · omega

/-- The capacity of a rebuild for `n` elements. -/
def rebuiltCap (n : ℕ) : ℕ := khashCapFor (n + 1) (n + 1) 16

lemma rebuiltCap_load (n : ℕ) : n + 1 ≤ rebuiltCap n * 7 / 10 :=
  le_khashCapFor_load (by decide) (by omega)

lemma masked_rebuilt (n : ℕ) : Masked (List.replicate (rebuiltCap n) (none : Option (κ × ℕ))) := by
  obtain ⟨m, hm⟩ := exists_khashCapFor (n + 1) (n + 1) 4
  exact ⟨m, by rw [List.length_replicate]; exact hm⟩

/-! ## Additions -/

/-- The slots an addition starts from. -/
def base (s : EvalSet κ) : List (Option (κ × ℕ)) :=
  if s.IsCrowded then List.replicate (rebuiltCap s.items.length) none else s.slots

/-- What an addition of the last elements `ks` places: all of them, if the slots are built anew, and
then the new ones. -/
def placed (s : EvalSet κ) (ks : List κ) : List (κ × ℕ) :=
  (if s.IsCrowded then s.items.zipIdx else []) ++ ks.map fun k => (k, s.items.length - 1)

/-- Without a rebuild the new elements are placed, with the last stamp. -/
lemma hashInsertAll_of_not_crowded (ks : List κ) (h : ¬ s.IsCrowded) :
    s.hashInsertAll hash ks =
      (placeAll hash (ks.map fun k => (k, s.items.length - 1)) s.slots).map
        fun slots => { s with slots } := by
  induction ks generalizing s with
  | nil => rfl
  | cons k ks ih =>
    rw [hashInsertAll, hashInsert, if_neg h, Option.bind_some, List.map_cons, placeAll]
    cases hplace : place hash s.slots (k, s.items.length - 1) with
    | none => rfl
    | some slots =>
      have hlen : slots.length = s.slots.length := by
        obtain ⟨j, -, rfl⟩ := Option.map_eq_some_iff.mp hplace
        exact List.length_set
      have h' : ¬ EvalSet.IsCrowded { s with slots } := by
        rw [IsCrowded] at h ⊢
        rwa [hlen]
      rw [Option.map_some, Option.bind_some, Option.bind_some, ih h']

lemma placeAll_append (es fs : List (κ × ℕ)) (slots : List (Option (κ × ℕ))) :
    placeAll hash (es ++ fs) slots = (placeAll hash es slots).bind (placeAll hash fs) := by
  induction es generalizing slots with
  | nil => rfl
  | cons e es ih =>
    rw [List.cons_append, placeAll, placeAll]
    cases place hash slots e with
    | none => rfl
    | some slots => exact ih slots

lemma length_of_placeAll {es : List (κ × ℕ)} (h : placeAll hash es slots = some slots') :
    slots'.length = slots.length := by
  induction es generalizing slots with
  | nil => rw [← Option.some.inj h]
  | cons e es ih =>
    rw [placeAll] at h
    obtain ⟨slots₁, hplace, hall⟩ := Option.bind_eq_some_iff.mp h
    obtain ⟨j, -, rfl⟩ := Option.map_eq_some_iff.mp hplace
    rw [ih hall, List.length_set]

/-- An addition places its elements from its first slots on. -/
lemma hashInsertAll_eq {ks : List κ} (hks : ks ≠ []) :
    s.hashInsertAll hash ks =
      (placeAll hash (s.placed ks) s.base).map fun slots => { s with slots } := by
  obtain ⟨k, ks, rfl⟩ := List.exists_cons_of_ne_nil hks
  by_cases h : s.IsCrowded
  · rw [placed, base, if_pos h, if_pos h, placeAll_append]
    have hbuild : s.build hash = (placeAll hash s.items.zipIdx
        (List.replicate (rebuiltCap s.items.length) none)).map fun slots => { s with slots } := rfl
    rw [hashInsertAll, hashInsert, if_pos h, hbuild]
    cases hall : placeAll hash s.items.zipIdx (List.replicate (rebuiltCap s.items.length) none) with
    | none => rfl
    | some slots =>
      have hlen := length_of_placeAll hall
      rw [List.length_replicate] at hlen
      -- the new slots are not crowded
      have h' : ¬ EvalSet.IsCrowded { s with slots } := by
        have := rebuiltCap_load s.items.length
        show ¬ slots.length * 7 / 10 < s.items.length + 1
        rw [hlen]
        omega
      have hinsert : EvalSet.hashInsertAll hash (k :: ks) { s with slots } = _ :=
        hashInsertAll_of_not_crowded (k :: ks) h'
      rw [hashInsertAll, hashInsert, if_neg h'] at hinsert
      exact hinsert
  · rw [placed, base, if_neg h, if_neg h, List.nil_append]
    exact hashInsertAll_of_not_crowded (k :: ks) h

/-! ## The invariant -/

/-- The slots whose stamps are below `n` hold exactly the first `n` elements. -/
def SeenBelow (s : EvalSet κ) (n : ℕ) : Prop :=
  (∀ e, some e ∈ s.slots → e.2 < n → e.1 ∈ s.items.take n) ∧
    ∀ k ∈ s.items.take n, ∃ st < n, some (k, st) ∈ s.slots

/-- Between additions: a slot is free, every element reaches its slot, and up to the count, now
and behind every truncation to come, the slots hold exactly the elements. -/
structure Good (hash : κ → ℕ) (s : EvalSet κ) (marks : List ℕ) : Prop where
  /-- A table without slots has no elements. -/
  slots : s.slots = [] ∧ s.items = [] ∨ Masked s.slots ∧ 0 < s.slots.countP Option.isNone
  /-- Every element reaches its slot. -/
  homed : Homed hash s.slots
  /-- The counts to truncate to, the last one first. -/
  sorted : (s.items.length :: marks).Pairwise (· ≥ ·)
  /-- Up to each of them the slots are right. -/
  below : ∀ n ∈ s.items.length :: marks, s.SeenBelow n

lemma good_empty : Good hash (empty : EvalSet κ) [] := by
  refine ⟨.inl ⟨rfl, rfl⟩, fun j e h => by simp [empty] at h, by simp, fun n _ => ⟨?_, ?_⟩⟩ <;>
    simp [empty]

section Lookup

variable [DecidableEq κ]

/-- A lookup ends at an element in a slot whose stamp is below the count. -/
lemma ends_some {k : κ} {e : κ × ℕ} (h : s.ends k (some e) = true) :
    e.2 < s.items.length ∧ e.1 = k := by
  simpa [ends] using h

/-- An element in a slot whose stamp is below the count is seen. -/
lemma seen_of_mem (hm : Masked s.slots) (hh : Homed hash s.slots) {k : κ} {st : ℕ}
    (hmem : some (k, st) ∈ s.slots) (hst : st < s.items.length) : s.seen hash k = some true := by
  obtain ⟨j, hj⟩ := List.getElem?_of_mem hmem
  have hends : s.ends k (some (k, st)) = true := by simpa [ends] using hst
  obtain ⟨j', x, hfind, hx, hused, -⟩ := exists_find_of_reaches hm (hh j _ hj) hj rfl hends
  rw [seen, if_neg (Nat.ne_of_gt hm.pos), hfind, Option.map_some, hx, Option.join_some]
  cases x with
  | none => exact absurd hused (by simp)
  | some e => rfl

/-- Where the invariant holds, lookups answer what the elements say. -/
theorem Good.exact {marks : List ℕ} (h : Good hash s marks) : s.Exact hash := by
  intro k
  obtain ⟨hseen, hslot⟩ := h.below _ List.mem_cons_self
  rw [List.take_length] at hseen hslot
  rcases h.slots with ⟨hslots, hitems⟩ | ⟨hm, hfree⟩
  · rw [seen, hslots, hitems]
    simp
  · by_cases hk : k ∈ s.items
    · obtain ⟨st, hst, hmem⟩ := hslot k hk
      rw [seen_of_mem hm h.homed hmem hst, decide_eq_true hk]
    · -- the search stops at a free slot
      have hne : find (s.ends k) s.slots (hash k) ≠ none := by
        obtain ⟨x, hx, hnone⟩ := List.countP_pos_iff.mp hfree
        obtain rfl : x = none := by simpa using hnone
        intro hfind
        exact absurd ((find_eq_none_iff hm).mp hfind none hx) (by simp [ends])
      obtain ⟨j, hj⟩ := Option.ne_none_iff_exists'.mp hne
      obtain ⟨x, hx, hstop⟩ := stop_of_find hm hj
      rw [seen, if_neg (Nat.ne_of_gt hm.pos), hj, Option.map_some, hx, Option.join_some,
        decide_eq_false hk]
      cases x with
      | none => rfl
      | some e =>
        obtain ⟨hst, rfl⟩ := ends_some hstop
        exact absurd (hseen e (List.mem_of_getElem? hx) hst) hk

end Lookup

/-! ## Truncation and counts -/

/-- A count is saved. -/
lemma Good.save {marks : List ℕ} (h : Good hash s marks) :
    Good hash s (s.items.length :: marks) := by
  refine ⟨h.slots, h.homed, List.pairwise_cons.mpr ⟨fun n hn => ?_, h.sorted⟩, fun n hn => ?_⟩
  · rcases List.mem_cons.mp hn with rfl | hn
    · exact Nat.le_refl _
    · exact (List.pairwise_cons.mp h.sorted).1 n hn
  · rcases List.mem_cons.mp hn with rfl | hn
    · exact h.below _ List.mem_cons_self
    · exact h.below n hn

/-- A saved count is forgotten. -/
lemma Good.keep {m : ℕ} {marks : List ℕ} (h : Good hash s (m :: marks)) : Good hash s marks :=
  ⟨h.slots, h.homed, h.sorted.sublist (by simp), fun n hn => h.below n (by
    rcases List.mem_cons.mp hn with rfl | hn <;> simp [*])⟩

/-- The elements from a saved count on are dropped. -/
lemma Good.truncate {m : ℕ} {marks : List ℕ} (h : Good hash s (m :: marks)) :
    Good hash (s.truncate m) marks := by
  obtain ⟨hle, hmarks⟩ := List.pairwise_cons.mp h.sorted
  have hm : m ≤ s.items.length := hle m List.mem_cons_self
  have hlen : (s.truncate m).items.length = m := by
    rw [EvalSet.truncate, List.length_take, Nat.min_eq_left hm]
  refine ⟨?_, h.homed, by rwa [hlen], fun n hn => ?_⟩
  · rcases h.slots with ⟨hslots, hitems⟩ | hslots
    · exact .inl ⟨hslots, by rw [EvalSet.truncate, hitems, List.take_nil]⟩
    · exact .inr hslots
  · rw [hlen] at hn
    have hnm : n ≤ m := by
      rcases List.mem_cons.mp hn with rfl | hn
      · exact Nat.le_refl _
      · exact (List.pairwise_cons.mp hmarks).1 n hn
    have htake : (s.truncate m).items.take n = s.items.take n := by
      rw [EvalSet.truncate, List.take_take, Nat.min_eq_left hnm]
    rw [SeenBelow, htake]
    exact h.below n (List.mem_cons_of_mem _ hn)

/-! ## Additions and the invariant -/

section Addition

variable {ks : List κ} {marks : List ℕ}

/-- The set with the new elements listed, and not yet placed. -/
abbrev listed (s : EvalSet κ) (ks : List κ) : EvalSet κ := { s with items := s.items ++ ks }

lemma base_spec (h : Good hash s marks) (ks : List κ) :
    Masked (s.listed ks).base ∧ Homed hash (s.listed ks).base := by
  rw [base]
  split_ifs with hc
  · exact ⟨masked_rebuilt _, homed_free _⟩
  · refine ⟨?_, h.homed⟩
    rcases h.slots with ⟨hslots, -⟩ | ⟨hm, -⟩
    · refine absurd ?_ hc
      rw [IsCrowded, hslots, List.length_nil]
      omega
    · exact hm

/-- New elements are taken rightly: a slot stays free, and none of those the addition starts from
gets into range with another element. -/
lemma takes_iff : s.Takes ks ↔
    ((s.listed ks).placed ks).length < (s.listed ks).base.countP Option.isNone ∧
      ∀ e, some e ∈ (s.listed ks).base → s.items.length ≤ e.2 → e.2 < (s.listed ks).items.length →
        e.1 ∈ (s.listed ks).items := by
  have hlen : (s.listed ks).items.length = s.items.length + ks.length := List.length_append
  by_cases hc : (s.listed ks).IsCrowded
  · have hc' := hc
    rw [IsCrowded, hlen] at hc'
    rw [Takes, placed, base, if_pos hc, if_pos hc, if_pos hc', countP_replicate_none,
      List.length_append, List.length_zipIdx, List.length_map, hlen]
    exact ⟨fun h => ⟨h, fun e he => by simp at he⟩, fun h => h.1⟩
  · have hc' := hc
    rw [IsCrowded, hlen] at hc'
    rw [Takes, placed, base, if_neg hc, if_neg hc, if_neg hc', List.nil_append, List.length_map,
      hlen]

/-- What an addition placed. -/
lemma mem_placed {e : κ × ℕ} (h : e ∈ (s.listed ks).placed ks) :
    (s.listed ks).items[e.2]? = some e.1 ∨
      e.1 ∈ ks ∧ e.2 = (s.listed ks).items.length - 1 := by
  rcases List.mem_append.mp h with h | h
  · split_ifs at h
    · exact .inl (List.mk_mem_zipIdx_iff_getElem?.mp h)
    · simp at h
  · obtain ⟨k, hk, rfl⟩ := List.mem_map.mp h
    exact .inr ⟨hk, rfl⟩

/-- What the addition places covers the new elements, and all of them if the slots are new. -/
lemma exists_placed {k : κ} {i : ℕ} (h : (s.listed ks).items[i]? = some k)
    (hnew : (s.listed ks).IsCrowded ∨ s.items.length ≤ i) :
    (k, i) ∈ (s.listed ks).placed ks ∨ (k, (s.listed ks).items.length - 1) ∈
      (s.listed ks).placed ks := by
  rw [placed]
  by_cases hc : (s.listed ks).IsCrowded
  · refine .inl (List.mem_append_left _ ?_)
    rw [if_pos hc]
    exact List.mk_mem_zipIdx_iff_getElem?.mpr h
  · have hk : k ∈ ks := by
      rw [List.getElem?_append_right (hnew.resolve_left hc)] at h
      exact List.mem_of_getElem? h
    exact .inr (List.mem_append_right _ (List.mem_map.mpr ⟨k, hk, rfl⟩))

/-- Slots of an addition: those it starts from, if they are the old ones, and what it places. -/
def Holds (s : EvalSet κ) (ks : List κ) (slots : List (Option (κ × ℕ))) : Prop :=
  ∀ e, some e ∈ slots ↔ some e ∈ (s.listed ks).base ∨ e ∈ (s.listed ks).placed ks

lemma mem_base {e : κ × ℕ} (h : some e ∈ (s.listed ks).base) :
    ¬ (s.listed ks).IsCrowded ∧ some e ∈ s.slots := by
  rw [base] at h
  split_ifs at h with hc
  · simp at h
  · exact ⟨hc, h⟩

lemma mem_base_of {e : κ × ℕ} (hc : ¬ (s.listed ks).IsCrowded) (h : some e ∈ s.slots) :
    some e ∈ (s.listed ks).base := by
  rwa [base, if_neg hc]

/-- Up to a count among the old elements an addition changes nothing. -/
lemma seenBelow_old {n : ℕ} (hks : ks ≠ []) (hn : n ≤ s.items.length) (h : s.SeenBelow n)
    (hholds : s.Holds ks slots) : SeenBelow { s.listed ks with slots } n := by
  have hpos : 0 < ks.length := List.length_pos_iff.mpr hks
  have hitems : (s.listed ks).items.length = s.items.length + ks.length := List.length_append
  have htake : (s.listed ks).items.take n = s.items.take n := List.take_append_of_le_length hn
  refine ⟨fun e he hst => ?_, fun k hk => ?_⟩
  · rcases (hholds e).mp he with he | he
    · rw [show EvalSet.items { s.listed ks with slots } = (s.listed ks).items from rfl, htake]
      exact h.1 e (mem_base he).2 hst
    · rcases mem_placed he with hget | ⟨-, hlast⟩
      · exact List.mem_of_getElem? (by rwa [List.getElem?_take_of_lt hst])
      · omega
  · by_cases hc : (s.listed ks).IsCrowded
    · obtain ⟨i, hi⟩ := List.getElem?_of_mem hk
      have hin : i < n := by
        have := (List.getElem?_eq_some_iff.mp hi).1
        rw [List.length_take] at this
        omega
      rw [List.getElem?_take_of_lt hin] at hi
      refine ⟨i, hin, (hholds _).mpr (.inr (List.mem_append_left _ ?_))⟩
      rw [if_pos hc]
      exact List.mk_mem_zipIdx_iff_getElem?.mpr hi
    · obtain ⟨st, hst, hmem⟩ := h.2 k (htake ▸ hk)
      exact ⟨st, hst, (hholds _).mpr (.inl (mem_base_of hc hmem))⟩

/-- Up to the new count a right addition leaves the slots right. -/
lemma seenBelow_new (hks : ks ≠ []) (h : s.SeenBelow s.items.length)
    (hstale : ∀ e, some e ∈ (s.listed ks).base → s.items.length ≤ e.2 →
      e.2 < (s.listed ks).items.length → e.1 ∈ (s.listed ks).items)
    (hholds : s.Holds ks slots) :
    SeenBelow { s.listed ks with slots } (s.listed ks).items.length := by
  have hpos : 0 < ks.length := List.length_pos_iff.mpr hks
  have hitems : (s.listed ks).items.length = s.items.length + ks.length := List.length_append
  have htake : (s.listed ks).items.take (s.listed ks).items.length = (s.listed ks).items :=
    List.take_length
  refine ⟨fun e he hst => ?_, fun k hk => ?_⟩
  · rw [show EvalSet.items { s.listed ks with slots } = (s.listed ks).items from rfl, htake]
    rcases (hholds e).mp he with he | he
    · by_cases hold : e.2 < s.items.length
      · have hmem := h.1 e (mem_base he).2 hold
        rw [List.take_length] at hmem
        exact List.mem_append_left _ hmem
      · exact hstale e he (Nat.le_of_not_lt hold) hst
    · rcases mem_placed he with hget | ⟨hk, -⟩
      · exact List.mem_of_getElem? hget
      · exact List.mem_append_right _ hk
  · rw [show EvalSet.items { s.listed ks with slots } = (s.listed ks).items from rfl, htake] at hk
    obtain ⟨i, hi⟩ := List.getElem?_of_mem hk
    have hin := (List.getElem?_eq_some_iff.mp hi).1
    by_cases hnew : (s.listed ks).IsCrowded ∨ s.items.length ≤ i
    · rcases exists_placed hi hnew with hmem | hmem
      · exact ⟨i, hin, (hholds _).mpr (.inr hmem)⟩
      · exact ⟨_, by omega, (hholds _).mpr (.inr hmem)⟩
    · -- an old element in an old slot
      obtain ⟨hc, hold⟩ := not_or.mp hnew
      have hold' : i < s.items.length := Nat.lt_of_not_le hold
      have hkold : k ∈ s.items.take s.items.length := by
        rw [List.take_length]
        rw [List.getElem?_append_left hold'] at hi
        exact List.mem_of_getElem? hi
      obtain ⟨st, hst, hmem⟩ := h.2 k hkold
      exact ⟨st, by omega, (hholds _).mpr (.inl (mem_base_of hc hmem))⟩

/-- Behind a right addition the invariant holds again. -/
theorem Good.append (h : Good hash s marks) (hks : ks ≠ []) (ht : s.Takes ks) :
    ∃ s', s.append hash ks = some s' ∧ s'.items = s.items ++ ks ∧ Good hash s' marks := by
  obtain ⟨hroom, hstale⟩ := takes_iff.mp ht
  obtain ⟨hm, hh⟩ := base_spec h ks
  obtain ⟨slots', hall, hlen, hh', hcount, hmem⟩ := placeAll_spec hm hh (Nat.le_of_lt hroom)
  have hitems : (s.listed ks).items.length = s.items.length + ks.length := List.length_append
  have hfree : 0 < slots'.countP Option.isNone := by omega
  obtain ⟨hle, hsorted⟩ := List.pairwise_cons.mp h.sorted
  refine ⟨{ s.listed ks with slots := slots' }, ?_, rfl, .inr ⟨by rwa [Masked, hlen], hfree⟩, hh',
    List.pairwise_cons.mpr ⟨fun n hn => ?_, hsorted⟩, fun n hn => ?_⟩
  · rw [EvalSet.append, hashInsertAll_eq hks, hall, Option.map_some]
  · have := hle n hn
    show n ≤ (s.listed ks).items.length
    omega
  · rcases List.mem_cons.mp hn with rfl | hn
    · exact seenBelow_new hks (h.below _ List.mem_cons_self) hstale hmem
    · exact seenBelow_old hks (hle n hn) (h.below n (List.mem_cons_of_mem _ hn)) hmem

/-- An addition behind which lookups are right was a right one. -/
theorem Good.takes [DecidableEq κ] [Infinite κ] (h : Good hash s marks) (hks : ks ≠ [])
    (happ : s.append hash ks = some s') (hexact : s'.Exact hash) : s.Takes ks := by
  obtain ⟨hm, hh⟩ := base_spec h ks
  rw [EvalSet.append, hashInsertAll_eq hks, Option.map_eq_some_iff] at happ
  obtain ⟨slots', hall, rfl⟩ := happ
  obtain ⟨slots'', hall', hlen, hh', hcount, hmem⟩ :=
    placeAll_spec hm hh (length_le_of_placeAll hm hh hall)
  obtain rfl : slots' = slots'' := Option.some.inj (hall.symm.trans hall')
  have hm' : Masked slots' := by rwa [Masked, hlen]
  have hroom : slots'.countP Option.isNone + ((s.listed ks).placed ks).length =
    (s.listed ks).base.countP Option.isNone := hcount
  refine takes_iff.mpr ⟨?_, fun e he hold hnew => ?_⟩
  · -- in a table without a free slot a lookup of an element in no slot does not end
    suffices hfree : 0 < slots'.countP Option.isNone by omega
    by_contra hfull
    have hused : ∀ x ∈ slots', x ≠ none := by
      rintro x hx rfl
      exact hfull (List.countP_pos_iff.mpr ⟨none, hx, rfl⟩)
    obtain ⟨k, hk⟩ := Infinite.exists_notMem_finset ((slots'.filterMap id).map Prod.fst).toFinset
    have hnone : find (EvalSet.ends { s.listed ks with slots := slots' } k) slots' (hash k) =
        none := by
      refine (find_eq_none_iff hm').mpr fun x hx => ?_
      cases x with
      | none => exact absurd rfl (hused none hx)
      | some e =>
        rw [← Bool.not_eq_true]
        intro hends
        refine hk (List.mem_toFinset.mpr (List.mem_map.mpr ⟨e, ?_, (ends_some hends).2⟩))
        exact List.mem_filterMap.mpr ⟨some e, hx, rfl⟩
    have hseen := hexact k
    rw [seen, if_neg (Nat.ne_of_gt hm'.pos), hnone] at hseen
    simp at hseen
  · by_contra hout
    have hslot : some (e.1, e.2) ∈ slots' := (hmem e).mpr (.inl he)
    have hseen := @seen_of_mem _ hash { s.listed ks with slots := slots' } _ hm' hh' e.1 e.2 hslot
      hnew
    rw [hexact e.1, decide_eq_false hout] at hseen
    simp at hseen

/-- No element at all may be added as well. -/
lemma Good.appendAll (h : Good hash s marks) (ht : ks ≠ [] → s.Takes ks) :
    ∃ s', s.append hash ks = some s' ∧ Good hash s' marks := by
  by_cases hks : ks = []
  · refine ⟨s, ?_, h⟩
    rw [hks, EvalSet.append, hashInsertAll, List.append_nil]
  · obtain ⟨s', happ, -, hgood⟩ := h.append hks (ht hks)
    exact ⟨s', happ, hgood⟩

variable [DecidableEq κ]

/-- An element that is not there yet is added. -/
lemma Good.add_eq (h : Good hash s marks) (k : κ) :
    s.add hash k = if k ∈ s.items then some s else s.append hash [k] := by
  rw [EvalSet.add, h.exact k, Option.bind_some]
  by_cases hk : k ∈ s.items <;> simp [hk]

lemma Good.add (h : Good hash s marks) {k : κ} (ht : k ∉ s.items → s.Takes [k]) :
    ∃ s', s.add hash k = some s' ∧ Good hash s' marks := by
  rw [h.add_eq]
  by_cases hk : k ∈ s.items
  · exact ⟨s, by rw [if_pos hk], h⟩
  · rw [if_neg hk]
    exact h.appendAll fun _ => ht hk

lemma Good.takes_of_add [Infinite κ] (h : Good hash s marks) {k : κ}
    (hadd : s.add hash k = some s') (hexact : s'.Exact hash) (hk : k ∉ s.items) :
    s.Takes [k] := by
  rw [h.add_eq, if_neg hk] at hadd
  exact h.takes (List.cons_ne_nil _ _) hadd hexact

end Addition

end EvalSet

/-! ## Frames -/

/-- The invariant of both sets, with the counts that are saved. -/
structure EvalFrame.Good (f : EvalFrame) : Prop where
  /-- The keys. -/
  keys : f.keys.Good keyHome (f.trials.map Prod.fst)
  /-- The indices. -/
  idx : f.idx.Good idxHome (f.trials.map Prod.snd)

namespace EvalFrame

variable {f p : EvalFrame}

lemma Good.exact (h : f.Good) : f.Exact := ⟨h.keys.exact, h.idx.exact⟩

lemma good_new (inst : ℕ) : (new inst).Good := ⟨EvalSet.good_empty, EvalSet.good_empty⟩

lemma Good.saveCounts (h : f.Good) : f.saveCounts.Good := ⟨h.keys.save, h.idx.save⟩

lemma Good.truncateTo (h : f.Good) : f.truncateTo.Good := by
  obtain ⟨inst, keys, idx, _ | ⟨t, trials⟩⟩ := f
  · exact h
  · exact ⟨h.keys.truncate, h.idx.truncate⟩

lemma Good.keepCounts (h : f.Good) : f.keepCounts.Good := by
  obtain ⟨inst, keys, idx, _ | ⟨t, trials⟩⟩ := f
  · exact h
  · exact ⟨h.keys.keep, h.idx.keep⟩

lemma Good.mergeUp (h : p.Good) (ht : f.MergeTakes p) : ∃ p', f.mergeUp p = some p' ∧ p'.Good := by
  rw [EvalFrame.mergeUp]
  by_cases hinst : p.inst = f.inst
  · obtain ⟨keys, hkeys, hgoodKeys⟩ := h.keys.appendAll (ht hinst).1
    obtain ⟨idx, hidx, hgoodIdx⟩ := h.idx.appendAll (ht hinst).2
    rw [if_neg (not_not.mpr hinst), hkeys, Option.bind_some, hidx, Option.map_some]
    exact ⟨_, rfl, hgoodKeys, hgoodIdx⟩
  · exact ⟨p, if_pos hinst, h⟩

lemma Good.mergeTakes (h : p.Good) {p' : EvalFrame} (hmerge : f.mergeUp p = some p')
    (hexact : p'.Exact) : f.MergeTakes p := by
  intro hinst
  rw [EvalFrame.mergeUp, if_neg (not_not.mpr hinst)] at hmerge
  obtain ⟨keys, hkeys, hmerge⟩ := Option.bind_eq_some_iff.mp hmerge
  obtain ⟨idx, hidx, rfl⟩ := Option.map_eq_some_iff.mp hmerge
  exact ⟨fun hne => h.keys.takes hne hkeys hexact.1, fun hne => h.idx.takes hne hidx hexact.2⟩

end EvalFrame

/-! ## Runs -/

variable {fs fs' : List EvalFrame} {op : FrameOp}

/-- A step that takes what it adds rightly ends, and keeps the invariant. -/
lemma frameStep_good (h : ∀ f ∈ fs, f.Good) (ht : StepTakes fs op) :
    ∃ fs', frameStep fs op = some fs' ∧ ∀ f ∈ fs', f.Good := by
  have hpush : ∀ {g : EvalFrame} {gs : List EvalFrame}, g.Good → (∀ f ∈ gs, f.Good) →
      ∀ f ∈ g :: gs, f.Good := fun hg hgs f hf =>
    (List.mem_cons.mp hf).elim (fun heq => heq ▸ hg) (hgs f)
  cases fs with
  | nil =>
    cases op with
    | push inst => exact ⟨_, rfl, hpush (EvalFrame.good_new inst) h⟩
    | pop | key | idx | trial | discard | keep => exact ⟨[], rfl, h⟩
  | cons f fs =>
    have hf := h f List.mem_cons_self
    have hfs : ∀ g ∈ fs, g.Good := fun g hg => h g (List.mem_cons_of_mem f hg)
    cases op with
    | push inst => exact ⟨_, rfl, hpush (EvalFrame.good_new inst) h⟩
    | pop =>
      cases fs with
      | nil => exact ⟨[], rfl, hfs⟩
      | cons p fs =>
        obtain ⟨p', hmerge, hp'⟩ := (hfs p List.mem_cons_self).mergeUp (ht f p fs rfl)
        refine ⟨p' :: fs, by rw [frameStep, hmerge, Option.map_some], hpush hp' ?_⟩
        exact fun g hg => hfs g (List.mem_cons_of_mem p hg)
    | key k =>
      obtain ⟨keys, hadd, hkeys⟩ := hf.keys.add (ht f rfl)
      refine ⟨{ f with keys } :: fs, ?_, hpush ⟨hkeys, hf.idx⟩ hfs⟩
      rw [frameStep, EvalFrame.addKey, hadd, Option.map_some, Option.map_some]
    | idx i =>
      obtain ⟨idx, hadd, hidx⟩ := hf.idx.add (ht f rfl)
      refine ⟨{ f with idx } :: fs, ?_, hpush ⟨hf.keys, hidx⟩ hfs⟩
      rw [frameStep, EvalFrame.addIdx, hadd, Option.map_some, Option.map_some]
    | trial => exact ⟨_, rfl, hpush hf.saveCounts hfs⟩
    | discard => exact ⟨_, rfl, hpush hf.truncateTo hfs⟩
    | keep => exact ⟨_, rfl, hpush hf.keepCounts hfs⟩

/-- A step behind which the lookups are right took what it added rightly. -/
lemma frameStep_takes (h : ∀ f ∈ fs, f.Good) (hstep : frameStep fs op = some fs')
    (hexact : ∀ f ∈ fs', f.Exact) : StepTakes fs op := by
  cases op with
  | push | trial | discard | keep => trivial
  | pop =>
    rintro f p rest rfl
    obtain ⟨p', hmerge, rfl⟩ := Option.map_eq_some_iff.mp hstep
    have hp := h p (List.mem_cons_of_mem f List.mem_cons_self)
    exact hp.mergeTakes hmerge (hexact p' List.mem_cons_self)
  | key k =>
    intro f hhead hk
    obtain ⟨rest, rfl⟩ := List.head?_eq_some_iff.mp hhead
    obtain ⟨f', hadd, rfl⟩ := Option.map_eq_some_iff.mp hstep
    obtain ⟨keys, hkeys, rfl⟩ := Option.map_eq_some_iff.mp hadd
    exact (h f List.mem_cons_self).keys.takes_of_add hkeys (hexact _ List.mem_cons_self).1 hk
  | idx i =>
    intro f hhead hi
    obtain ⟨rest, rfl⟩ := List.head?_eq_some_iff.mp hhead
    obtain ⟨f', hadd, rfl⟩ := Option.map_eq_some_iff.mp hstep
    obtain ⟨idx, hidx, rfl⟩ := Option.map_eq_some_iff.mp hadd
    exact (h f List.mem_cons_self).idx.takes_of_add hidx (hexact _ List.mem_cons_self).2 hi

/-- Every state of the run is reached, and has a property. -/
def RunHas (P : List EvalFrame → Prop) (fs : List EvalFrame) (ops : List FrameOp) : Prop :=
  ∀ pre, pre <+: ops → ∃ fs', frameRun fs pre = some fs' ∧ P fs'

/-- The states of a run are its first one and those of what follows. -/
lemma runHas_cons {P : List EvalFrame → Prop} {ops : List FrameOp} : RunHas P fs (op :: ops) ↔
    P fs ∧ ∃ fs', frameStep fs op = some fs' ∧ RunHas P fs' ops := by
  constructor
  · intro h
    obtain ⟨fs₀, hrun, hP⟩ := h [] List.nil_prefix
    obtain rfl := Option.some.inj hrun
    obtain ⟨fs₁, hrun₁, -⟩ := h [op] ((List.prefix_cons_inj op).mpr List.nil_prefix)
    obtain ⟨fs', hstep, -⟩ := Option.bind_eq_some_iff.mp hrun₁
    refine ⟨hP, fs', hstep, fun pre hpre => ?_⟩
    obtain ⟨fs₂, hrun₂, hP₂⟩ := h (op :: pre) ((List.prefix_cons_inj op).mpr hpre)
    rw [frameRun, hstep, Option.bind_some] at hrun₂
    exact ⟨fs₂, hrun₂, hP₂⟩
  · rintro ⟨hP, fs', hstep, h⟩ pre hpre
    cases pre with
    | nil => exact ⟨fs, rfl, hP⟩
    | cons op' pre =>
      obtain ⟨rfl, htail⟩ := List.cons_prefix_cons.mp hpre
      obtain ⟨fs₂, hrun₂, hP₂⟩ := h pre htail
      exact ⟨fs₂, by rw [frameRun, hstep, Option.bind_some, hrun₂], hP₂⟩

/-- A condition on the steps under which an invariant is kept, and that holds of every step from the
invariant to the property, decides whether a run has the property. -/
lemma runHas_iff {Inv P : List EvalFrame → Prop} {C : List EvalFrame → FrameOp → Prop}
    {RC : List EvalFrame → List FrameOp → Prop} (hnil : ∀ fs, RC fs [])
    (hcons : ∀ fs op ops, RC fs (op :: ops) ↔ C fs op ∧ ∀ fs' ∈ frameStep fs op, RC fs' ops)
    (hP : ∀ fs, Inv fs → P fs)
    (hkeep : ∀ fs op, Inv fs → C fs op → ∃ fs', frameStep fs op = some fs' ∧ Inv fs')
    (hneeds : ∀ fs op fs', Inv fs → frameStep fs op = some fs' → P fs' → C fs op)
    {ops : List FrameOp} (h : Inv fs) : RunHas P fs ops ↔ RC fs ops := by
  induction ops generalizing fs with
  | nil =>
    refine iff_of_true (fun pre hpre => ?_) (hnil fs)
    rw [List.prefix_nil.mp hpre]
    exact ⟨fs, rfl, hP fs h⟩
  | cons op ops ih =>
    rw [runHas_cons, hcons]
    constructor
    · rintro ⟨-, fs', hstep, hrun⟩
      obtain ⟨fs₀, hrun₀, hP'⟩ := hrun [] List.nil_prefix
      obtain rfl := Option.some.inj hrun₀
      have hC := hneeds fs op _ h hstep hP'
      obtain ⟨fs₁, hstep₁, hinv⟩ := hkeep fs op h hC
      obtain rfl := Option.some.inj (hstep.symm.trans hstep₁)
      refine ⟨hC, fun fs₂ hfs₂ => ?_⟩
      obtain rfl := Option.some.inj (hstep.symm.trans hfs₂)
      exact (ih hinv).mp hrun
    · rintro ⟨hC, hrest⟩
      obtain ⟨fs', hstep, hinv⟩ := hkeep fs op h hC
      exact ⟨hP fs h, fs', hstep, (ih hinv).mpr (hrest fs' hstep)⟩

lemma runExact_iff {ops : List FrameOp} (h : ∀ f ∈ fs, f.Good) :
    RunExact fs ops ↔ RunTakes fs ops :=
  runHas_iff (C := StepTakes) (fun _ => trivial) (fun _ _ _ => Iff.rfl)
    (fun _ h f hf => (h f hf).exact) (fun _ _ h ht => frameStep_good h ht)
    (fun _ _ _ h hstep hexact => frameStep_takes h hstep hexact) h

/-- In every run from no frame on, every state is reached and answers `frame_key_seen` and
`frame_idx_seen` for exactly the current annotations, if and only if every step takes what it adds
rightly. -/
theorem annotation_sets_iff (ops : List FrameOp) : RunExact [] ops ↔ RunTakes [] ops :=
  runExact_iff fun _ hf => absurd hf List.not_mem_nil

/-- A value under `anyOf`: its first branch evaluates `a` and fails, its second one evaluates
`b`. -/
def droppedBranch : List FrameOp :=
  [.push 0, .trial, .push 0, .key [0x61], .pop, .discard, .trial, .push 0, .key [0x62], .pop, .keep]

/-- The annotation of the failed branch is back when the second branch has added its own. -/
theorem annotation_dropped : ¬ ∀ ops : List FrameOp, RunExact [] ops := by
  intro h
  obtain ⟨fs, hrun, hexact⟩ := h droppedBranch _ List.prefix_rfl
  have hseen : (frameRun [] droppedBranch).map (fun fs => fs.map fun f =>
      (f.keySeen [0x61], f.keys.items)) = some [(some true, [[0x62]])] := by decide +kernel
  rw [hrun, Option.map_some, Option.some.injEq] at hseen
  obtain ⟨f, rfl, hf⟩ := List.map_eq_singleton_iff.mp hseen
  obtain ⟨hkey, hitems⟩ := Prod.mk.inj hf
  have hanswer := (hexact f (by simp)).1 [0x61]
  have hkey' : f.keys.seen keyHome [0x61] = some true := hkey
  rw [hkey', hitems] at hanswer
  exact absurd hanswer (by decide)

end Teptris
