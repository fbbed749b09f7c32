import Teptris.Schema.Annotations

/-!
# Free slots of the annotation tables

When every search in the tables of `validate.c` ends: a table keeps a free slot in a run up to the
first step that has no room for what it places.  A truncation gives no slot back, and a merge that
builds the table anew places its elements twice.
-/

namespace Teptris

open Probing

namespace EvalSet

variable {κ : Type} {hash : κ → ℕ} {s s' : EvalSet κ} {ks : List κ}

/-! ## Sets -/

/-- A table with slots has a free one. -/
def HasFree (s : EvalSet κ) : Prop := s.slots = [] ∨ 0 < s.slots.countP Option.isNone

/-- There is room for new elements, and for one more: where the slots are built anew they take every
element and the new ones once more, elsewhere the new ones. -/
def Room (s : EvalSet κ) (ks : List κ) : Prop :=
  let n := s.items.length + ks.length
  if s.slots.length * 7 / 10 < n + 1 then n + ks.length < khashCapFor (n + 1) (n + 1) 16
  else ks.length < s.slots.countP Option.isNone

/-- A table with slots is a masked one with a free slot, and every element reaches its slot. -/
structure Open (hash : κ → ℕ) (s : EvalSet κ) : Prop where
  /-- A free slot. -/
  slots : s.slots = [] ∨ Masked s.slots ∧ 0 < s.slots.countP Option.isNone
  /-- Every element reaches its slot. -/
  homed : Homed hash s.slots

lemma open_empty : Open hash (empty : EvalSet κ) :=
  ⟨.inl rfl, fun j e h => by simp [empty] at h⟩

lemma Open.hasFree (h : Open hash s) : s.HasFree := h.slots.imp_right fun h => h.2

/-- A truncation leaves the slots. -/
lemma Open.truncate (h : Open hash s) (n : ℕ) : Open hash (s.truncate n) := ⟨h.slots, h.homed⟩

/-- An element is placed if and only if a slot is free. -/
lemma place_isSome_iff {slots : List (Option (κ × ℕ))} (hm : Masked slots) (e : κ × ℕ) :
    (place hash slots e).isSome = true ↔ 0 < slots.countP Option.isNone := by
  rw [place, Option.isSome_map]
  constructor
  · intro h
    obtain ⟨j, hj⟩ := Option.isSome_iff_exists.mp h
    obtain ⟨x, hx, hnone⟩ := stop_of_find hm hj
    exact List.countP_pos_iff.mpr ⟨x, List.mem_of_getElem? hx, hnone⟩
  · intro h
    obtain ⟨j, hj⟩ := exists_find_free hm h (hash e.1)
    rw [hj]
    rfl

lemma Open.base (h : Open hash s) (ks : List κ) :
    Masked (s.listed ks).base ∧ Homed hash (s.listed ks).base := by
  rw [EvalSet.base]
  split_ifs with hc
  · exact ⟨masked_rebuilt _, homed_free _⟩
  · refine ⟨?_, h.homed⟩
    rcases h.slots with hslots | ⟨hm, -⟩
    · refine absurd ?_ hc
      rw [IsCrowded, hslots, List.length_nil]
      omega
    · exact hm

/-- Room is a slot more than the addition places. -/
lemma room_iff : s.Room ks ↔
    ((s.listed ks).placed ks).length < (s.listed ks).base.countP Option.isNone := by
  have hlen : (s.listed ks).items.length = s.items.length + ks.length := List.length_append
  by_cases hc : (s.listed ks).IsCrowded
  · have hc' := hc
    rw [IsCrowded, hlen] at hc'
    rw [Room, placed, EvalSet.base, if_pos hc, if_pos hc, if_pos hc', countP_replicate_none,
      List.length_append, List.length_zipIdx, List.length_map, hlen]
    exact Iff.rfl
  · have hc' := hc
    rw [IsCrowded, hlen] at hc'
    rw [Room, placed, EvalSet.base, if_neg hc, if_neg hc, if_neg hc', List.nil_append,
      List.length_map]

/-- Elements with room are placed, and a slot stays free. -/
lemma Open.append (h : Open hash s) (hks : ks ≠ []) (hroom : s.Room ks) :
    ∃ s', s.append hash ks = some s' ∧ Open hash s' := by
  obtain ⟨hm, hh⟩ := h.base ks
  have hlt := room_iff.mp hroom
  obtain ⟨slots', hall, hlen, hh', hcount, -⟩ := placeAll_spec hm hh (Nat.le_of_lt hlt)
  refine ⟨{ s.listed ks with slots := slots' }, ?_, .inr ⟨by rwa [Masked, hlen], ?_⟩, hh'⟩
  · rw [EvalSet.append, hashInsertAll_eq hks, hall, Option.map_some]
  · show 0 < slots'.countP Option.isNone
    omega

/-- Elements that are placed, with a slot left free, had room. -/
lemma Open.room (h : Open hash s) (hks : ks ≠ []) (happ : s.append hash ks = some s')
    (hfree : s'.HasFree) : s.Room ks := by
  obtain ⟨hm, hh⟩ := h.base ks
  rw [EvalSet.append, hashInsertAll_eq hks, Option.map_eq_some_iff] at happ
  obtain ⟨slots', hall, rfl⟩ := happ
  obtain ⟨slots'', hall', hlen, -, hcount, -⟩ :=
    placeAll_spec hm hh (length_le_of_placeAll hm hh hall)
  obtain rfl : slots' = slots'' := Option.some.inj (hall.symm.trans hall')
  have hpos : 0 < slots'.countP Option.isNone := by
    rcases hfree with hnil | hpos
    · have hnil : slots' = [] := hnil
      have := hm.pos
      rw [← hlen, hnil] at this
      simp at this
    · exact hpos
  have hcount : slots'.countP Option.isNone + ((s.listed ks).placed ks).length =
    (s.listed ks).base.countP Option.isNone := hcount
  rw [room_iff]
  omega

/-- No element at all may be added as well. -/
lemma Open.appendAll (h : Open hash s) (hroom : ks ≠ [] → s.Room ks) :
    ∃ s', s.append hash ks = some s' ∧ Open hash s' := by
  by_cases hks : ks = []
  · refine ⟨s, ?_, h⟩
    rw [hks, EvalSet.append, hashInsertAll, List.append_nil]
  · exact h.append hks (hroom hks)

variable [DecidableEq κ]

/-- A lookup ends where a slot is free. -/
lemma Open.seen (h : Open hash s) (k : κ) : ∃ b, s.seen hash k = some b := by
  rw [EvalSet.seen]
  rcases h.slots with hslots | ⟨hm, hfree⟩
  · exact ⟨false, if_pos (by rw [hslots, List.length_nil])⟩
  · have hne : find (s.ends k) s.slots (hash k) ≠ none := by
      obtain ⟨x, hx, hnone⟩ := List.countP_pos_iff.mp hfree
      obtain rfl : x = none := by simpa using hnone
      intro hfind
      exact absurd ((find_eq_none_iff hm).mp hfind none hx) (by simp [ends])
    obtain ⟨j, hj⟩ := Option.ne_none_iff_exists'.mp hne
    rw [if_neg (Nat.ne_of_gt hm.pos), hj]
    exact ⟨_, rfl⟩

lemma Open.add (h : Open hash s) {k : κ} (hroom : s.seen hash k = some false → s.Room [k]) :
    ∃ s', s.add hash k = some s' ∧ Open hash s' := by
  obtain ⟨b, hb⟩ := h.seen k
  rw [EvalSet.add, hb, Option.bind_some]
  cases b with
  | true => exact ⟨s, rfl, h⟩
  | false => exact h.append (List.cons_ne_nil _ _) (hroom hb)

lemma Open.room_of_add (h : Open hash s) {k : κ} (hadd : s.add hash k = some s')
    (hfree : s'.HasFree) (hseen : s.seen hash k = some false) : s.Room [k] := by
  rw [EvalSet.add, hseen, Option.bind_some] at hadd
  exact h.room (List.cons_ne_nil _ _) hadd hfree

end EvalSet

/-! ## Frames -/

/-- Both tables of a frame have a free slot. -/
def EvalFrame.HasFree (f : EvalFrame) : Prop := f.keys.HasFree ∧ f.idx.HasFree

/-- The invariant of both sets. -/
structure EvalFrame.Open (f : EvalFrame) : Prop where
  /-- The keys. -/
  keys : f.keys.Open keyHome
  /-- The indices. -/
  idx : f.idx.Open idxHome

/-- The parent has room for what a merge adds. -/
def EvalFrame.MergeRoom (f p : EvalFrame) : Prop :=
  p.inst = f.inst → (f.keys.items ≠ [] → p.keys.Room f.keys.items) ∧
    (f.idx.items ≠ [] → p.idx.Room f.idx.items)

namespace EvalFrame

variable {f p : EvalFrame}

lemma Open.hasFree (h : f.Open) : f.HasFree := ⟨h.keys.hasFree, h.idx.hasFree⟩

lemma open_new (inst : ℕ) : (new inst).Open := ⟨EvalSet.open_empty, EvalSet.open_empty⟩

lemma Open.truncateTo (h : f.Open) : f.truncateTo.Open := by
  obtain ⟨inst, keys, idx, _ | ⟨t, trials⟩⟩ := f
  · exact h
  · exact ⟨h.keys.truncate t.1, h.idx.truncate t.2⟩

lemma Open.mergeUp (h : p.Open) (hroom : f.MergeRoom p) :
    ∃ p', f.mergeUp p = some p' ∧ p'.Open := by
  rw [EvalFrame.mergeUp]
  by_cases hinst : p.inst = f.inst
  · obtain ⟨keys, hkeys, hopenKeys⟩ := h.keys.appendAll (hroom hinst).1
    obtain ⟨idx, hidx, hopenIdx⟩ := h.idx.appendAll (hroom hinst).2
    rw [if_neg (not_not.mpr hinst), hkeys, Option.bind_some, hidx, Option.map_some]
    exact ⟨_, rfl, hopenKeys, hopenIdx⟩
  · exact ⟨p, if_pos hinst, h⟩

lemma Open.mergeRoom (h : p.Open) {p' : EvalFrame} (hmerge : f.mergeUp p = some p')
    (hfree : p'.HasFree) : f.MergeRoom p := by
  intro hinst
  rw [EvalFrame.mergeUp, if_neg (not_not.mpr hinst)] at hmerge
  obtain ⟨keys, hkeys, hmerge⟩ := Option.bind_eq_some_iff.mp hmerge
  obtain ⟨idx, hidx, rfl⟩ := Option.map_eq_some_iff.mp hmerge
  exact ⟨fun hne => h.keys.room hne hkeys hfree.1, fun hne => h.idx.room hne hidx hfree.2⟩

end EvalFrame

/-! ## Runs -/

/-- There is room for what a step adds to a set; an element that is found is not added. -/
def StepRoom (fs : List EvalFrame) : FrameOp → Prop
  | .pop => ∀ f p rest, fs = f :: p :: rest → f.MergeRoom p
  | .key k => ∀ f ∈ fs.head?, f.keySeen k = some false → f.keys.Room [k]
  | .idx i => ∀ f ∈ fs.head?, f.idxSeen i = some false → f.idx.Room [i]
  | .push _ | .trial | .discard | .keep => True

/-- There is room in every step of a run. -/
def RunRoom : List EvalFrame → List FrameOp → Prop
  | _, [] => True
  | fs, op :: ops => StepRoom fs op ∧ ∀ fs' ∈ frameStep fs op, RunRoom fs' ops

/-- Every state of the run is reached, so that every search in it ends, and has a free slot in every
table with slots. -/
def RunFree (fs : List EvalFrame) (ops : List FrameOp) : Prop :=
  ∀ pre, pre <+: ops → ∃ fs', frameRun fs pre = some fs' ∧ ∀ f ∈ fs', f.HasFree

variable {fs fs' : List EvalFrame} {op : FrameOp}

/-- A step with room ends, and leaves a slot free. -/
lemma frameStep_open (h : ∀ f ∈ fs, f.Open) (hroom : StepRoom fs op) :
    ∃ fs', frameStep fs op = some fs' ∧ ∀ f ∈ fs', f.Open := by
  have hpush : ∀ {g : EvalFrame} {gs : List EvalFrame}, g.Open → (∀ f ∈ gs, f.Open) →
      ∀ f ∈ g :: gs, f.Open := fun hg hgs f hf =>
    (List.mem_cons.mp hf).elim (fun heq => heq ▸ hg) (hgs f)
  cases fs with
  | nil =>
    cases op with
    | push inst => exact ⟨_, rfl, hpush (EvalFrame.open_new inst) h⟩
    | pop | key | idx | trial | discard | keep => exact ⟨[], rfl, h⟩
  | cons f fs =>
    have hf := h f List.mem_cons_self
    have hfs : ∀ g ∈ fs, g.Open := fun g hg => h g (List.mem_cons_of_mem f hg)
    cases op with
    | push inst => exact ⟨_, rfl, hpush (EvalFrame.open_new inst) h⟩
    | pop =>
      cases fs with
      | nil => exact ⟨[], rfl, hfs⟩
      | cons p fs =>
        obtain ⟨p', hmerge, hp'⟩ := (hfs p List.mem_cons_self).mergeUp (hroom f p fs rfl)
        refine ⟨p' :: fs, by rw [frameStep, hmerge, Option.map_some], hpush hp' ?_⟩
        exact fun g hg => hfs g (List.mem_cons_of_mem p hg)
    | key k =>
      obtain ⟨keys, hadd, hkeys⟩ := hf.keys.add (hroom f rfl)
      refine ⟨{ f with keys } :: fs, ?_, hpush ⟨hkeys, hf.idx⟩ hfs⟩
      rw [frameStep, EvalFrame.addKey, hadd, Option.map_some, Option.map_some]
    | idx i =>
      obtain ⟨idx, hadd, hidx⟩ := hf.idx.add (hroom f rfl)
      refine ⟨{ f with idx } :: fs, ?_, hpush ⟨hf.keys, hidx⟩ hfs⟩
      rw [frameStep, EvalFrame.addIdx, hadd, Option.map_some, Option.map_some]
    | trial => exact ⟨_, rfl, hpush ⟨hf.keys, hf.idx⟩ hfs⟩
    | discard => exact ⟨_, rfl, hpush hf.truncateTo hfs⟩
    | keep => exact ⟨_, rfl, hpush ⟨hf.keys, hf.idx⟩ hfs⟩

/-- A step that ends with a free slot had room. -/
lemma frameStep_room (h : ∀ f ∈ fs, f.Open) (hstep : frameStep fs op = some fs')
    (hfree : ∀ f ∈ fs', f.HasFree) : StepRoom fs op := by
  cases op with
  | push | trial | discard | keep => trivial
  | pop =>
    rintro f p rest rfl
    obtain ⟨p', hmerge, rfl⟩ := Option.map_eq_some_iff.mp hstep
    have hp := h p (List.mem_cons_of_mem f List.mem_cons_self)
    exact hp.mergeRoom hmerge (hfree p' List.mem_cons_self)
  | key k =>
    intro f hhead hk
    obtain ⟨rest, rfl⟩ := List.head?_eq_some_iff.mp hhead
    obtain ⟨f', hadd, rfl⟩ := Option.map_eq_some_iff.mp hstep
    obtain ⟨keys, hkeys, rfl⟩ := Option.map_eq_some_iff.mp hadd
    exact (h f List.mem_cons_self).keys.room_of_add hkeys (hfree _ List.mem_cons_self).1 hk
  | idx i =>
    intro f hhead hi
    obtain ⟨rest, rfl⟩ := List.head?_eq_some_iff.mp hhead
    obtain ⟨f', hadd, rfl⟩ := Option.map_eq_some_iff.mp hstep
    obtain ⟨idx, hidx, rfl⟩ := Option.map_eq_some_iff.mp hadd
    exact (h f List.mem_cons_self).idx.room_of_add hidx (hfree _ List.mem_cons_self).2 hi

/-- A value with nine properties, all of them evaluated by one schema under `allOf`. -/
def nineProperties : List FrameOp :=
  [.push 0, .push 0] ++ (List.range 9).map (fun i => .key [UInt8.ofNat (0x61 + i)]) ++ [.pop]

end Teptris
