import Mathlib.Algebra.Order.Group.Nat
import Mathlib.Data.List.Basic
import Teptris.Schema.GraphWalk

/-!
# The stacks of a walk

A push on a full path stack is dropped, the pop behind it is not.  A walk in which no push is
dropped gives back every level as it was, in each of its calls, and reports every error at the
location of its value (`Kept.same`, `Kept.calls`, `Kept.errors`); a walk in which one is dropped
has a call that returns too low (`Kept.dropped`).
-/

namespace Teptris

open Part

/-! ## Checks leave the stacks alone -/

/-- The stacks and the mute counter of one context are those of another. -/
structure Vctx.SameStacks (c c' : Vctx) : Prop where
  /-- The slots of the path. -/
  segs : c'.segs = c.segs
  /-- Its depth. -/
  depth : c'.depth = c.depth
  /-- The slots of the schema path. -/
  ssegs : c'.ssegs = c.ssegs
  /-- Its depth. -/
  sdepth : c'.sdepth = c.sdepth
  /-- The trials in flight. -/
  mute : c'.mute = c.mute

namespace Vctx.SameStacks

lemma refl (c : Vctx) : c.SameStacks c := ⟨rfl, rfl, rfl, rfl, rfl⟩

lemma trans {c c' c'' : Vctx} (h : c.SameStacks c') (h' : c'.SameStacks c'') :
    c.SameStacks c'' :=
  ⟨h'.segs.trans h.segs, h'.depth.trans h.depth, h'.ssegs.trans h.ssegs,
    h'.sdepth.trans h.sdepth, h'.mute.trans h.mute⟩

lemma verr (c : Vctx) (msg : Bytes) : c.SameStacks (c.verr msg) := by
  simp only [Vctx.verr]
  split_ifs <;> exact ⟨rfl, rfl, rfl, rfl, rfl⟩

lemma check (c : Vctx) (ok : Bool) (msg : Bytes) : c.SameStacks (c.check ok msg) := by
  cases ok with
  | true => exact refl c
  | false => exact verr c msg

lemma foldl {α : Type} {f : Vctx → α → Vctx} (h : ∀ (c : Vctx) x, c.SameStacks (f c x))
    (xs : List α)
    (c : Vctx) : c.SameStacks (xs.foldl f c) := by
  induction xs generalizing c with
  | nil => exact refl c
  | cons x xs ih => exact (h c x).trans (ih (f c x))

section Checks

variable {R : Type} (lf : Leaves R) (a : Assertions R)

lemma checkValue (v : SValue) (c : Vctx) : c.SameStacks (checkValue lf a v c) :=
  (((check _ _ _).trans (check _ _ _)).trans (check _ _ _)).trans (check _ _ _)

lemma checkNumeric (v : SValue) (c : Vctx) : c.SameStacks (checkNumeric lf a v c) :=
  ((((check _ _ _).trans (check _ _ _)).trans (check _ _ _)).trans (check _ _ _)).trans
    (check _ _ _)

lemma checkString (v : SValue) (c : Vctx) : c.SameStacks (checkString lf a v c) := by
  rw [Teptris.checkString]
  split
  · exact refl c
  · exact ((check _ _ _).trans (check _ _ _)).trans (check _ _ _)

lemma checkProps (ms : List (Bytes × SValue)) (c : Vctx) : c.SameStacks (checkProps a ms c) :=
  ((check _ _ _).trans (check _ _ _)).trans (foldl (fun c _ => check c _ _) _ _)

lemma checkDepReq (ms : List (Bytes × SValue)) (c : Vctx) : c.SameStacks (checkDepReq a ms c) := by
  refine foldl (fun c d => ?_) _ _
  by_cases hd : hasKey ms d.1 = true
  · rw [if_pos hd]
    exact foldl (fun c _ => check c _ _) _ _
  · rw [if_neg hd]
    exact refl c

lemma checkItems (vs : List SValue) (c : Vctx) : c.SameStacks (checkItems lf a vs c) := by
  have h := (check c (atLeast a.minItems vs.length) (ascii "fewer items than minItems")).trans
    (check _ (atMost a.maxItems vs.length) (ascii "more items than maxItems"))
  simp only [Teptris.checkItems]
  split_ifs
  · split
    · exact h.trans (verr _ _)
    · exact h
  · exact h

end Checks

end Vctx.SameStacks

/-! ## What a part keeps -/

section Parts

variable {N F : Type}

/-- The stacks are within their slots. -/
structure WalkState.Fits (s : WalkState N F) : Prop where
  /-- The slots of the path. -/
  segs : s.vc.segs.length = 128
  /-- The depth is within them. -/
  depth : s.vc.depth ≤ 128
  /-- The slots of the schema path. -/
  ssegs : s.vc.ssegs.length = 64
  /-- The depth is within them. -/
  sdepth : s.vc.sdepth ≤ 64

/-- A call of the log does not give back what it found. -/
def WalkLog.Unbalanced (l : WalkLog) : Prop := ∃ c ∈ l.calls, c.1 ≠ c.2

/-- What a part of the walk at a value does to the state, over the scopes `base`. -/
structure Kept (base : List (DynScope N)) (i : Inst) (s s' : WalkState N F) (l : WalkLog) :
    Prop where
  /-- The stacks stay within their slots. -/
  fits : s'.Fits
  /-- Trials are balanced. -/
  mute : s'.vc.mute = s.vc.mute
  /-- Hops are balanced. -/
  refDepth : s'.refDepth = s.refDepth
  /-- Frames are balanced. -/
  frames : s'.frames.length = s.frames.length
  /-- The scopes below stay. -/
  scopes : base <+: s.scopes → base <+: s'.scopes
  /-- The path does not grow. -/
  depth_le : s'.vc.depth ≤ s.vc.depth
  /-- The schema path does not grow. -/
  sdepth_le : s'.vc.sdepth ≤ s.vc.sdepth
  /-- If no push was dropped the paths are the same. -/
  same : l.lost = false → s'.vc.path = s.vc.path ∧ s'.vc.schemaPath = s.vc.schemaPath
  /-- If no push was dropped every call is balanced. -/
  calls : l.lost = false → ∀ c ∈ l.calls, c.1 = c.2
  /-- If no push was dropped every error is reported where its value is. -/
  errors : l.lost = false → 0 < s.vc.mute ∨ s.vc.path = i.loc → ∀ e ∈ l.errors, e.1 = e.2
  /-- If a push was dropped some call is not balanced, or this part ends too low. -/
  dropped : l.lost = true →
    l.Unbalanced ∨ s'.vc.depth < s.vc.depth ∨ s'.vc.sdepth < s.vc.sdepth

/-- A part that drops a push has a call that is not balanced. -/
structure Called (base : List (DynScope N)) (i : Inst) (s s' : WalkState N F) (l : WalkLog) : Prop
    extends Kept base i s s' l where
  /-- The call is in the log. -/
  unbalanced : l.lost = true → l.Unbalanced

/-- A part keeps the levels from any state. -/
def KeepsLevels (base : List (DynScope N)) (i : Inst) (p : Part N F) : Prop :=
  ∀ s s' l, s.Fits → p s = some (s', l) → Kept base i s s' l

/-- So does a part that is made of calls. -/
def Calls (base : List (DynScope N)) (i : Inst) (p : Part N F) : Prop :=
  ∀ s s' l, s.Fits → p s = some (s', l) → Called base i s s' l

lemma Calls.keeps {base : List (DynScope N)} {i : Inst} {p : Part N F} (h : Calls base i p) :
    KeepsLevels base i p := fun s s' l hs hp => (h s s' l hs hp).toKept

variable {base : List (DynScope N)} {i : Inst} {s s' s'' : WalkState N F} {l l' : WalkLog}

lemma unbalanced_append_left (h : l.Unbalanced) : (l.append l').Unbalanced := by
  obtain ⟨c, hc, hne⟩ := h
  exact ⟨c, List.mem_append_left _ hc, hne⟩

lemma unbalanced_append_right (h : l'.Unbalanced) : (l.append l').Unbalanced := by
  obtain ⟨c, hc, hne⟩ := h
  exact ⟨c, List.mem_append_right _ hc, hne⟩

lemma lost_append : (l.append l').lost = true ↔ l.lost = true ∨ l'.lost = true := by
  simp [WalkLog.append]

lemma not_lost_append (h : (l.append l').lost = false) : l.lost = false ∧ l'.lost = false := by
  simpa [WalkLog.append] using h

/-- One part behind the other. -/
lemma Kept.trans (h : Kept base i s s' l) (h' : Kept base i s' s'' l') :
    Kept base i s s'' (l.append l') where
  fits := h'.fits
  mute := h'.mute.trans h.mute
  refDepth := h'.refDepth.trans h.refDepth
  frames := h'.frames.trans h.frames
  scopes hb := h'.scopes (h.scopes hb)
  depth_le := Nat.le_trans h'.depth_le h.depth_le
  sdepth_le := Nat.le_trans h'.sdepth_le h.sdepth_le
  same hl := by
    obtain ⟨h1, h2⟩ := not_lost_append hl
    exact ⟨(h'.same h2).1.trans (h.same h1).1, (h'.same h2).2.trans (h.same h1).2⟩
  calls hl c hc := by
    obtain ⟨h1, h2⟩ := not_lost_append hl
    rcases List.mem_append.mp hc with hc | hc
    · exact h.calls h1 c hc
    · exact h'.calls h2 c hc
  errors hl hi e he := by
    obtain ⟨h1, h2⟩ := not_lost_append hl
    rcases List.mem_append.mp he with he | he
    · exact h.errors h1 hi e he
    · refine h'.errors h2 ?_ e he
      rw [h.mute, (h.same h1).1]
      exact hi
  dropped hl := by
    have hd := h.depth_le
    have hs := h.sdepth_le
    have hd' := h'.depth_le
    have hs' := h'.sdepth_le
    rcases lost_append.mp hl with hl | hl
    · rcases h.dropped hl with hu | hlt | hlt
      · exact .inl (unbalanced_append_left hu)
      · exact .inr (.inl (by omega))
      · exact .inr (.inr (by omega))
    · rcases h'.dropped hl with hu | hlt | hlt
      · exact .inl (unbalanced_append_right hu)
      · exact .inr (.inl (by omega))
      · exact .inr (.inr (by omega))

lemma Called.trans (h : Called base i s s' l) (h' : Called base i s' s'' l') :
    Called base i s s'' (l.append l') where
  toKept := h.toKept.trans h'.toKept
  unbalanced hl := by
    rcases lost_append.mp hl with hl | hl
    · exact unbalanced_append_left (h.unbalanced hl)
    · exact unbalanced_append_right (h'.unbalanced hl)

/-- A part that changes neither the stacks nor the counters, and logs nothing but errors. -/
lemma Called.still (hs : s.Fits) (hvc : s.vc.SameStacks s'.vc) (href : s'.refDepth = s.refDepth)
    (hframes : s'.frames.length = s.frames.length)
    (hscopes : base <+: s.scopes → base <+: s'.scopes)
    {es : List (List Bytes × List Bytes)}
    (hes : 0 < s.vc.mute ∨ s.vc.path = i.loc → ∀ e ∈ es, e.1 = e.2) :
    Called base i s s' { errors := es } where
  fits := ⟨by rw [hvc.segs, hs.segs], by rw [hvc.depth]; exact hs.depth,
    by rw [hvc.ssegs, hs.ssegs], by rw [hvc.sdepth]; exact hs.sdepth⟩
  mute := hvc.mute
  refDepth := href
  frames := hframes
  scopes := hscopes
  depth_le := Nat.le_of_eq hvc.depth
  sdepth_le := Nat.le_of_eq hvc.sdepth
  same _ := ⟨by rw [Vctx.path, Vctx.path, hvc.segs, hvc.depth],
    by rw [Vctx.schemaPath, Vctx.schemaPath, hvc.ssegs, hvc.sdepth]⟩
  calls _ c hc := by cases hc
  errors _ := hes
  dropped hl := by cases hl
  unbalanced hl := by cases hl

/-- Errors are told apart by the location alone. -/
lemma Calls.aside {p : Part N F} (hp : Calls base i.next p) : Calls base i p := by
  intro s s' l hs h
  have hk := hp s s' l hs h
  exact { hk with errors := hk.errors }

/-! ## Parts made of parts -/

variable {p q : Part N F}

lemma calls_skip (base : List (DynScope N)) (i : Inst) : Calls base i (skip : Part N F) := by
  intro s s' l hs hp
  obtain ⟨rfl, rfl⟩ := Prod.mk.inj (Option.some_inj.mp hp)
  exact Called.still hs (.refl _) rfl rfl id fun _ _ he => nomatch he

lemma andThen_eq_some {r : WalkState N F × WalkLog} (h : p.andThen q s = some r) :
    ∃ s1 l1 l2, p s = some (s1, l1) ∧ q s1 = some (r.1, l2) ∧ r.2 = l1.append l2 := by
  obtain ⟨⟨s1, l1⟩, hp, h⟩ := Option.bind_eq_some_iff.mp h
  obtain ⟨⟨s2, l2⟩, hq, rfl⟩ := Option.map_eq_some_iff.mp h
  exact ⟨s1, l1, l2, hp, hq, rfl⟩

lemma each_cons_eq_some {ps : List (Part N F)} {r : WalkState N F × WalkLog}
    (h : each id (p :: ps) s = some r) :
    ∃ s1 l1 l2, p s = some (s1, l1) ∧ each id ps s1 = some (r.1, l2) ∧ r.2 = l1.append l2 :=
  andThen_eq_some h

lemma KeepsLevels.andThen (hp : KeepsLevels base i p) (hq : KeepsLevels base i q) :
    KeepsLevels base i (p.andThen q) := by
  intro s s' l hs h
  obtain ⟨s1, l1, l2, h1, h2, rfl⟩ := andThen_eq_some h
  have hk := hp s s1 l1 hs h1
  exact hk.trans (hq s1 s' l2 hk.fits h2)

lemma Calls.andThen (hp : Calls base i p) (hq : Calls base i q) : Calls base i (p.andThen q) := by
  intro s s' l hs h
  obtain ⟨s1, l1, l2, h1, h2, rfl⟩ := andThen_eq_some h
  have hk := hp s s1 l1 hs h1
  exact hk.trans (hq s1 s' l2 hk.fits h2)

lemma keeps_each {α : Type} {f : α → Part N F} {xs : List α}
    (h : ∀ x ∈ xs, KeepsLevels base i (f x)) :
    KeepsLevels base i (each f xs) := by
  induction xs with
  | nil => exact (calls_skip base i).keeps
  | cons x xs ih =>
    exact (h x List.mem_cons_self).andThen (ih fun y hy => h y (List.mem_cons_of_mem x hy))

lemma keeps_opt {α : Type} {o : Option α} {f : α → Part N F} (h : ∀ x, KeepsLevels base i (f x)) :
    KeepsLevels base i (opt o f) := by
  cases o with
  | none => exact (calls_skip base i).keeps
  | some x => exact h x

lemma keeps_ite {c : Prop} [Decidable c] (hp : KeepsLevels base i p) (hq : KeepsLevels base i q) :
    KeepsLevels base i (if c then p else q) := by
  by_cases hc : c
  · rwa [if_pos hc]
  · rwa [if_neg hc]

/-- The top frame is changed. -/
lemma calls_note (base : List (DynScope N)) (i : Inst) (note : F → F) :
    Calls base i (change fun s => { s with frames := s.frames.modifyHead note }) := by
  intro s s' l hs hp
  obtain ⟨rfl, rfl⟩ := Prod.mk.inj (Option.some_inj.mp hp)
  refine Called.still hs ?_ ?_ ?_ ?_ ?_
  · exact .refl _
  · rfl
  · simp
  · exact id
  · intro _ e he
    cases he

lemma calls_checks (base : List (DynScope N)) (i : Inst) {f : Vctx → Vctx}
    (hf : ∀ c : Vctx, c.SameStacks (f c)) : Calls base i (checks i f : Part N F) := by
  intro s s' l hs hp
  obtain ⟨rfl, rfl⟩ := Prod.mk.inj (Option.some_inj.mp hp)
  refine Called.still hs ?_ ?_ ?_ ?_ ?_
  · exact hf _
  · rfl
  · rfl
  · exact id
  · intro hi e he
    split_ifs at he with hmute
    · obtain rfl := List.mem_singleton.mp he
      exact (hi.resolve_left (by omega)).symm
    · cases he

lemma calls_report (base : List (DynScope N)) (i : Inst) (msg : Bytes) :
    Calls base i (report i msg : Part N F) := calls_checks base i fun c => .verr c msg

lemma calls_require (base : List (DynScope N)) (i : Inst) (ok : Bool) (msg : Bytes) :
    Calls base i (Part.require i ok msg : Part N F) := calls_checks base i fun c => .check c ok msg

lemma Calls.quietly (hp : Calls base i p) (note : F → F) : Calls base i (p.quietly note) := by
  intro s s' l hs h
  obtain ⟨⟨s1, l1⟩, h1, h2⟩ := Option.map_eq_some_iff.mp h
  have hk := hp s s1 l1 hs h1
  by_cases hq : s1.vc.pings = s.vc.pings
  · simp only [if_pos hq, Prod.mk.injEq] at h2
    obtain ⟨rfl, rfl⟩ := h2
    exact { hk with fits := ⟨hk.fits.segs, hk.fits.depth, hk.fits.ssegs, hk.fits.sdepth⟩
                    frames := by simpa using hk.frames }
  · simp only [if_neg hq, Prod.mk.injEq] at h2
    obtain ⟨rfl, rfl⟩ := h2
    exact hk

/-! ## Pushes and pops -/

/-- A stack with one more segment. -/
lemma take_push {xs : List Bytes} {n : ℕ} (hn : n < xs.length) (x : Bytes) :
    (xs.set n x).take (n + 1) = xs.take n ++ [x] := by
  rw [List.take_add_one, List.getElem?_set_self hn, List.take_set_of_le (Nat.le_refl n)]
  rfl

/-- A stack without its last segment. -/
lemma take_pop {xs ys : List Bytes} {n m : ℕ} {x : Bytes} (h : xs.take n = ys.take m ++ [x])
    (hn : n ≤ xs.length) (hm : m ≤ ys.length) : n = m + 1 ∧ xs.take (n - 1) = ys.take m := by
  have hlen : n = m + 1 := by
    have := congrArg List.length h
    rw [List.length_append, List.length_take_of_le hn, List.length_take_of_le hm] at this
    exact this
  refine ⟨hlen, ?_⟩
  have hcut : (xs.take n).take m = xs.take m := by
    rw [List.take_take, Nat.min_eq_left (by omega)]
  rw [hlen, Nat.add_sub_cancel, ← hcut, h, List.take_append_of_le_length, List.take_take,
    Nat.min_self]
  rw [List.length_take_of_le hm]

/-- A part that drops a push has a call that is not balanced, or ends with too low a path. -/
def Deep (base : List (DynScope N)) (i : Inst) (p : Part N F) : Prop :=
  ∀ s s' l, s.Fits → p s = some (s', l) →
    Kept base i s s' l ∧ (l.lost = true → l.Unbalanced ∨ s'.vc.depth < s.vc.depth)

lemma Calls.deep (hp : Calls base i p) : Deep base i p := fun s s' l hs h =>
  ⟨(hp s s' l hs h).toKept, fun hl => .inl ((hp s s' l hs h).unbalanced hl)⟩

/-- What `path_push` does below its capacity. -/
lemma pushSeg_room {c : Vctx} (h : ¬ 128 ≤ c.depth) (seg : Seg) :
    c.pushSeg seg = { c with segs := c.segs.set c.depth seg.text, depth := c.depth + 1 } := by
  cases seg with
  | key k => simp only [Vctx.pushSeg, Vctx.pathPush, if_neg h, Seg.text]
  | idx i => simp only [Vctx.pushSeg, Vctx.pathPushIdx, if_neg h, Seg.text]

lemma pushSeg_full {c : Vctx} (h : 128 ≤ c.depth) (seg : Seg) : c.pushSeg seg = c := by
  cases seg with
  | key k => simp only [Vctx.pushSeg, Vctx.pathPush, if_pos h]
  | idx i => simp only [Vctx.pushSeg, Vctx.pathPushIdx, if_pos h]

/-- What `spush` does below its capacity. -/
lemma spush_room {c : Vctx} (h : ¬ 64 ≤ c.sdepth) (seg : Bytes) :
    c.spush seg =
      { c with ssegs := c.ssegs.set c.sdepth (seg.take 63), sdepth := c.sdepth + 1 } := if_neg h

lemma pushSeg_path (hs : s.Fits) (h : ¬ 128 ≤ s.vc.depth) (seg : Seg) :
    (s.vc.pushSeg seg).path = s.vc.path ++ [seg.text] := by
  rw [pushSeg_room h]
  exact take_push (by rw [hs.segs]; omega) _

lemma spush_path (hs : s.Fits) (h : ¬ 64 ≤ s.vc.sdepth) (seg : Bytes) :
    (s.vc.spush seg).schemaPath = s.vc.schemaPath ++ [seg.take 63] := by
  rw [spush_room h]
  exact take_push (by rw [hs.ssegs]; omega) _

/-- The state behind a push fits. -/
lemma WalkState.Fits.pushSeg (hs : s.Fits) (h : ¬ 128 ≤ s.vc.depth) (seg : Seg) :
    WalkState.Fits { s with vc := s.vc.pushSeg seg } := by
  rw [pushSeg_room h]
  exact ⟨by simpa using hs.segs, Nat.lt_of_not_le h, hs.ssegs, hs.sdepth⟩

lemma WalkState.Fits.spush (hs : s.Fits) (h : ¬ 64 ≤ s.vc.sdepth) (seg : Bytes) :
    WalkState.Fits { s with vc := s.vc.spush seg } := by
  rw [spush_room h]
  exact ⟨hs.segs, hs.depth, by simpa using hs.ssegs, Nat.lt_of_not_le h⟩

/-- The state behind a pop fits. -/
lemma WalkState.Fits.pathPop (hs : s.Fits) : WalkState.Fits { s with vc := s.vc.pathPop } :=
  ⟨hs.segs, Nat.le_trans (Nat.sub_le _ _) hs.depth, hs.ssegs, hs.sdepth⟩

lemma WalkState.Fits.spop (hs : s.Fits) : WalkState.Fits { s with vc := s.vc.spop } :=
  ⟨hs.segs, hs.depth, hs.ssegs, Nat.le_trans (Nat.sub_le _ _) hs.sdepth⟩

/-- The log of a push, a part and a pop. -/
lemma log_pushed (b : Bool) (l : WalkLog) :
    ((({ lost := b } : WalkLog).append l).append {}) = { l with lost := b || l.lost } := by
  simp [WalkLog.append]

/-- A part at a value below, with its segment on the path. -/
lemma Calls.lower {seg : Seg} (hp : Calls base (i.down seg) p) :
    Deep base i (((pathPush seg).andThen p).andThen pathPop) := by
  intro s s' l hs h
  obtain ⟨s2, l2, l3, h2, h3, rfl⟩ := andThen_eq_some h
  obtain ⟨s1, l0, l1, h0, h1, rfl⟩ := andThen_eq_some h2
  obtain ⟨rfl, rfl⟩ := Prod.mk.inj (Option.some_inj.mp h0)
  obtain ⟨rfl, rfl⟩ := Prod.mk.inj (Option.some_inj.mp h3)
  change p _ = some (s2, l1) at h1
  rw [log_pushed]
  by_cases hfull : 128 ≤ s.vc.depth
  · rw [pushSeg_full hfull] at h1
    have hk := hp s s2 l1 hs h1
    have hle : s2.vc.depth ≤ s.vc.depth := hk.depth_le
    have hdrop : s2.vc.depth - 1 < s.vc.depth := by omega
    refine ⟨?_, fun _ => .inr hdrop⟩
    exact
      { fits := hk.fits.pathPop
        mute := hk.mute
        refDepth := hk.refDepth
        frames := hk.frames
        scopes := hk.scopes
        depth_le := Nat.le_of_lt hdrop
        sdepth_le := hk.sdepth_le
        same := fun hl => by simp [hfull] at hl
        calls := fun hl => by simp [hfull] at hl
        errors := fun hl => by simp [hfull] at hl
        dropped := fun _ => .inr (.inl hdrop) }
  · have hk := hp _ s2 l1 (hs.pushSeg hfull seg) h1
    have hroom := pushSeg_room hfull seg
    have hmute : (s.vc.pushSeg seg).mute = s.vc.mute := by rw [hroom]
    have hle : s2.vc.depth ≤ s.vc.depth + 1 := by
      have := hk.depth_le
      rwa [hroom] at this
    have hsle : s2.vc.sdepth ≤ s.vc.sdepth := by
      have := hk.sdepth_le
      rwa [hroom] at this
    have hlost : ∀ {b : Bool}, (decide (128 ≤ s.vc.depth) || l1.lost) = b → l1.lost = b := by
      simp [hfull]
    refine ⟨?_, fun hl => .inl (hk.unbalanced (hlost hl))⟩
    exact
      { fits := hk.fits.pathPop
        mute := hk.mute.trans hmute
        refDepth := hk.refDepth
        frames := hk.frames
        scopes := hk.scopes
        depth_le := Nat.sub_le_of_le_add hle
        sdepth_le := hsle
        same := fun hl => by
          obtain ⟨hpath, hschema⟩ := hk.same (hlost hl)
          have hback : s2.vc.path = s.vc.path ++ [seg.text] :=
            hpath.trans (pushSeg_path hs hfull seg)
          refine ⟨(take_pop hback ?_ ?_).2, ?_⟩
          · rw [hk.fits.segs]
            exact hk.fits.depth
          · rw [hs.segs]
            exact hs.depth
          · exact hschema.trans (by rw [hroom]; rfl)
        calls := fun hl => hk.calls (hlost hl)
        errors := fun hl hi => by
          refine hk.errors (hlost hl) (hi.imp (fun hm => hmute.symm ▸ hm) fun hloc => ?_)
          rw [Inst.down, ← hloc]
          exact pushSeg_path hs hfull seg
        dropped := fun hl => .inl (hk.unbalanced (hlost hl)) }

/-- A part under a segment of the schema path. -/
lemma Deep.sunder (hp : Deep base i p) (sseg : Bytes) : KeepsLevels base i (sunder sseg p) := by
  intro s s' l hs h
  obtain ⟨s2, l2, l3, h2, h3, rfl⟩ := andThen_eq_some h
  obtain ⟨s1, l0, l1, h0, h1, rfl⟩ := andThen_eq_some h2
  obtain ⟨rfl, rfl⟩ := Prod.mk.inj (Option.some_inj.mp h0)
  obtain ⟨rfl, rfl⟩ := Prod.mk.inj (Option.some_inj.mp h3)
  change p _ = some (s2, l1) at h1
  rw [log_pushed]
  by_cases hfull : 64 ≤ s.vc.sdepth
  · have hs1 : s.vc.spush sseg = s.vc := if_pos hfull
    rw [hs1] at h1
    obtain ⟨hk, -⟩ := hp s s2 l1 hs h1
    have hle : s2.vc.sdepth ≤ s.vc.sdepth := hk.sdepth_le
    have hdrop : s2.vc.sdepth - 1 < s.vc.sdepth := by omega
    exact
      { fits := hk.fits.spop
        mute := hk.mute
        refDepth := hk.refDepth
        frames := hk.frames
        scopes := hk.scopes
        depth_le := hk.depth_le
        sdepth_le := Nat.le_of_lt hdrop
        same := fun hl => by simp [hfull] at hl
        calls := fun hl => by simp [hfull] at hl
        errors := fun hl => by simp [hfull] at hl
        dropped := fun _ => .inr (.inr hdrop) }
  · obtain ⟨hk, hdeep⟩ := hp _ s2 l1 (hs.spush hfull sseg) h1
    have hroom := spush_room hfull sseg
    have hmute : (s.vc.spush sseg).mute = s.vc.mute := by rw [hroom]
    have hpath : (s.vc.spush sseg).path = s.vc.path := by rw [hroom]; rfl
    have hle : s2.vc.depth ≤ s.vc.depth := by
      have := hk.depth_le
      rwa [hroom] at this
    have hsle : s2.vc.sdepth ≤ s.vc.sdepth + 1 := by
      have := hk.sdepth_le
      rwa [hroom] at this
    have hlost : ∀ {b : Bool}, (decide (64 ≤ s.vc.sdepth) || l1.lost) = b → l1.lost = b := by
      simp [hfull]
    exact
      { fits := hk.fits.spop
        mute := hk.mute.trans hmute
        refDepth := hk.refDepth
        frames := hk.frames
        scopes := hk.scopes
        depth_le := hle
        sdepth_le := Nat.sub_le_of_le_add hsle
        same := fun hl => by
          have hback : s2.vc.schemaPath = s.vc.schemaPath ++ [sseg.take 63] :=
            (hk.same (hlost hl)).2.trans (spush_path hs hfull sseg)
          refine ⟨(hk.same (hlost hl)).1.trans hpath, (take_pop hback ?_ ?_).2⟩
          · rw [hk.fits.ssegs]
            exact hk.fits.sdepth
          · rw [hs.ssegs]
            exact hs.sdepth
        calls := fun hl => hk.calls (hlost hl)
        errors := fun hl hi =>
          hk.errors (hlost hl) (hi.imp (fun hm => hmute.symm ▸ hm) hpath.trans)
        dropped := fun hl => by
          refine (hdeep (hlost hl)).imp_right fun hlt => .inl ?_
          rwa [hroom] at hlt }

lemma keeps_under {seg : Seg} {f : Inst → Part N F} (hf : Calls base (i.down seg) (f (i.down seg)))
    (sseg : Bytes) : KeepsLevels base i (under i sseg seg f) := hf.lower.sunder sseg

lemma keeps_sunder (hp : Calls base i p) (sseg : Bytes) : KeepsLevels base i (sunder sseg p) :=
  hp.deep.sunder sseg

/-! ## Trials -/

/-- The state behind a trial is the one in front of it, but for what was dropped. -/
lemma Called.trialEnd {j : Inst} (hs : s.Fits)
    (hk : Called base j { s with vc := { s.vc with mute := s.vc.mute + 1 } } s' l)
    (ops : FrameImpl F) (keep : Bool) : Called base i s (trialEnd ops keep s s') l := by
  have hmute : s'.vc.mute - 1 = s.vc.mute := by
    rw [hk.mute]
    rfl
  have hpath : l.lost = false → s'.vc.path = s.vc.path := fun hl => (hk.same hl).1
  have hschema : l.lost = false → s'.vc.schemaPath = s.vc.schemaPath := fun hl => (hk.same hl).2
  have herrors : l.lost = false → ∀ e ∈ l.errors, e.1 = e.2 := fun hl =>
    hk.errors hl (.inl (Nat.succ_pos _))
  cases keep with
  | true =>
    exact
      { fits := ⟨hk.fits.segs, hk.fits.depth, hk.fits.ssegs, hk.fits.sdepth⟩
        mute := hmute
        refDepth := hk.refDepth
        frames := hk.frames
        scopes := hk.scopes
        depth_le := hk.depth_le
        sdepth_le := hk.sdepth_le
        same := fun hl => ⟨hpath hl, hschema hl⟩
        calls := hk.calls
        errors := fun hl _ => herrors hl
        dropped := fun hl => .inl (hk.unbalanced hl)
        unbalanced := hk.unbalanced }
  | false =>
    have hsdepth : l.lost = false → s'.vc.sdepth = s.vc.sdepth := by
      intro hl
      have := congrArg List.length (hschema hl)
      rwa [Vctx.schemaPath, Vctx.schemaPath, List.length_take_of_le, List.length_take_of_le] at this
      · rw [hs.ssegs]
        exact hs.sdepth
      · rw [hk.fits.ssegs]
        exact hk.fits.sdepth
    exact
      { fits := ⟨hk.fits.segs, hk.fits.depth, hk.fits.ssegs, hs.sdepth⟩
        mute := hmute
        refDepth := hk.refDepth
        frames := by simpa [Part.trialEnd] using hk.frames
        scopes := hk.scopes
        depth_le := hk.depth_le
        sdepth_le := Nat.le_refl _
        same := fun hl =>
          ⟨hpath hl, (congrArg s'.vc.ssegs.take (hsdepth hl)).symm.trans (hschema hl)⟩
        calls := hk.calls
        errors := fun hl _ => herrors hl
        dropped := fun hl => .inl (hk.unbalanced hl)
        unbalanced := hk.unbalanced }

lemma trial_eq_some {ops : FrameImpl F} {free : Bool} {next : Bool → Part N F}
    {r : WalkState N F × WalkLog} (h : trial ops free p next s = some r) :
    ∃ s1 l1 l2, p { s with vc := { s.vc with mute := s.vc.mute + 1 } } = some (s1, l1) ∧
      next (s1.vc.pings = s.vc.pings)
        (trialEnd ops (decide (s1.vc.pings = s.vc.pings) && !free) s s1) = some (r.1, l2) ∧
      r.2 = l1.append l2 := by
  obtain ⟨⟨s1, l1⟩, h1, h2⟩ := Option.bind_eq_some_iff.mp h
  obtain ⟨⟨s2, l2⟩, h3, rfl⟩ := Option.map_eq_some_iff.mp h2
  exact ⟨s1, l1, l2, h1, h3, rfl⟩

/-- The state of a trial fits. -/
lemma WalkState.Fits.muted (hs : s.Fits) :
    WalkState.Fits { s with vc := { s.vc with mute := s.vc.mute + 1 } } :=
  ⟨hs.segs, hs.depth, hs.ssegs, hs.sdepth⟩

lemma keeps_trial {j : Inst} (hp : Calls base j p) {next : Bool → Part N F}
    (hn : ∀ ok, KeepsLevels base i (next ok)) (ops : FrameImpl F) (free : Bool) :
    KeepsLevels base i (trial ops free p next) := by
  intro s s' l hs h
  obtain ⟨s1, l1, l2, h1, h2, rfl⟩ := trial_eq_some h
  have hk := hp _ s1 l1 hs.muted h1
  have hend := (hk.trialEnd (i := i) hs ops (decide (s1.vc.pings = s.vc.pings) && !free)).toKept
  exact hend.trans (hn _ _ s' l2 hend.fits h2)

lemma calls_trial {j : Inst} (hp : Calls base j p) {next : Bool → Part N F}
    (hn : ∀ ok, Calls base i (next ok)) (ops : FrameImpl F) (free : Bool) :
    Calls base i (trial ops free p next) := by
  intro s s' l hs h
  obtain ⟨s1, l1, l2, h1, h2, rfl⟩ := trial_eq_some h
  have hk := hp _ s1 l1 hs.muted h1
  have hend := hk.trialEnd (i := i) hs ops (decide (s1.vc.pings = s.vc.pings) && !free)
  exact hend.trans (hn _ _ s' l2 hend.fits h2)

lemma keeps_tryEach {α : Type} {f : α → Part N F} {j : α → Inst} (hf : ∀ x, Calls base (j x) (f x))
    {next : ℕ → Part N F} (hn : ∀ hits, KeepsLevels base i (next hits)) (ops : FrameImpl F)
    (xs : List α) (hits : ℕ) : KeepsLevels base i (tryEach ops f next xs hits) := by
  induction xs generalizing hits with
  | nil => exact hn hits
  | cons x xs ih => exact keeps_trial (hf x) (fun ok => ih _) ops false

lemma keeps_nil (base : List (DynScope N)) (i : Inst) :
    KeepsLevels base i (each id ([] : List (Part N F))) := (calls_skip base i).keeps

lemma keeps_cons {ps : List (Part N F)} (hp : KeepsLevels base i p)
    (hps : KeepsLevels base i (each id ps)) : KeepsLevels base i (each id (p :: ps)) :=
  hp.andThen hps

end Parts

/-! ## The keywords -/

section Keywords

variable {R N F : Type} {env : WalkEnv R N F} {rec : N → Inst → SValue → Part N F}
  {base : List (DynScope N)} {i : Inst}

lemma calls_trimScopes (i : Inst) : Calls base i (trimScopes base.length : Part N F) := by
  intro s s' l hs hp
  obtain ⟨rfl, rfl⟩ := Prod.mk.inj (Option.some_inj.mp hp)
  refine Called.still hs ?_ ?_ ?_ ?_ ?_
  · exact .refl _
  · rfl
  · rfl
  · intro hb
    have htake : base = s.scopes.take base.length := List.prefix_iff_eq_take.mp hb
    exact ⟨[], (List.append_nil base).trans htake⟩
  · intro _ e he
    cases he

lemma log_changed (l : WalkLog) : ((({} : WalkLog).append l).append {}) = l := by
  simp [WalkLog.append]

variable (hrec : ∀ n j w, Calls base j (rec n j w))

include hrec

lemma keeps_hop (sseg msg : String) (t : N) (v : SValue) :
    KeepsLevels base i (hop rec base.length sseg msg t i v) := by
  intro s s' l hs h
  simp only [hop] at h
  split_ifs at h with hmax
  · exact (calls_report base i _ s s' l hs h).toKept
  · obtain ⟨s2, l2, l3, h2, h3, rfl⟩ := andThen_eq_some h
    obtain ⟨s1, l0, l1, h0, h1, rfl⟩ := andThen_eq_some h2
    obtain ⟨rfl, rfl⟩ := Prod.mk.inj (Option.some_inj.mp h0)
    obtain ⟨rfl, rfl⟩ := Prod.mk.inj (Option.some_inj.mp h3)
    have hfits : WalkState.Fits { s with refDepth := s.refDepth + 1 } :=
      ⟨hs.segs, hs.depth, hs.ssegs, hs.sdepth⟩
    have hk :=
      keeps_sunder ((hrec t i v).andThen (calls_trimScopes i)) (ascii sseg) _ s2 l1 hfits h1
    rw [log_changed]
    exact
      { fits := ⟨hk.fits.segs, hk.fits.depth, hk.fits.ssegs, hk.fits.sdepth⟩
        mute := hk.mute
        refDepth := by
          show s2.refDepth - 1 = s.refDepth
          rw [hk.refDepth]
          rfl
        frames := hk.frames
        scopes := hk.scopes
        depth_le := hk.depth_le
        sdepth_le := hk.sdepth_le
        same := hk.same
        calls := hk.calls
        errors := hk.errors
        dropped := hk.dropped }

lemma keeps_dynamicPart (n : GraphNode R N) (v : SValue) :
    KeepsLevels base i (dynamicPart env rec n base.length i v) := by
  intro s s' l hs h
  simp only [dynamicPart] at h
  split at h
  · exact (calls_skip base i s s' l hs h).toKept
  · exact keeps_opt (fun t => keeps_hop hrec _ _ t v) s s' l hs h

lemma keeps_refPart (n : GraphNode R N) (v : SValue) :
    KeepsLevels base i (refPart rec n base.length i v) := keeps_opt fun t => keeps_hop hrec _ _ t v

lemma keeps_contentPart (n : GraphNode R N) (text : Bytes) :
    KeepsLevels base i (contentPart env rec n i text) := by
  have hschema : ∀ w : SValue, KeepsLevels base i (opt n.contentSchema fun t =>
      sunder (ascii "contentSchema") (rec t i.next w) : Part N F) := by
    intro w
    exact keeps_opt fun t => keeps_sunder ((hrec t i.next w).aside) _
  simp only [contentPart]
  refine keeps_ite (calls_report base i _).keeps (keeps_ite ?_ (hschema _))
  split
  · exact (calls_report base i _).keeps
  · exact hschema _

lemma keeps_stringPart (n : GraphNode R N) (v : SValue) :
    KeepsLevels base i (stringPart env rec n i v) := by
  simp only [stringPart]
  split
  · exact (calls_skip base i).keeps
  · refine ((calls_checks base i fun c => .checkString _ _ _ c).keeps.andThen
      (calls_require base i _ _).keeps).andThen ?_
    split
    · exact keeps_contentPart hrec n _
    · exact (calls_skip base i).keeps

lemma calls_childPart (t : N) (v : SValue) (note : F → F) (j : Inst) :
    Calls base j (childPart rec t v note j) := (hrec t j v).quietly note

lemma calls_otherPart (msg : Bytes) (t : N) (v : SValue) (note : F → F) (j : Inst) :
    Calls base j (otherPart env rec msg t v note j) := by
  rw [otherPart]
  split_ifs
  · exact calls_report base j msg
  · exact calls_childPart hrec t v note j

lemma keeps_memberPart (n : GraphNode R N) (m : Bytes × SValue) :
    KeepsLevels base i (memberPart env rec n i m) := by
  simp only [memberPart]
  refine (KeepsLevels.andThen (keeps_opt fun p => ?_) (keeps_each fun p _ => ?_)).andThen
    (keeps_ite (calls_skip base i).keeps (keeps_opt fun t => ?_))
  · exact keeps_under (calls_childPart hrec _ _ _ _) _
  · exact keeps_under (calls_childPart hrec _ _ _ _) _
  · exact keeps_under (calls_otherPart hrec _ _ _ _ _) _

lemma keeps_depSchemaPart (ms : List (Bytes × SValue)) (d : Bytes × N) :
    KeepsLevels base i (depSchemaPart env rec i ms d) :=
  keeps_ite (keeps_trial (hrec d.2 i _) (fun ok => (calls_require base i ok _).keeps) _ _)
    (calls_skip base i).keeps

lemma keeps_namePart (n : GraphNode R N) (m : Bytes × SValue) :
    KeepsLevels base i (namePart env rec n i m) :=
  keeps_opt fun t => keeps_sunder
    (calls_trial (hrec t i.next _) (fun ok => calls_require base i ok _) _ _) _

lemma keeps_tablePart (n : GraphNode R N) (ms : List (Bytes × SValue)) :
    KeepsLevels base i (tablePart env rec n i ms) :=
  keeps_cons (calls_checks base i fun c => .checkProps _ _ c).keeps <|
  keeps_cons (keeps_each fun m _ => keeps_memberPart hrec n m) <|
  keeps_cons (keeps_each fun m _ => keeps_namePart hrec n m) <|
  keeps_cons (calls_checks base i fun c => .checkDepReq _ _ c).keeps <|
  keeps_cons (keeps_each fun d _ => keeps_depSchemaPart hrec ms d) <| keeps_nil base i

lemma keeps_elementPart (n : GraphNode R N) (e : SValue × ℕ) :
    KeepsLevels base i (elementPart env rec n i e) := by
  simp only [elementPart]
  split
  · exact keeps_under (calls_childPart hrec _ _ _ _) _
  · exact keeps_under (calls_childPart hrec _ _ _ _) _
  · exact keeps_under (calls_otherPart hrec _ _ _ _ _) _
  · exact (calls_skip base i).keeps

lemma keeps_containsPart (n : GraphNode R N) (vs : List SValue) :
    KeepsLevels base i (containsPart env rec n i vs) := by
  refine keeps_opt fun t => keeps_tryEach (j := fun e : SValue × ℕ => i.down (.idx e.2))
    (fun e => hrec t _ e.1) (fun hits => ?_) _ _ _
  refine keeps_cons (calls_require base i _ _).keeps (keeps_cons (calls_require base i _ _).keeps
    (keeps_cons (keeps_ite ?_ (calls_skip base i).keeps) (keeps_nil base i)))
  refine keeps_each fun e _ => keeps_trial (hrec t _ e.1) (fun ok => ?_) _ _
  exact keeps_ite (calls_note base i _).keeps (calls_skip base i).keeps

lemma keeps_arrayPart (n : GraphNode R N) (vs : List SValue) :
    KeepsLevels base i (arrayPart env rec n i vs) :=
  keeps_cons (calls_checks base i fun c => .checkItems _ _ _ c).keeps <|
  keeps_cons (keeps_each fun e _ => keeps_elementPart hrec n e) <|
  keeps_cons (keeps_containsPart hrec n vs) <| keeps_nil base i

lemma keeps_anyPart (n : GraphNode R N) (v : SValue) : KeepsLevels base i (anyPart env rec n i v) :=
  keeps_ite (calls_skip base i).keeps <|
    keeps_tryEach (fun t => hrec t i v) (fun _ => (calls_require base i _ _).keeps) _ _ _

lemma keeps_onePart (n : GraphNode R N) (v : SValue) : KeepsLevels base i (onePart env rec n i v) :=
  keeps_ite (calls_skip base i).keeps <|
    keeps_tryEach (fun t => hrec t i v) (fun _ => (calls_require base i _ _).keeps) _ _ _

lemma keeps_notPart (n : GraphNode R N) (v : SValue) : KeepsLevels base i (notPart env rec n i v) :=
  keeps_opt fun t => keeps_trial (hrec t i v) (fun _ => (calls_require base i _ _).keeps) _ _

lemma keeps_ifPart (n : GraphNode R N) (v : SValue) :
    KeepsLevels base i (ifPart env rec n i v) := by
  refine keeps_opt fun t => keeps_trial (hrec t i v) (fun ok => keeps_ite ?_ ?_) _ _
  · exact keeps_opt fun b => keeps_sunder (hrec b i v) _
  · exact keeps_opt fun b => keeps_sunder (hrec b i v) _

lemma keeps_unevalMember (t : N) (m : Bytes × SValue) :
    KeepsLevels base i (unevalMember env rec t i m) := by
  intro s s' l hs h
  rw [unevalMember] at h
  split_ifs at h
  · exact (calls_skip base i s s' l hs h).toKept
  · exact keeps_under (calls_otherPart hrec _ _ _ _ _) _ s s' l hs h

lemma keeps_unevalElement (t : N) (e : SValue × ℕ) :
    KeepsLevels base i (unevalElement env rec t i e) := by
  intro s s' l hs h
  rw [unevalElement] at h
  split_ifs at h
  · exact (calls_skip base i s s' l hs h).toKept
  · exact keeps_under (calls_otherPart hrec _ _ _ _ _) _ s s' l hs h

lemma keeps_unevalPart (n : GraphNode R N) (v : SValue) :
    KeepsLevels base i (unevalPart env rec n i v) := by
  unfold unevalPart
  split
  · exact keeps_opt fun t => keeps_each fun m _ => keeps_unevalMember hrec t m
  · exact keeps_opt fun t => keeps_each fun e _ => keeps_unevalElement hrec t e
  · exact (calls_skip base i).keeps

lemma keeps_keywordPart (n : GraphNode R N) (v : SValue) :
    KeepsLevels base i (keywordPart env rec n i v) := by
  refine keeps_cons (calls_checks base i fun c => .checkValue _ _ v c).keeps ?_
  refine keeps_cons (calls_checks base i fun c => .checkNumeric _ _ v c).keeps ?_
  refine keeps_cons (keeps_stringPart hrec n v) (keeps_cons ?_ ?_)
  · split
    · exact keeps_tablePart hrec n _
    · exact keeps_arrayPart hrec n _
    · exact (calls_skip base i).keeps
  · refine keeps_cons (keeps_each fun t _ => keeps_sunder (hrec t i v) _) ?_
    refine keeps_cons (keeps_anyPart hrec n v) (keeps_cons (keeps_onePart hrec n v) ?_)
    refine keeps_cons (keeps_notPart hrec n v) (keeps_cons (keeps_ifPart hrec n v) ?_)
    exact keeps_cons (keeps_unevalPart hrec n v) (keeps_nil base i)

end Keywords

/-! ## Calls -/

section Walk

variable {R N F : Type} (env : WalkEnv R N F) {base : List (DynScope N)} {i : Inst}
  {s s' : WalkState N F} {l : WalkLog}

lemma append_nil (l : WalkLog) : l.append {} = l := by
  simp [WalkLog.append]

lemma nil_append (l : WalkLog) : (({} : WalkLog).append l) = l := by
  simp [WalkLog.append]

lemma append_assoc (l l' l'' : WalkLog) :
    (l.append l').append l'' = l.append (l'.append l'') := by
  simp [WalkLog.append, Bool.or_assoc]

lemma popFrame_length (ops : FrameImpl F) (fs : List F) :
    (popFrame ops fs).length = fs.length - 1 := by
  match fs with
  | [] => rfl
  | [_] => rfl
  | _ :: _ :: _ => rfl

/-- Where no push was dropped the levels are the same. -/
lemma Kept.levels_eq (hk : Kept base i s s' l) (hscopes : s'.scopes.length = s.scopes.length)
    (hl : l.lost = false) : s'.levels = s.levels := by
  obtain ⟨hpath, hschema⟩ := hk.same hl
  simp only [WalkState.levels, hpath, hschema, hk.frames, hscopes, hk.mute, hk.refDepth]

/-- A path that got shorter shows in the levels. -/
lemma levels_ne (hs : s.Fits) (hs' : s'.Fits)
    (h : s'.vc.depth < s.vc.depth ∨ s'.vc.sdepth < s.vc.sdepth) : s.levels ≠ s'.levels := by
  intro heq
  have hpath := congrArg (fun l => l.path.length) heq
  have hschema := congrArg (fun l => l.schemaPath.length) heq
  simp only [WalkState.levels, Vctx.path, Vctx.schemaPath] at hpath hschema
  rw [List.length_take_of_le (by rw [hs.segs]; exact hs.depth),
    List.length_take_of_le (by rw [hs'.segs]; exact hs'.depth)] at hpath
  rw [List.length_take_of_le (by rw [hs.ssegs]; exact hs.sdepth),
    List.length_take_of_le (by rw [hs'.ssegs]; exact hs'.sdepth)] at hschema
  omega

/-- A call, behind what it does. -/
lemma Kept.logged (hk : Kept base i s s' l) (hs : s.Fits)
    (hscopes : s'.scopes.length = s.scopes.length) :
    Called base i s s' (l.append { calls := [(s.levels, s'.levels)] }) := by
  have hunb : (l.append { calls := [(s.levels, s'.levels)] }).lost = true →
      (l.append { calls := [(s.levels, s'.levels)] }).Unbalanced := by
    intro hl
    have hl : l.lost = true := by simpa [WalkLog.append] using hl
    rcases hk.dropped hl with hu | hlt
    · exact unbalanced_append_left hu
    · exact ⟨_, List.mem_append_right _ List.mem_cons_self, levels_ne hs hk.fits hlt⟩
  exact
    { hk with
      same := fun hl => hk.same (not_lost_append hl).1
      calls := fun hl c hc => by
        obtain ⟨hl, -⟩ := not_lost_append hl
        rcases List.mem_append.mp hc with hc | hc
        · exact hk.calls hl c hc
        · obtain rfl := List.mem_singleton.mp hc
          exact (hk.levels_eq hscopes hl).symm
      errors := fun hl hi e he => by
        rw [WalkLog.append, List.append_nil] at he
        exact hk.errors (not_lost_append hl).1 hi e he
      dropped := fun hl => .inl (hunb hl)
      unbalanced := hunb }

/-- A node is applied with a frame and scopes that are gone behind it. -/
lemma applyNode_kept {rec : N → Inst → SValue → Part N F}
    (hrec : ∀ base n j w, Calls base j (rec n j w)) {n : N} {v : SValue} (hs : s.Fits)
    (h : applyNode env rec n i v s = some (s', l)) :
    s'.scopes = s.scopes ∧ Kept base i s s' l := by
  simp only [applyNode] at h
  obtain ⟨s0, l0, m0, h0, h, hl⟩ := each_cons_eq_some h
  obtain ⟨s1, l1, m1, h1, h, rfl⟩ := each_cons_eq_some h
  obtain ⟨s2, l2, m2, h2, h, rfl⟩ := each_cons_eq_some h
  obtain ⟨s3, l3, m3, h3, h, rfl⟩ := each_cons_eq_some h
  obtain ⟨s4, l4, m4, h4, h, rfl⟩ := each_cons_eq_some h
  obtain ⟨rfl, rfl⟩ := Prod.mk.inj (Option.some_inj.mp h0)
  obtain ⟨rfl, rfl⟩ := Prod.mk.inj (Option.some_inj.mp h4)
  obtain ⟨rfl, rfl⟩ := Prod.mk.inj (Option.some_inj.mp h)
  have hin : WalkState.Fits (enterNode env n i s) := ⟨hs.segs, hs.depth, hs.ssegs, hs.sdepth⟩
  have hk1 := keeps_dynamicPart (hrec s.scopes) (env.node n) v _ s1 l1 hin h1
  have hk2 := keeps_refPart (hrec s.scopes) (env.node n) v s1 s2 l2 hk1.fits h2
  have hk3 : Kept s.scopes i s2 s3 l3 := by
    refine keeps_ite (calls_skip _ _).keeps (keeps_ite (calls_report _ _ _).keeps ?_) s2 s3 l3
      hk2.fits h3
    exact keeps_keywordPart (hrec s.scopes) (env.node n) v
  have hk := (hk1.trans hk2).trans hk3
  have hframes : s3.frames.length = s.frames.length + 1 := hk.frames
  have hscopes : s3.scopes.take s.scopes.length = s.scopes :=
    (List.prefix_iff_eq_take.mp (hk.scopes (List.prefix_append _ _))).symm
  refine ⟨hscopes, ?_⟩
  change l = _ at hl
  rw [hl, nil_append, nil_append, append_nil, ← append_assoc]
  exact
    { hk with
      fits := ⟨hk.fits.segs, hk.fits.depth, hk.fits.ssegs, hk.fits.sdepth⟩
      frames := by
        rw [leaveNode, popFrame_length, hframes, Nat.add_sub_cancel]
      scopes := fun hb => by
        show base <+: s3.scopes.take s.scopes.length
        rwa [hscopes] }

/-- A call of `val` gives back what it found, or drops a push and shows it. -/
lemma calls_valCall (k : ℕ) (base : List (DynScope N)) (n : N) (i : Inst) (v : SValue) :
    Calls base i (valCall env k n i v) := by
  induction k generalizing base n i v with
  | zero =>
    intro s s' l _ h
    cases h
  | succ k ih =>
    intro s s' l hs h
    obtain ⟨⟨s1, l1⟩, h1, h2⟩ := Option.map_eq_some_iff.mp h
    obtain ⟨rfl, rfl⟩ := Prod.mk.inj h2
    split_ifs at h1 with hdeep
    · have hk := calls_report base i _ s s1 l1 hs h1
      obtain ⟨rfl, -⟩ := Prod.mk.inj (Option.some_inj.mp h1)
      exact hk.logged hs rfl
    · obtain ⟨hscopes, hk⟩ := @applyNode_kept _ _ _ env base _ _ _ _ _ ih _ _ hs h1
      exact hk.logged hs (congrArg List.length hscopes)

/-- A call is in its log. -/
lemma valCall_logged {k : ℕ} {n : N} {v : SValue} (h : valCall env k n i v s = some (s', l)) :
    (s.levels, s'.levels) ∈ l.calls := by
  cases k with
  | zero => cases h
  | succ k =>
    obtain ⟨⟨s1, l1⟩, -, h2⟩ := Option.map_eq_some_iff.mp h
    obtain ⟨rfl, rfl⟩ := Prod.mk.inj h2
    exact List.mem_append_right _ List.mem_cons_self

/-- A walk that returns gives back every level in each of its calls, and reports every error with
the location of its value, if and only if no push of it finds its stack full. -/
theorem stacks_balanced_iff (k : ℕ) (n : N) (aside : ℕ) (v : SValue) (hs : s.Fits)
    (h : valCall env k n ⟨s.vc.path, aside⟩ v s = some (s', l)) :
    (s'.levels = s.levels ∧ (∀ c ∈ l.calls, c.1 = c.2) ∧ ∀ e ∈ l.errors, e.1 = e.2) ↔
      l.lost = false := by
  have hk := calls_valCall env k s.scopes n ⟨s.vc.path, aside⟩ v s s' l hs h
  constructor
  · rintro ⟨-, hcalls, -⟩
    by_contra hlost
    obtain ⟨c, hc, hne⟩ := hk.unbalanced (by simpa using hlost)
    exact hne (hcalls c hc)
  · intro hl
    exact ⟨(hk.calls hl _ (valCall_logged env h)).symm, hk.calls hl, hk.errors hl (.inr rfl)⟩

end Walk

/-! ## A deep document -/

/-- Frames that hold nothing. -/
def FrameImpl.unit : FrameImpl Unit :=
  ⟨fun _ => (), fun _ f => f, fun _ f => f, fun _ f => f, fun _ => (0, 0), fun _ f => f,
    fun _ _ => false, fun _ _ => false⟩

/-- The schema `{"additionalProperties": {"$ref": "#"}}`. -/
def nestedEnv : WalkEnv Unit Bool Unit where
  leaves := .none
  node b := if b then { ref := some false } else { additional := some true }
  ops := .unit
  formatOk _ _ := true
  isBase64 _ := false
  decode := id
  readJson _ := none

/-- Tables in tables, with one member each. -/
def nestedTable : ℕ → SValue
  | 0 => .table []
  | k + 1 => .table [(ascii "a", nestedTable k)]

/-- A walk over nested tables, in a new context. -/
def nestedWalk (k : ℕ) : Option (WalkState Bool Unit × WalkLog) :=
  valCall nestedEnv (2 * k + 1) false ⟨[], 0⟩ (nestedTable k) ⟨.new, 0, [], []⟩

/-- Over two tables every call gives back what it found. -/
theorem nestedWalk_two_balanced :
    ∃ s l, nestedWalk 2 = some (s, l) ∧ (s.levels = ⟨[], [], 0, 0, 0, 0⟩ ∧
      (∀ c ∈ l.calls, c.1 = c.2) ∧ ∀ e ∈ l.errors, e.1 = e.2) := by
  have hsome : (nestedWalk 2).isSome := by decide +kernel
  obtain ⟨⟨s, l⟩, h⟩ := Option.isSome_iff_exists.mp hsome
  have hlost : ∀ r ∈ nestedWalk 2, r.2.lost = false := by decide +kernel
  exact ⟨s, l, h, (stacks_balanced_iff nestedEnv 5 false 0 (nestedTable 2)
    (s := ⟨.new, 0, [], []⟩) ⟨rfl, Nat.zero_le _, rfl, Nat.zero_le _⟩ h).mpr (hlost _ h)⟩

/-- Over thirty-three of them some call gives back another schema path. -/
theorem nestedWalk_unbalanced :
    ∃ s l, nestedWalk 33 = some (s, l) ∧ ∃ c ∈ l.calls, c.1.schemaPath ≠ c.2.schemaPath := by
  have hsome : (nestedWalk 33).isSome := by decide +kernel
  obtain ⟨⟨s, l⟩, h⟩ := Option.isSome_iff_exists.mp hsome
  have hcall : ∀ r ∈ nestedWalk 33, ∃ c ∈ r.2.calls, c.1.schemaPath ≠ c.2.schemaPath := by
    decide +kernel
  exact ⟨s, l, h, hcall _ h⟩

end Teptris
