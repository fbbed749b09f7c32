import Mathlib.Data.List.Basic
import Teptris.Schema.Semantics

/-!
# Effects of the walk

What a part of the walk does to the context, as one relation: it reports and pings exactly where
its verdict is negative, and a muted walk reports nothing.  Effects compose; trials turn a walk
into its verdict.
-/

namespace Teptris

/-! ## Effects -/

/-- The path stacks are within their slots, and a counted error is in the buffer. -/
structure Vctx.Sane (c : Vctx) : Prop where
  /-- Pushes stop at 128. -/
  depth : c.depth ≤ 128
  /-- An error that was counted was written. -/
  written : c.nErrors = 0 ∨ c.buf ≠ []

/-- The report of one context is that of another. -/
structure Vctx.SameReport (c c' : Vctx) : Prop where
  /-- The same error objects. -/
  buf : c'.buf = c.buf
  /-- As many of them. -/
  nErrors : c'.nErrors = c.nErrors
  /-- The same truncation. -/
  truncated : c'.truncated = c.truncated

/-- What a part of the walk with the verdict `P` does to the context. -/
structure Effect (P : Prop) (c c' : Vctx) : Prop where
  /-- The stacks stay within their slots. -/
  sane : c'.Sane
  /-- Trials are balanced. -/
  mute : c'.mute = c.mute
  /-- Signals are never taken back. -/
  mono : c.pings ≤ c'.pings
  /-- It signals exactly where the verdict is negative. -/
  pings : c'.pings = c.pings ↔ P
  /-- A positive verdict, and any verdict of a trial, leaves the report as it was. -/
  quiet : P ∨ 0 < c.mute → c.SameReport c'
  /-- A negative verdict outside trials is reported. -/
  loud : ¬ P → c.mute = 0 → c'.buf ≠ []

/-- A part of the walk with the verdict `P`, from any context. -/
def Walks (P : Prop) (walk : Vctx → Vctx) : Prop := ∀ c, c.Sane → Effect P c (walk c)

/-- A trial of the verdict `P`: it leaves no signal and no report of its own. -/
def Tries (P : Prop) (t : Vctx → Bool × Vctx) : Prop :=
  ∀ c, c.Sane → ((t c).1 = true ↔ P) ∧ Effect True c (t c).2

lemma Vctx.SameReport.refl (c : Vctx) : c.SameReport c := ⟨rfl, rfl, rfl⟩

lemma Vctx.SameReport.trans {c c' c'' : Vctx} (h : c.SameReport c') (h' : c'.SameReport c'') :
    c.SameReport c'' :=
  ⟨h'.buf.trans h.buf, h'.nErrors.trans h.nErrors, h'.truncated.trans h.truncated⟩

namespace Effect

variable {P Q : Prop} {c c' c'' : Vctx}

/-- Only the path stacks change. -/
lemma of_paths (hsane : c'.Sane) (hmute : c'.mute = c.mute) (hpings : c'.pings = c.pings)
    (hreport : c.SameReport c') : Effect True c c' where
  sane := hsane
  mute := hmute
  mono := hpings.ge
  pings := by simp [hpings]
  quiet _ := hreport
  loud h := absurd trivial h

lemma refl (h : c.Sane) : Effect True c c := of_paths h rfl rfl (.refl c)

lemma congr (h : Effect P c c') (hPQ : P ↔ Q) : Effect Q c c' := by
  rwa [← propext hPQ]

/-- A report that is there stays there. -/
lemma keeps (h : Effect P c c') (hc : c.buf ≠ []) : c'.buf ≠ [] := by
  by_cases hq : P ∨ 0 < c.mute
  · rw [(h.quiet hq).buf]
    exact hc
  · simp only [not_or, Nat.not_lt, Nat.le_zero] at hq
    exact h.loud hq.1 hq.2

/-- One part after the other. -/
lemma trans (h : Effect P c c') (h' : Effect Q c' c'') : Effect (P ∧ Q) c c'' where
  sane := h'.sane
  mute := h'.mute.trans h.mute
  mono := h.mono.trans h'.mono
  pings := by
    have hmono := h.mono
    have hmono' := h'.mono
    rw [← h.pings, ← h'.pings]
    constructor
    · intro heq
      constructor <;> omega
    · intro heq
      rw [heq.2, heq.1]
  quiet hq := by
    have hP : P ∨ 0 < c.mute := hq.imp_left And.left
    have hQ : Q ∨ 0 < c'.mute := hq.imp And.right (fun hm => h.mute ▸ hm)
    exact (h.quiet hP).trans (h'.quiet hQ)
  loud hn hm := by
    by_cases hP : P
    · exact h'.loud (fun hQ => hn ⟨hP, hQ⟩) (h.mute.trans hm)
    · exact h'.keeps (h.loud hP hm)

end Effect

namespace Walks

variable {P Q : Prop} {f g : Vctx → Vctx}

lemma congr (h : Walks P f) (hPQ : P ↔ Q) : Walks Q f := fun c hc => (h c hc).congr hPQ

/-- One part after the other. -/
lemma comp (hf : Walks P f) (hg : Walks Q g) : Walks (P ∧ Q) fun c => g (f c) := by
  intro c hc
  have h := hf c hc
  exact h.trans (hg _ h.sane)

/-- Nothing to do. -/
lemma id : Walks True fun c => c := fun _ hc => .refl hc

/-- A part that changes nothing but the paths, in front of another one. -/
lemma before (hf : Walks True f) (hg : Walks Q g) : Walks Q fun c => g (f c) :=
  (hf.comp hg).congr (by simp)

/-- A part that changes nothing but the paths, behind another one. -/
lemma behind (hf : Walks P f) (hg : Walks True g) : Walks P fun c => g (f c) :=
  (hf.comp hg).congr (by simp)

/-- The same part for each of some values. -/
lemma foldl {α : Type} {P : α → Prop} {f : Vctx → α → Vctx} {xs : List α}
    (h : ∀ x ∈ xs, Walks (P x) fun c => f c x) :
    Walks (∀ x ∈ xs, P x) fun c => xs.foldl f c := by
  induction xs with
  | nil => exact Walks.id.congr (by simp)
  | cons x xs ih =>
    have hx := h x (by simp)
    have hxs := ih fun y hy => h y (by simp [hy])
    exact (hx.comp hxs).congr (by simp)

/-- `verr`. -/
lemma verr (msg : Bytes) : Walks False fun c => c.verr msg := by
  intro c hc
  have hdepth := hc.depth
  have hwritten := hc.written
  simp only [Vctx.verr]
  split
  next hmute =>
    refine ⟨⟨hdepth, hwritten⟩, rfl, by simp, by simp, fun _ => ⟨rfl, rfl, rfl⟩, ?_⟩
    intro _ hm
    exact absurd hmute (by simp [hm])
  next hmute =>
  have hquiet : ∀ c' : Vctx, False ∨ 0 < c.mute → c.SameReport c' := by
    rintro c' (h | h)
    · exact h.elim
    · exact absurd h hmute
  split
  next hmax =>
    refine ⟨⟨hdepth, hwritten⟩, rfl, by simp, by simp, hquiet _, ?_⟩
    intro _ _
    have hne : c.nErrors ≠ 0 := by
      have hlarge : 256 ≤ c.nErrors := hmax
      omega
    exact hwritten.resolve_left hne
  next hmax =>
    have hbuf : c.buf ++ (if 0 < c.nErrors then [Ch.comma] else []) ++
        Vctx.errorText { c with pings := c.pings + 1 } msg ≠ [] := by
      simp [Vctx.errorText, ascii]
    exact ⟨⟨hdepth, Or.inr hbuf⟩, rfl, by simp, by simp, hquiet _, fun _ _ => hbuf⟩

/-- A check reports where it fails. -/
lemma check (ok : Bool) (msg : Bytes) : Walks (ok = true) fun c => c.check ok msg := by
  cases ok with
  | false => exact (verr msg).congr (by simp)
  | true => exact Walks.id.congr (by simp)

lemma spush (seg : Bytes) : Walks True fun c => c.spush seg := by
  intro c hc
  simp only [Vctx.spush]
  split_ifs
  · exact .refl hc
  · exact .of_paths ⟨hc.depth, hc.written⟩ rfl rfl ⟨rfl, rfl, rfl⟩

lemma spop : Walks True Vctx.spop := fun _ hc =>
  .of_paths ⟨hc.depth, hc.written⟩ rfl rfl ⟨rfl, rfl, rfl⟩

lemma pathPush (seg : Bytes) : Walks True fun c => c.pathPush seg := by
  intro c hc
  simp only [Vctx.pathPush]
  split
  · exact .refl hc
  next h =>
    exact .of_paths ⟨Nat.succ_le_of_lt (Nat.lt_of_not_le h), hc.written⟩ rfl rfl ⟨rfl, rfl, rfl⟩

lemma pathPushIdx (idx : ℕ) : Walks True fun c => c.pathPushIdx idx := by
  intro c hc
  simp only [Vctx.pathPushIdx]
  split_ifs with h
  · exact .refl hc
  · exact .of_paths ⟨Nat.succ_le_of_lt (Nat.lt_of_not_le h), hc.written⟩ rfl rfl ⟨rfl, rfl, rfl⟩

lemma pathPop : Walks True Vctx.pathPop := fun _ hc =>
  .of_paths ⟨le_trans (Nat.sub_le _ _) hc.depth, hc.written⟩ rfl rfl ⟨rfl, rfl, rfl⟩

lemma under (hf : Walks P f) (sseg seg : Bytes) : Walks P fun c => c.under sseg seg f :=
  ((((spush sseg).before (pathPush seg)).before hf).behind pathPop).behind spop

lemma underIdx (hf : Walks P f) (sseg : Bytes) (idx : ℕ) :
    Walks P fun c => c.underIdx sseg idx f :=
  ((((spush sseg).before (pathPushIdx idx)).before hf).behind pathPop).behind spop

lemma sunder (hf : Walks P f) (sseg : Bytes) : Walks P fun c => c.sunder sseg f :=
  ((spush sseg).before hf).behind spop

/-- The muted walk of a trial: it reports nothing. -/
lemma muted (hf : Walks P f) {c : Vctx} (hc : c.Sane) :
    Effect P { c with mute := c.mute + 1 } (f { c with mute := c.mute + 1 }) ∧
      c.SameReport (f { c with mute := c.mute + 1 }) := by
  have h := hf { c with mute := c.mute + 1 } ⟨hc.depth, hc.written⟩
  have hsame := h.quiet (Or.inr (Nat.succ_pos _))
  exact ⟨h, ⟨hsame.buf, hsame.nErrors, hsame.truncated⟩⟩

/-- A trial has the verdict of its walk, and leaves no trace of it. -/
lemma trial (hf : Walks P f) : Tries P fun c => c.trial f := by
  intro c hc
  obtain ⟨h, hsame⟩ := hf.muted hc
  simp only [Vctx.trial, decide_eq_true_eq]
  generalize f { c with mute := c.mute + 1 } = c' at h hsame
  have hpings : c'.pings = c.pings ↔ P := h.pings
  have hmute : c'.mute - 1 = c.mute := by
    rw [h.mute]
    rfl
  split_ifs with hok
  · refine ⟨by simpa using hpings.mp hok, ?_⟩
    exact .of_paths ⟨h.sane.depth, h.sane.written⟩ hmute rfl
      ⟨hsame.buf, hsame.nErrors, hsame.truncated⟩
  · refine ⟨by simpa using fun hP => hok (hpings.mpr hP), ?_⟩
    have hbuf : c'.buf.take c.buf.length = c.buf := by rw [hsame.buf, List.take_length]
    refine .of_paths ⟨h.sane.depth, ?_⟩ hmute rfl ⟨hbuf, hsame.nErrors, hsame.truncated⟩
    simp only [hbuf, hsame.nErrors]
    exact hc.written

/-- A trial whose annotations are dropped too. -/
lemma trialFree (hf : Walks P f) : Tries P fun c => c.trialFree f := by
  intro c hc
  obtain ⟨h, hsame⟩ := hf.muted hc
  simp only [Vctx.trialFree]
  generalize f { c with mute := c.mute + 1 } = c' at h hsame
  have hmute : c'.mute - 1 = c.mute := by
    rw [h.mute]
    rfl
  have hbuf : c'.buf.take c.buf.length = c.buf := by rw [hsame.buf, List.take_length]
  refine ⟨by simpa using h.pings, ?_⟩
  refine .of_paths ⟨h.sane.depth, ?_⟩ hmute rfl ⟨hbuf, hsame.nErrors, hsame.truncated⟩
  simp only [hbuf, hsame.nErrors]
  exact hc.written

end Walks

/-- A trial, and a check of its verdict. -/
lemma Tries.check {P : Prop} {t : Vctx → Bool × Vctx} (h : Tries P t) (msg : Bytes) :
    Walks P fun c => (t c).2.check (t c).1 msg := by
  intro c hc
  obtain ⟨hok, heff⟩ := h c hc
  exact (heff.trans (Walks.check (t c).1 msg _ heff.sane)).congr (by simp [hok])

/-- A trial, and a check that it failed. -/
lemma Tries.refute {P : Prop} {t : Vctx → Bool × Vctx} (h : Tries P t) (msg : Bytes) :
    Walks (¬ P) fun c => (t c).2.check (!(t c).1) msg := by
  intro c hc
  obtain ⟨hok, heff⟩ := h c hc
  exact (heff.trans (Walks.check (!(t c).1) msg _ heff.sane)).congr (by simp [← hok])

/-! ## Lists -/

/-- One element counts exactly where one position holds and no other does. -/
lemma countP_eq_one_iff {α : Type} {p : α → Prop} [DecidablePred p] {l : List α} :
    l.countP (fun x => p x) = 1 ↔ ∃ i : ℕ, (∃ x, ∃ _ : l[i]? = some x, p x) ∧
      ∀ j, j ≠ i → ∀ x, l[j]? = some x → ¬ p x := by
  induction l with
  | nil => simp
  | cons y l ih =>
    by_cases hy : p y
    · have hzero : l.countP (fun x => p x) = 0 ↔ ∀ x ∈ l, ¬ p x := by
        simp [List.countP_eq_zero]
      rw [List.countP_cons_of_pos (by simpa using hy), Nat.add_eq_right, hzero]
      constructor
      · intro h
        refine ⟨0, ⟨y, rfl, hy⟩, fun j hj x hx => ?_⟩
        obtain ⟨j, rfl⟩ := Nat.exists_eq_succ_of_ne_zero hj
        exact h x (List.mem_of_getElem? (by simpa using hx))
      · rintro ⟨i, ⟨x, hx, hpx⟩, hothers⟩ z hz hpz
        obtain ⟨j, hj⟩ := List.getElem?_of_mem hz
        cases i with
        | zero => exact hothers (j + 1) (by simp) z (by simpa using hj) hpz
        | succ i => exact hothers 0 (by simp) y rfl hy
    · rw [List.countP_cons_of_neg (by simpa using hy), ih]
      constructor
      · rintro ⟨i, ⟨x, hx, hpx⟩, hothers⟩
        refine ⟨i + 1, ⟨x, by simpa using hx, hpx⟩, fun j hj z hz => ?_⟩
        cases j with
        | zero =>
          obtain rfl : y = z := by simpa using hz
          exact hy
        | succ j => exact hothers j (by simpa using hj) z (by simpa using hz)
      · rintro ⟨i, ⟨x, hx, hpx⟩, hothers⟩
        cases i with
        | zero =>
          obtain rfl : y = x := by simpa using hx
          exact absurd hpx hy
        | succ i =>
          refine ⟨i, ⟨x, by simpa using hx, hpx⟩, fun j hj z hz => ?_⟩
          exact hothers (j + 1) (by simpa using hj) z (by simpa using hz)

/-- No twins exactly where the elements differ pairwise. -/
lemma firstTwins_eq_none {R : Type} (lf : Leaves R) {vs : List SValue} (i : ℕ) :
    firstTwins lf i vs = none ↔ vs.Pairwise fun x y => lf.svEqual x y = false := by
  induction vs generalizing i with
  | nil => simp [firstTwins]
  | cons v vs ih =>
    rw [firstTwins, List.pairwise_cons]
    cases hfind : vs.findIdx? fun w => lf.svEqual v w with
    | none =>
      rw [List.findIdx?_eq_none_iff] at hfind
      exact ⟨fun h => ⟨hfind, (ih _).mp h⟩, fun h => (ih _).mpr h.2⟩
    | some k =>
      have hex : ∃ w ∈ vs, lf.svEqual v w = true := by
        by_contra hnone
        have : (vs.findIdx? fun w => lf.svEqual v w) = none := by
          rw [List.findIdx?_eq_none_iff]
          intro w hw
          simpa using fun heq => hnone ⟨w, hw, heq⟩
        rw [this] at hfind
        cases hfind
      obtain ⟨w, hw, heq⟩ := hex
      simp only [reduceCtorEq, false_iff, not_and]
      intro hall
      exact absurd (hall w hw) (by simp [heq])

lemma hasKey_iff {ms : List (Bytes × SValue)} {k : Bytes} :
    hasKey ms k = true ↔ k ∈ ms.map Prod.fst := by
  simp [hasKey]

/-! ## Checks without sub-schemas -/

section Checks

variable {R : Type} (lf : Leaves R) (a : Assertions R)

lemma checkValue_walks (v : SValue) : Walks
    (typeOk lf a v = true ∧ constOk lf a v = true ∧ a.enumEmpty = false ∧ enumOk lf a v = true)
    (checkValue lf a v) :=
  (((Walks.check (typeOk lf a v) _).comp (Walks.check (constOk lf a v) _)).comp
    (Walks.check (!a.enumEmpty) _)).comp (Walks.check (enumOk lf a v) _)
      |>.congr (by simp [and_assoc])

lemma checkNumeric_walks (v : SValue) : Walks
    ((∀ kw, boundOk lf a kw v = true) ∧ multOk lf a v = true) (checkNumeric lf a v) := by
  have h := ((((Walks.check (boundOk lf a .minimum v) (ascii "value is below the minimum")).comp
    (Walks.check (boundOk lf a .maximum v) (ascii "value is above the maximum"))).comp
    (Walks.check (boundOk lf a .exclusiveMinimum v)
      (ascii "value is not above the exclusive minimum"))).comp
    (Walks.check (boundOk lf a .exclusiveMaximum v)
      (ascii "value is not below the exclusive maximum"))).comp
    (Walks.check (multOk lf a v) (ascii "value is not a multiple of multipleOf"))
  refine h.congr ?_
  constructor
  · rintro ⟨⟨⟨⟨hmin, hmax⟩, hexmin⟩, hexmax⟩, hmult⟩
    refine ⟨fun kw => ?_, hmult⟩
    cases kw <;> assumption
  · rintro ⟨hbounds, hmult⟩
    exact ⟨⟨⟨⟨hbounds _, hbounds _⟩, hbounds _⟩, hbounds _⟩, hmult⟩

lemma checkString_walks (v : SValue) : Walks
    (∀ s, v.text = some s → atLeast a.minLength (cpCount s) = true ∧
      atMost a.maxLength (cpCount s) = true ∧ (a.pattern.all fun re => lf.isMatch re s) = true)
    (checkString lf a v) := by
  unfold checkString
  cases v.text with
  | none => exact Walks.id.congr (by simp)
  | some s =>
    refine (((Walks.check (atLeast a.minLength (cpCount s)) _).comp
      (Walks.check (atMost a.maxLength (cpCount s)) _)).comp
      (Walks.check (a.pattern.all fun re => lf.isMatch re s) _)).congr ?_
    simp [and_assoc]

lemma checkProps_walks (ms : List (Bytes × SValue)) : Walks
    (atLeast a.minProps ms.length = true ∧ atMost a.maxProps ms.length = true ∧
      ∀ k ∈ a.required, k ∈ ms.map Prod.fst) (checkProps a ms) := by
  have hreq : Walks (∀ k ∈ a.required, hasKey ms k = true) fun c =>
      a.required.foldl (fun c k =>
        c.check (hasKey ms k) (ascii "missing required property '" ++ k ++ ascii "'")) c :=
    Walks.foldl fun k _ => Walks.check _ _
  refine (((Walks.check (atLeast a.minProps ms.length) _).comp
    (Walks.check (atMost a.maxProps ms.length) _)).comp hreq).congr ?_
  simp only [hasKey_iff, and_assoc]

lemma checkDepReq_walks (ms : List (Bytes × SValue)) : Walks
    (∀ d ∈ a.depReq, d.1 ∈ ms.map Prod.fst → ∀ k ∈ d.2, k ∈ ms.map Prod.fst)
    (checkDepReq a ms) := by
  refine Walks.foldl fun d _ => ?_
  by_cases hd : hasKey ms d.1 = true
  · simp only [hd, if_true]
    have hreq : Walks (∀ k ∈ d.2, hasKey ms k = true) fun c =>
        d.2.foldl (fun c k => c.check (hasKey ms k)
          (ascii "'" ++ d.1 ++ ascii "' requires '" ++ k ++ ascii "' (dependentRequired)")) c :=
      Walks.foldl fun k _ => Walks.check _ _
    refine hreq.congr ?_
    simp only [hasKey_iff] at hd ⊢
    exact ⟨fun h _ => h, fun h => h hd⟩
  · simp only [hd]
    refine Walks.id.congr ?_
    rw [hasKey_iff] at hd
    exact ⟨fun _ hmem => absurd hmem hd, fun _ => trivial⟩

lemma checkItems_walks (vs : List SValue) : Walks
    (atLeast a.minItems vs.length = true ∧ atMost a.maxItems vs.length = true ∧
      (a.uniqueItems = true → vs.Pairwise fun x y => lf.svEqual x y = false))
    (checkItems lf a vs) := by
  have hbounds := (Walks.check (atLeast a.minItems vs.length)
    (ascii "fewer items than minItems")).comp
      (Walks.check (atMost a.maxItems vs.length) (ascii "more items than maxItems"))
  rw [← firstTwins_eq_none lf 0, ← and_assoc]
  change Walks _ fun c => checkItems lf a vs c
  simp only [checkItems]
  cases a.uniqueItems with
  | false => exact (hbounds.comp .id).congr (by simp)
  | true =>
    cases firstTwins lf 0 vs with
    | none => exact (hbounds.comp .id).congr (by simp)
    | some x => exact (hbounds.comp (.verr _)).congr (by simp)

end Checks

end Teptris
