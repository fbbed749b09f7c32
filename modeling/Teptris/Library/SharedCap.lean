import Mathlib.Data.List.Basic
import Mathlib.Logic.Function.Basic
import Mathlib.Tactic.Common

/-!
# Lists that share a capacity counter

Many lists, each with storage of its own, whose growth goes through one counter: room is
allocated for a list only when its length is the count.  The counter fits the list it was opened
for (`opener`); every other list keeps no storage at all.  A run in which each entry has its room
asked for writes outside of the storage exactly if an entry is stored in another list than the
opener (`fits_iff`).
-/

namespace SharedCap

variable {P α : Type}

/-! ## The lists -/

/-- What happens to the list of an owner. -/
inductive Event (P α : Type) where
  /-- Room for one more is asked for. -/
  | grow (p : P)
  /-- An entry is written behind the last one. -/
  | store (p : P) (e : α)

/-- Whose list it is. -/
def Event.owner : Event P α → P
  | .grow p => p
  | .store p _ => p

/-- The lists, their storage and the counter. -/
structure Cells (P α : Type) where
  /-- The counter. -/
  cap : ℕ := 0
  /-- The entries each list has storage for. -/
  alloc : P → ℕ := fun _ => 0
  /-- The entries. -/
  items : P → List α := fun _ => []
  /-- An entry was written outside of the storage. -/
  overrun : Bool := false

section Run

variable [DecidableEq P] (first : ℕ)

/-- Asking for room. -/
def Cells.grow (m : Cells P α) (p : P) : Cells P α :=
  if (m.items p).length = m.cap then
    let cap := if m.cap = 0 then first else m.cap * 2
    { m with cap := cap, alloc := Function.update m.alloc p cap }
  else m

/-- Writing an entry. -/
def Cells.store (m : Cells P α) (p : P) (e : α) : Cells P α :=
  if (m.items p).length < m.alloc p then
    { m with items := Function.update m.items p (m.items p ++ [e]) }
  else { m with overrun := true }

/-- An event. -/
def Cells.apply (m : Cells P α) : Event P α → Cells P α
  | .grow p => m.grow first p
  | .store p e => m.store p e

/-- A run. -/
def run (es : List (Event P α)) : Cells P α := es.foldl (Cells.apply first) {}

lemma run_append (es : List (Event P α)) (ev : Event P α) :
    run first (es ++ [ev]) = (run first es).apply first ev := by
  simp [run, List.foldl_append]

end Run

/-! ## What a run says about its lists -/

/-- The owner whose list was the first to ask for room. -/
def opener (es : List (Event P α)) : Option P :=
  es.findSome? fun
    | .grow p => some p
    | .store _ _ => none

lemma opener_grow (es : List (Event P α)) (p : P) :
    opener (es ++ [.grow p]) = (opener es).or (some p) := by
  simp [opener, List.findSome?_append]

lemma opener_store (es : List (Event P α)) (p : P) (e : α) :
    opener (es ++ [.store p e]) = opener es := by
  simp [opener, List.findSome?_append]

section Owners

variable [DecidableEq P]

/-- The entries a run stores for an owner. -/
def stored (p : P) (es : List (Event P α)) : List α :=
  es.filterMap fun
    | .grow _ => none
    | .store q e => if q = p then some e else none

/-- The last event of an owner. -/
def lastOf (p : P) (es : List (Event P α)) : Option (Event P α) :=
  (es.filter fun ev => ev.owner = p).getLast?

/-- Every entry has its room asked for right before, among the events of its owner. -/
inductive Asked : List (Event P α) → Prop
  /-- No events. -/
  | nil : Asked []
  /-- Room is asked for at any time. -/
  | grow {es : List (Event P α)} (h : Asked es) (p : P) : Asked (es ++ [.grow p])
  /-- An entry is stored once there is room. -/
  | store {es : List (Event P α)} (h : Asked es) {p : P} (hp : lastOf p es = some (.grow p))
      (e : α) : Asked (es ++ [.store p e])

lemma stored_grow (q : P) (es : List (Event P α)) (p : P) :
    stored q (es ++ [.grow p]) = stored q es := by
  simp [stored]

lemma stored_store_self (p : P) (es : List (Event P α)) (e : α) :
    stored p (es ++ [.store p e]) = stored p es ++ [e] := by
  simp [stored]

lemma stored_store_of_ne {p q : P} (h : p ≠ q) (es : List (Event P α)) (e : α) :
    stored q (es ++ [.store p e]) = stored q es := by
  simp [stored, h]

/-- Only the events of an owner store for it. -/
lemma stored_filter_owner (p : P) (es : List (Event P α)) :
    stored p (es.filter fun ev => ev.owner = p) = stored p es := by
  rw [stored, stored, List.filterMap_filter]
  congr 1
  funext ev
  cases ev with
  | grow q | store q e => by_cases hq : q = p <;> simp [Event.owner, hq]

lemma lastOf_self (es : List (Event P α)) (ev : Event P α) :
    lastOf ev.owner (es ++ [ev]) = some ev := by
  simp [lastOf]

lemma lastOf_of_ne {q : P} (es : List (Event P α)) {ev : Event P α} (h : ev.owner ≠ q) :
    lastOf q (es ++ [ev]) = lastOf q es := by
  simp [lastOf, h]

/-- An owner that stores has asked for room. -/
lemma Asked.grow_mem {es : List (Event P α)} (h : Asked es) {p : P} {e : α}
    (hmem : .store p e ∈ es) : .grow p ∈ es := by
  induction h with
  | nil => cases hmem
  | grow _ q ih =>
    refine List.mem_append_left _ (ih ?_)
    simpa using hmem
  | store _ hp _ ih =>
    refine List.mem_append_left _ ?_
    rcases List.mem_append.mp hmem with hmem | hmem
    · exact ih hmem
    · obtain ⟨rfl, -⟩ := Event.store.inj (List.mem_singleton.mp hmem)
      exact List.mem_of_mem_filter (List.mem_of_getLast? hp)

/-- Nothing is stored before room is asked for. -/
lemma Asked.store_not_mem {es : List (Event P α)} (h : Asked es) (hnone : opener es = none)
    (p : P) (e : α) : .store p e ∉ es := by
  intro hmem
  simp only [opener, List.findSome?_eq_none_iff] at hnone
  cases hnone _ (h.grow_mem hmem)

/-! ## The counter and the lists -/

/-- All entries go to the list of the opener. -/
def OneOwner (es : List (Event P α)) : Prop := ∀ p e, .store p e ∈ es → opener es = some p

/-- A run in which one owner asks for all the room stores for that owner. -/
lemma Asked.oneOwner {es : List (Event P α)} (h : Asked es) {x : P}
    (hsole : ∀ p, .grow p ∈ es → p = x) : OneOwner es := by
  intro p e hmem
  obtain rfl := hsole p (h.grow_mem hmem)
  cases hop : opener es with
  | none => exact absurd hmem (h.store_not_mem hop p e)
  | some y =>
    obtain ⟨ev, hev, hy⟩ := List.exists_of_findSome?_eq_some hop
    cases ev with
    | grow q =>
      obtain rfl := Option.some_inj.mp hy
      rw [hsole q hev]
    | store q e' => cases hy

/-- What a run keeps: only the opener has storage, as much as the counter says, and all of its
entries are in it. -/
structure Held (es : List (Event P α)) (m : Cells P α) : Prop where
  /-- The counter starts with the opener. -/
  cap_pos : 0 < m.cap ↔ opener es ≠ none
  /-- The others have no storage. -/
  others : ∀ p, opener es ≠ some p → m.alloc p = 0 ∧ m.items p = []
  /-- The storage of the opener. -/
  alloc : ∀ p, opener es = some p → m.alloc p = m.cap
  /-- Its entries. -/
  items : ∀ p, opener es = some p → m.items p = stored p es
  /-- Its entries are within the storage. -/
  le : ∀ p, opener es = some p → (m.items p).length ≤ m.cap
  /-- There is room where it was asked for. -/
  lt : ∀ p, opener es = some p → lastOf p es = some (.grow p) → (m.items p).length < m.cap
  /-- The writes outside of the storage. -/
  overrun : m.overrun = false ↔ OneOwner es

lemma Held.start : Held ([] : List (Event P α)) {} where
  cap_pos := by simp [opener]
  others := fun _ _ => ⟨rfl, rfl⟩
  alloc := by simp [opener]
  items := by simp [opener]
  le := by simp [opener]
  lt := by simp [opener]
  overrun := by simp [OneOwner]

/-- The first request. -/
lemma Held.grow_first {first : ℕ} (hfirst : 0 < first) {es : List (Event P α)} {m : Cells P α}
    (h : Held es m) (hes : Asked es) (hnone : opener es = none) (p : P) :
    Held (es ++ [.grow p]) (m.grow first p) := by
  have hcap : m.cap = 0 := by
    by_contra hc
    exact h.cap_pos.mp (Nat.pos_of_ne_zero hc) hnone
  have hitems : ∀ q, m.items q = [] := fun q => (h.others q (by simp [hnone])).2
  have hm : m.grow first p =
      { m with cap := first, alloc := Function.update m.alloc p first } := by
    simp [Cells.grow, hcap, hitems p]
  have hop : opener (es ++ [.grow p]) = some p := by rw [opener_grow, hnone, Option.none_or]
  have hstored : ∀ q, stored q es = [] := by
    intro q
    rw [stored, List.filterMap_eq_nil_iff]
    intro ev hev
    cases ev with
    | grow q' => rfl
    | store q' e => exact absurd hev (hes.store_not_mem hnone q' e)
  rw [hm]
  constructor
  · simpa [hop] using hfirst
  · intro q hq
    have hqp : q ≠ p := fun hqp => hq (hqp ▸ hop)
    exact ⟨by simpa [hqp] using (h.others q (by simp [hnone])).1, hitems q⟩
  · intro q hq
    obtain rfl : p = q := Option.some_inj.mp (hop.symm.trans hq)
    simp
  · intro q _
    rw [stored_grow, hstored]
    exact hitems q
  · intro q _
    simp [hitems q]
  · intro q _ _
    simpa [hitems q] using hfirst
  · have hone : OneOwner (es ++ [.grow p]) := fun q e hmem =>
      absurd (by simpa using hmem) (hes.store_not_mem hnone q e)
    have hone' : OneOwner es := fun q e hmem => absurd hmem (hes.store_not_mem hnone q e)
    exact iff_of_true (h.overrun.mpr hone') hone

/-- A request after the first keeps the lists as they are. -/
lemma Held.keep {es : List (Event P α)} {m m' : Cells P α} (h : Held es m) {x : P}
    (hx : opener es = some x) (p : P) (hitems : m'.items = m.items)
    (hover : m'.overrun = m.overrun) (hcap : m.cap ≤ m'.cap) (halloc : m'.alloc x = m'.cap)
    (hothers : ∀ q, q ≠ x → m'.alloc q = m.alloc q)
    (hroom : p = x → (m.items x).length < m'.cap) : Held (es ++ [.grow p]) m' := by
  have hpos : 0 < m.cap := h.cap_pos.mpr (by simp [hx])
  have hop : opener (es ++ [.grow p]) = some x := by rw [opener_grow, hx, Option.some_or]
  constructor
  · simpa [hop] using Nat.lt_of_lt_of_le hpos hcap
  · intro q hq
    rw [hop] at hq
    rw [hothers q fun hqx => hq (hqx ▸ rfl), hitems]
    exact h.others q (by rwa [hx])
  · intro q hq
    obtain rfl : x = q := Option.some_inj.mp (hop.symm.trans hq)
    exact halloc
  · intro q hq
    rw [stored_grow, hitems]
    exact h.items q (by rwa [hop, ← hx] at hq)
  · intro q hq
    rw [hitems]
    exact Nat.le_trans (h.le q (by rwa [hop, ← hx] at hq)) hcap
  · intro q hq hlast
    obtain rfl : x = q := Option.some_inj.mp (hop.symm.trans hq)
    rw [hitems]
    by_cases hpx : p = x
    · exact hroom hpx
    · have hown : (Event.grow p : Event P α).owner ≠ x := hpx
      rw [lastOf_of_ne es hown] at hlast
      exact Nat.lt_of_lt_of_le (h.lt x hx hlast) hcap
  · rw [hover]
    refine h.overrun.trans ?_
    simp only [OneOwner, hop, hx, List.mem_append, List.mem_singleton, reduceCtorEq, or_false]

/-- A later request. -/
lemma Held.grow_later (first : ℕ) {es : List (Event P α)} {m : Cells P α} (h : Held es m) {x : P}
    (hx : opener es = some x) (p : P) : Held (es ++ [.grow p]) (m.grow first p) := by
  have hpos : 0 < m.cap := h.cap_pos.mpr (by simp [hx])
  by_cases hfull : (m.items p).length = m.cap
  · have hpx : p = x := by
      by_contra hpx
      have := (h.others p (by rw [hx]; exact fun he => hpx (Option.some_inj.mp he).symm)).2
      rw [this] at hfull
      exact Nat.ne_of_lt hpos hfull
    subst hpx
    have hm : m.grow first p =
        { m with cap := m.cap * 2, alloc := Function.update m.alloc p (m.cap * 2) } := by
      simp [Cells.grow, hfull, Nat.ne_of_gt hpos]
    rw [hm]
    refine h.keep hx p rfl rfl (Nat.le_mul_of_pos_right _ Nat.zero_lt_two) (by simp) ?_ ?_
    · exact fun q hq => by simp [hq]
    · intro _
      show (m.items p).length < m.cap * 2
      omega
  · have hm : m.grow first p = m := if_neg hfull
    rw [hm]
    refine h.keep hx p rfl rfl (Nat.le_refl _) (h.alloc x hx) (fun _ _ => rfl) ?_
    intro hpx
    rw [hpx] at hfull
    exact Nat.lt_of_le_of_ne (h.le x hx) hfull

/-- An entry for the opener. -/
lemma Held.store_opener {es : List (Event P α)} {m : Cells P α} (h : Held es m) {p : P}
    (hp : opener es = some p) (hlast : lastOf p es = some (.grow p)) (e : α) :
    Held (es ++ [.store p e]) (m.store p e) := by
  have hlt := h.lt p hp hlast
  have hm : m.store p e = { m with items := Function.update m.items p (m.items p ++ [e]) } :=
    if_pos (by rwa [h.alloc p hp])
  have hop : opener (es ++ [.store p e]) = some p := by rw [opener_store, hp]
  rw [hm]
  constructor
  · rw [hop]
    simpa [hp] using h.cap_pos
  · intro q hq
    rw [hop] at hq
    have hqp : q ≠ p := fun hqp => hq (hqp ▸ rfl)
    simpa [hqp] using h.others q (by rwa [hp])
  · exact fun q hq => h.alloc q (by rwa [hop, ← hp] at hq)
  · intro q hq
    obtain rfl : p = q := Option.some_inj.mp (hop.symm.trans hq)
    simp [stored_store_self, h.items p hp]
  · intro q hq
    obtain rfl : p = q := Option.some_inj.mp (hop.symm.trans hq)
    simpa [Nat.succ_le_iff] using hlt
  · intro q hq hgrow
    obtain rfl : p = q := Option.some_inj.mp (hop.symm.trans hq)
    have := (lastOf_self es (.store p e)).symm.trans hgrow
    cases this
  · refine h.overrun.trans ?_
    simp only [OneOwner, hop, hp]
    constructor
    · intro hall q e' hmem
      rcases List.mem_append.mp hmem with hmem | hmem
      · exact hall q e' hmem
      · obtain ⟨rfl, -⟩ := Event.store.inj (List.mem_singleton.mp hmem)
        rfl
    · exact fun hall q e' hmem => hall q e' (List.mem_append_left _ hmem)

/-- An entry for another owner. -/
lemma Held.store_other {es : List (Event P α)} {m : Cells P α} (h : Held es m) {p : P}
    (hp : opener es ≠ some p) (e : α) : Held (es ++ [.store p e]) (m.store p e) := by
  have hm : m.store p e = { m with overrun := true } := by
    have := (h.others p hp).1
    exact if_neg (by simp [this])
  have hop : opener (es ++ [.store p e]) = opener es := opener_store es p e
  rw [hm]
  constructor
  · rw [hop]
    exact h.cap_pos
  · exact fun q hq => h.others q (by rwa [hop] at hq)
  · exact fun q hq => h.alloc q (by rwa [hop] at hq)
  · intro q hq
    rw [hop] at hq
    rw [stored_store_of_ne (fun he => hp (by rw [he, hq]))]
    exact h.items q hq
  · exact fun q hq => h.le q (by rwa [hop] at hq)
  · intro q hq hlast
    rw [hop] at hq
    have hpq : (Event.store p e).owner ≠ q := fun he => hp (by rw [hq, ← he]; rfl)
    rw [lastOf_of_ne es hpq] at hlast
    exact h.lt q hq hlast
  · refine iff_of_false (by simp) fun hone => hp ?_
    have := hone p e (List.mem_append_right _ (List.mem_singleton_self _))
    rwa [hop] at this

/-- What every run keeps. -/
theorem held_run {first : ℕ} (hfirst : 0 < first) {es : List (Event P α)} (hes : Asked es) :
    Held es (run first es) := by
  induction hes with
  | nil => exact Held.start
  | @grow es hes p ih =>
    rw [run_append]
    cases hop : opener es with
    | none => exact ih.grow_first hfirst hes hop p
    | some x => exact ih.grow_later first hop p
  | @store es hes p hp e ih =>
    rw [run_append]
    by_cases hop : opener es = some p
    · exact ih.store_opener hop hp e
    · exact ih.store_other hop e

/-- Every write is within the storage of its list exactly if all entries are the opener's. -/
theorem fits_iff {first : ℕ} (hfirst : 0 < first) {es : List (Event P α)} (hes : Asked es) :
    (run first es).overrun = false ↔ OneOwner es := (held_run hfirst hes).overrun

/-- Where every write is within the storage the lists hold what was stored. -/
theorem items_eq {first : ℕ} (hfirst : 0 < first) {es : List (Event P α)} (hes : Asked es)
    (hone : OneOwner es) (p : P) : (run first es).items p = stored p es := by
  by_cases hp : opener es = some p
  · exact (held_run hfirst hes).items p hp
  · rw [((held_run hfirst hes).others p hp).2]
    symm
    rw [List.eq_nil_iff_forall_not_mem]
    intro e he
    obtain ⟨ev, hmem, hev⟩ := List.mem_filterMap.mp he
    cases ev with
    | grow q => cases hev
    | store q e' =>
      obtain ⟨rfl, -⟩ : q = p ∧ e' = e := by simpa using hev
      exact hp (hone q e' hmem)

end Owners

end SharedCap
