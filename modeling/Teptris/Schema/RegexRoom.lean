import Teptris.Schema.RegexClassText
import Teptris.Schema.Value

/-!
# The buffer of a class

`rclass` keeps `cap` for the literals it adds; shorthands take no room, and a property brings a
buffer of its own that `cap` does not know.  The writes stay below the reserved capacity exactly
when the members of each class fit in this sense (`classWrites_inRange_iff`).
-/

namespace Teptris

/-! ## Writing several ranges -/

/-- Ranges appended one after the other. -/
def Cls.pushAll (cl : Cls) (rs : List RaRange) : Cls := rs.foldl (fun cl r => cl.push r.lo r.hi) cl

lemma pushAll_nil (cl : Cls) : cl.pushAll [] = cl := rfl

lemma pushAll_cons (cl : Cls) (r : RaRange) (rs : List RaRange) :
    cl.pushAll (r :: rs) = (cl.push r.lo r.hi).pushAll rs := rfl

lemma pushAll_append (cl : Cls) (rs rs' : List RaRange) :
    cl.pushAll (rs ++ rs') = (cl.pushAll rs).pushAll rs' := List.foldl_append

@[simp] lemma pushAll_ranges (cl : Cls) (rs : List RaRange) :
    (cl.pushAll rs).ranges = cl.ranges ++ rs := by
  induction rs generalizing cl with
  | nil => simp [pushAll_nil]
  | cons r rs ih => simp [pushAll_cons, ih, Cls.push]

@[simp] lemma pushAll_room (cl : Cls) (rs : List RaRange) : (cl.pushAll rs).room = cl.room := by
  induction rs generalizing cl with
  | nil => rfl
  | cons r rs ih => simp [pushAll_cons, ih, Cls.push]

/-- What was written behind the buffer stays written. -/
lemma pushAll_overrun {cl : Cls} (h : cl.overrun = true) (rs : List RaRange) :
    (cl.pushAll rs).overrun = true := by
  induction rs generalizing cl with
  | nil => exact h
  | cons r rs ih => exact ih (by simp [Cls.push, h])

/-- From a buffer in order, some more ranges stay in it exactly when there is room for them. -/
lemma pushAll_overrun_iff (cl : Cls) (rs : List RaRange) (h : cl.ranges.length ≤ cl.room) :
    (cl.pushAll rs).overrun = false ↔
      cl.overrun = false ∧ cl.ranges.length + rs.length ≤ cl.room := by
  induction rs generalizing cl with
  | nil => simp [pushAll_nil, h]
  | cons r rs ih =>
    by_cases hroom : cl.ranges.length + 1 ≤ cl.room
    · have hlen : (cl.push r.lo r.hi).ranges.length ≤ (cl.push r.lo r.hi).room := by
        simpa [Cls.push] using hroom
      have hlt : ¬ cl.room ≤ cl.ranges.length := by omega
      rw [pushAll_cons, ih _ hlen]
      simp only [Cls.push, Bool.or_eq_false_iff, decide_eq_false_iff_not, hlt, not_false_eq_true,
        and_true, List.length_append, List.length_cons, List.length_nil]
      exact and_congr_right fun _ => by omega
    · have hp : (cl.push r.lo r.hi).overrun = true := by
        have hle : cl.room ≤ cl.ranges.length := by omega
        simp [Cls.push, hle]
      rw [pushAll_cons, pushAll_overrun hp]
      simp only [Bool.true_eq_false, List.length_cons, false_iff, not_and]
      omega

/-! ## What a member adds -/

/-- The mirrored letters of a range. -/
def mirrored (first last : ℕ) (move : ℕ → ℕ) (lo hi : ℕ) : List RaRange :=
  if max lo first ≤ min hi last then [⟨move (max lo first), move (min hi last)⟩] else []

/-- The ranges of a range under the fold flag. -/
def spanRanges (fold : Bool) (lo hi : ℕ) : List RaRange :=
  (if fold then mirrored 'A'.toNat 'Z'.toNat foldCp lo hi ++
    mirrored 'a'.toNat 'z'.toNat (· - 32) lo hi else []) ++ [⟨lo, hi⟩]

/-- The ranges of a single code point under the fold flag. -/
def oneRanges (fold : Bool) (cp : ℕ) : List RaRange :=
  if fold ∧ 'A'.toNat ≤ cp ∧ cp ≤ 'Z'.toNat then [⟨cp, cp⟩, ⟨foldCp cp, foldCp cp⟩]
  else if fold ∧ 'a'.toNat ≤ cp ∧ cp ≤ 'z'.toNat then [⟨foldCp cp, foldCp cp⟩, ⟨cp, cp⟩]
  else [⟨cp, cp⟩]

/-- The gaps of some ranges from `expect` on. -/
def gapsFrom (expect : ℕ) : List RaRange → List RaRange
  | [] => if expect < 0x110000 then [⟨expect, 0x110000 - 1⟩] else []
  | r :: rs =>
    (if expect < r.lo then [⟨expect, r.lo - 1⟩] else []) ++ gapsFrom (max expect (r.hi + 1)) rs

/-- The ranges of a shorthand, which are those of its positive form. -/
def shorthandRanges (fold : Bool) (e : ℕ) : List RaRange :=
  if e = 'd'.toNat ∨ e = 'D'.toNat then [⟨'0'.toNat, '9'.toNat⟩]
  else if e = 'w'.toNat ∨ e = 'W'.toNat then
    spanRanges fold 'a'.toNat 'z'.toNat ++ spanRanges fold 'A'.toNat 'Z'.toNat ++
      spanRanges fold '0'.toNat '9'.toNat ++ spanRanges fold '_'.toNat '_'.toNat
  else [' '.toNat, 0x09, 0x0A, 0x0D, 0x0C, 0x0B].flatMap (oneRanges fold)

/-- The ranges of a property or of its complement. -/
def propertyRanges (p : UcProp) (negate : Bool) : List RaRange :=
  if negate then gapsFrom 0 p.ranges else p.ranges

/-- The ranges a member adds. -/
def ClassMember.added (fold : Bool) : ClassMember → List RaRange
  | .one cp => oneRanges fold cp
  | .span lo hi => spanRanges fold lo hi
  | .shorthand e => shorthandRanges fold e
  | .property p negate => propertyRanges p negate

lemma mirror_pushAll (cl : Cls) (first last : ℕ) (move : ℕ → ℕ) (lo hi : ℕ) :
    cl.mirror first last move lo hi = cl.pushAll (mirrored first last move lo hi) := by
  have hlo : (if lo < first then first else lo) = max lo first := by
    split_ifs <;> omega
  have hhi : (if last < hi then last else hi) = min hi last := by
    split_ifs <;> omega
  unfold Cls.mirror mirrored
  simp only [hlo, hhi]
  by_cases h : max lo first ≤ min hi last
  · have hmeet : lo ≤ last ∧ first ≤ hi := by omega
    rw [if_pos hmeet, if_pos h, if_pos h]
    rfl
  · rw [if_neg h, if_neg h, ite_self]
    rfl

lemma clsAdd_pushAll (fold : Bool) (cl : Cls) (lo hi : ℕ) :
    clsAdd fold cl lo hi = cl.pushAll (spanRanges fold lo hi) := by
  unfold clsAdd spanRanges
  cases fold with
  | false => rfl
  | true =>
    simp only [if_true]
    rw [mirror_pushAll, mirror_pushAll, pushAll_append, pushAll_append]
    rfl

lemma clsAddCp_pushAll (fold : Bool) (cl : Cls) (cp : ℕ) :
    clsAddCp fold cl cp = cl.pushAll (oneRanges fold cp) := by
  unfold clsAddCp oneRanges
  split_ifs <;> rfl

lemma complementFrom_pushAll (rs : List RaRange) (cl : Cls) (expect : ℕ) :
    complementFrom cl expect rs = cl.pushAll (gapsFrom expect rs) := by
  induction rs generalizing cl expect with
  | nil =>
    unfold complementFrom gapsFrom
    split_ifs <;> rfl
  | cons r rs ih =>
    have hmax : (if expect < r.hi + 1 then r.hi + 1 else expect) = max expect (r.hi + 1) := by
      split_ifs <;> omega
    rw [complementFrom, gapsFrom, ih, pushAll_append, hmax]
    split_ifs <;> rfl

lemma clsShorthand_pushAll (fold : Bool) (cl : Cls) (e : ℕ) :
    clsShorthand fold cl e = cl.pushAll (shorthandRanges fold e) := by
  unfold clsShorthand shorthandRanges
  split_ifs
  · rfl
  · simp only [clsAdd_pushAll, pushAll_append]
  · simp only [List.foldl_cons, List.foldl_nil, List.flatMap_cons, List.flatMap_nil,
      clsAddCp_pushAll, ← pushAll_append, List.append_nil, List.append_assoc]

/-- The room `prop_escape` reserves for a property. -/
def propertyRoom (p : UcProp) (negate : Bool) : ℕ :=
  (if negate then 2 * p.ranges.length else p.ranges.length) + 8

lemma addProperty_pushAll (cl : Cls) (p : UcProp) (negate : Bool) :
    cl.addProperty p negate =
      (cl.reserve (propertyRoom p negate)).pushAll (propertyRanges p negate) := by
  unfold Cls.addProperty propertyRanges propertyRoom
  cases negate with
  | true => exact complementFrom_pushAll _ _ _
  | false => rfl

/-! ## The members fit -/

/-- How many ranges a member adds: one, and under the fold flag one more for a letter and for each
case a range meets; shorthands and properties as many as they have. -/
def ClassMember.width (fold : Bool) : ClassMember → ℕ
  | .one cp =>
    if fold ∧ (('A'.toNat ≤ cp ∧ cp ≤ 'Z'.toNat) ∨ ('a'.toNat ≤ cp ∧ cp ≤ 'z'.toNat)) then 2 else 1
  | .span lo hi =>
    1 + (if fold ∧ max lo 'A'.toNat ≤ min hi 'Z'.toNat then 1 else 0) +
      if fold ∧ max lo 'a'.toNat ≤ min hi 'z'.toNat then 1 else 0
  | .shorthand e =>
    if e = 'd'.toNat ∨ e = 'D'.toNat then 1
    else if e = 'w'.toNat ∨ e = 'W'.toNat then (if fold then 6 else 4)
    else 6
  | .property p negate => (propertyRanges p negate).length

lemma added_length (fold : Bool) (m : ClassMember) : (m.added fold).length = m.width fold := by
  cases m with
  | one cp =>
    unfold ClassMember.added ClassMember.width oneRanges
    split_ifs <;> first | rfl | grind
  | span lo hi =>
    unfold ClassMember.added ClassMember.width spanRanges mirrored
    cases fold with
    | false => simp
    | true =>
      simp only [if_true, true_and, List.length_append]
      split_ifs <;> rfl
  | shorthand e =>
    simp only [ClassMember.added, ClassMember.width, shorthandRanges]
    by_cases hd : e = 'd'.toNat ∨ e = 'D'.toNat
    · rw [if_pos hd, if_pos hd]
      rfl
    by_cases hw : e = 'w'.toNat ∨ e = 'W'.toNat
    · rw [if_neg hd, if_neg hd, if_pos hw, if_pos hw]
      cases fold <;> rfl
    · rw [if_neg hd, if_neg hd, if_neg hw, if_neg hw]
      cases fold <;> rfl
  | property p negate => rfl

/-- `cap` and the capacity after the reservation made for a member, with `n` ranges in the
buffer: a literal or a range doubles `cap` when it is nearly used up, a shorthand takes what
there is, a property brings a buffer of its own size. -/
def ClassMember.reserved (n cap room : ℕ) : ClassMember → ℕ × ℕ
  | .shorthand _ => (cap, room)
  | .property p negate => (cap, propertyRoom p negate)
  | _ => if cap ≤ n + 2 then (cap * 2, cap * 2) else (cap, room)

/-- The members fit, each in the capacity reserved last, behind `n` ranges. -/
def MembersFit (fold : Bool) : ℕ → ℕ → ℕ → List ClassMember → Prop
  | _, _, _, [] => True
  | n, cap, room, m :: ms =>
    let r := m.reserved n cap room
    n + m.width fold ≤ r.2 ∧ MembersFit fold (n + m.width fold) r.1 r.2 ms

/-- From a new buffer. -/
lemma reserve_pushAll_overrun_iff (cl : Cls) (cap : ℕ) (rs : List RaRange) :
    ((cl.reserve cap).pushAll rs).overrun = false ↔
      cl.overrun = false ∧ cl.ranges.length + rs.length ≤ cap := by
  by_cases h : cl.ranges.length ≤ cap
  · rw [pushAll_overrun_iff _ _ h]
    have hlt : ¬ cap < cl.ranges.length := by omega
    simp [Cls.reserve, hlt]
  · have hover : (cl.reserve cap).overrun = true := by
      have hlt : cap < cl.ranges.length := by omega
      simp [Cls.reserve, hlt]
    rw [pushAll_overrun hover]
    simp only [Bool.true_eq_false, false_iff, not_and]
    omega

lemma grow_ranges (b : ClsRoom) : b.grow.cl.ranges = b.cl.ranges := by
  unfold ClsRoom.grow
  split_ifs <;> rfl

/-- The ranges of a member stand behind those that were there. -/
lemma add_ranges (fold : Bool) (b : ClsRoom) (m : ClassMember) :
    (b.add fold m).cl.ranges = b.cl.ranges ++ m.added fold := by
  cases m with
  | one cp =>
    change (clsAddCp fold b.grow.cl cp).ranges = _
    rw [clsAddCp_pushAll, pushAll_ranges, grow_ranges]
    rfl
  | span lo hi =>
    change (clsAdd fold b.grow.cl lo hi).ranges = _
    rw [clsAdd_pushAll, pushAll_ranges, grow_ranges]
    rfl
  | shorthand e =>
    change (clsShorthand fold b.cl e).ranges = _
    rw [clsShorthand_pushAll, pushAll_ranges]
    rfl
  | property p negate =>
    change (b.cl.addProperty p negate).ranges = _
    rw [addProperty_pushAll, pushAll_ranges]
    rfl

lemma addAll_ranges (fold : Bool) (b : ClsRoom) (ms : List ClassMember) :
    (b.addAll fold ms).cl.ranges = b.cl.ranges ++ ms.flatMap (ClassMember.added fold) := by
  induction ms generalizing b with
  | nil => simp [ClsRoom.addAll]
  | cons m ms ih =>
    change ((b.add fold m).addAll fold ms).cl.ranges = _
    rw [ih, add_ranges, List.append_assoc, List.flatMap_cons]

/-- What one member does to a buffer in order. -/
structure Added (fold : Bool) (b : ClsRoom) (m : ClassMember) (b' : ClsRoom) : Prop where
  /-- The capacities. -/
  caps : (b'.cap, b'.cl.room) = m.reserved b.cl.ranges.length b.cap b.cl.room
  /-- No write is out of range if it fits. -/
  fits : b'.cl.overrun = false ↔ b.cl.overrun = false ∧
    b.cl.ranges.length + m.width fold ≤ (m.reserved b.cl.ranges.length b.cap b.cl.room).2

/-- A literal or a range. -/
lemma grow_pushAll (b : ClsRoom) (rs : List RaRange) (h : b.cl.ranges.length ≤ b.cl.room) :
    let r := if b.cap ≤ b.cl.ranges.length + 2 then (b.cap * 2, b.cap * 2) else (b.cap, b.cl.room)
    (b.grow.cap, (b.grow.cl.pushAll rs).room) = r ∧
      ((b.grow.cl.pushAll rs).overrun = false ↔
        b.cl.overrun = false ∧ b.cl.ranges.length + rs.length ≤ r.2) := by
  unfold ClsRoom.grow
  split_ifs with hcap
  · exact ⟨by simp [Cls.reserve], reserve_pushAll_overrun_iff _ _ _⟩
  · exact ⟨by simp, pushAll_overrun_iff _ _ h⟩

lemma add_added (fold : Bool) (b : ClsRoom) (m : ClassMember)
    (h : b.cl.ranges.length ≤ b.cl.room) : Added fold b m (b.add fold m) := by
  have hlen := added_length fold m
  cases m with
  | one cp =>
    obtain ⟨h₂, h₃⟩ := grow_pushAll b (oneRanges fold cp) h
    rw [← clsAddCp_pushAll] at h₂ h₃
    exact ⟨h₂, by rw [← hlen]; exact h₃⟩
  | span lo hi =>
    obtain ⟨h₂, h₃⟩ := grow_pushAll b (spanRanges fold lo hi) h
    rw [← clsAdd_pushAll] at h₂ h₃
    exact ⟨h₂, by rw [← hlen]; exact h₃⟩
  | shorthand e =>
    have h₂ := pushAll_room b.cl (shorthandRanges fold e)
    have h₃ := pushAll_overrun_iff b.cl (shorthandRanges fold e) h
    rw [← clsShorthand_pushAll] at h₂ h₃
    exact ⟨by rw [← h₂]; rfl, by rw [← hlen]; exact h₃⟩
  | property p negate =>
    have h₂ := pushAll_room (b.cl.reserve (propertyRoom p negate)) (propertyRanges p negate)
    have h₃ := reserve_pushAll_overrun_iff b.cl (propertyRoom p negate) (propertyRanges p negate)
    rw [← addProperty_pushAll] at h₂ h₃
    exact ⟨congrArg (Prod.mk b.cap) h₂, h₃⟩

/-- What was written behind the buffer stays written. -/
lemma add_overrun {fold : Bool} {b : ClsRoom} (h : b.cl.overrun = true) (m : ClassMember) :
    (b.add fold m).cl.overrun = true := by
  have hreserve : ∀ cap, (b.cl.reserve cap).overrun = true := by
    intro cap
    simp [Cls.reserve, h]
  have hgrow : b.grow.cl.overrun = true := by
    unfold ClsRoom.grow
    split_ifs
    · exact hreserve _
    · exact h
  cases m with
  | one cp =>
    change (clsAddCp fold b.grow.cl cp).overrun = true
    rw [clsAddCp_pushAll]
    exact pushAll_overrun hgrow _
  | span lo hi =>
    change (clsAdd fold b.grow.cl lo hi).overrun = true
    rw [clsAdd_pushAll]
    exact pushAll_overrun hgrow _
  | shorthand e =>
    change (clsShorthand fold b.cl e).overrun = true
    rw [clsShorthand_pushAll]
    exact pushAll_overrun h _
  | property p negate =>
    change (b.cl.addProperty p negate).overrun = true
    rw [addProperty_pushAll]
    exact pushAll_overrun (hreserve _) _

lemma addAll_overrun {fold : Bool} {b : ClsRoom} (h : b.cl.overrun = true)
    (ms : List ClassMember) : (b.addAll fold ms).cl.overrun = true := by
  induction ms generalizing b with
  | nil => exact h
  | cons m ms ih => exact ih (add_overrun h m)

/-- The members of a class are written in range exactly when they fit. -/
theorem addAll_overrun_iff (fold : Bool) (ms : List ClassMember) :
    ∀ b : ClsRoom, b.cl.ranges.length ≤ b.cl.room →
      ((b.addAll fold ms).cl.overrun = false ↔
        b.cl.overrun = false ∧ MembersFit fold b.cl.ranges.length b.cap b.cl.room ms) := by
  induction ms with
  | nil => exact fun b _ => ⟨fun h => ⟨h, trivial⟩, fun h => h.1⟩
  | cons m ms ih =>
    intro b h
    obtain ⟨hcaps, hfits⟩ := add_added fold b m h
    have hlen : (b.add fold m).cl.ranges.length = b.cl.ranges.length + m.width fold := by
      rw [add_ranges, List.length_append, added_length]
    have hroom : (b.add fold m).cl.room = (m.reserved b.cl.ranges.length b.cap b.cl.room).2 :=
      congrArg Prod.snd hcaps
    have hcap : (b.add fold m).cap = (m.reserved b.cl.ranges.length b.cap b.cl.room).1 :=
      congrArg Prod.fst hcaps
    change ((b.add fold m).addAll fold ms).cl.overrun = false ↔ _
    by_cases hm : b.cl.ranges.length + m.width fold ≤
        (m.reserved b.cl.ranges.length b.cap b.cl.room).2
    · rw [ih (b.add fold m) (by omega), hfits, hlen, hroom, hcap]
      simp only [MembersFit, hm, and_true, true_and]
    · have hover : (b.add fold m).cl.overrun = true := by
        by_contra hno
        exact hm (hfits.mp (by simpa using hno)).2
      rw [addAll_overrun hover]
      simp [MembersFit, hm]

/-! ## Escapes outside brackets -/

lemma gapsFrom_length (rs : List RaRange) (expect : ℕ) :
    (gapsFrom expect rs).length ≤ rs.length + 1 := by
  induction rs generalizing expect with
  | nil =>
    unfold gapsFrom
    split_ifs <;> simp
  | cons r rs ih =>
    have hrest := ih (max expect (r.hi + 1))
    rw [gapsFrom, List.length_append, List.length_cons]
    split_ifs
    · simp only [List.length_cons, List.length_nil]
      omega
    · simp only [List.length_nil]
      omega

/-- A property fits in the buffer it brings. -/
lemma propertyRanges_length (p : UcProp) (negate : Bool) :
    (propertyRanges p negate).length ≤ propertyRoom p negate := by
  unfold propertyRanges propertyRoom
  have hgaps := gapsFrom_length p.ranges 0
  cases negate with
  | true =>
    simp only [if_true]
    omega
  | false => simp

lemma shorthand_width_le (fold : Bool) (e : ℕ) :
    (ClassMember.shorthand e).width fold ≤ 6 := by
  unfold ClassMember.width
  simp only
  split_ifs <;> omega

/-- A shorthand outside brackets is written in range. -/
lemma ratomEscape_shorthand (table : List UcProp) {c : PCtx} {e : ℕ} {s : List ℕ}
    (hs : c.s = e :: s) (he : e ∈ ['d', 'w', 's', 'D', 'W', 'S'].map Char.toNat) :
    ratomEscape table c =
      (some (.cls (shorthandRanges c.fold e) (e ∈ ['D', 'W', 'S'].map Char.toNat)),
        { c with s := s }) := by
  have hwidth := shorthand_width_le c.fold e
  rw [← added_length] at hwidth
  have hfit : (clsShorthand c.fold (Cls.new.reserve 8) e).overrun = false := by
    rw [clsShorthand_pushAll, reserve_pushAll_overrun_iff]
    refine ⟨rfl, ?_⟩
    simp only [Cls.new, List.length_nil]
    change (shorthandRanges c.fold e).length ≤ 6 at hwidth
    omega
  have hranges : (clsShorthand c.fold (Cls.new.reserve 8) e).ranges = shorthandRanges c.fold e := by
    rw [clsShorthand_pushAll, pushAll_ranges]
    rfl
  unfold ratomEscape
  simp only [hs, if_pos he, hfit, hranges, Bool.or_false]

/-- A property outside brackets is written in range. -/
lemma ratomEscape_property (table : List UcProp) {c : PCtx} {e : ℕ} {s : List ℕ}
    (hs : c.s = e :: s) (he : e = 'p'.toNat ∨ e = 'P'.toNat) :
    ∃ c' : PCtx, ReadsOn c c' ∧ (ratomEscape table c = (none, c') ∨
      ∃ q, (propText table s (e = 'P'.toNat)).1 = some q ∧
        ratomEscape table c = (some (.cls (propertyRanges q.1 q.2) false), c')) := by
  have hne : e ∉ ['d', 'w', 's', 'D', 'W', 'S'].map Char.toNat := by
    rcases he with rfl | rfl <;> decide
  obtain ⟨err, hnone, -, hprop⟩ := propEscape_text table { c with s := s } .new (e = 'P'.toNat)
  simp only at hnone hprop
  unfold ratomEscape
  simp only [hs, if_neg hne, if_pos he, hprop]
  cases hq : (propText table s (e = 'P'.toNat)).1 with
  | none =>
    rw [if_pos (hnone hq)]
    exact ⟨{ c with s := (propText table s (e = 'P'.toNat)).2, err := err }, ⟨rfl, rfl⟩, .inl rfl⟩
  | some q =>
    have hfit : (Cls.new.addProperty q.1 q.2).overrun = false := by
      rw [addProperty_pushAll, reserve_pushAll_overrun_iff]
      have hlen := propertyRanges_length q.1 q.2
      exact ⟨rfl, by simpa [Cls.new] using hlen⟩
    have hranges : (Cls.new.addProperty q.1 q.2).ranges = propertyRanges q.1 q.2 := by
      rw [addProperty_pushAll, pushAll_ranges]
      rfl
    split_ifs
    · exact ⟨{ c with s := (propText table s (e = 'P'.toNat)).2, err := err }, ⟨rfl, rfl⟩, .inl rfl⟩
    · refine ⟨{ c with s := (propText table s (e = 'P'.toNat)).2, err := err }, ⟨rfl, rfl⟩, .inr ?_⟩
      refine ⟨q, rfl, ?_⟩
      simp only [Option.elim_some, hfit, hranges, Bool.or_false]

/-- Another escape outside brackets writes nothing. -/
lemma ratomEscape_other (table : List UcProp) {c : PCtx}
    (hsh : ∀ e ∈ c.s.head?, e ∉ ['d', 'w', 's', 'D', 'W', 'S'].map Char.toNat)
    (hp : ∀ e ∈ c.s.head?, ¬ (e = 'p'.toNat ∨ e = 'P'.toNat)) :
    ∃ c' : PCtx, ReadsOn c c' ∧ (ratomEscape table c = (none, c') ∨
      ratomEscape table c = (some .wordb, c') ∨ ratomEscape table c = (some .nwordb, c') ∨
        ∃ v s', unitText table '\\'.toNat c.s = some (.cp v, s') ∧
          ratomEscape table c = (some (escapedAtom c.fold v), c')) := by
  unfold ratomEscape
  cases hs : c.s with
  | nil => exact ⟨c.pfail "trailing backslash in pattern", ⟨rfl, rfl⟩, .inl rfl⟩
  | cons e s =>
    have hsh' : e ∉ ['d', 'w', 's', 'D', 'W', 'S'].map Char.toNat := hsh e (by rw [hs]; rfl)
    have hp' := hp e (by rw [hs]; rfl)
    simp only [if_neg hsh', if_neg hp']
    by_cases hb : e = 'b'.toNat
    · simp only [if_pos hb]
      exact ⟨{ c with s := s }, ⟨rfl, rfl⟩, .inr (.inl rfl)⟩
    by_cases hB : e = 'B'.toNat
    · simp only [if_neg hb, if_pos hB]
      exact ⟨{ c with s := s }, ⟨rfl, rfl⟩, .inr (.inr (.inl rfl))⟩
    simp only [if_neg hb, if_neg hB]
    have hsh'' : e ∉ ['d', 'D', 'w', 'W', 's', 'S'].map Char.toNat := by
      intro h
      exact hsh' ((by decide : ['d', 'D', 'w', 'W', 's', 'S'].map Char.toNat ⊆
        ['d', 'w', 's', 'D', 'W', 'S'].map Char.toNat) h)
    have hc : c = { c with s := e :: s } := by rw [← hs]
    obtain ⟨err, hesc⟩ := @classEscape_text table e hsh'' hp' c s .new
    have hne := @classEscape_ne_shorthand table e hsh'' hp' s
    rw [← hc] at hesc
    unfold unitText
    simp only [hesc, ne_eq, not_true_eq_false, if_false, if_neg hsh'', if_neg hp']
    generalize classEscape table { s := e :: s, fold := false, err := none, overrun := false }
      .new = q at hne ⊢
    rcases q with ⟨v | _ | _, cl', c'⟩
    · exact ⟨{ c with s := c'.s, err := err }, ⟨rfl, rfl⟩,
        .inr (.inr (.inr ⟨v, c'.s, rfl, rfl⟩))⟩
    · exact absurd rfl hne
    · exact ⟨{ c with s := c'.s, err := err }, ⟨rfl, rfl⟩, .inl rfl⟩

/-- Literals and ranges alone fit, however many there are. -/
theorem fits_of_literals {fold : Bool} {ms : List ClassMember}
    (h : ∀ m ∈ ms, (∃ cp, m = .one cp) ∨ ∃ lo hi, m = .span lo hi) {n cap : ℕ} (hcap : 8 ≤ cap)
    (hn : n ≤ cap) : MembersFit fold n cap cap ms := by
  induction ms generalizing n cap with
  | nil => trivial
  | cons m ms ih =>
    have hrest : ∀ m' ∈ ms, (∃ cp, m' = .one cp) ∨ ∃ lo hi, m' = .span lo hi :=
      fun m' hm' => h m' (by simp [hm'])
    have hwidth : m.width fold ≤ 3 := by
      rcases h m (by simp) with ⟨cp, rfl⟩ | ⟨lo, hi, rfl⟩
      · simp only [ClassMember.width]
        split_ifs <;> omega
      · simp only [ClassMember.width]
        split_ifs <;> omega
    have hres : m.reserved n cap cap = if cap ≤ n + 2 then (cap * 2, cap * 2) else (cap, cap) := by
      rcases h m (by simp) with ⟨cp, rfl⟩ | ⟨lo, hi, rfl⟩ <;> rfl
    rw [MembersFit, hres]
    split_ifs with hfull
    · exact ⟨by simp only; omega, ih hrest (by omega) (by simp only; omega)⟩
    · exact ⟨by simp only; omega, ih hrest hcap (by simp only; omega)⟩

/-! ## The classes of a pattern -/

/-- The members of the class whose opening bracket stands in front of `s`. -/
def membersOf (table : List UcProp) (s : List ℕ) : List ClassMember :=
  (classMembers table true (classBody s).2).1

/-- The class at a place is written in range: where the flag was clear, what is read there leaves
it clear.  A class without ranges, to which nothing was written, is let pass. -/
def ClassInRange (table : List UcProp) (c : PCtx) : Prop :=
  ∀ p, siteParse table { c with overrun := false } = some p → p.2.overrun = true →
    ∃ negated, p.1 = some (.cls [] negated)

lemma insertRange_ne_nil (r : RaRange) (rs : List RaRange) : insertRange r rs ≠ [] := by
  cases rs with
  | nil => simp [insertRange]
  | cons x xs =>
    rw [insertRange]
    split_ifs <;> simp

lemma mergeRanges_ne_nil (w : RaRange) (rs : List RaRange) : mergeRanges w rs ≠ [] := by
  induction rs generalizing w with
  | nil => simp [mergeRanges]
  | cons r rs ih =>
    rw [mergeRanges]
    split_ifs
    · exact ih _
    · exact ih _
    · exact List.cons_ne_nil _ _

/-- A class is empty after the sorting only if it was before. -/
lemma clsSortMerge_empty_iff (cl : Cls) :
    ((clsSortMerge cl).ranges = [] ↔ cl.ranges = []) ∧
      (cl.ranges ≠ [] → (clsSortMerge cl).overrun = cl.overrun) := by
  have hsorted : ∀ (rs sorted : List RaRange), rs.foldl (fun sorted r => insertRange r sorted)
      sorted = [] → rs = [] ∧ sorted = [] := by
    intro rs
    induction rs with
    | nil => exact fun sorted h => ⟨rfl, h⟩
    | cons r rs ih => exact fun sorted h => absurd (ih _ h).2 (insertRange_ne_nil _ _)
  unfold clsSortMerge
  cases hs : cl.ranges.foldl (fun sorted r => insertRange r sorted) [] with
  | nil =>
    obtain ⟨hnil, -⟩ := hsorted _ _ hs
    simp [hnil]
  | cons r rs =>
    have hne : cl.ranges ≠ [] := by
      intro h
      rw [h] at hs
      cases hs
    simp [hne, mergeRanges_ne_nil]

/-- Members that add nothing fit. -/
lemma fits_of_nothing {fold : Bool} {ms : List ClassMember} {cap room : ℕ}
    (h : ∀ m ∈ ms, m.width fold = 0) : MembersFit fold 0 cap room ms := by
  induction ms generalizing cap room with
  | nil => trivial
  | cons m ms ih =>
    have hm := h m (by simp)
    refine ⟨by omega, ?_⟩
    rw [hm]
    exact ih fun m' hm' => h m' (by simp [hm'])

/-- The flag at the end of a class, from a clear one. -/
lemma finish_inRange_iff {b : ClsRoom} (hempty : b.cl.ranges = [] → b.cl.overrun = false)
    (negated closed : Bool) {c : PCtx} (hc : c.overrun = false) :
    ((b.finish negated closed c).2.overrun = true →
      ∃ negated', (b.finish negated closed c).1 = some (.cls [] negated')) ↔
        b.cl.overrun = false := by
  obtain ⟨hnil, hover⟩ := clsSortMerge_empty_iff b.cl
  cases closed with
  | false => simp [ClsRoom.finish, hc]
  | true =>
    by_cases hb : b.cl.ranges = []
    · simp [ClsRoom.finish, hnil.mpr hb, hempty hb]
    · have hne : (clsSortMerge b.cl).ranges ≠ [] := fun h => hb (hnil.mp h)
      simp [ClsRoom.finish, hc, hover hb, hne]

/-- A class in brackets is written in range exactly when its members fit. -/
theorem classInRange_bracket_iff (table : List UcProp) {c : PCtx} {s : List ℕ}
    (hs : c.s = 0x5B :: s) :
    ClassInRange table c ↔ MembersFit c.fold 0 8 8 (membersOf table s) := by
  have hsite : siteParse table { c with overrun := false } =
      some (rclass table { c with s := s, overrun := false }) := by
    unfold siteParse
    simp only [hs, if_true]
  obtain ⟨c', hc', hclass⟩ := rclass_members table { c with s := s, overrun := false }
  have hfits := addAll_overrun_iff c.fold (membersOf table s)
    { cl := Cls.new.reserve 8, cap := 8 } (by decide)
  have hranges := addAll_ranges c.fold { cl := Cls.new.reserve 8, cap := 8 } (membersOf table s)
  have hfits' : (ClsRoom.addAll c.fold { cl := Cls.new.reserve 8, cap := 8 }
      (membersOf table s)).cl.overrun = false ↔ MembersFit c.fold 0 8 8 (membersOf table s) :=
    hfits.trans (and_iff_right rfl)
  have hempty : (ClsRoom.addAll c.fold { cl := Cls.new.reserve 8, cap := 8 }
      (membersOf table s)).cl.ranges = [] →
        (ClsRoom.addAll c.fold { cl := Cls.new.reserve 8, cap := 8 }
          (membersOf table s)).cl.overrun = false := by
    intro h
    rw [hranges] at h
    refine hfits'.mpr (fits_of_nothing fun m hm => ?_)
    have hm' := List.flatMap_eq_nil_iff.mp (List.append_eq_nil_iff.mp h).2 m hm
    rw [← added_length, hm', List.length_nil]
  have hfinish := finish_inRange_iff hempty (classBody s).1
    (classMembers table true (classBody s).2).2 hc'.overrun
  rw [← hfits', ← hfinish]
  unfold ClassInRange
  rw [hsite, hclass]
  exact ⟨fun h => h _ rfl, fun h p hp => Option.some.inj hp ▸ h⟩

/-- An escape outside brackets does nothing undefined. -/
lemma ratomEscape_readsOn (table : List UcProp) (c : PCtx) :
    ReadsOn c (ratomEscape table c).2 := by
  by_cases hsh : ∃ e s, c.s = e :: s ∧ e ∈ ['d', 'w', 's', 'D', 'W', 'S'].map Char.toNat
  · obtain ⟨e, s, hs, he⟩ := hsh
    rw [ratomEscape_shorthand table hs he]
    exact readsOn_read c s c.err
  by_cases hp : ∃ e s, c.s = e :: s ∧ (e = 'p'.toNat ∨ e = 'P'.toNat)
  · obtain ⟨e, s, hs, he⟩ := hp
    obtain ⟨c', hc', h | ⟨q, -, h⟩⟩ := ratomEscape_property table hs he <;> rw [h] <;> exact hc'
  · have hhead : ∀ e ∈ c.s.head?, ∃ s, c.s = e :: s := by
      intro e he
      cases hcs : c.s with
      | nil => simp [hcs] at he
      | cons x s => exact ⟨s, by simpa [hcs] using he⟩
    obtain ⟨c', hc', h | h | h | ⟨v, s', -, h⟩⟩ := ratomEscape_other table
      (fun e he hm => hsh ⟨e, (hhead e he).choose, (hhead e he).choose_spec, hm⟩)
      (fun e he hm => hp ⟨e, (hhead e he).choose, (hhead e he).choose_spec, hm⟩) <;>
      rw [h] <;> exact hc'

/-- Outside brackets classes are written in range. -/
lemma classInRange_of_not_bracket (table : List UcProp) {c : PCtx}
    (hs : c.s.head? ≠ some 0x5B) : ClassInRange table c := by
  intro p hp hover
  unfold siteParse at hp
  cases hcs : c.s with
  | nil =>
    simp only [hcs] at hp
    cases hp
  | cons ch s =>
    have hne : ch ≠ 0x5B := by simpa [hcs] using hs
    simp only [hcs, if_neg hne] at hp
    split_ifs at hp
    obtain rfl := Option.some.inj hp
    have hclear := (ratomEscape_readsOn table { c with s := s, overrun := false }).overrun
    rw [hclear] at hover
    cases hover

/-- Every write to the ranges of a class is below the capacity reserved last, in every class of a
pattern, exactly when the members of each of its bracketed classes fit. -/
theorem classWrites_inRange_iff (table : List UcProp) (pattern : Bytes) :
    (∀ levels c, ConcatAt table (startCtx pattern) levels c → ClassInRange table c) ↔
      ∀ levels c s, ConcatAt table (startCtx pattern) levels c → c.s = 0x5B :: s →
        MembersFit c.fold 0 8 8 (membersOf table s) := by
  constructor
  · intro h levels c s hc hs
    exact (classInRange_bracket_iff table hs).mp (h levels c hc)
  · intro h levels c hc
    by_cases hb : c.s.head? = some 0x5B
    · obtain ⟨s, hs⟩ : ∃ s, c.s = 0x5B :: s := by
        cases hcs : c.s with
        | nil => simp [hcs] at hb
        | cons ch s => exact ⟨s, by simpa [hcs] using hb⟩
      exact (classInRange_bracket_iff table hs).mpr (h levels c s hc hs)
    · exact classInRange_of_not_bracket table hb

/-- The flag at a place, from any context: what was undefined before, or what is there. -/
lemma siteParse_overrun {table : List UcProp} {c : PCtx} {p : Parsed}
    (h : siteParse table c = some p) :
    ∃ p₀, siteParse table { c with overrun := false } = some p₀ ∧
      p.2.overrun = (c.overrun || p₀.2.overrun) := by
  unfold siteParse at h ⊢
  cases hs : c.s with
  | nil =>
    simp only [hs] at h
    cases h
  | cons ch s =>
    simp only [hs] at h ⊢
    split_ifs at h ⊢
    · obtain rfl := Option.some.inj h
      refine ⟨_, rfl, ?_⟩
      obtain ⟨c₁, hc₁, h₁⟩ := rclass_members table { c with s := s }
      obtain ⟨c₂, hc₂, h₂⟩ := rclass_members table { c with s := s, overrun := false }
      rw [h₁, h₂]
      unfold ClsRoom.finish
      split_ifs
      · simp [hc₁.overrun, hc₂.overrun]
      · simp [hc₁.overrun, hc₂.overrun]
    · obtain rfl := Option.some.inj h
      refine ⟨_, rfl, ?_⟩
      rw [(ratomEscape_readsOn _ _).overrun, (ratomEscape_readsOn _ _).overrun, Bool.or_false]

lemma siteParse_fold {table : List UcProp} {c : PCtx} {p : Parsed}
    (h : siteParse table c = some p) : p.2.fold = c.fold := by
  unfold siteParse at h
  cases hs : c.s with
  | nil =>
    simp only [hs] at h
    cases h
  | cons ch s =>
    simp only [hs] at h
    split_ifs at h
    · obtain rfl := Option.some.inj h
      obtain ⟨c', hc', hclass⟩ := rclass_members table { c with s := s }
      rw [hclass]
      unfold ClsRoom.finish
      split_ifs <;> exact hc'.fold
    · obtain rfl := Option.some.inj h
      exact (ratomEscape_readsOn table { c with s := s }).fold

lemma rquant_overrun {c : PCtx} (h : (rquant c).2.overrun = true) :
    c.overrun = true ∨ rbracesOverrun c.s.tail = true := by
  unfold rquant at h
  cases hs : c.s with
  | nil =>
    simp only [hs] at h
    exact .inl h
  | cons ch s =>
    simp only [hs] at h
    split_ifs at h
    · exact .inl h
    · exact .inl h
    · exact .inl h
    · refine (Bool.or_eq_true _ _).mp ?_
      cases hb : rbraces s with
      | none => simpa [hb] using h
      | some q =>
        obtain ⟨lo, hi, s'⟩ := q
        simp only [hb] at h
        split_ifs at h <;> exact h
    · exact .inl h

mutual

lemma every_true : ∀ r : Ra, r.every (fun _ => true) = true
  | .seq pieces => everyOf_true pieces
  | .alt first others => by
    rw [Ra.every, every_true first, everyOf_true others]
    rfl
  | .quant child qmin qmax => by
    rw [Ra.every, every_true child]
    simp
  | .char _ _ => rfl
  | .any => rfl
  | .cls _ _ => rfl
  | .bol => rfl
  | .eol => rfl
  | .wordb => rfl
  | .nwordb => rfl

lemma everyOf_true : ∀ rs : List Ra, everyOf (fun _ => true) rs = true
  | [] => rfl
  | r :: rs => by
    rw [everyOf, every_true r, everyOf_true rs]
    rfl

end

/-- The parse of a pattern does something undefined only where its code points are laid down, at
a class that is not in range or has no ranges, or at a count beyond the `long` range. -/
theorem regexTree_overrun {table : List UcProp} {pattern : Bytes}
    (h : (regexTree table pattern).2.overrun = true) :
    (startCtx pattern).overrun = true ∨
      (∃ levels c p, ConcatAt table (startCtx pattern) levels c ∧
        siteParse table { c with overrun := false } = some p ∧ p.2.overrun = true) ∨
      ∃ levels c r c', ConcatAt table (startCtx pattern) levels c ∧
        ratom table (ralternation table levels) c = (some r, c') ∧
          rbracesOverrun c'.s.tail = true := by
  have hgood : GoodPlaces table (startCtx pattern) (fun _ => true)
      ((∃ levels c p, ConcatAt table (startCtx pattern) levels c ∧
        siteParse table { c with overrun := false } = some p ∧ p.2.overrun = true) ∨
      ∃ levels c r c', ConcatAt table (startCtx pattern) levels c ∧
        ratom table (ralternation table levels) c = (some r, c') ∧
          rbracesOverrun c'.s.tail = true) := by
    refine ⟨fun _ _ _ => rfl, fun _ _ _ _ _ => rfl, ?_, ?_⟩
    · intro levels c p hc hp
      refine ⟨fun r _ => every_true r, fun ho => ?_, siteParse_fold hp⟩
      obtain ⟨p₀, hp₀, hover⟩ := siteParse_overrun hp
      rw [hover, Bool.or_eq_true] at ho
      exact ho.imp id fun ho => .inl ⟨levels, c, p₀, hc, hp₀, ho⟩
    · intro levels c r c' hc hr ho
      exact (rquant_overrun ho).imp id fun ho => .inr ⟨levels, c, r, c', hc, hr, ho⟩
  exact (regexTree_gives hgood).later.overrun h

/-- Three `\w` in one class write behind its eight ranges. -/
theorem classWrites_outOfRange :
    ¬ ∀ levels c, ConcatAt [] (startCtx (ascii "[\\w\\w\\w]")) levels c → ClassInRange [] c := by
  intro h
  have hwrite := h _ _ .start
  have hparse : siteParse [] { startCtx (ascii "[\\w\\w\\w]") with overrun := false } =
      some (some (.cls [⟨48, 57⟩, ⟨65, 90⟩, ⟨95, 95⟩, ⟨97, 122⟩] false),
        { s := [], fold := false, err := none, overrun := true }) := rfl
  obtain ⟨negated, hcls⟩ := hwrite _ hparse rfl
  cases hcls

end Teptris
