import Teptris.Schema.RegexAutomaton
import Teptris.Schema.RegexRoom

/-!
# What a class accepts

The code points that the text of a class or of a class escape stands for, against those that
`cls_match` accepts.  A class in brackets is sorted and merged, but holds the positive form of a
negated shorthand and only the given case of a small letter; a shorthand outside brackets is not
sorted at all (`classes_right_iff`).
-/

namespace Teptris

/-! ## Sorting and merging -/

lemma inRanges_append (rs rs' : List RaRange) (x : ℕ) :
    InRanges (rs ++ rs') x ↔ InRanges rs x ∨ InRanges rs' x := by
  simp [InRanges, or_and_right, exists_or]

lemma inRanges_perm {rs rs' : List RaRange} (h : rs.Perm rs') (x : ℕ) :
    InRanges rs x ↔ InRanges rs' x := by
  simp only [InRanges, h.mem_iff]

lemma insertRange_perm (r : RaRange) (rs : List RaRange) : (insertRange r rs).Perm (r :: rs) := by
  induction rs with
  | nil => exact .refl _
  | cons x xs ih =>
    rw [insertRange]
    split_ifs
    · exact .refl _
    · exact (ih.cons x).trans (.swap r x xs)

lemma insertRange_sorted {r : RaRange} {rs : List RaRange}
    (h : rs.Pairwise fun a b => a.lo ≤ b.lo) :
    (insertRange r rs).Pairwise fun a b => a.lo ≤ b.lo := by
  induction rs with
  | nil => simp [insertRange]
  | cons x xs ih =>
    obtain ⟨hx, hxs⟩ := List.pairwise_cons.mp h
    rw [insertRange]
    split_ifs with hlt
    · refine List.pairwise_cons.mpr ⟨?_, h⟩
      intro y hy
      rcases List.mem_cons.mp hy with rfl | hy
      · exact Nat.le_of_lt hlt
      · exact Nat.le_trans (Nat.le_of_lt hlt) (hx y hy)
    · refine List.pairwise_cons.mpr ⟨?_, ih hxs⟩
      intro y hy
      rcases List.mem_cons.mp ((insertRange_perm r xs).mem_iff.mp hy) with rfl | hy
      · exact Nat.le_of_not_lt hlt
      · exact hx y hy

/-- The insertion sort of `cls_sort_merge`. -/
lemma foldl_insertRange (rs : List RaRange) :
    ∀ sorted : List RaRange, (sorted.Pairwise fun a b => a.lo ≤ b.lo) →
      (rs.foldl (fun sorted r => insertRange r sorted) sorted).Perm (rs ++ sorted) ∧
        (rs.foldl (fun sorted r => insertRange r sorted) sorted).Pairwise
          fun a b => a.lo ≤ b.lo := by
  induction rs with
  | nil => exact fun sorted h => ⟨.refl _, h⟩
  | cons r rs ih =>
    intro sorted h
    obtain ⟨hperm, hsorted⟩ := ih (insertRange r sorted) (insertRange_sorted h)
    refine ⟨?_, hsorted⟩
    exact (hperm.trans ((insertRange_perm r sorted).append_left rs)).trans List.perm_middle

/-- The joining pass of `cls_sort_merge`, from sorted ranges on. -/
lemma mergeRanges_spec (rs : List RaRange) :
    ∀ w : RaRange, w.lo ≤ w.hi → (∀ r ∈ rs, r.lo ≤ r.hi) →
      ((w :: rs).Pairwise fun a b => a.lo ≤ b.lo) →
        ascendingRanges (mergeRanges w rs) = true ∧
          (∀ r ∈ mergeRanges w rs, w.lo ≤ r.lo) ∧
            ∀ x, InRanges (mergeRanges w rs) x ↔ InRanges (w :: rs) x := by
  induction rs with
  | nil =>
    intro w hw _ _
    refine ⟨by simp [mergeRanges, ascendingRanges, hw], ?_, fun x => Iff.rfl⟩
    intro r hr
    obtain rfl : r = w := by simpa [mergeRanges] using hr
    exact Nat.le_refl _
  | cons r rs ih =>
    intro w hw hrs hsorted
    obtain ⟨hwr, htail⟩ := List.pairwise_cons.mp hsorted
    obtain ⟨hrr, hpw⟩ := List.pairwise_cons.mp htail
    have hle : w.lo ≤ r.lo := hwr r (by simp)
    have hr : r.lo ≤ r.hi := hrs r (by simp)
    have hrs' : ∀ t ∈ rs, t.lo ≤ t.hi := fun t ht => hrs t (by simp [ht])
    rw [mergeRanges]
    by_cases htouch : r.lo ≤ w.hi + 1
    · rw [if_pos htouch]
      have hw' : ∀ w' : RaRange, w'.lo = w.lo → (∀ t ∈ rs, w'.lo ≤ t.lo) := by
        intro w' hlo t ht
        rw [hlo]
        exact hwr t (by simp [ht])
      by_cases hgrow : w.hi < r.hi
      · rw [if_pos hgrow]
        obtain ⟨hasc, hlo, hin⟩ := ih { w with hi := r.hi } (by simp only; omega) hrs'
          (List.pairwise_cons.mpr ⟨hw' _ rfl, hpw⟩)
        refine ⟨hasc, hlo, fun x => ?_⟩
        rw [hin, inRanges_cons, inRanges_cons, inRanges_cons]
        simp only
        constructor
        · rintro (h | h)
          · by_cases hx : x ≤ w.hi
            · exact .inl ⟨h.1, hx⟩
            · exact .inr (.inl ⟨by omega, h.2⟩)
          · exact .inr (.inr h)
        · rintro (h | h | h)
          · exact .inl ⟨h.1, by omega⟩
          · exact .inl ⟨by omega, h.2⟩
          · exact .inr h
      · rw [if_neg hgrow]
        obtain ⟨hasc, hlo, hin⟩ := ih w hw hrs' (List.pairwise_cons.mpr ⟨hw' _ rfl, hpw⟩)
        refine ⟨hasc, hlo, fun x => ?_⟩
        rw [hin, inRanges_cons, inRanges_cons, inRanges_cons]
        constructor
        · rintro (h | h)
          · exact .inl h
          · exact .inr (.inr h)
        · rintro (h | h | h)
          · exact .inl h
          · exact .inl ⟨by omega, by omega⟩
          · exact .inr h
    · rw [if_neg htouch]
      obtain ⟨hasc, hlo, hin⟩ := ih r hr hrs' htail
      refine ⟨?_, ?_, fun x => ?_⟩
      · rw [ascendingRanges, hasc, Bool.and_true, Bool.and_eq_true, List.all_eq_true]
        refine ⟨decide_eq_true hw, ?_⟩
        intro t ht
        have hrt := hlo t ht
        exact decide_eq_true (by omega)
      · intro t ht
        rcases List.mem_cons.mp ht with rfl | ht
        · exact Nat.le_refl _
        · exact Nat.le_trans hle (hlo t ht)
      · rw [inRanges_cons, hin, ← inRanges_cons]

/-- `cls_sort_merge` leaves ascending ranges with the same code points. -/
theorem clsSortMerge_spec {cl : Cls} (h : ∀ r ∈ cl.ranges, r.lo ≤ r.hi) :
    ascendingRanges (clsSortMerge cl).ranges = true ∧
      ∀ x, InRanges (clsSortMerge cl).ranges x ↔ InRanges cl.ranges x := by
  obtain ⟨hperm, hsorted⟩ := foldl_insertRange cl.ranges [] .nil
  rw [List.append_nil] at hperm
  unfold clsSortMerge
  cases hs : cl.ranges.foldl (fun sorted r => insertRange r sorted) [] with
  | nil =>
    rw [hs] at hperm
    rw [hperm.symm.eq_nil]
    exact ⟨rfl, fun x => Iff.rfl⟩
  | cons r rs =>
    rw [hs] at hperm hsorted
    have hle : ∀ t ∈ r :: rs, t.lo ≤ t.hi := fun t ht => h t (hperm.mem_iff.mp ht)
    obtain ⟨hasc, -, hin⟩ := mergeRanges_spec rs r (hle r (by simp))
      (fun t ht => hle t (by simp [ht])) hsorted
    exact ⟨hasc, fun x => (hin x).trans (inRanges_perm hperm x)⟩

/-! ## What the members stand for -/

/-- Two code points are the same, under the fold flag up to the case of a letter. -/
def SameCp (fold : Bool) (x y : ℕ) : Prop := x = y ∨ (fold = true ∧ foldCp x = foldCp y)

/-- `\D`, `\W` and `\S`. -/
def isNegatedShorthand (e : ℕ) : Bool := e ∈ ['D', 'W', 'S'].map Char.toNat

/-- The digits, the word characters or the white space that a shorthand speaks of. -/
def ShorthandHolds (e x : ℕ) : Prop :=
  if e = 'd'.toNat ∨ e = 'D'.toNat then '0'.toNat ≤ x ∧ x ≤ '9'.toNat
  else if e = 'w'.toNat ∨ e = 'W'.toNat then isWordCp x = true
  else x ∈ [' '.toNat, 0x09, 0x0A, 0x0D, 0x0C, 0x0B]

/-- The code points of a shorthand. -/
def ShorthandDenotes (e x : ℕ) : Prop := ShorthandHolds e x ↔ isNegatedShorthand e = false

/-- The code points of a member. -/
def ClassMember.Denotes (fold : Bool) : ClassMember → ℕ → Prop
  | .one cp, x => SameCp fold x cp
  | .span lo hi, x => ∃ y, lo ≤ y ∧ y ≤ hi ∧ SameCp fold x y
  | .shorthand e, x => ShorthandDenotes e x
  | .property p negate, x => InRanges p.ranges x ↔ negate = false

/-- The code points whose ranges a member adds: of a shorthand those it speaks of, of a single
code point under the fold flag both cases if it is a capital letter. -/
def ClassMember.Holds (fold : Bool) : ClassMember → ℕ → Prop
  | .one cp, x => x = cp ∨ (fold = true ∧ x = foldCp cp)
  | .shorthand e, x => ShorthandHolds e x
  | m, x => m.Denotes fold x

/-- The ranges of a table are sorted and disjoint code points. -/
def SortedTable (table : List UcProp) : Prop :=
  ∀ p ∈ table, ascendingRanges p.ranges = true ∧ ∀ r ∈ p.ranges, r.hi < 0x110000

/-- A range has its ends in order, and a property is in the table. -/
def ClassMember.Formed (table : List UcProp) : ClassMember → Prop
  | .span lo hi => lo ≤ hi
  | .property p _ => p ∈ table
  | _ => True

/-- A range has its ends in order, and the ranges of a property ascend. -/
def ClassMember.Ordered : ClassMember → Prop
  | .span lo hi => lo ≤ hi
  | .property p _ => ascendingRanges p.ranges = true
  | _ => True

lemma ClassMember.Formed.ordered {table : List UcProp} (htable : SortedTable table)
    {m : ClassMember} (hm : m.Formed table) : m.Ordered := by
  cases m with
  | property p negate => exact (htable p hm).1
  | _ => exact hm

/-! ## What the ranges hold -/

lemma foldCp_eq (cp : ℕ) : foldCp cp = if 65 ≤ cp ∧ cp ≤ 90 then cp + 32 else cp := rfl

lemma inRanges_single (lo hi x : ℕ) : InRanges [⟨lo, hi⟩] x ↔ lo ≤ x ∧ x ≤ hi := by
  simp [InRanges]

lemma inRanges_oneRanges (fold : Bool) (cp x : ℕ) :
    InRanges (oneRanges fold cp) x ↔ x = cp ∨ (fold = true ∧ x = foldCp cp) := by
  have hchars : 'A'.toNat = 65 ∧ 'Z'.toNat = 90 ∧ 'a'.toNat = 97 ∧ 'z'.toNat = 122 := by decide
  obtain ⟨hA, hZ, ha, hz⟩ := hchars
  unfold oneRanges
  rw [hA, hZ, ha, hz]
  split_ifs with h1 h2
  · rw [inRanges_cons, inRanges_single, foldCp_eq, if_pos h1.2]
    simp only [h1.1, true_and]
    omega
  · rw [inRanges_cons, inRanges_single, foldCp_eq, if_neg (by omega)]
    simp only [h2.1, true_and]
    omega
  · rw [inRanges_single, foldCp_eq]
    cases fold with
    | false =>
      simp only [Bool.false_eq_true, false_and, or_false]
      omega
    | true =>
      simp only [true_and] at h1
      rw [if_neg h1]
      simp only [true_and]
      omega

lemma inRanges_mirrored (first last : ℕ) (move : ℕ → ℕ) (lo hi x : ℕ) :
    InRanges (mirrored first last move lo hi) x ↔
      max lo first ≤ min hi last ∧ move (max lo first) ≤ x ∧ x ≤ move (min hi last) := by
  unfold mirrored
  split_ifs with h
  · rw [inRanges_single]
    exact (and_iff_right h).symm
  · rw [inRanges_nil]
    simp [h]

/-- A range with its mirrored letters. -/
lemma inRanges_spanRanges (fold : Bool) {lo hi : ℕ} (hle : lo ≤ hi) (x : ℕ) :
    InRanges (spanRanges fold lo hi) x ↔ ∃ y, lo ≤ y ∧ y ≤ hi ∧ SameCp fold x y := by
  unfold spanRanges SameCp
  cases fold with
  | false =>
    simp only [Bool.false_eq_true, if_false, List.nil_append, false_and, or_false]
    rw [inRanges_single]
    constructor
    · exact fun h => ⟨x, h.1, h.2, rfl⟩
    · rintro ⟨y, h1, h2, rfl⟩
      exact ⟨h1, h2⟩
  | true =>
    have hchars : 'A'.toNat = 65 ∧ 'Z'.toNat = 90 ∧ 'a'.toNat = 97 ∧ 'z'.toNat = 122 := by decide
    obtain ⟨hA, hZ, ha, hz⟩ := hchars
    simp only [if_true, true_and]
    rw [inRanges_append, inRanges_append, inRanges_mirrored, inRanges_mirrored, inRanges_single,
      hA, hZ, ha, hz]
    constructor
    · rintro ((⟨hm, h1, h2⟩ | ⟨hm, h1, h2⟩) | ⟨h1, h2⟩)
      · rw [foldCp_eq, if_pos (by omega)] at h1 h2
        refine ⟨x - 32, by omega, by omega, .inr ?_⟩
        rw [foldCp_eq, foldCp_eq, if_neg (by omega), if_pos (by omega)]
        omega
      · refine ⟨x + 32, by omega, by omega, .inr ?_⟩
        rw [foldCp_eq, foldCp_eq, if_pos (by omega), if_neg (by omega)]
      · exact ⟨x, h1, h2, .inl rfl⟩
    · rintro ⟨y, h1, h2, rfl | hy⟩
      · exact .inr ⟨h1, h2⟩
      · rw [foldCp_eq, foldCp_eq] at hy
        split_ifs at hy with hx hy'
        · obtain rfl : x = y := by omega
          exact .inr ⟨h1, h2⟩
        · refine .inl (.inr ⟨by omega, by omega, by omega⟩)
        · refine .inl (.inl ⟨by omega, ?_⟩)
          rw [foldCp_eq, foldCp_eq, if_pos (by omega), if_pos (by omega)]
          omega
        · obtain rfl : x = y := hy
          exact .inr ⟨h1, h2⟩

lemma spanRanges_ordered (fold : Bool) {lo hi : ℕ} (hle : lo ≤ hi) :
    ∀ r ∈ spanRanges fold lo hi, r.lo ≤ r.hi := by
  intro r hr
  have hmirrored : ∀ (first last : ℕ) (move : ℕ → ℕ),
      (∀ a b, a ≤ b → first ≤ a → b ≤ last → move a ≤ move b) →
        r ∈ mirrored first last move lo hi → r.lo ≤ r.hi := by
    intro first last move hmove h
    unfold mirrored at h
    split_ifs at h with hm
    · obtain rfl := List.mem_singleton.mp h
      exact hmove _ _ hm (by omega) (by omega)
    · cases h
  have hfold : ∀ a b, a ≤ b → 'A'.toNat ≤ a → b ≤ 'Z'.toNat → foldCp a ≤ foldCp b := by
    intro a b hab ha hb
    change 65 ≤ a at ha
    change b ≤ 90 at hb
    rw [foldCp_eq, foldCp_eq, if_pos (by omega), if_pos (by omega)]
    omega
  unfold spanRanges at hr
  rcases List.mem_append.mp hr with hr | hr
  · split_ifs at hr
    · rcases List.mem_append.mp hr with hr | hr
      · exact hmirrored _ _ _ hfold hr
      · exact hmirrored _ _ _ (fun a b hab _ _ => Nat.sub_le_sub_right hab 32) hr
    · cases hr
  · obtain rfl := List.mem_singleton.mp hr
    exact hle

/-- The gaps of ascending ranges, from a code point on. -/
lemma gapsFrom_spec (rs : List RaRange) (hasc : ascendingRanges rs = true) :
    ∀ expect : ℕ, ascendingRanges (gapsFrom expect rs) = true ∧
      (∀ r ∈ gapsFrom expect rs, expect ≤ r.lo) ∧
        ∀ x < 0x110000, InRanges (gapsFrom expect rs) x ↔ expect ≤ x ∧ ¬ InRanges rs x := by
  induction rs with
  | nil =>
    intro expect
    unfold gapsFrom
    split_ifs with h
    · refine ⟨?_, by simp, fun x hx => ?_⟩
      · simp only [ascendingRanges, List.all_nil, Bool.and_true, decide_eq_true_eq]
        omega
      · rw [inRanges_single, inRanges_nil, not_false_eq_true, and_true]
        omega
    · refine ⟨rfl, by simp, fun x hx => ?_⟩
      rw [inRanges_nil, not_false_eq_true, and_true]
      exact ⟨False.elim, fun h' => by omega⟩
  | cons r rs ih =>
    intro expect
    obtain ⟨hne, hpw⟩ := ascendingRanges_pairwise hasc
    have hr : r.lo ≤ r.hi := hne r (by simp)
    have hlt := (List.pairwise_cons.mp hpw).1
    rw [ascendingRanges, Bool.and_eq_true] at hasc
    obtain ⟨hasc', hlo, hin⟩ := ih hasc.2 (max expect (r.hi + 1))
    rw [gapsFrom]
    have hbelow : ∀ x, x < r.lo → ¬ InRanges rs x := by
      rintro x hx ⟨t, ht, h1, -⟩
      have := hlt t ht
      omega
    by_cases hgap : expect < r.lo
    · rw [if_pos hgap]
      refine ⟨?_, ?_, fun x hx => ?_⟩
      · rw [List.singleton_append, ascendingRanges, hasc', Bool.and_true, Bool.and_eq_true,
          List.all_eq_true]
        refine ⟨decide_eq_true (by simp only; omega), ?_⟩
        intro t ht
        have := hlo t ht
        exact decide_eq_true (by simp only; omega)
      · intro t ht
        rcases List.mem_cons.mp ht with rfl | ht
        · exact Nat.le_refl _
        · have := hlo t ht
          omega
      · rw [List.singleton_append, inRanges_cons, hin x hx, inRanges_cons]
        simp only
        have hx' := hbelow x
        constructor
        · rintro (h | ⟨h, hno⟩)
          · exact ⟨h.1, by rintro (h' | h'); exacts [by omega, hx' (by omega) h']⟩
          · exact ⟨by omega, by rintro (h' | h'); exacts [by omega, hno h']⟩
        · rintro ⟨h, hno⟩
          by_cases hxr : x < r.lo
          · exact .inl ⟨h, by omega⟩
          · refine .inr ⟨?_, fun h' => hno (.inr h')⟩
            have hxhi : ¬ x ≤ r.hi := fun h' => hno (.inl ⟨by omega, h'⟩)
            omega
    · rw [if_neg hgap, List.nil_append]
      refine ⟨hasc', ?_, fun x hx => ?_⟩
      · intro t ht
        have := hlo t ht
        omega
      · rw [hin x hx, inRanges_cons]
        constructor
        · rintro ⟨h, hno⟩
          exact ⟨by omega, by rintro (h' | h'); exacts [by omega, hno h']⟩
        · rintro ⟨h, hno⟩
          refine ⟨?_, fun h' => hno (.inr h')⟩
          have hxhi : ¬ (r.lo ≤ x ∧ x ≤ r.hi) := fun h' => hno (.inl h')
          omega

/-- A property or its complement, over ascending ranges. -/
lemma propertyRanges_spec {p : UcProp} (hasc : ascendingRanges p.ranges = true) (negate : Bool) :
    ascendingRanges (propertyRanges p negate) = true ∧
      ∀ x < 0x110000, InRanges (propertyRanges p negate) x ↔
        (InRanges p.ranges x ↔ negate = false) := by
  unfold propertyRanges
  cases negate with
  | true =>
    obtain ⟨h, -, hin⟩ := gapsFrom_spec p.ranges hasc 0
    refine ⟨h, fun x hx => ?_⟩
    rw [if_pos rfl, hin x hx]
    simp
  | false => simp [hasc]

lemma isWordCp_iff (x : ℕ) : isWordCp x = true ↔
    (97 ≤ x ∧ x ≤ 122) ∨ (65 ≤ x ∧ x ≤ 90) ∨ (48 ≤ x ∧ x ≤ 57) ∨ x = 95 := by
  unfold isWordCp
  rw [decide_eq_true_iff]
  exact Iff.rfl

lemma inRanges_shorthandRanges (fold : Bool) (e x : ℕ) :
    InRanges (shorthandRanges fold e) x ↔ ShorthandHolds e x := by
  unfold shorthandRanges ShorthandHolds
  by_cases hd : e = 'd'.toNat ∨ e = 'D'.toNat
  · rw [if_pos hd, if_pos hd, inRanges_single]
  by_cases hw : e = 'w'.toNat ∨ e = 'W'.toNat
  · rw [if_neg hd, if_neg hd, if_pos hw, if_pos hw, isWordCp_iff]
    cases fold with
    | false =>
      change InRanges [⟨97, 122⟩, ⟨65, 90⟩, ⟨48, 57⟩, ⟨95, 95⟩] x ↔ _
      simp only [inRanges_cons, inRanges_nil, or_false]
      omega
    | true =>
      change InRanges [⟨65, 90⟩, ⟨97, 122⟩, ⟨97, 122⟩, ⟨65, 90⟩, ⟨48, 57⟩, ⟨95, 95⟩] x ↔ _
      simp only [inRanges_cons, inRanges_nil, or_false]
      omega
  · rw [if_neg hd, if_neg hd, if_neg hw, if_neg hw]
    have hspace : [' '.toNat, 0x09, 0x0A, 0x0D, 0x0C, 0x0B].flatMap (oneRanges fold) =
        [⟨32, 32⟩, ⟨9, 9⟩, ⟨10, 10⟩, ⟨13, 13⟩, ⟨12, 12⟩, ⟨11, 11⟩] := by
      cases fold <;> rfl
    rw [hspace]
    change _ ↔ x ∈ [32, 9, 10, 13, 12, 11]
    simp only [inRanges_cons, inRanges_nil, or_false, List.mem_cons, List.not_mem_nil]
    omega

/-- The ranges of a member have their ends in order and hold what it adds. -/
lemma added_spec (fold : Bool) {m : ClassMember} (hm : m.Ordered) :
    (∀ r ∈ m.added fold, r.lo ≤ r.hi) ∧
      ∀ x < 0x110000, InRanges (m.added fold) x ↔ m.Holds fold x := by
  cases m with
  | one cp =>
    refine ⟨?_, fun x _ => inRanges_oneRanges fold cp x⟩
    intro r hr
    simp only [ClassMember.added, oneRanges] at hr
    split_ifs at hr <;> grind
  | span lo hi =>
    have hle : lo ≤ hi := hm
    exact ⟨spanRanges_ordered fold hle, fun x _ => inRanges_spanRanges fold hle x⟩
  | shorthand e =>
    refine ⟨?_, fun x _ => inRanges_shorthandRanges fold e x⟩
    simp only [ClassMember.added, shorthandRanges]
    split_ifs <;> cases fold <;> decide
  | property p negate =>
    obtain ⟨hasc, hin⟩ := propertyRanges_spec hm negate
    exact ⟨(ascendingRanges_pairwise hasc).1, hin⟩

/-! ## The members are formed -/

lemma ucFind_mem {table : List UcProp} {name : List ℕ} {p : UcProp}
    (h : ucFind table name = some p) : p ∈ table := by
  unfold ucFind at h
  obtain ⟨i, -, hi⟩ := Option.bind_eq_some_iff.mp h
  exact List.mem_of_getElem? hi

lemma propText_mem {table : List UcProp} {s : List ℕ} {neg : Bool} {q : UcProp × Bool}
    (h : (propText table s neg).1 = some q) : q.1 ∈ table := by
  unfold propText at h
  cases s with
  | nil => cases h
  | cons b s =>
    by_cases hb : b ≠ 0x7B
    · simp only [if_pos hb] at h
      cases h
    · simp only [if_neg hb] at h
      generalize (if decide (s.head? = some '^'.toNat) = true then s.tail else s) = s₁ at h
      split at h
      · cases h
      · simp only at h
        split_ifs at h
        obtain ⟨p, hp, rfl⟩ := Option.map_eq_some_iff.mp h
        exact ucFind_mem hp

lemma unitText_formed {table : List UcProp} {ch : ℕ} {s s' : List ℕ} {u : ClassUnit}
    (h : unitText table ch s = some (u, s')) : ∀ m ∈ u.members, m.Formed table := by
  intro m hm
  cases u with
  | cp v => cases hm
  | shorthand e =>
    obtain rfl := List.mem_singleton.mp hm
    trivial
  | property p =>
    unfold unitText at h
    split_ifs at h
    · cases h
    · cases s with
      | nil => cases h
      | cons e s =>
        simp only at h
        split_ifs at h
        · cases h
        · obtain ⟨h, -⟩ := Prod.mk.inj (Option.some.inj h)
          obtain ⟨q, hq, rfl⟩ := List.mem_map.mp hm
          have hp : p = (propText table s (e = 'P'.toNat)).1 := (ClassUnit.property.inj h).symm
          rw [hp] at hq
          exact propText_mem (Option.mem_toList.mp hq)
        · split at h
          · cases h
          · cases h

lemma rangeText_formed (table : List UcProp) (lo : ℕ) (s : List ℕ) :
    ∀ m ∈ (rangeText table lo s).1, m.Formed table := by
  have hone : ∀ m ∈ [ClassMember.one lo], m.Formed table := by
    intro m hm
    obtain rfl := List.mem_singleton.mp hm
    trivial
  unfold rangeText
  split
  · split_ifs
    · split
      · simp
      · split_ifs with hlt
        · simp
        · intro m hm
          obtain rfl := List.mem_singleton.mp hm
          exact Nat.le_of_not_lt hlt
      · rename_i hu
        exact unitText_formed hu
    · exact hone
  · exact hone

lemma turnText_formed (table : List UcProp) (ch : ℕ) (s : List ℕ) :
    ∀ m ∈ (turnText table ch s).1, m.Formed table := by
  unfold turnText
  split
  · simp
  · exact rangeText_formed table _ _
  · rename_i hu
    exact unitText_formed hu

/-- The members of a class are formed. -/
lemma classMembers_formed (table : List UcProp) :
    ∀ (n : ℕ) (first : Bool) (s : List ℕ), s.length ≤ n →
      ∀ m ∈ (classMembers table first s).1, m.Formed table := by
  intro n
  induction n with
  | zero =>
    intro first s hs m hm
    rw [List.length_eq_zero_iff.mp (Nat.le_zero.mp hs), classMembers_nil] at hm
    cases hm
  | succ n ih =>
    intro first s hs m hm
    cases s with
    | nil =>
      rw [classMembers_nil] at hm
      cases hm
    | cons ch s =>
      by_cases hclose : ch = 0x5D ∧ ¬ first
      · rw [classMembers, if_pos hclose] at hm
        cases hm
      · rw [classMembers_cons hclose] at hm
        have hturn := turnText_formed table ch s
        cases ht : turnText table ch s with
        | mk ms s' =>
          rw [ht] at hm hturn
          cases s' with
          | none => exact hturn m hm
          | some s' =>
            have hlen := turnText_length ht
            rw [List.length_cons] at hs
            rcases List.mem_append.mp hm with hm | hm
            · exact hturn m hm
            · exact ih false s' (by omega) m hm

/-! ## What is added and what is meant -/

/-- The members of a class, taken together, add what they stand for. -/
structure Covered (fold : Bool) (ms : List ClassMember) : Prop where
  /-- Where a class has a negated shorthand, the code points it speaks of, which are added for it,
  are meant by another member, and those it stands for are added for another one. -/
  negated : ∀ e, .shorthand e ∈ ms → isNegatedShorthand e = true → ∀ x < 0x110000,
    (ShorthandHolds e x → ∃ m ∈ ms, m.Denotes fold x) ∧
      (¬ ShorthandHolds e x → ∃ m ∈ ms, m.Holds fold x)
  /-- Where it has a small letter under the fold flag, the capital letter is added for another
  member. -/
  small : fold = true → ∀ cp, .one cp ∈ ms → 'a'.toNat ≤ cp → cp ≤ 'z'.toNat →
    ∃ m ∈ ms, m.Holds fold (cp - 32)

lemma sameCp_cases {fold : Bool} {x cp : ℕ} (h : SameCp fold x cp) :
    (x = cp ∨ (fold = true ∧ x = foldCp cp)) ∨
      (fold = true ∧ 'a'.toNat ≤ cp ∧ cp ≤ 'z'.toNat ∧ x = cp - 32) := by
  rcases h with h | ⟨hf, h⟩
  · exact .inl (.inl h)
  · change _ ∨ (fold = true ∧ 97 ≤ cp ∧ cp ≤ 122 ∧ x = cp - 32)
    rw [foldCp_eq, foldCp_eq] at h
    rw [foldCp_eq]
    simp only [hf, true_and]
    split_ifs at h ⊢ <;> omega

lemma sameCp_of_holds {fold : Bool} {x cp : ℕ} (h : x = cp ∨ (fold = true ∧ x = foldCp cp)) :
    SameCp fold x cp := by
  rcases h with h | ⟨hf, h⟩
  · exact .inl h
  · refine .inr ⟨hf, ?_⟩
    rw [h, foldCp_eq, foldCp_eq]
    split_ifs <;> omega

/-- The two sets of a class agree exactly when it is covered. -/
lemma covered_iff (fold : Bool) (ms : List ClassMember) :
    (∀ x < 0x110000, (∃ m ∈ ms, m.Holds fold x) ↔ ∃ m ∈ ms, m.Denotes fold x) ↔
      Covered fold ms := by
  constructor
  · intro h
    constructor
    · intro e he hneg x hx
      constructor
      · exact fun hs => (h x hx).mp ⟨_, he, hs⟩
      · intro hs
        refine (h x hx).mpr ⟨_, he, ?_⟩
        simp [ClassMember.Denotes, ShorthandDenotes, hs, hneg]
    · intro hf cp hcp ha hz
      change 97 ≤ cp at ha
      change cp ≤ 122 at hz
      refine (h (cp - 32) (by omega)).mpr ⟨_, hcp, .inr ⟨hf, ?_⟩⟩
      rw [foldCp_eq, foldCp_eq, if_pos (by omega), if_neg (by omega)]
      omega
  · intro hc x hx
    constructor
    · rintro ⟨m, hm, hx'⟩
      cases m with
      | one cp => exact ⟨_, hm, sameCp_of_holds hx'⟩
      | span lo hi => exact ⟨_, hm, hx'⟩
      | property p negate => exact ⟨_, hm, hx'⟩
      | shorthand e =>
        cases hneg : isNegatedShorthand e with
        | true => exact (hc.negated e hm hneg x hx).1 hx'
        | false => exact ⟨_, hm, iff_of_true hx' hneg⟩
    · rintro ⟨m, hm, hx'⟩
      cases m with
      | one cp =>
        rcases sameCp_cases hx' with h | ⟨hf, ha, hz, rfl⟩
        · exact ⟨_, hm, h⟩
        · exact hc.small hf cp hm ha hz
      | span lo hi => exact ⟨_, hm, hx'⟩
      | property p negate => exact ⟨_, hm, hx'⟩
      | shorthand e =>
        cases hneg : isNegatedShorthand e with
        | true =>
          have hx'' : ¬ ShorthandHolds e x := fun hs => by
            have := hx'.mp hs
            rw [hneg] at this
            cases this
          exact (hc.negated e hm hneg x hx).2 hx''
        | false => exact ⟨_, hm, hx'.mpr hneg⟩

/-- A class without negated shorthands, outside of the fold flag, is covered. -/
theorem covered_of_plain {ms : List ClassMember}
    (h : ∀ e, .shorthand e ∈ ms → isNegatedShorthand e = false) : Covered false ms := by
  constructor
  · intro e he hneg
    rw [h e he] at hneg
    cases hneg
  · exact fun hf => by cases hf

/-! ## The classes of a pattern -/

/-- The code points that the class at a place stands for: in brackets those of its members, or
the others where it is negated. -/
def PlaceDenotes (table : List UcProp) (c : PCtx) (x : ℕ) : Prop :=
  match c.s with
  | [] => False
  | ch :: s =>
    if ch = 0x5B then (∃ m ∈ membersOf table s, m.Denotes c.fold x) ↔ (classBody s).1 = false
    else ∃ u s', unitText table ch s = some (u, s') ∧ ∃ m ∈ u.members, m.Denotes c.fold x

/-- The class at a place is stored as the binary search needs it and accepts what it stands for. -/
def ClassRight (table : List UcProp) (c : PCtx) : Prop :=
  ∀ ranges negated c',
    siteParse table { c with overrun := false } = some (some (.cls ranges negated), c') →
      c'.overrun = false ∧ ascendingRanges ranges = true ∧
        ∀ x < 0x110000,
          clsMatch { RState.new .char with ranges := ranges, negated := negated } x = true ↔
            PlaceDenotes table c x

/-- The class at a place is none of the kinds that come out wrong: a closed class in brackets fits
in its buffer, has ranges and is covered; an escape outside brackets is none of `\w`, `\W`, `\s`
and `\S`. -/
structure ClassSound (table : List UcProp) (c : PCtx) : Prop where
  /-- In brackets. -/
  bracket : ∀ s, c.s = 0x5B :: s → (classMembers table true (classBody s).2).2 = true →
    MembersFit c.fold 0 8 8 (membersOf table s) ∧ (∃ m ∈ membersOf table s, 0 < m.width c.fold) ∧
      Covered c.fold (membersOf table s)
  /-- Outside brackets. -/
  escape : ∀ e s, c.s = '\\'.toNat :: e :: s → e ∉ ['w', 'W', 's', 'S'].map Char.toNat

/-- `cls_match` on a state emitted for a class. -/
lemma clsMatch_cls_iff {ranges : List RaRange} (hasc : ascendingRanges ranges = true)
    (negated : Bool) (x : ℕ) :
    clsMatch { RState.new .char with ranges := ranges, negated := negated } x = true ↔
      (InRanges ranges x ↔ negated = false) := clsMatch_iff rfl hasc x

lemma iff_iff_congr_right {a b n : Prop} : ((a ↔ n) ↔ (b ↔ n)) ↔ (a ↔ b) := by
  tauto

lemma membersOf_formed (table : List UcProp) (s : List ℕ) :
    ∀ m ∈ membersOf table s, m.Formed table :=
  classMembers_formed table _ true (classBody s).2 (Nat.le_refl _)

/-- The ranges of a class in brackets, before they are sorted. -/
lemma members_spec {table : List UcProp} {s : List ℕ}
    (hordered : ∀ m ∈ membersOf table s, m.Ordered) (fold : Bool) :
    (∀ r ∈ (membersOf table s).flatMap (ClassMember.added fold), r.lo ≤ r.hi) ∧
      ∀ x < 0x110000, InRanges ((membersOf table s).flatMap (ClassMember.added fold)) x ↔
        ∃ m ∈ membersOf table s, m.Holds fold x := by
  constructor
  · intro r hr
    obtain ⟨m, hm, hr⟩ := List.mem_flatMap.mp hr
    exact (added_spec fold (hordered m hm)).1 r hr
  · intro x hx
    constructor
    · rintro ⟨r, hr, hx'⟩
      obtain ⟨m, hm, hr⟩ := List.mem_flatMap.mp hr
      exact ⟨m, hm, ((added_spec fold (hordered m hm)).2 x hx).mp ⟨r, hr, hx'⟩⟩
    · rintro ⟨m, hm, hx'⟩
      obtain ⟨r, hr, hx'⟩ := ((added_spec fold (hordered m hm)).2 x hx).mpr hx'
      exact ⟨r, List.mem_flatMap.mpr ⟨m, hm, hr⟩, hx'⟩

/-- A closed class in brackets is right exactly when it fits, has ranges and is covered. -/
lemma classRight_bracket_iff {table : List UcProp} (htable : SortedTable table) {c : PCtx}
    {s : List ℕ} (hs : c.s = 0x5B :: s) :
    ClassRight table c ↔ ((classMembers table true (classBody s).2).2 = true →
      MembersFit c.fold 0 8 8 (membersOf table s) ∧
        (∃ m ∈ membersOf table s, 0 < m.width c.fold) ∧ Covered c.fold (membersOf table s)) := by
  have hsite : siteParse table { c with overrun := false } =
      some (rclass table { c with s := s, overrun := false }) := by
    unfold siteParse
    simp only [hs, if_true]
  have hplace : ∀ x, PlaceDenotes table c x ↔
      ((∃ m ∈ membersOf table s, m.Denotes c.fold x) ↔ (classBody s).1 = false) := by
    intro x
    unfold PlaceDenotes
    simp only [hs, if_true]
  obtain ⟨c', hc', hclass⟩ := rclass_members table { c with s := s, overrun := false }
  have hranges := addAll_ranges c.fold { cl := Cls.new.reserve 8, cap := 8 } (membersOf table s)
  have hfits : (ClsRoom.addAll c.fold { cl := Cls.new.reserve 8, cap := 8 }
      (membersOf table s)).cl.overrun = false ↔ MembersFit c.fold 0 8 8 (membersOf table s) :=
    (addAll_overrun_iff c.fold (membersOf table s) { cl := Cls.new.reserve 8, cap := 8 }
      (by decide)).trans (and_iff_right rfl)
  obtain ⟨hordered, hin⟩ := members_spec
    (fun m hm => (membersOf_formed table s m hm).ordered htable) c.fold
  change rclass table _ = (ClsRoom.addAll c.fold { cl := Cls.new.reserve 8, cap := 8 }
    (membersOf table s)).finish (classBody s).1 _ c' at hclass
  have hnil : (ClsRoom.addAll c.fold { cl := Cls.new.reserve 8, cap := 8 }
      (membersOf table s)).cl.ranges ≠ [] ↔ ∃ m ∈ membersOf table s, 0 < m.width c.fold := by
    rw [hranges]
    constructor
    · intro h
      by_contra hno
      refine h (List.append_eq_nil_iff.mpr ⟨rfl, List.flatMap_eq_nil_iff.mpr fun m hm => ?_⟩)
      refine List.length_eq_zero_iff.mp ?_
      rw [added_length]
      by_contra hw
      exact hno ⟨m, hm, by omega⟩
    · rintro ⟨m, hm, hw⟩ h
      have hm' := List.flatMap_eq_nil_iff.mp (List.append_eq_nil_iff.mp h).2 m hm
      rw [← added_length, hm', List.length_nil] at hw
      omega
  generalize ClsRoom.addAll c.fold { cl := Cls.new.reserve 8, cap := 8 } (membersOf table s) = b
    at *
  have hb : b.cl.ranges = (membersOf table s).flatMap (ClassMember.added c.fold) := hranges
  rw [← hb] at hordered hin
  obtain ⟨hasc, hmerge⟩ := clsSortMerge_spec hordered
  obtain ⟨hempty, hover⟩ := clsSortMerge_empty_iff b.cl
  have hagree : (∀ x < 0x110000,
      clsMatch { RState.new .char with
        ranges := (clsSortMerge b.cl).ranges, negated := (classBody s).1 } x = true ↔
          PlaceDenotes table c x) ↔ Covered c.fold (membersOf table s) := by
    rw [← covered_iff]
    refine forall_congr' fun x => forall_congr' fun hx => ?_
    rw [clsMatch_cls_iff hasc, hplace, iff_iff_congr_right, hmerge, hin x hx]
  unfold ClassRight
  rw [hsite, hclass]
  cases (classMembers table true (classBody s).2).2 with
  | false =>
    constructor
    · intro _ h
      cases h
    · intro _ ranges negated c'' h
      cases h
  | true =>
    constructor
    · intro h _
      obtain ⟨ho, -, hmatch⟩ := h _ _ _ rfl
      have ho' : (clsSortMerge b.cl).overrun = false := (Bool.or_eq_false_iff.mp ho).2
      have hne : b.cl.ranges ≠ [] := by
        intro hnone
        rw [clsSortMerge, hnone] at ho'
        cases ho'
      exact ⟨hfits.mp (hover hne ▸ ho'), hnil.mp hne, hagree.mp hmatch⟩
    · intro h ranges negated c'' heq
      obtain ⟨hfit, hw, hcovered⟩ := h rfl
      cases heq
      refine ⟨?_, hasc, hagree.mpr hcovered⟩
      change (c'.overrun || (clsSortMerge b.cl).overrun) = false
      rw [hover (hnil.mpr hw), hfits.mpr hfit, hc'.overrun]
      rfl

/-- The ranges of `\w` and `\s` do not ascend. -/
lemma shorthandRanges_unsorted (fold : Bool) {e : ℕ} (h : e ∈ ['w', 'W', 's', 'S'].map Char.toNat) :
    ascendingRanges (shorthandRanges fold e) = false := by
  simp only [List.map_cons, List.map_nil, List.mem_cons, List.not_mem_nil, or_false] at h
  rcases h with rfl | rfl | rfl | rfl <;> cases fold <;> decide

lemma digit_of_shorthand {e : ℕ} (hsh : e ∈ ['d', 'w', 's', 'D', 'W', 'S'].map Char.toNat)
    (h : e ∉ ['w', 'W', 's', 'S'].map Char.toNat) : e = 'd'.toNat ∨ e = 'D'.toNat := by
  revert hsh h
  simp only [List.map_cons, List.map_nil, List.mem_cons, List.not_mem_nil]
  tauto

/-- A shorthand, a property or another escape outside brackets. -/
lemma classRight_escape_iff {table : List UcProp} (htable : SortedTable table) {c : PCtx}
    {s : List ℕ} (hs : c.s = '\\'.toNat :: s) :
    ClassRight table c ↔ ∀ e s', s = e :: s' → e ∉ ['w', 'W', 's', 'S'].map Char.toNat := by
  have hsite : siteParse table { c with overrun := false } =
      some (ratomEscape table { c with s := s, overrun := false }) := by
    unfold siteParse
    simp only [hs]
    rfl
  have hplace : ∀ x, PlaceDenotes table c x ↔
      ∃ u s', unitText table '\\'.toNat s = some (u, s') ∧ ∃ m ∈ u.members, m.Denotes c.fold x := by
    intro x
    unfold PlaceDenotes
    simp only [hs]
    rfl
  have hother : ∀ c' (r : Option Ra), (∀ ranges negated, r ≠ some (.cls ranges negated)) →
      ratomEscape table { c with s := s, overrun := false } = (r, c') → ClassRight table c := by
    intro c' r hr h ranges negated c'' hcls
    rw [hsite, h] at hcls
    exact absurd (Prod.mk.inj (Option.some.inj hcls)).1 (hr ranges negated)
  cases s with
  | nil =>
    refine iff_of_true (hother _ none (by simp) rfl) ?_
    intro e s' h
    cases h
  | cons e s =>
    by_cases hsh : e ∈ ['d', 'w', 's', 'D', 'W', 'S'].map Char.toNat
    · have hunit : unitText table '\\'.toNat (e :: s) = some (.shorthand e, s) := by
        have hsh' : e ∈ ['d', 'D', 'w', 'W', 's', 'S'].map Char.toNat :=
          (by decide : ['d', 'w', 's', 'D', 'W', 'S'].map Char.toNat ⊆
            ['d', 'D', 'w', 'W', 's', 'S'].map Char.toNat) hsh
        unfold unitText
        simp only [ne_eq, not_true_eq_false, if_false, if_pos hsh']
      have hdenotes : ∀ x, PlaceDenotes table c x ↔ ShorthandDenotes e x := by
        intro x
        rw [hplace, hunit]
        simp [ClassUnit.members, ClassMember.Denotes]
      have hesc := ratomEscape_shorthand table (c := { c with s := e :: s, overrun := false })
        (s := s) rfl hsh
      by_cases hbad : e ∈ ['w', 'W', 's', 'S'].map Char.toNat
      · refine iff_of_false ?_ fun h => h e s rfl hbad
        intro h
        rw [ClassRight, hsite, hesc] at h
        have hasc := (h _ _ _ rfl).2.1
        rw [shorthandRanges_unsorted c.fold hbad] at hasc
        cases hasc
      · refine iff_of_true ?_ fun e' s' h => (List.cons.inj h).1 ▸ hbad
        intro ranges negated c' hcls
        rw [hsite, hesc] at hcls
        cases hcls
        have hd := digit_of_shorthand hsh hbad
        have hasc : ascendingRanges (shorthandRanges c.fold e) = true := by
          unfold shorthandRanges
          rw [if_pos hd]
          rfl
        refine ⟨rfl, hasc, fun x _ => ?_⟩
        rw [clsMatch_cls_iff hasc, hdenotes, inRanges_shorthandRanges]
        exact Iff.rfl
    by_cases hp : e = 'p'.toNat ∨ e = 'P'.toNat
    · have hgood : ∀ e' s', e :: s = e' :: s' → e' ∉ ['w', 'W', 's', 'S'].map Char.toNat := by
        intro e' s' h
        rw [← (List.cons.inj h).1]
        rcases hp with rfl | rfl <;> decide
      refine iff_of_true ?_ hgood
      obtain ⟨c', hc', h | ⟨q, hq, h⟩⟩ := ratomEscape_property table
        (c := { c with s := e :: s, overrun := false }) (s := s) rfl hp
      · exact hother c' none (by simp) h
      · intro ranges negated c'' hcls
        rw [hsite, h] at hcls
        cases hcls
        obtain ⟨hasc, hin⟩ := propertyRanges_spec (htable q.1 (propText_mem hq)).1 q.2
        refine ⟨hc'.overrun, hasc, fun x hx => ?_⟩
        have hunit : unitText table '\\'.toNat (e :: s) =
            some (.property (some q), (propText table s (e = 'P'.toNat)).2) := by
          have hsh' : e ∉ ['d', 'D', 'w', 'W', 's', 'S'].map Char.toNat := by
            rcases hp with rfl | rfl <;> decide
          unfold unitText
          simp only [ne_eq, not_true_eq_false, if_false, if_neg hsh', if_pos hp, hq]
        rw [clsMatch_cls_iff hasc, hin x hx, hplace, hunit]
        simp [ClassUnit.members, ClassMember.Denotes]
    · have hgood : ∀ e' s', e :: s = e' :: s' → e' ∉ ['w', 'W', 's', 'S'].map Char.toNat := by
        intro e' s' h hbad
        rw [← (List.cons.inj h).1] at hbad
        exact hsh ((by decide : ['w', 'W', 's', 'S'].map Char.toNat ⊆
          ['d', 'w', 's', 'D', 'W', 'S'].map Char.toNat) hbad)
      refine iff_of_true ?_ hgood
      obtain ⟨c', hc', h | h | h | ⟨v, s', -, h⟩⟩ := ratomEscape_other table
        (c := { c with s := e :: s, overrun := false })
        (by simpa using hsh) (by simpa using hp)
      · exact hother c' none (by simp) h
      · exact hother c' (some .wordb) (by simp) h
      · exact hother c' (some .nwordb) (by simp) h
      · exact hother c' _ (by simp [escapedAtom]) h

/-- The class at a place is right exactly when it is sound. -/
lemma classRight_iff {table : List UcProp} (htable : SortedTable table) (c : PCtx) :
    ClassRight table c ↔ ClassSound table c := by
  cases hs : c.s with
  | nil =>
    refine ⟨fun _ => ⟨?_, ?_⟩, fun _ ranges negated c' h => ?_⟩
    · intro s h
      rw [hs] at h
      cases h
    · intro e s h
      rw [hs] at h
      cases h
    · simp only [siteParse, hs] at h
      cases h
  | cons ch s =>
    by_cases hbracket : ch = 0x5B
    · subst hbracket
      rw [classRight_bracket_iff htable hs]
      refine ⟨fun h => ⟨?_, ?_⟩, fun h => h.bracket s hs⟩
      · intro s' hs' hclosed
        obtain ⟨-, rfl⟩ := List.cons.inj (hs.symm.trans hs')
        exact h hclosed
      · intro e s' hs'
        exact absurd (List.cons.inj (hs.symm.trans hs')).1 (by decide)
    by_cases hesc : ch = '\\'.toNat
    · subst hesc
      rw [classRight_escape_iff htable hs]
      refine ⟨fun h => ⟨?_, ?_⟩, fun h e s' hs' => h.escape e s' (by rw [hs, hs'])⟩
      · intro s' hs'
        exact absurd (List.cons.inj (hs.symm.trans hs')).1 (by decide)
      · intro e s' hs'
        exact h e s' (List.cons.inj (hs.symm.trans hs')).2
    · refine ⟨fun _ => ⟨?_, ?_⟩, fun _ ranges negated c' h => ?_⟩
      · intro s' hs'
        exact absurd (List.cons.inj (hs.symm.trans hs')).1 hbracket
      · intro e s' hs'
        exact absurd (List.cons.inj (hs.symm.trans hs')).1 hesc
      · simp only [siteParse, hs, if_neg hbracket, if_neg hesc] at h
        cases h

/-- In the parse of a pattern every class is stored in ascending ranges and accepts exactly the
code points it stands for if and only if every class is sound. -/
theorem classes_right_iff {table : List UcProp} (htable : SortedTable table) (pattern : Bytes) :
    (∀ levels c, ConcatAt table (startCtx pattern) levels c → ClassRight table c) ↔
      ∀ levels c, ConcatAt table (startCtx pattern) levels c → ClassSound table c := by
  simp only [classRight_iff htable]

/-- A table with the digits only, as `Nd`. -/
def digitTable : List UcProp := [⟨[78, 100], [⟨48, 57⟩]⟩]

/-- A class with a range and a property. -/
theorem classes_right_digits :
    (∀ levels c, ConcatAt digitTable (startCtx (ascii "[a-f\\p\x7bNd\x7d]")) levels c →
      ClassRight digitTable c) ↔
    ∀ levels c, ConcatAt digitTable (startCtx (ascii "[a-f\\p\x7bNd\x7d]")) levels c →
      ClassSound digitTable c := by
  refine classes_right_iff ?_ _
  intro p hp
  obtain rfl := List.mem_singleton.mp hp
  exact ⟨rfl, by decide⟩

/-- `\w` outside brackets is accepted as a pattern and does not accept the letter `a`. -/
theorem classes_wrong :
    ¬ ∀ (table : List UcProp) (pattern : Bytes) (re : SchRegex), SortedTable table →
      schRegexCompile table pattern = .ok re →
        ∀ levels c, ConcatAt table (startCtx pattern) levels c →
          ∀ ranges negated c',
            siteParse table { c with overrun := false } = some (some (.cls ranges negated), c') →
              ∀ x < 0x110000,
                clsMatch { RState.new .char with ranges := ranges, negated := negated } x = true ↔
                  PlaceDenotes table c x := by
  intro h
  obtain ⟨re, hre⟩ : ∃ re, schRegexCompile [] (ascii "\\w") = .ok re := ⟨_, rfl⟩
  have hw := h [] (ascii "\\w") re (fun p hp => by cases hp) hre _ _ .start
    [⟨97, 122⟩, ⟨65, 90⟩, ⟨48, 57⟩, ⟨95, 95⟩] false _ rfl 97 (by decide)
  have hdenotes : PlaceDenotes [] (startCtx (ascii "\\w")) 97 := by
    refine ⟨.shorthand 119, [], rfl, .shorthand 119, by simp [ClassUnit.members], ?_⟩
    exact iff_of_true (by decide : isWordCp 97 = true) (by decide)
  have hmatch := hw.mpr hdenotes
  revert hmatch
  decide

/-- The class that `rclass` returns has ascending ranges. -/
lemma rclass_ascending {table : List UcProp} (htable : SortedTable table) {c : PCtx} {r : Ra}
    (h : (rclass table c).1 = some r) : r.every ascendingNode = true := by
  obtain ⟨c', -, hclass⟩ := rclass_members table c
  have hranges := addAll_ranges c.fold { cl := Cls.new.reserve 8, cap := 8 }
    (classMembers table true (classBody c.s).2).1
  have hordered := (members_spec
    (fun m hm => (membersOf_formed table c.s m hm).ordered htable) c.fold).1
  rw [hclass] at h
  generalize ClsRoom.addAll c.fold { cl := Cls.new.reserve 8, cap := 8 }
    (classMembers table true (classBody c.s).2).1 = b at h hranges
  have hb : b.cl.ranges = (membersOf table c.s).flatMap (ClassMember.added c.fold) := hranges
  rw [← hb] at hordered
  unfold ClsRoom.finish at h
  split_ifs at h
  obtain rfl := Option.some.inj h
  exact (clsSortMerge_spec hordered).1

/-- What an escape outside brackets gives has ascending ranges, except for those four. -/
lemma ratomEscape_ascending {table : List UcProp} (htable : SortedTable table) {c : PCtx} {r : Ra}
    (hescape : ∀ e s, c.s = e :: s → e ∉ ['w', 'W', 's', 'S'].map Char.toNat)
    (h : (ratomEscape table c).1 = some r) : r.every ascendingNode = true := by
  cases hs : c.s with
  | nil =>
    rw [ratomEscape, hs] at h
    cases h
  | cons e s =>
    by_cases hsh : e ∈ ['d', 'w', 's', 'D', 'W', 'S'].map Char.toNat
    · rw [ratomEscape_shorthand table hs hsh] at h
      obtain rfl := Option.some.inj h
      have hd := digit_of_shorthand hsh (hescape e s hs)
      change ascendingRanges (shorthandRanges c.fold e) = true
      rw [shorthandRanges, if_pos hd]
      rfl
    by_cases hp : e = 'p'.toNat ∨ e = 'P'.toNat
    · obtain ⟨c', -, h' | ⟨q, hq, h'⟩⟩ := ratomEscape_property table hs hp
      · rw [h'] at h
        cases h
      · rw [h'] at h
        obtain rfl := Option.some.inj h
        exact (propertyRanges_spec (htable q.1 (propText_mem hq)).1 q.2).1
    · obtain ⟨c', -, h' | h' | h' | ⟨v, s', -, h'⟩⟩ := ratomEscape_other table (c := c)
        (by simpa [hs] using hsh) (by simpa [hs] using hp)
      · rw [h'] at h
        cases h
      all_goals
        rw [h'] at h
        obtain rfl := Option.some.inj h
        rfl

/-- Without `\w`, `\W`, `\s` and `\S` outside brackets every class of the tree has ascending
ranges, as the automaton needs them. -/
theorem regexTree_ascending {table : List UcProp} (htable : SortedTable table) {pattern : Bytes}
    (hescape : ∀ levels c e s, ConcatAt table (startCtx pattern) levels c →
      c.s = '\\'.toNat :: e :: s → e ∉ ['w', 'W', 's', 'S'].map Char.toNat)
    {r : Ra} (hr : (regexTree table pattern).1 = some r) : r.ascending = true := by
  have hgood : GoodPlaces table (startCtx pattern) ascendingNode True := by
    refine ⟨?_, fun _ _ _ _ _ => rfl, ?_, fun _ _ _ _ _ _ _ => .inr trivial⟩
    · intro r hchar hcls
      cases r with
      | cls ranges negated => exact absurd rfl (hcls ranges negated)
      | _ => rfl
    · intro levels c p hc hp
      refine ⟨fun r hr => ?_, fun _ => .inr trivial, siteParse_fold hp⟩
      unfold siteParse at hp
      cases hs : c.s with
      | nil =>
        simp only [hs] at hp
        cases hp
      | cons ch s =>
        simp only [hs] at hp
        split_ifs at hp with hbracket hesc
        · obtain rfl := Option.some.inj hp
          exact rclass_ascending htable hr
        · obtain rfl := Option.some.inj hp
          refine ratomEscape_ascending htable ?_ hr
          intro e s' hs'
          refine hescape levels c e s' hc ?_
          rw [hs, hesc]
          exact congrArg _ hs'
  exact (regexTree_gives hgood).tree r hr

end Teptris
