import Teptris.Schema.RegexSemantics

/-!
# The pattern parser

What the parser of `regex.c` does to the pattern it reads.  Every function leaves no more of the
pattern than it was given, and those that return an atom leave less, so that its loops end and
the bound on the nesting of groups is never met (`ralternation_levels`).  The trees it returns
are well formed (`regexTree_wellFormed`): folded letters are small and bounds are in order.
-/

namespace Teptris

/-! ## Reading -/

/-- `pfail` reads nothing. -/
@[simp] lemma PCtx.pfail_s (c : PCtx) (msg : String) : (c.pfail msg).s = c.s := rfl

/-- What is left behind a property. -/
lemma propEscape_length (table : List UcProp) (c : PCtx) (cl : Cls) (neg : Bool) :
    (propEscape table c cl neg).2.s.length ≤ c.s.length := by
  unfold propEscape
  cases hs : c.s with
  | nil => simp [hs]
  | cons b s =>
    simp only
    by_cases hb : b ≠ 0x7B
    · rw [if_pos hb]
      simp [hs]
    · rw [if_neg hb]
      generalize hs' : (if decide (s.head? = some '^'.toNat) = true then s.tail else s) = s'
      have hle' : s'.length ≤ s.length := by
        rw [← hs']
        split_ifs <;> simp
      have hdrop := (List.dropWhile_suffix (fun x : ℕ => decide (x ≠ 0x7D)) (l := s')).length_le
      cases hd : s'.dropWhile (fun x : ℕ => decide (x ≠ 0x7D)) with
      | nil => simp
      | cons d rest =>
        rw [hd, List.length_cons] at hdrop
        have hle : rest.length ≤ (b :: s).length := by
          rw [List.length_cons]
          omega
        simp only
        by_cases hname : s'.takeWhile (fun x : ℕ => decide (x ≠ 0x7D)) = []
        · rw [if_pos hname]
          exact hle
        · rw [if_neg hname]
          cases ucFind table (s'.takeWhile fun x => decide (x ≠ 0x7D)) with
          | none => exact hle
          | some p =>
            simp only
            split_ifs <;> exact hle

/-- What is left behind hexadecimal digits. -/
lemma hexCode_length (c : PCtx) (n : ℕ) (incomplete invalid : String) :
    (hexCode c n incomplete invalid).2.s.length ≤ c.s.length := by
  unfold hexCode
  by_cases hlen : c.s.length < n
  · rw [if_pos hlen]
    simp
  · rw [if_neg hlen]
    cases hexValue (c.s.take n) with
    | none => simp
    | some v => simp

/-- A conditional leaves no more than its branches do. -/
lemma ite_left_le {p : Prop} [Decidable p] {x y : Escape × Cls × PCtx} {n : ℕ}
    (hx : x.2.2.s.length ≤ n) (hy : y.2.2.s.length ≤ n) :
    (if p then x else y).2.2.s.length ≤ n := by
  split_ifs
  · exact hx
  · exact hy

/-- What is left behind an escape. -/
lemma classEscape_length (table : List UcProp) (c : PCtx) (cl : Cls) :
    (classEscape table c cl).2.2.s.length ≤ c.s.length := by
  unfold classEscape
  cases hs : c.s with
  | nil => simp [hs]
  | cons e s =>
    have hx := hexCode_length { c with s := s } 2 "incomplete \\x escape" "invalid \\x escape"
    have hu := hexCode_length { c with s := s } 4 "incomplete \\u escape" "invalid \\u escape"
    have hp := propEscape_length table { c with s := s } cl (decide (e = 'P'.toNat))
    simp only at hx hu hp ⊢
    generalize hexCode { c with s := s } 2 _ _ = x at hx ⊢
    generalize hexCode { c with s := s } 4 _ _ = u at hu ⊢
    generalize propEscape table { c with s := s } cl _ = p at hp ⊢
    have hle : s.length ≤ (e :: s).length := Nat.le_succ _
    have hback : c.s.length ≤ (e :: s).length := Nat.le_of_eq (congrArg List.length hs)
    refine ite_left_le hle (ite_left_le (Nat.le_trans hp hle)
      (ite_left_le (Nat.le_trans hx hle) (ite_left_le (Nat.le_trans hu hle) ?_)))
    -- `n`, `r`, `t`, `f`, `v` and `0`, then the digits that are refused
    exact ite_left_le hle (ite_left_le hle (ite_left_le hle (ite_left_le hle (ite_left_le hle
      (ite_left_le hle (ite_left_le hback hle))))))

/-- What is left behind a literal or an escape of a class. -/
lemma classItem_length (table : List UcProp) (c : PCtx) (cl : Cls) (ch : ℕ) :
    (classItem table c cl ch).2.2.s.length ≤ c.s.length := by
  unfold classItem
  by_cases hch : ch = '\\'.toNat
  · rw [if_pos hch]
    exact classEscape_length table c cl
  · rw [if_neg hch]

/-- Making room reads nothing. -/
@[simp] lemma ClassScan.grow_s (st : ClassScan) : st.grow.c.s = st.c.s := by
  unfold ClassScan.grow
  split_ifs <;> rfl

/-- The end of a class reads nothing. -/
@[simp] lemma ClassScan.finish_s (st : ClassScan) (r : Option Ra) (c : PCtx) :
    (st.finish r c).2.s = c.s := rfl

/-- What is left behind a range of a class: the state to go on from, or the result. -/
lemma classRange_length (table : List UcProp) (st : ClassScan) (lo : ℕ) :
    (∀ st', classRange table st lo = .ok (.next st') → st'.c.s.length ≤ st.c.s.length) ∧
      ∀ r, classRange table st lo = .ok (.stop r) → r.2.s.length ≤ st.c.s.length := by
  unfold classRange
  cases hs : st.c.s with
  | nil => simp [hs]
  | cons d s =>
    cases s with
    | nil => simp [hs]
    | cons h s =>
      simp only
      have hitem := classItem_length table { st.c with s := s } st.cl h
      generalize classItem table { st.c with s := s } st.cl h = item at hitem
      obtain ⟨e, cl, c⟩ := item
      have hle : c.s.length ≤ (d :: h :: s).length := by
        simp only [List.length_cons]
        simp only at hitem
        omega
      by_cases hc : d = '-'.toNat ∧ h ≠ 0x5D
      · rw [if_pos hc]
        cases e with
        | failed => simpa using hle
        | shorthand => simpa using hle
        | cp hi =>
          simp only
          by_cases hlt : hi < lo
          · rw [if_pos hlt]
            simpa using hle
          · rw [if_neg hlt]
            simpa using hle
      · rw [if_neg hc]
        simp [hs]

/-- The turns of the loop of `rclass`. -/
lemma rclassTurn_length (table : List UcProp) (negated : Bool) (st : ClassScan) :
    (∀ st', rclassTurn table negated st = .ok (.next st') → st'.c.s.length < st.c.s.length) ∧
      ∀ r, rclassTurn table negated st = .ok (.stop r) → r.2.s.length ≤ st.c.s.length := by
  unfold rclassTurn
  cases hs : st.c.s with
  | nil => simp [hs]
  | cons ch s =>
    simp only
    by_cases hend : ch = 0x5D ∧ ¬ st.first = true
    · rw [if_pos hend]
      simp
    · rw [if_neg hend]
      have hitem := classItem_length table { st.c with s := s } st.cl ch
      generalize classItem table { st.c with s := s } st.cl ch = item at hitem
      obtain ⟨e, cl, c⟩ := item
      simp only at hitem
      cases e with
      | failed =>
        simp only [List.length_cons]
        refine ⟨by simp, ?_⟩
        intro r hr
        simp only [Except.ok.injEq, Loop.Turn.stop.injEq] at hr
        subst hr
        simp only [ClassScan.finish_s]
        omega
      | shorthand =>
        simp only [List.length_cons]
        refine ⟨?_, by simp⟩
        intro st' hst'
        simp only [Except.ok.injEq, Loop.Turn.next.injEq] at hst'
        subst hst'
        simp only
        omega
      | cp lo =>
        obtain ⟨hnext, hstop⟩ :=
          classRange_length table { st with c := c, cl := cl, first := false } lo
        simp only [List.length_cons]
        constructor
        · intro st' hst'
          have := hnext st' hst'
          simp only at this
          omega
        · intro r hr
          have := hstop r hr
          simp only at this
          omega

/-- The loop of `rclass` ends. -/
lemma rclassTurn_shrinks (table : List UcProp) (negated : Bool) :
    Loop.Shrinks (rclassTurn table negated) fun st => st.c.s.length :=
  fun st st' h => (rclassTurn_length table negated st).1 st' h

/-- What is left when the loop of `rclass` stops. -/
lemma rclassLoop_length {table : List UcProp} {negated : Bool} {st : ClassScan} {r : Parsed}
    (h : Loop.loop (rclassTurn table negated) () (fun st => st.c.s.length) st = .ok r) :
    r.2.s.length ≤ st.c.s.length := by
  refine Loop.loop_invariant (I := fun st' => st'.c.s.length ≤ st.c.s.length)
    (Q := fun r => r.2.s.length ≤ st.c.s.length) ?_ ?_ (Nat.le_refl _) h
  · intro st₁ st₂ hI h
    exact Nat.le_trans (Nat.le_of_lt ((rclassTurn_length table negated st₁).1 st₂ h)) hI
  · intro st₁ r hI h
    exact Nat.le_trans ((rclassTurn_length table negated st₁).2 r h) hI

/-- What is left behind a class. -/
lemma rclass_length (table : List UcProp) (c : PCtx) :
    (rclass table c).2.s.length ≤ c.s.length := by
  unfold rclass
  have hc : (if decide (c.s.head? = some '^'.toNat) = true then { c with s := c.s.tail }
      else c).s.length ≤ c.s.length := by
    split_ifs <;> simp
  simp only
  split
  · rename_i r hl
    exact Nat.le_trans (rclassLoop_length hl) hc
  · exact hc

/-- What is left behind a lazy quantifier's mark. -/
lemma skipLazy_length (s : List ℕ) : (skipLazy s).length ≤ s.length := by
  unfold skipLazy
  split_ifs <;> simp

/-- What is left behind bounds in braces. -/
lemma rbraces_length {s s' : List ℕ} {lo : ℕ} {hi : Option ℕ}
    (h : rbraces s = some (lo, hi, s')) : s'.length ≤ s.length := by
  have hdrop := fun l : List ℕ => (List.dropWhile_suffix isCount (l := l)).length_le
  unfold rbraces at h
  generalize readCount s = rc at h
  obtain ⟨ds, v, o⟩ := rc
  simp only at h
  by_cases hds : ds = []
  · rw [if_pos hds] at h
    exact absurd h (by simp)
  · rw [if_neg hds] at h
    have h₁ := hdrop s
    split at h
    · rename_i s₁ he
      rw [he, List.length_cons] at h₁
      simp only [Option.some.injEq, Prod.mk.injEq] at h
      obtain ⟨-, -, rfl⟩ := h
      omega
    · rename_i s₁ he
      rw [he, List.length_cons, List.length_cons] at h₁
      simp only [Option.some.injEq, Prod.mk.injEq] at h
      obtain ⟨-, -, rfl⟩ := h
      omega
    · rename_i s₁ _ he
      rw [he, List.length_cons] at h₁
      have h₂ := hdrop s₁
      generalize readCount s₁ = rc₁ at h
      obtain ⟨ds₁, v₁, o₁⟩ := rc₁
      simp only at h
      split at h
      · rename_i s₂ he₂
        rw [he₂, List.length_cons] at h₂
        by_cases hds₁ : ds₁ = []
        · rw [if_pos hds₁] at h
          exact absurd h (by simp)
        · rw [if_neg hds₁] at h
          simp only [Option.some.injEq, Prod.mk.injEq] at h
          obtain ⟨-, -, rfl⟩ := h
          omega
      · exact absurd h (by simp)
    · exact absurd h (by simp)

/-- What is left behind a quantifier, and its bounds. -/
lemma rquant_spec (c : PCtx) : (rquant c).2.s.length ≤ c.s.length ∧
    ∀ lo hi, (rquant c).1 = .bounds lo hi → ∀ m, hi = some m → lo ≤ m := by
  unfold rquant
  cases hs : c.s with
  | nil => simp [hs]
  | cons ch s =>
    have hlazy := skipLazy_length s
    simp only
    split_ifs with h₁ h₂ h₃ h₄
    · refine ⟨by simp only [List.length_cons]; omega, ?_⟩
      rintro lo hi hq m rfl
      simp at hq
    · refine ⟨by simp only [List.length_cons]; omega, ?_⟩
      rintro lo hi hq m rfl
      simp at hq
    · refine ⟨by simp only [List.length_cons]; omega, ?_⟩
      rintro lo hi hq m rfl
      simp only [Quantity.bounds.injEq, Option.some.injEq] at hq
      omega
    · cases hb : rbraces s with
      | none => simp
      | some b =>
        obtain ⟨lo, hi, s'⟩ := b
        have hle := rbraces_length hb
        have hlazy' := skipLazy_length s'
        simp only
        by_cases hany : (hi.any fun x => decide (x < lo)) = true
        · rw [if_pos hany]
          refine ⟨by simp only [PCtx.pfail_s, List.length_cons]; omega, by simp⟩
        · rw [if_neg hany]
          refine ⟨by simp only [List.length_cons]; omega, ?_⟩
          rintro lo' hi' hq m rfl
          obtain ⟨rfl, rfl⟩ := Quantity.bounds.injEq .. ▸ hq
          simpa using hany
    · simp [hs]

/-- What is left behind the head of a group. -/
lemma groupHead_length (c : PCtx) :
    (∀ c', groupHead c = .ok c' → c'.s.length ≤ c.s.length) ∧
      ∀ c', groupHead c = .error c' → c'.s.length ≤ c.s.length := by
  unfold groupHead
  cases hs : c.s with
  | nil => simp [hs]
  | cons q s =>
    simp only
    by_cases hq : q ≠ '?'.toNat
    · rw [if_pos hq]
      simp [hs]
    · rw [if_neg hq]
      cases s with
      | nil => simp
      | cons k s =>
        have hdrop := (List.dropWhile_suffix (fun x : ℕ => decide (x ≠ '>'.toNat))
          (l := k :: s)).length_le
        simp only
        split_ifs
        · simp
          omega
        · simp
        · simp
        · cases hd : (k :: s).dropWhile (fun x : ℕ => decide (x ≠ '>'.toNat)) with
          | nil => simp
          | cons d rest =>
            rw [hd] at hdrop
            simp only [List.length_cons] at hdrop
            simp only [Except.ok.injEq, List.length_cons]
            refine ⟨?_, by simp⟩
            rintro c' rfl
            simp only
            omega
        · simp

/-! ## Trees -/

/-- A result of the parser: nothing is read back, and a tree is well formed. -/
structure Parses (c : PCtx) (p : Parsed) : Prop where
  /-- No more is left than there was. -/
  le : p.2.s.length ≤ c.s.length
  /-- The tree is well formed. -/
  formed : ∀ r, p.1 = some r → r.wellFormed = true

/-- A result without a tree. -/
lemma Parses.none {c c' : PCtx} (h : c'.s.length ≤ c.s.length) : Parses c (none, c') :=
  ⟨h, fun r hr => absurd hr (by simp)⟩

/-- A result with a tree. -/
lemma Parses.some {c c' : PCtx} {r : Ra} (h : c'.s.length ≤ c.s.length)
    (hr : r.wellFormed = true) : Parses c (some r, c') := by
  refine ⟨h, ?_⟩
  intro r' hr'
  obtain rfl : r = r' := by simpa using hr'
  exact hr

/-- A result of a later state. -/
lemma Parses.trans {c c' : PCtx} {p : Parsed} (h : Parses c' p) (hc : c'.s.length ≤ c.s.length) :
    Parses c p := ⟨Nat.le_trans h.le hc, h.formed⟩

/-- A letter that is folded is small. -/
lemma foldCp_small {cp : ℕ}
    (h : ('a'.toNat ≤ cp ∧ cp ≤ 'z'.toNat) ∨ ('A'.toNat ≤ cp ∧ cp ≤ 'Z'.toNat)) :
    'a'.toNat ≤ foldCp cp ∧ foldCp cp ≤ 'z'.toNat := by
  have hfold : foldCp cp = if 65 ≤ cp ∧ cp ≤ 90 then cp + 32 else cp := rfl
  change (97 ≤ cp ∧ cp ≤ 122) ∨ (65 ≤ cp ∧ cp ≤ 90) at h
  change 97 ≤ foldCp cp ∧ foldCp cp ≤ 122
  rw [hfold]
  split_ifs <;> omega

/-- A literal. -/
lemma charAtom_formed (fold : Bool) (cp : ℕ) : (charAtom fold cp).wellFormed = true := by
  cases fold with
  | false => simp [charAtom, Ra.wellFormed, Ra.every, formedNode]
  | true =>
    by_cases h : ('a'.toNat ≤ cp ∧ cp ≤ 'z'.toNat) ∨ ('A'.toNat ≤ cp ∧ cp ≤ 'Z'.toNat)
    · have := foldCp_small h
      simp only [charAtom, Ra.wellFormed, Ra.every, formedNode, if_true, this, decide_true,
        Bool.and_self, Bool.or_true]
    · simp only [charAtom, Ra.wellFormed, Ra.every, formedNode, h, decide_false, Bool.and_false,
        Bool.not_false, Bool.true_or]

/-- An escaped literal. -/
lemma escapedAtom_formed (fold : Bool) (cp : ℕ) : (escapedAtom fold cp).wellFormed = true := by
  cases fold with
  | false => simp [escapedAtom, Ra.wellFormed, Ra.every, formedNode]
  | true =>
    by_cases h : 'a'.toNat ≤ cp ∧ cp ≤ 'z'.toNat
    · have := foldCp_small (Or.inl h)
      simp only [escapedAtom, Ra.wellFormed, Ra.every, formedNode, if_true, this, decide_true,
        Bool.and_self, Bool.or_true]
    · simp only [escapedAtom, Ra.wellFormed, Ra.every, formedNode, h, decide_false,
        Bool.and_false, Bool.not_false, Bool.true_or]

/-- A class. -/
lemma rclass_parses (table : List UcProp) (c : PCtx) : Parses c (rclass table c) := by
  refine ⟨rclass_length table c, ?_⟩
  intro r hr
  suffices h : ∃ ranges negated, r = .cls ranges negated by
    obtain ⟨ranges, negated, rfl⟩ := h
    rfl
  unfold rclass at hr
  simp only at hr
  split at hr
  · rename_i p hl
    refine Loop.loop_invariant (I := fun _ => True)
      (Q := fun p => p.1 = some r → ∃ ranges negated, r = .cls ranges negated)
      (fun _ _ _ _ => trivial) ?_ trivial hl hr
    intro st b _ h hb
    unfold rclassTurn classRange at h
    simp only [ClassScan.finish] at h
    grind
  · exact absurd hr (by simp)

/-- An atom behind a backslash. -/
lemma ratomEscape_parses (table : List UcProp) (c : PCtx) : Parses c (ratomEscape table c) := by
  unfold ratomEscape
  cases hs : c.s with
  | nil => exact .none (by simp [hs])
  | cons e s =>
    have hle : s.length ≤ c.s.length := by
      rw [hs]
      exact Nat.le_succ _
    have hprop := propEscape_length table { c with s := s } .new (decide (e = 'P'.toNat))
    have hesc := classEscape_length table c .new
    simp only at hprop ⊢
    generalize propEscape table { c with s := s } .new _ = p at hprop ⊢
    generalize classEscape table c .new = x at hesc ⊢
    obtain ⟨cl, c₁⟩ := p
    obtain ⟨r, cl', c₂⟩ := x
    by_cases hsh : e ∈ ['d', 'w', 's', 'D', 'W', 'S'].map Char.toNat
    · rw [if_pos hsh]
      exact .some hle rfl
    rw [if_neg hsh]
    split
    · split
      · exact .none (Nat.le_trans hprop hle)
      · exact .some (Nat.le_trans hprop hle) rfl
    split
    · exact .some hle rfl
    split
    · exact .some hle rfl
    cases r with
    | failed => exact .none hesc
    | shorthand => exact .none hesc
    | cp v => exact .some hesc (escapedAtom_formed _ v)

/-- A group. -/
lemma ratomGroup_parses {alt : PCtx → Parsed} (halt : ∀ c, Parses c (alt c)) (c : PCtx) :
    Parses c (ratomGroup alt c) := by
  obtain ⟨hok, herr⟩ := groupHead_length c
  unfold ratomGroup
  cases hg : groupHead c with
  | error c' => exact .none (herr c' hg)
  | ok c' =>
    have hc' := hok c' hg
    have hp := halt c'
    simp only
    generalize alt c' = p at hp ⊢
    obtain ⟨body, c₁⟩ := p
    have hle : c₁.s.length ≤ c.s.length := Nat.le_trans hp.le hc'
    simp only
    split
    · exact .none hle
    · cases hs : c₁.s with
      | nil => exact .none hle
      | cons b s =>
        rw [hs, List.length_cons] at hle
        simp only
        split
        · refine .none ?_
          rw [PCtx.pfail_s, hs, List.length_cons]
          exact hle
        · refine .some (Nat.le_of_succ_le hle) ?_
          cases body with
          | none => rfl
          | some r =>
            have hr := hp.formed r rfl
            simpa [Ra.wellFormed, Ra.every, everyOf, formedNode] using hr

/-- An atom, which takes something of the pattern. -/
lemma ratom_parses (table : List UcProp) {alt : PCtx → Parsed} (halt : ∀ c, Parses c (alt c))
    (c : PCtx) : Parses c (ratom table alt c) ∧
      ((ratom table alt c).1.isSome → (ratom table alt c).2.s.length < c.s.length) := by
  unfold ratom
  cases hs : c.s with
  | nil => exact ⟨.none (Nat.le_refl _), by simp⟩
  | cons ch s =>
    have hlt : s.length < (ch :: s).length := Nat.lt_succ_self _
    have hle : s.length ≤ c.s.length := by
      rw [hs]
      exact Nat.le_succ _
    have hlater : ∀ p : Parsed, Parses { c with s := s } p →
        Parses c p ∧ (p.1.isSome → p.2.s.length < (ch :: s).length) :=
      fun p hp => ⟨hp.trans hle, fun _ => Nat.lt_of_le_of_lt hp.le hlt⟩
    simp only
    split
    · exact ⟨.none (Nat.le_refl _), by simp⟩
    split
    · exact hlater _ (.some (Nat.le_refl _) rfl)
    split
    · exact hlater _ (.some (Nat.le_refl _) rfl)
    split
    · exact hlater _ (.some (Nat.le_refl _) rfl)
    split
    · exact hlater _ (rclass_parses table _)
    split
    · exact hlater _ (ratomGroup_parses halt _)
    split
    · exact hlater _ (ratomEscape_parses table _)
    · exact hlater _ (.some (Nat.le_refl _) (charAtom_formed _ ch))

/-- An atom with its quantifier. -/
lemma rrepeat_parses (table : List UcProp) {alt : PCtx → Parsed} (halt : ∀ c, Parses c (alt c))
    (c : PCtx) : Parses c (rrepeat table alt c) ∧
      ((rrepeat table alt c).1.isSome → (rrepeat table alt c).2.s.length < c.s.length) := by
  obtain ⟨hatom, hlt⟩ := ratom_parses table halt c
  unfold rrepeat
  generalize ratom table alt c = p at hatom hlt
  obtain ⟨atom, c₁⟩ := p
  cases atom with
  | none => exact ⟨hatom, by simp⟩
  | some atom =>
    have hlt' : c₁.s.length < c.s.length := hlt rfl
    have hformed := hatom.formed atom rfl
    obtain ⟨hq, hbounds⟩ := rquant_spec c₁
    simp only
    generalize rquant c₁ = q at hq hbounds
    obtain ⟨q, c₂⟩ := q
    have hlt₂ : c₂.s.length < c.s.length := Nat.lt_of_le_of_lt hq hlt'
    cases q with
    | invalid => exact ⟨.none (Nat.le_of_lt hlt₂), by simp⟩
    | absent => exact ⟨.some (Nat.le_of_lt hlt₂) hformed, fun _ => hlt₂⟩
    | bounds lo hi =>
      simp only
      split
      · exact ⟨.none (Nat.le_of_lt hlt₂), by simp⟩
      · refine ⟨.some (Nat.le_of_lt hlt₂) ?_, fun _ => hlt₂⟩
        have hb : hi.all (lo ≤ ·) = true := by
          cases hi with
          | none => rfl
          | some m => simpa using hbounds lo (some m) rfl m rfl
        simp only [Ra.wellFormed, Ra.every, formedNode, hb, Bool.true_and, Bool.or_eq_true]
        exact Or.inr hformed

/-- Well-formed trees in a row. -/
lemma everyOf_append (p : Ra → Bool) (rs : List Ra) (r : Ra) :
    everyOf p (rs ++ [r]) = (everyOf p rs && r.every p) := by
  induction rs with
  | nil => simp [everyOf]
  | cons q qs ih =>
    rw [List.cons_append, everyOf, everyOf, ih, Bool.and_assoc]

/-- The loop of `rconcat` ends. -/
lemma rconcatTurn_shrinks (table : List UcProp) {alt : PCtx → Parsed}
    (halt : ∀ c, Parses c (alt c)) :
    Loop.Shrinks (rconcatTurn table alt) fun st => st.1.s.length := by
  rintro ⟨c, pieces⟩ st' h
  obtain ⟨-, hlt⟩ := rrepeat_parses table halt c
  unfold rconcatTurn at h
  simp only at h
  split at h
  · exact absurd h (by simp)
  · generalize rrepeat table alt c = p at h hlt
    obtain ⟨piece, c'⟩ := p
    cases piece with
    | none => exact absurd h (by simp)
    | some piece =>
      simp only [Except.ok.injEq, Loop.Turn.next.injEq] at h
      subst h
      exact hlt rfl

/-- A sequence. -/
lemma rconcat_parses (table : List UcProp) {alt : PCtx → Parsed} (halt : ∀ c, Parses c (alt c))
    (c : PCtx) : Parses c (rconcat table alt c) := by
  unfold rconcat
  cases hl : Loop.loop (rconcatTurn table alt) () (fun st => st.1.s.length) (c, []) with
  | error e => exact .none (Nat.le_refl _)
  | ok r =>
    refine Loop.loop_invariant
      (I := fun st => st.1.s.length ≤ c.s.length ∧ everyOf formedNode st.2 = true)
      (Q := fun r => Parses c r) ?_ ?_ ⟨Nat.le_refl _, rfl⟩ hl
    · rintro ⟨c₁, pieces⟩ st' ⟨hle, hps⟩ h
      obtain ⟨hp, -⟩ := rrepeat_parses table halt c₁
      unfold rconcatTurn at h
      simp only at h hle hps
      split at h
      · exact absurd h (by simp)
      · generalize rrepeat table alt c₁ = p at h hp
        obtain ⟨piece, c'⟩ := p
        cases piece with
        | none => exact absurd h (by simp)
        | some piece =>
          simp only [Except.ok.injEq, Loop.Turn.next.injEq] at h
          subst h
          have hf : piece.every formedNode = true := hp.formed piece rfl
          exact ⟨Nat.le_trans hp.le hle, by rw [everyOf_append, hps, hf]; rfl⟩
    · rintro ⟨c₁, pieces⟩ r' ⟨hle, hps⟩ h
      obtain ⟨hp, -⟩ := rrepeat_parses table halt c₁
      have hseq : (Ra.seq pieces).wellFormed = true := by
        simpa [Ra.wellFormed, Ra.every, formedNode] using hps
      unfold rconcatTurn at h
      simp only at h hle
      split at h
      · obtain rfl : (some (Ra.seq pieces), c₁) = r' := by simpa using h
        exact .some hle hseq
      · generalize rrepeat table alt c₁ = p at h hp
        obtain ⟨piece, c'⟩ := p
        cases piece with
        | some piece => exact absurd h (by simp)
        | none =>
          simp only [Except.ok.injEq, Loop.Turn.stop.injEq] at h
          subst h
          split
          · exact .none (Nat.le_trans hp.le hle)
          · exact .some (Nat.le_trans hp.le hle) hseq

/-- The loop of `ralternation` ends. -/
lemma ralternationTurn_shrinks {concat : PCtx → Parsed} (hconcat : ∀ c, Parses c (concat c))
    (first : Ra) : Loop.Shrinks (ralternationTurn concat first) fun st => st.1.s.length := by
  rintro ⟨c, others⟩ st' h
  unfold ralternationTurn at h
  cases hs : c.s with
  | nil =>
    simp only [hs] at h
    exact absurd h (by simp)
  | cons b s =>
    simp only [hs] at h
    split at h
    · have hp := hconcat { c with s := s }
      generalize concat { c with s := s } = p at h hp
      obtain ⟨branch, c'⟩ := p
      cases branch with
      | none => exact absurd h (by simp)
      | some branch =>
        simp only [Except.ok.injEq, Loop.Turn.next.injEq] at h
        subst h
        have hle : c'.s.length ≤ s.length := hp.le
        simp only [hs, List.length_cons]
        omega
    · exact absurd h (by simp)

/-- An alternation. -/
lemma branches_parses {concat : PCtx → Parsed} (hconcat : ∀ c, Parses c (concat c)) (c : PCtx) :
    Parses c (branches concat c) := by
  have hfirst := hconcat c
  unfold branches
  generalize concat c = p at hfirst
  obtain ⟨first, c₁⟩ := p
  cases first with
  | none => exact hfirst
  | some first =>
    have hff : first.every formedNode = true := hfirst.formed first rfl
    simp only
    split
    · exact hfirst
    · cases hl : Loop.loop (ralternationTurn concat first) () (fun st => st.1.s.length)
        (c₁, []) with
      | error e => exact .none hfirst.le
      | ok r =>
        refine Loop.loop_invariant
          (I := fun st => st.1.s.length ≤ c.s.length ∧ everyOf formedNode st.2 = true)
          (Q := fun r => Parses c r) ?_ ?_ ⟨hfirst.le, rfl⟩ hl
        · rintro ⟨c₂, others⟩ st' ⟨hle, hos⟩ h
          unfold ralternationTurn at h
          cases hs : c₂.s with
          | nil =>
            simp only [hs] at h
            exact absurd h (by simp)
          | cons b s =>
            simp only [hs] at h hle hos
            split at h
            · have hp := hconcat { c₂ with s := s }
              generalize concat { c₂ with s := s } = p at h hp
              obtain ⟨branch, c'⟩ := p
              cases branch with
              | none => exact absurd h (by simp)
              | some branch =>
                simp only [Except.ok.injEq, Loop.Turn.next.injEq] at h
                subst h
                have hle' : c'.s.length ≤ s.length := hp.le
                have hf : branch.every formedNode = true := hp.formed branch rfl
                rw [List.length_cons] at hle
                exact ⟨by simp only; omega, by rw [everyOf_append, hos, hf]; rfl⟩
            · exact absurd h (by simp)
        · rintro ⟨c₂, others⟩ r' ⟨hle, hos⟩ h
          have halt : (Ra.alt first others).wellFormed = true := by
            simp only at hos
            simp [Ra.wellFormed, Ra.every, formedNode, hos, hff]
          unfold ralternationTurn at h
          cases hs : c₂.s with
          | nil =>
            simp only [hs] at h
            obtain rfl : (some (Ra.alt first others), c₂) = r' := by simpa using h
            exact .some hle halt
          | cons b s =>
            simp only [hs] at h
            split at h
            · have hp := hconcat { c₂ with s := s }
              generalize concat { c₂ with s := s } = p at h hp
              obtain ⟨branch, c'⟩ := p
              cases branch with
              | some branch => exact absurd h (by simp)
              | none =>
                simp only [Except.ok.injEq, Loop.Turn.stop.injEq] at h
                subst h
                have hle' : c'.s.length ≤ s.length := hp.le
                simp only [hs, List.length_cons] at hle
                exact .none (by omega)
            · obtain rfl : (some (Ra.alt first others), c₂) = r' := by simpa using h
              exact .some hle halt

/-- `ralternation`. -/
lemma ralternation_parses (table : List UcProp) (levels : ℕ) (c : PCtx) :
    Parses c (ralternation table levels c) := by
  induction levels generalizing c with
  | zero => exact .none (Nat.le_refl _)
  | succ levels ih =>
    rw [ralternation]
    exact branches_parses (rconcat_parses table ih) c

/-- The tree of a pattern is well formed. -/
theorem regexTree_wellFormed {table : List UcProp} {pattern : Bytes} {r : Ra} {c : PCtx}
    (h : regexTree table pattern = (some r, c)) : r.wellFormed = true := by
  have hp := ralternation_parses table ((startCtx pattern).s.length + 1) (startCtx pattern)
  exact hp.formed r (congrArg Prod.fst h)

end Teptris
