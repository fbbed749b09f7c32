import Teptris.Schema.RegexSites

/-!
# The text of a class

What stands between the brackets of a class, read without a buffer: literals, ranges, shorthands
and properties.  `rclass` adds them to its class in this order (`rclassLoop_members`).
-/

namespace Teptris

/-! ## Members -/

/-- What a class is made of. -/
inductive ClassMember where
  /-- A code point. -/
  | one (cp : ℕ)
  /-- A range. -/
  | span (lo hi : ℕ)
  /-- `\d` … `\S`, by the letter. -/
  | shorthand (e : ℕ)
  /-- The ranges of a property or what they leave out. -/
  | property (p : UcProp) (negate : Bool)

/-- What a literal or an escape inside a class stands for. -/
inductive ClassUnit where
  /-- A code point. -/
  | cp (v : ℕ)
  /-- `\d` … `\S`, by the letter. -/
  | shorthand (e : ℕ)
  /-- `\p` or `\P`, without a property where none is known by the name. -/
  | property (p : Option (UcProp × Bool))

/-- The members of an escape that is not a code point. -/
def ClassUnit.members : ClassUnit → List ClassMember
  | .cp _ => []
  | .shorthand e => [.shorthand e]
  | .property p => p.toList.map fun q => .property q.1 q.2

/-- The property behind `\p` or `\P` with the flag of the complement, and what follows it. -/
def propText (table : List UcProp) (s : List ℕ) (negateLetter : Bool) :
    Option (UcProp × Bool) × List ℕ :=
  match s with
  | [] => (none, [])
  | b :: s =>
    if b ≠ 0x7B then (none, b :: s)
    else
      let innerNeg : Bool := s.head? = some '^'.toNat
      let s := if innerNeg then s.tail else s
      let name := s.takeWhile (· ≠ 0x7D)
      match s.dropWhile (· ≠ 0x7D) with
      | [] => (none, [])
      | _ :: rest =>
        (if name = [] then none else (ucFind table name).map (·, negateLetter != innerNeg), rest)

/-- A literal or an escape whose first code point is `ch`, and what follows it; `none` for an
error that ends the class. -/
def unitText (table : List UcProp) (ch : ℕ) (s : List ℕ) : Option (ClassUnit × List ℕ) :=
  if ch ≠ '\\'.toNat then some (.cp ch, s)
  else
    match s with
    | [] => none
    | e :: s =>
      if e ∈ ['d', 'D', 'w', 'W', 's', 'S'].map Char.toNat then some (.shorthand e, s)
      else if e = 'p'.toNat ∨ e = 'P'.toNat then
        let q := propText table s (e = 'P'.toNat)
        some (.property q.1, q.2)
      else
        match classEscape table { s := e :: s, fold := false, err := none, overrun := false }
          .new with
        | (.cp v, _, c) => some (.cp v, c.s)
        | _ => none

/-- The range with the lower end `lo` when a `-` that does not end the class follows, else `lo`
alone; and the text behind it unless the class ends with an error. -/
def rangeText (table : List UcProp) (lo : ℕ) (s : List ℕ) : List ClassMember × Option (List ℕ) :=
  match s with
  | d :: h :: s' =>
    if d = '-'.toNat ∧ h ≠ 0x5D then
      match unitText table h s' with
      | none => ([], none)
      | some (.cp hi, s') => if hi < lo then ([], none) else ([.span lo hi], some s')
      | some (u, _) => (u.members, none)
    else ([.one lo], some s)
  | _ => ([.one lo], some s)

/-- What one turn of the loop of `rclass` adds, and the text behind it unless the class ends with
an error. -/
def turnText (table : List UcProp) (ch : ℕ) (s : List ℕ) : List ClassMember × Option (List ℕ) :=
  match unitText table ch s with
  | none => ([], none)
  | some (.cp lo, s) => rangeText table lo s
  | some (u, s) => (u.members, some s)

/-! ## What is read is shorter -/

lemma propText_length (table : List UcProp) (s : List ℕ) (neg : Bool) :
    (propText table s neg).2.length ≤ s.length := by
  unfold propText
  cases s with
  | nil => simp
  | cons b s =>
    by_cases hb : b ≠ 0x7B
    · simp [hb]
    · simp only [if_neg hb]
      have htail : (if decide (s.head? = some '^'.toNat) = true then s.tail else s).length ≤
          s.length := by
        split_ifs <;> simp
      have hdrop := (List.dropWhile_suffix (· ≠ 0x7D)
        (l := if decide (s.head? = some '^'.toNat) = true then s.tail else s)).length_le
      split
      · simp
      · rename_i hs
        rw [hs] at hdrop
        simp only [List.length_cons] at hdrop ⊢
        omega

lemma unitText_length {table : List UcProp} {ch : ℕ} {s s' : List ℕ} {u : ClassUnit}
    (h : unitText table ch s = some (u, s')) : s'.length ≤ s.length := by
  unfold unitText at h
  split_ifs at h with hch
  · obtain ⟨-, rfl⟩ : ClassUnit.cp ch = u ∧ s = s' := by simpa using h
    exact Nat.le_refl _
  · cases s with
    | nil => simp at h
    | cons e s =>
      simp only at h
      split_ifs at h with hsh hp
      · obtain ⟨-, rfl⟩ : ClassUnit.shorthand e = u ∧ s = s' := by simpa using h
        simp
      · have hlen := propText_length table s (e = 'P'.toNat)
        obtain ⟨-, rfl⟩ := Prod.mk.inj (Option.some.inj h)
        simp only [List.length_cons]
        omega
      · have hlen := classEscape_length table
          { s := e :: s, fold := false, err := none, overrun := false } .new
        split at h
        · rename_i v cl c hc
          rw [hc] at hlen
          obtain ⟨-, rfl⟩ := Prod.mk.inj (Option.some.inj h)
          exact hlen
        · simp at h

lemma rangeText_length {table : List UcProp} {lo : ℕ} {s s' : List ℕ} {ms : List ClassMember}
    (h : rangeText table lo s = (ms, some s')) : s'.length ≤ s.length := by
  unfold rangeText at h
  split at h
  · rename_i d e s₁
    split_ifs at h with hd
    · split at h
      · simp at h
      · rename_i hi s₂ hu₂
        have hlen₂ := unitText_length hu₂
        split_ifs at h with hlt
        · simp at h
        · obtain ⟨-, h⟩ := Prod.mk.inj h
          obtain rfl := Option.some.inj h
          simp only [List.length_cons]
          omega
      · simp at h
    · obtain ⟨-, h⟩ := Prod.mk.inj h
      obtain rfl := Option.some.inj h
      exact Nat.le_refl _
  · obtain ⟨-, h⟩ := Prod.mk.inj h
    obtain rfl := Option.some.inj h
    exact Nat.le_refl _

lemma turnText_length {table : List UcProp} {ch : ℕ} {s s' : List ℕ} {ms : List ClassMember}
    (h : turnText table ch s = (ms, some s')) : s'.length ≤ s.length := by
  unfold turnText at h
  split at h
  · simp at h
  · rename_i hu
    exact Nat.le_trans (rangeText_length h) (unitText_length hu)
  · rename_i hu
    obtain ⟨-, h⟩ := Prod.mk.inj h
    obtain rfl := Option.some.inj h
    exact unitText_length hu

/-- The members of a class, `first` where none has been read, and whether the class is closed. -/
def classMembers (table : List UcProp) (first : Bool) (s : List ℕ) : List ClassMember × Bool :=
  match s with
  | [] => ([], false)
  | ch :: s =>
    if ch = 0x5D ∧ ¬ first then ([], true)
    else
      match _h : turnText table ch s with
      | (ms, none) => (ms, false)
      | (ms, some s') =>
        let rest := classMembers table false s'
        (ms ++ rest.1, rest.2)
termination_by s.length
decreasing_by
  have := turnText_length _h
  simp only [List.length_cons]
  omega

lemma classMembers_nil (table : List UcProp) (first : Bool) :
    classMembers table first [] = ([], false) := by
  rw [classMembers]

lemma classMembers_close (table : List UcProp) {s : List ℕ} :
    classMembers table false (0x5D :: s) = ([], true) := by
  rw [classMembers, if_pos ⟨rfl, by simp⟩]

lemma classMembers_cons {table : List UcProp} {first : Bool} {ch : ℕ} {s : List ℕ}
    (h : ¬ (ch = 0x5D ∧ ¬ first)) :
    classMembers table first (ch :: s) =
      match turnText table ch s with
      | (ms, none) => (ms, false)
      | (ms, some s') =>
        (ms ++ (classMembers table false s').1, (classMembers table false s').2) := by
  rw [classMembers, if_neg h]
  rcases turnText table ch s with ⟨ms, _ | s'⟩ <;> rfl

/-! ## What a member adds -/

/-- A class under construction with `cap`. -/
structure ClsRoom where
  /-- The class. -/
  cl : Cls
  /-- `cap`. -/
  cap : ℕ

/-- Room for the ranges of one more literal. -/
def ClsRoom.grow (b : ClsRoom) : ClsRoom :=
  if b.cap ≤ b.cl.ranges.length + 2 then { cl := b.cl.reserve (b.cap * 2), cap := b.cap * 2 } else b

/-- The ranges of a property, or those of its complement, in a buffer reserved for them. -/
def Cls.addProperty (cl : Cls) (p : UcProp) (negate : Bool) : Cls :=
  let cl := cl.reserve ((if negate then 2 * p.ranges.length else p.ranges.length) + 8)
  if negate then clsAppendComplement cl p.ranges
  else p.ranges.foldl (fun cl r => cl.push r.lo r.hi) cl

/-- What `rclass` does for a member. -/
def ClsRoom.add (fold : Bool) (b : ClsRoom) : ClassMember → ClsRoom
  | .one cp => { b.grow with cl := clsAddCp fold b.grow.cl cp }
  | .span lo hi => { b.grow with cl := clsAdd fold b.grow.cl lo hi }
  | .shorthand e => { b with cl := clsShorthand fold b.cl e }
  | .property p negate => { b with cl := b.cl.addProperty p negate }

/-- What `rclass` does for some members, one after the other. -/
def ClsRoom.addAll (fold : Bool) (b : ClsRoom) (ms : List ClassMember) : ClsRoom :=
  ms.foldl (ClsRoom.add fold) b

/-- The class with `cap` in a state of the loop of `rclass`. -/
def ClassScan.build (st : ClassScan) : ClsRoom := { cl := st.cl, cap := st.cap }

/-! ## Reading and adding -/

/-- `prop_escape` adds the property that stands in the text, or reports an error. -/
lemma propEscape_text (table : List UcProp) (c : PCtx) (cl : Cls) (neg : Bool) :
    ∃ err, ((propText table c.s neg).1 = none → err.isSome = true) ∧
      ((propText table c.s neg).1 ≠ none → err = c.err) ∧
      propEscape table c cl neg =
        ((propText table c.s neg).1.elim cl fun q => cl.addProperty q.1 q.2,
          { c with s := (propText table c.s neg).2, err := err }) := by
  have hfail : ∀ (o : Option String) (msg : String), (o.or (some msg)).isSome = true := by
    intro o msg
    cases o <;> rfl
  obtain ⟨cs, cfold, cerr, cover⟩ := c
  unfold propEscape propText
  cases cs with
  | nil => exact ⟨_, fun _ => hfail cerr _, fun h => absurd rfl h, rfl⟩
  | cons b s =>
    by_cases hb : b ≠ 0x7B
    · simp only [if_pos hb]
      exact ⟨_, fun _ => hfail cerr _, fun h => absurd rfl h, rfl⟩
    · simp only [if_neg hb]
      generalize (if decide (s.head? = some '^'.toNat) = true then s.tail else s) = s₁
      cases hdrop : s₁.dropWhile (· ≠ 0x7D) with
      | nil => exact ⟨_, fun _ => hfail cerr _, fun h => absurd rfl h, rfl⟩
      | cons b' rest =>
        simp only
        by_cases hname : s₁.takeWhile (· ≠ 0x7D) = []
        · simp only [if_pos hname]
          exact ⟨_, fun _ => hfail cerr _, fun h => absurd rfl h, rfl⟩
        · simp only [if_neg hname]
          cases ucFind table (s₁.takeWhile (· ≠ 0x7D)) with
          | none => exact ⟨_, fun _ => hfail cerr _, fun h => absurd rfl h, rfl⟩
          | some p =>
            refine ⟨cerr, fun h => by simp at h, fun _ => rfl, ?_⟩
            simp only [Option.map_some, Option.elim_some, Cls.addProperty]
            split_ifs <;> rfl

lemma hexCode_text (c : PCtx) (s : List ℕ) (n : ℕ) (incomplete invalid : String) :
    ∃ err, hexCode { c with s := s } n incomplete invalid =
      ((hexCode { s := s, fold := false, err := none, overrun := false } n incomplete invalid).1,
        { c with
          s := (hexCode { s := s, fold := false, err := none, overrun := false } n incomplete
            invalid).2.s
          err := err }) := by
  unfold hexCode
  simp only
  by_cases hn : s.length < n
  · simp only [if_pos hn]
    exact ⟨_, rfl⟩
  · simp only [if_neg hn]
    cases hexValue (s.take n) with
    | none => exact ⟨_, rfl⟩
    | some v => exact ⟨c.err, rfl⟩

/-- An escape for a code point depends on the text only, and adds nothing. -/
lemma classEscape_text {table : List UcProp} {e : ℕ}
    (hsh : e ∉ ['d', 'D', 'w', 'W', 's', 'S'].map Char.toNat)
    (hp : ¬ (e = 'p'.toNat ∨ e = 'P'.toNat)) (c : PCtx) (s : List ℕ) (cl : Cls) :
    ∃ err, classEscape table { c with s := e :: s } cl =
      ((classEscape table { s := e :: s, fold := false, err := none, overrun := false } .new).1, cl,
        { c with
          s := (classEscape table { s := e :: s, fold := false, err := none, overrun := false }
            .new).2.2.s
          err := err }) := by
  unfold classEscape
  simp only [if_neg hsh, if_neg hp]
  by_cases hx : e = 'x'.toNat
  · simp only [if_pos hx]
    obtain ⟨err, he⟩ := hexCode_text c s 2 "incomplete \\x escape" "invalid \\x escape"
    exact ⟨err, by rw [he]⟩
  simp only [if_neg hx]
  by_cases hu : e = 'u'.toNat
  · simp only [if_pos hu]
    obtain ⟨err, he⟩ := hexCode_text c s 4 "incomplete \\u escape" "invalid \\u escape"
    exact ⟨err, by rw [he]⟩
  simp only [if_neg hu]
  split_ifs <;> exact ⟨_, rfl⟩

lemma classEscape_ne_shorthand {table : List UcProp} {e : ℕ}
    (hsh : e ∉ ['d', 'D', 'w', 'W', 's', 'S'].map Char.toNat)
    (hp : ¬ (e = 'p'.toNat ∨ e = 'P'.toNat)) (s : List ℕ) :
    (classEscape table { s := e :: s, fold := false, err := none, overrun := false } .new).1 ≠
      .shorthand := by
  have hhex : ∀ (c : PCtx) (n : ℕ) (incomplete invalid : String),
      (hexCode c n incomplete invalid).1 ≠ .shorthand := by
    intro c n incomplete invalid
    unfold hexCode
    split_ifs
    · simp
    · split <;> simp
  unfold classEscape
  simp only [if_neg hsh, if_neg hp]
  split_ifs <;> first | exact hhex _ _ _ _ | simp

/-- What `class_escape` and the literals of a class do is told by the text. -/
lemma classItem_text (table : List UcProp) (c : PCtx) (cl : Cls) (ch : ℕ) :
    match unitText table ch c.s with
    | none => ∃ s err, classItem table c cl ch = (.failed, cl, { c with s := s, err := err })
    | some (.cp v, s) => ∃ err, classItem table c cl ch = (.cp v, cl, { c with s := s, err := err })
    | some (.shorthand e, s) =>
      classItem table c cl ch = (.shorthand, clsShorthand c.fold cl e, { c with s := s })
    | some (.property p, s) => ∃ err, classItem table c cl ch =
        (.shorthand, p.elim cl fun q => cl.addProperty q.1 q.2, { c with s := s, err := err }) := by
  unfold unitText classItem
  by_cases hch : ch = '\\'.toNat
  · rw [if_neg (not_not.mpr hch), if_pos hch]
    cases hs : c.s with
    | nil =>
      refine ⟨[], (c.pfail "trailing backslash in pattern").err, ?_⟩
      simp only [classEscape, hs, PCtx.pfail]
    | cons e s =>
      have hc : c = { c with s := e :: s } := by rw [← hs]
      simp only
      by_cases hsh : e ∈ ['d', 'D', 'w', 'W', 's', 'S'].map Char.toNat
      · simp only [if_pos hsh]
        rw [classEscape, hs]
        simp only [if_pos hsh]
      · simp only [if_neg hsh]
        by_cases hp : e = 'p'.toNat ∨ e = 'P'.toNat
        · simp only [if_pos hp]
          obtain ⟨err, -, -, he⟩ := propEscape_text table { c with s := s } cl (e = 'P'.toNat)
          refine ⟨err, ?_⟩
          rw [classEscape, hs]
          simp only [if_neg hsh, if_pos hp]
          rw [he]
        · simp only [if_neg hp]
          obtain ⟨err, he⟩ := @classEscape_text table e hsh hp c s cl
          rw [← hc] at he
          rw [he]
          have hne := @classEscape_ne_shorthand table e hsh hp s
          generalize classEscape table { s := e :: s, fold := false, err := none, overrun := false }
            .new = q at hne ⊢
          rcases q with ⟨v | _ | _, cl', c'⟩
          · exact ⟨err, rfl⟩
          · exact absurd rfl hne
          · exact ⟨_, err, rfl⟩
  · rw [if_pos hch, if_neg hch]
    exact ⟨c.err, rfl⟩

lemma grow_build (st : ClassScan) :
    st.grow = { st with cl := st.build.grow.cl, cap := st.build.grow.cap } := by
  unfold ClassScan.grow ClsRoom.grow ClassScan.build
  split_ifs <;> rfl

/-- An escape that is not a code point does what its members do. -/
lemma addAll_members (fold : Bool) (b : ClsRoom) (u : ClassUnit) :
    b.addAll fold u.members =
      match u with
      | .cp _ => b
      | .shorthand e => { b with cl := clsShorthand fold b.cl e }
      | .property p => { b with cl := p.elim b.cl fun q => b.cl.addProperty q.1 q.2 } := by
  cases u with
  | cp v => rfl
  | shorthand e => rfl
  | property p => cases p <;> rfl

/-- A turn of the loop of `rclass` that adds some members and goes on in a text, or ends with an
error. -/
def ClassScan.turn (st : ClassScan) (q : List ClassMember × Option (List ℕ)) (s : List ℕ)
    (err : Option String) : Loop.Turn ClassScan Parsed :=
  let b := st.build.addAll st.c.fold q.1
  match q.2 with
  | some s =>
    .next { c := { st.c with s := s, err := err }, cl := b.cl, cap := b.cap, first := false }
  | none => .stop (none, {
      st.c with s := s, err := err, overrun := st.c.overrun || b.cl.overrun })

/-- A lower end with the range it may begin. -/
lemma classRange_text (table : List UcProp) (c : PCtx) (cl : Cls) (cap lo : ℕ) :
    ∃ s err, classRange table { c := c, cl := cl, cap := cap, first := false } lo =
      .ok (({ c := c, cl := cl, cap := cap, first := false } : ClassScan).turn
        (rangeText table lo c.s) s err) := by
  obtain ⟨s, fold, err, undef⟩ := c
  have hone : ∃ s' err', Except.ok (ε := Unit) (Loop.Turn.next (β := Parsed) (let st :=
      ({ c := ⟨s, fold, err, undef⟩, cl := cl, cap := cap, first := false } : ClassScan).grow
      { st with cl := clsAddCp fold st.cl lo })) =
        .ok (({ c := ⟨s, fold, err, undef⟩, cl := cl, cap := cap, first := false } : ClassScan).turn
          ([.one lo], some s) s' err') := by
    refine ⟨s, err, ?_⟩
    rw [grow_build]
    rfl
  rcases s with _ | ⟨d, _ | ⟨h, s⟩⟩
  · exact hone
  · exact hone
  unfold classRange rangeText
  by_cases hd : d = '-'.toNat ∧ h ≠ 0x5D
  · simp only [if_pos hd]
    have hitem := classItem_text table ⟨s, fold, err, undef⟩ cl h
    cases hu : unitText table h s with
    | none =>
      rw [hu] at hitem
      obtain ⟨s', err, hitem⟩ := hitem
      rw [hitem]
      exact ⟨s', err, rfl⟩
    | some q =>
      obtain ⟨u, s₁⟩ := q
      rw [hu] at hitem
      cases u with
      | shorthand e =>
        rw [hitem]
        exact ⟨s₁, _, rfl⟩
      | property p =>
        obtain ⟨err, hitem⟩ := hitem
        rw [hitem]
        cases p <;> exact ⟨s₁, _, rfl⟩
      | cp hi =>
        obtain ⟨err, hitem⟩ := hitem
        rw [hitem]
        simp only
        by_cases hlt : hi < lo
        · simp only [if_pos hlt]
          exact ⟨s₁, _, rfl⟩
        · simp only [if_neg hlt]
          refine ⟨s₁, err, ?_⟩
          rw [grow_build]
          rfl
  · simp only [if_neg hd]
    exact hone

/-- One turn of the loop of `rclass` does what the members of its text do. -/
lemma rclassTurn_text {table : List UcProp} {negated : Bool} {st : ClassScan} {ch : ℕ}
    {s : List ℕ} (hs : st.c.s = ch :: s) (hopen : ¬ (ch = 0x5D ∧ ¬ st.first)) :
    ∃ s' err, rclassTurn table negated st = .ok (st.turn (turnText table ch s) s' err) := by
  have hitem := classItem_text table { st.c with s := s } st.cl ch
  unfold rclassTurn turnText
  simp only [hs, if_neg hopen]
  cases hu : unitText table ch s with
  | none =>
    rw [hu] at hitem
    obtain ⟨s', err, hitem⟩ := hitem
    exact ⟨s', err, by rw [hitem]; rfl⟩
  | some q =>
    obtain ⟨u, s₁⟩ := q
    rw [hu] at hitem
    cases u with
    | shorthand e => exact ⟨s₁, st.c.err, by rw [hitem]; rfl⟩
    | property p =>
      obtain ⟨err, hitem⟩ := hitem
      refine ⟨s₁, err, ?_⟩
      rw [hitem]
      cases p <;> rfl
    | cp lo =>
      obtain ⟨err, hitem⟩ := hitem
      rw [hitem]
      exact classRange_text table { st.c with s := s₁, err := err } st.cl st.cap lo

/-- How `rclass` returns: with the class, sorted and merged, where the closing bracket is there. -/
def ClsRoom.finish (b : ClsRoom) (negated closed : Bool) (c : PCtx) : Parsed :=
  if closed then
    (some (.cls (clsSortMerge b.cl).ranges negated),
      { c with overrun := c.overrun || (clsSortMerge b.cl).overrun })
  else (none, { c with overrun := c.overrun || b.cl.overrun })

lemma addAll_append (fold : Bool) (b : ClsRoom) (ms ms' : List ClassMember) :
    b.addAll fold (ms ++ ms') = (b.addAll fold ms).addAll fold ms' := List.foldl_append

/-- The first turn of the loop of `rclass`, by the text. -/
lemma rclassTurn_cases (table : List UcProp) (negated : Bool) (st : ClassScan) :
    (∃ c' : PCtx, ReadsOn st.c c' ∧ rclassTurn table negated st =
      .ok (.stop ((st.build.addAll st.c.fold (classMembers table st.first st.c.s).1).finish negated
        (classMembers table st.first st.c.s).2 c'))) ∨
    ∃ ms s' err, classMembers table st.first st.c.s =
        (ms ++ (classMembers table false s').1, (classMembers table false s').2) ∧
      rclassTurn table negated st = .ok (st.turn (ms, some s') s' err) := by
  cases hs : st.c.s with
  | nil =>
    left
    rw [classMembers_nil]
    exact ⟨st.c.pfail "unterminated character class", ⟨rfl, rfl⟩, by rw [rclassTurn, hs]; rfl⟩
  | cons ch s =>
    by_cases hclose : ch = 0x5D ∧ ¬ st.first
    · left
      obtain ⟨rfl, hfirst⟩ := hclose
      have hfirst' : st.first = false := by simpa using hfirst
      rw [hfirst', classMembers_close]
      refine ⟨{ st.c with s := s }, ⟨rfl, rfl⟩, ?_⟩
      rw [rclassTurn, hs]
      simp only [true_and, if_pos hfirst]
      rfl
    · obtain ⟨s', err, ht⟩ := @rclassTurn_text table negated _ _ _ hs hclose
      rw [classMembers_cons hclose, ht]
      rcases turnText table ch s with ⟨ms, _ | s₁⟩
      · left
        exact ⟨{ st.c with s := s', err := err }, ⟨rfl, rfl⟩, rfl⟩
      · right
        exact ⟨ms, s₁, err, rfl, rfl⟩

/-- The loop of `rclass` ends with the class of the members of its text. -/
theorem rclassLoop_members (table : List UcProp) (negated : Bool) (st : ClassScan) :
    ∃ c' : PCtx, ReadsOn st.c c' ∧
      Loop.loop (rclassTurn table negated) () (fun st => st.c.s.length) st =
        .ok ((st.build.addAll st.c.fold (classMembers table st.first st.c.s).1).finish negated
          (classMembers table st.first st.c.s).2 c') := by
  refine Loop.loop_rec (rclassTurn_shrinks table negated) (P := fun st r => ∃ c' : PCtx,
    ReadsOn st.c c' ∧ r =
      .ok ((st.build.addAll st.c.fold (classMembers table st.first st.c.s).1).finish negated
        (classMembers table st.first st.c.s).2 c')) ?_ ?_ ?_ st
  · intro st e he
    rcases rclassTurn_cases table negated st with ⟨c', -, ht⟩ | ⟨ms, s', err, -, ht⟩
    · rw [ht] at he
      cases he
    · rw [ht] at he
      cases he
  · intro st r hr
    rcases rclassTurn_cases table negated st with ⟨c', hc', ht⟩ | ⟨ms, s', err, -, ht⟩
    · rw [ht] at hr
      cases hr
      exact ⟨c', hc', rfl⟩
    · rw [ht] at hr
      cases hr
  · intro st st' r hr ih
    rcases rclassTurn_cases table negated st with ⟨c', -, ht⟩ | ⟨ms, s', err, hms, ht⟩
    · rw [ht] at hr
      cases hr
    · rw [ht] at hr
      cases hr
      obtain ⟨c', hc', ih⟩ := ih
      refine ⟨c', (readsOn_read st.c s' err).trans hc', ?_⟩
      rw [ih, hms, addAll_append]
      rfl

/-- The text of a class behind the opening bracket: whether it is negated, and the rest. -/
def classBody (s : List ℕ) : Bool × List ℕ :=
  if s.head? = some '^'.toNat then (true, s.tail) else (false, s)

/-- `rclass` adds the members of its text to a class with room for eight ranges. -/
theorem rclass_members (table : List UcProp) (c : PCtx) :
    ∃ c' : PCtx, ReadsOn c c' ∧ rclass table c =
      (ClsRoom.addAll c.fold { cl := Cls.new.reserve 8, cap := 8 }
        (classMembers table true (classBody c.s).2).1).finish (classBody c.s).1
          (classMembers table true (classBody c.s).2).2 c' := by
  unfold rclass classBody
  by_cases hneg : c.s.head? = some '^'.toNat
  · obtain ⟨c', hc', h⟩ := rclassLoop_members table true
      { c := { c with s := c.s.tail }, cl := Cls.new.reserve 8, cap := 8, first := true }
    refine ⟨c', (readsOn_read c c.s.tail c.err).trans hc', ?_⟩
    simp only [hneg, decide_true, if_true]
    rw [h]
    rfl
  · obtain ⟨c', hc', h⟩ := rclassLoop_members table false
      { c := c, cl := Cls.new.reserve 8, cap := 8, first := true }
    refine ⟨c', hc', ?_⟩
    simp only [hneg, decide_false, Bool.false_eq_true, if_false]
    rw [h]
    rfl

end Teptris
