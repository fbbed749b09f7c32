import Teptris.Schema.RegexParse

/-!
# The places of a pattern

Where the parser of patterns comes to while it reads one: the contexts in which `rconcat` looks
for its next piece.  What is known of the atoms read there is known of the whole tree, and the
parse does nothing undefined unless it does so at one of these places (`regexTree_gives`).
-/

namespace Teptris

/-! ## Places -/

/-- `rconcat` comes to a context, with so many levels of groups below, in the parse from `c₀`. -/
inductive ConcatAt (table : List UcProp) (c₀ : PCtx) : ℕ → PCtx → Prop
  /-- The pattern begins. -/
  | start : ConcatAt table c₀ c₀.s.length c₀
  /-- A piece has been read. -/
  | piece {levels : ℕ} {c c' : PCtx} {r : Ra} (h : ConcatAt table c₀ levels c)
      (hbar : c.s.head? ≠ some '|'.toNat)
      (hr : rrepeat table (ralternation table levels) c = (some r, c')) :
      ConcatAt table c₀ levels c'
  /-- A bar ends the branch, and the next one begins. -/
  | branch {levels : ℕ} {c c' : PCtx} {r : Ra} {s : List ℕ} (h : ConcatAt table c₀ levels c)
      (hr : rconcat table (ralternation table levels) c = (some r, c'))
      (hs : c'.s = '|'.toNat :: s) : ConcatAt table c₀ levels { c' with s := s }
  /-- A group begins. -/
  | group {levels : ℕ} {c c' : PCtx} {s : List ℕ} (h : ConcatAt table c₀ (levels + 1) c)
      (hs : c.s = '('.toNat :: s) (hg : groupHead { c with s := s } = .ok c') :
      ConcatAt table c₀ levels c'

/-- The class or the escaped code point that `ratom` reads at a place, where one begins there. -/
def siteParse (table : List UcProp) (c : PCtx) : Option Parsed :=
  match c.s with
  | [] => none
  | ch :: s =>
    if ch = 0x5B then some (rclass table { c with s := s })
    else if ch = '\\'.toNat then some (ratomEscape table { c with s := s })
    else none

/-! ## From the places to the tree -/

/-- A context that has been read to: the fold flag is as it was and nothing undefined was done. -/
structure ReadsOn (c c' : PCtx) : Prop where
  /-- What was done. -/
  overrun : c'.overrun = c.overrun
  /-- The fold flag. -/
  fold : c'.fold = c.fold

/-- The same, where something undefined may have been done if something bad happens. -/
structure Later (bad : Prop) (c c' : PCtx) : Prop where
  /-- What is undefined was so before, or something bad happens. -/
  overrun : c'.overrun = true → c.overrun = true ∨ bad
  /-- The fold flag. -/
  fold : c'.fold = c.fold

/-- A tree whose nodes are all good, in a later context. -/
structure Gives (good : Ra → Bool) (bad : Prop) (c : PCtx) (p : Parsed) : Prop where
  /-- The nodes are good. -/
  tree : ∀ r, p.1 = some r → r.every good = true
  /-- The context. -/
  later : Later bad c p.2

/-- What has to be known of the places. -/
structure GoodPlaces (table : List UcProp) (c₀ : PCtx) (good : Ra → Bool) (bad : Prop) : Prop where
  /-- Only code points and classes need to be looked at. -/
  inner : ∀ r : Ra, (∀ cp ci, r ≠ .char cp ci) → (∀ rs neg, r ≠ .cls rs neg) → good r = true
  /-- Literals. -/
  literal : ∀ levels c ch, ConcatAt table c₀ levels c → c.s.head? = some ch →
    good (charAtom c.fold ch) = true
  /-- Classes and escapes. -/
  site : ∀ levels c p, ConcatAt table c₀ levels c → siteParse table c = some p → Gives good bad c p
  /-- Counts. -/
  count : ∀ levels c r c', ConcatAt table c₀ levels c →
    ratom table (ralternation table levels) c = (some r, c') →
      (rquant c').2.overrun = true → c'.overrun = true ∨ bad

section Places

variable {table : List UcProp} {c₀ : PCtx} {good : Ra → Bool} {bad : Prop} {c c' : PCtx}

lemma readsOn_refl (c : PCtx) : ReadsOn c c := ⟨rfl, rfl⟩

lemma readsOn_read (c : PCtx) (s : List ℕ) (err : Option String) :
    ReadsOn c { c with s := s, err := err } := ⟨rfl, rfl⟩

lemma ReadsOn.trans {c'' : PCtx} (h : ReadsOn c c') (h' : ReadsOn c' c'') : ReadsOn c c'' :=
  ⟨h'.overrun.trans h.overrun, h'.fold.trans h.fold⟩

lemma ReadsOn.later (h : ReadsOn c c') : Later bad c c' := ⟨fun ho => .inl (h.overrun ▸ ho), h.fold⟩

lemma Later.trans {c'' : PCtx} (h : Later bad c c') (h' : Later bad c' c'') : Later bad c c'' := by
  refine ⟨?_, h'.fold.trans h.fold⟩
  intro ho
  rcases h'.overrun ho with ho | hb
  · exact h.overrun ho
  · exact .inr hb

lemma Gives.none (h : Later bad c c') : Gives good bad c (none, c') :=
  ⟨fun r hr => absurd hr (by simp), h⟩

lemma Gives.some {r : Ra} (hr : r.every good = true) (h : Later bad c c') :
    Gives good bad c (some r, c') := by
  refine ⟨?_, h⟩
  intro r' hr'
  obtain rfl : r = r' := by simpa using hr'
  exact hr

/-- A result of a later context. -/
lemma Gives.trans {p : Parsed} (h : Gives good bad c' p) (hc : Later bad c c') :
    Gives good bad c p := ⟨h.tree, hc.trans h.later⟩

/-- The head of a group does nothing undefined. -/
lemma groupHead_readsOn (c : PCtx) :
    (∀ c', groupHead c = .ok c' → ReadsOn c c') ∧
      ∀ c', groupHead c = .error c' → ReadsOn c c' := by
  unfold groupHead
  constructor
  · intro c' h
    split at h
    · cases h
      exact readsOn_refl c
    · split_ifs at h
      · cases h
        exact readsOn_refl c
      · simp only at h
        split at h
        · cases h
        · split_ifs at h
          · cases h
            exact readsOn_read c _ _
          · split at h
            · cases h
            · cases h
              exact readsOn_read c _ _
  · intro c' h
    split at h
    · cases h
    · split_ifs at h
      simp only at h
      split at h
      · cases h
        exact readsOn_read c _ _
      · split_ifs at h
        · cases h
          exact readsOn_read c _ _
        · cases h
          exact readsOn_read c _ _
        · split at h
          · cases h
            exact readsOn_read c _ _
          · cases h
        · cases h
          exact readsOn_read c _ _

lemma rquant_fold (c : PCtx) : (rquant c).2.fold = c.fold := by
  unfold rquant
  cases c.s with
  | nil => rfl
  | cons ch s =>
    simp only
    split_ifs
    · rfl
    · rfl
    · rfl
    · cases rbraces s with
      | none => rfl
      | some q =>
        obtain ⟨lo, hi, s'⟩ := q
        simp only
        split_ifs <;> rfl
    · rfl

lemma everyOf_append_good {rs : List Ra} {r : Ra} (hrs : everyOf good rs = true)
    (hr : r.every good = true) : everyOf good (rs ++ [r]) = true := by
  rw [everyOf_append, hrs, hr]
  rfl

/-- What a level promises of the groups that begin at its places. -/
def GroupsGive (table : List UcProp) (c₀ : PCtx) (good : Ra → Bool) (bad : Prop) (levels : ℕ) :
    Prop :=
  ∀ c c' s, ConcatAt table c₀ levels c → c.s = '('.toNat :: s →
    groupHead { c with s := s } = .ok c' → Gives good bad c' (ralternation table levels c')

variable {levels : ℕ} (hgood : GoodPlaces table c₀ good bad)
  (hgroups : GroupsGive table c₀ good bad levels)

include hgood

lemma seq_every {rs : List Ra} (hrs : everyOf good rs = true) :
    (Ra.seq rs).every good = true := by
  rw [Ra.every, hgood.inner (.seq rs) (by simp) (by simp), hrs]
  rfl

lemma alt_every {r : Ra} {rs : List Ra} (hr : r.every good = true) (hrs : everyOf good rs = true) :
    (Ra.alt r rs).every good = true := by
  rw [Ra.every, hgood.inner (.alt r rs) (by simp) (by simp), hr, hrs]
  rfl

include hgroups

/-- A group. -/
lemma ratomGroup_gives (h : ConcatAt table c₀ levels c) {s : List ℕ}
    (hs : c.s = '('.toNat :: s) :
    Gives good bad c (ratomGroup (ralternation table levels) { c with s := s }) := by
  obtain ⟨hok, herr⟩ := groupHead_readsOn { c with s := s }
  have hread : Later bad c { c with s := s } := (readsOn_read c s c.err).later
  unfold ratomGroup
  cases hg : groupHead { c with s := s } with
  | error c' => exact .none (hread.trans (herr c' hg).later)
  | ok c' =>
    have hp := (hgroups c c' s h hs hg).trans (hread.trans (hok c' hg).later)
    simp only
    generalize ralternation table levels c' = p at hp ⊢
    obtain ⟨body, c₁⟩ := p
    have hlater : Later bad c c₁ := hp.later
    have hfail : ∀ msg, Gives good bad c (none, c₁.pfail msg) :=
      fun msg => .none (hlater.trans (readsOn_read c₁ c₁.s _).later)
    simp only
    split
    · exact .none hlater
    · split
      · exact hfail _
      · split_ifs
        · exact hfail _
        · refine .some (alt_every hgood ?_ rfl) (hlater.trans (readsOn_read c₁ _ c₁.err).later)
          cases body with
          | none => exact seq_every hgood rfl
          | some r => exact hp.tree r rfl

/-- An atom. -/
lemma ratom_gives (h : ConcatAt table c₀ levels c) :
    Gives good bad c (ratom table (ralternation table levels) c) := by
  have hsite := hgood.site levels c
  unfold siteParse at hsite
  unfold ratom
  cases hs : c.s with
  | nil => exact .none (readsOn_refl c).later
  | cons ch s =>
    have hread : Later bad c { c with s := s } := (readsOn_read c s c.err).later
    have hleaf : ∀ r : Ra, (∀ cp ci, r ≠ .char cp ci) → (∀ rs neg, r ≠ .cls rs neg) →
        r.every good = good r → Gives good bad c (some r, { c with s := s }) :=
      fun r h₁ h₂ he => .some (by rw [he, hgood.inner r h₁ h₂]) hread
    simp only [hs] at hsite ⊢
    split
    · exact .none (readsOn_refl c).later
    split
    · exact hleaf .bol (by simp) (by simp) rfl
    split
    · exact hleaf .eol (by simp) (by simp) rfl
    split
    · exact hleaf .any (by simp) (by simp) rfl
    split
    · rename_i hch
      exact hsite _ h (if_pos hch)
    rename_i hbracket
    split
    · rename_i hch
      subst hch
      exact ratomGroup_gives hgood hgroups h hs
    split
    · rename_i hch
      exact hsite _ h (by rw [if_neg hbracket, if_pos hch])
    · refine .some ?_ hread
      exact hgood.literal levels c ch h (by rw [hs]; rfl)

/-- An atom with its quantifier. -/
lemma rrepeat_gives (h : ConcatAt table c₀ levels c) :
    Gives good bad c (rrepeat table (ralternation table levels) c) := by
  have hatom := ratom_gives hgood hgroups h
  have hcount := hgood.count levels c
  unfold rrepeat
  generalize ratom table (ralternation table levels) c = p at hatom hcount
  obtain ⟨_ | atom, c₁⟩ := p
  · exact hatom
  · have hlater : Later bad c (rquant c₁).2 :=
      hatom.later.trans ⟨hcount atom c₁ h rfl, rquant_fold c₁⟩
    have htree := hatom.tree atom rfl
    simp only
    generalize rquant c₁ = q at hlater
    obtain ⟨q, c₂⟩ := q
    cases q with
    | invalid => exact .none hlater
    | absent => exact .some htree hlater
    | bounds lo hi =>
      simp only
      split
      · exact .none (hlater.trans (readsOn_read c₂ c₂.s _).later)
      · refine .some ?_ hlater
        rw [Ra.every, hgood.inner (.quant atom lo hi) (by simp) (by simp), htree]
        simp

/-- A sequence. -/
lemma rconcat_gives (h : ConcatAt table c₀ levels c) :
    Gives good bad c (rconcat table (ralternation table levels) c) := by
  unfold rconcat
  cases hl : Loop.loop (rconcatTurn table (ralternation table levels)) () (fun st => st.1.s.length)
    (c, []) with
  | error e => exact .none (readsOn_refl c).later
  | ok r =>
    refine Loop.loop_invariant
      (I := fun st => ConcatAt table c₀ levels st.1 ∧ everyOf good st.2 = true ∧
        Later bad c st.1)
      (Q := fun r => Gives good bad c r) ?_ ?_ ⟨h, rfl, (readsOn_refl c).later⟩ hl
    · rintro ⟨c₁, pieces⟩ st' ⟨hc₁, hps, hlater⟩ ht
      have hp := (rrepeat_gives hgood hgroups hc₁).trans hlater
      unfold rconcatTurn at ht
      simp only at ht hps hlater
      split at ht
      · cases ht
      · rename_i hbar
        cases hr : rrepeat table (ralternation table levels) c₁ with
        | mk piece c' =>
          rw [hr] at ht hp
          cases piece with
          | none => cases ht
          | some piece =>
            cases ht
            exact ⟨.piece hc₁ hbar hr, everyOf_append_good hps (hp.tree piece rfl), hp.later⟩
    · rintro ⟨c₁, pieces⟩ r' ⟨hc₁, hps, hlater⟩ ht
      have hp := (rrepeat_gives hgood hgroups hc₁).trans hlater
      have hseq : (Ra.seq pieces).every good = true := seq_every hgood hps
      unfold rconcatTurn at ht
      simp only at ht
      split at ht
      · cases ht
        exact .some hseq hlater
      · generalize rrepeat table (ralternation table levels) c₁ = p at ht hp
        obtain ⟨_ | piece, c'⟩ := p
        · simp only at ht
          split at ht
          · cases ht
            exact hp
          · cases ht
            exact .some hseq hp.later
        · cases ht

/-- An alternation. -/
lemma branches_gives (h : ConcatAt table c₀ levels c) :
    Gives good bad c (branches (rconcat table (ralternation table levels)) c) := by
  have hfirst := rconcat_gives hgood hgroups h
  unfold branches
  cases hr : rconcat table (ralternation table levels) c with
  | mk first c₁ =>
    rw [hr] at hfirst
    cases first with
    | none => exact hfirst
    | some first =>
      have hff := hfirst.tree first rfl
      simp only
      split
      · exact hfirst
      cases hl : Loop.loop (ralternationTurn (rconcat table (ralternation table levels)) first) ()
        (fun st => st.1.s.length) (c₁, []) with
      | error e => exact .none hfirst.later
      | ok r =>
        refine Loop.loop_invariant
          (I := fun st => (∃ c₂ r₂, ConcatAt table c₀ levels c₂ ∧
            rconcat table (ralternation table levels) c₂ = (some r₂, st.1)) ∧
              everyOf good st.2 = true ∧ Later bad c st.1)
          (Q := fun r => Gives good bad c r) ?_ ?_ ⟨⟨c, first, h, hr⟩, rfl, hfirst.later⟩ hl
        · rintro ⟨c₃, others⟩ st' ⟨⟨c₂, r₂, hc₂, hr₂⟩, hos, hlater⟩ ht
          unfold ralternationTurn at ht
          cases hs : c₃.s with
          | nil =>
            simp only [hs] at ht
            cases ht
          | cons b s =>
            simp only [hs] at ht hos hlater
            split at ht
            · rename_i hb
              subst hb
              have hat : ConcatAt table c₀ levels { c₃ with s := s } := .branch hc₂ hr₂ hs
              have hp := (rconcat_gives hgood hgroups hat).trans
                (hlater.trans (readsOn_read c₃ s c₃.err).later)
              cases hr₃ : rconcat table (ralternation table levels) { c₃ with s := s } with
              | mk branch c' =>
                rw [hr₃] at ht hp
                cases branch with
                | none => cases ht
                | some branch =>
                  cases ht
                  exact ⟨⟨_, branch, hat, hr₃⟩, everyOf_append_good hos (hp.tree branch rfl),
                    hp.later⟩
            · cases ht
        · rintro ⟨c₃, others⟩ r' ⟨⟨c₂, r₂, hc₂, hr₂⟩, hos, hlater⟩ ht
          have halt : (Ra.alt first others).every good = true := alt_every hgood hff hos
          unfold ralternationTurn at ht
          cases hs : c₃.s with
          | nil =>
            simp only [hs] at ht
            cases ht
            exact .some halt hlater
          | cons b s =>
            simp only [hs] at ht
            split at ht
            · rename_i hb
              subst hb
              have hat : ConcatAt table c₀ levels { c₃ with s := s } := .branch hc₂ hr₂ hs
              have hp := (rconcat_gives hgood hgroups hat).trans
                (hlater.trans (readsOn_read c₃ s c₃.err).later)
              generalize rconcat table (ralternation table levels) { c₃ with s := s } = p at ht hp
              obtain ⟨_ | branch, c'⟩ := p
              · cases ht
                exact hp
              · cases ht
            · cases ht
              exact .some halt hlater

omit hgroups

/-- Every level keeps the promise for its groups. -/
lemma groupsGive (levels : ℕ) : GroupsGive table c₀ good bad levels := by
  induction levels with
  | zero => exact fun c c' s _ _ _ => .none (readsOn_refl c').later
  | succ levels ih =>
    intro c c' s h hs hg
    exact branches_gives hgood ih (.group h hs hg)

end Places

/-- What is known of the places is known of the parse of a pattern. -/
theorem regexTree_gives {table : List UcProp} {pattern : Bytes} {good : Ra → Bool} {bad : Prop}
    (hgood : GoodPlaces table (startCtx pattern) good bad) :
    Gives good bad (startCtx pattern) (regexTree table pattern) :=
  branches_gives hgood (groupsGive hgood _) .start

end Teptris
