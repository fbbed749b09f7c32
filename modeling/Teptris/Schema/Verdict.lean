import Teptris.Schema.Effect

/-!
# The verdict of the validator

Each part of the walk that enters sub-schemas has the effect its keyword calls for, where the
sub-schemas have theirs; the effect of `val` follows by induction on the schema.
-/

namespace Teptris

section Keywords

variable {R : Type} {lf : Leaves R}

/-- The walk of a schema decides what the schema says. -/
def Decides (lf : Leaves R) (s : SchNode R) : Prop :=
  ∀ v, Walks (Holds lf s v) (val lf s v)

/-- The false schema holds of nothing. -/
lemma not_holds_of_isFalse {s : SchNode R} (h : s.asserts.isFalse = true) (v : SValue) :
    ¬ Holds lf s v := by
  cases s with
  | mk =>
    intro hs
    rw [Holds] at hs
    have hfalse := hs.1.notFalse
    exact absurd hfalse (by simpa [SchNode.asserts] using h)

/-! ## Objects -/

/-- `properties`: the verdict of the first of the name. -/
lemma valProps_spec {props : List (Bytes × SchNode R)} (h : ∀ p ∈ props, Decides lf p.2)
    (key : Bytes) (mv : SValue) {c : Vctx} (hc : c.Sane) :
    (valProps lf props key mv c).1 = props.any (fun p => p.1 = key) ∧
      Effect (∀ p, props.find? (fun p => p.1 = key) = some p → Holds lf p.2 mv) c
        (valProps lf props key mv c).2 := by
  induction props with
  | nil =>
    rw [valProps]
    exact ⟨rfl, (Effect.refl hc).congr (by simp)⟩
  | cons p props ih =>
    obtain ⟨name, s⟩ := p
    rw [valProps]
    by_cases hname : name = key
    · rw [if_pos hname]
      refine ⟨by simp [hname], ?_⟩
      have hs := (h (name, s) (by simp) mv).under (ascii "properties." ++ key) key
      exact (hs c hc).congr (by simp [hname])
    · rw [if_neg hname]
      have hrest := ih fun p hp => h p (by simp [hp])
      simpa [hname] using hrest

/-- `patternProperties`: the verdicts of all that match. -/
lemma valPprops_spec {pprops : List (R × SchNode R)} (h : ∀ p ∈ pprops, Decides lf p.2)
    (key : Bytes) (mv : SValue) (known : Bool) {c : Vctx} (hc : c.Sane) :
    (valPprops lf pprops key mv known c).1 =
        (known || pprops.any fun p => lf.isMatch p.1 key) ∧
      Effect (∀ p, p ∈ pprops → lf.isMatch p.1 key = true → Holds lf p.2 mv) c
        (valPprops lf pprops key mv known c).2 := by
  induction pprops generalizing known c with
  | nil =>
    rw [valPprops]
    exact ⟨by simp, (Effect.refl hc).congr (by simp)⟩
  | cons p pprops ih =>
    obtain ⟨re, s⟩ := p
    rw [valPprops]
    have hrest := fun known c hc => ih (fun p hp => h p (by simp [hp])) known (c := c) hc
    by_cases hmatch : lf.isMatch re key = true
    · rw [if_pos hmatch]
      have hs := (h (re, s) (by simp) mv).under (ascii "patternProperties") key c hc
      obtain ⟨hknown, heff⟩ := hrest true _ hs.sane
      refine ⟨by rw [hknown]; simp [hmatch], (hs.trans heff).congr ?_⟩
      simp [hmatch]
    · rw [if_neg hmatch]
      obtain ⟨hknown, heff⟩ := hrest known c hc
      refine ⟨by rw [hknown]; simp [hmatch], heff.congr ?_⟩
      simp [hmatch]

/-- `additionalProperties`. -/
lemma valAdditional_walks {additional : Option (SchNode R)}
    (h : ∀ s, additional = some s → Decides lf s) (key : Bytes) (mv : SValue) :
    Walks (∀ s, additional = some s → Holds lf s mv) (valAdditional lf additional key mv) := by
  cases additional with
  | none => exact Walks.id.congr (by simp)
  | some s =>
    by_cases hfalse : s.asserts.isFalse = true
    · have hwalk := (Walks.verr (unknownText key)).under (ascii "additionalProperties") key
      refine Walks.congr (f := valAdditional lf (some s) key mv) ?_
        (show False ↔ _ by simp [not_holds_of_isFalse hfalse])
      intro c hc
      simpa [valAdditional, hfalse] using hwalk c hc
    · have hwalk := (h s rfl mv).under (ascii "additionalProperties") key
      refine Walks.congr (f := valAdditional lf (some s) key mv) ?_
        (show Holds lf s mv ↔ _ by simp)
      intro c hc
      simpa [valAdditional, hfalse] using hwalk c hc

/-- `propertyNames`. -/
lemma valPropName_walks {propNames : Option (SchNode R)}
    (h : ∀ s, propNames = some s → Decides lf s) (key : Bytes) :
    Walks (∀ s, propNames = some s → Holds lf s (.string key))
      (valPropName lf propNames key) := by
  cases propNames with
  | none => exact Walks.id.congr (by simp)
  | some s =>
    have htrial := (h s rfl (.string key)).trial.check
      (ascii "property name '" ++ key ++ ascii "' fails propertyNames")
    have hwalk := ((Walks.spush (ascii "propertyNames")).before htrial).behind Walks.spop
    exact hwalk.congr (by simp)

/-- `dependentSchemas`. -/
lemma valDepSchemas_walks {deps : List (Bytes × SchNode R)} (h : ∀ p ∈ deps, Decides lf p.2)
    (ms : List (Bytes × SValue)) :
    Walks (∀ p, p ∈ deps → p.1 ∈ ms.map Prod.fst → Holds lf p.2 (.table ms))
      (valDepSchemas lf deps ms) := by
  induction deps with
  | nil => exact Walks.id.congr (by simp)
  | cons p deps ih =>
    obtain ⟨key, s⟩ := p
    have hrest := ih fun p hp => h p (by simp [hp])
    have hs := (h (key, s) (by simp) (.table ms)).trial.check
      (ascii "the '" ++ key ++ ascii "' dependency schema does not hold")
    intro c hc
    rw [valDepSchemas]
    by_cases hkey : hasKey ms key = true
    · rw [if_pos hkey]
      refine (hs.comp hrest c hc).congr ?_
      rw [hasKey_iff] at hkey
      constructor
      · rintro ⟨hfirst, hothers⟩ p hp hmem
        rcases List.mem_cons.mp hp with rfl | hp
        · exact hfirst
        · exact hothers p hp hmem
      · intro hall
        exact ⟨hall (key, s) (by simp) hkey, fun p hp => hall p (by simp [hp])⟩
    · rw [if_neg hkey]
      refine (hrest c hc).congr ?_
      rw [hasKey_iff] at hkey
      constructor
      · intro hothers p hp hmem
        rcases List.mem_cons.mp hp with rfl | hp
        · exact absurd hmem hkey
        · exact hothers p hp hmem
      · exact fun hall p hp => hall p (by simp [hp])

/-! ## Arrays -/

/-- `prefixItems`: each schema of its element. -/
lemma valTuple_walks {tuple : List (SchNode R)} (h : ∀ s ∈ tuple, Decides lf s)
    (vs : List SValue) (i : ℕ) :
    Walks (∀ (j : ℕ) w, vs[j]? = some w → ∀ s, tuple[j]? = some s → Holds lf s w)
      (valTuple lf tuple vs i) := by
  induction tuple generalizing vs i with
  | nil =>
    intro c hc
    rw [valTuple]
    · exact (Effect.refl hc).congr (by simp)
    · simp
  | cons s tuple ih =>
    cases vs with
    | nil =>
      intro c hc
      rw [valTuple]
      · exact (Effect.refl hc).congr (by simp)
      · simp
    | cons v vs =>
      have hs := (h s (by simp) v).underIdx (ascii "prefixItems") i
      have hrest := ih (fun s hs => h s (by simp [hs])) vs (i + 1)
      refine (hs.comp hrest).congr ?_
      constructor
      · rintro ⟨hfirst, hothers⟩ j w hw t ht
        cases j with
        | zero =>
          obtain rfl : v = w := by simpa using hw
          obtain rfl : s = t := by simpa using ht
          exact hfirst
        | succ j => exact hothers j w (by simpa using hw) t (by simpa using ht)
      · intro hall
        exact ⟨hall 0 v rfl s rfl, fun j w hw t ht =>
          hall (j + 1) w (by simpa using hw) t (by simpa using ht)⟩

/-- The same verdict on each element. -/
lemma eachIdx_walks {P : SValue → Prop} {walk : ℕ → SValue → Vctx → Vctx}
    (h : ∀ i v, Walks (P v) (walk i v)) (vs : List SValue) (i : ℕ) :
    Walks (∀ v ∈ vs, P v) (eachIdx walk i vs) := by
  induction vs generalizing i with
  | nil => exact Walks.id.congr (by simp)
  | cons v vs ih => exact ((h i v).comp (ih (i + 1))).congr (by simp)

/-- `items`. -/
lemma valItems_walks {items : Option (SchNode R)} (h : ∀ s, items = some s → Decides lf s)
    (i : ℕ) (vs : List SValue) :
    Walks (∀ v ∈ vs, ∀ s, items = some s → Holds lf s v) (valItems lf items i vs) := by
  cases items with
  | none => exact Walks.id.congr (by simp)
  | some s =>
    have hs := fun i v => (h s rfl v).underIdx (ascii "items") i
    exact (eachIdx_walks hs vs i).congr (by simp)

/-- `additionalItems`. -/
lemma valAddItems_walks {addItems : Option (SchNode R)}
    (h : ∀ s, addItems = some s → Decides lf s) (i : ℕ) (vs : List SValue) :
    Walks (∀ v ∈ vs, ∀ s, addItems = some s → Holds lf s v) (valAddItems lf addItems i vs) := by
  cases addItems with
  | none => exact Walks.id.congr (by simp)
  | some s =>
    have hs : ∀ i v, Walks (Holds lf s v) fun c => c.underIdx (ascii "additionalItems") i
        (if s.asserts.isFalse then fun c => c.verr beyondText else val lf s v) := by
      intro i v
      by_cases hfalse : s.asserts.isFalse = true
      · simp only [hfalse, if_true]
        exact ((Walks.verr beyondText).underIdx _ i).congr
          (by simp [not_holds_of_isFalse hfalse])
      · simp only [hfalse]
        exact (h s rfl v).underIdx _ i
    exact (eachIdx_walks hs vs i).congr (by simp)

open Classical in
/-- Trials count the values that hold. -/
lemma countTrials_spec {α : Type} {P : α → Prop} {walk : α → Vctx → Vctx} {xs : List α}
    (h : ∀ x ∈ xs, Walks (P x) (walk x)) (hits : ℕ) {c : Vctx} (hc : c.Sane) :
    (countTrials walk xs hits c).1 = hits + xs.countP (fun x => P x) ∧
      Effect True c (countTrials walk xs hits c).2 := by
  induction xs generalizing hits c with
  | nil => exact ⟨rfl, .refl hc⟩
  | cons x xs ih =>
    obtain ⟨hok, heff⟩ := (h x (by simp)).trial c hc
    rw [countTrials]
    obtain ⟨hcount, hrest⟩ := ih (fun y hy => h y (by simp [hy]))
      (if (c.trial (walk x)).1 then hits + 1 else hits) heff.sane
    refine ⟨?_, (heff.trans hrest).congr (by simp)⟩
    rw [hcount]
    by_cases hP : P x
    · rw [if_pos (hok.mpr hP), List.countP_cons_of_pos (by simpa using hP)]
      omega
    · rw [if_neg (fun hn => hP (hok.mp hn)), List.countP_cons_of_neg (by simpa using hP)]

open Classical in
/-- `contains`. -/
lemma valContains_walks {contains : Option (SchNode R)}
    (h : ∀ s, contains = some s → Decides lf s) (a : Assertions R) (vs : List SValue) :
    Walks (∀ s, contains = some s →
        a.minContains.getD 1 ≤ vs.countP (fun w => Holds lf s w) ∧
        (vs.countP (fun w => Holds lf s w) : ℤ) ≤ a.maxContains.getD vs.length)
      (valContains lf a contains vs) := by
  cases contains with
  | none => exact Walks.id.congr (by simp)
  | some s =>
    intro c hc
    have hs : ∀ w ∈ vs, Walks (Holds lf s w) (val lf s w) := fun w _ => h s rfl w
    obtain ⟨hcount, heff⟩ := countTrials_spec hs 0 hc
    rw [valContains]
    generalize countTrials (val lf s) vs 0 c = t at hcount heff
    obtain ⟨hits, c₁⟩ := t
    obtain rfl : hits = vs.countP fun w => Holds lf s w := by simpa using hcount
    have hmin := Walks.check
      (decide (a.minContains.getD 1 ≤ (vs.countP (fun w => Holds lf s w) : ℤ)))
      (ascii "fewer matching items than minContains") c₁ heff.sane
    have hmax := Walks.check
      (decide ((vs.countP (fun w => Holds lf s w) : ℤ) ≤ a.maxContains.getD vs.length))
      (ascii "more matching items than maxContains") _ hmin.sane
    have hboth := (heff.trans hmin).trans hmax
    simp only [true_and, decide_eq_true_eq] at hboth
    dsimp only
    split_ifs
    · have hagain := (countTrials_spec hs 0 hmax.sane).2
      exact (hboth.trans hagain).congr (by simp)
    · exact hboth.congr (by simp)

/-! ## Applicators -/

/-- `allOf`. -/
lemma valAll_walks {ss : List (SchNode R)} (h : ∀ s ∈ ss, Decides lf s) (v : SValue) :
    Walks (∀ s, s ∈ ss → Holds lf s v) (valAll lf ss v) := by
  induction ss with
  | nil => exact Walks.id.congr (by simp)
  | cons s ss ih =>
    have hs := (h s (by simp) v).sunder (ascii "allOf")
    exact (hs.comp (ih fun s hs => h s (by simp [hs]))).congr (by simp)

/-- The branches are counted like the elements of `contains`. -/
lemma valBranches_eq (ss : List (SchNode R)) (v : SValue) (hits : ℕ) (c : Vctx) :
    valBranches lf ss v hits c = countTrials (fun s => val lf s v) ss hits c := by
  induction ss generalizing hits c with
  | nil => rfl
  | cons s ss ih => simp only [valBranches, countTrials, ih]

/-- `anyOf`. -/
lemma checkAny_walks {ss : List (SchNode R)} (h : ∀ s ∈ ss, Decides lf s) (v : SValue) :
    Walks (ss ≠ [] → ∃ s, ∃ _ : s ∈ ss, Holds lf s v)
      (checkAny ss.length (valBranches lf ss v 0)) := by
  classical
  intro c hc
  unfold checkAny
  split_ifs with hempty
  · obtain rfl : ss = [] := List.length_eq_zero_iff.mp hempty
    exact (Effect.refl hc).congr (by simp)
  · obtain ⟨hcount, heff⟩ := countTrials_spec (fun s hs => h s hs v) 0 hc
    rw [valBranches_eq]
    generalize countTrials (fun s => val lf s v) ss 0 c = t at hcount heff
    obtain ⟨hits, c₁⟩ := t
    obtain rfl : hits = ss.countP fun s => Holds lf s v := by simpa using hcount
    refine (heff.trans (Walks.check _ _ _ heff.sane)).congr ?_
    have hne : ss ≠ [] := fun h0 => hempty (by simp [h0])
    simp [hne, List.countP_pos_iff]

/-- `oneOf`. -/
lemma checkOne_walks {ss : List (SchNode R)} (h : ∀ s ∈ ss, Decides lf s) (v : SValue) :
    Walks (ss ≠ [] → ∃ i : ℕ, (∃ s, ∃ _ : ss[i]? = some s, Holds lf s v) ∧
        ∀ j, j ≠ i → ∀ s, ss[j]? = some s → ¬ Holds lf s v)
      (checkOne ss.length (valBranches lf ss v 0)) := by
  classical
  intro c hc
  unfold checkOne
  split_ifs with hempty
  · obtain rfl : ss = [] := List.length_eq_zero_iff.mp hempty
    exact (Effect.refl hc).congr (by simp)
  · obtain ⟨hcount, heff⟩ := countTrials_spec (fun s hs => h s hs v) 0 hc
    rw [valBranches_eq]
    generalize countTrials (fun s => val lf s v) ss 0 c = t at hcount heff
    obtain ⟨hits, c₁⟩ := t
    obtain rfl : hits = ss.countP fun s => Holds lf s v := by simpa using hcount
    refine (heff.trans (Walks.check _ _ _ heff.sane)).congr ?_
    have hne : ss ≠ [] := fun h0 => hempty (by simp [h0])
    rw [← countP_eq_one_iff]
    simp [hne]

/-- `not`. -/
lemma valNot_walks {not_ : Option (SchNode R)} (h : ∀ s, not_ = some s → Decides lf s)
    (v : SValue) : Walks (∀ s, not_ = some s → ¬ Holds lf s v) (valNot lf not_ v) := by
  cases not_ with
  | none => exact Walks.id.congr (by simp)
  | some s =>
    exact ((h s rfl v).trialFree.refute (ascii "must not match the not-schema")).congr (by simp)

/-- `then` and `else`. -/
lemma valBranch_walks {o : Option (SchNode R)} (h : ∀ s, o = some s → Decides lf s)
    (seg : String) (v : SValue) :
    Walks (∀ s, o = some s → Holds lf s v) (valBranch lf seg o v) := by
  cases o with
  | none => exact Walks.id.congr (by simp)
  | some s => exact ((h s rfl v).sunder (ascii seg)).congr (by simp)

/-- `if`, with its branches. -/
lemma valIf_walks {if_ then_ else_ : Option (SchNode R)}
    (hif : ∀ s, if_ = some s → Decides lf s) (hthen : ∀ s, then_ = some s → Decides lf s)
    (helse : ∀ s, else_ = some s → Decides lf s) (v : SValue) :
    Walks (∀ s, if_ = some s →
        (Holds lf s v → ∀ t, then_ = some t → Holds lf t v) ∧
        (¬ Holds lf s v → ∀ e, else_ = some e → Holds lf e v))
      fun c =>
        match valIf lf if_ v c with
        | (none, c) => c
        | (some true, c) => valBranch lf "then" then_ v c
        | (some false, c) => valBranch lf "else" else_ v c := by
  cases if_ with
  | none => exact Walks.id.congr (by simp)
  | some s =>
    intro c hc
    obtain ⟨hok, heff⟩ : ((c.trial (val lf s v)).1 = true ↔ Holds lf s v) ∧
        Effect True c (c.trial (val lf s v)).2 := (hif s rfl v).trial c hc
    simp only [valIf]
    generalize c.trial (val lf s v) = t at hok heff
    obtain ⟨cond, c₁⟩ := t
    cases cond with
    | true =>
      have hs : Holds lf s v := hok.mp rfl
      exact (heff.trans (valBranch_walks hthen "then" v c₁ heff.sane)).congr (by simp [hs])
    | false =>
      have hs : ¬ Holds lf s v := fun hs => absurd (hok.mpr hs) (by simp)
      exact (heff.trans (valBranch_walks helse "else" v c₁ heff.sane)).congr (by simp [hs])

/-! ## The induction -/

/-- The keywords without sub-schemas, as the checks of the walk. -/
lemma asserts_iff (a : Assertions R) (v : SValue) :
    Asserts lf a v ↔ a.isFalse = false ∧
      (typeOk lf a v = true ∧ constOk lf a v = true ∧ a.enumEmpty = false ∧
        enumOk lf a v = true) ∧
      ((∀ kw, boundOk lf a kw v = true) ∧ multOk lf a v = true) ∧
      (∀ s, v.text = some s → atLeast a.minLength (cpCount s) = true ∧
        atMost a.maxLength (cpCount s) = true ∧
        (a.pattern.all fun re => lf.isMatch re s) = true) ∧
      (∀ ms, v = .table ms →
        (atLeast a.minProps ms.length = true ∧ atMost a.maxProps ms.length = true ∧
          ∀ k ∈ a.required, k ∈ ms.map Prod.fst) ∧
        ∀ d ∈ a.depReq, d.1 ∈ ms.map Prod.fst → ∀ k ∈ d.2, k ∈ ms.map Prod.fst) ∧
      (∀ vs, v = .array vs →
        atLeast a.minItems vs.length = true ∧ atMost a.maxItems vs.length = true ∧
          (a.uniqueItems = true → vs.Pairwise fun x y => lf.svEqual x y = false)) := by
  have hatLeast : ∀ (limit : Option ℤ) (n : ℕ),
      atLeast limit n = true ↔ ∀ l, limit = some l → l ≤ (n : ℤ) := by
    intro limit n
    cases limit <;> simp [atLeast]
  have hatMost : ∀ (limit : Option ℤ) (n : ℕ),
      atMost limit n = true ↔ ∀ l, limit = some l → (n : ℤ) ≤ l := by
    intro limit n
    cases limit <;> simp [atMost]
  have hall : ∀ {α : Type} (o : Option α) (p : α → Bool),
      o.all p = true ↔ ∀ x, o = some x → p x = true := by
    intro α o p
    cases o <;> simp
  have htype : typeOk lf a v = true ↔ a.types = St.any ∨ a.types &&& svToSt lf v ≠ 0 := by
    simp [typeOk]
  have henum : enumOk lf a v = true ↔
      (a.enumVals ≠ [] → ∃ ev ∈ a.enumVals, lf.svEqual ev v = true) := by
    simp [enumOk, or_iff_not_imp_left]
  have hbound : ∀ kw, boundOk lf a kw v = true ↔
      (isNum v = true → ∀ b, a.bounds kw = some b → lf.within kw b v = true) := by
    intro kw
    simp only [boundOk, ← hall, decide_eq_true_eq, or_iff_not_imp_left]
    simp
  have hmult : multOk lf a v = true ↔
      (isNum v = true → ∀ m, a.mult = some m → lf.multOk m v = true) := by
    simp only [multOk, ← hall, decide_eq_true_eq, or_iff_not_imp_left]
    simp
  simp only [constOk, hatLeast, hatMost, hall, htype, henum, hbound, hmult]
  constructor
  · intro h
    refine ⟨h.notFalse, ⟨h.type, h.const, h.enumEmpty, h.enum⟩,
      ⟨fun kw hnum b hb => h.bounds hnum kw b hb, h.mult⟩,
      fun s hs => ⟨h.minLength s hs, h.maxLength s hs, h.pattern s hs⟩,
      fun ms hms => ⟨⟨h.minProps ms hms, h.maxProps ms hms, h.required ms hms⟩,
        h.depReq ms hms⟩,
      fun vs hvs => ⟨h.minItems vs hvs, h.maxItems vs hvs, h.unique vs hvs⟩⟩
  · rintro ⟨hfalse, ⟨htype, hconst, hempty, henum⟩, ⟨hbounds, hmult⟩, hstring, hobject, harray⟩
    exact
      { notFalse := hfalse, type := htype, const := hconst, enumEmpty := hempty, enum := henum
        bounds := fun hnum kw b hb => hbounds kw hnum b hb
        mult := hmult
        minLength := fun s hs => (hstring s hs).1
        maxLength := fun s hs => (hstring s hs).2.1
        pattern := fun s hs => (hstring s hs).2.2
        minProps := fun ms hms => (hobject ms hms).1.1
        maxProps := fun ms hms => (hobject ms hms).1.2.1
        required := fun ms hms => (hobject ms hms).1.2.2
        depReq := fun ms hms => (hobject ms hms).2
        minItems := fun vs hvs => (harray vs hvs).1
        maxItems := fun vs hvs => (harray vs hvs).2.1
        unique := fun vs hvs => (harray vs hvs).2.2 }

/-- A member of a table, against the three keywords that may apply to its value. -/
lemma member_walks {props : List (Bytes × SchNode R)} {pprops : List (R × SchNode R)}
    {additional : Option (SchNode R)} (hprops : ∀ p ∈ props, Decides lf p.2)
    (hpprops : ∀ p ∈ pprops, Decides lf p.2)
    (hadditional : ∀ s, additional = some s → Decides lf s) (m : Bytes × SValue) :
    Walks ((∀ p, props.find? (fun p => p.1 = m.1) = some p → Holds lf p.2 m.2) ∧
        (∀ p, p ∈ pprops → lf.isMatch p.1 m.1 = true → Holds lf p.2 m.2) ∧
        (∀ s, additional = some s → (∀ p ∈ props, p.1 ≠ m.1) →
          (∀ p ∈ pprops, lf.isMatch p.1 m.1 = false) → Holds lf s m.2))
      fun c =>
        let (known, c) := valProps lf props m.1 m.2 c
        let (known, c) := valPprops lf pprops m.1 m.2 known c
        if known then c else valAdditional lf additional m.1 m.2 c := by
  intro c hc
  obtain ⟨hknown, heff⟩ := valProps_spec hprops m.1 m.2 hc
  dsimp only
  generalize valProps lf props m.1 m.2 c = t at hknown heff
  obtain ⟨known, c₁⟩ := t
  obtain ⟨hknown', heff'⟩ := valPprops_spec hpprops m.1 m.2 known heff.sane
  dsimp only at hknown ⊢
  generalize valPprops lf pprops m.1 m.2 known c₁ = t at hknown' heff'
  obtain ⟨known', c₂⟩ := t
  dsimp only at hknown' ⊢
  have hboth := heff.trans heff'
  -- the member is known where one of the two keywords names it
  have hiff : known' = false ↔ (∀ p ∈ props, p.1 ≠ m.1) ∧
      ∀ p ∈ pprops, lf.isMatch p.1 m.1 = false := by
    rw [hknown', hknown]
    simp
  cases known' with
  | true =>
    refine hboth.congr ?_
    have hnot : ¬ ((∀ p ∈ props, p.1 ≠ m.1) ∧ ∀ p ∈ pprops, lf.isMatch p.1 m.1 = false) :=
      fun h => absurd (hiff.mpr h) (by simp)
    constructor
    · rintro ⟨hp, hpp⟩
      exact ⟨hp, hpp, fun s _ hno hno' => absurd ⟨hno, hno'⟩ hnot⟩
    · rintro ⟨hp, hpp, -⟩
      exact ⟨hp, hpp⟩
  | false =>
    obtain ⟨hno, hno'⟩ := hiff.mp rfl
    refine (hboth.trans (valAdditional_walks hadditional m.1 m.2 c₂ heff'.sane)).congr ?_
    constructor
    · rintro ⟨⟨hp, hpp⟩, hadd⟩
      exact ⟨hp, hpp, fun s hs _ _ => hadd s hs⟩
    · rintro ⟨hp, hpp, hadd⟩
      exact ⟨⟨hp, hpp⟩, fun s hs => hadd s hs hno hno'⟩

/-- The elements beyond the tuple. -/
lemma beyond_walks {items addItems : Option (SchNode R)}
    (hitems : ∀ s, items = some s → Decides lf s)
    (haddItems : ∀ s, addItems = some s → Decides lf s) (n : ℕ) (vs : List SValue) :
    Walks (∀ (i : ℕ) w, vs[i]? = some w → n ≤ i →
        (∀ s, items = some s → Holds lf s w) ∧
        (items = none → ∀ s, addItems = some s → Holds lf s w))
      fun c =>
        if items.isSome then valItems lf items n (vs.drop n) c
        else valAddItems lf addItems n (vs.drop n) c := by
  have hdrop : ∀ P : SValue → Prop,
      (∀ w ∈ vs.drop n, P w) ↔ ∀ (i : ℕ) w, vs[i]? = some w → n ≤ i → P w := by
    intro P
    constructor
    · intro h i w hw hle
      refine h w (List.mem_of_getElem? (i := i - n) ?_)
      rw [List.getElem?_drop, Nat.add_sub_cancel' hle]
      exact hw
    · intro h w hw
      obtain ⟨j, hj⟩ := List.getElem?_of_mem hw
      rw [List.getElem?_drop] at hj
      exact h (n + j) w hj (Nat.le_add_right n j)
  cases items with
  | none =>
    simp only [Option.isSome_none]
    refine (valAddItems_walks haddItems n (vs.drop n)).congr ?_
    rw [hdrop]
    simp
  | some s =>
    simp only [Option.isSome_some, if_true]
    refine (valItems_walks hitems n (vs.drop n)).congr ?_
    rw [hdrop]
    simp

/-- The object keywords. -/
lemma object_walks (a : Assertions R) {props : List (Bytes × SchNode R)}
    {pprops : List (R × SchNode R)} {additional propNames : Option (SchNode R)}
    {depSchemas : List (Bytes × SchNode R)} (hprops : ∀ p ∈ props, Decides lf p.2)
    (hpprops : ∀ p ∈ pprops, Decides lf p.2)
    (hadditional : ∀ s, additional = some s → Decides lf s)
    (hpropNames : ∀ s, propNames = some s → Decides lf s)
    (hdeps : ∀ p ∈ depSchemas, Decides lf p.2) (ms : List (Bytes × SValue)) :
    Walks (((atLeast a.minProps ms.length = true ∧ atMost a.maxProps ms.length = true ∧
            ∀ k ∈ a.required, k ∈ ms.map Prod.fst) ∧
          ∀ d ∈ a.depReq, d.1 ∈ ms.map Prod.fst → ∀ k ∈ d.2, k ∈ ms.map Prod.fst) ∧
        (∀ m ∈ ms,
          (∀ p, props.find? (fun p => p.1 = m.1) = some p → Holds lf p.2 m.2) ∧
          (∀ p, p ∈ pprops → lf.isMatch p.1 m.1 = true → Holds lf p.2 m.2) ∧
          (∀ s, additional = some s → (∀ p ∈ props, p.1 ≠ m.1) →
            (∀ p ∈ pprops, lf.isMatch p.1 m.1 = false) → Holds lf s m.2) ∧
          (∀ s, propNames = some s → Holds lf s (.string m.1))) ∧
        ∀ p, p ∈ depSchemas → p.1 ∈ ms.map Prod.fst → Holds lf p.2 (.table ms))
      fun c =>
        let c := checkProps a ms c
        let c := ms.foldl (fun c m =>
          let (known, c) := valProps lf props m.1 m.2 c
          let (known, c) := valPprops lf pprops m.1 m.2 known c
          if known then c else valAdditional lf additional m.1 m.2 c) c
        let c := ms.foldl (fun c m => valPropName lf propNames m.1 c) c
        let c := checkDepReq a ms c
        valDepSchemas lf depSchemas ms c := by
  have hmembers := Walks.foldl fun m (_ : m ∈ ms) =>
    member_walks hprops hpprops hadditional m
  have hnames := Walks.foldl fun m (_ : m ∈ ms) => valPropName_walks hpropNames m.1
  refine (((((checkProps_walks a ms).comp hmembers).comp hnames).comp
    (checkDepReq_walks a ms)).comp (valDepSchemas_walks hdeps ms)).congr ?_
  constructor
  · rintro ⟨⟨⟨⟨hcounts, hvalues⟩, hnames⟩, hdepReq⟩, hdepSchemas⟩
    refine ⟨⟨hcounts, hdepReq⟩, fun m hm => ?_, hdepSchemas⟩
    obtain ⟨hp, hpp, hadd⟩ := hvalues m hm
    exact ⟨hp, hpp, hadd, hnames m hm⟩
  · rintro ⟨⟨hcounts, hdepReq⟩, hall, hdepSchemas⟩
    refine ⟨⟨⟨⟨hcounts, fun m hm => ?_⟩, fun m hm => (hall m hm).2.2.2⟩, hdepReq⟩, hdepSchemas⟩
    obtain ⟨hp, hpp, hadd, -⟩ := hall m hm
    exact ⟨hp, hpp, hadd⟩

open Classical in
/-- The array keywords. -/
lemma array_walks (a : Assertions R) {tuple : List (SchNode R)}
    {items addItems contains : Option (SchNode R)} (htuple : ∀ s ∈ tuple, Decides lf s)
    (hitems : ∀ s, items = some s → Decides lf s)
    (haddItems : ∀ s, addItems = some s → Decides lf s)
    (hcontains : ∀ s, contains = some s → Decides lf s) (vs : List SValue) :
    Walks ((atLeast a.minItems vs.length = true ∧ atMost a.maxItems vs.length = true ∧
          (a.uniqueItems = true → vs.Pairwise fun x y => lf.svEqual x y = false)) ∧
        (∀ (i : ℕ) w, vs[i]? = some w →
          (∀ s, tuple[i]? = some s → Holds lf s w) ∧
          (tuple.length ≤ i →
            (∀ s, items = some s → Holds lf s w) ∧
            (items = none → ∀ s, addItems = some s → Holds lf s w))) ∧
        (∀ s, contains = some s →
          a.minContains.getD 1 ≤ vs.countP (fun w => Holds lf s w) ∧
          (vs.countP (fun w => Holds lf s w) : ℤ) ≤ a.maxContains.getD vs.length))
      fun c =>
        let c := checkItems lf a vs c
        let c := valTuple lf tuple vs 0 c
        let rest := vs.drop tuple.length
        let c :=
          if items.isSome then valItems lf items tuple.length rest c
          else valAddItems lf addItems tuple.length rest c
        valContains lf a contains vs c := by
  refine ((((checkItems_walks lf a vs).comp (valTuple_walks htuple vs 0)).comp
    (beyond_walks hitems haddItems tuple.length vs)).comp
    (valContains_walks hcontains a vs)).congr ?_
  constructor
  · rintro ⟨⟨⟨hcounts, htuple⟩, hbeyond⟩, hcontains⟩
    exact ⟨hcounts, fun i w hw => ⟨htuple i w hw, hbeyond i w hw⟩, hcontains⟩
  · rintro ⟨hcounts, helements, hcontains⟩
    exact ⟨⟨⟨hcounts, fun i w hw => (helements i w hw).1⟩, fun i w hw => (helements i w hw).2⟩,
      hcontains⟩

/-- The applicators. -/
lemma applicators_walks {allOf anyOf oneOf : List (SchNode R)}
    {not_ if_ then_ else_ : Option (SchNode R)} (hallOf : ∀ s ∈ allOf, Decides lf s)
    (hanyOf : ∀ s ∈ anyOf, Decides lf s) (honeOf : ∀ s ∈ oneOf, Decides lf s)
    (hnot : ∀ s, not_ = some s → Decides lf s) (hif : ∀ s, if_ = some s → Decides lf s)
    (hthen : ∀ s, then_ = some s → Decides lf s) (helse : ∀ s, else_ = some s → Decides lf s)
    (v : SValue) :
    Walks ((∀ s, s ∈ allOf → Holds lf s v) ∧
        (anyOf ≠ [] → ∃ s, ∃ _ : s ∈ anyOf, Holds lf s v) ∧
        (oneOf ≠ [] → ∃ i : ℕ, (∃ s, ∃ _ : oneOf[i]? = some s, Holds lf s v) ∧
          ∀ j, j ≠ i → ∀ s, oneOf[j]? = some s → ¬ Holds lf s v) ∧
        (∀ s, not_ = some s → ¬ Holds lf s v) ∧
        (∀ s, if_ = some s →
          (Holds lf s v → ∀ t, then_ = some t → Holds lf t v) ∧
          (¬ Holds lf s v → ∀ e, else_ = some e → Holds lf e v)))
      fun c =>
        let c := valAll lf allOf v c
        let c := checkAny anyOf.length (valBranches lf anyOf v 0) c
        let c := checkOne oneOf.length (valBranches lf oneOf v 0) c
        let c := valNot lf not_ v c
        match valIf lf if_ v c with
        | (none, c) => c
        | (some true, c) => valBranch lf "then" then_ v c
        | (some false, c) => valBranch lf "else" else_ v c :=
  (((((valAll_walks hallOf v).comp (checkAny_walks hanyOf v)).comp (checkOne_walks honeOf v)).comp
    (valNot_walks hnot v)).comp (valIf_walks hif hthen helse v)).congr (by simp only [and_assoc])

end Keywords

/-- The walk of a schema decides what the schema says. -/
theorem val_decides {R : Type} (lf : Leaves R) (n : SchNode R) : Decides lf n := by
  have ih : ∀ m ∈ n.children, Decides lf m := fun m hm => val_decides lf m
  intro v c hc
  cases n with
  | mk a props pprops additional propNames depSchemas tuple items addItems contains allOf anyOf
      oneOf not_ if_ then_ else_ =>
  simp only [SchNode.mem_children] at ih
  have hprops : ∀ p ∈ props, Decides lf p.2 := fun p hp => ih p.2 (by grind)
  have hpprops : ∀ p ∈ pprops, Decides lf p.2 := fun p hp => ih p.2 (by grind)
  have hdeps : ∀ p ∈ depSchemas, Decides lf p.2 := fun p hp => ih p.2 (by grind)
  have hadditional : ∀ s, additional = some s → Decides lf s := fun s hs => ih s (by grind)
  have hpropNames : ∀ s, propNames = some s → Decides lf s := fun s hs => ih s (by grind)
  have htuple : ∀ s ∈ tuple, Decides lf s := fun s hs => ih s (by grind)
  have hitems : ∀ s, items = some s → Decides lf s := fun s hs => ih s (by grind)
  have haddItems : ∀ s, addItems = some s → Decides lf s := fun s hs => ih s (by grind)
  have hcontains : ∀ s, contains = some s → Decides lf s := fun s hs => ih s (by grind)
  have hallOf : ∀ s ∈ allOf, Decides lf s := fun s hs => ih s (by grind)
  have hanyOf : ∀ s ∈ anyOf, Decides lf s := fun s hs => ih s (by grind)
  have honeOf : ∀ s ∈ oneOf, Decides lf s := fun s hs => ih s (by grind)
  have hnot : ∀ s, not_ = some s → Decides lf s := fun s hs => ih s (by grind)
  have hif : ∀ s, if_ = some s → Decides lf s := fun s hs => ih s (by grind)
  have hthen : ∀ s, then_ = some s → Decides lf s := fun s hs => ih s (by grind)
  have helse : ∀ s, else_ = some s → Decides lf s := fun s hs => ih s (by grind)
  have hdepth : ¬ maxSchemaDepth ≤ c.depth := by
    have hle := hc.depth
    unfold maxSchemaDepth
    omega
  have happlicators := applicators_walks hallOf hanyOf honeOf hnot hif hthen helse v
  have hchecks := (((checkValue_walks lf a v).comp (checkNumeric_walks lf a v)).comp
    (checkString_walks lf a v))
  rw [val, if_neg hdepth]
  by_cases hfalse : a.isFalse = true
  · rw [if_pos hfalse]
    refine (Walks.verr _ c hc).congr ?_
    exact ⟨False.elim, not_holds_of_isFalse (by simpa [SchNode.asserts] using hfalse) v⟩
  rw [if_neg hfalse]
  rw [Bool.not_eq_true] at hfalse
  cases v with
  | table ms =>
    have hobject := object_walks a hprops hpprops hadditional hpropNames hdeps ms
    refine ((hchecks.comp hobject).comp happlicators c hc).congr ?_
    rw [Holds, asserts_iff]
    simp only [hfalse, true_and, SValue.table.injEq, forall_eq', reduceCtorEq, false_implies,
      implies_true, and_true]
    tauto
  | array vs =>
    have harray := array_walks a htuple hitems haddItems hcontains vs
    refine ((hchecks.comp harray).comp happlicators c hc).congr ?_
    rw [Holds, asserts_iff]
    simp only [hfalse, true_and, SValue.array.injEq, forall_eq', reduceCtorEq, false_implies,
      implies_true]
    tauto
  | string | int | float | bool | null | datetime | date | time =>
    refine (hchecks.comp happlicators c hc).congr ?_
    rw [Holds, asserts_iff]
    simp only [hfalse, true_and, reduceCtorEq, false_implies, implies_true, and_true, and_assoc]
termination_by n
decreasing_by exact SchNode.sizeOf_lt hm

/-! ## The verdict -/

lemma Vctx.new_sane : Vctx.new.Sane := ⟨Nat.zero_le _, Or.inl rfl⟩

end Teptris
