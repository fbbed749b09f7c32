import Teptris.Schema.Verdict

/-!
# The actions of the walk

The walk as a sequence of actions on its context: pushes and pops of the two paths, errors, and
trials.  What is proved of every sequence of actions holds of every schema and every document.
-/

namespace Teptris

/-- What the walk does to its context. -/
inductive Act where
  /-- `path_push`. -/
  | pathPush (seg : Bytes)
  /-- `path_push_idx`. -/
  | pathPushIdx (idx : ℕ)
  /-- `path_pop`. -/
  | pathPop
  /-- `spush`. -/
  | spush (seg : Bytes)
  /-- `spop`. -/
  | spop
  /-- `verr`. -/
  | verr (msg : Bytes)
  /-- `passes`. -/
  | trial (acts : List Act)
  /-- `passes_annot_free`. -/
  | trialFree (acts : List Act)

mutual

/-- One action. -/
def Act.run : Act → Vctx → Vctx
  | .pathPush seg, c => c.pathPush seg
  | .pathPushIdx idx, c => c.pathPushIdx idx
  | .pathPop, c => c.pathPop
  | .spush seg, c => c.spush seg
  | .spop, c => c.spop
  | .verr msg, c => c.verr msg
  | .trial acts, c => (c.trial (runActs acts)).2
  | .trialFree acts, c => (c.trialFree (runActs acts)).2

/-- Actions, one after the other. -/
def runActs : List Act → Vctx → Vctx
  | [], c => c
  | a :: acts, c => runActs acts (a.run c)

end

lemma runActs_append (acts acts' : List Act) (c : Vctx) :
    runActs (acts ++ acts') c = runActs acts' (runActs acts c) := by
  induction acts generalizing c with
  | nil => rfl
  | cons a acts ih => exact ih (a.run c)

/-- Some actions lead from one context to the other. -/
def Acted (c c' : Vctx) : Prop := ∃ acts, c' = runActs acts c

namespace Acted

variable {c c' c'' : Vctx}

lemma refl (c : Vctx) : Acted c c := ⟨[], rfl⟩

lemma trans (h : Acted c c') (h' : Acted c' c'') : Acted c c'' := by
  obtain ⟨acts, rfl⟩ := h
  obtain ⟨acts', rfl⟩ := h'
  exact ⟨acts ++ acts', (runActs_append acts acts' c).symm⟩

/-- One action. -/
lemma one (a : Act) (c : Vctx) : Acted c (a.run c) := ⟨[a], rfl⟩

lemma verr (c : Vctx) (msg : Bytes) : Acted c (c.verr msg) := one (.verr msg) c

lemma check (c : Vctx) (ok : Bool) (msg : Bytes) : Acted c (c.check ok msg) := by
  cases ok with
  | false => exact verr c msg
  | true => exact refl c

lemma spush (c : Vctx) (seg : Bytes) : Acted c (c.spush seg) := one (.spush seg) c

lemma spop (c : Vctx) : Acted c c.spop := one .spop c

variable {walk : Vctx → Vctx}

lemma under (h : ∀ c, Acted c (walk c)) (sseg seg : Bytes) (c : Vctx) :
    Acted c (c.under sseg seg walk) :=
  ((((spush c sseg).trans (one (.pathPush seg) _)).trans (h _)).trans (one .pathPop _)).trans
    (spop _)

lemma underIdx (h : ∀ c, Acted c (walk c)) (sseg : Bytes) (idx : ℕ) (c : Vctx) :
    Acted c (c.underIdx sseg idx walk) :=
  ((((spush c sseg).trans (one (.pathPushIdx idx) _)).trans (h _)).trans (one .pathPop _)).trans
    (spop _)

lemma sunder (h : ∀ c, Acted c (walk c)) (sseg : Bytes) (c : Vctx) :
    Acted c (c.sunder sseg walk) :=
  ((spush c sseg).trans (h _)).trans (spop _)

/-- A trial, by the actions of its walk. -/
lemma trial (h : ∀ c, Acted c (walk c)) (c : Vctx) : Acted c (c.trial walk).2 := by
  obtain ⟨acts, hacts⟩ := h { c with mute := c.mute + 1 }
  refine ⟨[.trial acts], ?_⟩
  have htrial : c.trial walk = c.trial (runActs acts) := by
    rw [Vctx.trial, Vctx.trial, hacts]
  rw [htrial]
  rfl

lemma trialFree (h : ∀ c, Acted c (walk c)) (c : Vctx) : Acted c (c.trialFree walk).2 := by
  obtain ⟨acts, hacts⟩ := h { c with mute := c.mute + 1 }
  refine ⟨[.trialFree acts], ?_⟩
  have htrial : c.trialFree walk = c.trialFree (runActs acts) := by
    rw [Vctx.trialFree, Vctx.trialFree, hacts]
  rw [htrial]
  rfl

/-- The same part for each of some values. -/
lemma foldl {α : Type} {f : Vctx → α → Vctx} {xs : List α}
    (h : ∀ x ∈ xs, ∀ c, Acted c (f c x)) (c : Vctx) : Acted c (xs.foldl f c) := by
  induction xs generalizing c with
  | nil => exact refl c
  | cons x xs ih => exact (h x (by simp) c).trans (ih (fun y hy => h y (by simp [hy])) _)

/-- Trials of some values. -/
lemma countTrials {α : Type} {walk : α → Vctx → Vctx} {xs : List α}
    (h : ∀ x ∈ xs, ∀ c, Acted c (walk x c)) (hits : ℕ) (c : Vctx) :
    Acted c (countTrials walk xs hits c).2 := by
  induction xs generalizing hits c with
  | nil => exact refl c
  | cons x xs ih =>
    exact (trial (h x (by simp)) c).trans (ih (fun y hy => h y (by simp [hy])) _ _)

end Acted

/-! ## Checks without sub-schemas -/

section Checks

variable {R : Type} (lf : Leaves R) (a : Assertions R)

lemma checkValue_acted (v : SValue) (c : Vctx) : Acted c (checkValue lf a v c) :=
  (((Acted.check c _ _).trans (.check _ _ _)).trans (.check _ _ _)).trans (.check _ _ _)

lemma checkNumeric_acted (v : SValue) (c : Vctx) : Acted c (checkNumeric lf a v c) :=
  ((((Acted.check c _ _).trans (.check _ _ _)).trans (.check _ _ _)).trans (.check _ _ _)).trans
    (.check _ _ _)

lemma checkString_acted (v : SValue) (c : Vctx) : Acted c (checkString lf a v c) := by
  rw [checkString]
  cases v.text with
  | none => exact .refl c
  | some s => exact ((Acted.check c _ _).trans (.check _ _ _)).trans (.check _ _ _)

lemma checkProps_acted (ms : List (Bytes × SValue)) (c : Vctx) : Acted c (checkProps a ms c) :=
  ((Acted.check c _ _).trans (.check _ _ _)).trans (.foldl (fun _ _ c => .check c _ _) _)

lemma checkDepReq_acted (ms : List (Bytes × SValue)) (c : Vctx) :
    Acted c (checkDepReq a ms c) := by
  refine Acted.foldl (fun d _ c => ?_) c
  split_ifs
  · exact .foldl (fun _ _ c => .check c _ _) c
  · exact .refl c

lemma checkItems_acted (vs : List SValue) (c : Vctx) : Acted c (checkItems lf a vs c) := by
  have hcounts : Acted c ((c.check (atLeast a.minItems vs.length)
      (ascii "fewer items than minItems")).check (atMost a.maxItems vs.length)
      (ascii "more items than maxItems")) := (Acted.check c _ _).trans (.check _ _ _)
  rw [checkItems]
  split_ifs
  · cases firstTwins lf 0 vs with
    | none => exact hcounts
    | some x => exact hcounts.trans (.verr _ _)
  · exact hcounts

end Checks

/-! ## The keywords with sub-schemas -/

section Keywords

variable {R : Type} {lf : Leaves R}

/-- The walk of a schema is a sequence of actions. -/
def Acts (lf : Leaves R) (s : SchNode R) : Prop := ∀ v c, Acted c (val lf s v c)

lemma valProps_acted {props : List (Bytes × SchNode R)} (h : ∀ p ∈ props, Acts lf p.2)
    (key : Bytes) (mv : SValue) (c : Vctx) : Acted c (valProps lf props key mv c).2 := by
  induction props with
  | nil => exact .refl c
  | cons p props ih =>
    obtain ⟨name, s⟩ := p
    rw [valProps]
    split_ifs
    · exact Acted.under (h (name, s) (by simp) mv) _ key c
    · exact ih fun p hp => h p (by simp [hp])

lemma valPprops_acted {pprops : List (R × SchNode R)} (h : ∀ p ∈ pprops, Acts lf p.2)
    (key : Bytes) (mv : SValue) (known : Bool) (c : Vctx) :
    Acted c (valPprops lf pprops key mv known c).2 := by
  induction pprops generalizing known c with
  | nil => exact .refl c
  | cons p pprops ih =>
    obtain ⟨re, s⟩ := p
    have hrest := ih fun p hp => h p (by simp [hp])
    rw [valPprops]
    split_ifs
    · exact (Acted.under (h (re, s) (by simp) mv) _ key c).trans (hrest _ _)
    · exact hrest _ _

lemma valAdditional_acted {additional : Option (SchNode R)}
    (h : ∀ s, additional = some s → Acts lf s) (key : Bytes) (mv : SValue) (c : Vctx) :
    Acted c (valAdditional lf additional key mv c) := by
  cases additional with
  | none => exact .refl c
  | some s =>
    rw [valAdditional]
    split_ifs
    · exact Acted.under (fun c => .verr c _) _ key c
    · exact Acted.under (h s rfl mv) _ key c

lemma valPropName_acted {propNames : Option (SchNode R)}
    (h : ∀ s, propNames = some s → Acts lf s) (key : Bytes) (c : Vctx) :
    Acted c (valPropName lf propNames key c) := by
  cases propNames with
  | none => exact .refl c
  | some s =>
    exact (((Acted.spush c _).trans (.trial (h s rfl (.string key)) _)).trans
      (.check _ _ _)).trans (.spop _)

lemma valDepSchemas_acted {deps : List (Bytes × SchNode R)} (h : ∀ p ∈ deps, Acts lf p.2)
    (ms : List (Bytes × SValue)) (c : Vctx) : Acted c (valDepSchemas lf deps ms c) := by
  induction deps generalizing c with
  | nil => exact .refl c
  | cons p deps ih =>
    obtain ⟨key, s⟩ := p
    have hrest := ih fun p hp => h p (by simp [hp])
    rw [valDepSchemas]
    split_ifs
    · exact ((Acted.trial (h (key, s) (by simp) (.table ms)) c).trans (.check _ _ _)).trans
        (hrest _)
    · exact hrest _

lemma valTuple_acted {tuple : List (SchNode R)} (h : ∀ s ∈ tuple, Acts lf s)
    (vs : List SValue) (i : ℕ) (c : Vctx) : Acted c (valTuple lf tuple vs i c) := by
  induction tuple generalizing vs i c with
  | nil =>
    rw [valTuple]
    · exact .refl c
    · simp
  | cons s tuple ih =>
    cases vs with
    | nil =>
      rw [valTuple]
      · exact .refl c
      · simp
    | cons v vs =>
      exact (Acted.underIdx (h s (by simp) v) _ i c).trans
        (ih (fun s hs => h s (by simp [hs])) vs (i + 1) _)

lemma eachIdx_acted {walk : ℕ → SValue → Vctx → Vctx}
    (h : ∀ i v c, Acted c (walk i v c)) (vs : List SValue) (i : ℕ) (c : Vctx) :
    Acted c (eachIdx walk i vs c) := by
  induction vs generalizing i c with
  | nil => exact .refl c
  | cons v vs ih => exact (h i v c).trans (ih (i + 1) _)

lemma valItems_acted {items : Option (SchNode R)} (h : ∀ s, items = some s → Acts lf s)
    (i : ℕ) (vs : List SValue) (c : Vctx) : Acted c (valItems lf items i vs c) := by
  cases items with
  | none => exact .refl c
  | some s => exact eachIdx_acted (fun i v c => .underIdx (h s rfl v) _ i c) vs i c

lemma valAddItems_acted {addItems : Option (SchNode R)}
    (h : ∀ s, addItems = some s → Acts lf s) (i : ℕ) (vs : List SValue) (c : Vctx) :
    Acted c (valAddItems lf addItems i vs c) := by
  cases addItems with
  | none => exact .refl c
  | some s =>
    rw [valAddItems]
    refine eachIdx_acted (fun i v c => ?_) vs i c
    split_ifs
    · exact .underIdx (fun c => .verr c _) _ i c
    · exact .underIdx (h s rfl v) _ i c

lemma valContains_acted {contains : Option (SchNode R)}
    (h : ∀ s, contains = some s → Acts lf s) (a : Assertions R) (vs : List SValue) (c : Vctx) :
    Acted c (valContains lf a contains vs c) := by
  cases contains with
  | none => exact .refl c
  | some s =>
    have hcount := fun c => Acted.countTrials (fun v (_ : v ∈ vs) => h s rfl v) 0 c
    rw [valContains]
    dsimp only
    split_ifs
    · exact (((hcount c).trans (.check _ _ _)).trans (.check _ _ _)).trans (hcount _)
    · exact ((hcount c).trans (.check _ _ _)).trans (.check _ _ _)

lemma valAll_acted {ss : List (SchNode R)} (h : ∀ s ∈ ss, Acts lf s) (v : SValue) (c : Vctx) :
    Acted c (valAll lf ss v c) := by
  induction ss generalizing c with
  | nil => exact .refl c
  | cons s ss ih =>
    exact (Acted.sunder (h s (by simp) v) _ c).trans (ih (fun s hs => h s (by simp [hs])) _)

lemma valBranches_acted {ss : List (SchNode R)} (h : ∀ s ∈ ss, Acts lf s) (v : SValue)
    (hits : ℕ) (c : Vctx) : Acted c (valBranches lf ss v hits c).2 := by
  rw [valBranches_eq]
  exact .countTrials (fun s hs => h s hs v) hits c

lemma checkAny_acted {ss : List (SchNode R)} (h : ∀ s ∈ ss, Acts lf s) (v : SValue) (c : Vctx) :
    Acted c (checkAny ss.length (valBranches lf ss v 0) c) := by
  rw [checkAny]
  split_ifs
  · exact .refl c
  · exact (valBranches_acted h v 0 c).trans (.check _ _ _)

lemma checkOne_acted {ss : List (SchNode R)} (h : ∀ s ∈ ss, Acts lf s) (v : SValue) (c : Vctx) :
    Acted c (checkOne ss.length (valBranches lf ss v 0) c) := by
  rw [checkOne]
  split_ifs
  · exact .refl c
  · exact (valBranches_acted h v 0 c).trans (.check _ _ _)

lemma valNot_acted {not_ : Option (SchNode R)} (h : ∀ s, not_ = some s → Acts lf s)
    (v : SValue) (c : Vctx) : Acted c (valNot lf not_ v c) := by
  cases not_ with
  | none => exact .refl c
  | some s => exact (Acted.trialFree (h s rfl v) c).trans (.check _ _ _)

lemma valBranch_acted {o : Option (SchNode R)} (h : ∀ s, o = some s → Acts lf s)
    (seg : String) (v : SValue) (c : Vctx) : Acted c (valBranch lf seg o v c) := by
  cases o with
  | none => exact .refl c
  | some s => exact .sunder (h s rfl v) _ c

lemma valIf_acted {o : Option (SchNode R)} (h : ∀ s, o = some s → Acts lf s) (v : SValue)
    (c : Vctx) : Acted c (valIf lf o v c).2 := by
  cases o with
  | none => exact .refl c
  | some s => exact .trial (h s rfl v) c

/-! ## The induction -/

/-- A member of a table. -/
lemma member_acted {props : List (Bytes × SchNode R)} {pprops : List (R × SchNode R)}
    {additional : Option (SchNode R)} (hprops : ∀ p ∈ props, Acts lf p.2)
    (hpprops : ∀ p ∈ pprops, Acts lf p.2) (hadditional : ∀ s, additional = some s → Acts lf s)
    (m : Bytes × SValue) (c : Vctx) :
    Acted c (
      let (known, c) := valProps lf props m.1 m.2 c
      let (known, c) := valPprops lf pprops m.1 m.2 known c
      if known then c else valAdditional lf additional m.1 m.2 c) := by
  have hboth := (valProps_acted hprops m.1 m.2 c).trans
    (valPprops_acted hpprops m.1 m.2 (valProps lf props m.1 m.2 c).1 _)
  dsimp only
  split_ifs
  · exact hboth
  · exact hboth.trans (valAdditional_acted hadditional m.1 m.2 _)

/-- The elements beyond the tuple. -/
lemma beyond_acted {items addItems : Option (SchNode R)}
    (hitems : ∀ s, items = some s → Acts lf s) (haddItems : ∀ s, addItems = some s → Acts lf s)
    (n : ℕ) (rest : List SValue) (c : Vctx) :
    Acted c (if items.isSome then valItems lf items n rest c
      else valAddItems lf addItems n rest c) := by
  split_ifs
  · exact valItems_acted hitems n rest c
  · exact valAddItems_acted haddItems n rest c

/-- The applicators. -/
lemma applicators_acted {allOf anyOf oneOf : List (SchNode R)}
    {not_ if_ then_ else_ : Option (SchNode R)} (hallOf : ∀ s ∈ allOf, Acts lf s)
    (hanyOf : ∀ s ∈ anyOf, Acts lf s) (honeOf : ∀ s ∈ oneOf, Acts lf s)
    (hnot : ∀ s, not_ = some s → Acts lf s) (hif : ∀ s, if_ = some s → Acts lf s)
    (hthen : ∀ s, then_ = some s → Acts lf s) (helse : ∀ s, else_ = some s → Acts lf s)
    (v : SValue) (c : Vctx) :
    Acted c (
      let c := valAll lf allOf v c
      let c := checkAny anyOf.length (valBranches lf anyOf v 0) c
      let c := checkOne oneOf.length (valBranches lf oneOf v 0) c
      let c := valNot lf not_ v c
      match valIf lf if_ v c with
      | (none, c) => c
      | (some true, c) => valBranch lf "then" then_ v c
      | (some false, c) => valBranch lf "else" else_ v c) := by
  have hfour := (((valAll_acted hallOf v c).trans (checkAny_acted hanyOf v _)).trans
    (checkOne_acted honeOf v _)).trans (valNot_acted hnot v _)
  dsimp only
  generalize valNot lf not_ v _ = c₁ at hfour ⊢
  have hcond := hfour.trans (valIf_acted hif v c₁)
  generalize valIf lf if_ v c₁ = t at hcond ⊢
  obtain ⟨cond, c₂⟩ := t
  match cond with
  | none => exact hcond
  | some true => exact hcond.trans (valBranch_acted hthen "then" v c₂)
  | some false => exact hcond.trans (valBranch_acted helse "else" v c₂)

end Keywords

/-- The walk of every schema is a sequence of actions. -/
theorem val_acts {R : Type} (lf : Leaves R) (n : SchNode R) : Acts lf n := by
  have ih : ∀ m ∈ n.children, Acts lf m := fun m hm => val_acts lf m
  intro v c
  cases n with
  | mk a props pprops additional propNames depSchemas tuple items addItems contains allOf anyOf
      oneOf not_ if_ then_ else_ =>
  simp only [SchNode.mem_children] at ih
  have hprops : ∀ p ∈ props, Acts lf p.2 := fun p hp => ih p.2 (by grind)
  have hpprops : ∀ p ∈ pprops, Acts lf p.2 := fun p hp => ih p.2 (by grind)
  have hdeps : ∀ p ∈ depSchemas, Acts lf p.2 := fun p hp => ih p.2 (by grind)
  have hadditional : ∀ s, additional = some s → Acts lf s := fun s hs => ih s (by grind)
  have hpropNames : ∀ s, propNames = some s → Acts lf s := fun s hs => ih s (by grind)
  have htuple : ∀ s ∈ tuple, Acts lf s := fun s hs => ih s (by grind)
  have hitems : ∀ s, items = some s → Acts lf s := fun s hs => ih s (by grind)
  have haddItems : ∀ s, addItems = some s → Acts lf s := fun s hs => ih s (by grind)
  have hcontains : ∀ s, contains = some s → Acts lf s := fun s hs => ih s (by grind)
  have hallOf : ∀ s ∈ allOf, Acts lf s := fun s hs => ih s (by grind)
  have hanyOf : ∀ s ∈ anyOf, Acts lf s := fun s hs => ih s (by grind)
  have honeOf : ∀ s ∈ oneOf, Acts lf s := fun s hs => ih s (by grind)
  have hnot : ∀ s, not_ = some s → Acts lf s := fun s hs => ih s (by grind)
  have hif : ∀ s, if_ = some s → Acts lf s := fun s hs => ih s (by grind)
  have hthen : ∀ s, then_ = some s → Acts lf s := fun s hs => ih s (by grind)
  have helse : ∀ s, else_ = some s → Acts lf s := fun s hs => ih s (by grind)
  have happlicators := applicators_acted hallOf hanyOf honeOf hnot hif hthen helse v
  have hchecks := ((checkValue_acted lf a v c).trans (checkNumeric_acted lf a v _)).trans
    (checkString_acted lf a v _)
  rw [val]
  by_cases hdepth : maxSchemaDepth ≤ c.depth
  · rw [if_pos hdepth]
    exact .verr c _
  by_cases hfalse : a.isFalse = true
  · rw [if_neg hdepth, if_pos hfalse]
    exact .verr c _
  rw [if_neg hdepth, if_neg hfalse]
  cases v with
  | table ms =>
    have hmembers := Acted.foldl fun m (_ : m ∈ ms) => member_acted hprops hpprops hadditional m
    have hnames := Acted.foldl fun m (_ : m ∈ ms) => valPropName_acted hpropNames m.1
    exact (((((hchecks.trans (checkProps_acted a ms _)).trans (hmembers _)).trans
      (hnames _)).trans (checkDepReq_acted a ms _)).trans
      (valDepSchemas_acted hdeps ms _)).trans (happlicators _)
  | array vs =>
    exact ((((hchecks.trans (checkItems_acted lf a vs _)).trans
      (valTuple_acted htuple vs 0 _)).trans
      (beyond_acted hitems haddItems tuple.length (vs.drop tuple.length) _)).trans
      (valContains_acted hcontains a vs _)).trans (happlicators _)
  | string | int | float | bool | null | datetime | date | time =>
    exact hchecks.trans (happlicators _)
termination_by n
decreasing_by exact SchNode.sizeOf_lt hm

end Teptris
