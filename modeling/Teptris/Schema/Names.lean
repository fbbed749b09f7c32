import Teptris.Parse.Run
import Teptris.Schema.Semantics

/-!
# Property names

How the keywords that inspect property names compare a name of the schema with a key of the
document: both arrive as C strings, and what stands behind a NUL byte is not compared.
-/

namespace Teptris

/-! ## Annotation frames -/

/-- The evaluated properties of `struct eval_frame`.  The hash is a list of its slots: a key and
its stamp. -/
structure Frame where
  /-- `keys`. -/
  keys : List Bytes
  /-- The used slots of `khash`. -/
  khash : List (Bytes × ℕ)
  /-- `khash_cap`. -/
  khashCap : ℕ

/-- The frame of `frame_push`. -/
def Frame.new : Frame := ⟨[], [], 0⟩

/-- The capacity `frame_khash_build` doubles up to, from `cap` on. -/
def khashCapFor (need : ℕ) : ℕ → ℕ → ℕ
  | 0, cap => cap
  | fuel + 1, cap => if cap * 7 / 10 < need then khashCapFor need fuel (cap * 2) else cap

namespace Frame

/-- `frame_khash_build`. -/
def khashBuild (f : Frame) : Frame :=
  { f with
    khash := f.keys.zipIdx
    khashCap := khashCapFor (f.keys.length + 1) (f.keys.length + 1) 16 }

/-- `frame_khash_insert`. -/
def khashInsert (f : Frame) (key : Bytes) : Frame :=
  let f := if f.khashCap * 7 / 10 < f.keys.length + 1 then f.khashBuild else f
  { f with khash := f.khash ++ [(key, f.keys.length - 1)] }

/-- `frame_key_seen`. -/
def keySeen (f : Frame) (key : Bytes) : Bool :=
  f.khashCap ≠ 0 && f.khash.any fun slot => slot.2 < f.keys.length && slot.1 == key

/-- `frame_add_key`. -/
def addKey (f : Frame) (key : Bytes) : Frame :=
  if f.keySeen key then f else { f with keys := f.keys ++ [key] }.khashInsert key

lemma le_khashCapFor (need fuel cap : ℕ) : cap ≤ khashCapFor need fuel cap := by
  induction fuel generalizing cap with
  | zero => exact Nat.le_refl cap
  | succ fuel ih =>
    rw [khashCapFor]
    split_ifs
    · exact le_trans (by omega) (ih (cap * 2))
    · exact Nat.le_refl cap

/-- A key that was added is seen. -/
lemma keySeen_addKey (f : Frame) (key : Bytes) : (f.addKey key).keySeen key = true := by
  rw [addKey]
  by_cases hseen : f.keySeen key = true
  · rw [if_pos hseen]
    exact hseen
  · rw [if_neg hseen]
    have hcap : ∀ need fuel, khashCapFor need fuel 16 ≠ 0 := fun need fuel =>
      Nat.ne_of_gt (lt_of_lt_of_le (by decide) (le_khashCapFor need fuel 16))
    rw [khashInsert, keySeen]
    split_ifs with hbuild
    · simp [khashBuild, hcap]
    · have hzero : f.khashCap ≠ 0 := by
        rintro h
        exact hbuild (by rw [h]; simp)
      simp [hzero]

/-- In a new frame nothing else is seen. -/
lemma keySeen_new {key key' : Bytes} (h : (Frame.new.addKey key).keySeen key' = true) :
    key = key' := by
  have hslots : (Frame.new.addKey key).khash = [(key, 0), (key, 0)] := by
    simp [addKey, keySeen, Frame.new, khashInsert, khashBuild]
  rw [keySeen, hslots] at h
  simp only [List.any_cons, List.any_nil, Bool.and_eq_true, Bool.or_eq_true, beq_iff_eq] at h
  obtain ⟨-, ⟨-, hkey⟩ | ⟨-, hkey⟩ | hkey⟩ := h
  · exact hkey
  · exact hkey
  · exact absurd hkey Bool.false_ne_true

end Frame

/-! ## What a keyword takes for one property -/

/-- The keywords that inspect property names. -/
inductive NameKeyword where
  /-- `properties`. -/
  | properties
  /-- `patternProperties`, with a pattern that only one name matches. -/
  | patternProperties
  /-- `additionalProperties`, next to the name in `properties`. -/
  | additionalProperties
  /-- `propertyNames`, with a schema that only one name satisfies. -/
  | propertyNames
  /-- `required`. -/
  | required
  /-- `dependentRequired`, the names that are needed. -/
  | dependentRequired
  /-- `dependentRequired`, the name that needs them. -/
  | dependentTrigger
  /-- `dependentSchemas`. -/
  | dependentSchemas
  /-- `unevaluatedProperties`, behind a keyword that has evaluated the name. -/
  | unevaluatedProperties

/-- The names of `properties`, as `sch_compile_node` keeps them. -/
def compiledProps {R : Type} (props : List (Bytes × SchNode R)) : List (Bytes × SchNode R) :=
  props.map fun p => (cstr p.1, p.2)

/-- The keyword takes the key `k` of a document for the name `s` of a schema, in every schema
object with that name and every table with that key. -/
def Treats (s k : Bytes) : NameKeyword → Prop
  | .properties => ∀ {R : Type} (lf : Leaves R) (props : List (Bytes × SchNode R)) (mv : SValue)
      (c : Vctx), s ∈ props.map Prod.fst →
      (valProps lf (compiledProps props) (cstr k) mv c).1 = true
  | .patternProperties => ∀ {R : Type} (lf : Leaves R) (pprops : List (R × SchNode R))
      (mv : SValue) (c : Vctx), (∃ p ∈ pprops, ∀ x, lf.isMatch p.1 x = true ↔ x = s) →
      (valPprops lf pprops (cstr k) mv false c).1 = true
  | .additionalProperties => ∀ {R : Type} (lf : Leaves R) (props : List (Bytes × SchNode R))
      (pprops : List (R × SchNode R)) (mv : SValue) (c : Vctx), s ∈ props.map Prod.fst →
      (valPprops lf pprops (cstr k) mv (valProps lf (compiledProps props) (cstr k) mv c).1
        c).1 = true
  | .propertyNames => ∀ {R : Type} (lf : Leaves R) (n : SchNode R),
      (∀ x c, c.depth < maxSchemaDepth → ((val lf n (.string x) c).pings = c.pings ↔ x = s)) →
      ∀ c, c.depth < maxSchemaDepth → (valPropName lf (some n) (cstr k) c).pings = c.pings
  | .required => ∀ (es : List (Key × Node)) (c : Vctx), k ∈ es.map (·.1.bytes) →
      (checkProps ({ required := [cstr s] } : Assertions Unit) (entriesToSv es) c).pings = c.pings
  | .dependentRequired => ∀ (es : List (Key × Node)) (t : Bytes) (c : Vctx),
      k ∈ es.map (·.1.bytes) →
      (checkDepReq ({ depReq := [(cstr t, [cstr s])] } : Assertions Unit) (entriesToSv es)
        c).pings = c.pings
  | .dependentTrigger => ∀ (es : List (Key × Node)) (t : Bytes) (c : Vctx),
      k ∈ es.map (·.1.bytes) → hasKey (entriesToSv es) (cstr t) = false →
      (checkDepReq ({ depReq := [(cstr s, [cstr t])] } : Assertions Unit) (entriesToSv es)
        c).pings ≠ c.pings
  | .dependentSchemas => ∀ (es : List (Key × Node)) (c : Vctx), k ∈ es.map (·.1.bytes) →
      (valDepSchemas Leaves.none [(cstr s, .leaf { isFalse := true })] (entriesToSv es)
        c).pings ≠ c.pings
  | .unevaluatedProperties => ∀ f : Frame, (f.addKey (cstr s)).keySeen (cstr k) = true

section Compared

variable {R : Type} {lf : Leaves R} {s k : Bytes}

lemma check_pings_iff (c : Vctx) (ok : Bool) (msg : Bytes) :
    (c.check ok msg).pings = c.pings ↔ ok = true := by
  rw [Vctx.check]
  cases ok with
  | true => simp
  | false =>
    have hverr : (c.verr msg).pings = c.pings + 1 := by
      rw [Vctx.verr]
      split_ifs <;> rfl
    rw [if_neg Bool.false_ne_true, hverr]
    simp

/-- The keys of a table, as C strings. -/
lemma hasKey_entriesToSv (es : List (Key × Node)) (x : Bytes) :
    hasKey (entriesToSv es) x = true ↔ ∃ e ∈ es, cstr e.1.bytes = x := by
  induction es with
  | nil => simp [entriesToSv, hasKey]
  | cons e es ih =>
    obtain ⟨key, v⟩ := e
    have hcons : hasKey (entriesToSv ((key, v) :: es)) x =
        (cstr key.bytes == x || hasKey (entriesToSv es) x) := rfl
    rw [hcons, Bool.or_eq_true, ih, beq_iff_eq]
    simp

lemma hasKey_of_mem {es : List (Key × Node)} (hk : k ∈ es.map (·.1.bytes)) (h : cstr s = cstr k) :
    hasKey (entriesToSv es) (cstr s) = true := by
  obtain ⟨e, he, rfl⟩ := List.mem_map.mp hk
  exact (hasKey_entriesToSv es _).mpr ⟨e, he, h.symm⟩

/-- The table with one key. -/
def tableOf (k : Bytes) : List (Key × Node) := [(Key.ofBytes k, .boolean true)]

lemma mem_tableOf (k : Bytes) : k ∈ (tableOf k).map (·.1.bytes) := by
  simp [tableOf]

lemma hasKey_tableOf (k x : Bytes) : hasKey (entriesToSv (tableOf k)) x = true ↔ cstr k = x := by
  rw [hasKey_entriesToSv]
  simp [tableOf]

/-- A name of `properties` is found by its C string. -/
lemma valProps_known (props : List (Bytes × SchNode R)) (key : Bytes) (mv : SValue) (c : Vctx) :
    (valProps lf props key mv c).1 = true ↔ ∃ p ∈ props, p.1 = key := by
  induction props with
  | nil => simp [valProps]
  | cons p props ih =>
    obtain ⟨name, n⟩ := p
    rw [valProps]
    by_cases hname : name = key
    · rw [if_pos hname]
      simp [hname]
    · rw [if_neg hname, ih]
      simp [hname]

/-- The patterns are matched against the C string. -/
lemma valPprops_known (pprops : List (R × SchNode R)) (key : Bytes) (mv : SValue) (known : Bool)
    (c : Vctx) : (valPprops lf pprops key mv known c).1 = true ↔
      known = true ∨ ∃ p ∈ pprops, lf.isMatch p.1 key = true := by
  induction pprops generalizing known c with
  | nil => simp [valPprops]
  | cons p pprops ih =>
    obtain ⟨re, n⟩ := p
    rw [valPprops]
    by_cases hmatch : lf.isMatch re key = true
    · rw [if_pos hmatch, ih]
      simp [hmatch]
    · rw [if_neg hmatch, ih]
      simp [hmatch]

lemma spush_pings (c : Vctx) (seg : Bytes) : (c.spush seg).pings = c.pings := by
  rw [Vctx.spush]
  split_ifs <;> rfl

lemma spush_depth (c : Vctx) (seg : Bytes) : (c.spush seg).depth = c.depth := by
  rw [Vctx.spush]
  split_ifs <;> rfl

lemma trial_pings (c : Vctx) (walk : Vctx → Vctx) : (c.trial walk).2.pings = c.pings := by
  rw [Vctx.trial]
  dsimp only
  split_ifs <;> rfl

lemma trial_ok (c : Vctx) (walk : Vctx → Vctx) :
    (c.trial walk).1 = true ↔ (walk { c with mute := c.mute + 1 }).pings = c.pings := by
  rw [Vctx.trial]
  dsimp only
  split_ifs with hok
  · simpa using hok
  · simpa using hok

/-- `propertyNames` reports unless its schema takes the C string. -/
lemma valPropName_pings {n : SchNode R} {key : Bytes} {accepts : Prop}
    (hn : ∀ c : Vctx, c.depth < maxSchemaDepth →
      ((val lf n (.string key) c).pings = c.pings ↔ accepts))
    {c : Vctx} (hc : c.depth < maxSchemaDepth) :
    (valPropName lf (some n) key c).pings = c.pings ↔ accepts := by
  have hpop : ∀ c : Vctx, c.spop.pings = c.pings := fun _ => rfl
  rw [valPropName, hpop]
  have hcheck := check_pings_iff ((c.spush (ascii "propertyNames")).trial
    (val lf n (.string key))).2 ((c.spush (ascii "propertyNames")).trial
    (val lf n (.string key))).1 (ascii "property name '" ++ key ++ ascii "' fails propertyNames")
  rw [trial_pings, spush_pings] at hcheck
  rw [hcheck, trial_ok]
  exact hn { c.spush (ascii "propertyNames") with
    mute := (c.spush (ascii "propertyNames")).mute + 1 } (by
      change (c.spush (ascii "propertyNames")).depth < maxSchemaDepth
      rwa [spush_depth])

/-! ## The keywords one by one -/

/-- A regex that only one string matches. -/
def literal : Leaves Bytes :=
  ⟨fun _ => false, fun _ _ => false, fun _ _ _ => false, fun _ _ => false, fun re x => re == x⟩

lemma mem_compiledProps {props : List (Bytes × SchNode R)} (h : s ∈ props.map Prod.fst) :
    ∃ p ∈ compiledProps props, p.1 = cstr s := by
  obtain ⟨p, hp, rfl⟩ := List.mem_map.mp h
  exact ⟨(cstr p.1, p.2), List.mem_map.mpr ⟨p, hp, rfl⟩, rfl⟩

lemma treats_properties : Treats s k .properties ↔ cstr s = cstr k := by
  constructor
  · intro h
    have hknown := h Leaves.none [(s, .leaf {})] .null .new (by simp)
    rw [valProps_known] at hknown
    simpa [compiledProps] using hknown
  · intro h R lf props mv c hs
    rw [valProps_known, ← h]
    exact mem_compiledProps hs

lemma treats_patternProperties : Treats s k .patternProperties ↔ s = cstr k := by
  constructor
  · intro h
    have honly : ∀ x, literal.isMatch s x = true ↔ x = s := by
      intro x
      rw [literal, beq_iff_eq, eq_comm]
    have hknown := h literal [(s, .leaf {})] .null .new ⟨(s, .leaf {}), by simp, honly⟩
    rw [valPprops_known] at hknown
    simpa [literal] using hknown
  · rintro h R lf pprops mv c ⟨p, hp, hmatch⟩
    rw [valPprops_known]
    exact Or.inr ⟨p, hp, (hmatch _).mpr h.symm⟩

lemma treats_additionalProperties : Treats s k .additionalProperties ↔ cstr s = cstr k := by
  constructor
  · intro h
    have hknown := h Leaves.none [(s, .leaf {})] [] .null .new (by simp)
    rw [valPprops, valProps_known] at hknown
    simpa [compiledProps] using hknown
  · intro h R lf props pprops mv c hs
    rw [valPprops_known]
    refine Or.inl ?_
    rw [valProps_known, ← h]
    exact mem_compiledProps hs

lemma check_pings_le (c : Vctx) (ok : Bool) (msg : Bytes) : c.pings ≤ (c.check ok msg).pings := by
  rw [Vctx.check]
  split_ifs
  · exact le_rfl
  · rw [Vctx.verr]
    split_ifs <;> exact Nat.le_succ _

/-- A schema of a pattern reports unless the string matches. -/
lemma val_pattern (x : Bytes) (c : Vctx) (hdepth : c.depth < maxSchemaDepth) :
    (val literal (.leaf { pattern := some s }) (.string x) c).pings = c.pings ↔ x = s := by
  have hval : val literal (.leaf { pattern := some s }) (.string x) c =
      c.check (s == x) (ascii "string does not match the pattern") := by
    rw [SchNode.leaf, val, if_neg (Nat.not_le.mpr hdepth)]
    rfl
  rw [hval, check_pings_iff, beq_iff_eq, eq_comm]

lemma treats_propertyNames : Treats s k .propertyNames ↔ s = cstr k := by
  constructor
  · intro h
    have hpass := h literal (.leaf { pattern := some s }) (fun x c hc => val_pattern x c hc)
      .new (by decide)
    exact ((valPropName_pings (val_pattern (cstr k)) (by decide)).mp hpass).symm
  · intro h R lf n hn c hc
    exact (valPropName_pings (hn (cstr k)) hc).mpr h.symm

/-- The checks of the counts say nothing without limits. -/
lemma checkProps_required (names : List Bytes) (ms : List (Bytes × SValue)) (c : Vctx) :
    checkProps ({ required := names } : Assertions Unit) ms c =
      names.foldl (fun c k =>
        c.check (hasKey ms k) (ascii "missing required property '" ++ k ++ ascii "'")) c := rfl

lemma treats_required : Treats s k .required ↔ cstr s = cstr k := by
  constructor
  · intro h
    have hpass := h (tableOf k) .new (mem_tableOf k)
    rw [checkProps_required, List.foldl_cons, List.foldl_nil, check_pings_iff,
      hasKey_tableOf] at hpass
    exact hpass.symm
  · intro h es c hk
    rw [checkProps_required, List.foldl_cons, List.foldl_nil, check_pings_iff]
    exact hasKey_of_mem hk h

/-- One pair of `dependentRequired`. -/
lemma checkDepReq_pair (t s : Bytes) (ms : List (Bytes × SValue)) (c : Vctx) :
    (checkDepReq ({ depReq := [(t, [s])] } : Assertions Unit) ms c).pings = c.pings ↔
      hasKey ms t = true → hasKey ms s = true := by
  rw [checkDepReq, List.foldl_cons, List.foldl_nil]
  by_cases ht : hasKey ms t = true
  · rw [if_pos ht, List.foldl_cons, List.foldl_nil, check_pings_iff]
    simp [ht]
  · rw [if_neg ht]
    simp [ht]

lemma treats_dependentRequired : Treats s k .dependentRequired ↔ cstr s = cstr k := by
  constructor
  · intro h
    have hpass := h (tableOf k) k .new (mem_tableOf k)
    rw [checkDepReq_pair, hasKey_tableOf, hasKey_tableOf] at hpass
    exact (hpass rfl).symm
  · intro h es t c hk
    rw [checkDepReq_pair]
    exact fun _ => hasKey_of_mem hk h

/-- Some name is not the key. -/
lemma exists_cstr_ne (k : Bytes) : ∃ t : Bytes, cstr k ≠ cstr t := by
  by_cases hk : cstr k = []
  · refine ⟨[1], ?_⟩
    rw [hk]
    decide
  · exact ⟨[], hk⟩

lemma treats_dependentTrigger : Treats s k .dependentTrigger ↔ cstr s = cstr k := by
  constructor
  · intro h
    obtain ⟨t, ht⟩ := exists_cstr_ne k
    have habsent : hasKey (entriesToSv (tableOf k)) (cstr t) = false :=
      Bool.eq_false_iff.mpr fun hkey => ht ((hasKey_tableOf k _).mp hkey)
    have hfail := h (tableOf k) t .new (mem_tableOf k) habsent
    rw [Ne, checkDepReq_pair, habsent, hasKey_tableOf] at hfail
    by_contra hne
    exact hfail fun heq => absurd heq.symm hne
  · intro h es t c hk habsent
    rw [Ne, checkDepReq_pair, habsent]
    exact fun hpass => Bool.false_ne_true (hpass (hasKey_of_mem hk h))

/-- The false schema reports. -/
lemma val_false (v : SValue) (c : Vctx) :
    (val Leaves.none (.leaf { isFalse := true }) v c).pings ≠ c.pings := by
  have hverr : ∀ msg, (c.verr msg).pings ≠ c.pings := by
    intro msg h
    have hcheck := check_pings_iff c false msg
    rw [Vctx.check, if_neg Bool.false_ne_true] at hcheck
    exact Bool.false_ne_true (hcheck.mp h)
  rw [SchNode.leaf, val]
  by_cases hdepth : maxSchemaDepth ≤ c.depth
  · rw [if_pos hdepth]
    exact hverr _
  · rw [if_neg hdepth, if_pos rfl]
    exact hverr _

lemma valDepSchemas_false (s : Bytes) (ms : List (Bytes × SValue)) (c : Vctx) :
    (valDepSchemas Leaves.none [(s, .leaf { isFalse := true })] ms c).pings = c.pings ↔
      hasKey ms s = false := by
  rw [valDepSchemas]
  by_cases hkey : hasKey ms s = true
  · rw [if_pos hkey]
    simp only [valDepSchemas]
    have hcheck := check_pings_iff
      (c.trial (val Leaves.none (.leaf { isFalse := true }) (.table ms))).2
      (c.trial (val Leaves.none (.leaf { isFalse := true }) (.table ms))).1
      (ascii "the '" ++ s ++ ascii "' dependency schema does not hold")
    rw [trial_pings, trial_ok] at hcheck
    rw [hcheck, hkey]
    exact ⟨fun h => absurd h (val_false _ _), fun h => by simp at h⟩
  · rw [if_neg hkey, valDepSchemas]
    simp [hkey]

lemma treats_dependentSchemas : Treats s k .dependentSchemas ↔ cstr s = cstr k := by
  constructor
  · intro h
    have hfail := h (tableOf k) .new (mem_tableOf k)
    rw [Ne, valDepSchemas_false, Bool.not_eq_false, hasKey_tableOf] at hfail
    exact hfail.symm
  · intro h es c hk
    rw [Ne, valDepSchemas_false, Bool.not_eq_false]
    exact hasKey_of_mem hk h

lemma treats_unevaluatedProperties :
    Treats s k .unevaluatedProperties ↔ cstr s = cstr k := by
  constructor
  · intro h
    exact Frame.keySeen_new (h Frame.new)
  · intro h f
    rw [← h]
    exact f.keySeen_addKey _

end Compared

/-! ## All keywords -/

/-- Cutting at the first NUL byte twice cuts once. -/
lemma cstr_cstr (k : Bytes) : cstr (cstr k) = cstr k := by
  apply cstr_eq_self
  intro h
  simpa using List.mem_takeWhile_imp h

lemma cstr_eq_self_iff {k : Bytes} : cstr k = k ↔ 0 ∉ k := by
  constructor
  · intro h
    rw [← h]
    intro hmem
    simpa using List.mem_takeWhile_imp hmem
  · exact cstr_eq_self

/-- The document `"a\u0000b" = 1`. -/
def nulKeyDocument : Bytes :=
  [Ch.dquote, 0x61, Ch.bslash, 0x75, 0x30, 0x30, 0x30, 0x30, 0x62, Ch.dquote, Ch.eq, 0x31]

end Teptris
