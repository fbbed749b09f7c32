import Teptris.Schema.Resources

/-!
# The base of a compile

Without a base directory the base of a compile is absent.  The steps that resolve references test
for that; the pass over the identifiers does not: it reads the base of every object with an `$id`,
and joins an `$id` that begins with a slash to it.
-/

namespace Teptris

/-! ## The compile -/

/-- The texts of `$schema` that name a standard dialect. -/
def standardDialect (s : Bytes) : Bool :=
  ["draft-04/", "draft-06/", "draft-07/", "/draft/2019-09/schema", "/draft/2020-12/schema"].any
    fun t => (findText (ascii t) s).isSome

/-- The vocabulary a member of `$vocabulary` names. -/
def vocabBit (uri : Bytes) : UInt32 :=
  let bits : List (String × UInt32) :=
    [("/vocab/applicator", 1), ("/vocab/unevaluated", 2), ("/vocab/validation", 4),
      ("/vocab/format", 8), ("/vocab/content", 16)]
  ((bits.find? fun b => (findText (ascii b.1) uri).isSome).map (·.2)).getD 0

/-- The mask of a `$vocabulary`. -/
def vocabMaskOf (voc : List (Bytes × Jv)) : UInt32 :=
  voc.foldl
    (fun mask m =>
      match m.2 with
      | .bool true => mask ||| vocabBit m.1
      | _ => mask) 0

/-- `detect_vocab`. -/
def detectVocab (o : Host) (s : Scope) (root : Jv) (c : Sctx) : Except Fault Sctx :=
  match stringMember root "$schema" with
  | none => .ok c
  | some dialect =>
    if standardDialect dialect then .ok c
    else
      match resolveUriRef o s dialect c with
      | .error f => .error f
      | .ok (_, some (.object ms), c) =>
        match jvMemberGet ms (ascii "$vocabulary") with
        | some (.object voc) => .ok { c with vocabMask := vocabMaskOf voc }
        | _ => .ok c
      | .ok (_, _, c) => .ok c

/-- The base directory that is kept, out of the one that is given. -/
def baseDirText (baseDir : Option Bytes) : Option Bytes :=
  (baseDir.filter fun d => 0 < d.length ∧ d.length < 1024).map cstr

/-- The base and the directory at the root of a document. -/
def rootScope (root : Jv) (baseDir : Option Bytes) : Scope where
  base := (baseDirText baseDir).map fun d =>
    snprint uriMax (ascii "file://" ++ d ++
      (if d.getLast? = some 0x2F then ascii "schema.json" else ascii "/schema.json"))
  dir := ((baseDirText baseDir).filter fun d => d ≠ []).map fun d => d ++ [0x2F]
  root := root
  recursive := recursiveRoot root

/-- A reference that `sch_compile_node` resolves, and the scope it sets for that. -/
structure Site where
  /-- `cur_abs`, `cur_dir` and `cur_root`. -/
  scope : Scope
  /-- `$ref` or `$dynamicRef`. -/
  ref : Bytes

/-- The references of a compile, one after the other. -/
def resolveSites (o : Host) : List Site → Sctx → Except Fault Sctx
  | [], c => .ok c
  | site :: sites, c =>
    match resolveUriRef o site.scope site.ref c with
    | .error f => .error f
    | .ok (_, _, c) => resolveSites o sites c

/-- The passes of `schema_compile_core` over the root of a document. -/
def prePass (o : Host) (baseDir : Option Bytes) (root : Jv) : Except Fault Sctx :=
  let s := rootScope root baseDir
  match detectVocab o s root { resources := [⟨s.base.getD [], root, s.recursive⟩] } with
  | .error f => .error f
  | .ok c => collectIds root { s with dir := some (s.dir.getD []) } (collectAnchors root c)

/-- `schema_compile_core`: of `sch_compile_node` only the references it resolves are kept, since
nothing else in it reads a base. -/
def schemaCompileCore (o : Host) (text : Bytes) (baseDir : Option Bytes) (sites : List Site) :
    Except Fault (Option Sctx) :=
  match jsonRead o.strtod text with
  | .error _ => .ok none
  | .ok root =>
    match prePass o baseDir root with
    | .error f => .error f
    | .ok c => (resolveSites o sites c).map some

/-! ## Steps that read no absent base -/

/-- The step reads through no absent base. -/
def Safe {α : Type} (x : Except Fault α) : Prop := ∃ a, x = .ok a

lemma Safe.ok {α : Type} (a : α) : Safe (.ok a : Except Fault α) := ⟨a, rfl⟩

lemma not_safe_error {α : Type} (f : Fault) : ¬ Safe (.error f : Except Fault α) := by
  rintro ⟨a, h⟩
  cases h

lemma fault_of_toBool {α : Type} {x : Except Fault α} (h : x.toBool = false) :
    x = .error .nullBase := by
  cases x with
  | error f => rfl
  | ok a => cases h

lemma safe_map {α β : Type} {x : Except Fault α} {g : α → β} : Safe (x.map g) ↔ Safe x := by
  cases x with
  | error f => exact iff_of_false (not_safe_error f) (not_safe_error f)
  | ok a => exact iff_of_true (Safe.ok _) (Safe.ok _)

/-- A reference is joined to a base that is there. -/
lemma uriJoin_some (base ref : Bytes) (cap : ℕ) : Safe (uriJoin (some base) ref cap) := by
  simp only [uriJoin]
  split_ifs <;> exact Safe.ok _

/-- A reference with a scheme is joined to anything, or left to stand by itself. -/
lemma uriJoin_scheme {ref : Bytes} (h : hasScheme ref = true) (base : Option Bytes) (cap : ℕ) :
    isHttp ref = true ∧ uriJoin base ref cap = .ok none ∨
      uriJoin base ref cap = .ok (some (snprint cap ref)) := by
  by_cases hh : isHttp ref = true
  · exact .inl ⟨hh, by simp [uriJoin, hh]⟩
  · exact .inr (by simp [uriJoin, hh, h])

/-- What follows a scheme does not matter. -/
lemma hasScheme_append {t : Bytes} (h : hasScheme t = true) (r : Bytes) :
    hasScheme (t ++ r) = true := by
  simp only [hasScheme, Bool.and_eq_true, beq_iff_eq] at h ⊢
  obtain ⟨hhead, hcolon⟩ := h
  have hne : t.dropWhile isSchemeByte ≠ [] := by
    intro he
    rw [he] at hcolon
    cases hcolon
  have hdrop : (t ++ r).dropWhile isSchemeByte = t.dropWhile isSchemeByte ++ r := by
    rw [List.dropWhile_append, if_neg (by simpa using hne)]
  refine ⟨?_, ?_⟩
  · cases t with
    | nil => cases hhead
    | cons c t => exact hhead
  · rw [hdrop, List.head?_append, hcolon, Option.some_or]

lemma hasScheme_of_startsWith {s : Bytes} (text : String) (ht : hasScheme (ascii text) = true)
    (h : startsWith s text = true) : hasScheme s = true := by
  obtain ⟨r, rfl⟩ := List.isPrefixOf_iff_prefix.mp h
  exact hasScheme_append ht r

/-- The network space has schemes. -/
lemma hasScheme_of_isHttp {s : Bytes} (h : isHttp s = true) : hasScheme s = true := by
  rcases (Bool.or_eq_true _ _).mp h with h | h
  · exact hasScheme_of_startsWith "http://" (by decide) h
  · exact hasScheme_of_startsWith "https://" (by decide) h

/-- Without a scheme a reference is not joined to an absent base. -/
lemma uriJoin_none {ref : Bytes} (h : hasScheme ref = false) (cap : ℕ) :
    isHttp ref = false ∧
      (uriJoin none ref cap = .ok none ∨ uriJoin none ref cap = .error .nullBase) := by
  have hh : isHttp ref = false := by
    by_contra hh
    exact absurd (hasScheme_of_isHttp (by simpa using hh)) (by simp [h])
  have hf : startsWith ref "file://" = false := by
    by_contra hf
    exact absurd (hasScheme_of_startsWith "file://" (by decide) (by simpa using hf)) (by simp [h])
  refine ⟨hh, ?_⟩
  by_cases hs : ref.head? = some 0x2F
  · exact .inr (by simp [uriJoin, hh, h, hf, hs])
  · exact .inl (by simp [uriJoin, hh, h, hf, hs])

/-! ## The pass over the identifiers -/

/-- An `$id` that needs no base: a text with a scheme. -/
def StandsAlone : Jv → Prop
  | .string s => hasScheme (cstr s) = true
  | _ => False

/-- The values under a value that no `$id` encloses. -/
inductive Exposed : Jv → Jv → Prop
  /-- The value itself. -/
  | self (v : Jv) : Exposed v v
  /-- A member of an object without an `$id`. -/
  | member {ms : List (Bytes × Jv)} {m : Bytes × Jv} {w : Jv}
      (hid : jvMemberGet ms (ascii "$id") = none) (hm : m ∈ ms) (h : Exposed m.2 w) :
      Exposed (.object ms) w
  /-- An item of an array. -/
  | item {vs : List Jv} {v w : Jv} (hv : v ∈ vs) (h : Exposed v w) : Exposed (.array vs) w

/-- Every `$id` that no other `$id` encloses stands alone. -/
def IdsStandAlone (v : Jv) : Prop :=
  ∀ ms idv, Exposed v (.object ms) → jvMemberGet ms (ascii "$id") = some idv → StandsAlone idv

lemma idsStandAlone_array {vs : List Jv} :
    IdsStandAlone (.array vs) ↔ ∀ v ∈ vs, IdsStandAlone v := by
  constructor
  · intro h v hv ms idv he
    exact h ms idv (.item hv he)
  · intro h ms idv he
    cases he with
    | item hv he => exact h _ hv ms idv he

lemma idsStandAlone_object {ms : List (Bytes × Jv)} (hid : jvMemberGet ms (ascii "$id") = none) :
    IdsStandAlone (.object ms) ↔ ∀ m ∈ ms, IdsStandAlone m.2 := by
  constructor
  · intro h m hm ms' idv he
    exact h ms' idv (.member hid hm he)
  · intro h ms' idv he hget
    cases he with
    | self => exact absurd hget (by simp [hid])
    | member _ hm he => exact h _ hm ms' idv he hget

lemma idsStandAlone_id {ms : List (Bytes × Jv)} {idv : Jv}
    (hid : jvMemberGet ms (ascii "$id") = some idv) :
    IdsStandAlone (.object ms) ↔ StandsAlone idv := by
  constructor
  · intro h
    exact h ms idv (.self _) hid
  · intro h ms' idv' he hget
    cases he with
    | self =>
      rw [hid, Option.some_inj] at hget
      exact hget ▸ h
    | member hnone => exact absurd hid (by simp [hnone])

/-- A scope with a base keeps one. -/
lemma enterId_some {s : Scope} (hs : s.base.isSome) (v : Jv) (id : Bytes) :
    ∃ s', enterId v id s = .ok s' ∧ s'.base.isSome := by
  obtain ⟨base, hb⟩ := Option.isSome_iff_exists.mp hs
  obtain ⟨a, ha⟩ := uriJoin_some base id uriMax
  rw [enterId, hb, ha]
  cases a with
  | some abs => exact ⟨_, rfl, rfl⟩
  | none =>
    by_cases hh : isHttp id = true
    · exact ⟨_, if_pos hh, rfl⟩
    · exact ⟨_, if_neg hh, hs⟩

/-- An `$id` with a scheme brings a base along. -/
lemma enterId_scheme {id : Bytes} (h : hasScheme id = true) (v : Jv) (s : Scope) :
    ∃ s', enterId v id s = .ok s' ∧ s'.base.isSome := by
  rcases uriJoin_scheme h s.base uriMax with ⟨hh, hj⟩ | hj
  · rw [enterId, hj]
    exact ⟨_, if_pos hh, rfl⟩
  · rw [enterId, hj]
    exact ⟨_, rfl, rfl⟩

/-- Without a scheme the base stays absent, where joining does not read it. -/
lemma enterId_none {id : Bytes} (h : hasScheme id = false) {s : Scope} (hs : s.base = none)
    (v : Jv) : enterId v id s = .ok s ∨ enterId v id s = .error .nullBase := by
  obtain ⟨hh, hj | hj⟩ := uriJoin_none h uriMax
  · exact .inl (by simp [enterId, hs, hj, hh])
  · exact .inr (by simp [enterId, hs, hj])

lemma registerBase_some {s : Scope} (hs : s.base.isSome) (v : Jv) (c : Sctx) :
    Safe (registerBase v s c) := by
  obtain ⟨base, hb⟩ := Option.isSome_iff_exists.mp hs
  simp only [registerBase, hb]
  split_ifs <;> exact Safe.ok _

/-- An object without an `$id` passes the scope on. -/
lemma collectId_plain {ms : List (Bytes × Jv)} (hid : jvMemberGet ms (ascii "$id") = none)
    (s : Scope) (c : Sctx) : ∃ c', collectId ms s c = .ok (s, c') := by
  rw [collectId, hid]
  exact ⟨_, rfl⟩

/-- An object whose `$id` leaves a base behind passes one on. -/
lemma collectId_entered {ms : List (Bytes × Jv)} {idv : Jv}
    (hid : jvMemberGet ms (ascii "$id") = some idv) {s : Scope}
    (h : s.base.isSome ∨ StandsAlone idv) (c : Sctx) :
    ∃ s' c', collectId ms s c = .ok (s', c') ∧ s'.base.isSome := by
  have hreg : ∀ (s' : Scope) (c' : Sctx), s'.base.isSome →
      ∃ c'', registerBase (.object ms) s' c' = .ok c'' := fun s' c' hs =>
    registerBase_some hs _ _
  cases idv with
  | string id =>
    have he : ∃ s', enterId (.object ms) (cstr id) s = .ok s' ∧ s'.base.isSome := by
      rcases h with h | h
      · exact enterId_some h _ _
      · exact enterId_scheme h _ _
    obtain ⟨s', hs', hb⟩ := he
    obtain ⟨c'', hc''⟩ := hreg s' { aliasAnchor (.object ms) (cstr id) c with
      nodeBases := (aliasAnchor (.object ms) (cstr id) c).nodeBases ++ [(.object ms, s')] } hb
    refine ⟨s', c'', ?_, hb⟩
    simp only [collectId, hid, hs', Except.map, hc'']
  | null | bool | number | array | object =>
    have hb : s.base.isSome := h.resolve_right id
    obtain ⟨c'', hc''⟩ := hreg s { c with nodeBases := c.nodeBases ++ [(.object ms, s)] } hb
    refine ⟨s, c'', ?_, hb⟩
    simp only [collectId, hid, Except.map, hc'']

/-- An `$id` that needs a base reads the one that is absent. -/
lemma collectId_fault {ms : List (Bytes × Jv)} {idv : Jv}
    (hid : jvMemberGet ms (ascii "$id") = some idv) {s : Scope} (hs : s.base = none)
    (h : ¬ StandsAlone idv) (c : Sctx) : collectId ms s c = .error .nullBase := by
  cases idv with
  | string id =>
    rcases @enterId_none (cstr id) (by simpa [StandsAlone] using h) s hs (.object ms) with
      he | he
    · simp only [collectId, hid, he, Except.map, registerBase, hs]
    · simp only [collectId, hid, he, Except.map]
  | null | bool | number | array | object =>
    simp only [collectId, hid, Except.map, registerBase, hs]

mutual

/-- Below a base nothing reads an absent one. -/
lemma collectIds_some :
    ∀ (v : Jv) {s : Scope}, s.base.isSome → ∀ c : Sctx, Safe (collectIds v s c)
  | .object ms, s, hs, c => by
    rw [collectIds]
    cases hid : jvMemberGet ms (ascii "$id") with
    | none =>
      obtain ⟨c', hc'⟩ := collectId_plain hid s c
      rw [hc']
      exact collectIdsMembers_some ms hs c'
    | some idv =>
      obtain ⟨s', c', hc', hs'⟩ := collectId_entered hid (.inl hs) c
      rw [hc']
      exact collectIdsMembers_some ms hs' c'
  | .array vs, s, hs, c => by
    rw [collectIds]
    exact collectIdsItems_some vs hs c
  | .null, _, _, c | .bool _, _, _, c | .number _, _, _, c | .string _, _, _, c => Safe.ok c

lemma collectIdsMembers_some :
    ∀ (ms : List (Bytes × Jv)) {s : Scope}, s.base.isSome →
      ∀ c : Sctx, Safe (collectIdsMembers ms s c)
  | [], _, _, c => by
    rw [collectIdsMembers]
    exact Safe.ok c
  | (_, w) :: ms, s, hs, c => by
    obtain ⟨c', hc'⟩ := collectIds_some w hs c
    rw [collectIdsMembers, hc']
    exact collectIdsMembers_some ms hs c'

lemma collectIdsItems_some :
    ∀ (vs : List Jv) {s : Scope}, s.base.isSome → ∀ c : Sctx, Safe (collectIdsItems vs s c)
  | [], _, _, c => by
    rw [collectIdsItems]
    exact Safe.ok c
  | w :: vs, s, hs, c => by
    obtain ⟨c', hc'⟩ := collectIds_some w hs c
    rw [collectIdsItems, hc']
    exact collectIdsItems_some vs hs c'

end

mutual

/-- Below an absent base the pass goes through exactly where every `$id` it comes to first stands
alone. -/
lemma collectIds_none :
    ∀ (v : Jv) {s : Scope}, s.base = none →
      ∀ c : Sctx, Safe (collectIds v s c) ↔ IdsStandAlone v
  | .object ms, s, hs, c => by
    rw [collectIds]
    cases hid : jvMemberGet ms (ascii "$id") with
    | none =>
      obtain ⟨c', hc'⟩ := collectId_plain hid s c
      rw [hc', idsStandAlone_object hid]
      exact collectIdsMembers_none ms hs c'
    | some idv =>
      rw [idsStandAlone_id hid]
      by_cases h : StandsAlone idv
      · obtain ⟨s', c', hc', hs'⟩ := collectId_entered hid (.inr h) c
        rw [hc']
        exact iff_of_true (collectIdsMembers_some ms hs' c') h
      · rw [collectId_fault hid hs h]
        exact iff_of_false (not_safe_error _) h
  | .array vs, s, hs, c => by
    rw [collectIds, idsStandAlone_array]
    exact collectIdsItems_none vs hs c
  | .null, _, _, c | .bool _, _, _, c | .number _, _, _, c | .string _, _, _, c => by
    refine iff_of_true (Safe.ok c) ?_
    intro ms idv he
    cases he

lemma collectIdsMembers_none :
    ∀ (ms : List (Bytes × Jv)) {s : Scope}, s.base = none →
      ∀ c : Sctx, Safe (collectIdsMembers ms s c) ↔ ∀ m ∈ ms, IdsStandAlone m.2
  | [], _, _, c => by
    rw [collectIdsMembers]
    exact iff_of_true (Safe.ok c) (by simp)
  | (k, w) :: ms, s, hs, c => by
    rw [List.forall_mem_cons, ← collectIds_none w hs c, collectIdsMembers]
    cases hw : collectIds w s c with
    | error f => exact iff_of_false (not_safe_error f) fun h => not_safe_error f h.1
    | ok c' =>
      rw [collectIdsMembers_none ms hs c']
      exact (and_iff_right (Safe.ok c')).symm

lemma collectIdsItems_none :
    ∀ (vs : List Jv) {s : Scope}, s.base = none →
      ∀ c : Sctx, Safe (collectIdsItems vs s c) ↔ ∀ v ∈ vs, IdsStandAlone v
  | [], _, _, c => by
    rw [collectIdsItems]
    exact iff_of_true (Safe.ok c) (by simp)
  | w :: vs, s, hs, c => by
    rw [List.forall_mem_cons, ← collectIds_none w hs c, collectIdsItems]
    cases hw : collectIds w s c with
    | error f => exact iff_of_false (not_safe_error f) fun h => not_safe_error f h.1
    | ok c' =>
      rw [collectIdsItems_none vs hs c']
      exact (and_iff_right (Safe.ok c')).symm

end

/-! ## References -/

section References

variable (o : Host)

lemma findBuiltin_safe (uri : Bytes) (c : Sctx) : Safe (findBuiltin o uri c) := by
  rw [findBuiltin]
  cases o.builtins.find? fun b => b.1 == uri with
  | none => exact Safe.ok _
  | some b =>
    show Safe (loadBuiltin o uri b.2 c)
    rw [loadBuiltin]
    cases jsonRead o.strtod b.2 with
    | error f => exact Safe.ok _
    | ok root => exact safe_map.mpr (collectIds_some root rfl _)

lemma loadAndCollect_safe (abs : Bytes) (c : Sctx) : Safe (loadAndCollect o abs c) := by
  rw [loadAndCollect]
  rcases loadResource o abs c with ⟨_ | root, c'⟩
  · exact Safe.ok _
  · exact safe_map.mpr (collectIds_some root rfl _)

lemma locate_safe (abs : Bytes) (c : Sctx) : Safe (locate o abs c) := by
  rw [locate]
  cases c.resources.find? fun r => r.abs == abs with
  | some r => exact Safe.ok _
  | none =>
    obtain ⟨⟨_ | root, c'⟩, hb⟩ := findBuiltin_safe o abs c
    · rw [hb]
      show Safe (if _ then _ else _)
      split_ifs
      · exact Safe.ok _
      · exact loadAndCollect_safe o abs c'
    · rw [hb]
      exact Safe.ok _

/-- Absent bases are passed over. -/
lemma tryBases_safe (doc : Bytes) :
    ∀ (bases : List (Option Bytes)) (c : Sctx), Safe (tryBases o doc bases c)
  | [], c => Safe.ok _
  | none :: bases, c => tryBases_safe doc bases c
  | some base :: bases, c => by
    by_cases hb : base = []
    · rw [tryBases, if_pos hb]
      exact tryBases_safe doc bases c
    obtain ⟨_ | abs, ha⟩ := uriJoin_some base doc uriMax
    · simp only [tryBases, if_neg hb, ha]
      split_ifs
      · exact Safe.ok _
      · exact tryBases_safe doc bases c
    · obtain ⟨⟨_ | root, c'⟩, hl⟩ := locate_safe o abs c
      · simp only [tryBases, if_neg hb, ha, hl]
        exact tryBases_safe doc bases c'
      · simp only [tryBases, if_neg hb, ha, hl]
        exact Safe.ok _

/-- In whatever scope a reference is resolved, no absent base is read. -/
lemma resolveUriRef_safe (s : Scope) (r : Bytes) (c : Sctx) : Safe (resolveUriRef o s r c) := by
  simp only [resolveUriRef]
  by_cases hdoc : (uriSplit r).1 = []
  · rw [if_pos hdoc]
    exact Safe.ok _
  · rw [if_neg hdoc]
    obtain ⟨⟨_ | root, c'⟩, hb⟩ := findBuiltin_safe o (uriSplit r).1 c
    · simp only [hb]
      split_ifs
      · exact Safe.ok _
      · exact safe_map.mpr (tryBases_safe o _ _ c')
      · exact safe_map.mpr (tryBases_safe o _ _ c')
    · simp only [hb]
      exact Safe.ok _

lemma resolveSites_safe :
    ∀ (sites : List Site) (c : Sctx), Safe (resolveSites o sites c)
  | [], c => Safe.ok c
  | site :: sites, c => by
    obtain ⟨⟨remote, target, c'⟩, hr⟩ := resolveUriRef_safe o site.scope site.ref c
    simp only [resolveSites, hr]
    exact resolveSites_safe sites c'

lemma detectVocab_safe (s : Scope) (root : Jv) (c : Sctx) : Safe (detectVocab o s root c) := by
  rw [detectVocab]
  split
  · exact Safe.ok _
  · rename_i dialect _
    split_ifs
    · exact Safe.ok _
    · obtain ⟨⟨remote, target, c'⟩, hr⟩ := resolveUriRef_safe o s dialect c
      rw [hr]
      split <;> rename_i he <;> cases he
      · split <;> exact Safe.ok _
      · exact Safe.ok _

end References

/-! ## Compiles -/

/-- A base directory that gives the root a base. -/
def GivesBase (baseDir : Option Bytes) : Prop :=
  ∃ d, baseDir = some d ∧ 0 < d.length ∧ d.length < 1024

lemma rootScope_base {baseDir : Option Bytes} (root : Jv) :
    (rootScope root baseDir).base.isSome ↔ GivesBase baseDir := by
  simp only [rootScope, baseDirText, Option.isSome_map, GivesBase]
  cases baseDir with
  | none => simp
  | some d => simp [Option.filter]

/-- The passes over a document read no absent base exactly if there is a base directory or every
outermost `$id` stands alone. -/
lemma prePass_safe (o : Host) (baseDir : Option Bytes) (root : Jv) :
    Safe (prePass o baseDir root) ↔ GivesBase baseDir ∨ IdsStandAlone root := by
  obtain ⟨c, hc⟩ := detectVocab_safe o (rootScope root baseDir) root
    { resources := [⟨(rootScope root baseDir).base.getD [], root,
        (rootScope root baseDir).recursive⟩] }
  simp only [prePass, hc]
  by_cases hb : GivesBase baseDir
  · refine iff_of_true (collectIds_some root ?_ _) (.inl hb)
    exact (rootScope_base root).mpr hb
  · have hnone : (rootScope root baseDir).base = none := by
      rw [← Option.not_isSome_iff_eq_none, rootScope_base]
      exact hb
    rw [or_iff_right hb]
    refine collectIds_none root ?_ _
    exact hnone

/-- A compile reads through no absent base exactly if a base directory is given, or every `$id` of
the schema that no other `$id` encloses is a text with a scheme. -/
theorem compile_reads_base_iff (o : Host) (text : Bytes) (baseDir : Option Bytes)
    (sites : List Site) :
    schemaCompileCore o text baseDir sites ≠ .error .nullBase ↔
      GivesBase baseDir ∨ ∀ root, jsonRead o.strtod text = .ok root → IdsStandAlone root := by
  rw [schemaCompileCore]
  cases hroot : jsonRead o.strtod text with
  | error f => simp
  | ok root =>
    have hpre := prePass_safe o baseDir root
    cases hp : prePass o baseDir root with
    | error f =>
      cases f
      rw [hp] at hpre
      simpa [hp] using fun h => not_safe_error _ (hpre.mpr h)
    | ok c =>
      obtain ⟨c', hc'⟩ := resolveSites_safe o sites c
      rw [hp] at hpre
      simpa [hp, hc', Except.map] using hpre.mp (Safe.ok c)

/-- Without a base directory a relative `$id` is enough. -/
theorem relativeId_faults :
    schemaCompileCore ⟨fun _ => ⟨0⟩, [], fun _ => none⟩
      (ascii "\x7b\"$id\":\"a\"\x7d") none [] = .error .nullBase :=
  fault_of_toBool (by decide +kernel)

end Teptris
