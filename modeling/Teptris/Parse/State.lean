import Teptris.Parse.Invariant

/-!
# What every reachable state satisfies

Key/value pairs keep the open table a table of well-formed entries, headers keep the root one,
and the line loop keeps both while it reads on: every state between two lines is `PState.Ok`,
and what `teptris_parse` returns is a well-formed tree.
-/

namespace Teptris

open Loop

/-! ## Key paths -/

lemma keyPart_spec {r r' key : Bytes} (h : keyPart r = .ok (key, r')) :
    Behind r r' ∧ (Utf8.Valid r → Utf8.Valid key) := by
  obtain _ | ⟨c, cs⟩ := r
  · simp [keyPart] at h
  rw [keyPart] at h
  split_ifs at h with hq hb
  · refine quotedKey_spec ?_ h
    rcases hq with rfl | rfl
    · exact .inl rfl
    · exact .inr rfl
  · obtain ⟨rfl, rfl⟩ := Prod.mk.inj (Except.ok.inj h)
    refine ⟨behind_dropWhile (fun _ => isBareKey_lt) hb, fun _ => Utf8.valid_of_ascii ?_⟩
    exact fun c hc => ascii_of_lt (isBareKey_lt (List.mem_takeWhile_imp hc))
  · exact absurd h failAt_ne_ok

/-- One part of a path: the step of `teptris_parse_key_path`. -/
lemma keyPathTurn_cases {maxDepth : ℕ} {s : List Key × Bytes}
    {t : Turn (List Key × Bytes) (KeyPath × Bytes)} (h : keyPathTurn maxDepth s = .ok t) :
    ∃ key r, Behind s.2 r ∧ (Utf8.Valid s.2 → Utf8.Valid key) ∧ s.1.length + 1 ≤ maxDepth ∧
      ((r.head? = some Ch.dot ∧ t = .next (s.1 ++ [Key.ofBytes key], r.drop 1)) ∨
        (r.head? ≠ some Ch.dot ∧ t = .stop (⟨s.1, Key.ofBytes key⟩, r))) := by
  simp only [keyPathTurn] at h
  split at h
  · simp at h
  next key r hpart =>
  obtain ⟨hb, hkey⟩ := keyPart_spec hpart
  have hws := reaches_skipWs s.2
  split_ifs at h with hdepth hdot
  · exact absurd h failAt_ne_ok
  all_goals
    refine ⟨key, skipWs r, (hws.trans_behind hb).trans_reaches (reaches_skipWs r),
      fun hv => hkey (hws.valid hv), not_lt.mp hdepth, ?_⟩
  · exact .inl ⟨hdot, (Except.ok.inj h).symm⟩
  · exact .inr ⟨hdot, (Except.ok.inj h).symm⟩

lemma keyPath_shrinks (maxDepth : ℕ) :
    Shrinks (keyPathTurn maxDepth) (fun s => s.2.length) := by
  intro s s' h
  obtain ⟨key, r, hb, -, -, ⟨hdot, ht⟩ | ⟨-, ht⟩⟩ := keyPathTurn_cases h
  · obtain rfl := Turn.next.inj ht
    exact (hb.trans (behind_drop_one hdot (by decide))).lt
  · simp at ht

/-- A parsed key path: where it ends, its parts, and how many there are. -/
lemma parseKeyPath_spec {maxDepth : ℕ} {r r' : Bytes} {path : KeyPath}
    (h : parseKeyPath maxDepth r = .ok (path, r')) :
    Behind r r' ∧ (Utf8.Valid r → ∀ k ∈ path.parts, Utf8.Valid k.bytes) ∧
      path.count ≤ maxDepth := by
  refine loop_invariant
    (I := fun s => Reaches r s.2 ∧ (Utf8.Valid r → ∀ k ∈ s.1, Utf8.Valid k.bytes))
    (Q := fun s => Behind r s.2 ∧ (Utf8.Valid r → ∀ k ∈ s.1.parts, Utf8.Valid k.bytes) ∧
      s.1.count ≤ maxDepth) ?_ ?_ ⟨Reaches.refl r, by simp⟩ h
  · rintro s s' ⟨hr, hkeys⟩ hturn
    obtain ⟨key, q, hb, hkey, -, ⟨hdot, ht⟩ | ⟨-, ht⟩⟩ := keyPathTurn_cases hturn
    · obtain rfl := Turn.next.inj ht
      refine ⟨hr.trans (hb.trans (behind_drop_one hdot (by decide))).toReaches, fun hv k hk => ?_⟩
      rcases List.mem_append.mp hk with hk | hk
      · exact hkeys hv k hk
      · obtain rfl := List.mem_singleton.mp hk
        exact hkey (hr.valid hv)
    · simp at ht
  · rintro s s' ⟨hr, hkeys⟩ hturn
    obtain ⟨key, q, hb, hkey, hdepth, ⟨-, ht⟩ | ⟨-, ht⟩⟩ := keyPathTurn_cases hturn
    · simp at ht
    · obtain rfl := Turn.stop.inj ht
      refine ⟨hr.trans_behind hb, fun hv k hk => ?_, hdepth⟩
      rcases List.mem_append.mp hk with hk | hk
      · exact hkeys hv k hk
      · obtain rfl := List.mem_singleton.mp hk
        exact hkey (hr.valid hv)

/-! ## Insertion -/

/-- The values of a kind that a table of dotted keys belongs to. -/
structure Extends (child : Node → Prop) : Prop where
  /-- A table of dotted keys over entries of the kind. -/
  intro : ∀ es, GoodEntries child es → child (.table .dotted es)
  /-- Nothing else is one. -/
  elim : ∀ es, child (.table .dotted es) → GoodEntries child es

lemma extends_isValue : Extends IsValue where
  intro _ h := isValue_table_iff.mpr ⟨.inr rfl, h⟩
  elim _ h := (isValue_table_iff.mp h).2

lemma extends_isEntry : Extends IsEntry where
  intro _ h := (isEntry_table_iff (by decide)).mpr h
  elim _ h := (isEntry_table_iff (by decide)).mp h

/-- `insert_dotted` keeps a table well formed. -/
lemma insertDotted_good {child : Node → Prop} (hext : Extends child) {pos : Bytes}
    {path : KeyPath} {value : Node} (hv : child value) (hlast : Utf8.Valid path.last.bytes)
    {ps : List Key} (hps : ∀ k ∈ ps, Utf8.Valid k.bytes) {t t' : Entries}
    (ht : GoodEntries child t) (h : insertDotted pos path value ps t = .ok t') :
    GoodEntries child t' := by
  induction ps generalizing t t' with
  | nil =>
    rw [insertDotted] at h
    split at h
    · split_ifs at h <;> exact absurd h failNaming_ne_ok
    next hp =>
    obtain rfl := Except.ok.inj h
    exact ht.insert hp hlast hv
  | cons part ps ih =>
    have hpart : Utf8.Valid part.bytes := hps part (by simp)
    have hrest : ∀ k ∈ ps, Utf8.Valid k.bytes := fun k hk => hps k (by simp [hk])
    rw [insertDotted] at h
    split at h
    next hp =>
      split at h
      · simp at h
      next es hes =>
      obtain rfl := Except.ok.inj h
      exact ht.insert hp hpart (hext.intro es (ih hrest GoodEntries.nil hes))
    next flag es hp =>
      split_ifs at h with hinline hheader
      · exact absurd h failNaming_ne_ok
      · exact absurd h failNaming_ne_ok
      split at h
      · simp at h
      next es' hes =>
      obtain rfl := Except.ok.inj h
      have hflag : flag = .dotted := by
        cases flag <;> simp at hinline hheader ⊢
      subst hflag
      exact ht.setValue hp (hext.intro es' (ih hrest (hext.elim es (ht.of_probe hp)) hes))
    · exact absurd h failNaming_ne_ok

/-! ## Values -/

/-- A value routine stops behind what it read, and builds a well-formed value. -/
def ValueOk (value : Bytes → Res Node) : Prop :=
  ∀ r v r', value r = .ok (v, r') → Behind r r' ∧ (Utf8.Valid r → GoodValue v)

/-- A member routine stops behind what it read, and keeps a property of the members so far. -/
def MemberOk {α : Type} (P : α → Prop) (member : α → Bytes → Res α) : Prop :=
  ∀ a r a' r', member a r = .ok (a', r') → Behind r r' ∧ (Utf8.Valid r → P a → P a')

lemma tryKeyvalFast_ok {curPath : Bytes} {value : Bytes → Res Node} (hvalue : ValueOk value)
    {child : Node → Prop} (hchild : ∀ v, GoodValue v → child v) {t t' : Entries} {r r' : Bytes}
    (h : tryKeyvalFast curPath value t r = some (.ok (t', r'))) :
    Behind r r' ∧ (Utf8.Valid r → GoodEntries child t → GoodEntries child t') := by
  simp only [tryKeyvalFast, scanBareKey_eq] at h
  by_cases hbare : r.head?.any isBareKey = true
  swap
  · rw [if_neg hbare] at h
    simp at h
  rw [if_pos hbare] at h
  by_cases heq : (skipWs (r.dropWhile isBareKey)).head? = some Ch.eq
  swap
  · rw [if_neg heq] at h
    simp at h
  rw [if_pos heq] at h
  obtain _ | ⟨c, cs⟩ := r
  · simp at hbare
  have hkey : Behind (c :: cs) ((c :: cs).dropWhile isBareKey) :=
    behind_dropWhile (fun _ => isBareKey_lt) (by simpa using hbare)
  have heqn := behind_drop_one heq (by decide)
  have hstart : Behind (c :: cs)
      (skipWs ((skipWs ((c :: cs).dropWhile isBareKey)).drop 1)) :=
    (hkey.trans_reaches (reaches_skipWs _)).trans (heqn.trans_reaches (reaches_skipWs _))
  split at h
  · simp at h
  next v q hv =>
  obtain ⟨hb, hgood⟩ := hvalue _ _ _ hv
  split at h
  · split_ifs at h <;> simp [failNaming] at h
  next hp =>
  obtain ⟨rfl, rfl⟩ := Prod.mk.inj (Except.ok.inj (Option.some_inj.mp h))
  refine ⟨hstart.trans hb, fun hval ht => ht.insert hp ?_ (hchild v (hgood (hstart.valid hval)))⟩
  exact Utf8.valid_of_ascii fun c hc => ascii_of_lt (isBareKey_lt (List.mem_takeWhile_imp hc))

lemma keyvalGeneral_ok {maxDepth : ℕ} {value : Bytes → Res Node} (hvalue : ValueOk value)
    {child : Node → Prop} (hext : Extends child) (hchild : ∀ v, GoodValue v → child v)
    {t t' : Entries} {r r' : Bytes} (h : keyvalGeneral maxDepth value t r = .ok (t', r')) :
    Behind r r' ∧ (Utf8.Valid r → GoodEntries child t → GoodEntries child t') := by
  rw [keyvalGeneral] at h
  split at h
  · simp at h
  next path s hpath =>
  obtain ⟨hb, hkeys, -⟩ := parseKeyPath_spec hpath
  dsimp only at h
  split_ifs at h with heq
  swap
  · exact absurd h failAt_ne_ok
  have hstart : Behind r (skipWs ((skipWs s).drop 1)) :=
    (hb.trans_reaches (reaches_skipWs s)).trans
      ((behind_drop_one heq (by decide)).trans_reaches (reaches_skipWs _))
  split at h
  · simp at h
  next v q hv =>
  obtain ⟨hbv, hgood⟩ := hvalue _ _ _ hv
  split at h
  · simp at h
  next es hes =>
  obtain ⟨rfl, rfl⟩ := Prod.mk.inj (Except.ok.inj h)
  refine ⟨hstart.trans hbv, fun hval ht => ?_⟩
  have hparts := hkeys hval
  exact insertDotted_good hext (hchild v (hgood (hstart.valid hval)))
    (hparts _ (by simp [KeyPath.parts])) (fun k hk => hparts k (by simp [KeyPath.parts, hk])) ht hes

/-- A key/value pair keeps the open table well formed. -/
lemma keyval_ok {curPath : Bytes} {maxDepth : ℕ} {fast general : Bytes → Res Node}
    (hfast : ValueOk fast) (hgeneral : ValueOk general) {child : Node → Prop}
    (hext : Extends child) (hchild : ∀ v, GoodValue v → child v) :
    MemberOk (GoodEntries child) (keyval curPath maxDepth fast general) := by
  intro t r t' r' h
  rw [keyval] at h
  split at h
  next res hres =>
    subst h
    exact tryKeyvalFast_ok hfast hchild hres
  · exact keyvalGeneral_ok hgeneral hext hchild h

section Members

variable {α : Type} {close : UInt8} {unterminated expected : String}
  {member : α → Bytes → Res α} {P : α → Prop}

lemma memberTurn_next (hm : MemberOk P member) {s s' : α × Bytes}
    (h : memberTurn close unterminated expected member s = .ok (.next s')) :
    Behind s.2 s'.2 ∧ (Utf8.Valid s.2 → P s.1 → P s'.1) := by
  rw [memberTurn] at h
  split at h
  · simp at h
  · exact absurd h failAt_ne_ok
  next c cs hgap =>
  have hr := reaches_skipArrayGap hgap
  split_ifs at h
  · simp at h
  split at h
  · simp at h
  next a q hmem =>
  obtain ⟨hb, hP⟩ := hm _ _ _ _ hmem
  split at h
  · simp at h
  next q' hgap' =>
  split_ifs at h with hcomma
  · obtain rfl : (a, q'.drop 1) = s' := by simpa using h
    refine ⟨(hr.trans_behind hb).trans_reaches ((reaches_skipArrayGap hgap').trans
      (behind_drop_one hcomma (by decide)).toReaches), fun hv hp => hP (hr.valid hv) hp⟩
  · simp at h
  · exact absurd h failAt_ne_ok

lemma memberTurn_stop (hclose : close < Ch.del) (hm : MemberOk P member) {s s' : α × Bytes}
    (h : memberTurn close unterminated expected member s = .ok (.stop s')) :
    Behind s.2 s'.2 ∧ (Utf8.Valid s.2 → P s.1 → P s'.1) := by
  rw [memberTurn] at h
  split at h
  · simp at h
  · exact absurd h failAt_ne_ok
  next c cs hgap =>
  have hr := reaches_skipArrayGap hgap
  split_ifs at h with hc
  · obtain rfl : (s.1, cs) = s' := by simpa using h
    exact ⟨hr.trans_behind (behind_cons (hc ▸ hclose)), fun _ hp => hp⟩
  split at h
  · simp at h
  next a q hmem =>
  obtain ⟨hb, hP⟩ := hm _ _ _ _ hmem
  split at h
  · simp at h
  next q' hgap' =>
  split_ifs at h with hcomma hend
  · simp at h
  · obtain rfl : (a, q'.drop 1) = s' := by simpa using h
    refine ⟨(hr.trans_behind hb).trans_reaches ((reaches_skipArrayGap hgap').trans
      (behind_drop_one hend hclose).toReaches), fun hv hp => hP (hr.valid hv) hp⟩
  · exact absurd h failAt_ne_ok

lemma members_shrinks (hm : MemberOk P member) :
    Shrinks (memberTurn close unterminated expected member) (fun s => s.2.length) :=
  fun _ _ h => (memberTurn_next hm h).1.lt

/-- A member loop stops behind its closing bracket, and keeps what each member keeps. -/
lemma members_ok (hclose : close < Ch.del) (hm : MemberOk P member) {a a' : α} {r r' : Bytes}
    (h : members close unterminated expected member a r = .ok (a', r')) :
    Behind r r' ∧ (Utf8.Valid r → P a → P a') := by
  refine loop_invariant
    (I := fun s => Reaches r s.2 ∧ (Utf8.Valid r → P a → P s.1))
    (Q := fun s => Behind r s.2 ∧ (Utf8.Valid r → P a → P s.1)) ?_ ?_
    ⟨Reaches.refl r, fun _ hp => hp⟩ h
  · rintro s s' ⟨hr, hp⟩ hturn
    obtain ⟨hb, hP⟩ := memberTurn_next hm hturn
    exact ⟨hr.trans hb.toReaches, fun hv ha => hP (hr.valid hv) (hp hv ha)⟩
  · rintro s s' ⟨hr, hp⟩ hturn
    obtain ⟨hb, hP⟩ := memberTurn_stop hclose hm hturn
    exact ⟨hr.trans_behind hb, fun hv ha => hP (hr.valid hv) (hp hv ha)⟩

end Members

lemma arrayMember_ok {value : Bytes → Res Node} (hvalue : ValueOk value) :
    MemberOk (fun items => ∀ v ∈ items, IsValue v) (arrayMember value) := by
  intro items r items' r' h
  rw [arrayMember] at h
  split at h
  · simp at h
  next v q hv =>
  obtain ⟨hb, hgood⟩ := hvalue _ _ _ hv
  obtain ⟨rfl, rfl⟩ := Prod.mk.inj (Except.ok.inj h)
  refine ⟨hb, fun hval hitems w hw => ?_⟩
  rcases List.mem_append.mp hw with hw | hw
  · exact hitems w hw
  · obtain rfl := List.mem_singleton.mp hw
    exact (hgood hval).1

lemma arrayBody_ok {value : Bytes → Res Node} (hvalue : ValueOk value) {r r' : Bytes} {v : Node}
    (hr : r.head? = some Ch.lbrack) (h : arrayBody value r = .ok (v, r')) :
    Behind r r' ∧ (Utf8.Valid r → GoodValue v) := by
  rw [arrayBody] at h
  split at h
  · simp at h
  next items q hm =>
  obtain ⟨rfl, rfl⟩ := Prod.mk.inj (Except.ok.inj h)
  have hopen := behind_drop_one hr (by decide)
  obtain ⟨hb, hitems⟩ := members_ok (by decide) (arrayMember_ok hvalue) hm
  refine ⟨hopen.trans hb, fun hval => ⟨.array (hitems (hopen.valid hval) (by simp)), by simp⟩⟩

lemma inlineBody_ok {member : Entries → Bytes → Res Entries}
    (hmember : MemberOk (GoodEntries IsValue) member) {r r' : Bytes} {v : Node}
    (hr : r.head? = some Ch.lbrace) (h : inlineBody member r = .ok (v, r')) :
    Behind r r' ∧ (Utf8.Valid r → GoodValue v) := by
  rw [inlineBody] at h
  split at h
  · simp at h
  next es q hm =>
  obtain ⟨rfl, rfl⟩ := Prod.mk.inj (Except.ok.inj h)
  have hopen := behind_drop_one hr (by decide)
  obtain ⟨hb, hes⟩ := members_ok (by decide) hmember hm
  exact ⟨hopen.trans hb, fun hval => ⟨isValue_table_iff.mpr
    ⟨.inl rfl, hes (hopen.valid hval) GoodEntries.nil⟩, by simp⟩⟩

lemma valueDispatch_ok {fc : FloatConv} {array inline : Bytes → Res Node}
    (harray : ∀ r v r', r.head? = some Ch.lbrack → array r = .ok (v, r') →
      Behind r r' ∧ (Utf8.Valid r → GoodValue v))
    (hinline : ∀ r v r', r.head? = some Ch.lbrace → inline r = .ok (v, r') →
      Behind r r' ∧ (Utf8.Valid r → GoodValue v)) :
    ValueOk (valueDispatch fc array inline) := by
  intro r v r' h
  obtain _ | ⟨c, cs⟩ := r
  · simp [valueDispatch] at h
  rw [valueDispatch] at h
  split_ifs at h with hq ha hi ht hf hw hs hd hn
  · refine parseString_spec ?_ h
    rcases hq with rfl | rfl
    · exact .inl rfl
    · exact .inr rfl
  · exact harray _ _ _ (by simp [ha]) h
  · exact hinline _ _ _ (by simp [hi]) h
  · obtain ⟨s, hs, heq⟩ := map_eq_ok_iff.mp h
    obtain ⟨rfl, rfl⟩ := Prod.mk.inj heq
    exact ⟨expectWord_spec (by simp) rfl hs, fun _ => ⟨.boolean true, by simp⟩⟩
  · obtain ⟨s, hs, heq⟩ := map_eq_ok_iff.mp h
    obtain ⟨rfl, rfl⟩ := Prod.mk.inj heq
    exact ⟨expectWord_spec (by simp) rfl hs, fun _ => ⟨.boolean false, by simp⟩⟩
  · obtain ⟨hb, hv⟩ := parseNumber_spec (by simp) h
    exact ⟨hb, fun _ => hv⟩
  · obtain ⟨hb, hv⟩ := parseNumber_spec (by simpa using hs) h
    exact ⟨hb, fun _ => hv⟩
  · obtain ⟨hb, hv⟩ := parseDatetime_spec hd h
    exact ⟨hb, fun _ => hv⟩
  · obtain ⟨hb, hv⟩ := parseNumber_spec (by simp) h
    exact ⟨hb, fun _ => hv⟩
  · exact absurd h failAt_ne_ok

lemma tooDeep_ok {r r' : Bytes} {v : Node} (h : tooDeep r = .ok (v, r')) :
    Behind r r' ∧ (Utf8.Valid r → GoodValue v) := absurd h failAt_ne_ok

/-- `teptris_parse_value` stops behind what it read, and builds a well-formed value. -/
lemma parseValue_ok (cfg : Config) (curPath : Bytes) (levels : ℕ) :
    ValueOk (parseValue cfg curPath levels) := by
  induction levels with
  | zero => exact valueDispatch_ok (fun _ _ _ _ => tooDeep_ok) (fun _ _ _ _ => tooDeep_ok)
  | succ levels ih =>
    have hfast : ValueOk (valueFast cfg.fc (parseValue cfg curPath levels)) := by
      intro r v r' h
      obtain _ | ⟨c, cs⟩ := r
      · exact ih _ _ _ h
      simp only [valueFast] at h
      split_ifs at h with hc hd hplain
      · obtain ⟨hb, hv⟩ := parseDatetime_spec hd h
        exact ⟨hb, fun _ => hv⟩
      · obtain ⟨rfl, rfl⟩ := Prod.mk.inj (Except.ok.inj h)
        exact ⟨behind_dropWhile (fun _ => isDec_lt) hc, fun _ => goodValue_integer _⟩
      · obtain ⟨hb, hv⟩ := parseNumber_spec (by simp) h
        exact ⟨hb, fun _ => hv⟩
      · exact ih _ _ _ h
    refine valueDispatch_ok (fun r v r' hr h => arrayBody_ok hfast hr h)
      (fun r v r' hr h => inlineBody_ok ?_ hr h)
    exact keyval_ok hfast ih extends_isValue fun v hv => hv.1

end Teptris
