import Teptris.Parse.HeaderPath

/-!
# Reachable states

The states between two lines of a document, and what holds of each: the rest of the input is
well-formed UTF-8, the tree is well formed, and the open table is a table of the tree.
-/

namespace Teptris

open Loop

/-! ## The open table -/

/-- The path leads to a table that headers can name. -/
def Leads : List Key → Entries → Prop
  | [], _ => True
  | k :: ks, t =>
    match probe k t with
    | some (.table flag es) => flag ≠ .inline ∧ Leads ks es
    | some (.array aot items) =>
      match items.getLast? with
      | some (.table _ es) => aot = true ∧ Leads ks es
      | _ => False
    | _ => False

/-- The last element of an array of tables. -/
lemma aot_getLast {items : List Node} (h : IsEntry (.array true items)) :
    ∃ init es, items = init ++ [.table .explicit es] ∧ GoodEntries IsEntry es := by
  obtain ⟨ts, rfl, hne, hts⟩ := isEntry_aot_iff.mp h
  obtain ⟨init, es, rfl⟩ : ∃ init es, ts = init ++ [es] :=
    ⟨_, _, (List.dropLast_append_getLast hne).symm⟩
  exact ⟨init.map (.table .explicit), es, by simp, hts es (by simp)⟩

/-- An array of tables with its last element replaced. -/
lemma aot_setLast {init : List Node} {es es' : Entries}
    (h : IsEntry (.array true (init ++ [.table .explicit es]))) (hes : GoodEntries IsEntry es') :
    IsEntry (.array true (init ++ [.table .explicit es'])) := by
  obtain ⟨ts, heq, hne, hts⟩ := isEntry_aot_iff.mp h
  obtain ⟨ts, last, rfl⟩ : ∃ ts' last, ts = ts' ++ [last] :=
    ⟨_, _, (List.dropLast_append_getLast hne).symm⟩
  rw [List.map_append] at heq
  obtain ⟨rfl, -⟩ := List.append_inj' heq rfl
  refine isEntry_aot_iff.mpr ⟨ts ++ [es'], by simp, by simp, fun t ht => ?_⟩
  rcases List.mem_append.mp ht with ht | ht
  · exact hts t (by simp [ht])
  · obtain rfl := List.mem_singleton.mp ht
    exact hes

/-- An array of tables with one more element. -/
lemma aot_push {items : List Node} {es : Entries} (h : IsEntry (.array true items))
    (hes : GoodEntries IsEntry es) : IsEntry (.array true (items ++ [.table .explicit es])) := by
  obtain ⟨ts, rfl, hne, hts⟩ := isEntry_aot_iff.mp h
  refine isEntry_aot_iff.mpr ⟨ts ++ [es], by simp, by simp, fun t ht => ?_⟩
  rcases List.mem_append.mp ht with ht | ht
  · exact hts t ht
  · obtain rfl := List.mem_singleton.mp ht
    exact hes

/-- The table a path leads to is well formed. -/
lemma entriesAt_good {ks : List Key} {t : Entries} (ht : GoodEntries IsEntry t)
    (h : Leads ks t) : GoodEntries IsEntry (entriesAt ks t) := by
  induction ks generalizing t with
  | nil => exact ht
  | cons k ks ih =>
    rw [Leads] at h
    rw [entriesAt]
    cases hp : probe k t with
    | none => simp [hp] at h
    | some n =>
      simp only [hp] at h ⊢
      cases n with
      | table flag es => exact ih ((isEntry_table_iff h.1).mp (ht.of_probe hp)) h.2
      | array aot items =>
        cases hlast : items.getLast? with
        | none => simp [hlast] at h
        | some m =>
          simp only [hlast] at h ⊢
          cases m with
          | table flag es =>
            obtain ⟨rfl, hlead⟩ := h
            obtain ⟨init, es', rfl, hes⟩ := aot_getLast (ht.of_probe hp)
            obtain ⟨rfl, rfl⟩ : TblFlag.explicit = flag ∧ es' = es := by simpa using hlast
            exact ih hes hlead
          | string | integer | float | boolean | datetime | array => exact h.elim
      | string | integer | float | boolean | datetime => exact h.elim

/-- Replacing the open table keeps the tree well formed, and the path open. -/
lemma setEntriesAt_good {ks : List Key} {t new : Entries} (ht : GoodEntries IsEntry t)
    (h : Leads ks t) (hnew : GoodEntries IsEntry new) :
    GoodEntries IsEntry (setEntriesAt new ks t) ∧ Leads ks (setEntriesAt new ks t) := by
  induction ks generalizing t with
  | nil => exact ⟨hnew, trivial⟩
  | cons k ks ih =>
    rw [Leads] at h
    rw [setEntriesAt]
    cases hp : probe k t with
    | none => simp [hp] at h
    | some n =>
      simp only [hp] at h ⊢
      cases n with
      | table flag es =>
        obtain ⟨hgood, hlead⟩ := ih ((isEntry_table_iff h.1).mp (ht.of_probe hp)) h.2
        refine ⟨ht.setValue hp ((isEntry_table_iff h.1).mpr hgood), ?_⟩
        rw [Leads, probe_setValue_self hp]
        exact ⟨h.1, hlead⟩
      | array aot items =>
        cases hlast : items.getLast? with
        | none => simp [hlast] at h
        | some m =>
          simp only [hlast] at h ⊢
          cases m with
          | table flag es =>
            obtain ⟨rfl, hlead⟩ := h
            have hitems := ht.of_probe hp
            obtain ⟨init, es', rfl, hes⟩ := aot_getLast hitems
            obtain ⟨rfl, rfl⟩ : TblFlag.explicit = flag ∧ es' = es := by simpa using hlast
            obtain ⟨hgood, hlead'⟩ := ih hes hlead
            rw [List.dropLast_concat]
            refine ⟨ht.setValue hp (aot_setLast hitems hgood), ?_⟩
            rw [Leads, probe_setValue_self hp]
            simpa using hlead'
          | string | integer | float | boolean | datetime | array => exact h.elim
      | string | integer | float | boolean | datetime => exact h.elim

/-! ## Headers -/

lemma resolveLast_ok {pos : Bytes} {aot : Bool} {last : Key} {t t' : Entries}
    (ht : GoodEntries IsEntry t) (hlast : Utf8.Valid last.bytes)
    (h : resolveLast pos aot last t = .ok t') :
    GoodEntries IsEntry t' ∧ Leads [last] t' := by
  have hempty : IsEntry (.table .explicit []) :=
    (isEntry_table_iff (by decide)).mpr GoodEntries.nil
  rw [resolveLast] at h
  split_ifs at h with haot
  · split at h
    next hp =>
      obtain rfl := Except.ok.inj h
      refine ⟨ht.insert hp hlast (isEntry_aot_iff.mpr ⟨[[]], by simp, by simp, ?_⟩), ?_⟩
      · simpa using GoodEntries.nil
      · simp [Leads, probe_insert_self hp]
    next items hp =>
      obtain rfl := Except.ok.inj h
      refine ⟨ht.setValue hp (aot_push (ht.of_probe hp) GoodEntries.nil), ?_⟩
      simp [Leads, probe_setValue_self hp]
    · exact absurd h failNaming_ne_ok
  · split at h
    next hp =>
      obtain rfl := Except.ok.inj h
      exact ⟨ht.insert hp hlast hempty, by simp [Leads, probe_insert_self hp]⟩
    next es hp =>
      obtain rfl := Except.ok.inj h
      refine ⟨ht.setValue hp ((isEntry_table_iff (by decide)).mpr
        ((isEntry_table_iff (by decide)).mp (ht.of_probe hp))), ?_⟩
      simp [Leads, probe_setValue_self hp]
    · exact absurd h failNaming_ne_ok

/-- A resolved header keeps the tree well formed, and leads to its target. -/
lemma resolveHeader_ok {pos : Bytes} {aot : Bool} {last : Key} {ps : List Key} {t t' : Entries}
    (ht : GoodEntries IsEntry t) (hlast : Utf8.Valid last.bytes)
    (hps : ∀ k ∈ ps, Utf8.Valid k.bytes) (h : resolveHeader pos aot last ps t = .ok t') :
    GoodEntries IsEntry t' ∧ Leads (ps ++ [last]) t' := by
  induction ps generalizing t t' with
  | nil => exact resolveLast_ok ht hlast h
  | cons part ps ih =>
    have hpart : Utf8.Valid part.bytes := hps part (by simp)
    have hrest : ∀ k ∈ ps, Utf8.Valid k.bytes := fun k hk => hps k (by simp [hk])
    rw [resolveHeader] at h
    split at h
    next hp =>
      split at h
      · simp at h
      next es hes =>
      obtain rfl := Except.ok.inj h
      obtain ⟨hgood, hlead⟩ := ih GoodEntries.nil hrest hes
      refine ⟨ht.insert hp hpart ((isEntry_table_iff (by decide)).mpr hgood), ?_⟩
      rw [List.cons_append, Leads, probe_insert_self hp]
      exact ⟨by decide, hlead⟩
    next isAot items hp =>
      split_ifs at h with haot
      · exact absurd h failNaming_ne_ok
      obtain rfl : isAot = true := by simpa using haot
      have hitems := ht.of_probe hp
      obtain ⟨init, es', rfl, hes'⟩ := aot_getLast hitems
      simp only [List.getLast?_append, List.getLast?_singleton, Option.some_or,
        List.dropLast_concat] at h
      split at h
      · simp at h
      next es hes =>
      obtain rfl := Except.ok.inj h
      obtain ⟨hgood, hlead⟩ := ih hes' hrest hes
      refine ⟨ht.setValue hp (aot_setLast hitems hgood), ?_⟩
      rw [List.cons_append, Leads, probe_setValue_self hp]
      simpa using hlead
    next flag es hp =>
      split_ifs at h with hinline
      · exact absurd h failNaming_ne_ok
      split at h
      · simp at h
      next es' hes =>
      obtain rfl := Except.ok.inj h
      obtain ⟨hgood, hlead⟩ := ih ((isEntry_table_iff hinline).mp (ht.of_probe hp)) hrest hes
      refine ⟨ht.setValue hp ((isEntry_table_iff hinline).mpr hgood), ?_⟩
      rw [List.cons_append, Leads, probe_setValue_self hp]
      exact ⟨hinline, hlead⟩
    · exact absurd h failNaming_ne_ok

/-- The last element of an array of tables is a table wherever a header looks for it, and no
header fails at the depth limit once its path is read. -/
lemma resolveHeader_status {pos : Bytes} {aot : Bool} {last : Key} {ps : List Key} {t : Entries}
    {e : Diag} (ht : GoodEntries IsEntry t) (hps : ∀ k ∈ ps, Utf8.Valid k.bytes)
    (h : resolveHeader pos aot last ps t = .error e) : e.status = .errSemantic := by
  induction ps generalizing t with
  | nil =>
    rw [resolveHeader, resolveLast] at h
    split_ifs at h
    all_goals
      split at h
      · simp at h
      · simp at h
      · obtain rfl := Except.error.inj h
        rfl
  | cons part ps ih =>
    have hrest : ∀ k ∈ ps, Utf8.Valid k.bytes := fun k hk => hps k (by simp [hk])
    rw [resolveHeader] at h
    split at h
    next hp =>
      split at h
      next e' he =>
        obtain rfl := Except.error.inj h
        exact ih GoodEntries.nil hrest he
      · simp at h
    next isAot items hp =>
      split_ifs at h with haot
      · obtain rfl := Except.error.inj h
        rfl
      obtain rfl : isAot = true := by simpa using haot
      obtain ⟨init, es', rfl, hes'⟩ := aot_getLast (ht.of_probe hp)
      simp only [List.getLast?_append, List.getLast?_singleton, Option.some_or] at h
      split at h
      next e' he =>
        obtain rfl := Except.error.inj h
        exact ih hes' hrest he
      · simp at h
    next flag es hp =>
      split_ifs at h with hinline
      · obtain rfl := Except.error.inj h
        rfl
      split at h
      next e' he =>
        obtain rfl := Except.error.inj h
        exact ih ((isEntry_table_iff hinline).mp (ht.of_probe hp)) hrest he
      · simp at h
    · obtain rfl := Except.error.inj h
      rfl

lemma fastPath_spec {room : ℕ} {q q' : Bytes} {path : KeyPath}
    (h : fastPath room q = some (path, q')) :
    Behind q q' ∧ ∀ k ∈ path.parts, Utf8.Valid k.bytes := by
  induction room generalizing q path with
  | zero => simp [fastPath] at h
  | succ room ih =>
    obtain _ | ⟨c, cs⟩ := q
    · simp [fastPath] at h
    by_cases hc : isBareKey c = true
    swap
    · simp [fastPath, hc] at h
    simp only [fastPath, List.head?_cons, Option.any_some, hc, if_true, scanBareKey_eq] at h
    have hb : Behind (c :: cs) ((c :: cs).dropWhile isBareKey) :=
      behind_dropWhile (fun _ => isBareKey_lt) hc
    have hkey : Utf8.Valid ((c :: cs).takeWhile isBareKey) :=
      Utf8.valid_of_ascii fun d hd => ascii_of_lt (isBareKey_lt (List.mem_takeWhile_imp hd))
    split_ifs at h with hdot
    · split at h
      swap
      · simp at h
      next path' q'' hfast =>
      obtain ⟨rfl, rfl⟩ := Prod.mk.inj (Option.some_inj.mp h)
      obtain ⟨hb', hkeys⟩ := ih hfast
      refine ⟨hb.trans ((behind_drop_one hdot (by decide)).trans hb'), fun k hk => ?_⟩
      rw [KeyPath.parts_cons] at hk
      rcases List.mem_cons.mp hk with rfl | hk
      · exact hkey
      · exact hkeys k hk
    · obtain ⟨rfl, rfl⟩ := Prod.mk.inj (Option.some_inj.mp h)
      refine ⟨hb, fun k hk => ?_⟩
      obtain rfl : k = Key.ofBytes _ := by simpa [KeyPath.parts] using hk
      exact hkey

lemma behind_closeHeader {aot : Bool} {r r' : Bytes} (h : closeHeader aot r = .ok r') :
    Behind r r' := by
  rw [closeHeader] at h
  split_ifs at h with haot h2 h1
  · obtain rfl := Except.ok.inj h
    exact behind_drop_two h2.1 (by decide) h2.2 (by decide)
  · exact absurd h failAt_ne_ok
  · obtain rfl := Except.ok.inj h
    exact behind_drop_one h1 (by decide)
  · exact absurd h failAt_ne_ok

/-- What a header line does: it resolves a path, and opens the table there. -/
structure HeaderStep (cfg : Config) (s s' : PState) (path : KeyPath) (aot : Bool) : Prop where
  /-- The tree after the line. -/
  root : resolveHeader s'.rest aot path.last path.parents s.root = .ok s'.root
  /-- The open table. -/
  cur : s'.cur = path.parts
  /-- The cursor moves on. -/
  rest : Behind s.rest s'.rest
  /-- The parts of the path are text. -/
  key : Utf8.Valid s.rest → ∀ k ∈ path.parts, Utf8.Valid k.bytes

lemma parseHeader_cases {cfg : Config} {s s' : PState} (hopen : s.rest.head? = some Ch.lbrack)
    (h : parseHeader cfg s = .ok s') : ∃ path aot, HeaderStep cfg s s' path aot := by
  have hdrop : Behind s.rest (s.rest.drop 1) := behind_drop_one hopen (by decide)
  simp only [parseHeader] at h
  generalize haot : decide ((s.rest.drop 1).head? = some Ch.lbrack) = aot at h
  have hstart : Behind s.rest (if aot then (s.rest.drop 1).drop 1 else s.rest.drop 1) := by
    split_ifs with ha
    · rw [ha, decide_eq_true_eq] at haot
      exact hdrop.trans (behind_drop_one haot (by decide))
    · exact hdrop
  generalize (if aot then (s.rest.drop 1).drop 1 else s.rest.drop 1) = hs at h hstart
  split at h
  · simp at h
  next path r hpath =>
  obtain ⟨hb, hkeys, -⟩ := parseKeyPath_spec hpath
  have hws := hstart.trans_reaches (reaches_skipWs hs)
  split at h
  · simp at h
  next r' hclose =>
  have hb' := (hb.trans_reaches (reaches_skipWs r)).trans (behind_closeHeader hclose)
  split at h
  · simp at h
  next root hroot =>
  obtain rfl := Except.ok.inj h
  exact ⟨path, aot, hroot, rfl, hws.trans hb', fun hv => hkeys (hws.valid hv)⟩

lemma headerLine_cases {cfg : Config} {s s' : PState} (hopen : s.rest.head? = some Ch.lbrack)
    (h : headerLine cfg s = .ok s') : ∃ path aot, HeaderStep cfg s s' path aot := by
  cases htaken : (tryHeaderFast s).2 with
  | none =>
    rw [headerLine_of_handed_back cfg htaken] at h
    exact parseHeader_cases hopen h
  | some v =>
    obtain ⟨path, start, q, hshape, hline⟩ := headerLine_of_taken cfg htaken
    rw [hline] at h
    obtain ⟨root, hroot, rfl⟩ := map_eq_ok_iff.mp h
    obtain ⟨-, -, rfl, hfast, hend⟩ := fastShape_spec hshape
    obtain ⟨hb, hkeys⟩ := fastPath_spec hfast
    exact ⟨path, false, hroot, rfl, (behind_drop_one hopen (by decide)).trans
      (hb.trans (behind_drop_one hend (by decide))), fun _ => hkeys⟩

/-! ## States -/

/-- A state between two lines: text, a well-formed tree, and a table of it. -/
structure PState.Ok (s : PState) : Prop where
  /-- The rest of the input is well formed. -/
  rest : Utf8.Valid s.rest
  /-- The tree is well formed. -/
  root : GoodEntries IsEntry s.root
  /-- The open table is there. -/
  cur : Leads s.cur s.root

lemma headerLine_ok {cfg : Config} {s s' : PState} (hopen : s.rest.head? = some Ch.lbrack)
    (h : headerLine cfg s = .ok s') : Behind s.rest s'.rest ∧ (s.Ok → s'.Ok) := by
  obtain ⟨path, aot, hstep⟩ := headerLine_cases hopen h
  refine ⟨hstep.rest, fun hs => ?_⟩
  have hkeys := hstep.key hs.rest
  obtain ⟨hgood, hlead⟩ := resolveHeader_ok hs.root (hkeys _ (by simp [KeyPath.parts]))
    (fun k hk => hkeys k (by simp [KeyPath.parts, hk])) hstep.root
  exact ⟨hstep.rest.valid hs.rest, hgood, hstep.cur ▸ hlead⟩

/-- A value is the value of an entry. -/
lemma isEntry_of_goodValue {v : Node} (h : GoodValue v) : IsEntry v := .value h.1 h.2

lemma parseKeyval_ok (cfg : Config) (curPath : Bytes) :
    MemberOk (GoodEntries IsEntry) (parseKeyval cfg curPath) := by
  have hvalue := parseValue_ok cfg curPath cfg.maxDepth
  rw [show parseKeyval cfg curPath = keyval curPath cfg.maxDepth
      (parseValueFast cfg curPath cfg.maxDepth) (parseValue cfg curPath cfg.maxDepth) from rfl,
    parseValueFast_eq]
  exact keyval_ok hvalue hvalue extends_isEntry fun _ => isEntry_of_goodValue

lemma keyvalLine_ok {cfg : Config} {s s' : PState} (h : keyvalLine cfg s = .ok s') :
    Behind s.rest s'.rest ∧ (s.Ok → s'.Ok) := by
  rw [keyvalLine] at h
  split at h
  · simp at h
  next es r hkv =>
  obtain rfl := Except.ok.inj h
  obtain ⟨hb, hgood⟩ := parseKeyval_ok cfg s.curPath _ _ _ _ hkv
  refine ⟨hb, fun hs => ?_⟩
  have hes := hgood hs.rest (entriesAt_good hs.root hs.cur)
  obtain ⟨hroot, hcur⟩ := setEntriesAt_good hs.root hs.cur hes
  exact ⟨hb.valid hs.rest, hroot, hcur⟩

lemma statement_ok {cfg : Config} {c : UInt8} {s s' : PState} (hc : s.rest.head? = some c)
    (h : statement cfg c s = .ok s') : Behind s.rest s'.rest ∧ (s.Ok → s'.Ok) := by
  rw [statement] at h
  split at h
  · simp at h
  next s₁ hline =>
  have hstep : Behind s.rest s₁.rest ∧ (s.Ok → s₁.Ok) := by
    split_ifs at hline with hopen
    · exact headerLine_ok (hopen ▸ hc) hline
    · exact keyvalLine_ok hline
  split at h
  · simp at h
  next r hfin =>
  obtain rfl := Except.ok.inj h
  have hr := reaches_finishLine hfin
  refine ⟨hstep.1.trans_reaches hr, fun hs => ?_⟩
  have hs₁ := hstep.2 hs
  exact ⟨hr.valid hs₁.rest, hs₁.root, hs₁.cur⟩

/-- A turn of the line loop reads on, and keeps the state well formed. -/
lemma lineTurn_ok {cfg : Config} {s s' : PState} (h : lineTurn cfg s = .ok (.next s')) :
    Behind s.rest s'.rest ∧ (s.Ok → s'.Ok) := by
  have hws := reaches_skipWs s.rest
  rw [lineTurn] at h
  split at h
  · simp at h
  next c cs hrest =>
  rw [hrest] at hws
  have hmove : ∀ {r : Bytes}, Behind (c :: cs) r →
      Behind s.rest r ∧ (s.Ok → PState.Ok { s with rest := r }) := fun hb =>
    ⟨hws.trans_behind hb, fun hs => ⟨(hws.trans_behind hb).valid hs.rest, hs.root, hs.cur⟩⟩
  split_ifs at h with hlf hcr hcrlf hhash
  · obtain rfl : { s with rest := cs } = s' := by simpa using h
    exact hmove (behind_cons (hlf ▸ by decide))
  · obtain rfl : { s with rest := cs.drop 1 } = s' := by simpa using h
    exact hmove ((behind_cons (hcr ▸ by decide)).trans (behind_drop_one hcrlf (by decide)))
  · exact absurd h failAt_ne_ok
  · obtain ⟨r, hr, heq⟩ := map_eq_ok_iff.mp h
    obtain rfl : { s with rest := r } = s' := by simpa using heq
    exact hmove (behind_skipComment (by simp [hhash]) hr)
  · obtain ⟨s₁, hs₁, heq⟩ := map_eq_ok_iff.mp h
    obtain rfl : s₁ = s' := by simpa using heq
    obtain ⟨hb, hok⟩ := statement_ok (s := { s with rest := c :: cs }) (by simp) hs₁
    exact ⟨hws.trans_behind hb, fun hs => hok ⟨hws.valid hs.rest, hs.root, hs.cur⟩⟩

/-- The line loop stops at the end of the input, with the tree it has. -/
lemma lineTurn_stop {cfg : Config} {s : PState} {es : Entries}
    (h : lineTurn cfg s = .ok (.stop es)) : es = s.root ∧ skipWs s.rest = [] := by
  rw [lineTurn] at h
  split at h
  next hnil => exact ⟨(Turn.stop.inj (Except.ok.inj h)).symm, hnil⟩
  · split_ifs at h
    · simp at h
    · simp at h
    · exact absurd h failAt_ne_ok
    · obtain ⟨_, -, heq⟩ := map_eq_ok_iff.mp h
      simp at heq
    · obtain ⟨_, -, heq⟩ := map_eq_ok_iff.mp h
      simp at heq

lemma lines_shrinks (cfg : Config) : Shrinks (lineTurn cfg) (fun s => s.rest.length) :=
  fun _ _ h => (lineTurn_ok h).1.lt

/-- A turn that goes on does not change the outcome of the loop. -/
lemma lines_next {cfg : Config} {s s' : PState} (h : lineTurn cfg s = .ok (.next s')) :
    lines cfg s = lines cfg s' := loop_next (lines_shrinks cfg) h

/-! ## The UTF-8 check -/

/-- The words of ASCII bytes that are skipped are whole characters. -/
lemma skipAsciiWords_spec (r : Bytes) : (skipAsciiWords r).length ≤ r.length ∧
    (Utf8.Valid (skipAsciiWords r) ↔ Utf8.Valid r) := by
  fun_induction skipAsciiWords r with
  | case1 c0 c1 c2 c3 c4 c5 c6 c7 cs hall ih =>
    simp only [List.all_cons, List.all_nil, Bool.and_true, Bool.and_eq_true,
      decide_eq_true_eq] at hall
    obtain ⟨h0, h1, h2, h3, h4, h5, h6, h7⟩ := hall
    refine ⟨?_, fun hv => ?_, fun hv => ?_⟩
    · have := ih.1
      simp only [List.length_cons]
      omega
    · exact .ascii h0 (.ascii h1 (.ascii h2 (.ascii h3 (.ascii h4 (.ascii h5 (.ascii h6
        (.ascii h7 (ih.2.mp hv))))))))
    · exact ih.2.mpr ((((((((hv.tail h0).tail h1).tail h2).tail h3).tail h4).tail h5).tail
        h6).tail h7)
  | case2 => exact ⟨Nat.le_refl _, Iff.rfl⟩
  | case3 => exact ⟨Nat.le_refl _, Iff.rfl⟩

end Teptris
