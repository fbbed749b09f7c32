import Teptris.Dom.Height
import Teptris.Parse.HeaderDepth

/-!
# The depth of a document

The gates of `max_depth` count from different places: a key path counts its own parts, a value
its own brackets, and neither the level of the table it goes into; an array of tables takes two
levels for one part, and `try_header_fast` counts nothing.  `statementLevel` is the level of the
deepest container a statement writes, counted from the root; the document stays within the limit
exactly where each of its statements does.
-/

namespace Teptris

open Loop

/-! ## Levels -/

/-- The level of the table a path leads to, counted from the root: an array of tables on the way
takes two, and a part that is not there yet one. -/
def levelAt : List Key → Entries → ℕ
  | [], _ => 0
  | k :: ks, t =>
    match probe k t with
    | some (.table _ es) => levelAt ks es + 1
    | some (.array _ items) =>
      match items.getLast? with
      | some (.table _ es) => levelAt ks es + 2
      | _ => ks.length + 1
    | _ => ks.length + 1

lemma levelAt_nil (ks : List Key) : levelAt ks [] = ks.length := by
  cases ks <;> rfl

/-- The level of the deepest container that the statement at the start of the line writes; 0
where there is no statement.  The path of a header is read without a limit. -/
def statementLevel (cfg : Config) (s : PState) : ℕ :=
  if s.rest.head? = some Ch.lbrack then
    let r := s.rest.drop 1
    let aot : Bool := r.head? = some Ch.lbrack
    match parseKeyPath s.rest.length (skipWs (if aot then r.drop 1 else r)) with
    | .error _ => 0
    | .ok (path, _) => levelAt path.parents s.root + if aot then 2 else 1
  else
    match parseKeyPath cfg.maxDepth s.rest with
    | .error _ => 0
    | .ok (path, r) =>
      match parseValue cfg s.curPath cfg.maxDepth (skipWs ((skipWs r).drop 1)) with
      | .error _ => 0
      | .ok (v, _) => levelAt s.cur s.root + path.parents.length + v.height

/-! ## Headers -/

/-- A resolved header deepens the tree to the level of its table. -/
lemma resolveHeader_height {pos : Bytes} {aot : Bool} {last : Key} {ps : List Key}
    {t t' : Entries} (h : resolveHeader pos aot last ps t = .ok t') :
    entriesHeight t' = max (entriesHeight t) (levelAt ps t + if aot then 2 else 1) := by
  induction ps generalizing t t' with
  | nil =>
    rw [resolveHeader, resolveLast] at h
    rw [levelAt]
    split_ifs at h ⊢
    · split at h
      · obtain rfl := Except.ok.inj h
        rw [insert, entriesHeight_append]
        simp [Node.height, itemsHeight, entriesHeight]
      next items hp =>
        obtain rfl := Except.ok.inj h
        have hpush : (Node.array true (items ++ [.table .explicit []])).height =
            max (itemsHeight items) 1 + 1 := by
          rw [Node.height, itemsHeight_append, Node.height, entriesHeight]
        have hold := height_le_of_probe hp
        rw [Node.height] at hold
        rw [entriesHeight_setValue hp (by rw [hpush, Node.height]; omega), hpush]
        omega
      · exact absurd h failNaming_ne_ok
    · split at h
      · obtain rfl := Except.ok.inj h
        rw [insert, entriesHeight_append]
        simp [Node.height, entriesHeight]
      next es hp =>
        obtain rfl := Except.ok.inj h
        have hold := height_le_of_probe hp
        rw [Node.height] at hold
        rw [entriesHeight_setValue hp (by rw [Node.height, Node.height]), Node.height]
        omega
      · exact absurd h failNaming_ne_ok
  | cons part ps ih =>
    rw [resolveHeader] at h
    rw [levelAt]
    split at h
    next hp =>
      split at h
      · simp at h
      next es hes =>
      obtain rfl := Except.ok.inj h
      rw [hp, insert, entriesHeight_append, Node.height, ih hes, levelAt_nil, entriesHeight]
      dsimp only
      omega
    next isAot items hp =>
      split_ifs at h with haot
      · exact absurd h failNaming_ne_ok
      rw [hp]
      split at h
      next flag es hlast =>
        split at h
        · simp at h
        next es' hes =>
        obtain rfl := Except.ok.inj h
        have hes' := ih hes
        have hdeeper : (Node.table flag es).height ≤ (Node.table flag es').height := by
          rw [Node.height, Node.height]
          omega
        have hitems := itemsHeight_setLast hlast hdeeper
        have hlastle := height_le_itemsHeight (List.mem_of_getLast? hlast)
        rw [Node.height] at hlastle hitems
        have hold := height_le_of_probe hp
        rw [Node.height] at hold
        rw [entriesHeight_setValue hp (by rw [Node.height, Node.height]; omega), Node.height,
          hitems]
        dsimp only
        rw [hlast]
        dsimp only
        omega
      · exact absurd h failAt_ne_ok
    next flag es hp =>
      split_ifs at h with hinline
      · exact absurd h failNaming_ne_ok
      split at h
      · simp at h
      next es' hes =>
      obtain rfl := Except.ok.inj h
      have hes' := ih hes
      have hold := height_le_of_probe hp
      rw [Node.height] at hold
      rw [entriesHeight_setValue hp (by rw [Node.height, Node.height]; omega), Node.height, hp]
      dsimp only
      omega
    · exact absurd h failNaming_ne_ok

/-! ## Key/value pairs -/

/-- An inserted value deepens the table by the tables of its dotted key and its own levels. -/
lemma insertDotted_height {pos : Bytes} {path : KeyPath} {value : Node} {ps : List Key}
    {t t' : Entries} (h : insertDotted pos path value ps t = .ok t') :
    entriesHeight t' = max (entriesHeight t) (ps.length + value.height) := by
  induction ps generalizing t t' with
  | nil =>
    rw [insertDotted] at h
    split at h
    · split_ifs at h <;> exact absurd h failNaming_ne_ok
    · obtain rfl := Except.ok.inj h
      rw [insert, entriesHeight_append, List.length_nil, Nat.zero_add]
  | cons part ps ih =>
    rw [insertDotted] at h
    rw [List.length_cons]
    split at h
    · split at h
      · simp at h
      next es hes =>
      obtain rfl := Except.ok.inj h
      rw [insert, entriesHeight_append, Node.height, ih hes, entriesHeight]
      omega
    next flag es hp =>
      split_ifs at h
      · exact absurd h failNaming_ne_ok
      · exact absurd h failNaming_ne_ok
      split at h
      · simp at h
      next es' hes =>
      obtain rfl := Except.ok.inj h
      have hes' := ih hes
      have hold := height_le_of_probe hp
      rw [Node.height] at hold
      rw [entriesHeight_setValue hp (by rw [Node.height, Node.height]; omega), Node.height]
      omega
    · exact absurd h failNaming_ne_ok

/-- The open table lies at its level, with all it holds. -/
lemma levelAt_le {ks : List Key} {t : Entries} (h : Leads ks t) :
    levelAt ks t + entriesHeight (entriesAt ks t) ≤ entriesHeight t := by
  induction ks generalizing t with
  | nil => rw [levelAt, entriesAt, Nat.zero_add]
  | cons k ks ih =>
    rw [Leads] at h
    rw [levelAt, entriesAt]
    cases hp : probe k t with
    | none => simp [hp] at h
    | some n =>
      have hold := height_le_of_probe hp
      simp only [hp] at h ⊢
      cases n with
      | table flag es =>
        have := ih h.2
        rw [Node.height] at hold
        dsimp only
        omega
      | array aot items =>
        cases hlast : items.getLast? with
        | none => simp [hlast] at h
        | some m =>
          have hlastle := height_le_itemsHeight (List.mem_of_getLast? hlast)
          simp only [hlast] at h ⊢
          cases m with
          | table flag es =>
            have := ih h.2
            simp only [Node.height] at hold hlastle
            dsimp only
            omega
          | string | integer | float | boolean | datetime | array => exact h.elim
      | string | integer | float | boolean | datetime => exact h.elim

/-- Deepening the open table deepens the tree from its level on. -/
lemma setEntriesAt_height {ks : List Key} {t new : Entries} (h : Leads ks t)
    (hnew : entriesHeight (entriesAt ks t) ≤ entriesHeight new) :
    entriesHeight (setEntriesAt new ks t) =
      max (entriesHeight t) (levelAt ks t + entriesHeight new) := by
  induction ks generalizing t with
  | nil =>
    rw [entriesAt] at hnew
    rw [setEntriesAt, levelAt]
    omega
  | cons k ks ih =>
    rw [Leads] at h
    rw [entriesAt] at hnew
    rw [setEntriesAt, levelAt]
    cases hp : probe k t with
    | none => simp [hp] at h
    | some n =>
      have hold := height_le_of_probe hp
      simp only [hp] at h hnew ⊢
      cases n with
      | table flag es =>
        have hes := ih h.2 hnew
        rw [Node.height] at hold
        dsimp only
        rw [entriesHeight_setValue hp (by rw [Node.height, Node.height]; omega), Node.height]
        omega
      | array aot items =>
        cases hlast : items.getLast? with
        | none => simp [hlast] at h
        | some m =>
          have hlastle := height_le_itemsHeight (List.mem_of_getLast? hlast)
          simp only [hlast] at h hnew ⊢
          cases m with
          | table flag es =>
            dsimp only at hnew
            have hes := ih h.2 hnew
            have hitems := itemsHeight_setLast (v := .table flag (setEntriesAt new ks es)) hlast
              (by rw [Node.height, Node.height]; omega)
            simp only [Node.height] at hold hlastle hitems
            dsimp only
            rw [entriesHeight_setValue hp (by rw [Node.height, Node.height]; omega), Node.height]
            omega
          | string | integer | float | boolean | datetime | array => exact h.elim
      | string | integer | float | boolean | datetime => exact h.elim

/-! ## Paths without a limit -/

/-- A turn within a limit is the same turn within another one. -/
lemma keyPathTurn_of_le {m n : ℕ} {s : List Key × Bytes}
    {t : Turn (List Key × Bytes) (KeyPath × Bytes)} (h : keyPathTurn m s = .ok t)
    (hle : s.1.length + 1 ≤ n) : keyPathTurn n s = .ok t := by
  rw [keyPathTurn] at h ⊢
  split at h
  · simp at h
  next key r hkey =>
  dsimp only at h ⊢
  rw [if_neg (Nat.not_lt.mpr hle)]
  split_ifs at h ⊢ with hm
  · exact absurd h failAt_ne_ok
  · exact h
  · exact absurd h failAt_ne_ok
  · exact h

/-- A path is the same under every limit it keeps. -/
lemma parseKeyPath_of_le {m n : ℕ} {r r' : Bytes} {path : KeyPath}
    (h : parseKeyPath m r = .ok (path, r')) (hle : path.count ≤ n) :
    parseKeyPath n r = .ok (path, r') := by
  have hloop : ∀ s res, loop (keyPathTurn m) Diag.stuck (fun s => s.2.length) s = res →
      res = .ok (path, r') → s.1.length + 1 ≤ path.count ∧
        loop (keyPathTurn n) Diag.stuck (fun s => s.2.length) s = .ok (path, r') := by
    rintro s _ rfl
    refine loop_rec (keyPath_shrinks m) (P := fun s res => res = .ok (path, r') →
      s.1.length + 1 ≤ path.count ∧
        loop (keyPathTurn n) Diag.stuck (fun s => s.2.length) s = .ok (path, r')) ?_ ?_ ?_ s
    · intro s e _ he
      simp at he
    · intro s b hturn hb
      obtain rfl := Except.ok.inj hb
      obtain ⟨key, q, -, -, -, ⟨-, ht⟩ | ⟨-, ht⟩⟩ := keyPathTurn_cases hturn
      · simp at ht
      · obtain ⟨rfl, rfl⟩ := Prod.mk.inj (Turn.stop.inj ht)
        exact ⟨Nat.le_refl _, loop_stop (keyPathTurn_of_le hturn hle)⟩
    · intro s s' res hturn ih hres
      obtain ⟨hcount, hs'⟩ := ih hres
      obtain ⟨key, q, -, -, -, ⟨-, ht⟩ | ⟨-, ht⟩⟩ := keyPathTurn_cases hturn
      · obtain rfl := Turn.next.inj ht
        rw [List.length_append, List.length_singleton] at hcount
        refine ⟨by omega, ?_⟩
        rw [loop_next (keyPath_shrinks n) (keyPathTurn_of_le hturn (by omega)), hs']
      · simp at ht
  exact (hloop _ _ rfl h).2

/-- A path has no more parts than bytes. -/
lemma count_le_of_parseKeyPath {m : ℕ} {r r' : Bytes} {path : KeyPath}
    (h : parseKeyPath m r = .ok (path, r')) : path.count ≤ r.length := by
  refine loop_invariant (I := fun s => s.1.length + s.2.length ≤ r.length)
    (Q := fun s => s.1.count ≤ r.length) ?_ ?_ (by simp) h
  · intro s s' hs hturn
    obtain ⟨key, q, hb, -, -, ⟨hdot, ht⟩ | ⟨-, ht⟩⟩ := keyPathTurn_cases hturn
    · obtain rfl := Turn.next.inj ht
      have := (hb.trans (behind_drop_one hdot (by decide))).lt
      dsimp only
      rw [List.length_append, List.length_singleton]
      omega
    · simp at ht
  · intro s b hs hturn
    obtain ⟨key, q, hb, -, -, ⟨-, ht⟩ | ⟨-, ht⟩⟩ := keyPathTurn_cases hturn
    · simp at ht
    · obtain rfl := Turn.stop.inj ht
      have := hb.lt
      simp only [KeyPath.count]
      omega

/-! ## Statements -/

/-- The level of a header line is that of the path it was resolved with. -/
lemma statementLevel_header {cfg : Config} {s : PState} {path : KeyPath} {m : ℕ} {r : Bytes}
    (hopen : s.rest.head? = some Ch.lbrack)
    (hpath : parseKeyPath m (skipWs (if (s.rest.drop 1).head? = some Ch.lbrack then
      (s.rest.drop 1).drop 1 else s.rest.drop 1)) = .ok (path, r)) :
    statementLevel cfg s = levelAt path.parents s.root +
      if (s.rest.drop 1).head? = some Ch.lbrack then 2 else 1 := by
  have hlen : path.count ≤ s.rest.length := by
    refine Nat.le_trans (count_le_of_parseKeyPath hpath) ?_
    refine Nat.le_trans (List.dropWhile_suffix _).length_le ?_
    split_ifs <;> simp only [List.length_drop] <;> omega
  have hlong := parseKeyPath_of_le hpath hlen
  rw [statementLevel, if_pos hopen]
  dsimp only
  simp only [decide_eq_true_eq]
  rw [hlong]

/-- A header line deepens the tree to its level. -/
lemma headerLine_height {cfg : Config} {s s' : PState} (hopen : s.rest.head? = some Ch.lbrack)
    (h : headerLine cfg s = .ok s') :
    entriesHeight s'.root = max (entriesHeight s.root) (statementLevel cfg s) := by
  cases htaken : (tryHeaderFast s).2 with
  | none =>
    rw [headerLine_of_handed_back cfg htaken, parseHeader] at h
    simp only [decide_eq_true_eq] at h
    split at h
    · simp at h
    next path r hpath =>
    split at h
    · simp at h
    split at h
    · simp at h
    next root hroot =>
    obtain rfl := Except.ok.inj h
    have hheight := resolveHeader_height hroot
    rw [statementLevel_header hopen hpath, hheight]
    simp only [decide_eq_true_eq]
  | some v =>
    obtain ⟨path, start, q, hshape, hline⟩ := headerLine_of_taken cfg htaken
    rw [hline] at h
    obtain ⟨root, hroot, rfl⟩ := map_eq_ok_iff.mp h
    have hshape' := hshape
    obtain ⟨-, hsingle, rfl, hfast, hend⟩ := fastShape_spec hshape
    have haot : ¬ (s.rest.drop 1).head? = some Ch.lbrack := by
      rwa [List.head?_drop]
    have hpath := (keyPath_of_fastPath path.count hfast hend []).1 (by simp)
    rw [List.nil_append] at hpath
    have hlevel := @statementLevel_header cfg s path path.count q hopen
      (by rw [if_neg haot, skipWs_of_fastPath hfast]; exact hpath)
    rw [hlevel, if_neg haot, resolveHeader_height hroot, if_neg (by decide)]

/-- A key/value line deepens the tree to its level. -/
lemma keyvalLine_height {cfg : Config} {s s' : PState} (hs : s.Ok)
    (hopen : s.rest.head? ≠ some Ch.lbrack) (h : keyvalLine cfg s = .ok s') :
    entriesHeight s'.root = max (entriesHeight s.root) (statementLevel cfg s) := by
  rw [keyvalLine] at h
  split at h
  · simp at h
  next es r hkv =>
  obtain rfl := Except.ok.inj h
  have hplaced := @placed_keyval s.curPath _ cfg.maxDepth_pos
    (parseValue cfg s.curPath cfg.maxDepth) (entriesAt s.cur s.root) s.rest
  rw [parseKeyval, parseValueFast_eq] at hkv
  rw [hkv, placed_ok] at hplaced
  have hgeneral := ok_of_placed hplaced.symm
  rw [keyvalGeneral] at hgeneral
  split at hgeneral
  · simp at hgeneral
  next path q hpath =>
  dsimp only at hgeneral
  split_ifs at hgeneral
  swap
  · exact absurd hgeneral failAt_ne_ok
  split at hgeneral
  · simp at hgeneral
  next v q' hv =>
  split at hgeneral
  · simp at hgeneral
  next es' hes =>
  obtain ⟨rfl, rfl⟩ := Prod.mk.inj (Except.ok.inj hgeneral)
  have hdeeper := insertDotted_height hes
  have hlevel := levelAt_le hs.cur
  have hroot : entriesHeight (setEntriesAt es' s.cur s.root) =
      max (entriesHeight s.root) (levelAt s.cur s.root + entriesHeight es') :=
    setEntriesAt_height hs.cur (by omega)
  have hstmt : statementLevel cfg s =
      levelAt s.cur s.root + path.parents.length + v.height := by
    rw [statementLevel, if_neg hopen, hpath]
    dsimp only
    rw [hv]
  dsimp only
  rw [hroot, hstmt]
  omega

/-- Where a line has no statement, there is nothing to count. -/
lemma statementLevel_blank {cfg : Config} {s : PState}
    (h : s.rest = [] ∨ ∃ c cs, s.rest = c :: cs ∧ (c = Ch.lf ∨ c = Ch.cr ∨ c = Ch.hash)) :
    statementLevel cfg s = 0 := by
  have hopen : s.rest.head? ≠ some Ch.lbrack := by
    rcases h with h | ⟨c, cs, h, rfl | rfl | rfl⟩ <;> rw [h] <;> simp <;> decide
  have hpath : ∃ e, parseKeyPath cfg.maxDepth s.rest = .error e := by
    have hpart : ∃ e, keyPart (skipWs s.rest) = .error e := by
      rcases h with h | ⟨c, cs, h, rfl | rfl | rfl⟩ <;> rw [h] <;> exact ⟨_, rfl⟩
    obtain ⟨e, he⟩ := hpart
    refine ⟨e, loop_error ?_⟩
    rw [keyPathTurn]
    dsimp only
    rw [he]
  obtain ⟨e, he⟩ := hpath
  rw [statementLevel, if_neg hopen, he]

/-- A turn of the line loop deepens the tree to the level of its statement. -/
lemma lineTurn_height {cfg : Config} {s s' : PState} (hs : s.Ok)
    (h : lineTurn cfg s = .ok (.next s')) :
    entriesHeight s'.root = max (entriesHeight s.root) (statementLevel cfg s.atLine) := by
  rw [lineTurn] at h
  split at h
  · simp at h
  next c cs hrest =>
  have hline : s.atLine = { s with rest := c :: cs } := by rw [PState.atLine, hrest]
  have hblank : (c = Ch.lf ∨ c = Ch.cr ∨ c = Ch.hash) → statementLevel cfg s.atLine = 0 :=
    fun hc => statementLevel_blank (.inr ⟨c, cs, by rw [hline], hc⟩)
  split_ifs at h with hlf hcr hcrlf hhash
  · obtain rfl := Turn.next.inj (Except.ok.inj h)
    rw [hblank (.inl hlf), Nat.max_zero]
  · obtain rfl := Turn.next.inj (Except.ok.inj h)
    rw [hblank (.inr (.inl hcr)), Nat.max_zero]
  · exact absurd h failAt_ne_ok
  · obtain ⟨r, -, heq⟩ := map_eq_ok_iff.mp h
    obtain rfl := Turn.next.inj heq
    rw [hblank (.inr (.inr hhash)), Nat.max_zero]
  · obtain ⟨s₂, hs₂, heq⟩ := map_eq_ok_iff.mp h
    obtain rfl := Turn.next.inj heq
    rw [← hline, statement] at hs₂
    have hhead : s.atLine.rest.head? = some c := by rw [hline, List.head?_cons]
    split at hs₂
    · simp at hs₂
    next s₁ hs₁ =>
    split at hs₂
    · simp at hs₂
    obtain rfl := Except.ok.inj hs₂
    dsimp only
    split_ifs at hs₁ with hopen
    · exact headerLine_height (by rw [hhead, hopen]) hs₁
    · exact keyvalLine_height hs.atLine (by rw [hhead]; simpa using hopen) hs₁

/-! ## Documents -/

/-- The loop never makes the tree lower. -/
lemma height_le_of_lines {cfg : Config} {s : PState} {es : Entries} (hs : s.Ok)
    (h : lines cfg s = .ok es) : entriesHeight s.root ≤ entriesHeight es := by
  refine loop_invariant (I := fun s' => s'.Ok ∧ entriesHeight s.root ≤ entriesHeight s'.root)
    (Q := fun es => entriesHeight s.root ≤ entriesHeight es) ?_ ?_ ⟨hs, Nat.le_refl _⟩ h
  · rintro s₁ s₂ ⟨hok, hle⟩ hturn
    refine ⟨(lineTurn_ok hturn).2 hok, ?_⟩
    rw [lineTurn_height hok hturn]
    omega
  · rintro s₁ es ⟨-, hle⟩ hturn
    obtain ⟨rfl, -⟩ := lineTurn_stop hturn
    exact hle

/-- From every state of a run the loop goes on to the result of the run. -/
lemma Reachable.lines_eq {cfg : Config} {data : Bytes} {s : PState}
    (h : Reachable cfg data s) : lines cfg s = lines cfg (PState.init (skipBom data)) := by
  induction h with
  | init => rfl
  | step _ hturn ih => rw [← ih, lines, lines, loop_next (lines_shrinks cfg) hturn]

/-- An accepted document stays within the depth limit exactly where every statement of it does:
no container lies deeper than `max_depth` if and only if, in every state between two lines, the
statement that follows writes no container below that level. -/
theorem depth_le_iff {cfg : Config} {data : Bytes} {n : Node} (h : parse cfg data = .ok n) :
    (∀ depth, n.HasContainer depth → depth ≤ cfg.maxDepth) ↔
      ∀ s, Reachable cfg data s → statementLevel cfg s.atLine ≤ cfg.maxDepth := by
  obtain ⟨es, hrun, rfl⟩ := map_eq_ok_iff.mp h
  rw [parserRun] at hrun
  split at hrun
  · simp at hrun
  next hvalid =>
  have hinit : Reachable cfg data (PState.init (skipBom data)) := .init hvalid
  rw [Node.depth_le_iff_height, Node.height, Nat.add_le_add_iff_right]
  constructor
  · intro hheight s hs
    have hline := hs.lines_eq.trans hrun
    rw [lines, loop_eq (lines_shrinks cfg)] at hline
    split at hline
    · simp at hline
    next es' hturn =>
      rw [statementLevel_blank (.inl (lineTurn_stop hturn).2)]
      exact Nat.zero_le _
    next s' hturn =>
      have hle := height_le_of_lines (hs.step hturn).ok hline
      rw [lineTurn_height hs.ok hturn] at hle
      omega
  · intro hlevels
    refine loop_invariant
      (I := fun s => Reachable cfg data s ∧ entriesHeight s.root ≤ cfg.maxDepth)
      (Q := fun es => entriesHeight es ≤ cfg.maxDepth) ?_ ?_
      ⟨hinit, by simp [PState.init, entriesHeight]⟩ hrun
    · rintro s s' ⟨hs, hle⟩ hturn
      refine ⟨hs.step hturn, ?_⟩
      rw [lineTurn_height hs.ok hturn]
      have := hlevels s hs
      omega
    · rintro s es ⟨-, hle⟩ hturn
      obtain ⟨rfl, -⟩ := lineTurn_stop hturn
      exact hle

/-- Within the limit: `a=[]` with `max_depth` 1. -/
theorem depth_le_iff_single :
    parse (.ofOptions .zero 1) [0x61, Ch.eq, Ch.lbrack, Ch.rbrack] =
        .ok (.table .explicit [(Key.ofBytes [0x61], .array false [])]) ∧
      ((∀ depth, (Node.table .explicit [(Key.ofBytes [0x61], .array false [])]).HasContainer depth →
          depth ≤ (Config.ofOptions .zero 1).maxDepth) ↔
        ∀ s, Reachable (.ofOptions .zero 1) [0x61, Ch.eq, Ch.lbrack, Ch.rbrack] s →
          statementLevel (.ofOptions .zero 1) s.atLine ≤ (Config.ofOptions .zero 1).maxDepth) :=
  ⟨rfl, @depth_le_iff (.ofOptions .zero 1) [0x61, Ch.eq, Ch.lbrack, Ch.rbrack] _ rfl⟩

/-- Beyond it: the array of `b=[]` under the header `[a]` lies two levels below the root. -/
theorem depth_exceeded :
    parse (.ofOptions .zero 1) [Ch.lbrack, 0x61, Ch.rbrack, Ch.lf, 0x62, Ch.eq, Ch.lbrack,
        Ch.rbrack] =
        .ok (.table .explicit [(Key.ofBytes [0x61],
          .table .explicit [(Key.ofBytes [0x62], .array false [])])]) ∧
      ¬ ∀ depth, (Node.table .explicit [(Key.ofBytes [0x61],
          .table .explicit [(Key.ofBytes [0x62], .array false [])])]).HasContainer depth →
        depth ≤ (Config.ofOptions .zero 1).maxDepth := by
  refine ⟨rfl, fun h => ?_⟩
  have hdeep := h 2 (.value List.mem_cons_self (.value List.mem_cons_self .array))
  exact absurd hdeep (by decide)

end Teptris
