import Teptris.Grammar.Values
import Teptris.Parse.HeaderDepth

/-!
# Documents by the grammar

A document is lines of statements, and each statement acts on the tree and the open table.
`teptris_parse` reads the documents of the grammar whose statements can act one after another
from the empty tree, and returns the tree they leave.
-/

namespace Teptris

open Loop

/-! ## Statements and their effect -/

/-- A line of a document. -/
inductive Statement where
  /-- A header, of a table or of an array of tables. -/
  | header (aot : Bool) (path : KeyPath)
  /-- A pair. -/
  | pair (path : KeyPath) (v : Node)

/-- The tree built so far, and the open table as a path from the root. -/
structure Draft where
  /-- The entries of the root table. -/
  root : Entries
  /-- The open table. -/
  cur : List Key

/-- The empty tree with its root open. -/
def Draft.empty : Draft := ⟨[], []⟩

/-- What a header does to the table its last key is looked for in: an array of tables gets one
more element, a table is made, or the table that longer headers made is named. -/
def openLast (aot : Bool) (k : Key) (t : Entries) : Option Entries :=
  if aot then
    match probe k t with
    | none => some (insert t k (.array true [.table .explicit []]))
    | some (.array true items) =>
      some (setValue k (.array true (items ++ [.table .explicit []])) t)
    | some _ => none
  else
    match probe k t with
    | none => some (insert t k (.table .explicit []))
    | some (.table .implicit es) => some (setValue k (.table .explicit es) t)
    | some _ => none

/-- What a header does to a table, along the parts in front of its last key: through tables that
are no inline tables and the last elements of arrays of tables. -/
def openHeader (aot : Bool) (k : Key) : List Key → Entries → Option Entries
  | [], t => openLast aot k t
  | part :: rest, t =>
    match probe part t with
    | none => (openHeader aot k rest []).map fun es => insert t part (.table .implicit es)
    | some (.array true items) =>
      match items.getLast? with
      | some (.table flag es) =>
        (openHeader aot k rest es).map fun es =>
          setValue part (.array true (items.dropLast ++ [.table flag es])) t
      | _ => none
    | some (.table flag es) =>
      if flag = .inline then none
      else (openHeader aot k rest es).map fun es => setValue part (.table flag es) t
    | some _ => none

/-- What a statement makes of a draft. -/
def Statement.act : Statement → Draft → Option Draft
  | .header aot path, d =>
    (openHeader aot path.last path.parents d.root).map fun root => ⟨root, path.parts⟩
  | .pair path v, d =>
    (define path.last v path.parents (entriesAt d.cur d.root)).map fun es =>
      ⟨setEntriesAt es d.cur d.root, d.cur⟩

/-- What statements make of a draft, one after another. -/
def build (xs : List Statement) (d : Draft) : Option Draft := xs.foldlM (fun d x => x.act d) d

/-- The text of a statement. -/
inductive IsStatement (cfg : Config) : Bytes → Statement → Prop
  | table {t w w' : Bytes} {path : KeyPath} (hw : Toml.IsWs w)
      (ht : Toml.IsPath t (path.parts.map Key.bytes)) (hlen : path.count ≤ cfg.maxDepth)
      (hw' : Toml.IsWs w') :
      IsStatement cfg (Ch.lbrack :: (w ++ (t ++ (w' ++ [Ch.rbrack])))) (.header false path)
  | aot {t w w' : Bytes} {path : KeyPath} (hw : Toml.IsWs w)
      (ht : Toml.IsPath t (path.parts.map Key.bytes)) (hlen : path.count ≤ cfg.maxDepth)
      (hw' : Toml.IsWs w') :
      IsStatement cfg (Ch.lbrack :: Ch.lbrack :: (w ++ (t ++ (w' ++ [Ch.rbrack, Ch.rbrack]))))
        (.header true path)
  | pair {k w w' u : Bytes} {path : KeyPath} {v : Node}
      (hk : Toml.IsPath k (path.parts.map Key.bytes)) (hlen : path.count ≤ cfg.maxDepth)
      (hw : Toml.IsWs w) (hw' : Toml.IsWs w') (hv : IsValueText cfg cfg.maxDepth u v) :
      IsStatement cfg (k ++ (w ++ Ch.eq :: (w' ++ u))) (.pair path v)

/-! ## Headers -/

section Headers

variable {aot : Bool} {k : Key} {ps : List Key} {t t' : Entries} {pos : Bytes}

lemma resolveLast_iff : resolveLast pos aot k t = .ok t' ↔ openLast aot k t = some t' := by
  rw [resolveLast, openLast]
  cases aot with
  | true =>
    rw [if_pos rfl, if_pos rfl]
    cases probe k t with
    | none => simp
    | some w =>
      cases w with
      | array isAot items => cases isAot <;> simp [failNaming]
      | _ => simp [failNaming]
  | false =>
    rw [if_neg (by decide), if_neg (by decide)]
    cases probe k t with
    | none => simp
    | some w =>
      cases w with
      | table flag es => cases flag <;> simp [failNaming]
      | _ => simp [failNaming]

/-- `resolve_header` opens the table or the array of tables that its path names. -/
lemma resolveHeader_iff :
    resolveHeader pos aot k ps t = .ok t' ↔ openHeader aot k ps t = some t' := by
  -- each part in front maps a new table over what the rest of the path makes
  have hmap : ∀ {es : Entries} {rest : List Key} {f : Entries → Entries} {t' : Entries}
      {r : Except Diag Entries},
      (∀ es', resolveHeader pos aot k rest es = .ok es' ↔ openHeader aot k rest es = some es') →
      r = (resolveHeader pos aot k rest es).map f →
      (r = .ok t' ↔ (openHeader aot k rest es).map f = some t') := by
    rintro es rest f t' _ ih rfl
    rw [Option.map_eq_some_iff]
    constructor
    · intro h
      cases hres : resolveHeader pos aot k rest es with
      | error e =>
        rw [hres] at h
        cases h
      | ok es' =>
        rw [hres] at h
        exact ⟨es', (ih es').mp hres, Except.ok.inj h⟩
    · rintro ⟨es', hes, rfl⟩
      rw [(ih es').mpr hes]
      rfl
  induction ps generalizing t t' with
  | nil => exact resolveLast_iff
  | cons part rest ih =>
    rw [resolveHeader, openHeader]
    cases probe part t with
    | none =>
      refine hmap (fun _ => ih) ?_
      cases resolveHeader pos aot k rest _ <;> rfl
    | some w =>
      cases w with
      | array isAot items =>
        cases isAot with
        | true =>
          dsimp only
          rw [if_neg (by decide)]
          cases items.getLast? with
          | none => simp
          | some w =>
            cases w with
            | table flag es =>
              dsimp only
              refine hmap (fun _ => ih) ?_
              cases resolveHeader pos aot k rest _ <;> rfl
            | _ => simp
        | false => simp [failNaming]
      | table flag es =>
        dsimp only
        by_cases hflag : flag = .inline
        · rw [if_pos hflag, if_pos hflag]
          simp [failNaming]
        · rw [if_neg hflag, if_neg hflag]
          refine hmap (fun _ => ih) ?_
          cases resolveHeader pos aot k rest _ <;> rfl
      | _ => simp [failNaming]

end Headers

/-! ## Statements -/

section Statements

variable {cfg : Config} {s s' : PState} {t q : Bytes} {x : Statement} {d d' : Draft} {c : UInt8}

/-- What a parser state has built. -/
def PState.draft (s : PState) : Draft := ⟨s.root, s.cur⟩

/-- Behind a value, the end of its line ends it. -/
lemma IsLineTail.endsValue (ht : IsLineTail t q) : EndsValue (t ++ q) := by
  obtain ⟨w, c, n, hw, hc, hn, rfl⟩ := ht
  intro d hd
  rw [List.append_assoc, skipWs_append hw] at hd
  rcases hc with rfl | hc
  · rcases hn with hn | ⟨rfl, rfl⟩
    · cases hn with
      | lf =>
        obtain rfl := Option.some.inj hd
        exact .inl rfl
      | crlf =>
        obtain rfl := Option.some.inj hd
        exact .inr (.inl rfl)
    · cases hd
  · obtain ⟨hplain⟩ := hc
    rw [List.append_assoc, List.cons_append, skipWs_cons _ (by decide)] at hd
    obtain rfl := Option.some.inj hd
    simp

/-- The closing brackets of a header. -/
lemma closeHeader_iff {aot : Bool} {r : Bytes} : closeHeader aot r = .ok q ↔
    r = (if aot then [Ch.rbrack, Ch.rbrack] else [Ch.rbrack]) ++ q := by
  rw [closeHeader]
  cases aot with
  | true =>
    rw [if_pos rfl, if_pos rfl]
    constructor
    · intro h
      split_ifs at h with hclose
      · obtain ⟨r, rfl⟩ := List.head?_eq_some_iff.mp hclose.1
        have hnext := hclose.2
        rw [List.getElem?_cons_succ, ← List.head?_eq_getElem?] at hnext
        obtain ⟨r, rfl⟩ := List.head?_eq_some_iff.mp hnext
        rw [← Except.ok.inj h]
        rfl
      · exact absurd h failAt_ne_ok
    · rintro rfl
      rfl
  | false =>
    rw [if_neg Bool.false_ne_true, if_neg Bool.false_ne_true]
    constructor
    · intro h
      split_ifs at h with hclose
      · obtain ⟨r, rfl⟩ := List.head?_eq_some_iff.mp hclose
        rw [← Except.ok.inj h]
        rfl
      · exact absurd h failAt_ne_ok
    · rintro rfl
      rfl

/-- The text of a header. -/
def bracketed (aot : Bool) (t : Bytes) : Bytes :=
  (if aot then [Ch.lbrack, Ch.lbrack] else [Ch.lbrack]) ++
    (t ++ if aot then [Ch.rbrack, Ch.rbrack] else [Ch.rbrack])

lemma isStatement_header {aot : Bool} {path : KeyPath} : IsStatement cfg t (.header aot path) ↔
    path.count ≤ cfg.maxDepth ∧ ∃ w k w', Toml.IsWs w ∧ Toml.IsWs w' ∧
      Toml.IsPath k (path.parts.map Key.bytes) ∧ t = bracketed aot (w ++ (k ++ w')) := by
  constructor
  · intro h
    cases h with
    | table hw hk hlen hw' => exact ⟨hlen, _, _, _, hw, hw', hk, by simp [bracketed]⟩
    | aot hw hk hlen hw' => exact ⟨hlen, _, _, _, hw, hw', hk, by simp [bracketed]⟩
  · rintro ⟨hlen, w, k, w', hw, hw', hk, rfl⟩
    cases aot with
    | true => simpa [bracketed] using IsStatement.aot hw hk hlen hw'
    | false => simpa [bracketed] using IsStatement.table hw hk hlen hw'

/-- What is read as a header is one, and opens its table. -/
lemma parseHeader_sound (hr : s.rest.head? = some Ch.lbrack) (h : parseHeader cfg s = .ok s') :
    ∃ t x, s.rest = t ++ s'.rest ∧ IsStatement cfg t x ∧ x.act s.draft = some s'.draft := by
  obtain ⟨r, hrest⟩ := List.head?_eq_some_iff.mp hr
  simp only [parseHeader, hrest, List.drop_succ_cons, List.drop_zero] at h
  generalize haot : decide (r.head? = some Ch.lbrack) = aot at h
  have hstart : Ch.lbrack :: r = (if aot then [Ch.lbrack, Ch.lbrack] else [Ch.lbrack]) ++
      if aot then r.drop 1 else r := by
    cases aot with
    | true =>
      obtain ⟨r, rfl⟩ := List.head?_eq_some_iff.mp (of_decide_eq_true haot)
      rfl
    | false => rfl
  generalize (if aot then r.drop 1 else r) = start at h hstart
  split at h
  · cases h
  next path u hpath =>
  split at h
  · cases h
  next q hclose =>
  split at h
  · cases h
  next root hroot =>
  obtain rfl := Except.ok.inj h
  obtain ⟨w₀, hw₀, hsplit₀⟩ := skipWs_split start
  obtain ⟨w, k, w', hw, hw', hk, hsplit⟩ := parseKeyPath_sound hpath
  obtain ⟨w₁, hw₁, hsplit₁⟩ := skipWs_split u
  rw [closeHeader_iff] at hclose
  refine ⟨bracketed aot ((w₀ ++ w) ++ (k ++ (w' ++ w₁))), .header aot path, ?_,
    isStatement_header.mpr ⟨(parseKeyPath_spec hpath).2.2, _, k, _, hsplit₀.append hw,
      hw'.append hsplit₁, hk, rfl⟩, ?_⟩
  · rw [hrest, hstart, hw₀, hsplit, hw₁, hclose, bracketed]
    simp only [List.append_assoc]
  · rw [Statement.act, PState.draft, resolveHeader_iff.mp hroot]
    rfl

lemma parseHeader_complete {aot : Bool} {path : KeyPath}
    (ht : IsStatement cfg t (.header aot path))
    (hact : (Statement.header aot path).act s.draft = some d') :
    ∃ cp, parseHeader cfg { s with rest := t ++ q } = .ok ⟨q, d'.root, d'.cur, cp⟩ := by
  obtain ⟨hlen, w, k, w', hw, hw', hk, rfl⟩ := isStatement_header.mp ht
  obtain ⟨root, hroot, rfl⟩ := Option.map_eq_some_iff.mp hact
  change openHeader aot path.last path.parents s.root = some root at hroot
  have hinner : ∀ close : Bytes, close.head? = some Ch.rbrack →
      (w ++ (k ++ (w' ++ (close ++ q)))).head? ≠ some Ch.lbrack ∧
        parseKeyPath cfg.maxDepth (skipWs (w ++ (k ++ (w' ++ (close ++ q))))) =
          .ok (path, close ++ q) ∧ skipWs (close ++ q) = close ++ q := by
    intro close hclose
    obtain ⟨close, rfl⟩ := List.head?_eq_some_iff.mp hclose
    obtain ⟨c, k', hcons, hws, -, -, -, hc, -⟩ := isPath_head hk
    have hends : EndsPath (Ch.rbrack :: close ++ q) := by
      intro c hc
      obtain rfl := Option.some.inj hc
      decide
    have hpath := parseKeyPath_complete hk .nil hw' hends hlen
    rw [List.nil_append] at hpath
    refine ⟨?_, ?_, skipWs_cons _ (by decide)⟩
    · cases w with
      | nil =>
        rw [hcons]
        exact fun h => hc (Option.some.inj h)
      | cons d w =>
        intro h
        have hd : isWs d = true := hw d (by simp)
        rw [Option.some.inj h] at hd
        exact absurd hd (by decide)
    · rw [← hpath, skipWs_append hw, hcons, List.cons_append, skipWs_cons _ hws]
  cases aot with
  | true =>
    obtain ⟨-, hpath, hskip⟩ := hinner [Ch.rbrack, Ch.rbrack] rfl
    have htext : bracketed true (w ++ (k ++ w')) ++ q =
        Ch.lbrack :: Ch.lbrack :: (w ++ (k ++ (w' ++ ([Ch.rbrack, Ch.rbrack] ++ q)))) := by
      simp [bracketed]
    simp only [parseHeader, htext, List.drop_succ_cons, List.drop_zero, List.head?_cons,
      decide_true, if_true, hpath, hskip]
    rw [show closeHeader true ([Ch.rbrack, Ch.rbrack] ++ q) = .ok q from rfl]
    dsimp only
    rw [resolveHeader_iff.mpr hroot]
    exact ⟨_, rfl⟩
  | false =>
    obtain ⟨hfirst, hpath, hskip⟩ := hinner [Ch.rbrack] rfl
    have htext : bracketed false (w ++ (k ++ w')) ++ q =
        Ch.lbrack :: (w ++ (k ++ (w' ++ ([Ch.rbrack] ++ q)))) := by
      simp [bracketed]
    simp only [parseHeader, htext, List.drop_succ_cons, List.drop_zero, decide_eq_false hfirst,
      Bool.false_eq_true, if_false, hpath, hskip]
    rw [show closeHeader false ([Ch.rbrack] ++ q) = .ok q from rfl]
    dsimp only
    rw [resolveHeader_iff.mpr hroot]
    exact ⟨_, rfl⟩

lemma parseKeyval_iff {cp : Bytes} {es es' : Entries} {r : Bytes} :
    parseKeyval cfg cp es r = .ok (es', q) ↔
      keyvalGeneral cfg.maxDepth (parseValue cfg cp cfg.maxDepth) es r = .ok (es', q) := by
  rw [parseKeyval, parseValueFast_eq]
  exact keyval_ok_iff

/-- What is read as a line is a statement and the end of its line. -/
lemma statement_sound (hmax : 8 ≤ cfg.maxDepth) (hr : s.rest.head? = some c)
    (hc : isWs c = false) (h : statement cfg c s = .ok s') :
    ∃ t x u, s.rest = t ++ (u ++ s'.rest) ∧ IsStatement cfg t x ∧ IsLineTail u s'.rest ∧
      x.act s.draft = some s'.draft := by
  rw [statement] at h
  split at h
  · cases h
  next s₁ hline =>
  split at h
  · cases h
  next r hfinish =>
  obtain rfl := Except.ok.inj h
  obtain ⟨u, hu, hsplit⟩ := finishLine_sound hfinish
  dsimp only
  by_cases hopen : c = Ch.lbrack
  · rw [if_pos hopen, headerLine_eq hmax] at hline
    obtain ⟨t, x, ht, hx, hact⟩ := parseHeader_sound (hopen ▸ hr) hline
    exact ⟨t, x, u, by rw [ht, hsplit], hx, hu, hact⟩
  · rw [if_neg hopen, keyvalLine] at hline
    split at hline
    · cases hline
    next es q hpair =>
    obtain rfl := Except.ok.inj hline
    dsimp only at hfinish hsplit
    have hends : EndsValue q := hsplit ▸ hu.endsValue
    have hws : ∀ d ∈ s.rest.head?, isWs d = false := by
      intro d hd
      rw [hr] at hd
      obtain rfl := Option.some.inj hd
      exact hc
    obtain ⟨t, ht, hx⟩ := keyvalGeneral_sound hws (fun _ _ _ hv hq => value_sound hv hq)
      (parseKeyval_iff.mp hpair) hends
    obtain @⟨t', k, w, w', v, path, n, hk, hlen, hw, hw', hv, hput⟩ := hx
    refine ⟨_, .pair path n, u, by rw [ht, hsplit], .pair hk hlen hw hw' hv, hu, ?_⟩
    change Option.map _ (define path.last n path.parents (entriesAt s.cur s.root)) = _
    rw [hput]
    rfl

lemma isStatement_head (ht : IsStatement cfg t x) : ∃ c u, t = c :: u ∧ isWs c = false ∧
    c ≠ Ch.lf ∧ c ≠ Ch.cr ∧ c ≠ Ch.hash := by
  cases ht with
  | table => exact ⟨_, _, rfl, by decide⟩
  | aot => exact ⟨_, _, rfl, by decide⟩
  | pair hk =>
    obtain ⟨c, u, rfl, hws, hlf, hcr, hhash, -⟩ := isPath_head hk
    exact ⟨c, _, rfl, hws, hlf, hcr, hhash⟩

/-- A statement and the end of its line are read. -/
lemma statement_complete (hmax : 8 ≤ cfg.maxDepth) (ht : IsStatement cfg t x)
    {u : Bytes} (hu : IsLineTail u q) (hact : x.act s.draft = some d')
    (hc : t.head? = some c) :
    ∃ cp, statement cfg c { s with rest := t ++ (u ++ q) } = .ok ⟨q, d'.root, d'.cur, cp⟩ := by
  rw [statement]
  cases x with
  | header aot path =>
    have hopen : c = Ch.lbrack := by
      obtain ⟨-, w, k, w', -, -, -, rfl⟩ := isStatement_header.mp ht
      cases aot <;> exact (Option.some.inj hc).symm
    obtain ⟨cp, hread⟩ := parseHeader_complete (q := u ++ q) ht hact
    rw [if_pos hopen, headerLine_eq hmax, hread]
    dsimp only
    rw [finishLine_complete hu]
    exact ⟨cp, rfl⟩
  | pair path v =>
    obtain ⟨es, hput, rfl⟩ := Option.map_eq_some_iff.mp hact
    change define path.last v path.parents (entriesAt s.cur s.root) = some es at hput
    cases ht with
    | pair hk hlen hw hw' hv =>
      have hopen : c ≠ Ch.lbrack := by
        obtain ⟨d, k, rfl, -, -, -, -, hopen, -⟩ := isPath_head hk
        obtain rfl := Option.some.inj hc
        exact hopen
      have hvalue : ∀ w v q, IsValueText cfg cfg.maxDepth w v → EndsValue q →
          parseValue cfg s.curPath cfg.maxDepth (w ++ q) = .ok (v, q) :=
        fun _ _ _ hv hq => value_complete hv hq
      have hread := keyvalGeneral_complete hvalue (fun w v hv => by
        obtain ⟨c, u, ht, hws, -⟩ := isValueText_head hv
        exact ⟨c, u, ht, hws⟩) (.mk hk hlen hw hw' hv hput) hu.endsValue
      rw [if_neg hopen, keyvalLine]
      dsimp only
      rw [parseKeyval_iff.mpr hread]
      dsimp only
      rw [finishLine_complete hu]
      exact ⟨s.curPath, rfl⟩

end Statements

/-! ## Documents -/

section Documents

variable {cfg : Config} {t : Bytes} {xs : List Statement} {d d' : Draft} {s : PState}
  {root : Entries}

lemma build_cons (x : Statement) (xs : List Statement) (d : Draft) :
    build (x :: xs) d = (x.act d).bind (build xs) := rfl

/-- Nothing but the end of a line stands there. -/
lemma blank_front {w c : Bytes} (hw : Toml.IsWs w) (hc : Toml.IsRemark c)
    (h : AtLineEnd (w ++ (c ++ t))) : w = [] ∧ c = [] := by
  have hfirst : ∀ {b : UInt8} {u : Bytes}, b ≠ Ch.lf → b ≠ Ch.cr → ¬ AtLineEnd (b :: u) := by
    rintro b u hlf hcr (h | h)
    · cases h
    · rcases startsNewline_iff.mp h with h | ⟨h, -⟩
      · exact hlf (Option.some.inj h)
      · exact hcr (Option.some.inj h)
  cases w with
  | nil =>
    refine ⟨rfl, hc.resolve_right fun hc => ?_⟩
    obtain ⟨-⟩ := hc
    exact hfirst (by decide) (by decide) h
  | cons b w =>
    have hb : isWs b = true := hw b (by simp)
    refine absurd h (hfirst ?_ ?_)
    · rintro rfl
      exact absurd hb (by decide)
    · rintro rfl
      exact absurd hb (by decide)

/-- White space and a comment in front of the end of a line. -/
lemma isDocument_remark {w c : Bytes} (hw : Toml.IsWs w) (hc : Toml.IsRemark c)
    (ht : Toml.IsDocument (IsStatement cfg) t xs) (hend : AtLineEnd t) :
    Toml.IsDocument (IsStatement cfg) (w ++ (c ++ t)) xs := by
  have hstatement : ∀ {w t u : Bytes} {x : Statement}, Toml.IsWs w → IsStatement cfg t x →
      ¬ AtLineEnd (w ++ (t ++ u)) := by
    intro w t u x hw hx h
    obtain ⟨b, t, rfl, -, hlf, hcr, -⟩ := isStatement_head hx
    obtain ⟨rfl, -⟩ := blank_front (c := []) hw (.inl rfl) h
    rcases h with h | h
    · cases h
    · rcases startsNewline_iff.mp h with h | ⟨h, -⟩
      · exact hlf (Option.some.inj h)
      · exact hcr (Option.some.inj h)
  cases ht with
  | @nil w' c' hw' hc' =>
    rw [← List.append_nil c'] at hend
    obtain ⟨rfl, rfl⟩ := blank_front hw' hc' hend
    rw [List.append_nil, List.append_nil]
    exact .nil hw hc
  | last hw' hx => exact absurd hend (hstatement hw' hx)
  | blank hw' hc' hn hu =>
    obtain ⟨rfl, rfl⟩ := blank_front hw' hc' hend
    simpa only [List.nil_append] using Toml.IsDocument.blank hw hc hn hu
  | line hw' hx => exact absurd hend (hstatement hw' hx)

lemma isDocument_nil (ht : Toml.IsDocument (IsStatement cfg) [] xs) : xs = [] := by
  generalize hnil : ([] : Bytes) = t at ht
  cases ht with
  | nil => rfl
  | last hw hx =>
    obtain ⟨c, u, rfl, -⟩ := isStatement_head hx
    simp at hnil
  | blank hw hc hn => cases hn <;> simp at hnil
  | line hw hx =>
    obtain ⟨c, u, rfl, -⟩ := isStatement_head hx
    simp at hnil

/-- What the line loop reads is a document whose statements make its result. -/
lemma lines_sound (hmax : 8 ≤ cfg.maxDepth) (h : lines cfg s = .ok root) :
    ∃ xs cur, Toml.IsDocument (IsStatement cfg) s.rest xs ∧
      build xs s.draft = some ⟨root, cur⟩ := by
  refine loop_rec (lines_shrinks cfg) (P := fun s x => x = .ok root →
    ∃ xs cur, Toml.IsDocument (IsStatement cfg) s.rest xs ∧
      build xs s.draft = some ⟨root, cur⟩) ?_ ?_ ?_ s h
  · intro s e _ hx
    cases hx
  · intro s b hturn hx
    obtain rfl := Except.ok.inj hx
    obtain ⟨w, hsplit, hw⟩ := skipWs_split s.rest
    rw [lineTurn] at hturn
    split at hturn
    · next hnil =>
      obtain rfl := Turn.stop.inj (Except.ok.inj hturn)
      rw [hnil] at hsplit
      exact ⟨[], s.cur, hsplit ▸ .nil hw (.inl rfl), rfl⟩
    · next c cs hcs =>
      split_ifs at hturn with hlf hcr hnext hhash
      · cases hturn
      · cases hturn
      · exact absurd hturn failAt_ne_ok
      · obtain ⟨r, -, hr⟩ := map_eq_ok_iff.mp hturn
        cases hr
      · obtain ⟨r, -, hr⟩ := map_eq_ok_iff.mp hturn
        cases hr
  · intro s s' x hturn ih hx
    obtain ⟨xs, cur, hdoc, hbuild⟩ := ih hx
    obtain ⟨w, hsplit, hw⟩ := skipWs_split s.rest
    have hhead := skipWs_head s.rest
    rw [lineTurn] at hturn
    split at hturn
    · cases hturn
    next c cs hcs =>
    rw [hcs] at hsplit hhead
    split_ifs at hturn with hlf hcr hnext hhash
    · obtain rfl := Turn.next.inj (Except.ok.inj hturn)
      refine ⟨xs, cur, ?_, hbuild⟩
      rw [hsplit, hlf]
      exact .blank hw (.inl rfl) .lf hdoc
    · obtain rfl := Turn.next.inj (Except.ok.inj hturn)
      refine ⟨xs, cur, ?_, hbuild⟩
      obtain ⟨cs, rfl⟩ := List.head?_eq_some_iff.mp hnext
      rw [hsplit, hcr]
      exact .blank hw (.inl rfl) .crlf hdoc
    · exact absurd hturn failAt_ne_ok
    · obtain ⟨r, hcomment, hr⟩ := map_eq_ok_iff.mp hturn
      obtain rfl := Turn.next.inj hr
      have hopen : (c :: cs).head? = some Ch.hash := congrArg some hhash
      obtain ⟨t, ht, hc, hend⟩ := skipComment_sound hopen hcomment
      refine ⟨xs, cur, ?_, hbuild⟩
      rw [hsplit, ht]
      exact isDocument_remark hw (.inr hc) hdoc hend
    · obtain ⟨r, hread, hr⟩ := map_eq_ok_iff.mp hturn
      obtain rfl := Turn.next.inj hr
      obtain ⟨t, x, u, ht, hx, hu, hact⟩ := statement_sound hmax rfl (hhead c rfl) hread
      obtain ⟨w', c', n, hw', hc', hn, rfl⟩ := hu
      dsimp only at ht
      rw [hsplit, ht]
      rcases hn with hn | ⟨rfl, hnil⟩
      · refine ⟨x :: xs, cur, ?_, ?_⟩
        · simpa only [List.append_assoc] using Toml.IsDocument.line hw hx hw' hc' hn hdoc
        · rw [build_cons]
          exact (congrArg (Option.bind · (build xs)) hact).trans hbuild
      · rw [hnil] at hdoc
        obtain rfl := isDocument_nil hdoc
        refine ⟨[x], cur, ?_, ?_⟩
        · simpa only [hnil, List.append_nil] using Toml.IsDocument.last hw hx hw' hc'
        · rw [build_cons]
          exact (congrArg (Option.bind · (build [])) hact).trans hbuild

/-- A blank line is passed over. -/
lemma lines_blank {w c n : Bytes} (hw : Toml.IsWs w) (hc : Toml.IsRemark c)
    (hn : Toml.IsNewline n) : lines cfg { s with rest := w ++ (c ++ (n ++ t)) } =
      lines cfg { s with rest := t } := by
  have hnewline : lineTurn cfg { s with rest := n ++ t } = .ok (.next { s with rest := t }) := by
    cases hn <;> rfl
  have hskip : ∀ {u : Bytes}, lineTurn cfg { s with rest := w ++ u } =
      lineTurn cfg { s with rest := u } := by
    intro u
    simp only [lineTurn, skipWs_append hw]
  rcases hc with rfl | hc
  · exact lines_next (hskip.trans hnewline)
  · rw [← lines_next hnewline]
    refine lines_next (hskip.trans ?_)
    have hread := skipComment_complete hc (.inr ⟨n, t, hn, rfl⟩)
    obtain ⟨hplain⟩ := hc
    exact map_eq_ok_iff.mpr ⟨_, hread, rfl⟩

/-- A line is read, and its statement acts. -/
lemma lines_statement (hmax : 8 ≤ cfg.maxDepth) {w u q : Bytes} {x : Statement}
    (hw : Toml.IsWs w) (hx : IsStatement cfg t x) (hu : IsLineTail u q)
    (hact : x.act s.draft = some d) :
    ∃ cp, lines cfg { s with rest := w ++ (t ++ (u ++ q)) } =
      lines cfg ⟨q, d.root, d.cur, cp⟩ := by
  obtain ⟨c, t', rfl, hws, hlf, hcr, hhash⟩ := isStatement_head hx
  obtain ⟨cp, hread⟩ := statement_complete hmax hx hu hact rfl
  refine ⟨cp, lines_next ?_⟩
  have hskip : skipWs (w ++ (c :: t' ++ (u ++ q))) = c :: (t' ++ (u ++ q)) := by
    rw [skipWs_append hw, List.cons_append, skipWs_cons _ hws]
  rw [lineTurn]
  dsimp only
  rw [hskip]
  dsimp only
  rw [if_neg hlf, if_neg hcr, if_neg hhash]
  exact map_eq_ok_iff.mpr ⟨_, hread, rfl⟩

/-- A document whose statements can act is read. -/
lemma lines_complete (hmax : 8 ≤ cfg.maxDepth) (ht : Toml.IsDocument (IsStatement cfg) t xs)
    (hbuild : build xs d = some d') (cp : Bytes) :
    lines cfg ⟨t, d.root, d.cur, cp⟩ = .ok d'.root := by
  have hend : ∀ {w c : Bytes} {d : Draft} {cp : Bytes}, Toml.IsWs w → Toml.IsRemark c →
      lines cfg ⟨w ++ c, d.root, d.cur, cp⟩ = .ok d.root := by
    intro w c d cp hw hc
    have hstop : lineTurn cfg ⟨[], d.root, d.cur, cp⟩ = .ok (.stop d.root) := rfl
    have hskip : lineTurn cfg ⟨w ++ c, d.root, d.cur, cp⟩ =
        lineTurn cfg ⟨c, d.root, d.cur, cp⟩ := by
      simp only [lineTurn, skipWs_append hw]
    rcases hc with rfl | hc
    · exact loop_stop (hskip.trans hstop)
    · have hread := skipComment_complete hc (.inl rfl)
      rw [List.append_nil] at hread
      obtain ⟨hplain⟩ := hc
      have hnext := hskip.trans (map_eq_ok_iff.mpr ⟨_, hread, rfl⟩)
      rw [lines_next hnext]
      exact loop_stop hstop
  have hact : ∀ {x : Statement} {xs : List Statement} {d : Draft}, build (x :: xs) d = some d' →
      ∃ d₁, x.act d = some d₁ ∧ build xs d₁ = some d' := by
    intro x xs d h
    exact Option.bind_eq_some_iff.mp h
  induction ht generalizing d cp with
  | nil hw hc =>
    obtain rfl := Option.some.inj hbuild
    exact hend hw hc
  | @last w t w' c x hw hx hw' hc =>
    obtain ⟨d₁, hx', hrest⟩ := hact hbuild
    obtain rfl := Option.some.inj hrest
    obtain ⟨cp', hread⟩ := lines_statement (s := ⟨[], d.root, d.cur, cp⟩) hmax hw hx
      ⟨w', c, [], hw', hc, .inr ⟨rfl, rfl⟩, rfl⟩ hx'
    simp only [List.append_nil] at hread
    rw [hread]
    exact hend (w := []) .nil (.inl rfl)
  | blank hw hc hn hu ih =>
    rw [← ih hbuild cp]
    exact lines_blank (s := ⟨[], d.root, d.cur, cp⟩) hw hc hn
  | line hw hx hw' hc hn hu ih =>
    obtain ⟨d₁, hx', hrest⟩ := hact hbuild
    obtain ⟨cp', hread⟩ := lines_statement (s := ⟨[], d.root, d.cur, cp⟩) hmax hw hx
      ⟨_, _, _, hw', hc, .inl hn, rfl⟩ hx'
    simp only [List.append_assoc] at hread
    rw [hread]
    exact ih hrest cp'

/-- What `parser_run` reads are the documents whose statements can act from the empty tree. -/
lemma parserRun_iff (hmax : 8 ≤ cfg.maxDepth) {data : Bytes} :
    parserRun cfg data = .ok root ↔ Utf8.Valid data ∧ ∃ xs cur,
      Toml.IsDocument (IsStatement cfg) (skipBom data) xs ∧
        build xs .empty = some ⟨root, cur⟩ := by
  rw [parserRun]
  constructor
  · intro hrun
    cases hvalid : validateUtf8 data with
    | error e =>
      rw [hvalid] at hrun
      cases hrun
    | ok u =>
      rw [hvalid] at hrun
      exact ⟨(validateUtf8_iff data).mp hvalid, lines_sound hmax hrun⟩
  · rintro ⟨hvalid, xs, cur, hdoc, hbuild⟩
    rw [(validateUtf8_iff data).mpr hvalid]
    exact lines_complete hmax hdoc hbuild []

end Documents

end Teptris
