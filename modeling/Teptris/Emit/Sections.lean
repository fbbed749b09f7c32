import Teptris.Emit.Agreement
import Teptris.Emit.Reread
import Teptris.Parse.HeaderDepth

/-!
# Sections read back

`emit_table_children` against the line loop: the values of a table are read as lines of the open
table, its sections as headers with what stands under them.  `Focus` says where in the tree the
open table is; `rereadEntries` is what a table is read as.
-/

namespace Teptris

open Loop Writer

/-! ## What is read back -/

/-- The values of a table as they are read back. -/
def linesReread (es : Entries) : Entries :=
  (es.filter fun e => !isSection e.2).map fun e => (e.1, e.2.asValue)

mutual

/-- A section as it is read back: every table is named by a header. -/
def Node.asSection : Node → Node
  | .array _ items => .array true (elementsReread items)
  | .table _ es => .table .explicit (linesReread es ++ sectionsReread es)
  | .string s => .string s
  | .integer i => .integer i
  | .float f => .float f
  | .boolean b => .boolean b
  | .datetime kind dt => .datetime kind dt

/-- The elements of an array of tables as they are read back. -/
def elementsReread : List Node → List Node
  | [] => []
  | .table _ es :: ts =>
    .table .explicit (linesReread es ++ sectionsReread es) :: elementsReread ts
  | _ :: ts => .table .explicit [] :: elementsReread ts

/-- The sections of a table as they are read back. -/
def sectionsReread : List (Key × Node) → List (Key × Node)
  | [] => []
  | (k, v) :: es => if isSection v then (k, v.asSection) :: sectionsReread es else sectionsReread es

end

/-- The entries of a table as they are read back: the values, and then the sections. -/
def rereadEntries (es : Entries) : Entries := linesReread es ++ sectionsReread es

/-! ## What the depth limit allows -/

mutual

/-- The headers of a section, under a header of that many parts, have at most `maxDepth` parts,
and its values nest at most that deep. -/
def Node.Nests (maxDepth : ℕ) : ℕ → Node → Prop
  | len, .array _ items => len + 1 ≤ maxDepth ∧ itemsNest maxDepth (len + 1) items
  | len, .table _ es => len + 1 ≤ maxDepth ∧ entriesNest maxDepth (len + 1) es
  | _, _ => True

/-- What stands under the headers of an array of tables. -/
def itemsNest (maxDepth : ℕ) : ℕ → List Node → Prop
  | _, [] => True
  | len, .table _ es :: vs => entriesNest maxDepth len es ∧ itemsNest maxDepth len vs
  | len, _ :: vs => itemsNest maxDepth len vs

/-- What stands under a header of that many parts. -/
def entriesNest (maxDepth : ℕ) : ℕ → List (Key × Node) → Prop
  | _, [] => True
  | len, (_, v) :: es =>
    (if isSection v then v.Nests maxDepth len else v.height ≤ maxDepth) ∧
      entriesNest maxDepth len es

end

/-- The text of a document is within the limit. -/
def Node.TextNests (maxDepth : ℕ) : Node → Prop
  | .table _ es => entriesNest maxDepth 0 es
  | _ => True

/-- The values of a table are within the limit. -/
def LinesNest (maxDepth : ℕ) (es : Entries) : Prop :=
  ∀ e ∈ es, isSection e.2 = false → e.2.height ≤ maxDepth

/-- The sections of a table are within the limit. -/
def SectionsNest (maxDepth len : ℕ) (es : Entries) : Prop :=
  ∀ e ∈ es, isSection e.2 = true → e.2.Nests maxDepth len

lemma entriesNest_iff {maxDepth len : ℕ} {es : Entries} :
    entriesNest maxDepth len es ↔ LinesNest maxDepth es ∧ SectionsNest maxDepth len es := by
  induction es with
  | nil => simp [entriesNest, LinesNest, SectionsNest]
  | cons e es ih =>
    obtain ⟨k, v⟩ := e
    rw [entriesNest, ih]
    simp only [LinesNest, SectionsNest, List.forall_mem_cons]
    cases isSection v <;> simp <;> tauto

lemma itemsNest_tables {maxDepth len : ℕ} {ts : List Entries} :
    itemsNest maxDepth len (ts.map (.table .explicit)) ↔
      ∀ es ∈ ts, entriesNest maxDepth len es := by
  induction ts with
  | nil => simp [itemsNest]
  | cons es ts ih => simp only [List.map_cons, itemsNest, ih, List.forall_mem_cons]

mutual

/-- A tree that is low enough is within the limit. -/
lemma Node.nests_of_height {maxDepth : ℕ} : ∀ {len : ℕ} {v : Node}, len + v.height ≤ maxDepth →
    v.Nests maxDepth len
  | len, .array _ items, h => by
    rw [Node.height] at h
    exact ⟨by omega, itemsNest_of_height (by omega)⟩
  | len, .table _ es, h => by
    rw [Node.height] at h
    exact ⟨by omega, entriesNest_of_height (by omega)⟩
  | _, .string _, _ | _, .integer _, _ | _, .float _, _ | _, .boolean _, _
  | _, .datetime _ _, _ => trivial

lemma itemsNest_of_height {maxDepth : ℕ} : ∀ {len : ℕ} {vs : List Node},
    len + itemsHeight vs ≤ maxDepth → itemsNest maxDepth len vs
  | _, [], _ => trivial
  | _, .table _ es :: vs, h => by
    rw [itemsHeight, Node.height] at h
    exact ⟨entriesNest_of_height (by omega), itemsNest_of_height (by omega)⟩
  | _, .string _ :: vs, h | _, .integer _ :: vs, h | _, .float _ :: vs, h
  | _, .boolean _ :: vs, h | _, .datetime _ _ :: vs, h | _, .array _ _ :: vs, h => by
    rw [itemsHeight] at h
    exact @itemsNest_of_height _ _ vs (by omega)

lemma entriesNest_of_height {maxDepth : ℕ} : ∀ {len : ℕ} {es : List (Key × Node)},
    len + entriesHeight es ≤ maxDepth → entriesNest maxDepth len es
  | _, [], _ => trivial
  | _, (_, v) :: es, h => by
    rw [entriesHeight] at h
    refine ⟨?_, entriesNest_of_height (by omega)⟩
    split_ifs
    · exact Node.nests_of_height (by omega)
    · omega

end

/-! ## Places in a tree -/

/-- A place in a tree: the path `cur` leads to a table, whose entries `put` fills in. -/
structure Focus (cur : List Key) (put : Entries → Entries) : Prop where
  /-- The path leads to the entries. -/
  entriesAt (ks : List Key) (es : Entries) : entriesAt (cur ++ ks) (put es) = entriesAt ks es
  /-- Entries below the table are set in the table. -/
  setEntriesAt (new : Entries) (ks : List Key) (es : Entries) :
    setEntriesAt new (cur ++ ks) (put es) = put (setEntriesAt new ks es)
  /-- Headers below the table are resolved in the table. -/
  resolve {pos : Bytes} {aot : Bool} {last : Key} {ks : List Key} {es es' : Entries}
    (h : resolveHeader pos aot last ks es = .ok es') :
    resolveHeader pos aot last (cur ++ ks) (put es) = .ok (put es')

lemma Focus.root : Focus [] id where
  entriesAt _ _ := rfl
  setEntriesAt _ _ _ := rfl
  resolve h := h

section Insert

variable {k : Key} {v w : Node} {t : Entries}

lemma setValue_insert (h : probe k t = none) : setValue k w (insert t k v) = insert t k w := by
  induction t with
  | nil => simp [insert, setValue]
  | cons e t ih =>
    obtain ⟨l, u⟩ := e
    rw [probe_cons] at h
    split_ifs at h with hl
    have htail : setValue k w (t ++ [(k, v)]) = t ++ [(k, w)] := ih h
    simp [insert, setValue, hl, htail]

variable {cur : List Key} {put : Entries → Entries}

/-- The place of a table in a table. -/
lemma Focus.table (h : Focus cur put) (hk : probe k t = none) :
    Focus (cur ++ [k]) (fun es => put (insert t k (.table .explicit es))) where
  entriesAt ks es := by
    rw [List.append_assoc, h.entriesAt, List.singleton_append, Teptris.entriesAt,
      probe_insert_self hk]
  setEntriesAt new ks es := by
    rw [List.append_assoc, h.setEntriesAt, List.singleton_append, Teptris.setEntriesAt,
      probe_insert_self hk]
    simp only [setValue_insert hk]
  resolve := by
    intro pos aot last ks es es' hres
    rw [List.append_assoc, List.singleton_append]
    refine h.resolve ?_
    rw [resolveHeader, probe_insert_self hk]
    simp only [hres, setValue_insert hk]
    rfl

/-- The place of the last element of an array of tables in a table. -/
lemma Focus.element (h : Focus cur put) (hk : probe k t = none) (done : List Node) :
    Focus (cur ++ [k])
      (fun es => put (insert t k (.array true (done ++ [.table .explicit es])))) where
  entriesAt ks es := by
    rw [List.append_assoc, h.entriesAt, List.singleton_append, Teptris.entriesAt,
      probe_insert_self hk]
    simp only [List.getLast?_append, List.getLast?_singleton, Option.some_or]
  setEntriesAt new ks es := by
    rw [List.append_assoc, h.setEntriesAt, List.singleton_append, Teptris.setEntriesAt,
      probe_insert_self hk]
    simp only [List.getLast?_append, List.getLast?_singleton, Option.some_or, setValue_insert hk,
      List.dropLast_concat]
  resolve := by
    intro pos aot last ks es es' hres
    rw [List.append_assoc, List.singleton_append]
    refine h.resolve ?_
    rw [resolveHeader, probe_insert_self hk]
    simp only [Bool.not_true, Bool.false_eq_true, if_false, List.getLast?_append,
      List.getLast?_singleton, Option.some_or, hres, setValue_insert hk, List.dropLast_concat]

end Insert

/-! ## Lines -/

section Lines

variable {cfg : Config} {cur c : List Key} {put : Entries → Entries} {cp : Bytes}

/-- A turn that fails ends the loop. -/
lemma lines_error {s : PState} {e : Diag} (h : lineTurn cfg s = .error e) (es : Entries) :
    lines cfg s ≠ .ok es := by
  rw [lines, loop_error h]
  exact fun h => by cases h

/-- A statement at a solid byte that is not accepted. -/
lemma lines_rejected {s : PState} {b : UInt8} (hrest : ∃ cs, s.rest = b :: cs) (hb : IsSolid b)
    (h : ∀ s', (if b = Ch.lbrack then headerLine cfg s else keyvalLine cfg s) ≠ .ok s')
    (es : Entries) : lines cfg s ≠ .ok es := by
  obtain ⟨cs, hrest⟩ := hrest
  have hs : { s with rest := b :: cs } = s := by rw [← hrest]
  cases hline : (if b = Ch.lbrack then headerLine cfg s else keyvalLine cfg s) with
  | ok s' => exact absurd hline (h s')
  | error e =>
    refine lines_error (e := e) ?_ es
    rw [lineTurn, hrest, skipWs_cons cs hb.1]
    simp only [if_neg hb.2.1, if_neg hb.2.2.1, if_neg hb.2.2.2, hs, statement, hline]
    rfl

/-- A statement at a solid byte, up to the end of its line. -/
lemma lineTurn_statement {s s' : PState} {b : UInt8} {q : Bytes} (hrest : ∃ cs, s.rest = b :: cs)
    (hb : IsSolid b)
    (h : (if b = Ch.lbrack then headerLine cfg s else keyvalLine cfg s) = .ok s')
    (hq : s'.rest = Ch.lf :: q) : lineTurn cfg s = .ok (.next { s' with rest := q }) := by
  obtain ⟨cs, hrest⟩ := hrest
  have hs : { s with rest := b :: cs } = s := by rw [← hrest]
  have hfinish : finishLine (Ch.lf :: q) = .ok q := rfl
  rw [lineTurn, hrest, skipWs_cons cs hb.1]
  simp only [if_neg hb.2.1, if_neg hb.2.2.1, if_neg hb.2.2.2, hs, statement, h, hq, hfinish]
  rfl

/-- The line of a value is read into the open table. -/
lemma lines_pair (hfocus : Focus cur put) {e : Key × Node} (hv : IsValue e.2)
    (hdel : Ch.del ∉ e.1.bytes) (hreads : e.2.Reads cfg.fc) (hheight : e.2.height ≤ cfg.maxDepth)
    {t : Entries} (hnew : probe e.1 t = none) (q : Bytes) :
    lines cfg ⟨pairText cfg.fc e ++ [Ch.lf] ++ q, put t, cur, cp⟩ =
      lines cfg ⟨q, put (insert t e.1 e.2.asValue), cur, cp⟩ := by
  obtain ⟨b, cs, hkey, hsolid, -, -, hopen⟩ := emitKey_head hdel
  have hentries : entriesAt cur (put t) = t := by
    have := hfocus.entriesAt [] t
    rwa [List.append_nil] at this
  have hset : setEntriesAt (insert t e.1 e.2.asValue) cur (put t) =
      put (insert t e.1 e.2.asValue) := by
    have := hfocus.setEntriesAt (insert t e.1 e.2.asValue) [] t
    rwa [List.append_nil] at this
  have hread : parseKeyval cfg cp t (pairText cfg.fc e ++ [Ch.lf] ++ q) =
      .ok (insert t e.1 e.2.asValue, Ch.lf :: q) := by
    refine ok_of_placed ?_
    rw [parseKeyval, parseValueFast_eq, placed_keyval cfg.maxDepth_pos, List.append_assoc]
    have hends : Ends (Ch.lf :: q) := by
      intro d hd
      obtain rfl := Option.some.inj hd
      exact .inl rfl
    have hpair := keyvalGeneral_text cfg.maxDepth_pos
      (fun _ _ => parseValue_head) hdel (parseValue_emit cfg cp hv hreads hheight) hnew hends
    exact congrArg placed hpair
  refine lines_next (@lineTurn_statement cfg _ ⟨Ch.lf :: q, put (insert t e.1 e.2.asValue), cur, cp⟩
    b q ?_ hsolid ?_ rfl)
  · exact ⟨_, by simp only [pairText, hkey]; rfl⟩
  · rw [if_neg hopen, keyvalLine]
    simp only [hentries, hread, hset]

/-- The line of a value that nests too deep is not accepted. -/
lemma lines_pair_deep (hfocus : Focus cur put) {e : Key × Node} (hv : IsValue e.2)
    (hdel : Ch.del ∉ e.1.bytes) (hreads : e.2.Reads cfg.fc) (hdeep : cfg.maxDepth < e.2.height)
    (t : Entries) (q : Bytes) (es : Entries) :
    lines cfg ⟨pairText cfg.fc e ++ [Ch.lf] ++ q, put t, cur, cp⟩ ≠ .ok es := by
  obtain ⟨b, cs, hkey, hsolid, -, -, hopen⟩ := emitKey_head hdel
  have hentries : entriesAt cur (put t) = t := by
    have := hfocus.entriesAt [] t
    rwa [List.append_nil] at this
  have hread : ∀ x, parseKeyval cfg cp t (pairText cfg.fc e ++ [Ch.lf] ++ q) ≠ .ok x := by
    intro x hx
    have hplaced := @placed_keyval cp cfg.maxDepth cfg.maxDepth_pos
      (parseValue cfg cp cfg.maxDepth) t (pairText cfg.fc e ++ [Ch.lf] ++ q)
    rw [parseKeyval, parseValueFast_eq] at hx
    rw [hx, List.append_assoc] at hplaced
    have hends : Ends (Ch.lf :: q) := by
      intro d hd
      obtain rfl := Option.some.inj hd
      exact .inl rfl
    exact keyvalGeneral_stuck cfg.maxDepth_pos hdel (Nat.lt_of_le_of_lt (Nat.zero_le _) hdeep)
      (parseValue_deep cfg cp hv hreads hdeep) t hends x (ok_of_placed hplaced.symm)
  refine lines_rejected (b := b) ⟨_, by simp only [pairText, hkey]; rfl⟩ hsolid (fun s' => ?_) es
  rw [if_neg hopen, keyvalLine]
  simp only [hentries]
  split
  · exact fun h => by cases h
  next t' r ht => exact absurd ht (hread (t', r))

/-- The lines of a table are read into the open table, and where one of them nests too deep, the
document is not accepted. -/
lemma lines_emitLines (hfocus : Focus cur put) {es : Entries} (hnodup : (es.map Prod.fst).Nodup)
    (hes : ∀ e ∈ es, isSection e.2 = false → IsValue e.2)
    (hreads : entriesAll (fun k => Ch.del ∉ k) (Node.ScalarReads cfg.fc) es) {t : Entries}
    (hnew : ∀ e ∈ es, probe e.1 t = none) (q : Bytes) :
    (LinesNest cfg.maxDepth es → lines cfg ⟨emitLines cfg.fc es ++ q, put t, cur, cp⟩ =
      lines cfg ⟨q, put (t ++ linesReread es), cur, cp⟩) ∧
    (¬ LinesNest cfg.maxDepth es → ∀ fs,
      lines cfg ⟨emitLines cfg.fc es ++ q, put t, cur, cp⟩ ≠ .ok fs) := by
  induction es generalizing t with
  | nil =>
    exact ⟨fun _ => by simp [emitLines, linesReread], fun h => absurd (by simp [LinesNest]) h⟩
  | cons e es ih =>
    rw [List.map_cons, List.nodup_cons] at hnodup
    have hall := entriesAll_iff.mp hreads
    have htail : entriesAll (fun k => Ch.del ∉ k) (Node.ScalarReads cfg.fc) es :=
      entriesAll_iff.mpr fun f hf => hall f (by simp [hf])
    have hih := @ih hnodup.2 (fun f hf => hes f (by simp [hf])) htail
    cases hsec : isSection e.2 with
    | true =>
      have hskip : emitLines cfg.fc (e :: es) = emitLines cfg.fc es := by simp [emitLines, hsec]
      have hreread : linesReread (e :: es) = linesReread es := by simp [linesReread, hsec]
      have hsame : LinesNest cfg.maxDepth (e :: es) ↔ LinesNest cfg.maxDepth es := by
        simp [LinesNest, hsec]
      rw [hskip, hreread, hsame]
      exact hih fun f hf => hnew f (by simp [hf])
    | false =>
      have htext : emitLines cfg.fc (e :: es) ++ q =
          pairText cfg.fc e ++ [Ch.lf] ++ (emitLines cfg.fc es ++ q) := by
        simp [emitLines, hsec, pairText]
      have hreread : t ++ linesReread (e :: es) =
          insert t e.1 e.2.asValue ++ linesReread es := by
        simp [linesReread, hsec, insert]
      have hvalue := hes e (by simp) hsec
      obtain ⟨hdel, hread⟩ := hall e (by simp)
      have hcons : LinesNest cfg.maxDepth (e :: es) ↔
          e.2.height ≤ cfg.maxDepth ∧ LinesNest cfg.maxDepth es := by simp [LinesNest, hsec]
      rw [htext, hreread, hcons]
      by_cases hheight : e.2.height ≤ cfg.maxDepth
      · rw [lines_pair hfocus hvalue hdel hread hheight (hnew e (by simp))]
        simp only [hheight, true_and]
        refine hih fun f hf => ?_
        rw [probe_insert_ne, hnew f (by simp [hf])]
        rintro heq
        exact hnodup.1 (List.mem_map.mpr ⟨f, hf, heq.symm⟩)
      · exact ⟨fun h => absurd h.1 hheight, fun _ => lines_pair_deep hfocus hvalue hdel hread
          (Nat.not_le.mp hheight) t _⟩

end Lines

/-! ## Headers -/

section Headers

variable {cfg : Config}

/-- The keys of a header path. -/
def pathText (ks : List Key) : Bytes := joinKeys (ks.map Key.bytes)

lemma pathText_snoc (ks : List Key) (k : Key) :
    pathText (ks ++ [k]) = headerPath (pathText ks) k.bytes := by
  rw [pathText, List.map_append, List.map_singleton, joinKeys_snoc, pathText]

lemma pathText_cons (k : Key) {ks : List Key} (hks : ks ≠ []) :
    pathText (k :: ks) = emitKey k.bytes ++ Ch.dot :: pathText ks := by
  obtain ⟨l, ks, rfl⟩ := List.exists_cons_of_ne_nil hks
  simp [pathText, joinKeys, List.intercalate]

/-- The path of a header is read back, up to its bracket. -/
lemma parseKeyPath_pathText {maxDepth : ℕ} {ks : List Key} {k : Key}
    (hdel : ∀ l ∈ ks ++ [k], Ch.del ∉ l.bytes) {acc : List Key}
    (hdepth : acc.length + ks.length + 1 ≤ maxDepth) (q : Bytes) :
    loop (keyPathTurn maxDepth) Diag.stuck (fun s => s.2.length)
      (acc, pathText (ks ++ [k]) ++ Ch.rbrack :: q) = .ok (⟨acc ++ ks, k⟩, Ch.rbrack :: q) := by
  induction ks generalizing acc with
  | nil =>
    have htext : pathText ([] ++ [k]) = emitKey k.bytes := by
      simp [pathText, joinKeys]
    have hws : skipWs (Ch.rbrack :: q) = Ch.rbrack :: q := skipWs_cons _ (by decide)
    refine loop_stop ?_
    rw [htext, keyPathTurn_emit (hdel k (by simp)) (by simpa using hdepth) (by simp; decide), hws,
      if_neg (by simp; decide), List.append_nil, Key.ofBytes_self]
  | cons l ks ih =>
    have htext : pathText (l :: ks ++ [k]) ++ Ch.rbrack :: q =
        emitKey l.bytes ++ Ch.dot :: (pathText (ks ++ [k]) ++ Ch.rbrack :: q) := by
      rw [List.cons_append, pathText_cons l (by simp), List.append_assoc, List.cons_append]
    rw [List.length_cons] at hdepth
    have hturn : keyPathTurn maxDepth (acc, pathText (l :: ks ++ [k]) ++ Ch.rbrack :: q) =
        .ok (.next (acc ++ [l], pathText (ks ++ [k]) ++ Ch.rbrack :: q)) := by
      rw [htext, keyPathTurn_emit (hdel l (by simp)) (by omega) (by simp; decide),
        skipWs_cons _ (by decide), List.head?_cons, if_pos rfl, Key.ofBytes_self]
      rfl
    rw [loop_next (keyPath_shrinks maxDepth) hturn,
      ih (fun m hm => hdel m (by simp only [List.cons_append, List.mem_cons]; exact .inr hm))
        (by rw [List.length_append, List.length_singleton]; omega)]
    simp

/-- A header path with too many parts is not accepted. -/
lemma parseKeyPath_deep {maxDepth : ℕ} {ks : List Key} {k : Key}
    (hdel : ∀ l ∈ ks ++ [k], Ch.del ∉ l.bytes) {acc : List Key}
    (hdeep : maxDepth < acc.length + ks.length + 1) (q : Bytes) (x : KeyPath × Bytes) :
    loop (keyPathTurn maxDepth) Diag.stuck (fun s => s.2.length)
      (acc, pathText (ks ++ [k]) ++ Ch.rbrack :: q) ≠ .ok x := by
  have hfail : ∀ {acc : List Key} {l : Key} {r : Bytes}, Ch.del ∉ l.bytes →
      maxDepth < acc.length + 1 → (∀ c ∈ r.head?, isBareKey c = false) →
      loop (keyPathTurn maxDepth) Diag.stuck (fun s => s.2.length) (acc, emitKey l.bytes ++ r) ≠
        .ok x := by
    intro acc l r hl hlt hr
    rw [loop_error (keyPathTurn_deep hl hlt hr)]
    exact fun h => by cases h
  induction ks generalizing acc with
  | nil =>
    have htext : pathText ([] ++ [k]) = emitKey k.bytes := by
      simp [pathText, joinKeys]
    rw [htext]
    exact hfail (hdel k (by simp)) (by simpa using hdeep) (by simp; decide)
  | cons l ks ih =>
    have htext : pathText (l :: ks ++ [k]) ++ Ch.rbrack :: q =
        emitKey l.bytes ++ Ch.dot :: (pathText (ks ++ [k]) ++ Ch.rbrack :: q) := by
      rw [List.cons_append, pathText_cons l (by simp), List.append_assoc, List.cons_append]
    rw [List.length_cons] at hdeep
    by_cases hlt : maxDepth < acc.length + 1
    · rw [htext]
      exact hfail (hdel l (by simp)) hlt (by simp; decide)
    · have hturn : keyPathTurn maxDepth (acc, pathText (l :: ks ++ [k]) ++ Ch.rbrack :: q) =
          .ok (.next (acc ++ [l], pathText (ks ++ [k]) ++ Ch.rbrack :: q)) := by
        rw [htext, keyPathTurn_emit (hdel l (by simp)) (Nat.not_lt.mp hlt) (by simp; decide),
          skipWs_cons _ (by decide), List.head?_cons, if_pos rfl, Key.ofBytes_self]
        rfl
      rw [loop_next (keyPath_shrinks maxDepth) hturn]
      exact ih (fun m hm => hdel m (by simp only [List.cons_append, List.mem_cons]; exact .inr hm))
        (by rw [List.length_append, List.length_singleton]; omega)

/-- A header path starts with a solid byte that opens nothing. -/
lemma pathText_head {ks : List Key} {k : Key} (hdel : ∀ l ∈ ks ++ [k], Ch.del ∉ l.bytes) :
    ∃ b bs, pathText (ks ++ [k]) = b :: bs ∧ IsSolid b ∧ b ≠ Ch.lbrack := by
  cases ks with
  | nil =>
    obtain ⟨b, bs, htext, hsolid, -, -, hopen⟩ := emitKey_head (hdel k (by simp))
    exact ⟨b, bs, by simpa [pathText, joinKeys] using htext, hsolid, hopen⟩
  | cons l ks =>
    obtain ⟨b, bs, htext, hsolid, -, -, hopen⟩ := emitKey_head (hdel l (by simp))
    exact ⟨b, _, by rw [List.cons_append, pathText_cons l (by simp), htext]; rfl, hsolid, hopen⟩

/-- The text of a header line. -/
def headerText (aot : Bool) (ks : List Key) (q : Bytes) : Bytes :=
  Ch.lbrack :: ((if aot then [Ch.lbrack] else []) ++ (pathText ks ++
    Ch.rbrack :: ((if aot then [Ch.rbrack] else []) ++ Ch.lf :: q)))

/-- `parse_header` reads the path of a header line first. -/
lemma parseHeader_text {c : List Key} {t : Entries} {cp : Bytes} (aot : Bool) {ks : List Key}
    {k : Key} (hdel : ∀ l ∈ ks ++ [k], Ch.del ∉ l.bytes) (q : Bytes) :
    ∃ hstart, parseHeader cfg ⟨headerText aot (ks ++ [k]) q, t, c, cp⟩ =
      match parseKeyPath cfg.maxDepth (pathText (ks ++ [k]) ++
        Ch.rbrack :: ((if aot then [Ch.rbrack] else []) ++ Ch.lf :: q)) with
      | .error e => .error e
      | .ok (path, r) =>
        match closeHeader aot (skipWs r) with
        | .error e => .error e
        | .ok r' =>
          match resolveHeader r' aot path.last path.parents t with
          | .error e => .error e
          | .ok root => .ok ⟨r', root, path.parts,
            List.take (hstart.length - (skipWs r).length) hstart⟩ := by
  obtain ⟨b, bs, hhead, hsolid, hopen⟩ := pathText_head hdel
  have hstart : ∀ q, skipWs (pathText (ks ++ [k]) ++ q) = pathText (ks ++ [k]) ++ q := by
    intro q
    rw [hhead, List.cons_append, skipWs_cons _ hsolid.1]
  refine ⟨pathText (ks ++ [k]) ++
    Ch.rbrack :: ((if aot then [Ch.rbrack] else []) ++ Ch.lf :: q), ?_⟩
  cases aot with
  | false =>
    have hsingle : decide ((pathText (ks ++ [k]) ++ Ch.rbrack :: Ch.lf :: q).head? =
        some Ch.lbrack) = false := by
      simpa [hhead] using hopen
    simp only [parseHeader, headerText, List.drop_succ_cons, List.drop_zero, Bool.false_eq_true,
      if_false, List.nil_append, hsingle, hstart] <;> rfl
  | true =>
    simp only [parseHeader, headerText, List.drop_succ_cons, List.drop_zero, if_true,
      List.singleton_append, List.head?_cons, decide_true, hstart] <;> rfl

/-- The line of a header opens the table at the end of its path, and a header with too many parts
is not accepted. -/
lemma lines_header {cur c : List Key} {put : Entries → Entries} {cp : Bytes}
    (hmax : 8 ≤ cfg.maxDepth) (hfocus : Focus cur put) {aot : Bool} {k : Key}
    (hdel : ∀ l ∈ cur ++ [k], Ch.del ∉ l.bytes) {t t' : Entries}
    (hlast : ∀ pos, resolveLast pos aot k t = .ok t') (q : Bytes) :
    (cur.length + 1 ≤ cfg.maxDepth → ∃ cp',
      lines cfg ⟨headerText aot (cur ++ [k]) q, put t, c, cp⟩ =
        lines cfg ⟨q, put t', cur ++ [k], cp'⟩) ∧
    (¬ cur.length + 1 ≤ cfg.maxDepth → ∀ es,
      lines cfg ⟨headerText aot (cur ++ [k]) q, put t, c, cp⟩ ≠ .ok es) := by
  obtain ⟨hstart, hheader⟩ := @parseHeader_text cfg c (put t) cp aot cur k hdel q
  constructor
  · intro hdepth
    have hpath := @parseKeyPath_pathText cfg.maxDepth cur k hdel [] (by simpa using hdepth)
      ((if aot then [Ch.rbrack] else []) ++ Ch.lf :: q)
    have hresolve : ∀ pos, resolveHeader pos aot k cur (put t) = .ok (put t') := by
      intro pos
      have := @Focus.resolve cur put hfocus pos aot k [] t t' (hlast pos)
      rwa [List.append_nil] at this
    have hclose : closeHeader aot (skipWs (Ch.rbrack ::
        ((if aot then [Ch.rbrack] else []) ++ Ch.lf :: q))) = .ok (Ch.lf :: q) := by
      rw [skipWs_cons _ (by decide)]
      cases aot <;> rfl
    rw [parseKeyPath, hpath] at hheader
    dsimp only at hheader
    rw [hclose] at hheader
    dsimp only at hheader
    rw [List.nil_append, hresolve] at hheader
    obtain ⟨cp', hread⟩ : ∃ cp', parseHeader cfg ⟨headerText aot (cur ++ [k]) q, put t, c, cp⟩ =
        .ok ⟨Ch.lf :: q, put t', cur ++ [k], cp'⟩ := ⟨_, hheader⟩
    refine ⟨cp', lines_next (@lineTurn_statement cfg _ ⟨Ch.lf :: q, put t', cur ++ [k], cp'⟩
      Ch.lbrack q ⟨_, rfl⟩ (by decide) ?_ rfl)⟩
    rw [if_pos rfl, headerLine_eq hmax, hread]
  · intro hdeep es
    refine lines_rejected (b := Ch.lbrack) ⟨_, rfl⟩ (by decide) (fun s' => ?_) es
    rw [if_pos rfl, headerLine_eq hmax, hheader]
    split
    · exact fun h => by cases h
    next path r hpath =>
      exact absurd hpath (parseKeyPath_deep hdel (by simpa using Nat.not_le.mp hdeep) _ _)

end Headers

/-! ## Sections -/

section Sections

variable {cfg : Config}

/-- A value of a table that renders as one is no section. -/
lemma IsValue.not_section {v : Node} (h : IsValue v) (hflag : ∀ es, v ≠ .table .dotted es) :
    isSection v = false := by
  cases h with
  | table hor => 
    rcases hor with rfl | rfl
    · rfl
    · exact absurd rfl (hflag _)
  | _ => rfl

/-- The members of a table that are no sections are values. -/
lemma IsEntry.isValue {v : Node} (h : IsEntry v) (hsec : isSection v = false) : IsValue v := by
  cases h with
  | value h _ => exact h
  | table hflag => simp [isSection, hflag] at hsec
  | aot => simp [isSection] at hsec

/-- From a state the loop goes on to a later one where the limit allows it, and accepts nothing
where it does not. -/
structure Goes (cfg : Config) (s : PState) (fits : Prop) (q : Bytes) (root : Entries) : Prop where
  /-- Within the limit. -/
  next (h : fits) : ∃ c cp, lines cfg s = lines cfg ⟨q, root, c, cp⟩
  /-- Beyond it. -/
  stuck (h : ¬ fits) (es : Entries) : lines cfg s ≠ .ok es

lemma Goes.of_eq {s s' : PState} {fits : Prop} {q : Bytes} {root : Entries}
    (h : lines cfg s = lines cfg s') (hs : Goes cfg s' fits q root) : Goes cfg s fits q root :=
  ⟨fun hfits => h ▸ hs.next hfits, fun hfits => h ▸ hs.stuck hfits⟩

/-- Two stretches of the text, one after the other. -/
lemma Goes.seq {s : PState} {fits fits' : Prop} {q q' : Bytes} {root root' : Entries}
    (h : Goes cfg s fits q root)
    (h' : fits → ∀ c cp, Goes cfg ⟨q, root, c, cp⟩ fits' q' root') :
    Goes cfg s (fits ∧ fits') q' root' := by
  constructor
  · rintro ⟨hfits, hfits'⟩
    obtain ⟨c, cp, heq⟩ := h.next hfits
    rw [heq]
    exact (h' hfits c cp).next hfits'
  · intro hnot es
    by_cases hfits : fits
    · obtain ⟨c, cp, heq⟩ := h.next hfits
      rw [heq]
      exact (h' hfits c cp).stuck (fun hfits' => hnot ⟨hfits, hfits'⟩) es
    · exact h.stuck hfits es

/-- A section under a key that is new in the table at a place is read into that table. -/
def ReadsSection (cfg : Config) (v : Node) : Prop :=
  ∀ (cur c : List Key) (put : Entries → Entries) (cp : Bytes) (k : Key) (t : Entries),
    Focus cur put → (∀ l ∈ cur ++ [k], Ch.del ∉ l.bytes) → probe k t = none → ∀ q,
      Goes cfg ⟨emitSection cfg.fc (pathText (cur ++ [k])) v ++ q, put t, c, cp⟩
        (v.Nests cfg.maxDepth cur.length) q (put (insert t k v.asSection))

/-- The sections of a table are read into it. -/
lemma lines_emitSections {cur c : List Key} {put : Entries → Entries} {cp : Bytes}
    (hfocus : Focus cur put) (hcur : ∀ l ∈ cur, Ch.del ∉ l.bytes) {es : Entries}
    (hnodup : (es.map Prod.fst).Nodup) (hdel : ∀ e ∈ es, Ch.del ∉ e.1.bytes)
    (hes : ∀ e ∈ es, isSection e.2 = true → ReadsSection cfg e.2) {t : Entries}
    (hnew : ∀ e ∈ es, isSection e.2 = true → probe e.1 t = none) (q : Bytes) :
    Goes cfg ⟨emitSections cfg.fc (pathText cur) es ++ q, put t, c, cp⟩
      (SectionsNest cfg.maxDepth cur.length es) q (put (t ++ sectionsReread es)) := by
  induction es generalizing t c cp with
  | nil =>
    exact ⟨fun _ => ⟨c, cp, by simp [emitSections, sectionsReread]⟩,
      fun h => absurd (by simp [SectionsNest]) h⟩
  | cons e es ih =>
    obtain ⟨k, v⟩ := e
    rw [List.map_cons, List.nodup_cons] at hnodup
    have hih := fun {c cp t} => @ih c cp hnodup.2 (fun f hf => hdel f (by simp [hf]))
      (fun f hf => hes f (by simp [hf])) t
    cases hsec : isSection v with
    | true =>
      have hpath : ∀ l ∈ cur ++ [k], Ch.del ∉ l.bytes := by
        intro l hl
        rcases List.mem_append.mp hl with hl | hl
        · exact hcur l hl
        · rw [List.mem_singleton.mp hl]
          exact hdel (k, v) (by simp)
      have hone := hes (k, v) (by simp) hsec cur c put cp k t hfocus hpath
        (hnew (k, v) (by simp) hsec) (emitSections cfg.fc (pathText cur) es ++ q)
      have hrest : ∀ f ∈ es, isSection f.2 = true → probe f.1 (insert t k v.asSection) = none := by
        intro f hf hfsec
        rw [probe_insert_ne, hnew f (by simp [hf]) hfsec]
        rintro rfl
        exact hnodup.1 (List.mem_map.mpr ⟨f, hf, rfl⟩)
      have htext : emitSections cfg.fc (pathText cur) ((k, v) :: es) ++ q =
          emitSection cfg.fc (pathText (cur ++ [k])) v ++
            (emitSections cfg.fc (pathText cur) es ++ q) := by
        rw [emitSections, if_pos hsec, pathText_snoc, List.append_assoc]
      have hreread : t ++ sectionsReread ((k, v) :: es) =
          insert t k v.asSection ++ sectionsReread es := by
        rw [sectionsReread, if_pos hsec, insert, List.append_assoc, List.singleton_append]
      have hcons : SectionsNest cfg.maxDepth cur.length ((k, v) :: es) ↔
          v.Nests cfg.maxDepth cur.length ∧ SectionsNest cfg.maxDepth cur.length es := by
        simp [SectionsNest, hsec]
      rw [htext, hreread, hcons]
      exact hone.seq fun _ c cp => hih hrest
    | false =>
      have htext : emitSections cfg.fc (pathText cur) ((k, v) :: es) =
          emitSections cfg.fc (pathText cur) es := by
        rw [emitSections, hsec, if_neg (by decide), List.nil_append]
      have hreread : sectionsReread ((k, v) :: es) = sectionsReread es := by
        rw [sectionsReread, hsec, if_neg (by decide)]
      have hcons : SectionsNest cfg.maxDepth cur.length ((k, v) :: es) ↔
          SectionsNest cfg.maxDepth cur.length es := by simp [SectionsNest, hsec]
      rw [htext, hreread, hcons]
      exact hih fun f hf => hnew f (by simp [hf])

/-- What stands under a header is read into the table it opens. -/
lemma lines_emitTableChildren {cur : List Key} {put : Entries → Entries} (cp : Bytes)
    (hfocus : Focus cur put) (hcur : ∀ l ∈ cur, Ch.del ∉ l.bytes) {es : Entries}
    (hnodup : (es.map Prod.fst).Nodup)
    (hvalues : ∀ e ∈ es, isSection e.2 = false → IsValue e.2)
    (hsections : ∀ e ∈ es, isSection e.2 = true → ReadsSection cfg e.2)
    (hreads : entriesAll (fun k => Ch.del ∉ k) (Node.ScalarReads cfg.fc) es) (q : Bytes) :
    Goes cfg ⟨emitLines cfg.fc es ++ emitSections cfg.fc (pathText cur) es ++ q, put [], cur, cp⟩
      (entriesNest cfg.maxDepth cur.length es) q (put (rereadEntries es)) := by
  have hnew : ∀ e ∈ es, isSection e.2 = true → probe e.1 ([] ++ linesReread es) = none := by
    intro e he hsec
    refine probe_eq_none.mpr fun hmem => ?_
    obtain ⟨f, hf, hkey⟩ := List.mem_map.mp hmem
    obtain ⟨g, hg, rfl⟩ := List.mem_map.mp hf
    obtain ⟨hg, hvalue⟩ := List.mem_filter.mp hg
    -- two entries with one key are the same entry
    have hsame := (probe_of_mem hnodup hg).symm.trans
      (hkey ▸ probe_of_mem hnodup (show (e.1, e.2) ∈ es from he))
    rw [Option.some.inj hsame, hsec] at hvalue
    exact absurd hvalue (by decide)
  have hdel : ∀ e ∈ es, Ch.del ∉ e.1.bytes := fun e he => (entriesAll_iff.mp hreads e he).1
  obtain ⟨hlines, hstuck⟩ := @lines_emitLines cfg cur put cp hfocus es hnodup hvalues hreads []
    (fun _ _ => rfl) (emitSections cfg.fc (pathText cur) es ++ q)
  rw [entriesNest_iff, List.append_assoc]
  by_cases hfits : LinesNest cfg.maxDepth es
  · have hmore :=
      @lines_emitSections cfg cur cur put cp hfocus hcur es hnodup hdel hsections _ hnew q
    rw [and_iff_right hfits]
    exact .of_eq (hlines hfits) hmore
  · exact ⟨fun h => absurd h.1 hfits, fun _ => hstuck hfits⟩

/-- A header, and what stands under it. -/
lemma lines_table {cur c : List Key} {put put' : Entries → Entries} {cp : Bytes}
    (hmax : 8 ≤ cfg.maxDepth) (hfocus : Focus cur put) {aot : Bool} {k : Key}
    (hdel : ∀ l ∈ cur ++ [k], Ch.del ∉ l.bytes) {t t' : Entries}
    (hlast : ∀ pos, resolveLast pos aot k t = .ok t') (hfocus' : Focus (cur ++ [k]) put')
    (hput : put t' = put' []) {es : Entries} (hnodup : (es.map Prod.fst).Nodup)
    (hentries : ∀ e ∈ es, IsEntry e.2)
    (hsections : ∀ e ∈ es, isSection e.2 = true → ReadsSection cfg e.2)
    (hreads : entriesAll (fun k => Ch.del ∉ k) (Node.ScalarReads cfg.fc) es) (q : Bytes) :
    Goes cfg ⟨headerText aot (cur ++ [k]) (emitLines cfg.fc es ++
        emitSections cfg.fc (pathText (cur ++ [k])) es ++ q), put t, c, cp⟩
      (cur.length + 1 ≤ cfg.maxDepth ∧ entriesNest cfg.maxDepth (cur.length + 1) es) q
      (put' (rereadEntries es)) := by
  obtain ⟨hheader, hstuck⟩ := @lines_header cfg cur c put cp hmax hfocus aot k hdel t t' hlast
    (emitLines cfg.fc es ++ emitSections cfg.fc (pathText (cur ++ [k])) es ++ q)
  by_cases hdepth : cur.length + 1 ≤ cfg.maxDepth
  · obtain ⟨cp', hheader⟩ := hheader hdepth
    have hbody := lines_emitTableChildren cp' hfocus' hdel hnodup
      (fun e he hsec => (hentries e he).isValue hsec) hsections hreads q
    rw [List.length_append, List.length_singleton] at hbody
    rw [hput] at hheader
    rw [and_iff_right hdepth]
    exact .of_eq hheader hbody
  · exact ⟨fun h => absurd h.1 hdepth, fun _ => hstuck hdepth⟩

/-- The elements of an array of tables are read one after the other. -/
lemma lines_emitElements {cur c : List Key} {put : Entries → Entries} {cp : Bytes} {k : Key}
    {t : Entries} (hmax : 8 ≤ cfg.maxDepth) (hfocus : Focus cur put)
    (hpath : ∀ l ∈ cur ++ [k], Ch.del ∉ l.bytes) (hnew : probe k t = none) {ts : List Entries}
    (hnodup : ∀ es ∈ ts, (es.map Prod.fst).Nodup)
    (hentries : ∀ es ∈ ts, ∀ e ∈ es, IsEntry e.2)
    (hsections : ∀ es ∈ ts, ∀ e ∈ es, isSection e.2 = true → ReadsSection cfg e.2)
    (hreads : ∀ es ∈ ts, entriesAll (fun k => Ch.del ∉ k) (Node.ScalarReads cfg.fc) es)
    (done : List Node) (hts : ts ≠ []) (q : Bytes) :
    Goes cfg ⟨emitElements cfg.fc (pathText (cur ++ [k])) (ts.map (.table .explicit)) ++ q,
        put (if done = [] then t else insert t k (.array true done)), c, cp⟩
      (cur.length + 1 ≤ cfg.maxDepth ∧ ∀ es ∈ ts, entriesNest cfg.maxDepth (cur.length + 1) es) q
      (put (insert t k (.array true (done ++ elementsReread (ts.map (.table .explicit)))))) := by
  induction ts generalizing c cp done with
  | nil => exact absurd rfl hts
  | cons es ts ih =>
    have hlast : ∀ pos, resolveLast pos true k
        (if done = [] then t else insert t k (.array true done)) =
        .ok (insert t k (.array true (done ++ [.table .explicit []]))) := by
      intro pos
      rw [resolveLast, if_pos rfl]
      split_ifs with hdone
      · simp only [hnew, hdone, List.nil_append]
      · simp only [probe_insert_self hnew, setValue_insert hnew]
    have hone := fun q => @lines_table cfg cur c put _ cp hmax hfocus true k hpath _ _ hlast
      (hfocus.element hnew done) rfl es (hnodup es (by simp)) (hentries es (by simp))
      (hsections es (by simp)) (hreads es (by simp)) q
    have htext : emitElements cfg.fc (pathText (cur ++ [k]))
        ((es :: ts).map (.table .explicit)) ++ q =
        headerText true (cur ++ [k]) (emitLines cfg.fc es ++
          emitSections cfg.fc (pathText (cur ++ [k])) es ++
            (emitElements cfg.fc (pathText (cur ++ [k])) (ts.map (.table .explicit)) ++ q)) := by
      simp [emitElements, headerText]
    have hreread : done ++ elementsReread ((es :: ts).map (.table .explicit)) =
        done ++ [.table .explicit (rereadEntries es)] ++
          elementsReread (ts.map (.table .explicit)) := by
      simp [elementsReread, rereadEntries]
    rw [htext, hreread]
    cases ts with
    | nil =>
      have hone := hone q
      simpa [emitElements, elementsReread] using hone
    | cons es' ts =>
      have hmore := fun c cp => @ih c cp (fun es hes => hnodup es (by simp [hes]))
        (fun es hes => hentries es (by simp [hes])) (fun es hes => hsections es (by simp [hes]))
        (fun es hes => hreads es (by simp [hes]))
        (done ++ [.table .explicit (rereadEntries es)]) (by simp)
      rw [if_neg (by simp)] at hmore
      have hboth := (hone _).seq fun hfits c cp => hmore c cp
      have hfits : (cur.length + 1 ≤ cfg.maxDepth ∧
            ∀ fs ∈ es :: es' :: ts, entriesNest cfg.maxDepth (cur.length + 1) fs) ↔
          (cur.length + 1 ≤ cfg.maxDepth ∧ entriesNest cfg.maxDepth (cur.length + 1) es) ∧
            cur.length + 1 ≤ cfg.maxDepth ∧
              ∀ fs ∈ es' :: ts, entriesNest cfg.maxDepth (cur.length + 1) fs := by
        simp only [List.forall_mem_cons]
        tauto
      rw [hfits]
      exact hboth

/-- A section is read back. -/
theorem readsSection (hmax : 8 ≤ cfg.maxDepth) {v : Node} (hv : IsEntry v)
    (hreads : v.Reads cfg.fc) (hsec : isSection v = true) : ReadsSection cfg v := by
  induction hv with
  | value h hflag =>
    rw [h.not_section hflag] at hsec
    exact absurd hsec (by decide)
  | @table flag es hflag hnodup hkey hes ih =>
    have hall := entriesAll_iff.mp hreads
    intro cur c put cp k t hfocus hpath hnew q
    have hlast : ∀ pos, resolveLast pos false k t = .ok (insert t k (.table .explicit [])) := by
      intro pos
      rw [resolveLast, if_neg (by simp), hnew]
    have htable := @lines_table cfg cur c put _ cp hmax hfocus false k hpath _ _ hlast
      (hfocus.table hnew) rfl es hnodup hes (fun e he hsec => ih e he (hall e he).2 hsec) hreads q
    have htext : emitSection cfg.fc (pathText (cur ++ [k])) (.table flag es) ++ q =
        headerText false (cur ++ [k]) (emitLines cfg.fc es ++
          emitSections cfg.fc (pathText (cur ++ [k])) es ++ q) := by
      simp [emitSection, headerText]
    rw [htext]
    exact htable
  | @aot ts hne hnodup hkey hes ih =>
    have hall := itemsAll_iff.mp hreads
    have htables : ∀ es ∈ ts, entriesAll (fun k => Ch.del ∉ k) (Node.ScalarReads cfg.fc) es :=
      fun es hmem => hall _ (List.mem_map_of_mem hmem)
    intro cur c put cp k t hfocus hpath hnew q
    have helements := @lines_emitElements cfg cur c put cp k t hmax hfocus hpath hnew ts hnodup hes
      (fun es hmem e he hsec => ih es hmem e he (entriesAll_iff.mp (htables es hmem) e he).2 hsec)
      htables [] hne q
    rw [Node.Nests, itemsNest_tables]
    exact helements

end Sections

end Teptris
