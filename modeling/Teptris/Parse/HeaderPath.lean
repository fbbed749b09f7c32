import Teptris.Parse.FastPath
import Teptris.Parse.State

/-!
# The header fast path

`try_header_fast` against `parse_header`.  Where it takes a line, it resolves the path to the
same tree and the same verdict; it does not look at the depth limit, so that the two agree
exactly on paths within the limit.
-/

namespace Teptris

open Loop

/-! ## The walk -/

/-- Where the walk hands back, it has not touched the tree. -/
lemma fastWalk_none {pos : Bytes} {last : Key} {ps : List Key} {t : Entries}
    (h : (fastWalk pos last ps t).2 = none) : (fastWalk pos last ps t).1 = t := by
  induction ps generalizing t with
  | nil =>
    rw [fastWalk] at h ⊢
    split at h
    · rfl
    · simp at h
  | cons part ps ih =>
    rw [fastWalk] at h ⊢
    split at h
    next hp =>
      -- a table made on the way is empty, so that nothing below it hands back
      have hempty : ∀ ps, (fastWalk pos last ps []).2 = some (.ok ()) := by
        intro ps
        induction ps with
        | nil => rfl
        | cons p ps ihps => simpa [fastWalk, probe] using ihps
      dsimp only at h
      rw [hempty] at h
      simp at h
    next isAot items hp =>
      split_ifs at h ⊢ with haot
      split at h
      next flag es hlast =>
        dsimp only at h ⊢
        rw [ih h]
        have hitems : items.dropLast ++ [.table flag es] = items :=
          List.dropLast_append_getLast? _ hlast
        have haot' : isAot = true := by simpa using haot
        rw [hitems, setValue_self (haot' ▸ hp)]
      · simp at h
    next flag es hp =>
      split_ifs at h ⊢ with hinline
      dsimp only at h ⊢
      rw [ih h, setValue_self hp]
    · simp at h

/-- Where the walk takes the line, it does what `resolve_header` does. -/
lemma fastWalk_some {pos : Bytes} {last : Key} {ps : List Key} {t : Entries}
    {v : Except Diag Unit} (h : (fastWalk pos last ps t).2 = some v) :
    resolveHeader pos false last ps t = v.map fun _ => (fastWalk pos last ps t).1 := by
  induction ps generalizing t with
  | nil =>
    rw [fastWalk] at h
    rw [resolveHeader, resolveLast, fastWalk]
    split at h
    · simp at h
    next hp =>
      obtain rfl := Option.some_inj.mp h
      simp [hp, Except.map]
  | cons part ps ih =>
    rw [fastWalk] at h
    rw [resolveHeader, fastWalk]
    split at h
    next hp =>
      dsimp only at h
      rw [ih h]
      cases v <;> rfl
    next isAot items hp =>
      split_ifs at h ⊢ with haot
      · obtain rfl := Option.some_inj.mp h
        rfl
      split at h
      next flag es hlast =>
        dsimp only at h ⊢
        rw [ih h]
        cases v <;> rfl
      · obtain rfl := Option.some_inj.mp h
        rfl
    next flag es hp =>
      split_ifs at h ⊢ with hinline
      · obtain rfl := Option.some_inj.mp h
        rfl
      dsimp only at h ⊢
      rw [ih h]
      cases v <;> rfl
    · obtain rfl := Option.some_inj.mp h
      rfl

/-! ## The path -/

/-- The fast scan reads the path that `teptris_parse_key_path` reads, where that is within the
depth limit. -/
lemma keyPath_of_fastPath (maxDepth : ℕ) {room : ℕ} {q q' : Bytes} {path : KeyPath}
    (h : fastPath room q = some (path, q')) (hend : q'.head? = some Ch.rbrack)
    (acc : List Key) :
    (acc.length + path.count ≤ maxDepth →
      loop (keyPathTurn maxDepth) Diag.stuck (fun s => s.2.length) (acc, q) =
        .ok (⟨acc ++ path.parents, path.last⟩, q')) ∧
    (maxDepth < acc.length + path.count → acc.length ≤ maxDepth →
      ∃ pos, loop (keyPathTurn maxDepth) Diag.stuck (fun s => s.2.length) (acc, q) =
        .error ⟨.errDepth, pos, "key path too deep", []⟩) := by
  induction room generalizing q path acc with
  | zero => simp [fastPath] at h
  | succ room ih =>
    obtain _ | ⟨c, cs⟩ := q
    · simp [fastPath] at h
    by_cases hc : isBareKey c = true
    swap
    · simp [fastPath, hc] at h
    simp only [fastPath, List.head?_cons, Option.any_some, hc, if_true, scanBareKey_eq] at h
    have hpart := keyPart_bare cs hc
    have hws := skipWs_cons cs (isWs_of_isBareKey hc)
    generalize hkey : (c :: cs).takeWhile isBareKey = key at h hpart
    generalize hrest : (c :: cs).dropWhile isBareKey = q at h hpart
    -- the turn stops at the limit, before it looks at what follows the part
    have hdeep : maxDepth < acc.length + 1 →
        loop (keyPathTurn maxDepth) Diag.stuck (fun s => s.2.length) (acc, c :: cs) =
          .error ⟨.errDepth, q, "key path too deep", []⟩ := by
      intro hlt
      refine loop_error ?_
      simp only [keyPathTurn, hws, hpart, if_pos hlt, failAt]
    split_ifs at h with hdot
    · split at h
      swap
      · simp at h
      next path' q'' hfast =>
      obtain ⟨rfl, rfl⟩ := Prod.mk.inj (Option.some_inj.mp h)
      obtain ⟨hok, herr⟩ := ih hfast (acc ++ [Key.ofBytes key])
      have hqws : skipWs q = q := by
        obtain _ | ⟨d, ds⟩ := q
        · simp at hdot
        · obtain rfl : d = Ch.dot := by simpa using hdot
          exact skipWs_cons _ (by decide)
      have hnext : ¬ maxDepth < acc.length + 1 →
          loop (keyPathTurn maxDepth) Diag.stuck (fun s => s.2.length) (acc, c :: cs) =
            loop (keyPathTurn maxDepth) Diag.stuck (fun s => s.2.length)
              (acc ++ [Key.ofBytes key], q.drop 1) := by
        intro hle
        refine loop_next (keyPath_shrinks maxDepth) ?_
        simp only [keyPathTurn, hws, hpart, if_neg hle, hqws, if_pos hdot]
      simp only [KeyPath.count_cons, List.length_append, List.length_singleton] at hok herr ⊢
      refine ⟨fun hle => ?_, fun hlt hacc => ?_⟩
      · rw [hnext (by omega), hok (by omega)]
        simp [KeyPath.cons]
      · by_cases hhere : maxDepth < acc.length + 1
        · exact ⟨_, hdeep hhere⟩
        · rw [hnext hhere]
          exact herr (by omega) (by omega)
    · obtain ⟨rfl, rfl⟩ := Prod.mk.inj (Option.some_inj.mp h)
      have hqws : skipWs q = q := by
        obtain _ | ⟨d, ds⟩ := q
        · simp at hend
        · obtain rfl : d = Ch.rbrack := by simpa using hend
          exact skipWs_cons _ (by decide)
      simp only [KeyPath.count, List.length_nil, List.append_nil]
      refine ⟨fun hle => loop_stop ?_, fun hlt _ => ⟨_, hdeep hlt⟩⟩
      have hle' : ¬ maxDepth < acc.length + 1 := by omega
      simp only [keyPathTurn, hws, hpart, if_neg hle', hqws, if_neg hdot]

/-- No white space stands in front of a path the fast scan reads. -/
lemma skipWs_of_fastPath {room : ℕ} {r q : Bytes} {path : KeyPath}
    (h : fastPath room r = some (path, q)) : skipWs r = r := by
  obtain _ | ⟨c, cs⟩ := r
  · rfl
  obtain _ | room := room
  · simp [fastPath] at h
  by_cases hc : isBareKey c = true
  · exact skipWs_cons _ (isWs_of_isBareKey hc)
  · simp [fastPath, hc] at h

/-- The shape of a line the fast path looks at. -/
lemma fastShape_spec {r start q : Bytes} {path : KeyPath}
    (h : fastShape r = some (path, start, q)) :
    r.head? = some Ch.lbrack ∧ r[1]? ≠ some Ch.lbrack ∧ start = r.drop 1 ∧
      fastPath 8 start = some (path, q) ∧ q.head? = some Ch.rbrack := by
  rw [fastShape] at h
  split_ifs at h with hopen
  split at h
  · next hfast =>
    split_ifs at h with hend
    obtain ⟨rfl, rfl, rfl⟩ : _ ∧ r.drop 1 = start ∧ _ = q := by simpa using h
    exact ⟨hopen.1, hopen.2, rfl, hfast, hend⟩
  · simp at h

/-- The general route on a line of that shape. -/
lemma parseHeader_of_fastShape (cfg : Config) {s : PState} {start q : Bytes} {path : KeyPath}
    (h : fastShape s.rest = some (path, start, q)) :
    (path.count ≤ cfg.maxDepth →
      parseHeader cfg s =
        (resolveHeader (q.drop 1) false path.last path.parents s.root).map fun root =>
          { rest := q.drop 1, root := root, cur := path.parts
            curPath := start.take (start.length - q.length) }) ∧
    (cfg.maxDepth < path.count →
      ∃ pos, parseHeader cfg s = .error ⟨.errDepth, pos, "key path too deep", []⟩) := by
  obtain ⟨hopen, hsingle, rfl, hfast, hend⟩ := fastShape_spec h
  have haot : decide ((s.rest.drop 1).head? = some Ch.lbrack) = false := by
    rw [List.head?_drop]
    simpa using hsingle
  have hstart : skipWs (s.rest.drop 1) = s.rest.drop 1 := skipWs_of_fastPath hfast
  have hqws : skipWs q = q := by
    obtain _ | ⟨d, ds⟩ := q
    · simp at hend
    · obtain rfl : d = Ch.rbrack := by simpa using hend
      exact skipWs_cons _ (by decide)
  obtain ⟨hok, herr⟩ := keyPath_of_fastPath cfg.maxDepth hfast hend []
  simp only [List.length_nil, Nat.zero_add, List.nil_append] at hok herr
  refine ⟨fun hle => ?_, fun hlt => ?_⟩
  · have hpath : parseKeyPath cfg.maxDepth (s.rest.drop 1) = .ok (path, q) := hok hle
    simp only [parseHeader, haot, Bool.false_eq_true, if_false, hstart, hpath, hqws, closeHeader,
      hend, if_true]
    cases resolveHeader (q.drop 1) false path.last path.parents s.root <;> rfl
  · obtain ⟨pos, hpos⟩ := herr hlt (Nat.zero_le _)
    have hpath : parseKeyPath cfg.maxDepth (s.rest.drop 1) =
        .error ⟨.errDepth, pos, "key path too deep", []⟩ := hpos
    exact ⟨pos, by simp only [parseHeader, haot, Bool.false_eq_true, if_false, hstart, hpath]⟩

/-! ## The agreement -/

/-- Where the fast path takes a line, the verdict is the one of the walk. -/
lemma headerLine_of_taken (cfg : Config) {s : PState} {v : Except Diag (List Key)}
    (h : (tryHeaderFast s).2 = some v) :
    ∃ path start q, fastShape s.rest = some (path, start, q) ∧
      headerLine cfg s =
        (resolveHeader (q.drop 1) false path.last path.parents s.root).map fun root =>
          { rest := q.drop 1, root := root, cur := path.parts
            curPath := start.take (start.length - q.length) } := by
  rw [headerLine]
  rw [tryHeaderFast] at h ⊢
  cases hshape : fastShape s.rest with
  | none => simp [hshape] at h
  | some x =>
    obtain ⟨path, start, q⟩ := x
    refine ⟨path, start, q, rfl, ?_⟩
    simp only [hshape] at h ⊢
    cases hwalk : fastWalk (q.drop 1) path.last path.parents s.root with
    | mk root verdict =>
      simp only [hwalk] at h ⊢
      have hsome := fun w (hw : verdict = some w) =>
        fastWalk_some (show (fastWalk (q.drop 1) path.last path.parents s.root).2 = some w by
          rw [hwalk]; exact hw)
      rw [hwalk] at hsome
      cases verdict with
      | none => simp at h
      | some w =>
        rw [hsome w rfl]
        cases w with
        | error e => rfl
        | ok u => rfl

/-- Where the fast path hands a line back, the line goes the general way from the same state. -/
lemma headerLine_of_handed_back (cfg : Config) {s : PState} (h : (tryHeaderFast s).2 = none) :
    headerLine cfg s = parseHeader cfg s := by
  rw [headerLine]
  rw [tryHeaderFast] at h ⊢
  cases hshape : fastShape s.rest with
  | none => rfl
  | some x =>
    obtain ⟨path, start, q⟩ := x
    simp only [hshape] at h ⊢
    cases hwalk : fastWalk (q.drop 1) path.last path.parents s.root with
    | mk root verdict =>
      simp only [hwalk] at h ⊢
      cases verdict with
      | none =>
        have hroot : root = s.root := by
          have hnone : (fastWalk (q.drop 1) path.last path.parents s.root).2 = none := by
            rw [hwalk]
          have := fastWalk_none hnone
          rwa [hwalk] at this
        simp only [parseHeader, hroot]
      | some w =>
        cases w with
        | error e => simp at h
        | ok u => simp at h

end Teptris
