import Teptris.Parse.Encoding

/-!
# Headers and the depth limit

A header line that `try_header_fast` takes is handled as by `parse_header` exactly when its
path has at most `max_depth` parts: the fast path has every check of the general one but that.
-/

namespace Teptris

/-- Where the fast path takes a line within the depth limit, the whole result is the one of the
general path, its messages included. -/
lemma headerLine_eq_parseHeader (cfg : Config) {s : PState} {path : KeyPath} {start q : Bytes}
    (hshape : fastShape s.rest = some (path, start, q)) (hdepth : path.count ≤ cfg.maxDepth) :
    headerLine cfg s = parseHeader cfg s := by
  cases htaken : (tryHeaderFast s).2 with
  | none => exact headerLine_of_handed_back cfg htaken
  | some v =>
    obtain ⟨path', start', q', hshape', hline⟩ := headerLine_of_taken cfg htaken
    obtain ⟨rfl, rfl, rfl⟩ : path = path' ∧ start = start' ∧ q = q' := by
      simpa using hshape.symm.trans hshape'
    rw [hline, (parseHeader_of_fastShape cfg hshape).1 hdepth]

/-- The fast path has room for that many parts. -/
lemma fastPath_count {room : ℕ} {q q' : Bytes} {path : KeyPath}
    (h : fastPath room q = some (path, q')) : path.count ≤ room := by
  induction room generalizing q q' path with
  | zero => simp [fastPath] at h
  | succ room ih =>
    rw [fastPath] at h
    split_ifs at h with hbare
    dsimp only at h
    split_ifs at h with hdot
    · split at h
      next path' q'' hfast =>
        obtain ⟨rfl, -⟩ := Prod.mk.inj (Option.some_inj.mp h)
        rw [KeyPath.count_cons]
        exact Nat.succ_le_succ (ih hfast)
      · cases h
    · obtain ⟨rfl, -⟩ := Prod.mk.inj (Option.some_inj.mp h)
      exact Nat.succ_le_succ (Nat.zero_le _)

/-- Under a limit of eight or more a header line is what `parse_header` makes of it. -/
lemma headerLine_eq {cfg : Config} (hmax : 8 ≤ cfg.maxDepth) (s : PState) :
    headerLine cfg s = parseHeader cfg s := by
  cases htaken : (tryHeaderFast s).2 with
  | none => exact headerLine_of_handed_back cfg htaken
  | some v =>
    obtain ⟨path, start, q, hshape, -⟩ := headerLine_of_taken cfg htaken
    obtain ⟨-, -, -, hfast, -⟩ := fastShape_spec hshape
    exact headerLine_eq_parseHeader cfg hshape (Nat.le_trans (fastPath_count hfast) hmax)

/-- On every reachable state at a header line of the fast shape that the fast path takes, it
agrees with `parse_header` and `resolve_header` on status, tree, flags, open table and cursor,
and on kind and position of a failure, if and only if the path has at most `max_depth` parts.
Wherever the two walk through an array of tables, they find a table there. -/
theorem header_fast_agrees_iff (cfg : Config) {data : Bytes} {s : PState}
    (hs : Reachable cfg data s) {path : KeyPath} {start q : Bytes}
    (hshape : fastShape s.atLine.rest = some (path, start, q))
    (htaken : (tryHeaderFast s.atLine).2.isSome = true) :
    (placed (headerLine cfg s.atLine) = placed (parseHeader cfg s.atLine) ↔
      path.count ≤ cfg.maxDepth) ∧
    ∀ e, headerLine cfg s.atLine = .error e → e.status = .errSemantic := by
  have hok : s.atLine.Ok := hs.ok.atLine
  obtain ⟨v, hv⟩ := Option.isSome_iff_exists.mp htaken
  obtain ⟨path', start', q', hshape', hline⟩ := headerLine_of_taken cfg hv
  obtain ⟨rfl, rfl, rfl⟩ : path = path' ∧ start = start' ∧ q = q' := by
    simpa using hshape.symm.trans hshape'
  obtain ⟨-, -, -, hfast, -⟩ := fastShape_spec hshape
  have hkeys : ∀ k ∈ path.parents, Utf8.Valid k.bytes := fun k hk =>
    (fastPath_spec hfast).2 k (by simp [KeyPath.parts, hk])
  have hstatus : ∀ e, headerLine cfg s.atLine = .error e → e.status = .errSemantic := by
    intro e he
    rw [hline] at he
    cases hres : resolveHeader (q.drop 1) false path.last path.parents s.atLine.root with
    | error e' =>
      rw [hres] at he
      obtain rfl := Except.error.inj he
      exact resolveHeader_status hok.root hkeys hres
    | ok root =>
      rw [hres] at he
      exact absurd he (by simp [Except.map])
  refine ⟨⟨fun hagree => ?_, fun hdepth => ?_⟩, hstatus⟩
  · -- beyond the limit the general path fails with a status the fast path never has
    by_contra hdepth
    obtain ⟨pos, hpos⟩ := (parseHeader_of_fastShape cfg hshape).2 (not_le.mp hdepth)
    rw [hpos] at hagree
    cases hres : headerLine cfg s.atLine with
    | error e =>
      rw [hres, placed_error, placed_error] at hagree
      have hdeep : e.status = .errDepth := congrArg Prod.fst (Except.error.inj hagree)
      rw [hstatus e hres] at hdeep
      exact absurd hdeep (by decide)
    | ok s' =>
      rw [hres] at hagree
      exact absurd hagree (by simp)
  · rw [headerLine_eq_parseHeader cfg hshape hdepth]

/-- Within the limit: `[a]` under the default options. -/
theorem header_fast_agrees_single :
    (placed (headerLine (.ofOptions .zero 0)
        (PState.init [Ch.lbrack, 0x61, Ch.rbrack]).atLine) =
      placed (parseHeader (.ofOptions .zero 0)
        (PState.init [Ch.lbrack, 0x61, Ch.rbrack]).atLine) ↔
      1 ≤ (Config.ofOptions .zero 0).maxDepth) ∧
    ∀ e, headerLine (.ofOptions .zero 0)
      (PState.init [Ch.lbrack, 0x61, Ch.rbrack]).atLine = .error e → e.status = .errSemantic :=
  have hinit : Reachable (.ofOptions .zero 0) [Ch.lbrack, 0x61, Ch.rbrack]
      (PState.init [Ch.lbrack, 0x61, Ch.rbrack]) := .init rfl
  have hshape : fastShape (PState.init [Ch.lbrack, 0x61, Ch.rbrack]).atLine.rest =
      some (⟨[], Key.ofBytes [0x61]⟩, [0x61, Ch.rbrack], [Ch.rbrack]) := rfl
  header_fast_agrees_iff (.ofOptions .zero 0) hinit hshape rfl

/-- Beyond it: with `max_depth` 1 the fast path takes `[a.b]`, which the general path refuses. -/
theorem header_fast_ignores_depth :
    ∃ cfg data s, Reachable cfg data s ∧ s.atLine.rest.head? = some Ch.lbrack ∧
      (tryHeaderFast s.atLine).2.isSome = true ∧
      placed (headerLine cfg s.atLine) ≠ placed (parseHeader cfg s.atLine) := by
  refine ⟨.ofOptions .zero 1, [Ch.lbrack, 0x61, Ch.dot, 0x62, Ch.rbrack], _, .init rfl, rfl, rfl,
    ?_⟩
  intro h
  have hfast : (placed (headerLine (.ofOptions .zero 1)
      (PState.init (skipBom [Ch.lbrack, 0x61, Ch.dot, 0x62, Ch.rbrack])).atLine)).isOk = true := rfl
  rw [h] at hfast
  exact absurd hfast (by decide)

end Teptris
