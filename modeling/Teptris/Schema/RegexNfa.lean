import Teptris.Schema.Regex

/-!
# The pattern automaton

The back half of `regex.c`: a tree is emitted as an automaton, and the automaton is run over the
code points of a text.  A target of `-1` is `none`.
-/

namespace Teptris

/-! ## States -/

/-- `RS_CHAR` … `RS_NWORDB`. -/
inductive RsKind where
  /-- `RS_CHAR`. -/
  | char
  /-- `RS_SPLIT`. -/
  | split
  /-- `RS_MATCH`. -/
  | match
  /-- `RS_BOL`. -/
  | bol
  /-- `RS_EOL`. -/
  | eol
  /-- `RS_WORDB`. -/
  | wordb
  /-- `RS_NWORDB`. -/
  | nwordb
  deriving DecidableEq

/-- `rstate`. -/
structure RState where
  /-- `kind`. -/
  kind : RsKind
  /-- `any`. -/
  any : Bool
  /-- `ranges`. -/
  ranges : List RaRange
  /-- `negated`. -/
  negated : Bool
  /-- `a`. -/
  a : Option ℕ
  /-- `b`. -/
  b : Option ℕ

/-- A state as `nstate` makes it. -/
def RState.new (kind : RsKind) : RState :=
  { kind := kind, any := false, ranges := [], negated := false, a := none, b := none }

/-- `states[…].b = target` or `states[…].a = target`. -/
def RState.aim (st : RState) (isB : Bool) (target : Option ℕ) : RState :=
  if isB then { st with b := target } else { st with a := target }

/-- `REGEX_MAX_STATES`. -/
def regexMaxStates : ℕ := 20000

/-- `nstate`, with the fields its callers set. -/
def nstate (n : List RState) (st : RState) : Except String (ℕ × List RState) :=
  if regexMaxStates ≤ n.length then .error "pattern compiles to too many states"
  else .ok (n.length, n ++ [st])

/-! ## Fragments -/

/-- `pslot`. -/
structure PSlot where
  /-- `state`. -/
  state : ℕ
  /-- `is_b`. -/
  isB : Bool
  deriving DecidableEq

/-- `frag`: the entry, `none` while no state exists, and the dangling tail. -/
structure Frag where
  /-- `entry`. -/
  entry : Option ℕ
  /-- `tail`. -/
  tail : List PSlot

/-- `frag_eps`. -/
def Frag.eps : Frag := { entry := none, tail := [] }

/-- `frag_thread`. -/
def fragThread (n : List RState) (tail : List PSlot) (target : Option ℕ) : List RState :=
  tail.foldl (fun n slot => n.modify slot.state (·.aim slot.isB target)) n

/-- What emitting a node gives: its fragment and the states. -/
abbrev Emitted := Except String (Frag × List RState)

/-- A fragment of one state with its first target dangling. -/
def emitState (n : List RState) (st : RState) : Emitted := do
  let (s, n) ← nstate n st
  .ok ({ entry := some s, tail := [⟨s, false⟩] }, n)

/-- The copies behind the first of a repetition. -/
def emitCopies (emit : List RState → Emitted) : ℕ → Frag → List RState → Emitted
  | 0, f, n => .ok (f, n)
  | k + 1, f, n => do
    let (piece, n) ← emit n
    emitCopies emit k { f with tail := piece.tail } (fragThread n f.tail piece.entry)

/-- The mandatory copies of a repetition. -/
def emitMandatory (emit : List RState → Emitted) (qmin : ℕ) (n : List RState) : Emitted :=
  match qmin with
  | 0 => .ok (.eps, n)
  | k + 1 => do
    let (first, n) ← emit n
    emitCopies emit k first n

/-- The unbounded tail of a repetition: a split that leads into the body, which leads back. -/
def emitUnbounded (emit : List RState → Emitted) (qmin : ℕ) (f : Frag) (n : List RState) :
    Emitted := do
  let (split, n) ← nstate n (.new .split)
  let n := fragThread n f.tail (some split)
  let (body, n) ← emit n
  let n := n.modify split (·.aim false body.entry)
  match body.entry with
  | none => .error "quantified subexpression matches empty"
  | some _ =>
    .ok ({ entry := if 1 ≤ qmin then f.entry else some split, tail := [⟨split, true⟩] },
      fragThread n body.tail (some split))

/-- The optional copies of a repetition, each behind a split of its own. -/
def emitOptional (emit : List RState → Emitted) : ℕ → Frag → List RState → Emitted
  | 0, f, n => .ok (f, n)
  | k + 1, f, n => do
    let (split, n) ← nstate n (.new .split)
    let n := fragThread n f.tail (some split)
    let (body, n) ← emit n
    let n := n.modify split (·.aim false body.entry)
    emitOptional emit k
      { entry := if f.entry.isNone ∧ body.entry.isSome then some split else f.entry
        tail := ⟨split, true⟩ :: body.tail } n

/-- The `RA_QUANT` case of `emit_node`. -/
def emitQuant (emit : List RState → Emitted) (qmin : ℕ) (qmax : Option ℕ) (n : List RState) :
    Emitted :=
  if qmax = some 0 then .ok (.eps, n)
  else do
    let (f, n) ← emitMandatory emit qmin n
    match qmax with
    | none => emitUnbounded emit qmin f n
    | some m => if m < qmin then emitUnbounded emit qmin f n else emitOptional emit (m - qmin) f n

/-- A branch of an alternation is hooked to the slot that leads to it: the slot of an empty
branch is an exit. -/
def hookBranch (use : ℕ) (useB : Bool) (b : Frag) (merged : List PSlot) (n : List RState) :
    List PSlot × List RState :=
  match b.entry with
  | some _ => (merged ++ b.tail, n.modify use (·.aim useB b.entry))
  | none => (merged ++ ⟨use, useB⟩ :: b.tail, n)

mutual

/-- `emit_node`. -/
def emitNode : Ra → List RState → Emitted
  | .char cp ci, n =>
    emitState n { RState.new .char with
      ranges := if ci then [⟨foldCp cp - 32, foldCp cp - 32⟩, ⟨cp, cp⟩] else [⟨cp, cp⟩] }
  | .any, n => emitState n { RState.new .char with any := true }
  | .cls ranges negated, n =>
    emitState n { RState.new .char with ranges := ranges, negated := negated }
  | .bol, n => emitState n (.new .bol)
  | .eol, n => emitState n (.new .eol)
  | .wordb, n => emitState n (.new .wordb)
  | .nwordb, n => emitState n (.new .nwordb)
  | .seq pieces, n => emitSeq pieces .eps n
  | .alt first others, n =>
    if others.isEmpty then emitNode first n
    else do
      let (split, n) ← nstate n (.new .split)
      let (b, n) ← emitNode first n
      let (merged, n) := hookBranch split false b [] n
      let (merged, n) ← emitOthers others split merged n
      .ok ({ entry := some split, tail := merged }, n)
  | .quant child qmin qmax, n => emitQuant (emitNode child) qmin qmax n

/-- The loop of `RA_SEQ`. -/
def emitSeq : List Ra → Frag → List RState → Emitted
  | [], f, n => .ok (f, n)
  | r :: rs, f, n => do
    let (piece, n) ← emitNode r n
    emitSeq rs { entry := f.entry.or piece.entry, tail := piece.tail }
      (fragThread n f.tail piece.entry)

/-- The loop of `RA_ALT` behind the first branch: the last one hangs off the second slot of the
last split, the others get splits of their own. -/
def emitOthers : List Ra → ℕ → List PSlot → List RState → Except String (List PSlot × List RState)
  | [], _, merged, n => .ok (merged, n)
  | r :: rs, prev, merged, n => do
    let (b, n) ← emitNode r n
    if rs.isEmpty then .ok (hookBranch prev true b merged n)
    else
      let (s2, n) ← nstate n (.new .split)
      let n := n.modify prev (·.aim true (some s2))
      let (merged, n) := hookBranch s2 false b merged n
      emitOthers rs s2 merged n

end

/-! ## Compilation -/

/-- `sch_regex`. -/
structure SchRegex where
  /-- `states`. -/
  states : List RState
  /-- `start`. -/
  start : ℕ
  /-- `match`. -/
  «match» : ℕ

/-- Why `sch_regex_compile` gives no automaton. -/
inductive RegexFault where
  /-- It returns `NULL` with this text. -/
  | rejected (msg : String)
  /-- Its outcome is not defined. -/
  | undefined

/-- The automaton of a tree. -/
def emitRegex (ast : Ra) : Except String SchRegex := do
  let (f, n) ← emitNode ast []
  let (m, n) ← nstate n (.new .match)
  .ok { states := fragThread n f.tail (some m), start := f.entry.getD m, «match» := m }

/-- `sch_regex_compile`. -/
def schRegexCompile (table : List UcProp) (pattern : Bytes) : Except RegexFault SchRegex :=
  let (ast, c) := regexTree table pattern
  if c.overrun then .error .undefined
  else
    match ast with
    | none => .error (.rejected (c.err.getD ""))
    | some ast =>
      if c.s ≠ [] then .error (.rejected (c.err.getD "unexpected ')' in pattern"))
      else (emitRegex ast).mapError fun msg => .rejected (c.err.getD msg)

/-! ## The search -/

/-- `cls_match`. -/
def clsMatch (st : RState) (cp : ℕ) : Bool :=
  if st.any then true
  else
    let inside := (Bisect.bisect (fun i =>
      match st.ranges[i]? with
      | some r => if cp < r.lo then .lt else if r.hi < cp then .gt else .eq
      | none => .lt) st.ranges.length).isSome
    if st.negated then !inside else inside

/-- `is_word_cp(s[pos])`, where `pos` is inside the text. -/
def wordAt (s : List ℕ) (pos : ℕ) : Bool := s[pos]?.any isWordCp

/-- The two sides of `pos` differ. -/
def wordBoundary (s : List ℕ) (pos : ℕ) : Bool :=
  (0 < pos && wordAt s (pos - 1)) != wordAt s pos

/-- The targets `closure` goes to from a state. -/
def closureTargets (s : List ℕ) (st : RState) (pos : ℕ) : List (Option ℕ) :=
  match st.kind with
  | .split => [st.a, st.b]
  | .bol => if pos = 0 then [st.a] else []
  | .eol => if s.length ≤ pos then [st.a] else []
  | .wordb => if wordBoundary s pos then [st.a] else []
  | .nwordb => if wordBoundary s pos then [] else [st.a]
  | .char => []
  | .match => []

/-- A cell that bears the stamp of another generation. -/
def unmarked (gen m : ℤ) : Bool := m ≠ gen ∧ m ≠ -gen

/-- A target is marked and put on the stack unless it bears a stamp of the generation; only a
state has a cell. -/
def pushTarget (gen : ℤ) (st : List ℤ × List ℕ) (target : Option ℕ) : List ℤ × List ℕ :=
  match target with
  | none => st
  | some t =>
    if (st.1[t]?).any (unmarked gen) then (st.1.set t gen, t :: st.2) else st

/-- One turn of the loop of `closure`. -/
def closureTurn (s : List ℕ) (states : List RState) (gen : ℤ) (pos : ℕ) (st : List ℤ × List ℕ) :
    Except Unit (Loop.Turn (List ℤ × List ℕ) (List ℤ)) :=
  match st.2 with
  | [] => .ok (.stop st.1)
  | q :: stack =>
    let targets := (states[q]?).elim [] fun rs => closureTargets s rs pos
    let (mark, stack) := targets.foldl (pushTarget gen) (st.1, stack)
    .ok (.next (mark.set q (-gen), stack))

/-- The size of the search: what is on the stack and what may still get there. -/
def closureSize (gen : ℤ) (st : List ℤ × List ℕ) : ℕ := st.2.length + st.1.countP (unmarked gen)

/-- `closure`. -/
def closure (s : List ℕ) (states : List RState) (mark : List ℤ) (gen : ℤ) (pos : ℕ) : List ℤ :=
  let stack := ((List.range states.length).filter fun i => mark[i]? = some gen).reverse
  match Loop.loop (closureTurn s states gen pos) () (closureSize gen) (mark, stack) with
  | .ok mark => mark
  | .error _ => mark

/-- `int` arithmetic, which wraps. -/
def wrapInt (x : ℤ) : ℤ := Int.bmod x (2 ^ 32)

/-- The state bears a stamp of the generation. -/
def markedAt (gen : ℤ) (mark : List ℤ) (q : ℕ) : Bool :=
  mark[q]? = some gen ∨ mark[q]? = some (-gen)

/-- `mark[t] = gen` unless the cell bears a stamp of the generation. -/
def markTarget (gen : ℤ) (mark : List ℤ) (t : ℕ) : List ℤ :=
  if (mark[t]?).any (unmarked gen) then mark.set t gen else mark

/-- One turn of the loop over the states: a marked `RS_CHAR` that takes the code point marks its
target, in the array the other marks of the last generation are still read from. -/
def stepMark (states : List RState) (gen prev : ℤ) (cp : ℕ) (mark : List ℤ) (i : ℕ) : List ℤ :=
  if markedAt prev mark i then
    match states[i]? with
    | some st =>
      if st.kind = .char ∧ clsMatch st cp then st.a.elim mark (markTarget gen mark) else mark
    | none => mark
  else mark

/-- The states behind a code point. -/
def stepMarks (states : List RState) (mark : List ℤ) (gen prev : ℤ) (cp : ℕ) : List ℤ :=
  (List.range states.length).foldl (stepMark states gen prev cp) mark

/-- The inner loop of `sch_regex_search` from `pos` on, `rest` being the text behind it: whether
the match state was reached, with the marks and their generation. -/
def searchAt (re : SchRegex) (s : List ℕ) : List ℕ → ℕ → ℤ → List ℤ → Bool × ℤ × List ℤ
  | rest, pos, gen, mark =>
    if markedAt gen mark re.match then (true, gen, mark)
    else
      match rest with
      | [] => (false, gen, mark)
      | cp :: rest =>
        let next := wrapInt (gen + 1)
        let mark := stepMarks re.states mark next gen cp
        searchAt re s rest (pos + 1) next (closure s re.states mark next (pos + 1))

/-- The outer loop of `sch_regex_search` from `start` on. -/
def searchFrom (re : SchRegex) (s : List ℕ) : List ℕ → ℕ → ℤ → List ℤ → Bool
  | rest, start, gen, mark =>
    let gen := wrapInt (gen + 1)
    let mark := closure s re.states (markTarget gen mark re.start) gen start
    let (matched, gen, mark) := searchAt re s rest start gen mark
    matched ||
      match rest with
      | [] => false
      | _ :: rest => searchFrom re s rest (start + 1) gen mark

/-- `sch_regex_search`. -/
def schRegexSearch (re : SchRegex) (s : List ℕ) (len : ℤ) : Bool :=
  if re.states.length = 0 then false
  else if len < 0 then false
  else
    let s := s.take len.toNat
    searchFrom re s s 0 0 (List.replicate re.states.length 0)

/-- `sch_regex_is_match`. -/
def schRegexIsMatch (re : SchRegex) (utf8 : Bytes) : Bool :=
  let cps := decodeCps utf8
  schRegexSearch re cps (wrapInt cps.length)

end Teptris
