import Mathlib.Data.List.DropRight
import Teptris.Edit.SkipString
import Teptris.Parse.Run

/-!
# The editor

`edit.c`: `teptris_edit_scalar` finds the line of a dotted key path by its text and replaces the
bytes of its value.  Pointers into the source are what is left of it there; the key path and the
replacement are the bytes of C strings.
-/

namespace Teptris

open Loop

/-- `edit_is_ws`. -/
def editIsWs (c : UInt8) : Bool := c == Ch.sp || c == Ch.tab

/-- `edit_skip_ws`. -/
def editSkipWs (p : Bytes) : Bytes := p.dropWhile editIsWs

/-- A text without the white space at its two ends. -/
def editTrim (p : Bytes) : Bytes := (editSkipWs p).rdropWhile editIsWs

/-! ## Key paths by their text -/

/-- The quoted branch of `edit_match_component` behind the opening quote `q`, with `ci` bytes of
the component passed; `skip` marks the byte behind a backslash. -/
def editMatchQuoted (q : UInt8) (comp : Bytes) : Bool → ℕ → Bytes → Option Bytes
  | _, _, [] => none
  | true, ci, _ :: r => editMatchQuoted q comp false ci r
  | false, ci, c :: r =>
    if c = q then if ci = comp.length then some r else none
    else if c = Ch.lf then none
    else if q = Ch.dquote ∧ c = Ch.bslash ∧ r ≠ [] then
      if ci < comp.length ∧ comp[ci]? ≠ some c then none
      else editMatchQuoted q comp true (ci + 1) r
    else if comp[ci]? = some c then editMatchQuoted q comp false (ci + 1) r
    else none

/-- What may follow a bare component. -/
def editEndsBare (p : Bytes) : Bool :=
  p.head?.all fun c => c == Ch.dot || editIsWs c || c == Ch.eq || c == Ch.rbrack

/-- `edit_match_component`: what follows the component. -/
def editMatchComponent (p comp : Bytes) : Option Bytes :=
  match p with
  | [] => none
  | c :: r =>
    if c = Ch.squote ∨ c = Ch.dquote then editMatchQuoted c comp false 0 r
    else if comp = [] then none
    else if comp <+: p ∧ editEndsBare (p.drop comp.length) then some (p.drop comp.length)
    else none

/-- A component of a key path and what follows it: it runs up to a dot outside quotes, where a
quote of either kind opens or closes; `none` where one stays open. -/
def editCut : Bool → Bytes → Option (Bytes × Bytes)
  | quoted, [] => if quoted then none else some ([], [])
  | quoted, c :: r =>
    if c = Ch.squote ∨ c = Ch.dquote then (editCut (!quoted) r).map fun x => (c :: x.1, x.2)
    else if c = Ch.dot ∧ !quoted then some ([], c :: r)
    else (editCut quoted r).map fun x => (c :: x.1, x.2)

/-- One turn of `edit_match_path`: what is left of the source, and of the key path. -/
def editPathTurn (s : Bytes × Bytes) : Except Unit (Turn (Bytes × Bytes) Bytes) :=
  match editCut false (editSkipWs s.2) with
  | none => .error ()
  | some (comp, path) =>
    if editTrim comp = [] then .error ()
    else
      match editMatchComponent s.1 (editTrim comp) with
      | none => .error ()
      | some p =>
        let p := editSkipWs p
        if path = [] then .ok (.stop p)
        else .ok (.next (if p.head? = some Ch.dot then editSkipWs (p.drop 1) else p, path.drop 1))

/-- `edit_match_path`: what follows the path. -/
def editMatchPath (p path : Bytes) : Option Bytes :=
  (loop editPathTurn () (fun s => s.2.length) (p, path)).toOption

/-- `edit_section_header`: the path between the brackets. -/
def editSectionHeader (p : Bytes) : Option Bytes :=
  let p := editSkipWs p
  if p.head? = some Ch.lbrack then
    let p := p.drop 1
    let p := editSkipWs (if p.head? = some Ch.lbrack then p.drop 1 else p)
    let path := p.takeWhile (· ≠ Ch.rbrack)
    if Ch.lf ∈ path ∨ Ch.rbrack ∉ p then none else some (path.rdropWhile editIsWs)
  else none

/-! ## Value spans -/

/-- One turn of the bracket loop of `edit_value_span`: the open brackets, and what is left of the
source. -/
def editBracketTurn (s : ℤ × Bytes) : Except Unit (Turn (ℤ × Bytes) Bytes) :=
  match s.2 with
  | [] => .error ()
  | c :: cs =>
    if c = Ch.squote ∨ c = Ch.dquote then
      match editSkipString (c :: cs) with
      | none => .error ()
      | some r => .ok (.next (s.1, r))
    else if c = Ch.lbrace ∨ c = Ch.lbrack then .ok (.next (s.1 + 1, cs))
    else if c = Ch.rbrace ∨ c = Ch.rbrack then
      if s.1 - 1 = 0 then .ok (.stop cs) else .ok (.next (s.1 - 1, cs))
    else .ok (.next (s.1, cs))

/-- The bracket loop of `edit_value_span`. -/
def editBrackets (depth : ℤ) (p : Bytes) : Except Unit Bytes :=
  loop editBracketTurn () (fun s => s.2.length) (depth, p)

/-- A value in the source: `vstart`, `vend` and `verified`. -/
structure ValueSpan where
  /-- The source from the value on. -/
  start : Bytes
  /-- What follows the value. -/
  stop : Bytes
  /-- The splice has to be verified by a parse. -/
  verified : Bool
deriving DecidableEq

/-- A byte of the scalar branch of `edit_value_span`. -/
def editInScalar (c : UInt8) : Bool := c != Ch.lf && c != Ch.hash

/-- What the scalar branch gives back from its end. -/
def editScalarTail (c : UInt8) : Bool := editIsWs c || c == Ch.cr

/-- `edit_value_span`, from behind the `=`. -/
def editValueSpan (p : Bytes) : Option ValueSpan :=
  match editSkipWs p with
  | [] => none
  | c :: cs =>
    if c = Ch.squote ∨ c = Ch.dquote then
      (editSkipString (c :: cs)).map fun ve => ⟨c :: cs, ve, true⟩
    else if c = Ch.lbrace ∨ c = Ch.lbrack then
      (editBrackets 0 (c :: cs)).toOption.map fun ve => ⟨c :: cs, ve, true⟩
    else
      let value := ((c :: cs).takeWhile editInScalar).rdropWhile editScalarTail
      some ⟨c :: cs, (c :: cs).drop value.length, false⟩

/-! ## The target and the open section -/

/-- The loop of `edit_split_target`: what precedes the last dot outside quotes, and what follows
it. -/
def editLastDot : Bool → Bytes → Option (Bytes × Bytes)
  | _, [] => none
  | quoted, c :: r =>
    let quoted' := if c = Ch.squote ∨ c = Ch.dquote then !quoted else quoted
    match editLastDot quoted' r with
    | some (pfx, last) => some (c :: pfx, last)
    | none => if c = Ch.dot ∧ !quoted then some ([], r) else none

/-- `edit_split_target`: the table path, and the last component. -/
def editSplitTarget (keypath : Bytes) : Bytes × Bytes :=
  (editLastDot false keypath).getD ([], keypath)

/-- `edit_section_matches`. -/
def editSectionMatches (pfx sec : Bytes) : Bool := decide (sec = editTrim pfx)

/-- `edit_strip_section_prefix`: what of the target follows the open section. -/
def editStripSectionPrefix (keypath sec : Bytes) : Option Bytes :=
  let keypath := editTrim keypath
  if sec = [] ∨ keypath.length ≤ sec.length then none
  else if keypath[sec.length]? = some Ch.dot ∧ sec <+: keypath then
    let rest := keypath.drop (sec.length + 1)
    if rest = [] then none else some rest
  else none

/-! ## `teptris_edit_scalar` -/

/-- A key on the line `t` under the section `sec`: what follows the key. -/
def editMatchLine (keypath sec t : Bytes) : Option Bytes :=
  -- at the root a line may carry the full path
  (if sec = [] then editMatchPath t keypath else none)
  <|> (let (pfx, last) := editSplitTarget keypath
       if last ≠ [] ∧ editSectionMatches pfx sec then editMatchPath t last else none)
  <|> (match editStripSectionPrefix keypath sec with
       | some rest => editMatchPath t rest
       | none => none)

/-- The line loop goes on below a line, unless that was the last one. -/
def editOnward (below sec : Bytes) : Except Status (Turn (Bytes × Bytes) Bytes) :=
  if below = [] then .error .errState else .ok (.next (below.drop 1, sec))

/-- One turn of the line loop of `teptris_edit_scalar`: what is left of the source, and the open
section; it stops with the source behind the `=` of the target's line. -/
def editLineTurn (keypath : Bytes) (s : Bytes × Bytes) :
    Except Status (Turn (Bytes × Bytes) Bytes) :=
  let line := s.1.takeWhile (· ≠ Ch.lf)
  let below := s.1.dropWhile (· ≠ Ch.lf)
  let t := editSkipWs line
  if t = [] ∨ t.head? = some Ch.hash then editOnward below s.2
  else
    match editSectionHeader t with
    | some path => editOnward below path
    | none =>
      match editMatchLine keypath s.2 t with
      | none => editOnward below s.2
      | some after =>
        let eq := editSkipWs after
        if eq.head? = some Ch.eq then .ok (.stop (eq.drop 1 ++ below))
        else editOnward below s.2

/-- The line loop of `teptris_edit_scalar`: the source behind the `=` of the target's line. -/
def editFind (keypath src : Bytes) : Except Status Bytes :=
  loop (editLineTurn keypath) .errState (fun s => s.1.length) (src, [])

/-- The document that probes a replacement: `k = ` and the replacement on a line. -/
def editProbe (replacement : Bytes) : Bytes :=
  [0x6B, Ch.sp, Ch.eq, Ch.sp] ++ replacement ++ [Ch.lf]

/-- The source with the bytes of a value replaced. -/
def editSplice (src : Bytes) (v : ValueSpan) (replacement : Bytes) : Bytes :=
  src.take (src.length - v.start.length) ++ replacement ++ v.stop

/-- `teptris_edit_scalar`. -/
def editScalar (fc : FloatConv) (src keypath replacement : Bytes) : Except Status Bytes :=
  let cfg := Config.ofOptions fc 0
  if replacement.length = 0 ∨ 16384 < replacement.length then .error .errArg
  else
    match parse cfg (editProbe replacement) with
    | .error _ => .error .errArg
    | .ok _ =>
      match editFind keypath src with
      | .error e => .error e
      | .ok p =>
        match editValueSpan p with
        | none => .error .errArg
        | some v =>
          let out := editSplice src v replacement
          if v.verified then
            match parse cfg out with
            | .error _ => .error .errArg
            | .ok _ => .ok out
          else .ok out

end Teptris
