import Teptris.Parse.Value

/-!
# Headers

The parser state between two statements, and the two routes a header line can take:
`parse_header`, and `try_header_fast` for one to eight bare parts between single brackets.
-/

namespace Teptris

/-- The parser state between two statements. -/
structure PState where
  /-- What is left of the input: the cursor `p`. -/
  rest : Bytes
  /-- The entries of the root table. -/
  root : Entries
  /-- The open table, as a path from the root. -/
  cur : List Key
  /-- The text of the last header, for messages. -/
  curPath : Bytes

/-- What must follow the path of a header: one bracket, or two. -/
def closeHeader (aot : Bool) (r : Bytes) : Except Diag Bytes :=
  if aot then
    if r.head? = some Ch.rbrack ∧ r[1]? = some Ch.rbrack then .ok (r.drop 2)
    else failAt r .errSyntax "expected ']]'"
  else
    if r.head? = some Ch.rbrack then .ok (r.drop 1) else failAt r .errSyntax "expected ']'"

/-- `parse_header`, from the `[`. -/
def parseHeader (cfg : Config) (s : PState) : Except Diag PState :=
  let r := s.rest.drop 1
  let aot : Bool := r.head? = some Ch.lbrack
  let hstart := if aot then r.drop 1 else r
  match parseKeyPath cfg.maxDepth (skipWs hstart) with
  | .error e => .error e
  | .ok (path, r) =>
    let hend := skipWs r
    match closeHeader aot hend with
    | .error e => .error e
    | .ok r =>
      match resolveHeader r aot path.last path.parents s.root with
      | .error e => .error e
      | .ok root =>
        .ok { rest := r, root := root, cur := path.parts
              curPath := hstart.take (hstart.length - hend.length) }

/-- The dotted path `try_header_fast` scans, with room for that many parts. -/
def fastPath : ℕ → Bytes → Option (KeyPath × Bytes)
  | 0, _ => none
  | room + 1, q =>
    if q.head?.any isBareKey then
      let (key, q) := scanBareKey q
      if q.head? = some Ch.dot then
        match fastPath room (q.drop 1) with
        | some (path, q) => some (path.cons key, q)
        | none => none
      else some (⟨[], key⟩, q)
    else none

/-- The shape `try_header_fast` looks for: the path, its first byte, and the closing bracket. -/
def fastShape (r : Bytes) : Option (KeyPath × Bytes × Bytes) :=
  if r.head? = some Ch.lbrack ∧ r[1]? ≠ some Ch.lbrack then
    match fastPath 8 (r.drop 1) with
    | some (path, q) => if q.head? = some Ch.rbrack then some (path, r.drop 1, q) else none
    | none => none
  else none

/-- `try_header_fast`: the state it leaves, and its verdict with the target table where it takes
the line. -/
def tryHeaderFast (s : PState) : PState × Option (Except Diag (List Key)) :=
  match fastShape s.rest with
  | none => (s, none)
  | some (path, start, q) =>
    let s := { s with curPath := start.take (start.length - q.length) }
    match fastWalk (q.drop 1) path.last path.parents s.root with
    | (root, none) => ({ s with root := root }, none)
    | (root, some (.error e)) => ({ s with root := root, rest := q.drop 1 }, some (.error e))
    | (root, some (.ok ())) => ({ s with root := root, rest := q.drop 1 }, some (.ok path.parts))

/-- A header line in the main loop: the fast route, and the general one where it hands back. -/
def headerLine (cfg : Config) (s : PState) : Except Diag PState :=
  match tryHeaderFast s with
  | (s, some (.ok target)) => .ok { s with cur := target }
  | (_, some (.error e)) => .error e
  | (s, none) => parseHeader cfg s

end Teptris
