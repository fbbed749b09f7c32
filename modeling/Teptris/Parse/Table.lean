import Teptris.Parse.KeyPath

/-!
# Table definition

How a statement changes the tree: `insert_dotted` for a key/value pair, `resolve_header` for a
header, and the walk of `try_header_fast`.  The open table is a path of keys from the root; a
path leads through an array of tables to its last element.  `pos` is the input left at the
position failures report.
-/

namespace Teptris

/-- `insert_dotted`, along the parts of the path before the last one. -/
def insertDotted (pos : Bytes) (path : KeyPath) (value : Node) :
    List Key → Entries → Except Diag Entries
  | [], t =>
    match probe path.last t with
    | some _ =>
      -- the source prints the parent path as one span of the input
      if path.parents = [] then
        failNaming pos .errSemantic "duplicate key '%.*s'" [path.last.bytes]
      else
        failNaming pos .errSemantic "duplicate key '%.*s' in table '%.*s'"
          (path.last.bytes :: path.parents.map Key.bytes)
    | none => .ok (insert t path.last value)
  | part :: rest, t =>
    match probe part t with
    | none =>
      match insertDotted pos path value rest [] with
      | .error e => .error e
      | .ok es => .ok (insert t part (.table .dotted es))
    | some (.table flag es) =>
      if flag = .inline then
        failNaming pos .errSemantic "cannot extend inline table '%.*s'" [part.bytes]
      else if flag = .implicit ∨ flag = .explicit then
        failNaming pos .errSemantic "cannot extend table '%.*s' defined by a header" [part.bytes]
      else
        match insertDotted pos path value rest es with
        | .error e => .error e
        | .ok es => .ok (setValue part (.table flag es) t)
    | some _ => failNaming pos .errSemantic "key '%.*s' is not a table" [part.bytes]

/-- The last part of `resolve_header`. -/
def resolveLast (pos : Bytes) (aot : Bool) (last : Key) (t : Entries) : Except Diag Entries :=
  if aot then
    match probe last t with
    | none => .ok (insert t last (.array true [.table .explicit []]))
    | some (.array true items) =>
      .ok (setValue last (.array true (items ++ [.table .explicit []])) t)
    | some _ =>
      failNaming pos .errSemantic "cannot redefine '%.*s' as an array of tables" [last.bytes]
  else
    match probe last t with
    | none => .ok (insert t last (.table .explicit []))
    | some (.table .implicit es) => .ok (setValue last (.table .explicit es) t)
    | some _ => failNaming pos .errSemantic "table '%.*s' defined more than once" [last.bytes]

/-- `resolve_header`, along the parts of the path before the last one. -/
def resolveHeader (pos : Bytes) (aot : Bool) (last : Key) :
    List Key → Entries → Except Diag Entries
  | [], t => resolveLast pos aot last t
  | part :: rest, t =>
    match probe part t with
    | none =>
      match resolveHeader pos aot last rest [] with
      | .error e => .error e
      | .ok es => .ok (insert t part (.table .implicit es))
    | some (.array isAot items) =>
      if !isAot then
        failNaming pos .errSemantic "cannot extend plain array '%.*s'" [part.bytes]
      else
        match items.getLast? with
        | some (.table flag es) =>
          match resolveHeader pos aot last rest es with
          | .error e => .error e
          | .ok es =>
            .ok (setValue part (.array true (items.dropLast ++ [.table flag es])) t)
        | _ => failAt pos .errState "corrupt array of tables"
    | some (.table flag es) =>
      if flag = .inline then
        failNaming pos .errSemantic "cannot extend inline table '%.*s'" [part.bytes]
      else
        match resolveHeader pos aot last rest es with
        | .error e => .error e
        | .ok es => .ok (setValue part (.table flag es) t)
    | some _ => failNaming pos .errSemantic "key '%.*s' is not a table" [part.bytes]

/-- The resolution of `try_header_fast`: the tree it leaves, and its verdict where it takes the
line. -/
def fastWalk (pos : Bytes) (last : Key) :
    List Key → Entries → Entries × Option (Except Diag Unit)
  | [], t =>
    match probe last t with
    | some _ => (t, none)
    | none => (insert t last (.table .explicit []), some (.ok ()))
  | part :: rest, t =>
    match probe part t with
    | none =>
      let w := fastWalk pos last rest []
      (insert t part (.table .implicit w.1), w.2)
    | some (.array isAot items) =>
      if !isAot then
        (t, some (failNaming pos .errSemantic "cannot extend plain array '%.*s'" [part.bytes]))
      else
        match items.getLast? with
        | some (.table flag es) =>
          let w := fastWalk pos last rest es
          (setValue part (.array true (items.dropLast ++ [.table flag w.1])) t, w.2)
        -- the source does not look at the kind of the element; it is a table
        | _ => (t, some (failAt pos .errState "corrupt array of tables"))
    | some (.table flag es) =>
      if flag = .inline then
        (t, some (failNaming pos .errSemantic "cannot extend inline table '%.*s'" [part.bytes]))
      else
        let w := fastWalk pos last rest es
        (setValue part (.table flag w.1) t, w.2)
    | some _ => (t, some (failNaming pos .errSemantic "key '%.*s' is not a table" [part.bytes]))

/-! ## The open table -/

/-- The entries of the table a path leads to. -/
def entriesAt : List Key → Entries → Entries
  | [], t => t
  | k :: ks, t =>
    match probe k t with
    | some (.table _ es) => entriesAt ks es
    | some (.array _ items) =>
      match items.getLast? with
      | some (.table _ es) => entriesAt ks es
      | _ => []
    | _ => []

/-- The tree with the entries of the table a path leads to replaced. -/
def setEntriesAt (new : Entries) : List Key → Entries → Entries
  | [], _ => new
  | k :: ks, t =>
    match probe k t with
    | some (.table flag es) => setValue k (.table flag (setEntriesAt new ks es)) t
    | some (.array aot items) =>
      match items.getLast? with
      | some (.table flag es) =>
        setValue k (.array aot (items.dropLast ++ [.table flag (setEntriesAt new ks es)])) t
      | _ => t
    | _ => t

end Teptris
