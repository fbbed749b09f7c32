import Teptris.Schema.JsonRead
import Teptris.Schema.Uri

/-!
# The resources of a compile

`schema.c` and `refs.c`: the pass that gives every object of a document its base, and the
resolution of a reference against it.  What is read from outside is given: the vendored
metaschemas, and the file system.
-/

namespace Teptris

/-! ## Context -/

/-- `teptris_resource`: a base that names a value. -/
structure Resource where
  /-- `abs`. -/
  abs : Bytes
  /-- `root`. -/
  root : Jv
  /-- `recursive_anchor`. -/
  recursive : Bool

/-- What the pass hands down: a base and a directory, either of them possibly `NULL`, and the
resource they belong to. -/
structure Scope where
  /-- `abs`. -/
  base : Option Bytes
  /-- `dir`. -/
  dir : Option Bytes
  /-- `root`. -/
  root : Jv
  /-- `recursive`. -/
  recursive : Bool

/-- The part of `sctx` that references go through. -/
structure Sctx where
  /-- `anchors`. -/
  anchors : List (Bytes × Jv) := []
  /-- `dyn_anchors`. -/
  dynAnchors : List (Bytes × Jv) := []
  /-- `rec_anchor_target`. -/
  recAnchor : Option Jv := none
  /-- `resources`. -/
  resources : List Resource := []
  /-- `node_bases`, with the object each belongs to. -/
  nodeBases : List (Jv × Scope) := []
  /-- `vocab_mask`. -/
  vocabMask : UInt32 := 31

/-- What a compile reads from outside. -/
structure Host where
  /-- `strtod`. -/
  strtod : Bytes → Double
  /-- `teptris_builtin_resources`. -/
  builtins : List (Bytes × Bytes)
  /-- The files that can be opened, by their paths. -/
  file : Bytes → Option Bytes

/-- The text of a member that is a string. -/
def stringMember (v : Jv) (key : String) : Option Bytes :=
  match v with
  | .object ms =>
    match jvMemberGet ms (ascii key) with
    | some (.string s) => some (cstr s)
    | _ => none
  | _ => none

/-- The root declares `"$recursiveAnchor": true`. -/
def recursiveRoot : Jv → Bool
  | .object ms =>
    match jvMemberGet ms (ascii "$recursiveAnchor") with
    | some (.bool b) => b
    | _ => false
  | _ => false

/-! ## The passes over a document -/

/-- What `collect_anchors` does with a member. -/
def collectAnchor (v : Jv) (m : Bytes × Jv) (c : Sctx) : Sctx :=
  match m.2 with
  | .string s =>
    if m.1 = ascii "$anchor" then { c with anchors := c.anchors ++ [(cstr s, v)] }
    else if m.1 = ascii "$dynamicAnchor" then
      { c with dynAnchors := c.dynAnchors ++ [(cstr s, v)] }
    else c
  | .bool true =>
    if m.1 = ascii "$recursiveAnchor" ∧ c.recAnchor.isNone then { c with recAnchor := some v }
    else c
  | _ => c

mutual

/-- `collect_anchors`. -/
def collectAnchors : Jv → Sctx → Sctx
  | .object ms, c => collectAnchorsMembers (.object ms) ms c
  | .array vs, c => collectAnchorsItems vs c
  | _, c => c

/-- The members of an object. -/
def collectAnchorsMembers (v : Jv) : List (Bytes × Jv) → Sctx → Sctx
  | [], c => c
  | (k, w) :: ms, c =>
    collectAnchorsMembers v ms (collectAnchors w (collectAnchor v (k, w) c))

/-- The items of an array. -/
def collectAnchorsItems : List Jv → Sctx → Sctx
  | [], c => c
  | w :: vs, c => collectAnchorsItems vs (collectAnchors w c)

end

/-- The directory a joined base lends to its resource. -/
def dirOfBase (abs : Bytes) (dir : Option Bytes) : Option Bytes :=
  if startsWith abs "file://" then some (dirOfPath (fileUriToPath abs)) else dir

/-- What a string `$id` does to the scope of its object. -/
def enterId (v : Jv) (id : Bytes) (s : Scope) : Except Fault Scope :=
  match uriJoin s.base id uriMax with
  | .error f => .error f
  | .ok (some abs) => .ok ⟨some abs, dirOfBase abs s.dir, v, recursiveRoot v⟩
  | .ok none =>
    if isHttp id then .ok ⟨some id, s.dir, v, recursiveRoot v⟩ else .ok s

/-- A fragment-only `$id` names an anchor. -/
def aliasAnchor (v : Jv) (id : Bytes) (c : Sctx) : Sctx :=
  if id.head? = some 0x23 then { c with anchors := c.anchors ++ [(id.drop 1, v)] } else c

/-- The base of an object with an `$id` goes into the table, once. -/
def registerBase (v : Jv) (s : Scope) (c : Sctx) : Except Fault Sctx :=
  match s.base with
  | none => .error .nullBase
  | some abs =>
    if abs = [] ∨ (c.resources.any fun r => r.abs == abs) ∨ 128 ≤ c.resources.length then .ok c
    else .ok { c with resources := c.resources ++ [⟨abs, v, s.recursive⟩] }

/-- What `collect_ids` does at an object, before its members. -/
def collectId (ms : List (Bytes × Jv)) (s : Scope) (c : Sctx) : Except Fault (Scope × Sctx) :=
  match jvMemberGet ms (ascii "$id") with
  | none => .ok (s, { c with nodeBases := c.nodeBases ++ [(.object ms, s)] })
  | some idv =>
    let entered : Except Fault (Scope × Sctx) :=
      match idv with
      | .string id =>
        (enterId (.object ms) (cstr id) s).map fun s => (s, aliasAnchor (.object ms) (cstr id) c)
      | _ => .ok (s, c)
    match entered with
    | .error f => .error f
    | .ok (s, c) =>
      (registerBase (.object ms) s
        { c with nodeBases := c.nodeBases ++ [(.object ms, s)] }).map fun c => (s, c)

mutual

/-- `collect_ids`. -/
def collectIds : Jv → Scope → Sctx → Except Fault Sctx
  | .object ms, s, c =>
    match collectId ms s c with
    | .error f => .error f
    | .ok (s, c) => collectIdsMembers ms s c
  | .array vs, s, c => collectIdsItems vs s c
  | _, _, c => .ok c

/-- The members of an object. -/
def collectIdsMembers : List (Bytes × Jv) → Scope → Sctx → Except Fault Sctx
  | [], _, c => .ok c
  | (_, w) :: ms, s, c =>
    match collectIds w s c with
    | .error f => .error f
    | .ok c => collectIdsMembers ms s c

/-- The items of an array. -/
def collectIdsItems : List Jv → Scope → Sctx → Except Fault Sctx
  | [], _, c => .ok c
  | w :: vs, s, c =>
    match collectIds w s c with
    | .error f => .error f
    | .ok c => collectIdsItems vs s c

end

/-! ## Resources -/

/-- `load_builtin_resource`. -/
def loadBuiltin (o : Host) (uri json : Bytes) (c : Sctx) :
    Except Fault (Option Jv × Sctx) :=
  match jsonRead o.strtod json with
  | .error _ => .ok (none, c)
  | .ok root =>
    let c := { c with resources := c.resources ++ [⟨uri, root, recursiveRoot root⟩] }
    (collectIds root ⟨some uri, none, root, recursiveRoot root⟩ (collectAnchors root c)).map
      fun c => (some root, c)

/-- `find_builtin_resource`. -/
def findBuiltin (o : Host) (uri : Bytes) (c : Sctx) : Except Fault (Option Jv × Sctx) :=
  match o.builtins.find? fun b => b.1 == uri with
  | none => .ok (none, c)
  | some b => loadBuiltin o uri b.2 c

/-- `sch_load_resource`, of a base that is in no table. -/
def loadResource (o : Host) (abs : Bytes) (c : Sctx) : Option Jv × Sctx :=
  if 64 ≤ c.resources.length then (none, c)
  else
    match (o.file (fileUriToPath abs)).map (·.take (2 ^ 20)) with
    | none => (none, c)
    | some text =>
      match jsonRead o.strtod text with
      | .error _ => (none, c)
      | .ok root =>
        if text = [] then (none, c)
        else (some root, { c with resources := c.resources ++ [⟨abs, root, false⟩] })

/-- A file that was loaded joins the resources. -/
def loadAndCollect (o : Host) (abs : Bytes) (c : Sctx) : Except Fault (Option Jv × Sctx) :=
  match loadResource o abs c with
  | (none, c) => .ok (none, c)
  | (some root, c) =>
    (collectIds root ⟨some abs, some (dirOfPath (fileUriToPath abs)), root, recursiveRoot root⟩
      c).map fun c => (some root, c)

/-- A joined base is looked up in the table, among the metaschemas and in the file system. -/
def locate (o : Host) (abs : Bytes) (c : Sctx) : Except Fault (Option Jv × Sctx) :=
  match c.resources.find? fun r => r.abs == abs with
  | some r => .ok (some r.root, c)
  | none =>
    match findBuiltin o abs c with
    | .error f => .error f
    | .ok (some root, c) => .ok (some root, c)
    | .ok (none, c) =>
      if abs = [] ∨ isHttp abs ∨ startsWith abs "urn:" then .ok (none, c)
      else loadAndCollect o abs c

/-! ## References -/

/-- The value of a hexadecimal digit, as `strchr` finds it with the letter case masked. -/
def maskedHex (c : UInt8) : Option ℕ := (ascii "0123456789abcdef").findIdx? (· == c ||| 0x20)

/-- The token of a JSON Pointer, unescaped and percent-decoded in one pass. -/
def pointerToken : Bytes → Bytes
  | 0x7E :: e :: t => (if e = 0x31 then 0x2F else 0x7E) :: pointerToken t
  | 0x25 :: hi :: lo :: t =>
    match maskedHex hi, maskedHex lo with
    | some h, some l => UInt8.ofNat (h * 16 + l) :: pointerToken t
    | _, _ => 0x25 :: pointerToken (hi :: lo :: t)
  | c :: t => c :: pointerToken t
  | [] => []

/-- The walk of a JSON Pointer: objects only. -/
def walkPointer : ℕ → Bytes → Jv → Option Jv
  | 0, _, v => some v
  | _ + 1, [], v => some v
  | n + 1, p, .object ms =>
    let tok := p.takeWhile (· != 0x2F)
    if 256 ≤ tok.length then none
    else
      (jvMemberGet ms (cstr (pointerToken tok))).bind (walkPointer n ((p.drop tok.length).drop 1))
  | _ + 1, _, _ => none

/-- A plain-name fragment: an `$anchor`, or a `$dynamicAnchor`. -/
def findAnchor (c : Sctx) (name : Bytes) : Option Jv :=
  ((c.anchors ++ c.dynAnchors).find? fun a => a.1 == name).map (·.2)

/-- `resolve_local`, in a resource. -/
def resolveLocal (c : Sctx) (root : Jv) (ref : Bytes) : Option Jv :=
  match ref with
  | 0x23 :: [] => some root
  | 0x23 :: 0x2F :: p => walkPointer (p.length + 1) p root
  | 0x23 :: name => findAnchor c name
  | _ => none

/-- The bases a reference is tried against, one after the other; the flag is `remote`. -/
def tryBases (o : Host) (doc : Bytes) : List (Option Bytes) → Sctx →
    Except Fault (Bool × Option Jv × Sctx)
  | [], c => .ok (false, none, c)
  | none :: bases, c => tryBases o doc bases c
  | some base :: bases, c =>
    if base = [] then tryBases o doc bases c
    else
      match uriJoin (some base) doc uriMax with
      | .error f => .error f
      | .ok none => if bases.isEmpty then .ok (true, none, c) else tryBases o doc bases c
      | .ok (some abs) =>
        match locate o abs c with
        | .error f => .error f
        | .ok (some root, c) => .ok (false, some root, c)
        | .ok (none, c) => tryBases o doc bases c

/-- The fragment of a reference, in the resource its document part names. -/
def inResource (c : Sctx) (frag : Bytes) (root : Jv) : Option Jv :=
  match frag with
  | [] => some root
  | 0x2F :: p => resolveLocal c root (snprint uriMax (0x23 :: 0x2F :: p))
  | name => findAnchor c name

/-- `resolve_uri_ref`, in the scope of an object. -/
def resolveUriRef (o : Host) (s : Scope) (r : Bytes) (c : Sctx) :
    Except Fault (Bool × Option Jv × Sctx) :=
  let (doc, frag) := uriSplit r
  if doc = [] then .ok (false, resolveLocal c s.root (snprint uriMax (0x23 :: frag)), c)
  else
    match findBuiltin o doc c with
    | .error f => .error f
    | .ok (some root, c) => .ok (false, some root, c)
    | .ok (none, c) =>
      if isHttp doc then .ok (true, none, c)
      else
        let dirs := if s.dir.getD [] = [] then [] else [s.dir]
        (tryBases o doc (s.base :: dirs) c).map fun a =>
          (a.1, a.2.1.bind (inResource a.2.2 frag), a.2.2)

end Teptris
