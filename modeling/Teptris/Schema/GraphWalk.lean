import Teptris.Schema.Validate

/-!
# The walk over a schema with references

`val` as it is: over nodes that refer to each other, with the annotation frames, the dynamic
scopes and the counters of `vctx`.  The contents of the frames are given (`FrameImpl`); what they
hold is read by `unevaluated*` alone.  A walk comes with a log of its calls, of the errors it
reports and of whether a push found its stack full; nothing in the walk reads the log.
-/

namespace Teptris

/-! ## Nodes -/

/-- An anchor that a node brings into scope. -/
structure DynAnchor (N : Type) where
  /-- `name`. -/
  name : Bytes
  /-- `node`. -/
  node : N
  /-- `res`. -/
  res : ℕ

/-- `sch_node`, with other nodes as what points to them. -/
structure GraphNode (R N : Type) where
  /-- The fields that hold no schemas. -/
  asserts : Assertions R := {}
  /-- `format`. -/
  format : ℕ := 0
  /-- `content_encoding`. -/
  contentEncoding : Option Bytes := none
  /-- `content_media_type`. -/
  contentMediaType : Option Bytes := none
  /-- `content_schema`. -/
  contentSchema : Option N := none
  /-- `ref`. -/
  ref : Option N := none
  /-- `ref_only`. -/
  refOnly : Bool := false
  /-- `dynamic_ref`. -/
  dynamicRef : Option Bytes := none
  /-- `dynamic_ref_target`. -/
  dynamicTarget : Option N := none
  /-- `dynamic_recursive`. -/
  dynamicRecursive : Bool := false
  /-- `self_scope`. -/
  selfScope : List (DynAnchor N) := []
  /-- `res_id`. -/
  resId : ℕ := 0
  /-- `recursive_anchor` is set. -/
  recursiveAnchor : Bool := false
  /-- `props`. -/
  props : List (Bytes × N) := []
  /-- `pprops`. -/
  pprops : List (R × N) := []
  /-- `additional`. -/
  additional : Option N := none
  /-- `prop_names`. -/
  propNames : Option N := none
  /-- `dep_schemas`. -/
  depSchemas : List (Bytes × N) := []
  /-- `prefix`. -/
  tuple : List N := []
  /-- `items`. -/
  items : Option N := none
  /-- `add_items`. -/
  addItems : Option N := none
  /-- `contains`. -/
  contains : Option N := none
  /-- `all_of`. -/
  allOf : List N := []
  /-- `any_of`. -/
  anyOf : List N := []
  /-- `one_of`. -/
  oneOf : List N := []
  /-- `_not`. -/
  not_ : Option N := none
  /-- `if_s`. -/
  if_ : Option N := none
  /-- `then_s`. -/
  then_ : Option N := none
  /-- `else_s`. -/
  else_ : Option N := none
  /-- `uneval_props`. -/
  unevalProps : Option N := none
  /-- `uneval_items`. -/
  unevalItems : Option N := none

/-! ## State -/

/-- A step down in a document. -/
inductive Seg where
  /-- To the member of a key. -/
  | key (k : Bytes)
  /-- To an element. -/
  | idx (i : ℕ)

/-- How a step is written in a path. -/
def Seg.text : Seg → Bytes
  | .key k => if plainKey k then k else Ch.dquote :: k ++ [Ch.dquote]
  | .idx i => natText i

/-- `path_push` and `path_push_idx`. -/
def Vctx.pushSeg (c : Vctx) : Seg → Vctx
  | .key k => c.pathPush k
  | .idx i => c.pathPushIdx i

/-- The value a walk is at: its location in the document, and how many steps led aside, to a name
or to a decoded content. -/
structure Inst where
  /-- The location, as a path shows it. -/
  loc : List Bytes
  /-- The steps aside. -/
  aside : ℕ

/-- A value below. -/
def Inst.down (i : Inst) (s : Seg) : Inst := { i with loc := i.loc ++ [s.text] }

/-- A value aside. -/
def Inst.next (i : Inst) : Inst := { i with aside := i.aside + 1 }

/-- The annotation frames. -/
structure FrameImpl (F : Type) where
  /-- A frame of `frame_push`. -/
  new : Inst → F
  /-- `frame_add_key`. -/
  addKey : Bytes → F → F
  /-- `frame_add_idx`. -/
  addIdx : ℕ → F → F
  /-- `frame_merge_up`, of a frame into its parent. -/
  merge : F → F → F
  /-- What a trial saves. -/
  counts : F → ℕ × ℕ
  /-- `frame_truncate_to`. -/
  truncate : ℕ × ℕ → F → F
  /-- `frame_key_seen`. -/
  keySeen : F → Bytes → Bool
  /-- `frame_idx_seen`. -/
  idxSeen : F → ℕ → Bool

/-- An entry of the dynamic scope. -/
structure DynScope (N : Type) where
  /-- What it names. -/
  anchor : DynAnchor N
  /-- `owner`. -/
  owner : N

/-- `vctx`. -/
structure WalkState (N F : Type) where
  /-- The report and the path stacks. -/
  vc : Vctx
  /-- `ref_depth`. -/
  refDepth : ℕ
  /-- `frames`, the top one first. -/
  frames : List F
  /-- `scopes`, the outermost first. -/
  scopes : List (DynScope N)

/-- What a call of `val` has to give back as it was. -/
structure Levels where
  /-- The instance path. -/
  path : List Bytes
  /-- The schema path. -/
  schemaPath : List Bytes
  /-- `n_frames`. -/
  frames : ℕ
  /-- `n_scopes`. -/
  scopes : ℕ
  /-- `mute`. -/
  mute : ℕ
  /-- `ref_depth`. -/
  refDepth : ℕ
deriving DecidableEq

/-- The segments in use. -/
def Vctx.path (c : Vctx) : List Bytes := c.segs.take c.depth

/-- The segments of the schema path in use. -/
def Vctx.schemaPath (c : Vctx) : List Bytes := c.ssegs.take c.sdepth

/-- The levels of a state. -/
def WalkState.levels {N F : Type} (s : WalkState N F) : Levels :=
  ⟨s.vc.path, s.vc.schemaPath, s.frames.length, s.scopes.length, s.vc.mute, s.refDepth⟩

/-- What happened in a walk. -/
structure WalkLog where
  /-- The calls of `val`, with the levels at entry and at return. -/
  calls : List (Levels × Levels) := []
  /-- Errors outside of trials: the location of the value, and the path that is reported. -/
  errors : List (List Bytes × List Bytes) := []
  /-- A push found its stack full. -/
  lost : Bool := false

/-- One log after the other. -/
def WalkLog.append (l l' : WalkLog) : WalkLog :=
  ⟨l.calls ++ l'.calls, l.errors ++ l'.errors, l.lost || l'.lost⟩

/-- A part of the walk; `none` where it does not return. -/
abbrev Part (N F : Type) := WalkState N F → Option (WalkState N F × WalkLog)

/-! ## Parts -/

namespace Part

variable {N F : Type}

/-- Nothing. -/
def skip : Part N F := fun s => some (s, {})

/-- One part after the other. -/
def andThen (p q : Part N F) : Part N F := fun s =>
  (p s).bind fun a => (q a.1).map fun b => (b.1, a.2.append b.2)

/-- The parts of some values. -/
def each {α : Type} (f : α → Part N F) : List α → Part N F
  | [] => skip
  | x :: xs => (f x).andThen (each f xs)

/-- The part of a value that may be missing. -/
def opt {α : Type} (o : Option α) (f : α → Part N F) : Part N F := o.elim skip f

/-- A change of the state that is no push. -/
def change (f : WalkState N F → WalkState N F) : Part N F := fun s => some (f s, {})

/-- Checks of the value at a location. -/
def checks (i : Inst) (f : Vctx → Vctx) : Part N F := fun s =>
  let c := f s.vc
  some ({ s with vc := c },
    { errors := if s.vc.mute = 0 ∧ c.pings ≠ s.vc.pings then [(i.loc, s.vc.path)] else [] })

/-- `verr`. -/
def report (i : Inst) (msg : Bytes) : Part N F := checks i fun c => c.verr msg

/-- A check, with its message. -/
def require (i : Inst) (ok : Bool) (msg : Bytes) : Part N F := checks i fun c => c.check ok msg

/-- `spush`. -/
def spush (seg : Bytes) : Part N F := fun s =>
  some ({ s with vc := s.vc.spush seg }, { lost := 64 ≤ s.vc.sdepth })

/-- `spop`. -/
def spop : Part N F := change fun s => { s with vc := s.vc.spop }

/-- `path_push` or `path_push_idx`. -/
def pathPush (seg : Seg) : Part N F := fun s =>
  some ({ s with vc := s.vc.pushSeg seg }, { lost := 128 ≤ s.vc.depth })

/-- `path_pop`. -/
def pathPop : Part N F := change fun s => { s with vc := s.vc.pathPop }

/-- A part under a segment of the schema path. -/
def sunder (sseg : Bytes) (p : Part N F) : Part N F := ((spush sseg).andThen p).andThen spop

/-- A part under a segment of both paths. -/
def under (i : Inst) (sseg : Bytes) (seg : Seg) (p : Inst → Part N F) : Part N F :=
  sunder sseg (((pathPush seg).andThen (p (i.down seg))).andThen pathPop)

/-- A part, and a note in the top frame if it reports nothing. -/
def quietly (p : Part N F) (note : F → F) : Part N F := fun s =>
  (p s).map fun a =>
    if a.1.vc.pings = s.vc.pings then ({ a.1 with frames := a.1.frames.modifyHead note }, a.2)
    else a

/-- The state behind a trial: its signals are consumed, and where it is dropped so are its report
and its annotations. -/
def trialEnd (ops : FrameImpl F) (keep : Bool) (s s' : WalkState N F) : WalkState N F :=
  let vc := { s'.vc with mute := s'.vc.mute - 1, pings := s.vc.pings }
  if keep then { s' with vc }
  else
    { s' with
      vc := { vc with buf := vc.buf.take s.vc.buf.length, sdepth := s.vc.sdepth }
      frames := s'.frames.modifyHead (ops.truncate ((s.frames.head?.map ops.counts).getD (0, 0))) }

/-- `passes`, or `passes_annot_free`, and what follows its verdict. -/
def trial (ops : FrameImpl F) (free : Bool) (p : Part N F) (next : Bool → Part N F) : Part N F :=
  fun s =>
    (p { s with vc := { s.vc with mute := s.vc.mute + 1 } }).bind fun a =>
      let ok : Bool := a.1.vc.pings = s.vc.pings
      (next ok (trialEnd ops (ok && !free) s a.1)).map fun b => (b.1, a.2.append b.2)

/-- `passes`, of one value after the other, and what follows the number of hits. -/
def tryEach {α : Type} (ops : FrameImpl F) (p : α → Part N F) (next : ℕ → Part N F) :
    List α → ℕ → Part N F
  | [], hits => next hits
  | x :: xs, hits =>
    trial ops false (p x) fun ok => tryEach ops p next xs (if ok then hits + 1 else hits)

end Part

open Part

/-! ## Dynamic scopes -/

/-- What a walk is given. -/
structure WalkEnv (R N F : Type) where
  /-- The leaf predicates. -/
  leaves : Leaves R
  /-- The nodes. -/
  node : N → GraphNode R N
  /-- The annotation frames. -/
  ops : FrameImpl F
  /-- `format_ok`. -/
  formatOk : ℕ → SValue → Bool
  /-- `str_is_base64`. -/
  isBase64 : Bytes → Bool
  /-- `b64_decode`, of a text that is base64. -/
  decode : Bytes → Bytes
  /-- `json_read`, and `jv_to_sv` of what it gives. -/
  readJson : Bytes → Option SValue

section Walk

variable {R N F : Type} (env : WalkEnv R N F)

/-- `scope_resolve`; a resource that was searched before is searched again, in vain. -/
def scopeResolve (scopes : List (DynScope N)) (name : Bytes) : Option N :=
  scopes.findSome? fun sc =>
    (scopes.find? fun t => t.anchor.res == (env.node sc.owner).resId && t.anchor.name == name).map
      (·.anchor.node)

/-- `scope_resolve_recursive`. -/
def scopeResolveRecursive (scopes : List (DynScope N)) : Option N :=
  (scopes.find? fun sc => (env.node sc.owner).recursiveAnchor).map (·.owner)

/-! ## One application -/

variable (rec : N → Inst → SValue → Part N F)

/-- `vc->n_scopes = scopes_base`. -/
def trimScopes (base : ℕ) : Part N F := change fun s => { s with scopes := s.scopes.take base }

/-- A hop to another node, unless there were too many. -/
def hop (base : ℕ) (sseg msg : String) (target : N) (i : Inst) (v : SValue) : Part N F := fun s =>
  if maxSchemaDepth ≤ s.refDepth then report i (ascii msg) s
  else
    (((change fun s => { s with refDepth := s.refDepth + 1 }).andThen
      (sunder (ascii sseg) ((rec target i v).andThen (trimScopes base)))).andThen
        (change fun s => { s with refDepth := s.refDepth - 1 })) s

/-- `$dynamicRef` and `$recursiveRef`. -/
def dynamicPart (n : GraphNode R N) (base : ℕ) (i : Inst) (v : SValue) : Part N F := fun s =>
  match n.dynamicRef with
  | none => skip s
  | some r =>
    let name := if r.head? = some 0x23 then r.drop 1 else r
    let found := if n.dynamicRecursive then scopeResolveRecursive env s.scopes
      else scopeResolve env s.scopes name
    opt (found.or n.dynamicTarget)
      (fun t => hop rec base "$dynamicRef" "cyclic dynamic $ref recursion" t i v) s

/-- `$ref`. -/
def refPart (n : GraphNode R N) (base : ℕ) (i : Inst) (v : SValue) : Part N F :=
  opt n.ref fun t => hop rec base "$ref" "cyclic $ref recursion" t i v

/-- `check_content`. -/
def contentPart (n : GraphNode R N) (i : Inst) (text : Bytes) : Part N F :=
  let b64 : Bool := n.contentEncoding = some (ascii "base64")
  let payload := if b64 then env.decode text else text
  let schema (w : SValue) : Part N F :=
    opt n.contentSchema fun t => sunder (ascii "contentSchema") (rec t i.next w)
  if b64 && !env.isBase64 text then
    report i (ascii "string is not valid base64 (contentEncoding)")
  else if n.contentMediaType = some (ascii "application/json") then
    match env.readJson payload with
    | none => report i (ascii "string is not valid JSON (contentMediaType)")
    | some w => schema w
  else schema (.string payload)

/-- The keywords on strings. -/
def stringPart (n : GraphNode R N) (i : Inst) (v : SValue) : Part N F :=
  match v.text with
  | none => skip
  | some _ =>
    ((checks i (checkString env.leaves n.asserts v)).andThen
      (Part.require i (n.format = 0 || env.formatOk n.format v)
        (ascii "string does not match the format"))).andThen
      (match v with
        | .string text => contentPart env rec n i text
        | _ => skip)

/-- A child value, under a schema that is not the false one. -/
def childPart (t : N) (v : SValue) (note : F → F) (i : Inst) : Part N F := quietly (rec t i v) note

/-- A child value; the false schema has a message of its own. -/
def otherPart (msg : Bytes) (t : N) (v : SValue) (note : F → F) (i : Inst) : Part N F :=
  if (env.node t).asserts.isFalse then report i msg else childPart rec t v note i

/-- A member of a table. -/
def memberPart (n : GraphNode R N) (i : Inst) (m : Bytes × SValue) : Part N F :=
  let prop := n.props.find? fun p => p.1 == m.1
  let pats := n.pprops.filter fun p => env.leaves.isMatch p.1 m.1
  let note := env.ops.addKey m.1
  ((opt prop fun p =>
    under i (ascii "properties." ++ m.1) (.key m.1) (childPart rec p.2 m.2 note)).andThen
    (each (fun p => under i (ascii "patternProperties") (.key m.1) (childPart rec p.2 m.2 note))
      pats)).andThen
    (if prop.isSome || !pats.isEmpty then skip
      else opt n.additional fun t =>
        under i (ascii "additionalProperties") (.key m.1)
          (otherPart env rec (unknownText m.1) t m.2 note))

/-- `propertyNames`, of a member. -/
def namePart (n : GraphNode R N) (i : Inst) (m : Bytes × SValue) : Part N F :=
  opt n.propNames fun t =>
    sunder (ascii "propertyNames")
      (trial env.ops false (rec t i.next (.string m.1)) fun ok =>
        Part.require i ok (ascii "property name '" ++ m.1 ++ ascii "' fails propertyNames"))

/-- A pair of `dependentSchemas`. -/
def depSchemaPart (i : Inst) (ms : List (Bytes × SValue)) (d : Bytes × N) : Part N F :=
  if hasKey ms d.1 then
    trial env.ops false (rec d.2 i (.table ms)) fun ok =>
      Part.require i ok (ascii "the '" ++ d.1 ++ ascii "' dependency schema does not hold")
  else skip

/-- The keywords on tables. -/
def tablePart (n : GraphNode R N) (i : Inst) (ms : List (Bytes × SValue)) : Part N F :=
  each id
    [checks i (checkProps n.asserts ms), each (memberPart env rec n i) ms,
      each (namePart env rec n i) ms, checks i (checkDepReq n.asserts ms),
      each (depSchemaPart env rec i ms) n.depSchemas]

/-- An element of an array, with its index. -/
def elementPart (n : GraphNode R N) (i : Inst) (e : SValue × ℕ) : Part N F :=
  let note := env.ops.addIdx e.2
  match n.tuple[e.2]?, n.items, n.addItems with
  | some t, _, _ => under i (ascii "prefixItems") (.idx e.2) (childPart rec t e.1 note)
  | none, some t, _ => under i (ascii "items") (.idx e.2) (childPart rec t e.1 note)
  | none, none, some t =>
    under i (ascii "additionalItems") (.idx e.2) (otherPart env rec beyondText t e.1 note)
  | none, none, none => skip

/-- `contains`. -/
def containsPart (n : GraphNode R N) (i : Inst) (vs : List SValue) : Part N F :=
  opt n.contains fun t =>
    tryEach env.ops (fun e => rec t (i.down (.idx e.2)) e.1) (fun hits =>
      each id
        [Part.require i (n.asserts.minContains.getD 1 ≤ (hits : ℤ))
            (ascii "fewer matching items than minContains"),
          Part.require i ((hits : ℤ) ≤ n.asserts.maxContains.getD vs.length)
            (ascii "more matching items than maxContains"),
          if containsOk n.asserts vs.length hits then
            each (fun e => trial env.ops false (rec t (i.down (.idx e.2)) e.1) fun ok =>
              if ok then
                change fun s => { s with frames := s.frames.modifyHead (env.ops.addIdx e.2) }
              else skip) vs.zipIdx
          else skip]) vs.zipIdx 0

/-- The keywords on arrays. -/
def arrayPart (n : GraphNode R N) (i : Inst) (vs : List SValue) : Part N F :=
  each id
    [checks i (checkItems env.leaves n.asserts vs), each (elementPart env rec n i) vs.zipIdx,
      containsPart env rec n i vs]

/-- `anyOf`. -/
def anyPart (n : GraphNode R N) (i : Inst) (v : SValue) : Part N F :=
  if n.anyOf = [] then skip
  else tryEach env.ops (fun t => rec t i v) (fun hits =>
    Part.require i (0 < hits) (ascii "does not match any of the " ++ natText n.anyOf.length ++
      ascii " anyOf schemas")) n.anyOf 0

/-- `oneOf`. -/
def onePart (n : GraphNode R N) (i : Inst) (v : SValue) : Part N F :=
  if n.oneOf = [] then skip
  else tryEach env.ops (fun t => rec t i v) (fun hits =>
    Part.require i (hits = 1) (ascii "matches " ++ natText hits ++ ascii " of the " ++
      natText n.oneOf.length ++ ascii " oneOf schemas (exactly one required)")) n.oneOf 0

/-- `not`. -/
def notPart (n : GraphNode R N) (i : Inst) (v : SValue) : Part N F :=
  opt n.not_ fun t => trial env.ops true (rec t i v) fun ok =>
    Part.require i (!ok) (ascii "must not match the not-schema")

/-- `if`, `then` and `else`. -/
def ifPart (n : GraphNode R N) (i : Inst) (v : SValue) : Part N F :=
  opt n.if_ fun t => trial env.ops false (rec t i v) fun ok =>
    if ok then opt n.then_ fun b => sunder (ascii "then") (rec b i v)
    else opt n.else_ fun b => sunder (ascii "else") (rec b i v)

/-- A member under `unevaluatedProperties`. -/
def unevalMember (t : N) (i : Inst) (m : Bytes × SValue) : Part N F := fun s =>
  if s.frames.head?.any fun f => env.ops.keySeen f m.1 then skip s
  else
    under i (ascii "unevaluatedProperties") (.key m.1)
      (otherPart env rec (ascii "unevaluated property '" ++ m.1 ++ ascii "' is not allowed") t m.2
        (env.ops.addKey m.1)) s

/-- An element under `unevaluatedItems`. -/
def unevalElement (t : N) (i : Inst) (e : SValue × ℕ) : Part N F := fun s =>
  if s.frames.head?.any fun f => env.ops.idxSeen f e.2 then skip s
  else
    under i (ascii "unevaluatedItems") (.idx e.2)
      (otherPart env rec (ascii "array has an unevaluated item at index " ++ natText e.2) t e.1
        (env.ops.addIdx e.2)) s

/-- `unevaluatedProperties` and `unevaluatedItems`. -/
def unevalPart (n : GraphNode R N) (i : Inst) (v : SValue) : Part N F :=
  match v with
  | .table ms => opt n.unevalProps fun t => each (unevalMember env rec t i) ms
  | .array vs => opt n.unevalItems fun t => each (unevalElement env rec t i) vs.zipIdx
  | _ => skip

/-- The keywords beside references, of a schema that is not the false one. -/
def keywordPart (n : GraphNode R N) (i : Inst) (v : SValue) : Part N F :=
  each id
    [checks i (checkValue env.leaves n.asserts v), checks i (checkNumeric env.leaves n.asserts v),
      stringPart env rec n i v,
      match v with
      | .table ms => tablePart env rec n i ms
      | .array vs => arrayPart env rec n i vs
      | _ => skip,
      each (fun t => sunder (ascii "allOf") (rec t i v)) n.allOf,
      anyPart env rec n i v, onePart env rec n i v, notPart env rec n i v, ifPart env rec n i v,
      unevalPart env rec n i v]

/-- `frame_pop`. -/
def popFrame (ops : FrameImpl F) : List F → List F
  | f :: p :: fs => ops.merge f p :: fs
  | _ => []

/-- The state in which a node is applied: a frame and a scope of its own. -/
def enterNode (n : N) (i : Inst) (s : WalkState N F) : WalkState N F :=
  { s with
    frames := env.ops.new i :: s.frames
    scopes := s.scopes ++ (env.node n).selfScope.map fun a => ⟨a, n⟩ }

/-- The state behind it. -/
def leaveNode (base : ℕ) (s : WalkState N F) : WalkState N F :=
  { s with frames := popFrame env.ops s.frames, scopes := s.scopes.take base }

/-- A node applied to a value. -/
def applyNode (n : N) (i : Inst) (v : SValue) : Part N F := fun s =>
  let g := env.node n
  let base := s.scopes.length
  each id
    [change (enterNode env n i), dynamicPart env rec g base i v, refPart rec g base i v,
      if g.ref.isSome && g.refOnly then skip
      else if g.asserts.isFalse then
        report i (ascii "no value is allowed here (the false schema)")
      else keywordPart env rec g i v,
      change (leaveNode env base)] s

/-- `val`, with the depth of the recursion that is left; the call goes into the log. -/
def valCall : ℕ → N → Inst → SValue → Part N F
  | 0, _, _, _, _ => none
  | k + 1, n, i, v, s =>
    (if maxSchemaDepth ≤ s.vc.depth then report i (ascii "schema depth exceeded") s
      else applyNode env (valCall k) n i v s).map fun a =>
        (a.1, a.2.append { calls := [(s.levels, a.1.levels)] })

end Walk

end Teptris
