import Teptris.Schema.Compiled

/-!
# The validation walk

`validate.c`: the error report, the checks of one schema against one value, the muted trials, and
the recursive walk.  The annotation frames are left out, which only `unevaluated*` reads.
-/

namespace Teptris

/-! ## The report -/

/-- `MAX_ERRORS`. -/
def maxErrors : ℕ := 256

/-- `MAX_DEPTH`. -/
def maxSchemaDepth : ℕ := 512

/-- `vctx`: the report so far, the signals of trials, and the two path stacks, which keep what
was in their slots. -/
structure Vctx where
  /-- The error objects, joined by commas. -/
  buf : Bytes
  /-- How many there are. -/
  nErrors : ℕ
  /-- Trials in flight. -/
  mute : ℕ
  /-- Every `verr`, muted or not. -/
  pings : ℕ
  /-- The slots of the document path. -/
  segs : List Bytes
  /-- The slots in use. -/
  depth : ℕ
  /-- The slots of the schema path. -/
  ssegs : List Bytes
  /-- The slots in use. -/
  sdepth : ℕ
  /-- There were more than `MAX_ERRORS`. -/
  truncated : Bool

/-- The context in front of a walk. -/
def Vctx.new : Vctx := ⟨[], 0, 0, 0, List.replicate 128 [], 0, List.replicate 64 [], 0, false⟩

/-- A lower-case hexadecimal digit. -/
def hexLower (d : ℕ) : UInt8 := if d < 10 then UInt8.ofNat (0x30 + d) else UInt8.ofNat (0x57 + d)

/-- One byte of `out_json_escaped`. -/
def jsonByte (c : UInt8) : Bytes :=
  if c = Ch.dquote ∨ c = Ch.bslash then [Ch.bslash, c]
  else if c < 0x20 then
    ascii "\\u00" ++ [hexLower (c.toNat / 16), hexLower (c.toNat % 16)]
  else [c]

/-- One byte of the message in `verr`. -/
def messageByte (c : UInt8) : Bytes :=
  if c = Ch.dquote ∨ c = Ch.bslash then [Ch.bslash, c] else [c]

/-- `plain_key`. -/
def plainKey (k : Bytes) : Bool := k ≠ [] ∧ k.all isBareKey

namespace Vctx

/-- `path_push`. -/
def pathPush (c : Vctx) (seg : Bytes) : Vctx :=
  if 128 ≤ c.depth then c
  else
    let seg := if plainKey seg then seg else Ch.dquote :: seg ++ [Ch.dquote]
    { c with segs := c.segs.set c.depth seg, depth := c.depth + 1 }

/-- `path_push_idx`. -/
def pathPushIdx (c : Vctx) (idx : ℕ) : Vctx :=
  if 128 ≤ c.depth then c
  else { c with segs := c.segs.set c.depth (natText idx), depth := c.depth + 1 }

/-- `path_pop`. -/
def pathPop (c : Vctx) : Vctx := { c with depth := c.depth - 1 }

/-- `spush`: a segment is cut to 63 bytes. -/
def spush (c : Vctx) (seg : Bytes) : Vctx :=
  if 64 ≤ c.sdepth then c
  else { c with ssegs := c.ssegs.set c.sdepth (seg.take 63), sdepth := c.sdepth + 1 }

/-- `spop`. -/
def spop (c : Vctx) : Vctx := { c with sdepth := c.sdepth - 1 }

/-- `out_path`. -/
def pathText (c : Vctx) : Bytes :=
  Ch.dquote :: [Ch.dot].intercalate ((c.segs.take c.depth).map fun s => s.flatMap jsonByte) ++
    [Ch.dquote]

/-- `out_schema_path`. -/
def schemaPathText (c : Vctx) : Bytes :=
  ascii "\"#" ++ ((c.ssegs.take c.sdepth).flatMap fun s => 0x2F :: s.flatMap jsonByte) ++
    [Ch.dquote]

/-- The error object of `verr`; a message is cut to 255 bytes. -/
def errorText (c : Vctx) (msg : Bytes) : Bytes :=
  ascii "\x7b\"path\":" ++ c.pathText ++ ascii ",\"schemaPath\":" ++ c.schemaPathText ++
    ascii ",\"message\":\"" ++ (msg.take 255).flatMap messageByte ++ ascii "\"\x7d"

/-- `verr`. -/
def verr (c : Vctx) (msg : Bytes) : Vctx :=
  let c := { c with pings := c.pings + 1 }
  if 0 < c.mute then c
  else if maxErrors ≤ c.nErrors then { c with truncated := true }
  else
    { c with
      buf := c.buf ++ (if 0 < c.nErrors then [Ch.comma] else []) ++ c.errorText msg
      nErrors := c.nErrors + 1 }

/-- A check: the error is reported where it fails. -/
def check (c : Vctx) (ok : Bool) (msg : Bytes) : Vctx := if ok then c else c.verr msg

/-- `passes`: a trial of a walk, its verdict, and the context behind it. -/
def trial (c : Vctx) (walk : Vctx → Vctx) : Bool × Vctx :=
  let c' := walk { c with mute := c.mute + 1 }
  let ok : Bool := c'.pings = c.pings
  let c' := { c' with mute := c'.mute - 1, pings := c.pings }
  if ok then (true, c')
  else (false, { c' with buf := c'.buf.take c.buf.length, sdepth := c.sdepth })

/-- `passes_annot_free`. -/
def trialFree (c : Vctx) (walk : Vctx → Vctx) : Bool × Vctx :=
  let c' := walk { c with mute := c.mute + 1 }
  (c'.pings = c.pings,
    { c' with
      mute := c'.mute - 1, pings := c.pings, buf := c'.buf.take c.buf.length, sdepth := c.sdepth })

end Vctx

/-! ## Checks without sub-schemas -/

section Checks

variable {R : Type} (lf : Leaves R) (a : Assertions R)

/-- What `type` calls the value it found. -/
def foundText : SValue → String
  | .table _ => "table"
  | .array _ => "array"
  | .string _ => "string"
  | .int _ => "integer"
  | .float _ => "float"
  | .bool _ => "boolean"
  | _ => "value"

/-- `type`. -/
def typeOk (v : SValue) : Bool := a.types = St.any ∨ a.types &&& svToSt lf v ≠ 0

/-- `const`. -/
def constOk (v : SValue) : Bool := a.constVal.all fun cv => lf.svEqual cv v

/-- `enum` with entries. -/
def enumOk (v : SValue) : Bool := a.enumVals.isEmpty ∨ a.enumVals.any fun ev => lf.svEqual ev v

/-- The number keywords apply. -/
def isNum : SValue → Bool
  | .int _ => true
  | .float _ => true
  | _ => false

/-- A bound, where it applies. -/
def boundOk (kw : NumKeyword) (v : SValue) : Bool :=
  !isNum v ∨ (a.bounds kw).all fun b => lf.within kw b v

/-- `multipleOf`, where it applies. -/
def multOk (v : SValue) : Bool := !isNum v ∨ a.mult.all fun m => lf.multOk m v

/-- A count of at least a limit. -/
def atLeast (limit : Option ℤ) (n : ℕ) : Bool := limit.all fun l => l ≤ (n : ℤ)

/-- A count of at most a limit. -/
def atMost (limit : Option ℤ) (n : ℕ) : Bool := limit.all fun l => (n : ℤ) ≤ l

/-- `type`, `const` and `enum` of `val`. -/
def checkValue (v : SValue) (c : Vctx) : Vctx :=
  let c := c.check (typeOk lf a v) (ascii ("expected a matching type, found " ++ foundText v))
  let c := c.check (constOk lf a v) (ascii "value does not equal the constant")
  let c := c.check (!a.enumEmpty)
    (ascii "value does not match the empty enum (nothing matches)")
  c.check (enumOk lf a v)
    (ascii "value is not one of the " ++ natText a.enumVals.length ++ ascii " enum entries")

/-- The number keywords of `val`. -/
def checkNumeric (v : SValue) (c : Vctx) : Vctx :=
  let c := c.check (boundOk lf a .minimum v) (ascii "value is below the minimum")
  let c := c.check (boundOk lf a .maximum v) (ascii "value is above the maximum")
  let c := c.check (boundOk lf a .exclusiveMinimum v)
    (ascii "value is not above the exclusive minimum")
  let c := c.check (boundOk lf a .exclusiveMaximum v)
    (ascii "value is not below the exclusive maximum")
  c.check (multOk lf a v) (ascii "value is not a multiple of multipleOf")

/-- The string keywords of `val`. -/
def checkString (v : SValue) (c : Vctx) : Vctx :=
  match v.text with
  | none => c
  | some s =>
    let c := c.check (atLeast a.minLength (cpCount s)) (ascii "string is shorter than minLength")
    let c := c.check (atMost a.maxLength (cpCount s)) (ascii "string is longer than maxLength")
    c.check (a.pattern.all fun re => lf.isMatch re s) (ascii "string does not match the pattern")

/-- A key among the members of a table. -/
def hasKey (ms : List (Bytes × SValue)) (k : Bytes) : Bool := ms.any fun m => m.1 == k

/-- `minProperties`, `maxProperties` and `required`. -/
def checkProps (ms : List (Bytes × SValue)) (c : Vctx) : Vctx :=
  let c := c.check (atLeast a.minProps ms.length) (ascii "fewer properties than minProperties")
  let c := c.check (atMost a.maxProps ms.length) (ascii "more properties than maxProperties")
  a.required.foldl (fun c k =>
    c.check (hasKey ms k) (ascii "missing required property '" ++ k ++ ascii "'")) c

/-- `dependentRequired`. -/
def checkDepReq (ms : List (Bytes × SValue)) (c : Vctx) : Vctx :=
  a.depReq.foldl (fun c d =>
    if hasKey ms d.1 then
      d.2.foldl (fun c k =>
        c.check (hasKey ms k)
          (ascii "'" ++ d.1 ++ ascii "' requires '" ++ k ++ ascii "' (dependentRequired)")) c
    else c) c

/-- The first pair of equal elements, by index. -/
def firstTwins (lf : Leaves R) : ℕ → List SValue → Option (ℕ × ℕ)
  | _, [] => none
  | i, v :: vs =>
    match vs.findIdx? fun w => lf.svEqual v w with
    | some k => some (i, i + 1 + k)
    | none => firstTwins lf (i + 1) vs

/-- `minItems`, `maxItems` and `uniqueItems`. -/
def checkItems (vs : List SValue) (c : Vctx) : Vctx :=
  let c := c.check (atLeast a.minItems vs.length) (ascii "fewer items than minItems")
  let c := c.check (atMost a.maxItems vs.length) (ascii "more items than maxItems")
  if a.uniqueItems then
    match firstTwins lf 0 vs with
    | some (i, k) =>
      c.verr (ascii "array items are not unique (items " ++ natText i ++ ascii " and " ++
        natText k ++ ascii ")")
    | none => c
  else c

/-- The verdict of `contains` on a number of hits. -/
def containsOk (a : Assertions R) (n hits : ℕ) : Bool :=
  a.minContains.getD 1 ≤ (hits : ℤ) ∧ (hits : ℤ) ≤ a.maxContains.getD n

end Checks

/-! ## The walk -/

/-- A walk under a segment of both paths. -/
def Vctx.under (c : Vctx) (sseg seg : Bytes) (walk : Vctx → Vctx) : Vctx :=
  ((walk ((c.spush sseg).pathPush seg)).pathPop).spop

/-- A walk under a segment of the schema path and an index. -/
def Vctx.underIdx (c : Vctx) (sseg : Bytes) (idx : ℕ) (walk : Vctx → Vctx) : Vctx :=
  ((walk ((c.spush sseg).pathPushIdx idx)).pathPop).spop

/-- A walk under a segment of the schema path. -/
def Vctx.sunder (c : Vctx) (sseg : Bytes) (walk : Vctx → Vctx) : Vctx :=
  (walk (c.spush sseg)).spop

/-- How many of the values pass a trial. -/
def countTrials {α : Type} (walk : α → Vctx → Vctx) : List α → ℕ → Vctx → ℕ × Vctx
  | [], hits, c => (hits, c)
  | x :: xs, hits, c =>
    let (ok, c) := c.trial (walk x)
    countTrials walk xs (if ok then hits + 1 else hits) c

/-- The values, each with its index, one after the other. -/
def eachIdx (walk : ℕ → SValue → Vctx → Vctx) : ℕ → List SValue → Vctx → Vctx
  | _, [], c => c
  | i, v :: vs, c => eachIdx walk (i + 1) vs (walk i v c)

/-- The message of `additionalProperties` at a false schema. -/
def unknownText (key : Bytes) : Bytes :=
  ascii "unknown property '" ++ key ++ ascii "' (additionalProperties is false)"

/-- The message of `additionalItems` at a false schema. -/
def beyondText : Bytes := ascii "array has items beyond the tuple (additionalItems is false)"

/-- `anyOf`, of that many branches. -/
def checkAny (n : ℕ) (branches : Vctx → ℕ × Vctx) (c : Vctx) : Vctx :=
  if n = 0 then c
  else
    let (hits, c) := branches c
    c.check (0 < hits) (ascii "does not match any of the " ++ natText n ++ ascii " anyOf schemas")

/-- `oneOf`, of that many branches. -/
def checkOne (n : ℕ) (branches : Vctx → ℕ × Vctx) (c : Vctx) : Vctx :=
  if n = 0 then c
  else
    let (hits, c) := branches c
    c.check (hits = 1) (ascii "matches " ++ natText hits ++ ascii " of the " ++ natText n ++
      ascii " oneOf schemas (exactly one required)")

mutual

/-- `val`, where a missing schema accepts. -/
def val {R : Type} (lf : Leaves R) : SchNode R → SValue → Vctx → Vctx
  | .mk a props pprops additional propNames depSchemas tuple items addItems contains allOf anyOf
      oneOf not_ if_ then_ else_, v, c =>
    if maxSchemaDepth ≤ c.depth then c.verr (ascii "schema depth exceeded")
    else if a.isFalse then c.verr (ascii "no value is allowed here (the false schema)")
    else
      let c := checkString lf a v (checkNumeric lf a v (checkValue lf a v c))
      let c :=
        match v with
        | .table ms =>
          let c := checkProps a ms c
          let c := ms.foldl (fun c m =>
            let (known, c) := valProps lf props m.1 m.2 c
            let (known, c) := valPprops lf pprops m.1 m.2 known c
            if known then c else valAdditional lf additional m.1 m.2 c) c
          let c := ms.foldl (fun c m => valPropName lf propNames m.1 c) c
          let c := checkDepReq a ms c
          valDepSchemas lf depSchemas ms c
        | .array vs =>
          let c := checkItems lf a vs c
          let c := valTuple lf tuple vs 0 c
          -- beyond the tuple
          let rest := vs.drop tuple.length
          let c :=
            if items.isSome then valItems lf items tuple.length rest c
            else valAddItems lf addItems tuple.length rest c
          valContains lf a contains vs c
        | _ => c
      let c := valAll lf allOf v c
      let c := checkAny anyOf.length (valBranches lf anyOf v 0) c
      let c := checkOne oneOf.length (valBranches lf oneOf v 0) c
      let c := valNot lf not_ v c
      match valIf lf if_ v c with
      | (none, c) => c
      | (some true, c) => valBranch lf "then" then_ v c
      | (some false, c) => valBranch lf "else" else_ v c

/-- `properties`: the first of the name, and whether there is one. -/
def valProps {R : Type} (lf : Leaves R) :
    List (Bytes × SchNode R) → Bytes → SValue → Vctx → Bool × Vctx
  | [], _, _, c => (false, c)
  | (name, s) :: props, key, mv, c =>
    if name = key then (true, c.under (ascii "properties." ++ key) key (val lf s mv))
    else valProps lf props key mv c

/-- `patternProperties`: all that match, and whether there is one. -/
def valPprops {R : Type} (lf : Leaves R) :
    List (R × SchNode R) → Bytes → SValue → Bool → Vctx → Bool × Vctx
  | [], _, _, known, c => (known, c)
  | (re, s) :: pprops, key, mv, known, c =>
    if lf.isMatch re key then
      valPprops lf pprops key mv true
        (c.under (ascii "patternProperties") key (val lf s mv))
    else valPprops lf pprops key mv known c

/-- `additionalProperties`. -/
def valAdditional {R : Type} (lf : Leaves R) :
    Option (SchNode R) → Bytes → SValue → Vctx → Vctx
  | none, _, _, c => c
  | some s, key, mv, c =>
    c.under (ascii "additionalProperties") key
      (if s.asserts.isFalse then fun c => c.verr (unknownText key) else val lf s mv)

/-- `propertyNames`. -/
def valPropName {R : Type} (lf : Leaves R) : Option (SchNode R) → Bytes → Vctx → Vctx
  | none, _, c => c
  | some s, key, c =>
    let (ok, c) := (c.spush (ascii "propertyNames")).trial (val lf s (.string key))
    (c.check ok (ascii "property name '" ++ key ++ ascii "' fails propertyNames")).spop

/-- `dependentSchemas`. -/
def valDepSchemas {R : Type} (lf : Leaves R) :
    List (Bytes × SchNode R) → List (Bytes × SValue) → Vctx → Vctx
  | [], _, c => c
  | (key, s) :: deps, ms, c =>
    if hasKey ms key then
      let (ok, c) := c.trial (val lf s (.table ms))
      valDepSchemas lf deps ms
        (c.check ok (ascii "the '" ++ key ++ ascii "' dependency schema does not hold"))
    else valDepSchemas lf deps ms c

/-- `prefixItems`, from an index. -/
def valTuple {R : Type} (lf : Leaves R) : List (SchNode R) → List SValue → ℕ → Vctx → Vctx
  | s :: tuple, v :: vs, i, c =>
    valTuple lf tuple vs (i + 1) (c.underIdx (ascii "prefixItems") i (val lf s v))
  | _, _, _, c => c

/-- `items`, of the elements from an index. -/
def valItems {R : Type} (lf : Leaves R) :
    Option (SchNode R) → ℕ → List SValue → Vctx → Vctx
  | none, _, _, c => c
  | some s, i, vs, c => eachIdx (fun i v c => c.underIdx (ascii "items") i (val lf s v)) i vs c

/-- `additionalItems`, of the elements from an index. -/
def valAddItems {R : Type} (lf : Leaves R) :
    Option (SchNode R) → ℕ → List SValue → Vctx → Vctx
  | none, _, _, c => c
  | some s, i, vs, c =>
    eachIdx (fun i v c => c.underIdx (ascii "additionalItems") i
      (if s.asserts.isFalse then fun c => c.verr beyondText else val lf s v)) i vs c

/-- `contains`; the second round of trials is the one that annotates. -/
def valContains {R : Type} (lf : Leaves R) (a : Assertions R) :
    Option (SchNode R) → List SValue → Vctx → Vctx
  | none, _, c => c
  | some s, vs, c =>
    let (hits, c) := countTrials (val lf s) vs 0 c
    let c := c.check (a.minContains.getD 1 ≤ (hits : ℤ))
      (ascii "fewer matching items than minContains")
    let c := c.check ((hits : ℤ) ≤ a.maxContains.getD vs.length)
      (ascii "more matching items than maxContains")
    if containsOk a vs.length hits then (countTrials (val lf s) vs 0 c).2 else c

/-- `allOf`. -/
def valAll {R : Type} (lf : Leaves R) : List (SchNode R) → SValue → Vctx → Vctx
  | [], _, c => c
  | s :: ss, v, c => valAll lf ss v (c.sunder (ascii "allOf") (val lf s v))

/-- The branches a value passes, each of them tried. -/
def valBranches {R : Type} (lf : Leaves R) : List (SchNode R) → SValue → ℕ → Vctx → ℕ × Vctx
  | [], _, hits, c => (hits, c)
  | s :: ss, v, hits, c =>
    let (ok, c) := c.trial (val lf s v)
    valBranches lf ss v (if ok then hits + 1 else hits) c

/-- `not`. -/
def valNot {R : Type} (lf : Leaves R) : Option (SchNode R) → SValue → Vctx → Vctx
  | none, _, c => c
  | some s, v, c =>
    let (ok, c) := c.trialFree (val lf s v)
    c.check (!ok) (ascii "must not match the not-schema")

/-- `then` or `else`. -/
def valBranch {R : Type} (lf : Leaves R) (seg : String) :
    Option (SchNode R) → SValue → Vctx → Vctx
  | none, _, c => c
  | some s, v, c => c.sunder (ascii seg) (val lf s v)

/-- The trial of `if`. -/
def valIf {R : Type} (lf : Leaves R) : Option (SchNode R) → SValue → Vctx → Option Bool × Vctx
  | none, _, c => (none, c)
  | some s, v, c =>
    let (cond, c) := c.trial (val lf s v)
    (some cond, c)

end

/-! ## The entry -/

/-- `teptris_schema_validate_doc`: the report of a document. -/
def validateDoc {R : Type} (lf : Leaves R) (sch : SchNode R) (root : Node) : Bytes :=
  let c := val lf sch (nodeToSv root) .new
  if c.buf ≠ [] then Ch.lbrack :: c.buf ++ [Ch.rbrack] else [Ch.lbrack, Ch.rbrack]

end Teptris
