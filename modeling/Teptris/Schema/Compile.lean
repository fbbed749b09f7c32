import Teptris.Library.SharedCap
import Teptris.Schema.JsonRead

/-!
# Compiling a schema

`sch_compile_node`, as a machine that takes the keywords of an object one after the other and
keeps the objects it is in the middle of on a stack.  The values it walks are given by their
places in memory.  Of what it makes of an object the lists of dependencies are kept; where a
reference leads is given, since its text is resolved once.
-/

namespace Teptris

/-! ## Values in memory -/

/-- A `jv`, with the places of what it holds. -/
inductive Shape (P : Type) where
  /-- `JV_NULL`. -/
  | null
  /-- `JV_BOOL`. -/
  | bool (b : Bool)
  /-- `JV_INT` or `JV_NUM`. -/
  | number (n : JNum)
  /-- `JV_STRING`. -/
  | string (s : Bytes)
  /-- `JV_ARRAY`. -/
  | array (items : List P)
  /-- `JV_OBJECT`. -/
  | object (members : List (Bytes × P))

/-- What a compile is given. -/
structure CompileEnv (P : Type) where
  /-- The values. -/
  view : P → Shape P
  /-- `vocab_mask`. -/
  vocabMask : UInt32
  /-- `dialect_declared`. -/
  dialectDeclared : Bool
  /-- Where the reference whose text stands at a place leads. -/
  target : P → Option P
  /-- The resource in effect where that reference is resolved. -/
  resourceRoot : P → P
  /-- A double with an integral value. -/
  isIntegral : Double → Bool
  /-- A double above zero. -/
  isPositive : Double → Bool
  /-- `sch_regex_compile` accepts the pattern. -/
  regexOk : Bytes → Bool

/-- The value at a place of a document. -/
def jvAt : List ℕ → Jv → Option Jv
  | [], v => some v
  | i :: p, .array vs => vs[i]?.bind (jvAt p)
  | i :: p, .object ms => ms[i]?.bind fun m => jvAt p m.2
  | _ :: _, _ => none

/-- The values of a document, by their places. -/
def docView (root : Jv) (p : List ℕ) : Shape (List ℕ) :=
  match jvAt p root with
  | none | some .null => .null
  | some (.bool b) => .bool b
  | some (.number n) => .number n
  | some (.string s) => .string s
  | some (.array vs) => .array ((List.range vs.length).map fun i => p ++ [i])
  | some (.object ms) => .object (ms.zipIdx.map fun m => (m.1.1, p ++ [m.2]))

/-! ## Keywords -/

/-- The lists of dependencies of a schema object. -/
inductive Dep where
  /-- `dep_req`. -/
  | req
  /-- `dep_schemas`. -/
  | schemas
deriving DecidableEq

/-- What a key depends on. -/
inductive DepValue (P : Type) where
  /-- The names that are required with it. -/
  | names (ns : List Bytes)
  /-- The schema compiled from the value at a place. -/
  | schema (q : P)

/-- A pair of such a list. -/
abbrev DepPair (P : Type) := Bytes × DepValue P

/-- What compiling a keyword comes to. -/
inductive Step (P : Type) where
  /-- The keyword is refused. -/
  | fail
  /-- The value at a place is compiled. -/
  | sub (q : P)
  /-- `build_self_scope`: what was not compiled below a place is compiled now. -/
  | scope (q : P)
  /-- `grow_dep_list`. -/
  | grow (d : Dep)
  /-- The pair behind the last one of a list. -/
  | store (d : Dep) (e : DepPair P)

/-- The keywords of the vocabularies, with their bits. -/
def keywordBits : List (UInt32 × List String) :=
  [(1, ["allOf", "anyOf", "oneOf", "not", "if", "then", "else", "properties", "patternProperties",
      "additionalProperties", "additionalItems", "propertyNames", "items", "prefixItems",
      "contains", "dependentSchemas"]),
    (2, ["unevaluatedProperties", "unevaluatedItems"]),
    (4, ["type", "enum", "const", "multipleOf", "maximum", "exclusiveMaximum", "minimum",
      "exclusiveMinimum", "maxLength", "minLength", "pattern", "maxItems", "minItems",
      "uniqueItems", "maxContains", "minContains", "maxProperties", "minProperties", "required",
      "dependentRequired", "dependentExclusive"]),
    (8, ["format"]),
    (16, ["contentEncoding", "contentMediaType", "contentSchema"])]

/-- A key is one of some names. -/
def isOneOf (names : List String) (k : Bytes) : Bool := names.any fun n => ascii n == k

/-- `keyword_vocab`. -/
def keywordVocab (k : Bytes) : UInt32 :=
  ((keywordBits.find? fun b => isOneOf b.2 k).map (·.1)).getD 0

/-- The keywords whose value is a schema. -/
def subKeys : List String :=
  ["additionalProperties", "unevaluatedProperties", "unevaluatedItems", "propertyNames",
    "additionalItems", "contains", "not", "if", "then", "else"]

/-- The keywords whose value is a list of schemas. -/
def listKeys : List String := ["prefixItems", "allOf", "anyOf", "oneOf"]

/-- The keywords whose value is a count. -/
def countKeys : List String :=
  ["minProperties", "maxProperties", "minContains", "maxContains", "minItems", "maxItems",
    "minLength", "maxLength"]

/-- A refusal, unless a check holds. -/
def require {P : Type} (ok : Bool) : List (Step P) := if ok then [] else [.fail]

section Keywords

variable {P : Type} (env : CompileEnv P)

/-- The members of an object. -/
def membersAt (p : P) : List (Bytes × P) :=
  match env.view p with
  | .object ms => ms
  | _ => []

/-- The texts of a list, if they are all texts. -/
def namesOf (items : List P) : Option (List Bytes) :=
  items.mapM fun e =>
    match env.view e with
    | .string s => some s
    | _ => none

/-- `compile_type` succeeds. -/
def typeNameOk (p : P) : Bool :=
  let known := isOneOf ["string", "integer", "number", "boolean", "object", "array", "null"]
  match env.view p with
  | .string s => known (cstr s)
  | .array items => items.all fun e =>
      match env.view e with
      | .null => true
      | .string s => known (cstr s)
      | _ => false
  | _ => false

/-- `count_value` succeeds. -/
def countOk (p : P) : Bool :=
  match env.view p with
  | .number (.int _) => true
  | .number (.num d) => env.isIntegral d
  | _ => false

/-- `$ref`. -/
def refSteps (p : P) : List (Step P) :=
  match env.view p, env.target p with
  | .string _, some q => [.sub q]
  | _, _ => [.fail]

/-- `$dynamicRef` or `$recursiveRef`: a plain-name fragment is looked for in the scope of the
resource, which is compiled for that. -/
def dynamicRefSteps (recursive : Bool) (p : P) : List (Step P) :=
  match env.view p with
  | .string s =>
    match cstr s with
    | 0x23 :: name =>
      if recursive then if name = [] then refSteps env p else [.fail]
      else if name = [] then [.fail]
      else if 0x2F ∈ name then refSteps env p
      else
        match env.view (env.resourceRoot p) with
        | .object _ => .scope (env.resourceRoot p) :: refSteps env p
        | _ => refSteps env p
    | _ => refSteps env p
  | _ => [.fail]

/-- `sch_compile_dep_req`. -/
def compileDepReq (key : Bytes) (items : List P) : List (Step P) :=
  match namesOf env items with
  | some ns => [.grow .req, .store .req (key, .names ns)]
  | none => [.grow .req, .fail]

/-- `sch_compile_dep_schema`. -/
def compileDepSchema (key : Bytes) (q : P) : List (Step P) :=
  [.grow .schemas, .sub q, .store .schemas (key, .schema q)]

/-- A member of `dependencies`. -/
def dependencySteps (m : Bytes × P) : List (Step P) :=
  match env.view m.2 with
  | .array items => compileDepReq env m.1 items
  | .object _ | .bool _ => compileDepSchema m.1 m.2
  | _ => [.fail]

/-- A member of `dependentRequired`. -/
def dependentRequiredSteps (m : Bytes × P) : List (Step P) :=
  match env.view m.2 with
  | .array items => compileDepReq env m.1 items
  | _ => [.fail]

/-- The keywords that declare dependencies. -/
def depSteps (k : Bytes) (p : P) : List (Step P) :=
  if k = ascii "dependencies" then (membersAt env p).flatMap (dependencySteps env)
  else if k = ascii "dependentRequired" then
    (membersAt env p).flatMap (dependentRequiredSteps env)
  else if k = ascii "dependentSchemas" then
    (membersAt env p).flatMap fun m => compileDepSchema m.1 m.2
  else []

/-- The other keywords. -/
def otherSteps (k : Bytes) (p : P) : List (Step P) :=
  if k = ascii "type" then require (typeNameOk env p)
  else if k = ascii "$ref" then refSteps env p
  else if k = ascii "enum" then
    match env.view p with
    | .array _ => []
    | _ => [.fail]
  else if k = ascii "properties" then (membersAt env p).map fun m => .sub m.2
  else if k = ascii "patternProperties" then
    (membersAt env p).flatMap fun m => require (env.regexOk m.1) ++ [.sub m.2]
  else if k = ascii "$dynamicRef" then dynamicRefSteps env false p
  else if k = ascii "$recursiveRef" then dynamicRefSteps env true p
  else if k = ascii "contentSchema" then if env.dialectDeclared then [] else [.sub p]
  else if k = ascii "required" then
    match env.view p with
    | .array items => require (namesOf env items).isSome
    | _ => []
  else if isOneOf countKeys k then require (countOk env p)
  else if k = ascii "items" then
    match env.view p with
    | .array items => items.map .sub
    | _ => [.sub p]
  else if isOneOf listKeys k then
    match env.view p with
    | .array items => items.map .sub
    | _ => []
  else if k = ascii "pattern" then
    match env.view p with
    | .string s => require (env.regexOk s)
    | _ => []
  else if k = ascii "multipleOf" then
    match env.view p with
    | .number n => require (env.isPositive n.toDouble)
    | _ => [.fail]
  else if isOneOf subKeys k then [.sub p]
  else []

/-- The vocabulary of a keyword was dropped. -/
def isGated (k : Bytes) : Bool := keywordVocab k != 0 && env.vocabMask &&& keywordVocab k == 0

/-- A member of a schema object; every keyword is of one of the two groups. -/
def memberSteps (m : Bytes × P) : List (Step P) :=
  if isGated env m.1 then [] else depSteps env m.1 m.2 ++ otherSteps env m.1 m.2

/-- The steps of a schema object, with `attach_self_scope` at the end. -/
def compileSteps (p : P) : List (Step P) :=
  match env.view p with
  | .object ms => ms.flatMap (memberSteps env) ++ [.scope p]
  | _ => []

end Keywords

/-! ## The walk -/

/-- What the C stack holds. -/
inductive CallFrame (P : Type) where
  /-- A `sch_compile_node`, with the steps to come. -/
  | node (p : P) (todo : List (Step P))
  /-- A `build_self_scope`, with the values to come. -/
  | walk (todo : List P)

/-- Where a compile stands. -/
structure Ctl (P : Type) where
  /-- `memo`. -/
  memo : List P := []
  /-- What was compiled to its end. -/
  done : List P := []
  /-- The C stack. -/
  stack : List (CallFrame P) := []

/-- A refused value fails what waits for it, up to a `build_self_scope`, which goes on. -/
def unwind {P : Type} : List (CallFrame P) → List (CallFrame P)
  | .node _ _ :: fs => unwind fs
  | fs => fs

/-- Something happens to a list of dependencies. -/
abbrev DepEvent (P : Type) := Dep × SharedCap.Event P (DepPair P)

section Walk

variable {P : Type} [DecidableEq P] (env : CompileEnv P)

/-- `sch_compile_node` is called, with the stack below it. -/
def Ctl.enter (c : Ctl P) (q : P) (below : List (CallFrame P)) : Ctl P :=
  if q ∈ c.memo then { c with stack := below }
  else
    match env.view q with
    | .bool _ => { memo := q :: c.memo, done := q :: c.done, stack := below }
    | .object _ => { c with memo := q :: c.memo, stack := .node q (compileSteps env q) :: below }
    | _ => { c with stack := unwind below }

/-- A step of a schema object. -/
def Ctl.nodeStep (c : Ctl P) (p : P) (todo : List (Step P)) (fs : List (CallFrame P)) :
    Step P → Option (DepEvent P) × Ctl P
  | .fail => (none, { c with stack := unwind fs })
  | .sub q => (none, c.enter env q (.node p todo :: fs))
  | .scope q => (none, { c with stack := .walk [q] :: .node p todo :: fs })
  | .grow d => (some (d, .grow p), { c with stack := .node p todo :: fs })
  | .store d e => (some (d, .store p e), { c with stack := .node p todo :: fs })

/-- A value of `build_self_scope`. -/
def Ctl.walkStep (c : Ctl P) (q : P) (qs : List P) (fs : List (CallFrame P)) : Ctl P :=
  match env.view q with
  | .object ms => c.enter env q (.walk (ms.map (·.2) ++ qs) :: fs)
  | .array items => { c with stack := .walk (items ++ qs) :: fs }
  | _ => { c with stack := .walk qs :: fs }

/-- A step of a compile, and what it does to a list of dependencies. -/
def Ctl.step (c : Ctl P) : Option (DepEvent P) × Ctl P :=
  match c.stack with
  | [] => (none, c)
  | .node p [] :: fs => (none, { c with done := p :: c.done, stack := fs })
  | .node p (st :: todo) :: fs => c.nodeStep env p todo fs st
  | .walk [] :: fs => (none, { c with stack := fs })
  | .walk (q :: qs) :: fs => (none, c.walkStep env q qs fs)

/-- A compile, with its lists of dependencies: `cap_dep_req` and `cap_dep_schemas` count for all
the objects. -/
structure Compiling (P : Type) where
  /-- Where it stands. -/
  ctl : Ctl P
  /-- The lists. -/
  deps : Dep → SharedCap.Cells P (DepPair P) := fun _ => {}

/-- An event on the lists of a kind. -/
def applyDep (d : Dep) (m : SharedCap.Cells P (DepPair P)) :
    Option (DepEvent P) → SharedCap.Cells P (DepPair P)
  | some (d', ev) => if d' = d then m.apply 4 ev else m
  | none => m

/-- A step, with the lists. -/
def Compiling.step (s : Compiling P) : Compiling P where
  ctl := (s.ctl.step env).2
  deps d := applyDep d (s.deps d) (s.ctl.step env).1

/-- A compile of the schema at a place, after some steps. -/
def compileRun (root : P) (n : ℕ) : Compiling P :=
  (Compiling.step env)^[n] { ctl := Ctl.enter env {} root [] }

end Walk

end Teptris
