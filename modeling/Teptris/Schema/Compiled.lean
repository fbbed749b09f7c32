import Teptris.Schema.Value

/-!
# Compiled schemas

`sch_node` of `schema_internal.h`, without references, formats, contents and `unevaluated*`, and
the leaf predicates of the validator, which are given.
-/

namespace Teptris

/-! ## Types -/

namespace St

/-- `ST_STRING`. -/
def string : UInt32 := 1
/-- `ST_INTEGER`. -/
def integer : UInt32 := 2
/-- `ST_NUMBER`. -/
def number : UInt32 := 4
/-- `ST_BOOLEAN`. -/
def boolean : UInt32 := 8
/-- `ST_OBJECT`. -/
def object : UInt32 := 16
/-- `ST_ARRAY`. -/
def array : UInt32 := 32
/-- `ST_NULL`. -/
def null : UInt32 := 64
/-- `ST_ANY`. -/
def any : UInt32 := 0x7F

end St

/-! ## Constraints -/

/-- The bounds on numbers. -/
inductive NumKeyword where
  /-- `minimum`. -/
  | minimum
  /-- `maximum`. -/
  | maximum
  /-- `exclusiveMinimum`. -/
  | exclusiveMinimum
  /-- `exclusiveMaximum`. -/
  | exclusiveMaximum
deriving DecidableEq

/-- A numeric bound, as a float and as an integer. -/
structure Bound where
  /-- `fmin` and its kin. -/
  f : Double
  /-- `imin` and its kin. -/
  i : Int64

/-- The `multipleOf` of a schema. -/
structure Mult where
  /-- `fmult`. -/
  fmult : Double
  /-- `imult`. -/
  imult : Int64
  /-- `mult_is_int`. -/
  isInt : Bool
  /-- `mult_exact`. -/
  exact : Bool
  /-- `mult_mant`. -/
  mant : Int64
  /-- `mult_exp`. -/
  exp : ℤ

/-- The leaf predicates of the validator, over compiled regexes of type `R`. -/
structure Leaves (R : Type) where
  /-- A float with an integral value, for the type bits. -/
  isIntegral : Double → Bool
  /-- `sv_equal`. -/
  svEqual : SValue → SValue → Bool
  /-- A number within a bound. -/
  within : NumKeyword → Bound → SValue → Bool
  /-- `sch_mult_ok`. -/
  multOk : Mult → SValue → Bool
  /-- `sch_regex_is_match`. -/
  isMatch : R → Bytes → Bool

/-- Leaf predicates that hold of nothing, for schemas that reach none. -/
def Leaves.none : Leaves Unit :=
  ⟨fun _ => false, fun _ _ => false, fun _ _ _ => false, fun _ _ => false, fun _ _ => false⟩

/-- The fields of `sch_node` that hold no schemas; a flag `has_...` and its value are an option.
The constants of the schema stand here as the tagged values `jv_to_sv` makes of them. -/
structure Assertions (R : Type) where
  /-- The false schema. -/
  isFalse : Bool := false
  /-- A mask of type bits. -/
  types : UInt32 := St.any
  /-- `const`. -/
  constVal : Option SValue := none
  /-- `"enum": []`. -/
  enumEmpty : Bool := false
  /-- `enum`. -/
  enumVals : List SValue := []
  /-- `minimum` and its kin. -/
  bounds : NumKeyword → Option Bound := fun _ => none
  /-- `multipleOf`. -/
  mult : Option Mult := none
  /-- `minLength`. -/
  minLength : Option ℤ := none
  /-- `maxLength`. -/
  maxLength : Option ℤ := none
  /-- `pattern`. -/
  pattern : Option R := none
  /-- `minProperties`. -/
  minProps : Option ℤ := none
  /-- `maxProperties`. -/
  maxProps : Option ℤ := none
  /-- `required`. -/
  required : List Bytes := []
  /-- `dependentRequired`. -/
  depReq : List (Bytes × List Bytes) := []
  /-- `minItems`. -/
  minItems : Option ℤ := none
  /-- `maxItems`. -/
  maxItems : Option ℤ := none
  /-- `uniqueItems`. -/
  uniqueItems : Bool := false
  /-- `minContains`. -/
  minContains : Option ℤ := none
  /-- `maxContains`. -/
  maxContains : Option ℤ := none

/-- `sch_node`. -/
inductive SchNode (R : Type) where
  /-- A schema: its own assertions, and the schemas under it. -/
  | mk (asserts : Assertions R) (props : List (Bytes × SchNode R))
    (pprops : List (R × SchNode R)) (additional propNames : Option (SchNode R))
    (depSchemas : List (Bytes × SchNode R)) (tuple : List (SchNode R))
    (items addItems contains : Option (SchNode R)) (allOf anyOf oneOf : List (SchNode R))
    (not_ if_ then_ else_ : Option (SchNode R))

namespace SchNode

/-- The assertions of a schema. -/
def asserts {R : Type} : SchNode R → Assertions R
  | .mk a _ _ _ _ _ _ _ _ _ _ _ _ _ _ _ _ => a

/-- A schema of assertions alone. -/
def leaf {R : Type} (a : Assertions R) : SchNode R :=
  .mk a [] [] none none [] [] none none none [] [] [] none none none none

end SchNode

/-- `sv_to_st`. -/
def svToSt {R : Type} (lf : Leaves R) : SValue → UInt32
  | .string _ => St.string
  | .int _ => St.integer ||| St.number
  | .float f => if lf.isIntegral f then St.integer ||| St.number else St.number
  | .bool _ => St.boolean
  | .table _ => St.object
  | .array _ => St.array
  | .datetime _ _ => St.string
  | .date _ => St.string
  | .time _ => St.string
  | .null => St.null

end Teptris
