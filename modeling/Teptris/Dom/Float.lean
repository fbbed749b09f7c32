import Teptris.Dom.Node

/-!
# Doubles and their conversions

The bit-level operations the parser and the emitter apply to a `double`, and the vendored
conversions between doubles and decimal text (`common/ryu`, `strtod`, and the one-step
multiplication or division by a power of ten) as the fields of `FloatConv`.
-/

namespace Teptris

namespace Double

/-- The exponent field. -/
def expBits (f : Double) : UInt64 := (f.bits >>> 52) &&& 0x7FF

/-- The fraction field. -/
def fracBits (f : Double) : UInt64 := f.bits &&& 0xFFFFFFFFFFFFF

/-- The sign bit. -/
def signBit (f : Double) : Bool := f.bits >>> 63 == 1

/-- `isnan`. -/
def isNan (f : Double) : Bool := f.expBits == 0x7FF && f.fracBits != 0

/-- `isinf`. -/
def isInf (f : Double) : Bool := f.expBits == 0x7FF && f.fracBits == 0

/-- `INFINITY`, or `-INFINITY`. -/
def inf (neg : Bool) : Double := ⟨if neg then 0xFFF0000000000000 else 0x7FF0000000000000⟩

/-- `NAN`. -/
def nan : Double := ⟨0x7FF8000000000000⟩

/-- `-f`: the sign bit flipped. -/
def negate (f : Double) : Double := ⟨f.bits ^^^ 0x8000000000000000⟩

end Double

/-- The conversions between doubles and decimal text the code calls. -/
structure FloatConv where
  /-- `teptris_ryu_s2d_n`: `none` is any status but `TEPTRIS_RYU_SUCCESS`. -/
  ryuS2d : Bytes → Option Double
  /-- `strtod` on the whole text. -/
  strtod : Bytes → Double
  /-- `(double)mag * pow10[k]`. -/
  mulPow10 : ℕ → ℕ → Double
  /-- `(double)mag / pow10[k]`. -/
  divPow10 : ℕ → ℕ → Double
  /-- `teptris_ryu_d2s_buffered_n`: the shortest digits, as `[-]D[.DDD]E[-]X`. -/
  ryuD2s : Double → Bytes

/-- Conversions that know only zero, for documents without floats. -/
def FloatConv.zero : FloatConv where
  ryuS2d _ := some ⟨0⟩
  strtod _ := ⟨0⟩
  mulPow10 _ _ := ⟨0⟩
  divPow10 _ _ := ⟨0⟩
  ryuD2s _ := [0x30, 0x45, 0x30]

end Teptris
