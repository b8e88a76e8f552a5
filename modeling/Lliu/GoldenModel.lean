import Lliu.Pkg
import Lliu.Hdl.Bytes

/-!
# Lliu.GoldenModel

`tb/cocotb/models/golden_model.py`, the reference that both test benches compare the first
version with: its parser of Add Orders and its features, as `dpi_bridge.c` takes them over into
bfloat16.

Every float here has an integer value.  A Python float has room for all of them, so the only
rounding is that of `np.array(.., dtype=np.float32)`, to the nearest, ties to even.
-/

namespace Lliu

open Hdl

namespace GoldenModel

/-! ## the parser -/

/-- The dictionary of an Add Order. -/
structure AddOrder where
  orderRef : Nat
  side : Nat
  price : Nat
  deriving DecidableEq, Repr

/-- `parse_add_order`. -/
def parseAddOrder (rawBytes : List Byte) : Option AddOrder :=
  if rawBytes.length < 36 then none
  else if rawBytes.getD 0 0 ≠ 0x41 then none
  else some
    { orderRef := fromBytes ((rawBytes.drop 11).take 8)
      side := if rawBytes.getD 19 0 = 0x42 then 1 else 0
      price := fromBytes ((rawBytes.drop 32).take 4) }

/-! ## floats -/

/-- The quotient, rounded to the nearest, ties to even. -/
def roundHalfEven (n d : Nat) : Nat :=
  if d < 2 * (n % d) ∨ 2 * (n % d) = d ∧ n / d % 2 = 1 then n / d + 1 else n / d

/-- `np.float32` of an integer.  A mantissa that rounds up to the next power of two carries into
the exponent. -/
def npFloat32 (e : Int) : Float32T :=
  if e = 0 then 0
  else
    BitVec.ofBool (decide (e < 0)) ++
      BitVec.ofNat 31 (2 ^ 23 * (126 + e.natAbs.log2) + roundHalfEven (2 ^ 23 * e.natAbs) (2 ^ e.natAbs.log2))

/-- `float_to_bfloat16`: the upper half. -/
def floatToBfloat16 (f : Float32T) : Bfloat16T := f.extractLsb' 16 16

/-! ## the model -/

/-- `GoldenModel`. -/
structure State where
  lastPrice : Int

/-- `__init__`. -/
def init : State := ⟨0⟩

/-- `extract_features`.  The order flow is not tracked. -/
def extractFeatures (s : State) (price side : Nat) : State × (Fin 4 → Float32T) :=
  (⟨price⟩, fun k =>
    match k with
    | 0 => npFloat32 (price - s.lastPrice)
    | 1 => npFloat32 (if side = 1 then 1 else -1)
    | 2 => npFloat32 0
    | 3 => npFloat32 price)

end GoldenModel

end Lliu
