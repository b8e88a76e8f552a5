import Lliu.Pkg

/-!
# Lliu.Bfloat16Mul

`bfloat16_mul.sv`: a bfloat16 multiplier producing a float32 product two
cycles after its operands.  Stage 1 registers the mantissa product and the
exponent sum, stage 2 normalizes and assembles.
-/

namespace Lliu

/-- The stage 1 registers: the raw mantissa product and what stage 2 needs to
assemble the result. -/
structure Bf16MulStage1 where
  manProductR : BitVec 16
  aZeroR : Bool
  bZeroR : Bool
  expSumR : BitVec 10
  rSignR : Bool
  deriving DecidableEq, Repr

/-- An operand is zero when everything but its sign is. -/
def bf16IsZero (a : Bfloat16T) : Bool := a.extractLsb' 0 15 == 0#15

/-- The 8-bit mantissa with the implicit leading one of a nonzero exponent. -/
def bf16Man (a : Bfloat16T) : BitVec 8 :=
  if a.extractLsb' 7 8 != 0#8 then 1#1 ++ a.extractLsb' 0 7 else 0#1 ++ a.extractLsb' 0 7

/-- The combinational inputs of the stage 1 registers. -/
def bf16MulStage1 (a b : Bfloat16T) : Bf16MulStage1 where
  manProductR := (bf16Man a).setWidth 16 * (bf16Man b).setWidth 16
  aZeroR := bf16IsZero a
  bZeroR := bf16IsZero b
  expSumR := (a.extractLsb' 7 8).setWidth 10 + (b.extractLsb' 7 8).setWidth 10 - 127#10
  rSignR := a.getLsbD 15 ^^ b.getLsbD 15

namespace Bf16MulStage1

/-- The mantissa and the wide exponent after the normalizing shift. -/
def normalize (r : Bf16MulStage1) : BitVec 23 × BitVec 10 :=
  if r.aZeroR || r.bZeroR then (0#23, 0#10)
  else if r.manProductR.getLsbD 15 then
    (r.manProductR.extractLsb' 1 14 ++ 0#9, r.expSumR + 1#10)
  else (r.manProductR.extractLsb' 0 14 ++ 0#9, r.expSumR)

/-- The clamped exponent: zero on underflow, all ones on overflow. -/
def clampExp (r : Bf16MulStage1) : BitVec 8 :=
  if r.aZeroR || r.bZeroR then 0#8
  else if r.normalize.2.getLsbD 9 then 0#8
  else if r.normalize.2.getLsbD 8 then 0xFF#8
  else r.normalize.2.extractLsb' 0 8

/-- `result_comb`: the assembled float32. -/
def resultComb (r : Bf16MulStage1) : Float32T :=
  if r.aZeroR || r.bZeroR || (r.clampExp == 0#8 && !r.aZeroR && !r.bZeroR) then
    BitVec.ofBool r.rSignR ++ 0#31
  else BitVec.ofBool r.rSignR ++ r.clampExp ++ r.normalize.1

end Bf16MulStage1

/-- The product the pipeline computes from one pair of operands. -/
def bf16Product (a b : Bfloat16T) : Float32T := (bf16MulStage1 a b).resultComb

/-- `bfloat16_mul`: the stage 1 registers and the output register. -/
structure Bfloat16Mul where
  stage1 : Bf16MulStage1
  result : Float32T
  deriving DecidableEq, Repr

namespace Bfloat16Mul

/-- The registers after reset. -/
def reset : Bfloat16Mul where
  stage1 := { manProductR := 0, aZeroR := true, bZeroR := true, expSumR := 0, rSignR := false }
  result := 0

/-- One clock edge with operands `a` and `b`. -/
def step (s : Bfloat16Mul) (a b : Bfloat16T) : Bfloat16Mul where
  stage1 := bf16MulStage1 a b
  result := s.stage1.resultComb

/-- The product of a pair of operands is at the output two cycles later. -/
theorem result_step_step (s : Bfloat16Mul) (a b a' b' : Bfloat16T) :
    ((s.step a b).step a' b').result = bf16Product a b := rfl

end Bfloat16Mul

end Lliu
