import Lliu.Pkg
import Lliu.Hdl.Run
import Lliu.Hdl.DelayAcc

/-!
# Lliu.Fp32Acc

`fp32_acc.sv`: a float32 accumulator with a six-stage adder.  Each stage of
the source is a combinational function here (`stageA0` compares exponents,
`stageA05` aligns, `stageA1` precomputes sum and differences, `stageB1`
selects, `stageB2` normalizes), and `Fp32Acc.step` is the clock edge that
moves the stage registers.

`fp32Add` is the composition of the stages: the module's own addition.
`Fp32Acc.delayAcc` shows that from any clear on, the feedback mux and the
accumulator register satisfy the recurrence of `Hdl.DelayAcc` with this
addition and a delay of five cycles.
-/

namespace Lliu

open Hdl

/-! ## the adder stages -/

/-- An operand is zero when everything but its sign is. -/
def fp32IsZero (a : Float32T) : Bool := a.extractLsb' 0 31 == 0#31

/-- The 24-bit mantissa of an operand, zero for a zero operand. -/
def fp32Man (a : Float32T) : BitVec 24 :=
  if fp32IsZero a then 0#24 else 1#1 ++ a.extractLsb' 0 23

/-- The stage A0 registers (`*_r0`): exponents compared, operands swapped. -/
structure StageA0 where
  bigMan : BitVec 24
  smallMan : BitVec 24
  bigSign : Bool
  bigExp : BitVec 8
  expDiff : BitVec 8
  effSub : Bool
  accZero : Bool
  addZero : Bool
  addend : Float32T
  accFb : Float32T
  deriving DecidableEq, Repr

/-- The stage A0.5 registers (`*_r05`): the smaller mantissa aligned. -/
structure StageA05 where
  alignedSmallMan : BitVec 24
  bigMan : BitVec 24
  bigSign : Bool
  bigExp : BitVec 8
  effSub : Bool
  accZero : Bool
  addZero : Bool
  addend : Float32T
  accFb : Float32T
  deriving DecidableEq, Repr

/-- The stage A1 registers (`*_r`): both differences, the sum and the compare. -/
structure StageA1 where
  subBms : BitVec 25
  subSmb : BitVec 25
  add : BitVec 25
  bigGeSmall : Bool
  bigSign : Bool
  effSub : Bool
  bigExp : BitVec 8
  accZero : Bool
  addZero : Bool
  addend : Float32T
  accFb : Float32T
  deriving DecidableEq, Repr

/-- The stage B1 registers (`*_b1_r`): the selected raw sum. -/
structure StageB1 where
  sumMan : BitVec 25
  sumSign : Bool
  sumExp : BitVec 8
  bothZero : Bool
  accZero : Bool
  addZero : Bool
  addend : Float32T
  accFb : Float32T
  deriving DecidableEq, Repr

/-- Stage A0: decompose the operands and compare exponents. -/
def stageA0 (accFb addend : Float32T) : StageA0 :=
  let accExp := accFb.extractLsb' 23 8
  let addExp := addend.extractLsb' 23 8
  let accLarger := addExp.ule accExp
  { bigMan := if accLarger then fp32Man accFb else fp32Man addend
    smallMan := if accLarger then fp32Man addend else fp32Man accFb
    bigSign := if accLarger then accFb.getLsbD 31 else addend.getLsbD 31
    bigExp := if accLarger then accExp else addExp
    expDiff := if accLarger then accExp - addExp else addExp - accExp
    effSub := accFb.getLsbD 31 ^^ addend.getLsbD 31
    accZero := fp32IsZero accFb
    addZero := fp32IsZero addend
    addend := addend
    accFb := accFb }

/-- Stage A0.5: the barrel shift. -/
def stageA05 (r : StageA0) : StageA05 where
  alignedSmallMan := if (24#8).ult r.expDiff then 0#24 else r.smallMan >>> r.expDiff
  bigMan := r.bigMan
  bigSign := r.bigSign
  bigExp := r.bigExp
  effSub := r.effSub
  accZero := r.accZero
  addZero := r.addZero
  addend := r.addend
  accFb := r.accFb

/-- Stage A1: the three carry chains and the compare. -/
def stageA1 (r : StageA05) : StageA1 where
  subBms := r.bigMan.setWidth 25 - r.alignedSmallMan.setWidth 25
  subSmb := r.alignedSmallMan.setWidth 25 - r.bigMan.setWidth 25
  add := r.bigMan.setWidth 25 + r.alignedSmallMan.setWidth 25
  bigGeSmall := r.alignedSmallMan.ule r.bigMan
  bigSign := r.bigSign
  effSub := r.effSub
  bigExp := r.bigExp
  accZero := r.accZero
  addZero := r.addZero
  addend := r.addend
  accFb := r.accFb

/-- Stage B1: select the raw sum and its sign. -/
def stageB1 (r : StageA1) : StageB1 where
  sumMan := if r.effSub then (if r.bigGeSmall then r.subBms else r.subSmb) else r.add
  sumSign := if r.effSub then (if r.bigGeSmall then r.bigSign else !r.bigSign) else r.bigSign
  sumExp := r.bigExp
  bothZero := r.accZero && r.addZero
  accZero := r.accZero
  addZero := r.addZero
  addend := r.addend
  accFb := r.accFb

/-- The renormalizing cascade of stage B2: the highest set mantissa bit at or
below `i` is shifted up to the implicit position and the exponent lowered by
the shift.  A sum with only bit 0 set is flushed to zero. -/
def renormalize (sign : Bool) (exp : BitVec 8) (man : BitVec 25) : Nat → Float32T
  | 0 => 0#32
  | i + 1 =>
      if man.getLsbD (i + 1) then
        BitVec.ofBool sign ++ (exp - BitVec.ofNat 8 (22 - i)) ++
          (man <<< (22 - i)).extractLsb' 0 23
      else renormalize sign exp man i

/-- Stage B2: normalize the raw sum. -/
def stageB2 (r : StageB1) : Float32T :=
  if r.bothZero then 0#32
  else if r.accZero then r.addend
  else if r.addZero then r.accFb
  else if r.sumMan == 0#25 then 0#32
  else if r.sumMan.getLsbD 24 then
    BitVec.ofBool r.sumSign ++ (r.sumExp + 1#8) ++ r.sumMan.extractLsb' 1 23
  else if !r.sumMan.getLsbD 23 then renormalize r.sumSign r.sumExp r.sumMan 22
  else BitVec.ofBool r.sumSign ++ r.sumExp ++ r.sumMan.extractLsb' 0 23

/-- The module's one-step addition: all stages composed. -/
def fp32Add (accFb addend : Float32T) : Float32T :=
  stageB2 (stageB1 (stageA1 (stageA05 (stageA0 accFb addend))))

/-! ## the pipeline -/

/-- The inputs of `fp32_acc`. -/
structure Fp32AccIn where
  addend : Float32T
  accEn : Bool
  accClear : Bool

/-- The registers of `fp32_acc`. -/
structure Fp32Acc where
  r0 : StageA0
  r05 : StageA05
  r : StageA1
  b1 : StageB1
  partialSumR : Float32T
  accReg : Float32T
  accEnD1 : Bool
  accEnD2 : Bool
  accEnD3 : Bool
  accEnD4 : Bool
  accEnD5 : Bool
  deriving DecidableEq, Repr

namespace Fp32Acc

/-- What reset and `acc_clear` load. -/
def reset : Fp32Acc where
  r0 := { bigMan := 0, smallMan := 0, bigSign := false, bigExp := 0, expDiff := 0,
          effSub := false, accZero := true, addZero := true, addend := 0, accFb := 0 }
  r05 := { alignedSmallMan := 0, bigMan := 0, bigSign := false, bigExp := 0,
           effSub := false, accZero := true, addZero := true, addend := 0, accFb := 0 }
  r := { subBms := 0, subSmb := 0, add := 0, bigGeSmall := false, bigSign := false,
         effSub := false, bigExp := 0, accZero := true, addZero := true, addend := 0, accFb := 0 }
  b1 := { sumMan := 0, sumSign := false, sumExp := 0, bothZero := true, accZero := true,
          addZero := true, addend := 0, accFb := 0 }
  partialSumR := 0
  accReg := 0
  accEnD1 := false
  accEnD2 := false
  accEnD3 := false
  accEnD4 := false
  accEnD5 := false

/-- The forwarding mux: the feedback operand entering stage A0. -/
def accFb (s : Fp32Acc) : Float32T := if s.accEnD5 then s.partialSumR else s.accReg

/-- `acc_out`. -/
def accOut (s : Fp32Acc) : Float32T := s.accReg

/-- One clock edge. -/
def step (s : Fp32Acc) (i : Fp32AccIn) : Fp32Acc :=
  if i.accClear then reset
  else
    { r0 := if i.accEn then stageA0 s.accFb i.addend else s.r0
      r05 := if s.accEnD1 then stageA05 s.r0 else s.r05
      r := if s.accEnD2 then stageA1 s.r05 else s.r
      b1 := if s.accEnD3 then stageB1 s.r else s.b1
      partialSumR := if s.accEnD4 then stageB2 s.b1 else s.partialSumR
      accReg := if s.accEnD5 then s.partialSumR else s.accReg
      accEnD1 := i.accEn
      accEnD2 := s.accEnD1
      accEnD3 := s.accEnD2
      accEnD4 := s.accEnD3
      accEnD5 := s.accEnD4 }

theorem step_clear (s : Fp32Acc) {i : Fp32AccIn} (h : i.accClear = true) : s.step i = reset := by
  rw [step, if_pos h]

section Step

variable {s : Fp32Acc} {i : Fp32AccIn}

/-- Without a clear the accumulator register takes the forwarded value. -/
theorem accReg_step (s : Fp32Acc) {i : Fp32AccIn} (h : i.accClear = false) :
    (s.step i).accReg = s.accFb := by
  simp only [step, h]
  rfl

/-- The enables move on. -/
theorem enables_step (s : Fp32Acc) (h : i.accClear = false) :
    (s.step i).accEnD1 = i.accEn ∧ (s.step i).accEnD2 = s.accEnD1 ∧
    (s.step i).accEnD3 = s.accEnD2 ∧ (s.step i).accEnD4 = s.accEnD3 ∧
    (s.step i).accEnD5 = s.accEnD4 := by
  rw [step, if_neg (by simp [h])]
  exact ⟨rfl, rfl, rfl, rfl, rfl⟩

theorem r0_step (h : i.accClear = false) (he : i.accEn = true) :
    (s.step i).r0 = stageA0 s.accFb i.addend := by simp [step, h, he]

theorem r05_step (h : i.accClear = false) (he : s.accEnD1 = true) :
    (s.step i).r05 = stageA05 s.r0 := by simp [step, h, he]

theorem r_step (h : i.accClear = false) (he : s.accEnD2 = true) :
    (s.step i).r = stageA1 s.r05 := by simp [step, h, he]

theorem b1_step (h : i.accClear = false) (he : s.accEnD3 = true) :
    (s.step i).b1 = stageB1 s.r := by simp [step, h, he]

theorem partialSumR_step (h : i.accClear = false) (he : s.accEnD4 = true) :
    (s.step i).partialSumR = stageB2 s.b1 := by simp [step, h, he]

end Step

/-! ## the recurrence -/

section Recurrence

variable {a : Nat → Fp32Acc} {x : Nat → Fp32AccIn}

/-- Five cycles after an addition was issued its sum is forwarded; if nothing
was issued, the feedback is the committed register. -/
theorem accFb_add_five (hrun : ∀ n, a (n + 1) = (a n).step (x n)) {n : Nat}
    (hc : ∀ k, n ≤ k → k < n + 5 → (x k).accClear = false) :
    (a (n + 5)).accFb =
      if (x n).accEn then fp32Add (a n).accFb (x n).addend else (a (n + 5)).accReg := by
  have h0 := hc n (by omega) (by omega)
  have h1 := hc (n + 1) (by omega) (by omega)
  have h2 := hc (n + 2) (by omega) (by omega)
  have h3 := hc (n + 3) (by omega) (by omega)
  have h4 := hc (n + 4) (by omega) (by omega)
  -- the enable of the pulse, stage by stage
  have hd1 : (a (n + 1)).accEnD1 = (x n).accEn := by rw [hrun n, (enables_step _ h0).1]
  have hd2 : (a (n + 2)).accEnD2 = (x n).accEn := by
    rw [hrun (n + 1), (enables_step _ h1).2.1, hd1]
  have hd3 : (a (n + 3)).accEnD3 = (x n).accEn := by
    rw [hrun (n + 2), (enables_step _ h2).2.2.1, hd2]
  have hd4 : (a (n + 4)).accEnD4 = (x n).accEn := by
    rw [hrun (n + 3), (enables_step _ h3).2.2.2.1, hd3]
  have hd5 : (a (n + 5)).accEnD5 = (x n).accEn := by
    rw [hrun (n + 4), (enables_step _ h4).2.2.2.2, hd4]
  rw [accFb, hd5]
  cases he : (x n).accEn with
  | false => rfl
  | true =>
      have hp : (a (n + 5)).partialSumR = fp32Add (a n).accFb (x n).addend := by
        rw [hrun (n + 4), partialSumR_step h4 (hd4.trans he), hrun (n + 3),
          b1_step h3 (hd3.trans he), hrun (n + 2), r_step h2 (hd2.trans he), hrun (n + 1),
          r05_step h1 (hd1.trans he), hrun n, r0_step h0 he, fp32Add]
      rw [if_pos rfl, if_pos rfl, hp]

/-- Just after a clear the enables are empty up to their depth, so nothing is
forwarded and the register stays zero. -/
theorem accFb_after_clear (hrun : ∀ n, a (n + 1) = (a n).step (x n)) {c k : Nat}
    (h0 : a c = reset) (hk : k < 5) (hc : ∀ j, c ≤ j → j < c + k → (x j).accClear = false) :
    (a (c + k)).accFb = 0#32 := by
  -- each enable is still false as long as it takes a pulse to get there
  have hquiet : ∀ j ≤ k, (a (c + j)).accReg = 0#32 ∧ (a (c + j)).accEnD5 = false ∧
      (j < 4 → (a (c + j)).accEnD4 = false) ∧ (j < 3 → (a (c + j)).accEnD3 = false) ∧
      (j < 2 → (a (c + j)).accEnD2 = false) ∧ (j < 1 → (a (c + j)).accEnD1 = false) := by
    intro j hj
    induction j with
    | zero =>
        rw [Nat.add_zero, h0]
        exact ⟨rfl, rfl, fun _ => rfl, fun _ => rfl, fun _ => rfl, fun _ => rfl⟩
    | succ j ih =>
        obtain ⟨hreg, h5, h4, h3, h2, h1⟩ := ih (by omega)
        have hfb : (a (c + j)).accFb = 0#32 := by rw [accFb, h5, if_neg Bool.false_ne_true, hreg]
        have hclear := hc (c + j) (by omega) (by omega)
        obtain ⟨-, hd2, hd3, hd4, hd5⟩ := enables_step (a (c + j)) hclear
        rw [← Nat.add_assoc, hrun (c + j), accReg_step _ hclear, hd5, hd4, hd3, hd2]
        exact ⟨hfb, h4 (by omega), fun h => h3 (by omega), fun h => h2 (by omega),
          fun h => h1 (by omega), fun h => by omega⟩
  obtain ⟨hreg, h5, -⟩ := hquiet k (Nat.le_refl k)
  rw [accFb, h5, if_neg Bool.false_ne_true, hreg]

/-- **The recurrence**: from a clear on, and until the next one, the module is
a pipelined accumulator with its own addition and five cycles of delay. -/
theorem delayAcc (hrun : ∀ n, a (n + 1) = (a n).step (x n)) {c e : Nat} (h0 : a c = reset)
    (hc : ∀ k, c ≤ k → k < e → (x k).accClear = false) :
    DelayAcc 5 fp32Add 0#32 c e (fun n => (x n).accEn) (fun n => (x n).addend)
      (fun n => (a n).accFb) (fun n => (a n).accReg) where
  fb_start k hk hke := accFb_after_clear hrun h0 hk fun j hj hjk => hc j hj (by omega)
  fb_delay n hn hne := accFb_add_five hrun fun k hk hkn => hc k (by omega) (by omega)
  acc_succ n hn hne := by rw [hrun n, accReg_step _ (hc n hn hne)]

end Recurrence

end Fp32Acc

end Lliu
