import Lliu.Hdl.Slot
import Lliu.LliuTopV2.Trace

/-!
# Lliu.LliuTopV2.AxiWrite

The AXI4-Lite write channel of the top level over whole runs.  `ControlRegs` says
what a write is for: it is the register file of the address map, written one register
at a time, that gives commands to the symbol filter, the template memory, the weight
memories and the histogram.

Addresses and data are captured apart, in any order.  A write is applied when both are
there and no response waits, so the n-th write is of the n-th address and the n-th data
word, has its effect once, and gets a response of its own.
-/

namespace Lliu

open Hdl

/-! ## the register file -/

/-- The commands that a write can give. -/
inductive AxilCommand where
  | cam (index : BitVec (symFilterIdxW + 1)) (data : BitVec 64) (en : Bool)
  | template (addr : BitVec 9) (data : BitVec 64)
  | weight (core : Fin numCores) (addr : BitVec 5) (data : Bfloat16T)
  | histClear
  deriving DecidableEq, Repr

/-- The registers that a write can set. -/
@[ext]
structure ControlRegs where
  bandBps : BitVec 32
  maxQty : BitVec 32
  scoreThresh : Float32T
  killSw : Bool
  camIdxLo : BitVec 8
  camIdxHi : BitVec 2
  camDatLo : BitVec 32
  camDatHi : BitVec 32
  tmplAddr : BitVec 9
  tmplLo : BitVec 32
  coreShares : Fin numCores → BitVec 24

/-- A write outside the weight memories: each register has its own address. -/
def ControlRegs.writeReg (r : ControlRegs) (a : BitVec 12) (w : BitVec 32) : ControlRegs where
  camIdxLo := if a = 0x014#12 then w.setWidth 8 else r.camIdxLo
  camDatLo := if a = 0x018#12 then w else r.camDatLo
  camDatHi := if a = 0x01C#12 then w else r.camDatHi
  camIdxHi := if a = 0x038#12 then w.setWidth 2 else r.camIdxHi
  bandBps := if a = 0x400#12 then w else r.bandBps
  maxQty := if a = 0x404#12 then w else r.maxQty
  scoreThresh := if a = 0x408#12 then w else r.scoreThresh
  killSw := if a = 0x40C#12 then r.killSw || w.getLsbD 0 else r.killSw
  coreShares := fun k =>
    if a = 0xC00#12 + BitVec.ofNat 12 (4 * k.val) then w.setWidth 24 else r.coreShares k
  tmplAddr := if a = 0xE00#12 then w.setWidth 9 else r.tmplAddr
  tmplLo := if a = 0xE04#12 then w else r.tmplLo

/-- The command of a write outside the weight memories. -/
def ControlRegs.commandOf (r : ControlRegs) (a : BitVec 12) (w : BitVec 32) : List AxilCommand :=
  if a = 0x020#12 then
    if w.getLsbD 0 then
      [.cam ((r.camIdxHi ++ r.camIdxLo).setWidth _) (r.camDatHi ++ r.camDatLo) (w.getLsbD 1)]
    else []
  else if a = 0x584#12 then if w.getLsbD 0 then [.histClear] else []
  else if a = 0xE08#12 then [.template r.tmplAddr (w ++ r.tmplLo)]
  else []

/-- A write; the weight memories are at `0x800` to `0xBFC`. -/
def ControlRegs.write (r : ControlRegs) (x : BitVec 12 × BitVec 32) :
    ControlRegs × List AxilCommand :=
  if x.1.extractLsb' 10 2 = 2#2 then
    (r, [.weight (Axil.wgtCore x.1) (x.1.extractLsb' 2 5) (x.2.setWidth 16)])
  else (r.writeReg x.1 x.2, r.commandOf x.1 x.2)

namespace Axil

/-- The register file of the top level. -/
def controlRegs (s : Axil) : ControlRegs where
  bandBps := s.bandBpsR
  maxQty := s.maxQtyR
  scoreThresh := s.scoreThreshR
  killSw := s.killSwR
  camIdxLo := s.camIdxLoR
  camIdxHi := s.camIdxHiR
  camDatLo := s.camDatLoR
  camDatHi := s.camDatHiR
  tmplAddr := s.tmplAddrStg
  tmplLo := s.tmplLoStg
  coreShares := s.coreSharesAr

/-- The commands given in a cycle. -/
def commands (s : Axil) : List AxilCommand :=
  (if s.camWrValid then [.cam s.camWrIndex s.camWrData s.camWrEnBit] else []) ++
    (if s.tmplWrEn then [.template s.tmplWrAddr s.tmplWrData] else []) ++
    (((List.finRange numCores).filter s.wgtWrEnAr).map fun k =>
      .weight k (s.wgtWrAddrAr k) (s.wgtWrDataAr k)) ++
    if s.axilClear then [.histClear] else []

/-- An address is transferred: `s_axil_awready` is `!aw_cap`. -/
def awBeat (s : Axil) (i : LliuTopV2In) : Bool := i.sAxilAwvalid && !s.awCap

/-- A data word is transferred: `s_axil_wready` is `!w_cap`. -/
def wBeat (s : Axil) (i : LliuTopV2In) : Bool := i.sAxilWvalid && !s.wCap

/-- A response is transferred. -/
def bBeat (s : Axil) (i : LliuTopV2In) : Bool := s.sAxilBvalid && i.sAxilBready

/-! ## one clock edge -/

section Step

variable {s d : Axil} {i : LliuTopV2In} {rd blocked : Bool}

theorem step_of_not_fire (h : s.fire = false) : s.step i rd blocked = s.advance i rd blocked := by
  rw [step, h, if_neg Bool.false_ne_true]

/-- What applying a write does to the handshake. -/
theorem handshake_of_fire (h : s.fire = true) : (s.step i rd blocked).awCap = false ∧
    (s.step i rd blocked).wCap = false ∧ (s.step i rd blocked).sAxilBvalid = true := by
  unfold step
  rw [if_pos h]
  split_ifs <;> exact ⟨rfl, rfl, rfl⟩

theorem fire_iff : s.fire = true ↔ s.awCap = true ∧ s.wCap = true ∧ s.sAxilBvalid = false := by
  unfold fire
  simp [and_assoc]

/-! ### the effect -/

theorem controlRegs_advance : (s.advance i rd blocked).controlRegs = s.controlRegs := rfl

theorem commands_advance : (s.advance i rd blocked).commands = [] := by
  simp [advance, commands]

/-- A register write does to the registers what it does to the register file. -/
theorem controlRegs_writeReg (s d : Axil) :
    (s.writeReg d).controlRegs = d.controlRegs.writeReg s.wrAddrR s.wrDataR := by
  have hkill : (s.writeReg d).killSwR =
      (d.controlRegs.writeReg s.wrAddrR s.wrDataR).killSw := by
    unfold writeReg ControlRegs.writeReg controlRegs
    by_cases ha : s.wrAddrR = 0x40C#12 <;> cases hw : s.wrDataR.getLsbD 0 <;>
      simp [ha, hw, -BitVec.getLsbD_eq_getElem]
  exact ControlRegs.ext rfl rfl rfl hkill rfl rfl rfl rfl rfl rfl rfl

/-- It gives its command. -/
theorem commands_writeReg (hw : d.wgtWrEnAr = fun _ => false) (hc : d.axilClear = false) :
    (s.writeReg d).commands = s.controlRegs.commandOf s.wrAddrR s.wrDataR := by
  unfold writeReg commands ControlRegs.commandOf camFire controlRegs
  simp only [hw, hc]
  split_ifs <;> simp_all [-BitVec.getLsbD_eq_getElem]

/-- A weight write enables the memory of its core alone. -/
theorem commands_writeWeight (h : d.commands = []) (hw : d.wgtWrEnAr = fun _ => false) :
    (s.writeWeight d).commands =
      [.weight (wgtCore s.wrAddrR) (s.wrAddrR.extractLsb' 2 5) (s.wrDataR.setWidth 16)] := by
  have hone : ∀ c : Fin numCores, (List.finRange numCores).filter
      (Function.update (fun _ => false) c true) = [c] := by decide
  unfold commands at h
  simp only [hw, List.append_eq_nil_iff] at h
  obtain ⟨⟨⟨hcam, htmpl⟩, -⟩, hclr⟩ := h
  unfold writeWeight commands
  simp only [hw, hone, hcam, htmpl, hclr]
  simp

/-- **Applying a write** does to the registers what it does to the register file, and
gives its command. -/
theorem controlRegs_fire (h : s.fire = true) :
    (s.step i rd blocked).controlRegs = (s.controlRegs.write (s.wrAddrR, s.wrDataR)).1 ∧
    (s.step i rd blocked).commands = (s.controlRegs.write (s.wrAddrR, s.wrDataR)).2 := by
  unfold step ControlRegs.write
  simp only [if_pos h]
  split
  · exact ⟨rfl, commands_writeWeight (by simp [advance, commands]) rfl⟩
  · exact ⟨controlRegs_writeReg _ _, commands_writeReg rfl rfl⟩

end Step

end Axil

namespace LliuTopV2

/-! ## runs -/

/-- The address accepted in a cycle. -/
def awTaken (i : Nat → LliuTopV2In) (k : Nat) : Option (BitVec 12) :=
  if (trace i k).axil.awBeat (i k) then some (i k).sAxilAwaddr else none

/-- The data word accepted in a cycle. -/
def wTaken (i : Nat → LliuTopV2In) (k : Nat) : Option (BitVec 32) :=
  if (trace i k).axil.wBeat (i k) then some (i k).sAxilWdata else none

/-- The write applied in a cycle. -/
def writeApplied (i : Nat → LliuTopV2In) (k : Nat) : Option (BitVec 12 × BitVec 32) :=
  if (trace i k).axil.fire then some ((trace i k).axil.wrAddrR, (trace i k).axil.wrDataR) else none

/-- The address that waits. -/
def awWaiting (s : Axil) : Option (BitVec 12) := if s.awCap then some s.wrAddrR else none

/-- The data word that waits. -/
def wWaiting (s : Axil) : Option (BitVec 32) := if s.wCap then some s.wrDataR else none

section Write

variable {i : Nat → LliuTopV2In}

theorem axil_succ (k : Nat) : (trace i (k + 1)).axil = (trace i k).axil.step (i k)
    (Axil.riskStatusRd (i k) (trace i k).axilRead.sAxilRvalid) (trace i k).uRisk.riskBlocked := rfl

theorem join_applied : Join (awTaken i) (wTaken i) (writeApplied i)
    (fun k => awWaiting (trace i k).axil) (fun k => wWaiting (trace i k).axil) where
  left :=
    { empty := rfl
      step := fun k => by
        unfold awTaken writeApplied awWaiting Axil.awBeat
        rw [axil_succ]
        cases hf : (trace i k).axil.fire with
        | true =>
            obtain ⟨ha, -, -⟩ := Axil.fire_iff.mp hf
            simp [Axil.handshake_of_fire hf, ha]
        | false =>
            rw [Axil.step_of_not_fire hf]
            cases ha : (trace i k).axil.awCap <;> cases hv : (i k).sAxilAwvalid <;>
              simp [Axil.advance, ha, hv] }
  right :=
    { empty := rfl
      step := fun k => by
        unfold wTaken writeApplied wWaiting Axil.wBeat
        rw [axil_succ]
        cases hf : (trace i k).axil.fire with
        | true =>
            obtain ⟨-, hw, -⟩ := Axil.fire_iff.mp hf
            simp [Axil.handshake_of_fire hf, hw]
        | false =>
            rw [Axil.step_of_not_fire hf]
            cases hw : (trace i k).axil.wCap <;> cases hv : (i k).sAxilWvalid <;>
              simp [Axil.advance, hw, hv] }

/-- A write raises the response flag, which was low, and a transfer lowers it. -/
theorem flag_applied : Flag (fun k => (trace i k).axil.fire)
    (fun k => (trace i k).axil.bBeat (i k)) (fun _ => false)
    (fun k => (trace i k).axil.sAxilBvalid) where
  empty := rfl
  step k := by
    unfold Axil.bBeat
    rw [axil_succ]
    cases hf : (trace i k).axil.fire with
    | true =>
        obtain ⟨-, -, hb⟩ := Axil.fire_iff.mp hf
        simp [Axil.handshake_of_fire hf, hb]
    | false =>
        rw [Axil.step_of_not_fire hf]
        cases hb : (trace i k).axil.sAxilBvalid <;> cases hr : (i k).sAxilBready <;>
          simp [Axil.advance, hb, hr]

theorem executes_applied : Executes ControlRegs.write (writeApplied i)
    (fun k => (trace i k).axil.controlRegs) (fun k => (trace i k).axil.commands) where
  start := by
    change Axil.reset.commands = []
    decide
  idle k h := by
    cases hf : (trace i k).axil.fire with
    | false =>
        rw [axil_succ]
        rw [Axil.step_of_not_fire hf]
        exact ⟨Axil.controlRegs_advance, Axil.commands_advance⟩
    | true => simp [writeApplied, hf] at h
  took k x h := by
    cases hf : (trace i k).axil.fire with
    | false => simp [writeApplied, hf] at h
    | true =>
        rw [writeApplied, hf, if_pos rfl, Option.some.injEq] at h
        exact h ▸ Axil.controlRegs_fire hf

/-- A write that is complete is applied at once, or in the cycle after the response
before it has been taken. -/
theorem fire_of_complete {k : Nat} (ha : (trace i k).axil.awCap = true)
    (hw : (trace i k).axil.wCap = true) : (trace i k).axil.fire = true ∨
    ((trace i k).axil.sAxilBvalid = true ∧
      ((i k).sAxilBready = true → (trace i (k + 1)).axil.fire = true)) := by
  cases hb : (trace i k).axil.sAxilBvalid with
  | false => exact Or.inl (Axil.fire_iff.mpr ⟨ha, hw, hb⟩)
  | true =>
      refine Or.inr ⟨rfl, fun hr => Axil.fire_iff.mpr ?_⟩
      have hf : (trace i k).axil.fire = false := by
        unfold Axil.fire
        simp [hb]
      rw [axil_succ]
      rw [Axil.step_of_not_fire hf]
      simp [Axil.advance, ha, hw, hr]

/-- **The write channel**: the writes applied are of the accepted addresses and data
words, paired in order, and only what is captured is still to be applied; the registers
and the commands are those of the register file after these writes; and each has had
its response, but for one that waits. -/
theorem writes_applied_in_order (n : Nat) :
    collect (awTaken i) n = (collect (writeApplied i) n).map Prod.fst ++ (awWaiting (trace i n).axil).toList ∧
    collect (wTaken i) n = (collect (writeApplied i) n).map Prod.snd ++ (wWaiting (trace i n).axil).toList ∧
    (trace i n).axil.controlRegs =
      (feed ControlRegs.write Axil.reset.controlRegs (collect (writeApplied i) n)).1 ∧
    (List.range (n + 1)).flatMap (fun k => (trace i k).axil.commands) =
      (feed ControlRegs.write Axil.reset.controlRegs (collect (writeApplied i) n)).2 ∧
    count (fun k => (trace i k).axil.bBeat (i k)) n + (trace i n).axil.sAxilBvalid.toNat =
      (collect (writeApplied i) n).length ∧
    ((trace i n).axil.awCap = true → (trace i n).axil.wCap = true →
      (trace i n).axil.fire = true ∨ ((trace i n).axil.sAxilBvalid = true ∧
        ((i n).sAxilBready = true → (trace i (n + 1)).axil.fire = true))) := by
  obtain ⟨haddr, hword⟩ := (join_applied (i := i)).collect_eq n
  obtain ⟨hregs, hcmd⟩ := (executes_applied (i := i)).feed_eq n
  refine ⟨haddr, hword, hregs, hcmd, ?_, fire_of_complete⟩
  rw [(flag_applied.count_eq_iff n).mpr fun _ _ => rfl, length_collect]
  congr 1
  funext k
  rw [writeApplied]
  cases (trace i k).axil.fire <;> rfl

end Write

end LliuTopV2

end Lliu
