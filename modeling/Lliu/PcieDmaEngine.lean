import Mathlib.Logic.Function.Basic
import Mathlib.Tactic.SplitIfs
import Lliu.Pkg

/-!
# Lliu.PcieDmaEngine

`pcie_dma_engine.sv`: every 10 ms the engine asks for a snapshot of the order book,
collects it in a staging buffer and writes it to host memory in 63 TLPs.

* `PcieSys` holds the `sys_clk` domain: the write side of the staging buffer and the
  synchronizer that makes a `snap_req` pulse of the level from the other domain.
* `PcieUser` holds the `user_clk` domain: the BAR0 registers and descriptor ring
  written by the host, the timer, and the DMA state machine.
* `PcieDmaEngine` is both, with clock edges in any order; a domain reads the
  registers of the other as they were before the edge.

The signals of the `pcie_7x_0` IP are inputs (`PcieIpIn`), as the commented instance
connects them.  The memories have no reset in the source; the model starts from zeroed
ones.  When the host arms a descriptor in the cycle in which the same ring entry is
done, the entry is left disarmed here; the source leaves the order of the two writes
open.  `ax_tx_tuser`, which is always zero, is left out.
-/

namespace Lliu

/-! ## inputs -/

/-- The snapshot interface. -/
structure SnapIn where
  snapData : BitVec 64
  snapValid : Bool
  snapDone : Bool

/-- The signals of `pcie_7x_0` that the engine reads. -/
structure PcieIpIn where
  userLnkUp : Bool
  axTxTready : Bool
  txBufAv : BitVec 6
  axRxTdata : BitVec 64
  axRxTvalid : Bool
  axRxTlast : Bool
  cfgBusNumber : BitVec 8
  cfgDeviceNumber : BitVec 5
  cfgFunctionNumber : BitVec 3

/-- The inputs of the `sys_clk` domain. -/
structure PcieSysIn where
  snap : SnapIn
  userLnkUp : Bool
  snapReqLevelUc : Bool
  dmaBusyUc : Bool

/-- The inputs of the `user_clk` domain. -/
structure PcieUserIn where
  ip : PcieIpIn
  captDoneToggleSc : Bool
  stagingMem : BitVec 10 → BitVec 64

/-! ## the sys_clk domain -/

/-- The registers of the `sys_clk` domain. -/
structure PcieSys where
  stagingMem : BitVec 10 → BitVec 64
  stgWrPtr : BitVec 10
  captActiveSys : Bool
  captDoneSys : Bool
  snapReqSync0 : Bool
  snapReqSync1 : Bool
  snapReqPrevSc : Bool
  snapReqSysPulse : Bool
  captDoneToggleSc : Bool
  dmaBusySync0 : Bool
  dmaBusySync1 : Bool
  dmaActive : Bool
  dmaErr : Bool

namespace PcieSys

/-- The registers after reset, with a zeroed buffer. -/
def reset : PcieSys where
  stagingMem := fun _ => 0
  stgWrPtr := 0
  captActiveSys := false
  captDoneSys := false
  snapReqSync0 := false
  snapReqSync1 := false
  snapReqPrevSc := false
  snapReqSysPulse := false
  captDoneToggleSc := false
  dmaBusySync0 := false
  dmaBusySync1 := false
  dmaActive := false
  dmaErr := false

/-- `snap_req`. -/
def snapReq (s : PcieSys) : Bool := s.snapReqSysPulse

/-- `snap_ready`. -/
def snapReady (s : PcieSys) : Bool := s.captActiveSys

/-- The synchronizers, the toggle and the status. -/
def advance (s : PcieSys) (i : PcieSysIn) : PcieSys :=
  { s with
    captDoneSys := false
    snapReqSync0 := i.snapReqLevelUc
    snapReqSync1 := s.snapReqSync0
    snapReqPrevSc := s.snapReqSync1
    snapReqSysPulse := s.snapReqSync1 && !s.snapReqPrevSc
    captDoneToggleSc := s.captDoneToggleSc ^^ s.captDoneSys
    dmaBusySync0 := i.dmaBusyUc
    dmaBusySync1 := s.dmaBusySync0
    dmaActive := s.dmaBusySync1
    dmaErr := !i.userLnkUp && s.dmaBusySync1 }

/-- The staging buffer with a beat written. -/
def writeBeat (s : PcieSys) (i : SnapIn) : BitVec 10 → BitVec 64 :=
  Function.update s.stagingMem s.stgWrPtr i.snapData

/-- One clock edge. -/
def step (s : PcieSys) (i : PcieSysIn) : PcieSys :=
  let d := s.advance i
  if s.snapReqSysPulse then { d with stgWrPtr := 0, captActiveSys := true }
  else if s.captActiveSys && i.snap.snapValid then
    if i.snap.snapDone then
      { d with stagingMem := s.writeBeat i.snap, captActiveSys := false, captDoneSys := true }
    else { d with stagingMem := s.writeBeat i.snap, stgWrPtr := s.stgWrPtr + 1 }
  else d

end PcieSys

/-! ## the user_clk domain -/

/-- The states of the RX handler. -/
inductive RxState where
  | rxIdle | rxHdr1 | rxData
  deriving DecidableEq, Repr

/-- The states of the DMA state machine. -/
inductive DmaState where
  | dmaIdle | dmaTrig | dmaCaptWait | dmaDescr | dmaDescrLat | dmaTlp
  deriving DecidableEq, Repr

/-- The registers of the `user_clk` domain. -/
structure PcieUser where
  stgRdData : BitVec 64
  captDoneSync0 : Bool
  captDoneSync1 : Bool
  captDonePrevUc : Bool
  captDoneUc : Bool
  descRing : BitVec 8 → BitVec 96
  descRdData : BitVec 96
  rxState : RxState
  rxBar0Addr : BitVec 32
  bar0CtrlR : BitVec 32
  bar0DescWrPtr : BitVec 8
  bar0StageHostLo : BitVec 32
  bar0StageHostHi : BitVec 32
  descWrPtrR : BitVec 8
  periodicTimer : BitVec 22
  periodicTick : Bool
  dmaState : DmaState
  snapReqLevelUc : Bool
  descRdPtr : BitVec 8
  stgRdPtr : BitVec 10
  stgRdPtrR : BitVec 10
  tlpBeatCnt : BitVec 10
  tlpNum : BitVec 7
  dmaHostAddr : BitVec 64
  axTxTdata : BitVec 64
  axTxTkeep : BitVec 8
  axTxTvalid : Bool
  axTxTlast : Bool
  dmaBusyUc : Bool

namespace PcieUser

/-- The registers after reset, with a zeroed ring. -/
def reset : PcieUser where
  stgRdData := 0
  captDoneSync0 := false
  captDoneSync1 := false
  captDonePrevUc := false
  captDoneUc := false
  descRing := fun _ => 0
  descRdData := 0
  rxState := .rxIdle
  rxBar0Addr := 0
  bar0CtrlR := 0
  bar0DescWrPtr := 0
  bar0StageHostLo := 0
  bar0StageHostHi := 0
  descWrPtrR := 0
  periodicTimer := 0
  periodicTick := false
  dmaState := .dmaIdle
  snapReqLevelUc := false
  descRdPtr := 0
  stgRdPtr := 0
  stgRdPtrR := 0
  tlpBeatCnt := 0
  tlpNum := 0
  dmaHostAddr := 0
  axTxTdata := 0
  axTxTkeep := 0
  axTxTvalid := false
  axTxTlast := false
  dmaBusyUc := false

/-! ### constants -/

/-- `TIMER_PERIOD_UC`. -/
def timerPeriodUc : Nat := 2500000

/-- `TLP_PAYLOAD_DW`. -/
def tlpPayloadDw : Nat := 32

/-- `TLP_PAYLOAD_B`. -/
def tlpPayloadB : Nat := tlpPayloadDw * 4

/-- `SNAP_BEATS`. -/
def snapBeats : Nat := 1000

/-- `FULL_TLPS`. -/
def fullTlps : Nat := snapBeats * 8 / tlpPayloadB

/-- `LAST_TLP_BEATS`. -/
def lastTlpBeats : Nat := snapBeats - fullTlps * (tlpPayloadDw / 2)

/-! ### descriptors -/

/-- The host address of a descriptor. -/
def descHostAddr (d : BitVec 96) : BitVec 64 := d.extractLsb' 32 64

/-- The length of a descriptor. -/
def descByteLen (d : BitVec 96) : BitVec 24 := d.extractLsb' 8 24

/-- The valid bit of a descriptor. -/
def descValidBit (d : BitVec 96) : Bool := d.getLsbD 7

/-- An armed descriptor. -/
def armed (hostHi hostLo : BitVec 32) (byteLen : BitVec 24) : BitVec 96 :=
  hostHi ++ hostLo ++ byteLen ++ 1#1 ++ 0#7

/-- A descriptor with its valid bit cleared. -/
def disarmed (d : BitVec 96) : BitVec 96 := d.extractLsb' 8 88 ++ 0#1 ++ d.extractLsb' 0 7

/-! ### the clock edge -/

/-- The reads of the memories, the synchronizer, the timer, and the defaults of the
TX stream. -/
def advance (s : PcieUser) (i : PcieUserIn) : PcieUser :=
  { s with
    stgRdData := i.stagingMem s.stgRdPtr
    captDoneSync0 := i.captDoneToggleSc
    captDoneSync1 := s.captDoneSync0
    captDonePrevUc := s.captDoneSync1
    captDoneUc := s.captDoneSync1 ^^ s.captDonePrevUc
    descRdData := s.descRing s.descRdPtr
    periodicTimer :=
      if s.periodicTimer = BitVec.ofNat 22 (timerPeriodUc - 1) then 0 else s.periodicTimer + 1
    periodicTick := s.periodicTimer == BitVec.ofNat 22 (timerPeriodUc - 1)
    axTxTvalid := false
    axTxTlast := false }

/-- A BAR0 register write. -/
def writeBar0 (s : PcieUser) (wdata : BitVec 32) (d : PcieUser) : PcieUser :=
  let addr : BitVec 12 := s.rxBar0Addr.setWidth 12
  if addr = 0x000#12 then { d with bar0CtrlR := wdata }
  else if addr = 0x008#12 then { d with bar0DescWrPtr := wdata.setWidth 8 }
  else if addr = 0x00C#12 then { d with bar0StageHostLo := wdata }
  else if addr = 0x010#12 then { d with bar0StageHostHi := wdata }
  else if addr = 0x014#12 then
    { d with
      descRing := Function.update d.descRing s.bar0DescWrPtr
        (armed s.bar0StageHostHi s.bar0StageHostLo (wdata.setWidth 24))
      descWrPtrR := s.bar0DescWrPtr }
  else d

/-- The RX handler; RX beats are always taken. -/
def stepRx (s : PcieUser) (i : PcieIpIn) (d : PcieUser) : PcieUser :=
  if i.axRxTvalid then
    match s.rxState with
    | .rxIdle => { d with rxState := if i.axRxTlast then .rxIdle else .rxHdr1 }
    | .rxHdr1 => { d with rxBar0Addr := i.axRxTdata.setWidth 32, rxState := .rxData }
    | .rxData =>
        { s.writeBar0 (i.axRxTdata.setWidth 32) d with
          rxState := if i.axRxTlast then .rxIdle else .rxData }
  else d

/-- The last TLP of a snapshot. -/
def isLastTlp (s : PcieUser) : Bool := s.tlpNum == BitVec.ofNat 7 fullTlps

/-- The data beats of the TLP. -/
def curTlpDataBeats (s : PcieUser) : BitVec 10 :=
  if s.isLastTlp then BitVec.ofNat 10 lastTlpBeats else BitVec.ofNat 10 (tlpPayloadDw / 2)

/-- The length field of the TLP. -/
def tlpLengthDw (s : PcieUser) : BitVec 10 :=
  if s.isLastTlp then BitVec.ofNat 10 (lastTlpBeats * 2) else BitVec.ofNat 10 tlpPayloadDw

/-- The host address of the TLP. -/
def tlpHostAddr (s : PcieUser) : BitVec 64 :=
  s.dmaHostAddr + s.tlpNum.setWidth 64 * BitVec.ofNat 64 tlpPayloadB

/-- Header beat 0: a memory write with a 64-bit address. -/
def headerBeat (lengthDw : BitVec 10) (reqId : BitVec 16) : BitVec 64 :=
  0b011#3 ++ 0#5 ++ 0#14 ++ lengthDw ++ reqId ++ 0#8 ++ 0xF#4 ++ 0xF#4

/-- Header beat 1: the address of a double word. -/
def addressBeat (addr : BitVec 64) : BitVec 64 := addr.extractLsb' 2 62 ++ 0#2

/-- A beat may be put on the bus. -/
def go (i : PcieIpIn) : Bool := i.axTxTready && i.txBufAv != 0

/-- The index of a data beat in its TLP. -/
def dataIdx (s : PcieUser) : BitVec 10 := s.tlpBeatCnt - 2

/-- The last data beat of the TLP. -/
def endTlp (s : PcieUser) (d : PcieUser) : PcieUser :=
  if s.isLastTlp then
    { d with
      axTxTlast := true
      tlpBeatCnt := 0
      descRing := Function.update d.descRing s.descRdPtr (disarmed (d.descRing s.descRdPtr))
      descRdPtr := s.descRdPtr + 1
      dmaBusyUc := false
      dmaState := .dmaIdle }
  else
    { d with
      axTxTlast := true
      tlpBeatCnt := 0
      tlpNum := s.tlpNum + 1
      stgRdPtrR := s.stgRdPtrR + BitVec.ofNat 10 (tlpPayloadDw / 2) }

/-- A data beat, and the address of the next one to read. -/
def putData (s : PcieUser) (d : PcieUser) : PcieUser :=
  let d' :=
    { d with
      axTxTvalid := true
      axTxTdata := s.stgRdData
      axTxTkeep := 0xFF
      stgRdPtr :=
        if s.dataIdx + 1 < s.curTlpDataBeats then s.stgRdPtrR + (s.dataIdx + 1) else d.stgRdPtr }
  if s.dataIdx = s.curTlpDataBeats - 1 then s.endTlp d'
  else { d' with tlpBeatCnt := s.tlpBeatCnt + 1 }

/-- `DMA_TLP`: put the next beat on the bus. -/
def stepTlp (s : PcieUser) (i : PcieIpIn) (d : PcieUser) : PcieUser :=
  if go i then
    if s.tlpBeatCnt = 0 then
      { d with
        axTxTvalid := true
        axTxTdata := headerBeat s.tlpLengthDw
          (i.cfgBusNumber ++ i.cfgDeviceNumber ++ i.cfgFunctionNumber)
        axTxTkeep := 0xFF
        tlpBeatCnt := s.tlpBeatCnt + 1 }
    else if s.tlpBeatCnt = 1 then
      { d with
        axTxTvalid := true
        axTxTdata := addressBeat s.tlpHostAddr
        axTxTkeep := 0xFF
        stgRdPtr := s.stgRdPtrR
        tlpBeatCnt := s.tlpBeatCnt + 1 }
    else s.putData d
  else d

/-- `DMA_DESCR_LAT`: take the descriptor, if it is armed. -/
def stepDescrLat (s : PcieUser) (d : PcieUser) : PcieUser :=
  if descValidBit s.descRdData then
    { d with
      dmaHostAddr := descHostAddr s.descRdData
      stgRdPtr := 0
      stgRdPtrR := 0
      tlpBeatCnt := 0
      tlpNum := 0
      dmaState := .dmaTlp }
  else { d with dmaState := .dmaIdle }

/-- The DMA state machine. -/
def stepDma (s : PcieUser) (i : PcieIpIn) (d : PcieUser) : PcieUser :=
  match s.dmaState with
  | .dmaIdle =>
      { d with
        dmaBusyUc := false
        dmaState :=
          if s.periodicTick && s.bar0CtrlR.getLsbD 0 && i.userLnkUp then .dmaTrig else .dmaIdle }
  | .dmaTrig =>
      { d with
        snapReqLevelUc := !s.snapReqLevelUc
        dmaState := .dmaCaptWait
        dmaBusyUc := true }
  | .dmaCaptWait => if s.captDoneUc then { d with dmaState := .dmaDescr } else d
  | .dmaDescr => { d with dmaState := .dmaDescrLat }
  | .dmaDescrLat => s.stepDescrLat d
  | .dmaTlp => s.stepTlp i d

/-- One clock edge. -/
def step (s : PcieUser) (i : PcieUserIn) : PcieUser :=
  s.stepDma i.ip (s.stepRx i.ip (s.advance i))

/-! ### what the RX handler and the state machine leave -/

section Frame

variable (s : PcieUser) (i : PcieIpIn) (wdata : BitVec 32) (d : PcieUser)

/-- A register write changes the BAR0 registers and the ring. -/
theorem writeBar0_eq : s.writeBar0 wdata d =
    { d with
      bar0CtrlR := (s.writeBar0 wdata d).bar0CtrlR
      bar0DescWrPtr := (s.writeBar0 wdata d).bar0DescWrPtr
      bar0StageHostLo := (s.writeBar0 wdata d).bar0StageHostLo
      bar0StageHostHi := (s.writeBar0 wdata d).bar0StageHostHi
      descRing := (s.writeBar0 wdata d).descRing
      descWrPtrR := (s.writeBar0 wdata d).descWrPtrR } := by
  rw [writeBar0]
  split_ifs <;> rfl

/-- The RX handler changes its own registers, the BAR0 registers and the ring. -/
theorem stepRx_eq : s.stepRx i d =
    { d with
      rxState := (s.stepRx i d).rxState
      rxBar0Addr := (s.stepRx i d).rxBar0Addr
      bar0CtrlR := (s.stepRx i d).bar0CtrlR
      bar0DescWrPtr := (s.stepRx i d).bar0DescWrPtr
      bar0StageHostLo := (s.stepRx i d).bar0StageHostLo
      bar0StageHostHi := (s.stepRx i d).bar0StageHostHi
      descRing := (s.stepRx i d).descRing
      descWrPtrR := (s.stepRx i d).descWrPtrR } := by
  rw [stepRx]
  split
  · split
    · rfl
    · rfl
    · rw [writeBar0_eq]
  · rfl

@[simp] theorem stepRx_dmaState : (s.stepRx i d).dmaState = d.dmaState := by rw [stepRx_eq]

@[simp] theorem stepRx_snapReqLevelUc : (s.stepRx i d).snapReqLevelUc = d.snapReqLevelUc := by
  rw [stepRx_eq]

/-- The DMA state machine changes its own registers, the TX stream and the ring. -/
theorem stepDma_eq : s.stepDma i d =
    { d with
      descRing := (s.stepDma i d).descRing
      dmaState := (s.stepDma i d).dmaState
      snapReqLevelUc := (s.stepDma i d).snapReqLevelUc
      descRdPtr := (s.stepDma i d).descRdPtr
      stgRdPtr := (s.stepDma i d).stgRdPtr
      stgRdPtrR := (s.stepDma i d).stgRdPtrR
      tlpBeatCnt := (s.stepDma i d).tlpBeatCnt
      tlpNum := (s.stepDma i d).tlpNum
      dmaHostAddr := (s.stepDma i d).dmaHostAddr
      axTxTdata := (s.stepDma i d).axTxTdata
      axTxTkeep := (s.stepDma i d).axTxTkeep
      axTxTvalid := (s.stepDma i d).axTxTvalid
      axTxTlast := (s.stepDma i d).axTxTlast
      dmaBusyUc := (s.stepDma i d).dmaBusyUc } := by
  rw [stepDma]
  split
  · rfl
  · rfl
  · split_ifs <;> rfl
  · rfl
  · rw [stepDescrLat]
    split_ifs <;> rfl
  · rw [stepTlp, putData, endTlp]
    split_ifs <;> rfl

end Frame

end PcieUser

/-! ## the engine -/

/-- The registers of `pcie_dma_engine`. -/
structure PcieDmaEngine where
  sys : PcieSys
  user : PcieUser

/-- Clock edges that fall together, and the inputs at that time. -/
structure PcieEdge where
  sysEdge : Bool
  userEdge : Bool
  snap : SnapIn
  ip : PcieIpIn

namespace PcieDmaEngine

/-- The registers after reset. -/
def reset : PcieDmaEngine where
  sys := PcieSys.reset
  user := PcieUser.reset

/-- The inputs of the `sys_clk` domain. -/
def sysIn (s : PcieDmaEngine) (e : PcieEdge) : PcieSysIn where
  snap := e.snap
  userLnkUp := e.ip.userLnkUp
  snapReqLevelUc := s.user.snapReqLevelUc
  dmaBusyUc := s.user.dmaBusyUc

/-- The inputs of the `user_clk` domain. -/
def userIn (s : PcieDmaEngine) (e : PcieEdge) : PcieUserIn where
  ip := e.ip
  captDoneToggleSc := s.sys.captDoneToggleSc
  stagingMem := s.sys.stagingMem

/-- Clock edges that fall together. -/
def step (s : PcieDmaEngine) (e : PcieEdge) : PcieDmaEngine where
  sys := if e.sysEdge then s.sys.step (s.sysIn e) else s.sys
  user := if e.userEdge then s.user.step (s.userIn e) else s.user

end PcieDmaEngine

end Lliu
