import Lliu.Hdl.Slot
import Lliu.Pkg

/-!
# Lliu.Axi4LiteSlave

`axi4_lite_slave.sv`: the AXI4-Lite control plane of the first version.

The address and the data of a write are taken in either order or together, and
the write is processed in the cycle in which both are there.  That cycle raises
`s_axil_bvalid`, also where it is still high for an earlier write: so every write
is carried out, but two of them may share a response.

The module is modelled with the default widths, 8 address and 32 data bits; the
write strobes are not used.
-/

namespace Lliu

/-- The inputs of `axi4_lite_slave`. -/
structure Axi4LiteSlaveIn where
  sAxilAwaddr : BitVec 8
  sAxilAwvalid : Bool
  sAxilWdata : BitVec 32
  sAxilWvalid : Bool
  sAxilBready : Bool
  sAxilAraddr : BitVec 8
  sAxilArvalid : Bool
  sAxilRready : Bool
  statusResultReady : Bool
  statusBusy : Bool
  resultData : Float32T
  droppedFrames : BitVec 32
  droppedDatagrams : BitVec 32
  expectedSeqNum : BitVec 64
  gtxLock : Bool
  axilBinData : BitVec 32
  overflowBin : BitVec 32
  collisionCount : BitVec 32

/-- The registers of `axi4_lite_slave`. -/
structure Axi4LiteSlave where
  awCaptured : Bool
  wCaptured : Bool
  wrAddrLatched : BitVec 8
  wrDataLatched : BitVec 32
  sAxilBvalid : Bool
  wgtAddrReg : BitVec 2
  wgtWrEn : Bool
  ctrlStart : Bool
  ctrlSoftReset : Bool
  camWrValid : Bool
  camIndexReg : BitVec 10
  camDataLoReg : BitVec 32
  camDataHiReg : BitVec 32
  camEnBitReg : Bool
  binAddrReg : BitVec 5
  axilClear : Bool
  arCaptured : Bool
  rdAddrLatched : BitVec 8
  sAxilRvalid : Bool
  sAxilRdata : BitVec 32
  deriving DecidableEq, Repr

namespace Axi4LiteSlave

/-- The registers after reset. -/
def reset : Axi4LiteSlave where
  awCaptured := false
  wCaptured := false
  wrAddrLatched := 0
  wrDataLatched := 0
  sAxilBvalid := false
  wgtAddrReg := 0
  wgtWrEn := false
  ctrlStart := false
  ctrlSoftReset := false
  camWrValid := false
  camIndexReg := 0
  camDataLoReg := 0
  camDataHiReg := 0
  camEnBitReg := false
  binAddrReg := 0
  axilClear := false
  arCaptured := false
  rdAddrLatched := 0
  sAxilRvalid := false
  sAxilRdata := 0

/-! ## the write channel -/

/-- An address is transferred: `s_axil_awready` is `!aw_captured`. -/
def awBeat (s : Axi4LiteSlave) (i : Axi4LiteSlaveIn) : Bool := i.sAxilAwvalid && !s.awCaptured

/-- A data word is transferred: `s_axil_wready` is `!w_captured`. -/
def wBeat (s : Axi4LiteSlave) (i : Axi4LiteSlaveIn) : Bool := i.sAxilWvalid && !s.wCaptured

/-- A response is transferred. -/
def bBeat (s : Axi4LiteSlave) (i : Axi4LiteSlaveIn) : Bool := s.sAxilBvalid && i.sAxilBready

/-- A write is processed: its address and its data are captured or arrive. -/
def process (s : Axi4LiteSlave) (i : Axi4LiteSlaveIn) : Bool :=
  (s.awCaptured || s.awBeat i) && (s.wCaptured || s.wBeat i)

/-- The address processed. -/
def wrAddr (s : Axi4LiteSlave) (i : Axi4LiteSlaveIn) : BitVec 8 :=
  if s.awCaptured then s.wrAddrLatched else i.sAxilAwaddr

/-- The data processed. -/
def wrData (s : Axi4LiteSlave) (i : Axi4LiteSlaveIn) : BitVec 32 :=
  if s.wCaptured then s.wrDataLatched else i.sAxilWdata

/-- The register write of address `a` and data `w`. -/
def writeReg (a : BitVec 8) (w : BitVec 32) (d : Axi4LiteSlave) : Axi4LiteSlave :=
  { d with
    ctrlStart := a == 0x00#8 && w.getLsbD 0
    ctrlSoftReset := a == 0x00#8 && w.getLsbD 1
    wgtAddrReg := if a = 0x08#8 then w.setWidth 2 else d.wgtAddrReg
    wgtWrEn := a == 0x0C#8
    camIndexReg :=
      if a = 0x14#8 then d.camIndexReg.extractLsb' 8 2 ++ w.setWidth 8
      else if a = 0x38#8 then w.setWidth 2 ++ d.camIndexReg.setWidth 8
      else d.camIndexReg
    camDataLoReg := if a = 0x18#8 then w else d.camDataLoReg
    camDataHiReg := if a = 0x1C#8 then w else d.camDataHiReg
    camWrValid := a == 0x20#8 && w.getLsbD 0
    camEnBitReg := if a = 0x20#8 then w.getLsbD 1 else d.camEnBitReg
    binAddrReg := if a = 0x3C#8 then w.setWidth 5 else d.binAddrReg
    axilClear := a == 0x44#8 }

/-- The write channel: the pulses fall, the handshakes are captured, and a write
is processed.  Its response wins over the fall of the one before. -/
def stepWrite (s : Axi4LiteSlave) (i : Axi4LiteSlaveIn) : Axi4LiteSlave :=
  let d :=
    { s with
      ctrlStart := false
      ctrlSoftReset := false
      wgtWrEn := false
      camWrValid := false
      axilClear := false
      sAxilBvalid := s.sAxilBvalid && !i.sAxilBready
      awCaptured := s.awCaptured || s.awBeat i
      wrAddrLatched := if s.awBeat i then i.sAxilAwaddr else s.wrAddrLatched
      wCaptured := s.wCaptured || s.wBeat i
      wrDataLatched := if s.wBeat i then i.sAxilWdata else s.wrDataLatched }
  if s.process i then
    writeReg (s.wrAddr i) (s.wrData i)
      { d with awCaptured := false, wCaptured := false, sAxilBvalid := true }
  else d

/-! ## the ports -/

/-- `wgt_wr_data`. -/
def wgtWrData (s : Axi4LiteSlave) : Bfloat16T := s.wrDataLatched.setWidth 16

/-- `cam_wr_data`. -/
def camWrData (s : Axi4LiteSlave) : BitVec 64 := s.camDataHiReg ++ s.camDataLoReg

/-! ## the read channel -/

/-- The data of a read. -/
def readData (s : Axi4LiteSlave) (i : Axi4LiteSlaveIn) : BitVec 32 :=
  if s.rdAddrLatched = 0x04#8 then
    0#30 ++ BitVec.ofBool i.statusBusy ++ BitVec.ofBool i.statusResultReady
  else if s.rdAddrLatched = 0x10#8 then i.resultData
  else if s.rdAddrLatched = 0x24#8 then i.droppedFrames
  else if s.rdAddrLatched = 0x28#8 then i.droppedDatagrams
  else if s.rdAddrLatched = 0x2C#8 then i.expectedSeqNum.setWidth 32
  else if s.rdAddrLatched = 0x30#8 then i.expectedSeqNum.extractLsb' 32 32
  else if s.rdAddrLatched = 0x34#8 then 0#31 ++ BitVec.ofBool i.gtxLock
  else if s.rdAddrLatched = 0x40#8 then i.axilBinData
  else if s.rdAddrLatched = 0x48#8 then i.collisionCount
  else if s.rdAddrLatched = 0x4C#8 then i.overflowBin
  else 0xDEADBEEF#32

/-- An address is transferred: `s_axil_arready` waits for the response before. -/
def arBeat (s : Axi4LiteSlave) (i : Axi4LiteSlaveIn) : Bool :=
  i.sAxilArvalid && !s.arCaptured && !s.sAxilRvalid

/-- The read channel. -/
def stepRead (s : Axi4LiteSlave) (i : Axi4LiteSlaveIn) (d : Axi4LiteSlave) : Axi4LiteSlave :=
  { d with
    arCaptured := if s.arCaptured then false else s.arBeat i
    rdAddrLatched := if s.arBeat i then i.sAxilAraddr else s.rdAddrLatched
    sAxilRvalid := s.arCaptured || (s.sAxilRvalid && !i.sAxilRready)
    sAxilRdata := if s.arCaptured then s.readData i else s.sAxilRdata }

/-- One clock edge. -/
def step (s : Axi4LiteSlave) (i : Axi4LiteSlaveIn) : Axi4LiteSlave := s.stepRead i (s.stepWrite i)

end Axi4LiteSlave

end Lliu
