import Lliu.Hdl.Axis
import Lliu.Hdl.Stream

/-!
# Lliu.MoldUdp64Strip

`moldupp64_strip.sv`: strips the 20-byte MoldUDP64 header from a UDP payload and
forwards the rest of in-order datagrams.  Byte `0` of a beat is in the low bits.

The header ends in the middle of beat 2, so the output is assembled from the
upper half of one beat, held in a staging register, and the lower half of the
next.  `seq_num` and `msg_count` are the header outputs; the sequence number
expected next and the count of dropped datagrams are registers.
-/

namespace Lliu

open Hdl

/-- The FSM states of `moldupp64_strip`. -/
inductive MoldState where
  | sHeaderB0 | sHeaderB1 | sHeaderB2 | sPayload | sDrop | sFlushShort
  deriving DecidableEq, Repr

/-- The inputs of `moldupp64_strip`. -/
structure MoldUdp64StripIn where
  sTdata : BitVec 64
  sTkeep : BitVec 8
  sTvalid : Bool
  sTlast : Bool
  mTready : Bool

/-- The beat at the slave port. -/
def MoldUdp64StripIn.beat (i : MoldUdp64StripIn) : Beat := ⟨i.sTdata, i.sTkeep, i.sTlast⟩

/-- The registers of `moldupp64_strip`. -/
structure MoldUdp64Strip where
  state : MoldState
  seqNumR : BitVec 64
  msgCountR : BitVec 16
  stageHi : BitVec 32
  stageHiKeep : BitVec 4
  stageHiValid : Bool
  expectedSeqNum : BitVec 64
  droppedDatagrams : BitVec 32
  deriving DecidableEq, Repr

namespace MoldUdp64Strip

/-- The registers after reset; sequence numbers start at one. -/
def reset : MoldUdp64Strip where
  state := .sHeaderB0
  seqNumR := 0
  msgCountR := 0
  stageHi := 0
  stageHiKeep := 0
  stageHiValid := false
  expectedSeqNum := 1
  droppedDatagrams := 0

/-! ## the header -/

/-- `tdata_byte`: byte `idx` of a word, byte 0 in the low bits. -/
def tdataByte (data : BitVec 64) (idx : Nat) : Byte := data.extractLsb' (8 * idx) 8

/-- The upper six bytes of the sequence number, in beat 1. -/
def seqNumHi (data : BitVec 64) : BitVec 48 :=
  tdataByte data 2 ++ tdataByte data 3 ++ tdataByte data 4 ++ tdataByte data 5 ++
    tdataByte data 6 ++ tdataByte data 7

/-- `header_seq_num_b2`: the registered upper bytes with the two of beat 2. -/
def headerSeqNumB2 (s : MoldUdp64Strip) (i : MoldUdp64StripIn) : BitVec 64 :=
  s.seqNumR.extractLsb' 16 48 ++ (tdataByte i.sTdata 0 ++ tdataByte i.sTdata 1)

/-- `header_msg_count_b2`. -/
def headerMsgCountB2 (i : MoldUdp64StripIn) : BitVec 16 :=
  tdataByte i.sTdata 2 ++ tdataByte i.sTdata 3

/-- `header_in_order_b2`. -/
def headerInOrderB2 (s : MoldUdp64Strip) (i : MoldUdp64StripIn) : Bool :=
  s.headerSeqNumB2 i == s.expectedSeqNum

/-- `header_b0_valid`. -/
def headerB0Valid (i : MoldUdp64StripIn) : Bool := i.sTkeep == 0xFF#8

/-- `header_b1_valid`. -/
def headerB1Valid (i : MoldUdp64StripIn) : Bool := i.sTkeep == 0xFF#8

/-- `header_b2_valid`. -/
def headerB2Valid (i : MoldUdp64StripIn) : Bool := i.sTkeep.extractLsb' 0 4 == 0xF#4

/-- `header_accept_b2`: a header is complete. -/
def headerAcceptB2 (s : MoldUdp64Strip) (i : MoldUdp64StripIn) : Bool :=
  s.state == .sHeaderB2 && i.sTvalid && headerB2Valid i

/-! ## outputs -/

/-- `s_tready`. -/
def sTready (s : MoldUdp64Strip) (mTready : Bool) : Bool :=
  match s.state with
  | .sPayload => mTready
  | .sFlushShort => false
  | _ => true

/-- `m_tvalid`. -/
def mTvalid (s : MoldUdp64Strip) (i : MoldUdp64StripIn) : Bool :=
  match s.state with
  | .sPayload => i.sTvalid && s.stageHiValid
  | .sFlushShort => true
  | _ => false

/-- The beat `S_PAYLOAD` assembles: the staged half below the low half of the
beat at the input. -/
def payloadBeat (s : MoldUdp64Strip) (b : Beat) : Beat where
  tdata := b.tdata.extractLsb' 0 32 ++ s.stageHi
  tkeep := b.tkeep.extractLsb' 0 4 ++ s.stageHiKeep
  tlast := b.tlast

/-- The beat of `S_FLUSH_SHORT`: the staged half alone. -/
def flushBeat (s : MoldUdp64Strip) : Beat where
  tdata := 0#32 ++ s.stageHi
  tkeep := 0#4 ++ s.stageHiKeep
  tlast := true

/-- `m_tdata`, `m_tkeep` and `m_tlast`, while `m_tvalid` is high. -/
def mBeat (s : MoldUdp64Strip) (i : MoldUdp64StripIn) : Beat :=
  if s.state = .sFlushShort then s.flushBeat else s.payloadBeat i.beat

/-- `seq_valid`. -/
def seqValid (s : MoldUdp64Strip) (i : MoldUdp64StripIn) : Bool :=
  s.headerAcceptB2 i && s.headerInOrderB2 i

/-- `seq_num`. -/
def seqNum (s : MoldUdp64Strip) : BitVec 64 := s.seqNumR

/-- `msg_count`: live while beat 2 is at the input. -/
def msgCount (s : MoldUdp64Strip) (i : MoldUdp64StripIn) : BitVec 16 :=
  if s.state == .sHeaderB2 && i.sTvalid then headerMsgCountB2 i else s.msgCountR

/-! ## the clock edge -/

/-- `S_HEADER_B0`: a beat that is incomplete or the last one is skipped. -/
def stepHeaderB0 (s : MoldUdp64Strip) (i : MoldUdp64StripIn) : MoldUdp64Strip :=
  if i.sTvalid then
    if i.sTlast || !headerB0Valid i then { s with stageHiValid := false, state := .sHeaderB0 }
    else { s with state := .sHeaderB1 }
  else s

/-- `S_HEADER_B1`: the upper bytes of the sequence number. -/
def stepHeaderB1 (s : MoldUdp64Strip) (i : MoldUdp64StripIn) : MoldUdp64Strip :=
  if i.sTvalid then
    if i.sTlast || !headerB1Valid i then { s with stageHiValid := false, state := .sHeaderB0 }
    else
      { s with
        seqNumR := seqNumHi i.sTdata ++ s.seqNumR.extractLsb' 0 16
        state := .sHeaderB2 }
  else s

/-- `S_HEADER_B2`: the rest of the header; an in-order datagram is forwarded. -/
def stepHeaderB2 (s : MoldUdp64Strip) (i : MoldUdp64StripIn) : MoldUdp64Strip :=
  if i.sTvalid then
    if !headerB2Valid i then
      { s with stageHiValid := false, state := if i.sTlast then .sHeaderB0 else .sDrop }
    else if s.headerInOrderB2 i then
      { s with
        seqNumR := s.headerSeqNumB2 i
        msgCountR := headerMsgCountB2 i
        stageHi := i.sTdata.extractLsb' 32 32
        stageHiKeep := i.sTkeep.extractLsb' 4 4
        stageHiValid := true
        state := if i.sTlast then .sFlushShort else .sPayload }
    else
      { s with
        seqNumR := s.headerSeqNumB2 i
        msgCountR := headerMsgCountB2 i
        stageHiValid := false
        state := if i.sTlast then .sHeaderB0 else .sDrop }
  else s

/-- `S_PAYLOAD`: the upper half of the beat is staged; after the last beat it is
left in the staging register. -/
def stepPayload (s : MoldUdp64Strip) (i : MoldUdp64StripIn) : MoldUdp64Strip :=
  if i.sTvalid && s.stageHiValid then
    if i.mTready then
      { s with
        stageHi := i.sTdata.extractLsb' 32 32
        stageHiKeep := i.sTkeep.extractLsb' 4 4
        stageHiValid := !i.sTlast || i.sTkeep.extractLsb' 4 4 != 0#4
        state := if i.sTlast then .sHeaderB0 else .sPayload }
    else s
  else if !s.stageHiValid then { s with state := .sHeaderB0 }
  else s

/-- The registers of the FSM after a clock edge. -/
def next (s : MoldUdp64Strip) (i : MoldUdp64StripIn) : MoldUdp64Strip :=
  match s.state with
  | .sHeaderB0 => s.stepHeaderB0 i
  | .sHeaderB1 => s.stepHeaderB1 i
  | .sHeaderB2 => s.stepHeaderB2 i
  | .sPayload => s.stepPayload i
  | .sDrop => if i.sTvalid && i.sTlast then { s with state := .sHeaderB0 } else s
  | .sFlushShort =>
      if i.mTready then { s with stageHiValid := false, state := .sHeaderB0 } else s

/-- One clock edge. -/
def step (s : MoldUdp64Strip) (i : MoldUdp64StripIn) : MoldUdp64Strip :=
  { s.next i with
    expectedSeqNum :=
      if s.headerAcceptB2 i && s.headerInOrderB2 i then
        s.headerSeqNumB2 i + (headerMsgCountB2 i).setWidth 64
      else s.expectedSeqNum
    droppedDatagrams :=
      if s.headerAcceptB2 i && !s.headerInOrderB2 i && s.droppedDatagrams != 0xFFFFFFFF#32 then
        s.droppedDatagrams + 1
      else s.droppedDatagrams }

/-! ## transfers -/

/-- The beat transferred at the slave port. -/
def got (s : MoldUdp64Strip) (i : MoldUdp64StripIn) : Option Beat :=
  if i.sTvalid && s.sTready i.mTready then some i.beat else none

/-- The beat transferred at the master port. -/
def gave (s : MoldUdp64Strip) (i : MoldUdp64StripIn) : Option Beat :=
  if s.mTvalid i && i.mTready then some (s.mBeat i) else none

/-- The beats taken before cycle `n` of a run. -/
def taken (s : MoldUdp64Strip) (i : Nat → MoldUdp64StripIn) (n : Nat) : List Beat :=
  collect (fun k => (run step s i k).got (i k)) n

/-- The beats sent before cycle `n` of a run. -/
def sent (s : MoldUdp64Strip) (i : Nat → MoldUdp64StripIn) (n : Nat) : List Beat :=
  collect (fun k => (run step s i k).gave (i k)) n

end MoldUdp64Strip

end Lliu
