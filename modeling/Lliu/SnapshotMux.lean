import Mathlib.Logic.Function.Basic
import Lliu.Pkg

/-!
# Lliu.SnapshotMux

`snapshot_mux.sv`: a shadow copy of every symbol's BBO, streamed out as two
beats for each symbol.

The shadow memories have no reset in the source; the model starts from zeroed
memories.
-/

namespace Lliu

/-- The states of the stream. -/
inductive SnapState where
  | sIdle | sPrefetch | sSendBid | sSendAsk
  deriving DecidableEq, Repr

/-- The inputs of `snapshot_mux`. -/
structure SnapshotMuxIn where
  bboValid : Bool
  bboSymId : SymId
  bboBidPrice : BitVec 32
  bboAskPrice : BitVec 32
  bboBidSize : BitVec 24
  bboAskSize : BitVec 24
  snapReq : Bool
  snapReady : Bool

/-- The registers of `snapshot_mux`. -/
structure SnapshotMux where
  bidBram : SymId → BitVec 64
  askBram : SymId → BitVec 64
  bboValidD1 : Bool
  bboSymIdD1 : SymId
  rdAddr : SymId
  rdBidR : BitVec 64
  rdAskR : BitVec 64
  state : SnapState
  snapDone : Bool

namespace SnapshotMux

/-- The registers after reset, with zeroed memories. -/
def reset : SnapshotMux where
  bidBram := fun _ => 0
  askBram := fun _ => 0
  bboValidD1 := false
  bboSymIdD1 := 0
  rdAddr := 0
  rdBidR := 0
  rdAskR := 0
  state := .sIdle
  snapDone := false

/-- A shadow entry: price, padding and size. -/
def entry (price : BitVec 32) (size : BitVec 24) : BitVec 64 := price ++ 0#8 ++ size

/-- `snap_valid`. -/
def snapValid (s : SnapshotMux) : Bool := s.state == .sSendBid || s.state == .sSendAsk

/-- `snap_data`. -/
def snapData (s : SnapshotMux) : BitVec 64 := if s.state = .sSendBid then s.rdBidR else s.rdAskR

/-- The memories and the delay of `bbo_valid`. -/
def advance (s : SnapshotMux) (i : SnapshotMuxIn) : SnapshotMux :=
  { s with
    bidBram :=
      if s.bboValidD1 then
        Function.update s.bidBram s.bboSymIdD1 (entry i.bboBidPrice i.bboBidSize)
      else s.bidBram
    askBram :=
      if s.bboValidD1 then
        Function.update s.askBram s.bboSymIdD1 (entry i.bboAskPrice i.bboAskSize)
      else s.askBram
    bboValidD1 := i.bboValid
    bboSymIdD1 := i.bboSymId
    rdBidR := s.bidBram s.rdAddr
    rdAskR := s.askBram s.rdAddr
    snapDone := false }

/-- One clock edge. -/
def step (s : SnapshotMux) (i : SnapshotMuxIn) : SnapshotMux :=
  let d := s.advance i
  match s.state with
  | .sIdle => if i.snapReq then { d with rdAddr := 0, state := .sPrefetch } else d
  | .sPrefetch => { d with state := .sSendBid }
  | .sSendBid => if i.snapReady then { d with state := .sSendAsk } else d
  | .sSendAsk =>
      if i.snapReady then
        if s.rdAddr = 63 then { d with snapDone := true, state := .sIdle }
        else { d with rdAddr := s.rdAddr + 1, state := .sPrefetch }
      else d

end SnapshotMux

end Lliu
