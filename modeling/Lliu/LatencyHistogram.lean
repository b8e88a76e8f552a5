/-!
# Lliu.LatencyHistogram

`latency_histogram.sv`: counts of the cycles between a start and an end stamp,
one bin for each of `0 .. 31` and one for everything above.
-/

namespace Lliu

/-- The inputs of `latency_histogram`. -/
structure LatencyHistogramIn where
  tStart : BitVec 74
  tStartValid : Bool
  tEnd : BitVec 74
  tEndValid : Bool
  axilClear : Bool

/-- The registers of `latency_histogram`. -/
structure LatencyHistogram where
  histBins : BitVec 5 → BitVec 32
  overflowR : BitVec 32
  tStartR : BitVec 74
  tStartHeld : Bool
  deltaR : BitVec 5
  deltaOvfR : Bool
  deltaValidR : Bool
  selBinR : BitVec 32
  selIdxR : BitVec 5
  selOvfR : Bool
  selValidR : Bool

namespace LatencyHistogram

/-- The registers after reset. -/
def reset : LatencyHistogram where
  histBins := fun _ => 0
  overflowR := 0
  tStartR := 0
  tStartHeld := false
  deltaR := 0
  deltaOvfR := false
  deltaValidR := false
  selBinR := 0
  selIdxR := 0
  selOvfR := false
  selValidR := false

/-- An end stamp meets a held start stamp. -/
def paired (s : LatencyHistogram) (i : LatencyHistogramIn) : Bool := i.tEndValid && s.tStartHeld

/-- `delta`: the low ten bits of the difference. -/
def delta (s : LatencyHistogram) (i : LatencyHistogramIn) : BitVec 10 :=
  i.tEnd.setWidth 10 - s.tStartR.setWidth 10

/-- One clock edge.  An end stamp drops the start stamp held, also one that
arrives with it; an increment wins over a clear. -/
def step (s : LatencyHistogram) (i : LatencyHistogramIn) : LatencyHistogram where
  tStartR := if i.tStartValid then i.tStart else s.tStartR
  tStartHeld := if s.paired i then false else i.tStartValid || s.tStartHeld
  deltaValidR := s.paired i
  deltaOvfR := if s.paired i then (31#10).ult (s.delta i) else s.deltaOvfR
  deltaR := if s.paired i then (s.delta i).setWidth 5 else s.deltaR
  selBinR := s.histBins s.deltaR
  selIdxR := s.deltaR
  selOvfR := s.deltaOvfR
  selValidR := s.deltaValidR
  overflowR :=
    if s.selValidR && s.selOvfR then s.overflowR + 1
    else if i.axilClear then 0
    else s.overflowR
  histBins := fun k =>
    if (s.selValidR && !s.selOvfR) && s.selIdxR == k then s.selBinR + 1
    else if i.axilClear then 0
    else s.histBins k

end LatencyHistogram

end Lliu
