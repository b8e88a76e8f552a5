/-!
# Lliu.PtpCore

`ptp_core.sv` and `timestamp_tap.sv`: a free-running counter whose value is
published as the epoch every 1024 cycles, and the taps that stamp an event with
the epoch and their own count of cycles since.
-/

namespace Lliu

/-- The registers of `ptp_core`. -/
structure PtpCore where
  ptpCounterR : BitVec 64
  ptpEpochR : BitVec 64
  syncCnt : BitVec 10
  ptpSyncPulse : Bool
  deriving DecidableEq, Repr

namespace PtpCore

/-- The registers after reset. -/
def reset : PtpCore where
  ptpCounterR := 0
  ptpEpochR := 0
  syncCnt := 0
  ptpSyncPulse := false

/-- One clock edge. -/
def step (s : PtpCore) : PtpCore where
  ptpCounterR := s.ptpCounterR + 1
  ptpSyncPulse := s.syncCnt == 1022
  ptpEpochR := if s.syncCnt = 1023 then s.ptpCounterR else s.ptpEpochR
  syncCnt := if s.syncCnt = 1023 then 0 else s.syncCnt + 1

end PtpCore

/-- The registers of `timestamp_tap`. -/
structure TimestampTap where
  localSubCnt : BitVec 10
  epochLatch : BitVec 64
  timestampOut : BitVec 74
  timestampValid : Bool
  deriving DecidableEq, Repr

namespace TimestampTap

/-- The registers after reset. -/
def reset : TimestampTap where
  localSubCnt := 0
  epochLatch := 0
  timestampOut := 0
  timestampValid := false

/-- One clock edge. -/
def step (s : TimestampTap) (ptp : PtpCore) (tapEvent : Bool) : TimestampTap where
  localSubCnt := if ptp.ptpSyncPulse then 0 else s.localSubCnt + 1
  epochLatch := if ptp.ptpSyncPulse then ptp.ptpEpochR else s.epochLatch
  timestampOut := if tapEvent then s.epochLatch ++ s.localSubCnt else s.timestampOut
  timestampValid := tapEvent

end TimestampTap

end Lliu
