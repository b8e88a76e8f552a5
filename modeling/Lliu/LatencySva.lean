import Lliu.Hdl.Monitor

/-!
# Lliu.LatencySva

The latency contracts of the UVM bench, `tb/uvm/sva/feature_latency_sva.sv` and the two variants of
`tb/uvm/sva/end_to_end_latency_sva.sv`.  All keep a queue of the cycles in which something began;
an end takes the oldest of them.  They differ in what they check.
-/

namespace Lliu

open Hdl

/-- What a latency monitor can complain of. -/
inductive LatencyFault where
  | unmatched
  | exceeds (latency : BitVec 32)
  | pending (age : BitVec 32)
  deriving DecidableEq, Repr

/-- The signals of a latency monitor. -/
structure LatencySvaIn where
  rst : Bool
  start : Bool
  finish : Bool

/-- The variables of a latency monitor. -/
structure LatencySva where
  cycleCount : BitVec 32
  pendingStarts : List (BitVec 32)
  latencies : List (BitVec 32)

namespace LatencySva

/-- After reset. -/
def reset : LatencySva := ⟨0, [], []⟩

/-- The queue once the start of this cycle is in. -/
def pushed (s : LatencySva) (i : LatencySvaIn) : List (BitVec 32) :=
  if i.start then s.pendingStarts ++ [s.cycleCount] else s.pendingStarts

/-- The queue once the end of this cycle has taken the oldest start. -/
def popped (s : LatencySva) (i : LatencySvaIn) : List (BitVec 32) :=
  if i.finish then (s.pushed i).tail else s.pushed i

/-- The latency of the end of this cycle, if a start is pending. -/
def sample (s : LatencySva) (i : LatencySvaIn) : Option (BitVec 32) :=
  if i.finish then (s.pushed i).head?.map (s.cycleCount - ·) else none

/-- An end without a start. -/
def unmatched (s : LatencySva) (i : LatencySvaIn) : List LatencyFault :=
  if i.finish && (s.pushed i).isEmpty then [.unmatched] else []

/-- One clock edge. -/
def step (s : LatencySva) (i : LatencySvaIn) : LatencySva :=
  if i.rst then reset
  else
    { cycleCount := s.cycleCount + 1
      pendingStarts := s.popped i
      latencies := s.latencies ++ (s.sample i).toList }

/-- Every latency is below the limit, and so is the age of what is pending. -/
def checkAll (limit : BitVec 32) (s : LatencySva) (i : LatencySvaIn) : List LatencyFault :=
  if i.rst then []
  else
    s.unmatched i ++
    ((s.sample i).toList.filter (limit ≤ ·)).map .exceeds ++
    (((s.popped i).head?.map (s.cycleCount - ·)).toList.filter (limit ≤ ·)).map .pending

/-- The first latency is below the limit. -/
def checkFirst (limit : BitVec 32) (s : LatencySva) (i : LatencySvaIn) : List LatencyFault :=
  if i.rst then []
  else
    s.unmatched i ++
    ((s.sample i).toList.filter fun latency => s.latencies.isEmpty && decide (limit ≤ latency)).map .exceeds

end LatencySva

/-- `feature_latency_sva`. -/
def featureLatencySva : Monitor LatencySva LatencySvaIn LatencyFault :=
  ⟨.reset, LatencySva.step, LatencySva.checkAll 5⟩

/-- `end_to_end_latency_sva` for `lliu_top`, with `max_latency_cycles`. -/
def endToEndLatencySva (maxLatencyCycles : BitVec 32) : Monitor LatencySva LatencySvaIn LatencyFault :=
  ⟨.reset, LatencySva.step, LatencySva.checkFirst maxLatencyCycles⟩

/-- `end_to_end_latency_sva` for `kc705_top`. -/
def kc705LatencySva : Monitor LatencySva LatencySvaIn LatencyFault :=
  ⟨.reset, LatencySva.step, LatencySva.checkAll 25⟩

/-! ## one step -/

namespace LatencySva

section Step

variable {s : LatencySva} {i : LatencySvaIn}

theorem step_rst (h : i.rst = true) : s.step i = reset := if_pos h

theorem step_run (h : i.rst = false) : s.step i =
    ⟨s.cycleCount + 1, s.popped i, s.latencies ++ (s.sample i).toList⟩ := by
  rw [step, if_neg (by rw [h]; decide)]

theorem sample_none (h : i.finish = false) : s.sample i = none := by
  rw [sample, if_neg (by rw [h]; decide)]

theorem popped_none (h : i.finish = false) : s.popped i = s.pushed i := by
  rw [popped, if_neg (by rw [h]; decide)]

theorem pushed_length : (s.pushed i).length = s.pendingStarts.length + i.start.toNat := by
  rw [pushed]
  cases i.start <;> simp

/-- The oldest start stays in front of a new one. -/
theorem head_pushed {a : BitVec 32} (h : s.pendingStarts.head? = some a) : (s.pushed i).head? = some a := by
  rw [pushed]
  split
  · rw [List.head?_append, h, Option.some_or]
  · exact h

theorem head_pushed_nil (h : s.pendingStarts = []) (hi : i.start = true) : s.pushed i = [s.cycleCount] := by
  rw [pushed, if_pos hi, h, List.nil_append]

theorem pushed_nil (h : s.pendingStarts = []) (hi : i.start = false) : s.pushed i = [] := by
  rw [pushed, if_neg (by rw [hi]; decide), h]

end Step

end LatencySva

end Lliu
