import Lliu.Axi4LiteSlave.Writes

/-!
# Lliu.Axi4LiteSlave.Reads

The read channel over whole runs.  Every address accepted has one response, in order, and
its data is sampled in the cycle after the address was accepted (`replies_eq`); at most one
response is outstanding.
-/

namespace Lliu

namespace Axi4LiteSlave

open Hdl

/-- A response is transferred. -/
def rBeat (s : Axi4LiteSlave) (i : Axi4LiteSlaveIn) : Bool := s.sAxilRvalid && i.sAxilRready

/-- The register map of the read channel. -/
def readMap (addr : BitVec 8) (i : Axi4LiteSlaveIn) : BitVec 32 :=
  readData { reset with rdAddrLatched := addr } i

/-! ## one clock edge -/

section Step

variable {s : Axi4LiteSlave} {i : Axi4LiteSlaveIn}

theorem readData_eq : s.readData i = readMap s.rdAddrLatched i := rfl

theorem arCaptured_step : (s.step i).arCaptured = if s.arCaptured then false else s.arBeat i := rfl

theorem rdAddrLatched_step :
    (s.step i).rdAddrLatched = if s.arBeat i then i.sAxilAraddr else s.rdAddrLatched := by
  unfold step stepRead stepWrite
  cases s.process i <;> rfl

theorem sAxilRvalid_step :
    (s.step i).sAxilRvalid = (s.arCaptured || (s.sAxilRvalid && !i.sAxilRready)) := rfl

theorem sAxilRdata_step :
    (s.step i).sAxilRdata = if s.arCaptured then s.readData i else s.sAxilRdata := by
  unfold step stepRead stepWrite
  cases s.process i <;> rfl

end Step

/-! ## runs -/

/-- The read accepted in a cycle, with the cycle. -/
def readAt (i : Nat → Axi4LiteSlaveIn) (k : Nat) : Option (Nat × BitVec 8) :=
  if (trace i k).arBeat (i k) then some (k, (i k).sAxilAraddr) else none

/-- The reads accepted before cycle `n`. -/
def reads (i : Nat → Axi4LiteSlaveIn) : Nat → List (Nat × BitVec 8) := collect (readAt i)

/-- The data of the responses transferred before cycle `n`. -/
def replies (i : Nat → Axi4LiteSlaveIn) : Nat → List (BitVec 32) :=
  collect fun k => if (trace i k).rBeat (i k) then some (trace i k).sAxilRdata else none

/-- The data of a read is that of the cycle after. -/
def answer (i : Nat → Axi4LiteSlaveIn) (r : Nat × BitVec 8) : BitVec 32 := readMap r.2 (i (r.1 + 1))

/-- The answer that is still to be transferred. -/
def waiting (i : Nat → Axi4LiteSlaveIn) (n : Nat) : Option (BitVec 32) :=
  if (trace i n).arCaptured then some ((trace i n).readData (i n))
  else if (trace i n).sAxilRvalid then some (trace i n).sAxilRdata
  else none

section Run

variable {i : Nat → Axi4LiteSlaveIn}

/-- While an address is held there is no response. -/
theorem not_rvalid_of_arCaptured (n : Nat) (h : (trace i n).arCaptured = true) :
    (trace i n).sAxilRvalid = false := by
  cases n with
  | zero => rfl
  | succ n =>
      change ((trace i n).step (i n)).arCaptured = true at h
      change ((trace i n).step (i n)).sAxilRvalid = false
      rw [arCaptured_step] at h
      rw [sAxilRvalid_step]
      cases hc : (trace i n).arCaptured with
      | true => simp [hc] at h
      | false =>
          rw [hc, if_neg Bool.false_ne_true, arBeat, Bool.and_eq_true, Bool.not_eq_true'] at h
          rw [h.2]
          rfl

/-- A read goes in as its answer. -/
theorem slot_waiting : Slot (fun k => (readAt i k).map (answer i))
    (fun k => if (trace i k).rBeat (i k) then some (trace i k).sAxilRdata else none)
    (waiting i) where
  empty := rfl
  step n := by
    have hcapt := arCaptured_step (s := trace i n) (i := i n)
    have haddr := rdAddrLatched_step (s := trace i n) (i := i n)
    have hvalid := sAxilRvalid_step (s := trace i n) (i := i n)
    have hdata := sAxilRdata_step (s := trace i n) (i := i n)
    have hnext : waiting i (n + 1) =
        if ((trace i n).step (i n)).arCaptured then
          some (readMap ((trace i n).step (i n)).rdAddrLatched (i (n + 1)))
        else if ((trace i n).step (i n)).sAxilRvalid then some ((trace i n).step (i n)).sAxilRdata
        else none := rfl
    rw [hnext, hcapt, haddr, hvalid, hdata, waiting, readAt, arBeat, rBeat]
    cases hc : (trace i n).arCaptured with
    | true =>
        -- the data is sampled
        have hnone := not_rvalid_of_arCaptured n hc
        simp [hnone]
    | false =>
        cases hr : (trace i n).sAxilRvalid with
        | true => cases (i n).sAxilRready <;> simp
        | false => cases (i n).sAxilArvalid <;> simp [answer]

/-- **Reads**: the responses are the answers of the reads accepted, in order, and at most the last
one is still to be transferred. -/
theorem replies_eq (n : Nat) :
    (reads i n).map (answer i) = replies i n ++ (waiting i n).toList := by
  rw [reads, map_collect]
  exact slot_waiting.collect_eq n

end Run

end Axi4LiteSlave

end Lliu
