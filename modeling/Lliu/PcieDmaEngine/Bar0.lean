import Lliu.Hdl.Stream
import Lliu.PcieDmaEngine

/-!
# Lliu.PcieDmaEngine.Bar0

The BAR0 register writes of the host.  By the layout that the RX handler documents,
a write is a TLP of two beats: the header, and a beat with the register's address and
the data that ends the TLP.  `Bar0File` is the register contract.

The handler has a state too many for that layout.  The beat that ends the first TLP
is taken for a header beat, so it waits for data when the TLP is over, and no sequence
of writes is decoded as the contract says.
-/

namespace Lliu

namespace PcieUser

open Hdl

/-! ## the contract -/

/-- The BAR0 registers and the descriptor ring. -/
structure Bar0File where
  ctrl : BitVec 32
  descWrPtr : BitVec 8
  stageHostLo : BitVec 32
  stageHostHi : BitVec 32
  descRing : BitVec 8 → BitVec 96
  descWrPtrR : BitVec 8

/-- A register write; a write of the length arms a descriptor. -/
def Bar0File.write (r : Bar0File) (addr : BitVec 12) (wdata : BitVec 32) : Bar0File :=
  if addr = 0x000#12 then { r with ctrl := wdata }
  else if addr = 0x008#12 then { r with descWrPtr := wdata.setWidth 8 }
  else if addr = 0x00C#12 then { r with stageHostLo := wdata }
  else if addr = 0x010#12 then { r with stageHostHi := wdata }
  else if addr = 0x014#12 then
    { r with
      descRing := Function.update r.descRing r.descWrPtr
        (armed r.stageHostHi r.stageHostLo (wdata.setWidth 24))
      descWrPtrR := r.descWrPtr }
  else r

/-- The BAR0 registers and the ring of the engine. -/
def bar0File (s : PcieUser) : Bar0File where
  ctrl := s.bar0CtrlR
  descWrPtr := s.bar0DescWrPtr
  stageHostLo := s.bar0StageHostLo
  stageHostHi := s.bar0StageHostHi
  descRing := s.descRing
  descWrPtrR := s.descWrPtrR

/-- A beat of the RX stream. -/
structure RxBeat where
  tdata : BitVec 64
  tlast : Bool
  deriving DecidableEq, Repr

/-- A register write of the host, with the first two header words. -/
structure HostWrite where
  header : BitVec 64
  addr : BitVec 32
  wdata : BitVec 32
  deriving DecidableEq, Repr

/-- The two beats of a write. -/
def HostWrite.beats (w : HostWrite) : List RxBeat := [⟨w.header, false⟩, ⟨w.addr ++ w.wdata, true⟩]

/-! ## runs -/

/-- The state in cycle `n` of a run from reset. -/
def rxTrace (i : Nat → PcieUserIn) (n : Nat) : PcieUser := run step reset i n

/-- The beats taken before cycle `n`. -/
def rxTaken (i : Nat → PcieUserIn) : Nat → List RxBeat :=
  collect fun k =>
    if (i k).ip.axRxTvalid then some ⟨(i k).ip.axRxTdata, (i k).ip.axRxTlast⟩ else none

/-- The write of the sequence `ws` whose last beat is taken in cycle `n`. -/
def ended (i : Nat → PcieUserIn) (ws : List HostWrite) (n : Nat) : Option HostWrite :=
  if (i n).ip.axRxTvalid ∧ (rxTaken i n).length % 2 = 1 then ws[(rxTaken i n).length / 2]? else none

/-- The registers as the RX handler leaves them in cycle `n`. -/
def rxFile (i : Nat → PcieUserIn) (n : Nat) : Bar0File :=
  ((rxTrace i n).stepRx (i n).ip ((rxTrace i n).advance (i n))).bar0File

/-- The writes `ws`, transferred before cycle `t`, are decoded: each one writes the
register of its address with its data when its last beat is taken, nothing else is
written, and after each the handler is idle. -/
structure Decoded (i : Nat → PcieUserIn) (ws : List HostWrite) (t : Nat) : Prop where
  write : ∀ n, n < t → rxFile i n = match ended i ws n with
    | some w => (rxTrace i n).bar0File.write (w.addr.setWidth 12) w.wdata
    | none => (rxTrace i n).bar0File
  idle : ∀ n, n ≤ t → (rxTaken i n).length % 2 = 0 → (rxTrace i n).rxState = .rxIdle

/-- The next state of the RX handler. -/
def rxNext : RxState → RxBeat → RxState
  | .rxIdle, b => if b.tlast then .rxIdle else .rxHdr1
  | .rxHdr1, _ => .rxData
  | .rxData, b => if b.tlast then .rxIdle else .rxData

section Run

variable {i : Nat → PcieUserIn} {ws : List HostWrite} {n t : Nat}

/-- The state of the handler is a function of the beats taken. -/
theorem rxState_eq (n : Nat) : (rxTrace i n).rxState = (rxTaken i n).foldl rxNext .rxIdle := by
  induction n with
  | zero => rfl
  | succ n ih =>
      have hstep : (rxTrace i (n + 1)).rxState =
          ((rxTrace i n).stepRx (i n).ip ((rxTrace i n).advance (i n))).rxState := by
        change ((rxTrace i n).stepDma _ _).rxState = _
        rw [stepDma_eq]
        rfl
      rw [hstep, rxTaken, collect_succ, List.foldl_append, ← rxTaken, ← ih]
      unfold stepRx
      cases hv : (i n).ip.axRxTvalid with
      | false => simp [advance]
      | true => cases (rxTrace i n).rxState <;> simp [rxNext]

/-- After the last beat of the first write the handler waits for data. -/
theorem rxState_of_first {w : HostWrite} (h : rxTaken i n = w.beats) :
    (rxTrace i n).rxState = .rxData := by
  rw [rxState_eq, h]
  rfl

/-- **BAR0 writes**: a sequence of writes is decoded as the contract says exactly if
it is empty. -/
theorem decoded_iff (h : rxTaken i t = ws.flatMap HostWrite.beats) :
    Decoded i ws t ↔ ws = [] := by
  constructor
  · intro hdec
    cases ws with
    | nil => rfl
    | cons w ws =>
        have hlen : 2 ≤ (rxTaken i t).length := by
          rw [h]
          simp [HostWrite.beats]
        obtain ⟨n, hn, htake⟩ := exists_collect_eq_take hlen
        have hfirst : rxTaken i n = w.beats := by
          rw [rxTaken, htake, ← rxTaken, h]
          rfl
        have hidle := hdec.idle n hn (by simp [hfirst, HostWrite.beats])
        rw [rxState_of_first hfirst] at hidle
        cases hidle
  · rintro rfl
    have hnone : ∀ n, n ≤ t → rxTaken i n = [] := fun n hn =>
      List.prefix_nil.mp (by rw [← show rxTaken i t = [] from h]; exact collect_isPrefix _ hn)
    constructor
    · intro n hn
      have hquiet : (i n).ip.axRxTvalid = false := by
        have hlast := hnone (n + 1) hn
        rw [rxTaken, collect_succ, List.append_eq_nil_iff] at hlast
        by_contra hv
        simp [Bool.eq_true_of_not_eq_false hv] at hlast
      unfold rxFile ended stepRx
      simp [hquiet]
      rfl
    · intro n hn _
      rw [rxState_eq, hnone n hn]
      rfl

end Run

/-- A write of `0x1234` to `DESC_HOST_LO` and one of `0x5678` to `DESC_HOST_HI`, beat
by beat. -/
def hostWrites : List HostWrite :=
  [⟨0x400000010000000F#64, 0x00C#32, 0x1234#32⟩, ⟨0x400000010000000F#64, 0x010#32, 0x5678#32⟩]

/-- The inputs that bring the beats of writes from cycle 0 on. -/
def hostIn (ws : List HostWrite) (n : Nat) : PcieUserIn where
  ip :=
    { userLnkUp := true
      axTxTready := true
      txBufAv := 63
      cfgBusNumber := 0
      cfgDeviceNumber := 0
      cfgFunctionNumber := 0
      axRxTdata := ((ws.flatMap HostWrite.beats)[n]?.map RxBeat.tdata).getD 0
      axRxTvalid := n < (ws.flatMap HostWrite.beats).length
      axRxTlast := ((ws.flatMap HostWrite.beats)[n]?.map RxBeat.tlast).getD false }
  captDoneToggleSc := false
  stagingMem := fun _ => 0

/-- They are transferred before cycle 4. -/
theorem hostWrites_decoded_iff :
    Decoded (hostIn hostWrites) hostWrites 4 ↔ hostWrites = [] := decoded_iff (by decide)

/-- The writes are not decoded: neither register has its data, and the handler waits for
data after the first write. -/
theorem hostWrites_not_decoded : ¬ Decoded (hostIn hostWrites) hostWrites 4 ∧
    (rxTrace (hostIn hostWrites) 2).rxState = .rxData ∧
    (rxTrace (hostIn hostWrites) 4).bar0StageHostLo = 0 ∧
    (rxTrace (hostIn hostWrites) 4).bar0StageHostHi = 0 := by
  have hstate : (rxTrace (hostIn hostWrites) 2).rxState = .rxData := by decide +kernel
  refine ⟨fun hdec => ?_, hstate, by decide +kernel, by decide +kernel⟩
  have hidle := hdec.idle 2 (by decide) (by decide)
  rw [hstate] at hidle
  cases hidle

end PcieUser

end Lliu
