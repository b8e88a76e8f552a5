import Lliu.Axi4LiteSlave

/-!
# Lliu.Axi4LiteSlave.Writes

The write channel over whole runs.  `Controls` says what a write is for: it is a
register file that is written one register at a time and gives commands to the
datapath.

The n-th write processed is of the n-th address and the n-th data word, and what
the registers and pulses have done is what the register file does with these
writes.  There is one response for each write exactly as long as no write is
processed while the response of an earlier one waits.
-/

namespace Lliu

namespace Axi4LiteSlave

open Hdl

/-! ## the register file -/

/-- The commands to the datapath. -/
inductive Command where
  | start
  | softReset
  | weight (addr : BitVec 2) (data : Bfloat16T)
  | cam (index : BitVec 10) (data : BitVec 64) (en : Bool)
  | clear
  deriving DecidableEq, Repr

/-- The registers that a write can set. -/
structure Controls where
  wgtAddr : BitVec 2
  camIndex : BitVec 10
  camDataLo : BitVec 32
  camDataHi : BitVec 32
  camEn : Bool
  binAddr : BitVec 5
  deriving DecidableEq, Repr

/-- A write, by the register map. -/
def Controls.write (r : Controls) (x : BitVec 8 × BitVec 32) : Controls × List Command :=
  let w := x.2
  if x.1 = 0x00#8 then
    (r, (if w.getLsbD 0 then [.start] else []) ++ if w.getLsbD 1 then [.softReset] else [])
  else if x.1 = 0x08#8 then ({ r with wgtAddr := w.setWidth 2 }, [])
  else if x.1 = 0x0C#8 then (r, [.weight r.wgtAddr (w.setWidth 16)])
  else if x.1 = 0x14#8 then
    ({ r with camIndex := r.camIndex.extractLsb' 8 2 ++ w.setWidth 8 }, [])
  else if x.1 = 0x18#8 then ({ r with camDataLo := w }, [])
  else if x.1 = 0x1C#8 then ({ r with camDataHi := w }, [])
  else if x.1 = 0x20#8 then
    ({ r with camEn := w.getLsbD 1 },
      if w.getLsbD 0 then [.cam r.camIndex (r.camDataHi ++ r.camDataLo) (w.getLsbD 1)] else [])
  else if x.1 = 0x38#8 then
    ({ r with camIndex := w.setWidth 2 ++ r.camIndex.setWidth 8 }, [])
  else if x.1 = 0x3C#8 then ({ r with binAddr := w.setWidth 5 }, [])
  else if x.1 = 0x44#8 then (r, [.clear])
  else (r, [])

/-- The register file of the module. -/
def controls (s : Axi4LiteSlave) : Controls where
  wgtAddr := s.wgtAddrReg
  camIndex := s.camIndexReg
  camDataLo := s.camDataLoReg
  camDataHi := s.camDataHiReg
  camEn := s.camEnBitReg
  binAddr := s.binAddrReg

/-- The commands given in a cycle. -/
def commands (s : Axi4LiteSlave) : List Command :=
  (if s.ctrlStart then [.start] else []) ++ (if s.ctrlSoftReset then [.softReset] else []) ++
    (if s.wgtWrEn then [.weight s.wgtAddrReg s.wgtWrData] else []) ++
    (if s.camWrValid then [.cam s.camIndexReg s.camWrData s.camEnBitReg] else []) ++
    if s.axilClear then [.clear] else []

/-! ## one clock edge -/

section Step

variable {s : Axi4LiteSlave} {i : Axi4LiteSlaveIn}

theorem awCaptured_step : (s.step i).awCaptured = ((s.awCaptured || s.awBeat i) && !s.process i) := by
  unfold step stepRead stepWrite
  cases s.process i <;> simp [writeReg]

theorem wCaptured_step : (s.step i).wCaptured = ((s.wCaptured || s.wBeat i) && !s.process i) := by
  unfold step stepRead stepWrite
  cases s.process i <;> simp [writeReg]

theorem wrAddrLatched_step :
    (s.step i).wrAddrLatched = if s.awBeat i then i.sAxilAwaddr else s.wrAddrLatched := by
  unfold step stepRead stepWrite
  cases s.process i <;> simp [writeReg]

theorem wrDataLatched_step :
    (s.step i).wrDataLatched = if s.wBeat i then i.sAxilWdata else s.wrDataLatched := by
  unfold step stepRead stepWrite
  cases s.process i <;> simp [writeReg]

theorem sAxilBvalid_step :
    (s.step i).sAxilBvalid = (s.process i || (s.sAxilBvalid && !i.sAxilBready)) := by
  unfold step stepRead stepWrite
  cases s.process i <;> simp [writeReg]

/-- The data processed is the data latched. -/
theorem wrDataLatched_of_process (h : s.process i = true) :
    (s.step i).wrDataLatched = s.wrData i := by
  rw [wrDataLatched_step, wrData]
  unfold process wBeat at h
  unfold wBeat
  cases hc : s.wCaptured <;> simp_all

theorem controls_idle (h : s.process i = false) :
    (s.step i).controls = s.controls ∧ (s.step i).commands = [] := by
  unfold step stepRead stepWrite
  simp [h, controls, commands]

/-- The addresses that a write can have an effect at. -/
def writeMap : List (BitVec 8) :=
  [0x00#8, 0x08#8, 0x0C#8, 0x14#8, 0x18#8, 0x1C#8, 0x20#8, 0x38#8, 0x3C#8, 0x44#8]

/-- A write does to the registers what it does to the register file. -/
theorem controls_writeReg (a : BitVec 8) (w : BitVec 32) (d : Axi4LiteSlave) :
    (writeReg a w d).controls = (d.controls.write (a, w)).1 := by
  by_cases h : a ∈ writeMap
  · simp only [writeMap, List.mem_cons, List.not_mem_nil, or_false] at h
    obtain rfl | rfl | rfl | rfl | rfl | rfl | rfl | rfl | rfl | rfl := h <;> rfl
  · simp only [writeMap, List.mem_cons, List.not_mem_nil, or_false, not_or] at h
    simp only [writeReg, controls, Controls.write, h, if_false]

/-- It gives its commands. -/
theorem commands_writeReg (a : BitVec 8) (w : BitVec 32) {d : Axi4LiteSlave}
    (hd : d.wrDataLatched = w) : (writeReg a w d).commands = (d.controls.write (a, w)).2 := by
  subst hd
  by_cases h : a ∈ writeMap
  · simp only [writeMap, List.mem_cons, List.not_mem_nil, or_false] at h
    obtain rfl | rfl | rfl | rfl | rfl | rfl | rfl | rfl | rfl | rfl := h <;>
      simp [writeReg, controls, commands, Controls.write, wgtWrData, camWrData,
        -BitVec.getLsbD_eq_getElem]
  · simp only [writeMap, List.mem_cons, List.not_mem_nil, or_false, not_or] at h
    simp [writeReg, commands, Controls.write, h]

theorem controls_process (h : s.process i = true) :
    (s.step i).controls = (s.controls.write (s.wrAddr i, s.wrData i)).1 ∧
    (s.step i).commands = (s.controls.write (s.wrAddr i, s.wrData i)).2 := by
  have hdata := wrDataLatched_of_process h
  unfold step stepRead stepWrite at hdata ⊢
  simp only [h, if_true] at hdata ⊢
  exact ⟨controls_writeReg _ _ _, commands_writeReg _ _ hdata⟩

end Step

/-! ## runs -/

/-- The state in cycle `n` of a run from reset. -/
def trace (i : Nat → Axi4LiteSlaveIn) (n : Nat) : Axi4LiteSlave := run step reset i n

/-- The addresses accepted before cycle `n`. -/
def addresses (i : Nat → Axi4LiteSlaveIn) : Nat → List (BitVec 8) :=
  collect fun k => if (trace i k).awBeat (i k) then some (i k).sAxilAwaddr else none

/-- The data words accepted before cycle `n`. -/
def words (i : Nat → Axi4LiteSlaveIn) : Nat → List (BitVec 32) :=
  collect fun k => if (trace i k).wBeat (i k) then some (i k).sAxilWdata else none

/-- The write processed in a cycle. -/
def processed (i : Nat → Axi4LiteSlaveIn) (k : Nat) : Option (BitVec 8 × BitVec 32) :=
  if (trace i k).process (i k) then some ((trace i k).wrAddr (i k), (trace i k).wrData (i k)) else none

/-- The writes processed before cycle `n`. -/
def writes (i : Nat → Axi4LiteSlaveIn) : Nat → List (BitVec 8 × BitVec 32) := collect (processed i)

/-- The number of responses transferred before cycle `n`. -/
def responses (i : Nat → Axi4LiteSlaveIn) : Nat → Nat := count fun k => (trace i k).bBeat (i k)

/-- A write is processed while the response of an earlier one waits. -/
def overlaps (i : Nat → Axi4LiteSlaveIn) (k : Nat) : Bool :=
  (trace i k).process (i k) && (trace i k).sAxilBvalid && !(i k).sAxilBready

/-- Nothing is left of the writes accepted. -/
structure Drained (s : Axi4LiteSlave) : Prop where
  aw : s.awCaptured = false
  w : s.wCaptured = false
  b : s.sAxilBvalid = false

section Run

variable {i : Nat → Axi4LiteSlaveIn} {n : Nat}

/-- An address and a data word leave the channel together. -/
theorem join_processed : Join
    (fun k => if (trace i k).awBeat (i k) then some (i k).sAxilAwaddr else none)
    (fun k => if (trace i k).wBeat (i k) then some (i k).sAxilWdata else none)
    (processed i)
    (fun k => if (trace i k).awCaptured then some (trace i k).wrAddrLatched else none)
    (fun k => if (trace i k).wCaptured then some (trace i k).wrDataLatched else none) where
  left :=
    { empty := rfl
      step := fun k => by
        change _ = _ ++ (if ((trace i k).step (i k)).awCaptured then
          some ((trace i k).step (i k)).wrAddrLatched else none).toList
        rw [awCaptured_step, wrAddrLatched_step, processed, wrAddr, process]
        cases ha : (trace i k).awCaptured <;> cases hv : (i k).sAxilAwvalid <;>
          cases hw : (trace i k).wCaptured || (trace i k).wBeat (i k) <;> simp [awBeat, ha, hv] }
  right :=
    { empty := rfl
      step := fun k => by
        change _ = _ ++ (if ((trace i k).step (i k)).wCaptured then
          some ((trace i k).step (i k)).wrDataLatched else none).toList
        rw [wCaptured_step, wrDataLatched_step, processed, wrData, process]
        cases hw : (trace i k).wCaptured <;> cases hv : (i k).sAxilWvalid <;>
          cases ha : (trace i k).awCaptured || (trace i k).awBeat (i k) <;> simp [wBeat, hw, hv] }

/-- The response flag: a write raises it and a transfer lowers it. -/
theorem flag_responses : Flag (fun k => (trace i k).process (i k))
    (fun k => (trace i k).bBeat (i k)) (overlaps i) (fun k => (trace i k).sAxilBvalid) where
  empty := rfl
  step k := by
    change _ = _ + _ + ((trace i k).step (i k)).sAxilBvalid.toNat
    rw [sAxilBvalid_step, overlaps, bBeat]
    cases (trace i k).process (i k) <;> cases (trace i k).sAxilBvalid <;>
      cases (i k).sAxilBready <;> rfl

/-- Each write processed is carried out. -/
theorem executes_processed : Executes Controls.write (processed i)
    (fun k => (trace i k).controls) (fun k => (trace i k).commands) where
  start := rfl
  idle k h := by
    rw [processed] at h
    cases hp : (trace i k).process (i k) with
    | false => exact controls_idle hp
    | true => simp [hp] at h
  took k x h := by
    rw [processed] at h
    cases hp : (trace i k).process (i k) with
    | false => simp [hp] at h
    | true =>
        rw [hp, if_pos rfl, Option.some.injEq] at h
        exact h ▸ controls_process hp

theorem length_writes (n : Nat) :
    (writes i n).length = count (fun k => (trace i k).process (i k)) n := by
  rw [writes, length_collect]
  congr 1
  funext k
  rw [processed]
  cases (trace i k).process (i k) <;> rfl

/-- **Writes**: every accepted write is carried out once, in order and with its own
address and data, and once the channel is drained there has been one response for
each exactly if no write was processed while an earlier response waited. -/
theorem responses_eq_iff (h : (trace i n).Drained) :
    (responses i n = (writes i n).length ↔ ∀ k, k < n → overlaps i k = false) ∧
    addresses i n = (writes i n).map Prod.fst ∧ words i n = (writes i n).map Prod.snd ∧
    (trace i n).controls = (feed Controls.write reset.controls (writes i n)).1 ∧
    (List.range (n + 1)).flatMap (fun k => (trace i k).commands) =
      (feed Controls.write reset.controls (writes i n)).2 := by
  obtain ⟨haddr, hword⟩ := (join_processed (i := i)).collect_eq n
  obtain ⟨hctrl, hcmd⟩ := (executes_processed (i := i)).feed_eq n
  refine ⟨?_, ?_, ?_, hctrl, hcmd⟩
  · have hflag := (flag_responses (i := i)).count_eq_iff n
    rw [h.b, Bool.toNat_false, Nat.add_zero] at hflag
    rw [length_writes]
    exact hflag
  · rw [h.aw] at haddr
    exact haddr.trans (List.append_nil _)
  · rw [h.w] at hword
    exact hword.trans (List.append_nil _)

end Run

/-- Two writes to `WGT_ADDR` in the cycles 0 and 1, and responses taken from cycle
`t` on. -/
def twoWrites (t n : Nat) : Axi4LiteSlaveIn where
  sAxilAwaddr := 0x08#8
  sAxilAwvalid := n < 2
  sAxilWdata := BitVec.ofNat 32 n
  sAxilWvalid := n < 2
  sAxilBready := t ≤ n
  sAxilAraddr := 0
  sAxilArvalid := false
  sAxilRready := true
  statusResultReady := false
  statusBusy := false
  resultData := 0
  droppedFrames := 0
  droppedDatagrams := 0
  expectedSeqNum := 0
  gtxLock := true
  axilBinData := 0
  overflowBin := 0
  collisionCount := 0

/-- With responses taken at once there are two. -/
theorem twoWrites_responses : responses (twoWrites 0) 4 = (writes (twoWrites 0) 4).length := by
  have hdrained : (trace (twoWrites 0) 4).Drained := ⟨by decide, by decide, by decide⟩
  exact (responses_eq_iff hdrained).1.mpr (by decide)

/-- With responses taken from cycle 3 on the two writes share one. -/
theorem twoWrites_shared : (trace (twoWrites 3) 4).Drained ∧
    (addresses (twoWrites 3) 4).length = 2 ∧ (words (twoWrites 3) 4).length = 2 ∧
    responses (twoWrites 3) 4 = 1 := by
  refine ⟨⟨?_, ?_, ?_⟩, ?_, ?_, ?_⟩ <;> decide

end Axi4LiteSlave

end Lliu
