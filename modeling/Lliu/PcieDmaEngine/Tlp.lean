import Lliu.PcieDmaEngine

/-!
# Lliu.PcieDmaEngine.Tlp

The beats that the state machine puts on the bus in `DMA_TLP`.  In every cycle in which
the IP is ready and has a buffer, the next of 1126 beats is put: 62 TLPs of 18 beats and
one of ten.  `InTlp` says which beat is next, and `InTlp.step_go` what is put then.
-/

namespace Lliu

namespace PcieUser

/-! ## the beats -/

/-- `req_id`. -/
def reqId (i : PcieIpIn) : BitVec 16 := i.cfgBusNumber ++ i.cfgDeviceNumber ++ i.cfgFunctionNumber

/-- The data beats of TLP `k`. -/
def dataBeats (k : Nat) : Nat := if k = 62 then 8 else 16

theorem dataBeats_bounds (k : Nat) : 8 ≤ dataBeats k ∧ dataBeats k ≤ 16 := by
  unfold dataBeats
  split <;> omega

/-- Beat `p` is the last one of its TLP. -/
def lastData (p : Nat) : Bool := p % 18 = 17 || p = 1125

/-- Beat `p` is a data beat. -/
def isData (p : Nat) : Bool := 2 ≤ p % 18

/-- The word of beat `p`, with the data that have been read. -/
def beatWord (host : BitVec 64) (id : BitVec 16) (p : Nat) (d : BitVec 64) : BitVec 64 :=
  if p % 18 = 0 then headerBeat (BitVec.ofNat 10 (2 * dataBeats (p / 18))) id
  else if p % 18 = 1 then addressBeat (host + BitVec.ofNat 64 (128 * (p / 18)))
  else d

section BeatWord

variable {host : BitVec 64} {id : BitVec 16} {p : Nat} {d : BitVec 64}

theorem beatWord_header (h : p % 18 = 0) :
    beatWord host id p d = headerBeat (BitVec.ofNat 10 (2 * dataBeats (p / 18))) id := by
  simp [beatWord, h]

theorem beatWord_address (h : p % 18 = 1) :
    beatWord host id p d = addressBeat (host + BitVec.ofNat 64 (128 * (p / 18))) := by
  simp [beatWord, h]

theorem beatWord_data (h : 2 ≤ p % 18) : beatWord host id p d = d := by
  unfold beatWord
  rw [if_neg (by omega), if_neg (by omega)]

theorem lastData_iff : lastData p = true ↔ p % 18 = 17 ∨ p = 1125 := by simp [lastData]

theorem lastData_of_ne (h : p % 18 ≠ 17) (hend : p ≠ 1125) : lastData p = false := by
  simp [lastData, h, hend]

end BeatWord

/-- The read pointer before beat `p`. -/
def fetchPtr (p : Nat) : Nat :=
  if 2 ≤ p % 18 then 16 * (p / 18) + (p % 18 - 2) else 16 * (p / 18) - 1

/-- Beat `p` of a transfer to `host` is next. -/
structure InTlp (s : PcieUser) (host : BitVec 64) (p : Nat) : Prop where
  state : s.dmaState = .dmaTlp
  host : s.dmaHostAddr = host
  num : s.tlpNum = BitVec.ofNat 7 (p / 18)
  cnt : s.tlpBeatCnt = BitVec.ofNat 10 (p % 18)
  base : s.stgRdPtrR = BitVec.ofNat 10 (16 * (p / 18))
  ptr : s.stgRdPtr = BitVec.ofNat 10 (fetchPtr p)

/-- Beat `p` is on the bus. -/
structure Puts (s : PcieUser) (host : BitVec 64) (id : BitVec 16) (p : Nat) (d : BitVec 64) :
    Prop where
  tvalid : s.axTxTvalid = true
  tdata : s.axTxTdata = beatWord host id p d
  tkeep : s.axTxTkeep = 0xFF
  tlast : s.axTxTlast = lastData p

section Step

variable {s d : PcieUser} {i : PcieIpIn} {host : BitVec 64} {p : Nat}

theorem InTlp.isLastTlp (h : InTlp s host p) (hp : p ≤ 1125) : s.isLastTlp = decide (p / 18 = 62) := by
  have hnum : (BitVec.ofNat 7 (p / 18) = BitVec.ofNat 7 62) ↔ p / 18 = 62 :=
    ofNat_inj_of_lt (by omega) (by omega)
  rw [PcieUser.isLastTlp, h.num, beq_eq_decide]
  exact decide_eq_decide.mpr hnum

theorem InTlp.tlpLengthDw (h : InTlp s host p) (hp : p ≤ 1125) :
    s.tlpLengthDw = BitVec.ofNat 10 (2 * dataBeats (p / 18)) := by
  simp only [PcieUser.tlpLengthDw, h.isLastTlp hp, dataBeats, decide_eq_true_eq]
  split <;> rfl

theorem InTlp.curTlpDataBeats (h : InTlp s host p) (hp : p ≤ 1125) :
    s.curTlpDataBeats = BitVec.ofNat 10 (dataBeats (p / 18)) := by
  simp only [PcieUser.curTlpDataBeats, h.isLastTlp hp, dataBeats, decide_eq_true_eq]
  split <;> rfl

theorem InTlp.tlpHostAddr (h : InTlp s host p) (hp : p ≤ 1125) :
    s.tlpHostAddr = host + BitVec.ofNat 64 (128 * (p / 18)) := by
  rw [PcieUser.tlpHostAddr, h.host, h.num]
  congr 1
  apply BitVec.eq_of_toNat_eq
  simp only [BitVec.toNat_mul, BitVec.toNat_setWidth, BitVec.toNat_ofNat, tlpPayloadB, tlpPayloadDw]
  omega

theorem InTlp.header_iff (h : InTlp s host p) : s.tlpBeatCnt = 0 ↔ p % 18 = 0 := by
  rw [h.cnt]
  exact ofNat_inj_of_lt (by omega) (by decide)

theorem InTlp.address_iff (h : InTlp s host p) : s.tlpBeatCnt = 1 ↔ p % 18 = 1 := by
  rw [h.cnt]
  exact ofNat_inj_of_lt (by omega) (by decide)

theorem InTlp.dataIdx (h : InTlp s host p) (h2 : 2 ≤ p % 18) :
    s.dataIdx = BitVec.ofNat 10 (p % 18 - 2) := by
  rw [PcieUser.dataIdx, h.cnt]
  exact BitVec.ofNat_sub_ofNat_of_le _ _ (by decide) h2

theorem InTlp.last_iff (h : InTlp s host p) (hp : p ≤ 1125) (h2 : 2 ≤ p % 18) :
    s.dataIdx = s.curTlpDataBeats - 1 ↔ lastData p = true := by
  have hbounds := dataBeats_bounds (p / 18)
  have hle : 1 ≤ dataBeats (p / 18) := by omega
  have hsub : BitVec.ofNat 10 (dataBeats (p / 18)) - 1 = BitVec.ofNat 10 (dataBeats (p / 18) - 1) :=
    BitVec.ofNat_sub_ofNat_of_le _ _ (by decide) hle
  rw [h.dataIdx h2, h.curTlpDataBeats hp, hsub, ofNat_inj_of_lt (by omega) (by omega)]
  simp only [dataBeats, lastData, Bool.or_eq_true, decide_eq_true_eq]
  split <;> omega

theorem InTlp.next_iff (h : InTlp s host p) (hp : p ≤ 1125) (h2 : 2 ≤ p % 18) :
    s.dataIdx + 1 < s.curTlpDataBeats ↔ lastData p = false := by
  have hadd : BitVec.ofNat 10 (p % 18 - 2) + 1 = BitVec.ofNat 10 (p % 18 - 2 + 1) :=
    BitVec.ofNat_add_ofNat _ 1
  rw [h.dataIdx h2, h.curTlpDataBeats hp, hadd, BitVec.ofNat_lt_ofNat]
  simp only [dataBeats, lastData, Bool.or_eq_false_iff, decide_eq_false_iff_not]
  split <;> omega

/-! ### the header beats -/

theorem headerBeat_length (l : BitVec 10) (id : BitVec 16) :
    (headerBeat l id).extractLsb' 32 10 = l := by
  change BitVec.extractLsb' 32 10
    (0b011#3 ++ 0#5 ++ 0#14 ++ l ++ id ++ 0#8 ++ 0xF#4 ++ 0xF#4) = l
  simp (disch := decide) only [BitVec.extractLsb'_append_eq_of_le, Nat.reduceSub]
  exact BitVec.extractLsb'_append_eq_right

theorem headerBeat_kind (l : BitVec 10) (id : BitVec 16) :
    (headerBeat l id).extractLsb' 56 8 = 0x60#8 := by
  change BitVec.extractLsb' 56 8
    (0b011#3 ++ 0#5 ++ 0#14 ++ l ++ id ++ 0#8 ++ 0xF#4 ++ 0xF#4) = 0x60#8
  simp (disch := decide) only [BitVec.extractLsb'_append_eq_of_le, Nat.reduceSub]
  decide

theorem headerBeat_enables (l : BitVec 10) (id : BitVec 16) :
    (headerBeat l id).extractLsb' 0 8 = 0xFF#8 := by
  change BitVec.extractLsb' 0 8
    (0b011#3 ++ 0#5 ++ 0#14 ++ l ++ id ++ 0#8 ++ 0xF#4 ++ 0xF#4) = 0xFF#8
  rw [BitVec.append_assoc, BitVec.extractLsb'_cast]
  exact BitVec.extractLsb'_append_eq_right

theorem addressBeat_low (a : BitVec 64) : (addressBeat a).extractLsb' 0 2 = 0#2 :=
  BitVec.extractLsb'_append_eq_right

/-- The address of a double word goes out as it is; others are rounded down. -/
theorem toNat_addressBeat (a : BitVec 64) : (addressBeat a).toNat = a.toNat / 4 * 4 := by
  simp only [addressBeat, BitVec.toNat_append, BitVec.extractLsb'_toNat, BitVec.toNat_ofNat,
    Nat.shiftRight_eq_div_pow, Nat.shiftLeft_eq]
  have hlt := a.isLt
  rw [Nat.mod_eq_of_lt (by omega), Nat.zero_mod, Nat.or_zero]

/-! ### one beat -/

/-- A header beat. -/
theorem InTlp.putHeader (h : InTlp s host p) (hd : InTlp d host p) (hlast : d.axTxTlast = false)
    (hp : p ≤ 1125) (hgo : go i = true) (hr : p % 18 = 0) :
    Puts (s.stepTlp i d) host (reqId i) p s.stgRdData ∧ InTlp (s.stepTlp i d) host (p + 1) := by
  have hstep : s.stepTlp i d = { d with
      axTxTvalid := true, axTxTdata := headerBeat s.tlpLengthDw (reqId i), axTxTkeep := 0xFF,
      tlpBeatCnt := s.tlpBeatCnt + 1 } := by
    rw [stepTlp, if_pos hgo, if_pos (h.header_iff.mpr hr)]
    rfl
  have hcnt : s.tlpBeatCnt + 1 = BitVec.ofNat 10 ((p + 1) % 18) := by
    rw [h.cnt, hr, show (p + 1) % 18 = 1 by omega]
    rfl
  have hdiv : (p + 1) / 18 = p / 18 := by omega
  have hptr : fetchPtr (p + 1) = fetchPtr p := by
    unfold fetchPtr
    rw [if_neg (by omega), if_neg (by omega), hdiv]
  rw [hstep]
  refine ⟨⟨rfl, ?_, rfl, ?_⟩, hd.state, hd.host, ?_, hcnt, ?_, ?_⟩
  · rw [beatWord_header hr, h.tlpLengthDw hp]
  · rw [lastData_of_ne (by omega) (by omega)]
    exact hlast
  · simpa only [hdiv] using hd.num
  · simpa only [hdiv] using hd.base
  · simpa only [hptr] using hd.ptr

/-- An address beat. -/
theorem InTlp.putAddress (h : InTlp s host p) (hd : InTlp d host p) (hlast : d.axTxTlast = false)
    (hp : p ≤ 1125) (hgo : go i = true) (hr : p % 18 = 1) :
    Puts (s.stepTlp i d) host (reqId i) p s.stgRdData ∧ InTlp (s.stepTlp i d) host (p + 1) := by
  have hstep : s.stepTlp i d = { d with
      axTxTvalid := true, axTxTdata := addressBeat s.tlpHostAddr, axTxTkeep := 0xFF,
      stgRdPtr := s.stgRdPtrR, tlpBeatCnt := s.tlpBeatCnt + 1 } := by
    have hne : s.tlpBeatCnt ≠ 0 := fun h0 => absurd (h.header_iff.mp h0) (by omega)
    rw [stepTlp, if_pos hgo, if_neg hne, if_pos (h.address_iff.mpr hr)]
  have hcnt : s.tlpBeatCnt + 1 = BitVec.ofNat 10 ((p + 1) % 18) := by
    rw [h.cnt, hr, show (p + 1) % 18 = 2 by omega]
    rfl
  have hdiv : (p + 1) / 18 = p / 18 := by omega
  have hptr : fetchPtr (p + 1) = 16 * (p / 18) := by
    unfold fetchPtr
    rw [if_pos (by omega), hdiv]
    omega
  rw [hstep]
  refine ⟨⟨rfl, ?_, rfl, ?_⟩, hd.state, hd.host, ?_, hcnt, ?_, ?_⟩
  · rw [beatWord_address hr, h.tlpHostAddr hp]
  · rw [lastData_of_ne (by omega) (by omega)]
    exact hlast
  · simpa only [hdiv] using hd.num
  · simpa only [hdiv] using hd.base
  · simpa only [hptr] using h.base

/-- A data beat that is not the last one of its TLP. -/
theorem InTlp.putNext (h : InTlp s host p) (hd : InTlp d host p) (hlast : d.axTxTlast = false)
    (hp : p ≤ 1125) (h2 : 2 ≤ p % 18) (hr : lastData p = false) :
    Puts (s.putData d) host (reqId i) p s.stgRdData ∧ InTlp (s.putData d) host (p + 1) := by
  have hne : s.dataIdx ≠ s.curTlpDataBeats - 1 := fun heq => by
    rw [(h.last_iff hp h2).mp heq] at hr
    cases hr
  have hr' : p % 18 ≠ 17 ∧ p ≠ 1125 := by simpa [lastData] using hr
  have hcnt : s.tlpBeatCnt + 1 = BitVec.ofNat 10 ((p + 1) % 18) := by
    rw [h.cnt, show (p + 1) % 18 = p % 18 + 1 by omega]
    exact BitVec.ofNat_add_ofNat _ 1
  have hdiv : (p + 1) / 18 = p / 18 := by omega
  have hptr : s.stgRdPtrR + (s.dataIdx + 1) = BitVec.ofNat 10 (fetchPtr (p + 1)) := by
    unfold fetchPtr
    rw [if_pos (by omega), hdiv, h.base, h.dataIdx h2, show (p + 1) % 18 - 2 = p % 18 - 2 + 1 by omega,
      BitVec.ofNat_add, BitVec.ofNat_add]
    rfl
  simp only [PcieUser.putData, if_pos ((h.next_iff hp h2).mpr hr), if_neg hne]
  refine ⟨⟨rfl, (beatWord_data h2).symm, rfl, ?_⟩, hd.state, hd.host, ?_, hcnt, ?_, hptr⟩
  · rw [hr]
    exact hlast
  · simpa only [hdiv] using hd.num
  · simpa only [hdiv] using hd.base

/-- The last data beat of a TLP. -/
theorem InTlp.putLast (h : InTlp s host p) (hd : InTlp d host p) (hp : p ≤ 1125) (h2 : 2 ≤ p % 18)
    (hr : lastData p = true) : Puts (s.putData d) host (reqId i) p s.stgRdData ∧
      (p < 1125 → InTlp (s.putData d) host (p + 1)) ∧
      (p = 1125 → (s.putData d).dmaState = .dmaIdle) := by
  have hword : beatWord host (reqId i) p s.stgRdData = s.stgRdData := beatWord_data h2
  have hnot : ¬ s.dataIdx + 1 < s.curTlpDataBeats := fun hlt => by
    rw [(h.next_iff hp h2).mp hlt] at hr
    cases hr
  simp only [PcieUser.putData, if_neg hnot, if_pos ((h.last_iff hp h2).mpr hr), endTlp,
    h.isLastTlp hp, decide_eq_true_eq]
  by_cases hk : p / 18 = 62
  · rw [if_pos hk]
    refine ⟨⟨rfl, hword.symm, rfl, hr.symm⟩, fun hlt => ?_, fun _ => rfl⟩
    have hlast := lastData_iff.mp hr
    omega
  · have hr' : p % 18 = 17 := by
      have hlast := lastData_iff.mp hr
      omega
    have hdiv : (p + 1) / 18 = p / 18 + 1 := by omega
    have hptr : fetchPtr (p + 1) = fetchPtr p := by
      unfold fetchPtr
      rw [if_neg (by omega), if_pos (by omega), hdiv]
      omega
    rw [if_neg hk]
    refine ⟨⟨rfl, hword.symm, rfl, hr.symm⟩, fun _ => ⟨hd.state, hd.host, ?_, ?_, ?_, ?_⟩,
      fun heq => by omega⟩
    · rw [hdiv, BitVec.ofNat_add, ← h.num]
      rfl
    · rw [show (p + 1) % 18 = 0 by omega]
      rfl
    · rw [hdiv, Nat.mul_add, BitVec.ofNat_add, ← h.base]
      rfl
    · rw [hptr]
      exact hd.ptr

/-- A beat is put, and the next one follows if there is one. -/
theorem InTlp.put (h : InTlp s host p) (hd : InTlp d host p) (hlast : d.axTxTlast = false)
    (hp : p ≤ 1125) (hgo : go i = true) :
    Puts (s.stepTlp i d) host (reqId i) p s.stgRdData ∧
      (p < 1125 → InTlp (s.stepTlp i d) host (p + 1)) ∧
      (p = 1125 → (s.stepTlp i d).dmaState = .dmaIdle) := by
  by_cases h0 : p % 18 = 0
  · obtain ⟨hput, hnext⟩ := h.putHeader hd hlast hp hgo h0
    exact ⟨hput, fun _ => hnext, fun heq => by omega⟩
  by_cases h1 : p % 18 = 1
  · obtain ⟨hput, hnext⟩ := h.putAddress hd hlast hp hgo h1
    exact ⟨hput, fun _ => hnext, fun heq => by omega⟩
  have hdata : s.stepTlp i d = s.putData d := by
    rw [stepTlp, if_pos hgo, if_neg (fun heq => h0 (h.header_iff.mp heq)),
      if_neg (fun heq => h1 (h.address_iff.mp heq))]
  rw [hdata]
  cases hr : lastData p with
  | true => exact h.putLast hd hp (by omega) hr
  | false =>
      obtain ⟨hput, hnext⟩ := h.putNext hd hlast hp (by omega) hr
      refine ⟨hput, fun _ => hnext, fun heq => ?_⟩
      simp [lastData, heq] at hr

/-- The registers before the state machine of the same edge. -/
theorem InTlp.before (h : InTlp s host p) (u : PcieUserIn) :
    InTlp (s.stepRx u.ip (s.advance u)) host p := by
  rw [stepRx_eq]
  exact ⟨h.state, h.host, h.num, h.cnt, h.base, h.ptr⟩

/-- **One cycle** of a transfer in which a beat may be put. -/
theorem InTlp.step_go (h : InTlp s host p) (hp : p ≤ 1125) {u : PcieUserIn} (hgo : go u.ip = true) :
    Puts (s.step u) host (reqId u.ip) p s.stgRdData ∧
      (p < 1125 → InTlp (s.step u) host (p + 1)) ∧
      (p = 1125 → (s.step u).dmaState = .dmaIdle) := by
  have hlast : (s.stepRx u.ip (s.advance u)).axTxTlast = false := by
    rw [stepRx_eq]
    rfl
  rw [PcieUser.step, stepDma, h.state]
  exact h.put (h.before u) hlast hp hgo

/-- One cycle in which none may. -/
theorem InTlp.step_stall (h : InTlp s host p) {u : PcieUserIn} (hgo : go u.ip = false) :
    (s.step u).axTxTvalid = false ∧ (s.step u).axTxTdata = s.axTxTdata ∧
      InTlp (s.step u) host p := by
  have hvalid : (s.stepRx u.ip (s.advance u)).axTxTvalid = false ∧
      (s.stepRx u.ip (s.advance u)).axTxTdata = s.axTxTdata := by
    rw [stepRx_eq]
    exact ⟨rfl, rfl⟩
  have hstep : s.step u = s.stepRx u.ip (s.advance u) := by
    simp [PcieUser.step, stepDma, h.state, stepTlp, hgo]
  rw [hstep]
  exact ⟨hvalid.1, hvalid.2, h.before u⟩

/-- A transfer starts with beat 0, and nothing on the bus. -/
theorem InTlp.start (hst : s.dmaState = .dmaDescrLat) (hvalid : descValidBit s.descRdData = true)
    (u : PcieUserIn) :
    InTlp (s.step u) (descHostAddr s.descRdData) 0 ∧ (s.step u).axTxTvalid = false := by
  have hbus : (s.stepRx u.ip (s.advance u)).axTxTvalid = false := by
    rw [stepRx_eq]
    rfl
  rw [PcieUser.step, stepDma, hst]
  simp only [stepDescrLat, hvalid, if_true]
  exact ⟨⟨rfl, rfl, rfl, rfl, rfl, rfl⟩, hbus⟩

/-- The word read in a cycle. -/
theorem step_stgRdData (s : PcieUser) (u : PcieUserIn) :
    (s.step u).stgRdData = u.stagingMem s.stgRdPtr := by
  rw [PcieUser.step, stepDma_eq, stepRx_eq]
  rfl

end Step

end PcieUser

end Lliu
