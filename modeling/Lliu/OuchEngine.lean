import Mathlib.Logic.Function.Basic
import Lliu.Pkg

/-!
# Lliu.OuchEngine

`ouch_engine.sv`: the OUCH 5.0 Enter Order packets.  An order is latched on
`risk_pass` in `S_IDLE`, its symbol's template is fetched, six beats are
assembled and sent.

The template memories have no reset in the source; the model starts from zeroed
templates.
-/

namespace Lliu

/-- The FSM states of `ouch_engine`. -/
inductive OuchState where
  | sIdle | sFetch | sLoad | sSend
  deriving DecidableEq, Repr

/-- The inputs of `ouch_engine`; the time stamp is not part of a packet. -/
structure OuchEngineIn where
  riskPass : Bool
  side : Bool
  price : BitVec 32
  symbolId : BitVec 7
  proposedShares : BitVec 24
  tmplWrAddr : BitVec 9
  tmplWrData : BitVec 64
  tmplWrEn : Bool
  mAxisTready : Bool

/-- The template memories, or one entry read from each. -/
structure OuchTemplate (α β : Type) where
  b2 : α
  b3 : α
  b4 : β
  b5 : β

/-- The registers of `ouch_engine`.  `beatBuf` holds beats 1 to 5. -/
structure OuchEngine where
  tmpl : OuchTemplate (BitVec 7 → BitVec 32) (BitVec 7 → BitVec 64)
  tmplRd : OuchTemplate (BitVec 32) (BitVec 64)
  latchSymId : BitVec 7
  state : OuchState
  beatCnt : BitVec 3
  orderToken : BitVec 64
  latchSide : Bool
  latchPrice : BitVec 32
  latchShares : BitVec 24
  beatBuf : BitVec 3 → BitVec 64
  bpCnt : BitVec 6
  clrCnt : BitVec 8
  txOvfR : Bool
  mAxisTdata : BitVec 64
  mAxisTkeep : BitVec 8
  mAxisTvalid : Bool
  mAxisTlast : Bool

namespace OuchEngine

/-- `MSG_TYPE`, `'O'`. -/
def msgType : BitVec 8 := 0x4F#8

/-- `SIDE_BUY`, `'B'`. -/
def sideBuy : BitVec 8 := 0x42#8

/-- `SIDE_SELL`, `'S'`. -/
def sideSell : BitVec 8 := 0x53#8

/-- The indicator of a side. -/
def sideByte (side : Bool) : BitVec 8 := if side then sideBuy else sideSell

/-- The registers after reset, with zeroed templates. -/
def reset : OuchEngine where
  tmpl := ⟨fun _ => 0, fun _ => 0, fun _ => 0, fun _ => 0⟩
  tmplRd := ⟨0, 0, 0, 0⟩
  latchSymId := 0
  state := .sIdle
  beatCnt := 0
  orderToken := 0
  latchSide := false
  latchPrice := 0
  latchShares := 0
  beatBuf := fun _ => 0
  bpCnt := 0
  clrCnt := 0
  txOvfR := false
  mAxisTdata := 0
  mAxisTkeep := 0xFF
  mAxisTvalid := false
  mAxisTlast := false

/-- `tx_overflow`. -/
def txOverflow (s : OuchEngine) : Bool := s.txOvfR

/-! ## templates -/

/-- The template memories after a write; the low address bits select the beat. -/
def writeTemplate (s : OuchEngine) (i : OuchEngineIn) :
    OuchTemplate (BitVec 7 → BitVec 32) (BitVec 7 → BitVec 64) :=
  let t := s.tmpl
  let sym : BitVec 7 := i.tmplWrAddr.extractLsb' 2 7
  let low : BitVec 32 := i.tmplWrData.setWidth 32
  if i.tmplWrEn then
    if i.tmplWrAddr.setWidth 2 = 0 then { t with b2 := Function.update t.b2 sym low }
    else if i.tmplWrAddr.setWidth 2 = 1 then { t with b3 := Function.update t.b3 sym low }
    else if i.tmplWrAddr.setWidth 2 = 2 then { t with b4 := Function.update t.b4 sym i.tmplWrData }
    else { t with b5 := Function.update t.b5 sym i.tmplWrData }
  else t

/-- The template of a symbol. -/
def readTemplate (s : OuchEngine) (sym : BitVec 7) : OuchTemplate (BitVec 32) (BitVec 64) where
  b2 := s.tmpl.b2 sym
  b3 := s.tmpl.b3 sym
  b4 := s.tmpl.b4 sym
  b5 := s.tmpl.b5 sym

/-! ## beats -/

/-- Beat 0: the message type and the high bytes of the order token. -/
def beat0 (s : OuchEngine) : BitVec 64 := msgType ++ s.orderToken.extractLsb' 8 56

/-- Beat 1: the low byte of the token, six `'0'`s and the side. -/
def beat1 (s : OuchEngine) : BitVec 64 :=
  s.orderToken.setWidth 8 ++ 0x303030303030#48 ++ sideByte s.latchSide

/-- Beat 2: the shares and the first half of the stock. -/
def beat2 (s : OuchEngine) : BitVec 64 := 0#8 ++ s.latchShares ++ s.tmplRd.b2

/-- Beat 3: the second half of the stock and the price. -/
def beat3 (s : OuchEngine) : BitVec 64 := s.tmplRd.b3 ++ s.latchPrice

/-- The beats 1 to 5 of the packet for the latched order. -/
def beats (s : OuchEngine) (k : BitVec 3) : BitVec 64 :=
  if k = 1 then s.beat1
  else if k = 2 then s.beat2
  else if k = 3 then s.beat3
  else if k = 4 then s.tmplRd.b4
  else if k = 5 then s.tmplRd.b5
  else s.beatBuf k

/-! ## the clock edge -/

/-- The back-pressure watchdog, beside the other registers `d`. -/
def stepWatchdog (s : OuchEngine) (i : OuchEngineIn) (d : OuchEngine) : OuchEngine :=
  if s.state = .sSend ∧ i.mAxisTready = false then
    if s.bpCnt = BitVec.allOnes 6 then { d with clrCnt := 0, txOvfR := true }
    else { d with clrCnt := 0, bpCnt := s.bpCnt + 1 }
  else if s.txOvfR then
    if s.clrCnt = BitVec.allOnes 8 then { d with bpCnt := 0, txOvfR := false, clrCnt := 0 }
    else { d with bpCnt := 0, clrCnt := s.clrCnt + 1 }
  else { d with bpCnt := 0 }

/-- What every clock edge does: templates and the watchdog. -/
def advance (s : OuchEngine) (i : OuchEngineIn) : OuchEngine :=
  s.stepWatchdog i { s with tmpl := s.writeTemplate i, tmplRd := s.readTemplate s.latchSymId }

/-- `S_IDLE`: latch an order. -/
def stepIdle (i : OuchEngineIn) (d : OuchEngine) : OuchEngine :=
  if i.riskPass then
    { d with
      mAxisTvalid := false
      mAxisTlast := false
      latchSymId := i.symbolId
      latchSide := i.side
      latchPrice := i.price
      latchShares := i.proposedShares
      state := .sFetch }
  else { d with mAxisTvalid := false, mAxisTlast := false }

/-- `S_LOAD`: assemble the packet and present beat 0. -/
def stepLoad (s : OuchEngine) (d : OuchEngine) : OuchEngine :=
  { d with
    mAxisTdata := s.beat0
    mAxisTvalid := true
    mAxisTlast := false
    mAxisTkeep := 0xFF
    beatBuf := s.beats
    orderToken := s.orderToken + 1
    beatCnt := 0
    state := .sSend }

/-- `S_SEND`: the next beat whenever one is taken. -/
def stepSend (s : OuchEngine) (i : OuchEngineIn) (d : OuchEngine) : OuchEngine :=
  if i.mAxisTready then
    if s.beatCnt = 5 then { d with mAxisTvalid := false, mAxisTlast := false, state := .sIdle }
    else
      { d with
        mAxisTdata := s.beatBuf (if s.beatCnt.ult 5 then s.beatCnt + 1 else 1)
        mAxisTkeep := 0xFF
        mAxisTlast := s.beatCnt == 4
        beatCnt := s.beatCnt + 1 }
  else d

/-- One clock edge. -/
def step (s : OuchEngine) (i : OuchEngineIn) : OuchEngine :=
  let d := s.advance i
  match s.state with
  | .sIdle => stepIdle i d
  | .sFetch => { d with state := .sLoad }
  | .sLoad => s.stepLoad d
  | .sSend => s.stepSend i d

/-! ## from an order to its packet -/

/-- The order latched. -/
structure LatchedOrder where
  symId : BitVec 7
  side : Bool
  price : BitVec 32
  shares : BitVec 24
  deriving DecidableEq, Repr

/-- The latch registers. -/
def latched (s : OuchEngine) : LatchedOrder :=
  ⟨s.latchSymId, s.latchSide, s.latchPrice, s.latchShares⟩

section Packet

variable (s : OuchEngine) (i : OuchEngineIn)

/-- The watchdog and the templates do not touch an order. -/
theorem advance_frame : (s.advance i).latched = s.latched ∧ (s.advance i).state = s.state ∧
    (s.advance i).beatBuf = s.beatBuf := by
  rw [advance, stepWatchdog]
  split <;> (try split) <;> (try split) <;> exact ⟨rfl, rfl, rfl⟩

/-- An order is latched in `S_IDLE`. -/
theorem step_accept (hs : s.state = .sIdle) (hp : i.riskPass = true) :
    (s.step i).state = .sFetch ∧
    (s.step i).latched = ⟨i.symbolId, i.side, i.price, i.proposedShares⟩ := by
  simp [step, hs, stepIdle, hp, latched]

/-- Without one the engine stays there. -/
theorem step_idle (hs : s.state = .sIdle) (hp : i.riskPass = false) : (s.step i).state = .sIdle := by
  simp [step, hs, stepIdle, hp, (s.advance_frame i).2.1]

/-- `S_FETCH` keeps it. -/
theorem step_fetch (hs : s.state = .sFetch) :
    (s.step i).state = .sLoad ∧ (s.step i).latched = s.latched := by
  rw [step, hs]
  exact ⟨rfl, (s.advance_frame i).1⟩

/-- `S_LOAD` assembles the packet from it. -/
theorem step_load (hs : s.state = .sLoad) :
    (s.step i).state = .sSend ∧ (s.step i).latched = s.latched ∧ (s.step i).beatBuf = s.beats := by
  rw [step, hs]
  exact ⟨rfl, (s.advance_frame i).1, rfl⟩

end Packet

/-- The packet `buf` is being sent: beat `beat_cnt` is on the bus, the beats from 1
on out of `buf`. -/
structure Sending (s : OuchEngine) (buf : BitVec 3 → BitVec 64) : Prop where
  state : s.state = .sSend
  beatBuf : s.beatBuf = buf
  valid : s.mAxisTvalid = true
  le : s.beatCnt ≤ 5
  tdata : s.beatCnt ≠ 0 → s.mAxisTdata = buf s.beatCnt

/-- `S_LOAD` starts it. -/
theorem sending_load {s : OuchEngine} (hs : s.state = .sLoad) (i : OuchEngineIn) :
    Sending (s.step i) s.beats := by
  rw [step, hs]
  exact ⟨rfl, rfl, rfl, show (0 : BitVec 3) ≤ 5 by decide, fun hne => absurd rfl hne⟩

/-- `S_SEND` goes on with it until the last beat is taken. -/
theorem Sending.step {s : OuchEngine} {buf : BitVec 3 → BitVec 64} (h : Sending s buf)
    (i : OuchEngineIn) (hnext : (s.step i).state = .sSend) : Sending (s.step i) buf := by
  obtain ⟨hstate, hbuf, hvalid, hle, hdata⟩ := h
  have hadvance : (s.advance i).beatBuf = s.beatBuf ∧ (s.advance i).state = s.state ∧
      (s.advance i).mAxisTvalid = s.mAxisTvalid ∧ (s.advance i).beatCnt = s.beatCnt ∧
      (s.advance i).mAxisTdata = s.mAxisTdata := by
    rw [advance, stepWatchdog]
    split <;> (try split) <;> (try split) <;> exact ⟨rfl, rfl, rfl, rfl, rfl⟩
  obtain ⟨hb, hs, hv, hc, ht⟩ := hadvance
  rw [OuchEngine.step, hstate] at hnext ⊢
  simp only [stepSend] at hnext ⊢
  cases hready : i.mAxisTready with
  | false =>
      simp only [hready, Bool.false_eq_true, if_false] at hnext ⊢
      exact ⟨hs.trans hstate, hb.trans hbuf, hv.trans hvalid, hc ▸ hle, by rwa [hc, ht]⟩
  | true =>
      by_cases hlast : s.beatCnt = 5
      · simp [hready, hlast] at hnext
      · -- a beat before the last
        have hlt : s.beatCnt < 5 := by bv_omega
        have hult : s.beatCnt.ult 5 = true := by rwa [BitVec.ult_eq_decide, decide_eq_true_eq]
        simp only [if_true, hlast, if_false, hult]
        exact ⟨hs.trans hstate, hb.trans hbuf, hv.trans hvalid, by bv_omega, fun _ => by rw [hbuf]⟩

/-- The side indicator of a packet, the last byte of beat 1. -/
def packetSide (buf : BitVec 3 → BitVec 64) : BitVec 8 := (buf 1).setWidth 8

/-- The share count of a packet, in the first half of beat 2. -/
def packetShares (buf : BitVec 3 → BitVec 64) : BitVec 24 := (buf 2).extractLsb' 32 24

/-- The price of a packet, the second half of beat 3. -/
def packetPrice (buf : BitVec 3 → BitVec 64) : BitVec 32 := (buf 3).setWidth 32

/-- The packet carries the latched order. -/
theorem packet_beats (s : OuchEngine) : packetSide s.beats = sideByte s.latchSide ∧
    packetShares s.beats = s.latchShares ∧ packetPrice s.beats = s.latchPrice := by
  refine ⟨BitVec.setWidth_append_eq_right, ?_, BitVec.setWidth_append_eq_right⟩
  change (0#8 ++ s.latchShares ++ s.tmplRd.b2).extractLsb' 32 24 = s.latchShares
  ext k hk
  rw [BitVec.getElem_extractLsb', BitVec.getLsbD_append, if_neg (by omega),
    show 32 + k - 32 = k by omega, BitVec.getLsbD_append, if_pos hk, BitVec.getLsbD_eq_getElem hk]

/-- The indicator tells the sides apart. -/
theorem sideByte_inj {a b : Bool} (h : sideByte a = sideByte b) : a = b := by
  revert h
  cases a <;> cases b <;> decide

end OuchEngine

end Lliu
