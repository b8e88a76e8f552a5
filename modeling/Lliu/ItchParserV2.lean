import Lliu.Pkg

/-!
# Lliu.ItchParserV2

`itch_parser_v2.sv`: the ITCH 5.0 parser.  A frame is a two-byte big-endian
length and the message body, eight bytes to a beat, the first byte in the top
bits.  The body is collected in `msg_buf`, and one cycle in `S_EMIT` registers
the fields; a new beat is not taken in that cycle, nor under `pipeline_hold`.

`msg_buf` has no reset in the source; the model starts from a zeroed buffer.
-/

namespace Lliu

/-- The FSM states of `itch_parser_v2`. -/
inductive ParserState where
  | sIdle | sAccumulate | sEmit
  deriving DecidableEq, Repr

/-- The inputs of `itch_parser_v2`. -/
structure ItchParserV2In where
  sAxisTdata : BitVec 64
  sAxisTvalid : Bool
  sAxisTlast : Bool
  pipelineHold : Bool

/-- The registers of `itch_parser_v2`. -/
structure ItchParserV2 where
  state : ParserState
  msgBuf : BitVec 6 → BitVec 8
  byteCnt : BitVec 6
  msgLen : BitVec 16
  msgType : BitVec 8
  orderRef : OrderRef
  newOrderRef : OrderRef
  price : BitVec 32
  shares : BitVec 32
  side : Bool
  stock : BitVec 64
  symId : SymId
  fieldsValid : Bool

namespace ItchParserV2

/-! ## bytes -/

/-- Byte `k` of a beat, the first one in the top bits. -/
def beatByte (tdata : BitVec 64) (k : Nat) : BitVec 8 := tdata.extractLsb' (56 - 8 * k) 8

/-- The length prefix of a first beat. -/
def beatLen (tdata : BitVec 64) : BitVec 16 := beatByte tdata 0 ++ beatByte tdata 1

/-- The buffer with body bytes `0 .. 5` taken from a first beat. -/
def storeFirst (buf : BitVec 6 → BitVec 8) (tdata : BitVec 64) : BitVec 6 → BitVec 8 := fun a =>
  if a.toNat < 6 then beatByte tdata (a.toNat + 2) else buf a

/-- The buffer with the eight bytes of a beat stored from address `base` on.
Addresses wrap at 64. -/
def storeBeat (buf : BitVec 6 → BitVec 8) (base : BitVec 6) (tdata : BitVec 64) :
    BitVec 6 → BitVec 8 := fun a =>
  if (a - base).toNat < 8 then beatByte tdata (a - base).toNat else buf a

/-- A big-endian 32-bit field of the body. -/
def be32 (buf : BitVec 6 → BitVec 8) (k : BitVec 6) : BitVec 32 :=
  buf k ++ buf (k + 1) ++ buf (k + 2) ++ buf (k + 3)

/-- A big-endian 64-bit field of the body. -/
def be64 (buf : BitVec 6 → BitVec 8) (k : BitVec 6) : BitVec 64 := be32 buf k ++ be32 buf (k + 4)

/-! ## fields -/

/-- `'A'`, `'F'` and `'P'` carry a side, a share count and a stock. -/
def carriesStock (t : BitVec 8) : Bool :=
  t == itchMsgAddOrder || t == itchMsgAddOrderMpid || t == itchMsgTrade

/-- The price field. -/
def priceOf (buf : BitVec 6 → BitVec 8) : BitVec 32 :=
  if carriesStock (buf 0) || buf 0 == itchMsgOrderExecPx then be32 buf 32
  else if buf 0 == itchMsgOrderReplace then be32 buf 31
  else 0

/-- The shares field. -/
def sharesOf (buf : BitVec 6 → BitVec 8) : BitVec 32 :=
  if carriesStock (buf 0) then be32 buf 20
  else if buf 0 == itchMsgOrderCancel || buf 0 == itchMsgOrderExec ||
      buf 0 == itchMsgOrderExecPx then be32 buf 19
  else if buf 0 == itchMsgOrderReplace then be32 buf 27
  else 0

/-- The side: `'B'` is the bid side. -/
def sideOf (buf : BitVec 6 → BitVec 8) : Bool := carriesStock (buf 0) && buf 19 == 0x42#8

/-- The stock field. -/
def stockOf (buf : BitVec 6 → BitVec 8) : BitVec 64 :=
  if carriesStock (buf 0) then be64 buf 24 else 0

/-- The message types for which `fields_valid` pulses. -/
def supported (t : BitVec 8) : Bool :=
  t == itchMsgAddOrder || t == itchMsgAddOrderMpid || t == itchMsgOrderCancel ||
    t == itchMsgOrderDelete || t == itchMsgOrderReplace || t == itchMsgOrderExec ||
    t == itchMsgOrderExecPx || t == itchMsgTrade

/-! ## the clock edge -/

/-- The registers after reset, with a zeroed buffer. -/
def reset : ItchParserV2 where
  state := .sIdle
  msgBuf := fun _ => 0
  byteCnt := 0
  msgLen := 0
  msgType := 0
  orderRef := 0
  newOrderRef := 0
  price := 0
  shares := 0
  side := false
  stock := 0
  symId := 0
  fieldsValid := false

/-- `s_axis_tready`. -/
def sAxisTready (s : ItchParserV2) (pipelineHold : Bool) : Bool :=
  s.state != .sEmit && !pipelineHold

/-- A beat is transferred. -/
def beat (s : ItchParserV2) (i : ItchParserV2In) : Bool :=
  i.sAxisTvalid && s.sAxisTready i.pipelineHold

/-- `S_IDLE`: take the length and the first six body bytes. -/
def stepIdle (s : ItchParserV2) (i : ItchParserV2In) : ItchParserV2 :=
  if s.beat i then
    { s with
      fieldsValid := false
      msgLen := beatLen i.sAxisTdata
      msgBuf := storeFirst s.msgBuf i.sAxisTdata
      byteCnt := 6
      state :=
        if beatLen i.sAxisTdata ≤ 6 then .sEmit
        else if i.sAxisTlast then .sIdle
        else .sAccumulate }
  else { s with fieldsValid := false }

/-- `S_ACCUMULATE`: take eight body bytes; a frame that ends early is dropped. -/
def stepAccumulate (s : ItchParserV2) (i : ItchParserV2In) : ItchParserV2 :=
  if s.beat i then
    { s with
      msgBuf := storeBeat s.msgBuf s.byteCnt i.sAxisTdata
      byteCnt := s.byteCnt + 8
      state :=
        if s.msgLen ≤ s.byteCnt.setWidth 16 + 8 then .sEmit
        else if i.sAxisTlast then .sIdle
        else .sAccumulate }
  else s

/-- `S_EMIT`: register the fields of the body.  The symbol index is not looked
up: it is constantly zero. -/
def stepEmit (s : ItchParserV2) : ItchParserV2 :=
  { s with
    state := .sIdle
    msgType := s.msgBuf 0
    symId := 0
    orderRef := be64 s.msgBuf 11
    newOrderRef := if s.msgBuf 0 == itchMsgOrderReplace then be64 s.msgBuf 19 else 0
    price := priceOf s.msgBuf
    shares := sharesOf s.msgBuf
    side := sideOf s.msgBuf
    stock := stockOf s.msgBuf
    fieldsValid := supported (s.msgBuf 0) }

/-- One clock edge. -/
def step (s : ItchParserV2) (i : ItchParserV2In) : ItchParserV2 :=
  match s.state with
  | .sIdle => s.stepIdle i
  | .sAccumulate => s.stepAccumulate i
  | .sEmit => s.stepEmit

/-! ## stability of the outputs -/

/-- Fields are valid in `S_IDLE` only, the cycle after `S_EMIT`. -/
def ValidInIdle (s : ItchParserV2) : Prop := s.fieldsValid = true → s.state = .sIdle

theorem ValidInIdle.of_ne {s : ItchParserV2} (h : ValidInIdle s) (hst : s.state ≠ .sIdle) :
    s.fieldsValid = false := by
  by_contra hne
  rw [Bool.not_eq_false] at hne
  exact hst (h hne)

theorem validInIdle_reset : ValidInIdle reset := fun _ => rfl

theorem ValidInIdle.step {s : ItchParserV2} (h : ValidInIdle s) (i : ItchParserV2In) :
    ValidInIdle (s.step i) := by
  intro hv
  rw [ItchParserV2.step] at hv ⊢
  cases hs : s.state with
  | sIdle =>
      rw [hs] at hv
      simp only [stepIdle] at hv
      split at hv <;> cases hv
  | sAccumulate =>
      have hnot := h.of_ne (by simp [hs])
      rw [hs] at hv
      simp only [stepAccumulate] at hv
      split at hv <;> exact absurd hv (Bool.eq_false_iff.mp hnot)
  | sEmit => rfl

/-- Only `S_EMIT` changes the outputs. -/
theorem outputs_step {s : ItchParserV2} (hs : s.state ≠ .sEmit) (i : ItchParserV2In) :
    (s.step i).price = s.price ∧ (s.step i).side = s.side ∧ (s.step i).symId = s.symId ∧
    (s.step i).shares = s.shares := by
  rw [step]
  cases hst : s.state with
  | sIdle =>
      simp only [stepIdle]
      split <;> exact ⟨rfl, rfl, rfl, rfl⟩
  | sAccumulate =>
      simp only [stepAccumulate]
      split <;> exact ⟨rfl, rfl, rfl, rfl⟩
  | sEmit => exact absurd hst hs

end ItchParserV2

end Lliu
