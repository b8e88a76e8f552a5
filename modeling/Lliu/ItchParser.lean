import Lliu.ItchParserV2

/-!
# Lliu.ItchParser

`itch_parser.sv` and its `itch_field_extract.sv`: the ITCH parser of the first version.
Frames and beats are those of `itch_parser_v2`.  A message that is complete is in
`msg_buf` for the one cycle in `S_EMIT`, at the end of which its fields are registered;
only an Add Order raises `fields_valid`.

`msg_buf` has no reset in the source; the model starts from any contents.
-/

namespace Lliu

/-! ## itch_field_extract -/

/-- The registers of `itch_field_extract`. -/
structure ItchFieldExtract where
  messageType : BitVec 8
  orderRef : OrderRef
  side : Bool
  price : BitVec 32
  stock : BitVec 64
  fieldsValid : Bool

namespace ItchFieldExtract

/-- The registers after reset. -/
def reset : ItchFieldExtract where
  messageType := 0
  orderRef := 0
  side := false
  price := 0
  stock := 0
  fieldsValid := false

/-- Four bytes from byte `k` on, big-endian. -/
def be32 (msg : BitVec 7 → BitVec 8) (k : BitVec 7) : BitVec 32 :=
  msg k ++ msg (k + 1) ++ msg (k + 2) ++ msg (k + 3)

/-- Eight bytes from byte `k` on. -/
def be64 (msg : BitVec 7 → BitVec 8) (k : BitVec 7) : BitVec 64 := be32 msg k ++ be32 msg (k + 4)

/-- The registers after a clock edge, of the bytes of a message: any but `'B'` is a sell. -/
def step (msg : BitVec 7 → BitVec 8) (msgValid : Bool) : ItchFieldExtract where
  messageType := msg 0
  orderRef := be64 msg 11
  side := msg 19 == 0x42#8
  price := be32 msg 32
  stock := be64 msg 24
  fieldsValid := msgValid && msg 0 == itchMsgAddOrder

end ItchFieldExtract

/-! ## itch_parser -/

/-- The inputs of `itch_parser`. -/
structure ItchParserIn where
  sAxisTdata : BitVec 64
  sAxisTvalid : Bool
  sAxisTlast : Bool
  pipelineHold : Bool

/-- The registers of `itch_parser`. -/
structure ItchParser where
  state : ParserState
  msgBuf : BitVec 7 → BitVec 8
  byteCnt : BitVec 7
  msgLen : BitVec 16
  uFieldExtract : ItchFieldExtract

namespace ItchParser

open ItchParserV2 (beatByte beatLen)

/-- The registers after reset, with the contents of the buffer. -/
def reset (msgBuf : BitVec 7 → BitVec 8) : ItchParser where
  state := .sIdle
  msgBuf := msgBuf
  byteCnt := 0
  msgLen := 0
  uFieldExtract := .reset

/-- `s_axis_tready`. -/
def sAxisTready (s : ItchParser) (pipelineHold : Bool) : Bool :=
  s.state != .sEmit && !pipelineHold

/-- `msg_valid`. -/
def msgValid (s : ItchParser) : Bool := s.state == .sEmit

/-- A beat is transferred. -/
def beat (s : ItchParser) (i : ItchParserIn) : Bool :=
  i.sAxisTvalid && s.sAxisTready i.pipelineHold

/-- The buffer with the first six bytes of a message. -/
def storeFirst (buf : BitVec 7 → BitVec 8) (tdata : BitVec 64) : BitVec 7 → BitVec 8 := fun a =>
  if a.toNat < 6 then beatByte tdata (a.toNat + 2) else buf a

/-- The buffer with the eight bytes of a beat from `base` on.  Addresses wrap at 128. -/
def storeBeat (buf : BitVec 7 → BitVec 8) (base : BitVec 7) (tdata : BitVec 64) :
    BitVec 7 → BitVec 8 := fun a =>
  if (a - base).toNat < 8 then beatByte tdata (a - base).toNat else buf a

/-- `S_IDLE`: the length and the first six bytes; a longer message that ends here is
dropped. -/
def stepIdle (s : ItchParser) (i : ItchParserIn) (d : ItchParser) : ItchParser :=
  if s.beat i then
    { d with
      msgLen := beatLen i.sAxisTdata
      msgBuf := storeFirst s.msgBuf i.sAxisTdata
      byteCnt := 6
      state :=
        if beatLen i.sAxisTdata ≤ 6 then .sEmit
        else if i.sAxisTlast then .sIdle
        else .sAccumulate }
  else d

/-- `S_ACCUMULATE`: eight bytes at a time, until the message is complete. -/
def stepAccumulate (s : ItchParser) (i : ItchParserIn) (d : ItchParser) : ItchParser :=
  if s.beat i then
    { d with
      msgBuf := storeBeat s.msgBuf s.byteCnt i.sAxisTdata
      byteCnt := s.byteCnt + 8
      state :=
        if s.msgLen ≤ s.byteCnt.setWidth 16 + 8 then .sEmit
        else if i.sAxisTlast then .sIdle
        else .sAccumulate }
  else d

/-- One clock edge. -/
def step (s : ItchParser) (i : ItchParserIn) : ItchParser :=
  let d := { s with uFieldExtract := .step s.msgBuf s.msgValid }
  match s.state with
  | .sIdle => s.stepIdle i d
  | .sAccumulate => s.stepAccumulate i d
  | .sEmit => { d with state := .sIdle }

/-! ## the strobe -/

/-- The fields are registered in every cycle. -/
theorem uFieldExtract_step (s : ItchParser) (i : ItchParserIn) :
    (s.step i).uFieldExtract = .step s.msgBuf s.msgValid := by
  rw [step]
  cases s.state with
  | sIdle =>
      simp only [stepIdle]
      split <;> rfl
  | sAccumulate =>
      simp only [stepAccumulate]
      split <;> rfl
  | sEmit => rfl

/-- A message is complete after a beat. -/
theorem beat_of_msgValid {s : ItchParser} {i : ItchParserIn} (h : (s.step i).msgValid = true) :
    s.beat i = true := by
  cases hbeat : s.beat i with
  | true => rfl
  | false =>
      rw [msgValid, step] at h
      cases hstate : s.state with
      | sIdle => simp [hstate, stepIdle, hbeat] at h
      | sAccumulate => simp [hstate, stepAccumulate, hbeat] at h
      | sEmit => simp [hstate] at h

end ItchParser

end Lliu
