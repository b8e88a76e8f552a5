import Lliu.Axi4StreamDriver
import Lliu.GoldenModel.Parsing
import Lliu.ItchDecoder.RoundTrip

/-!
# Lliu.ItchDecoder.Sent

What the tests send is what the parsers find: of Add Orders and System Events, each encoded and
put on the stream as a packet of its own, both parsers give exactly the Add Orders, with the
arguments of the calls (`sent_parsed`).
-/

namespace Lliu

open Hdl
open ItchParserV2 (Packet Brings ItchMsg ItchMessage)

namespace ItchDecoder

/-! ## the layout -/

/-- The bytes of a vector are those of its number. -/
theorem bigEndian_eq (n : Nat) (v : BitVec (8 * n)) : ItchParserV2.bigEndian n v = toBytes n v.toNat := by
  refine List.ext_getElem? fun k => ?_
  rw [ItchParserV2.bigEndian]
  by_cases hk : k < n
  · have hpow : 256 ^ (n - 1 - k) = 2 ^ (8 * (n - 1 - k)) := by rw [Nat.pow_mul]
    rw [getElem?_toBytes _ hk, List.getElem?_map, List.getElem?_range hk, Option.map_some, hpow]
    congr 1
    apply BitVec.eq_of_toNat_eq
    rw [BitVec.extractLsb'_toNat, BitVec.toNat_ofNat, Nat.shiftRight_eq_div_pow]
  · rw [List.getElem?_eq_none (by simpa using hk), List.getElem?_eq_none (by simpa using hk)]

section Field

variable {n : Nat} {v : Int} (h : 0 ≤ v ∧ v < 256 ^ n)

include h

/-- A number in range is that of its vector, -/
theorem toNat_field : (BitVec.ofNat (8 * n) v.toNat).toNat = v.toNat := by
  have hlt : (v.toNat : Int) < ((2 ^ (8 * n) : Nat) : Int) := by
    rw [Int.toNat_of_nonneg h.1, Nat.pow_mul]
    exact_mod_cast h.2
  rw [BitVec.toNat_ofNat, Nat.mod_eq_of_lt (by exact_mod_cast hlt)]

/-- and has its bytes. -/
theorem bigEndian_field : ItchParserV2.bigEndian n (BitVec.ofNat (8 * n) v.toNat) = toBytes n v.toNat := by
  rw [bigEndian_eq, toNat_field h]

end Field

section AddOrder

variable {x : AddOrderArgs}

/-- The bytes of the stock. -/
def stockBytes (x : AddOrderArgs) : List Byte := (stockChars x.stock).map fun c => BitVec.ofNat 8 c.toNat

/-- The message of a call. -/
def message (x : AddOrderArgs) : ItchMessage :=
  .addOrder
    { stockLocate := BitVec.ofNat 16 x.stockLocate.toNat
      trackingNumber := BitVec.ofNat 16 x.trackingNumber.toNat
      timestamp := BitVec.ofNat 48 x.timestamp.toNat }
    (BitVec.ofNat 64 x.orderRef.toNat) (BitVec.ofNat 8 x.side.toNat) (BitVec.ofNat 32 x.shares.toNat)
    (BitVec.ofNat 64 (fromBytes (stockBytes x))) (BitVec.ofNat 32 x.price.toNat)

/-- The encoder follows the layout of the format. -/
theorem body_eq_layout (h : Encodable x) : body x = (message x).layout := by
  have hlen : (stockBytes x).length = 8 := by rw [stockBytes, List.length_map, length_stockChars]
  have hstock : ItchParserV2.bigEndian 8 (BitVec.ofNat 64 (fromBytes (stockBytes x))) = stockBytes x := by
    have hlt : fromBytes (stockBytes x) < 2 ^ (8 * 8) := by
      have := fromBytes_lt (stockBytes x)
      rwa [hlen] at this
    have hback := toBytes_fromBytes (stockBytes x)
    rw [hlen] at hback
    rw [bigEndian_eq, BitVec.toNat_ofNat, Nat.mod_eq_of_lt hlt, hback]
  have hlocate := bigEndian_field h.stockLocate
  have htrack := bigEndian_field h.trackingNumber
  have htime := bigEndian_field h.timestamp
  have href := bigEndian_field h.orderRef
  have hshares := bigEndian_field h.shares
  have hprice := bigEndian_field h.price
  rw [message, ItchMessage.layout, ItchParserV2.ItchHeader.layout, hlocate, htrack, htime, href, hshares,
    hstock, hprice, body, stockBytes]
  simp only [List.append_assoc, List.cons_append, List.nil_append]

/-- The message as the parser frames it. -/
def addOrderMsg (x : AddOrderArgs) : ItchMsg where
  body := body x
  nonempty := by rw [length_body]; decide
  fits := by rw [length_body]; decide
  complete _ := by
    have htype := (slices_body x).1
    rw [htype, length_body]
    decide

theorem pulse_addOrderMsg (h : Encodable x) : (addOrderMsg x).pulse = [(message x).outputs] := by
  have hsupp : ItchParserV2.supported (addOrderMsg x).type = true := by
    change ItchParserV2.supported ((body x).getD 0 0) = true
    rw [(slices_body x).1]
    decide
  have hfields : (addOrderMsg x).fields = (message x).outputs := by
    change ItchParserV2.fieldsOf (fun a => (body x).getD a.toNat 0) = _
    rw [body_eq_layout h, ItchParserV2.fieldsOf_layout]
  rw [ItchMsg.pulse, if_pos hsupp, hfields]

theorem encode_addOrderMsg (x : AddOrderArgs) : (addOrderMsg x).encode = toBytes 2 36 ++ body x := by
  have hlen : (addOrderMsg x).body.length = 36 := length_body x
  rw [ItchMsg.encode, hlen]
  rfl

end AddOrder

/-! ## a System Event -/

section SystemEvent

variable {x : SystemEventArgs} {bs : List Byte}

/-- The body of the message. -/
def eventBody (x : SystemEventArgs) : List Byte :=
  [msgTypeSystemEvent] ++ toBytes 2 x.stockLocate.toNat ++ toBytes 2 x.trackingNumber.toNat ++
    toBytes 6 x.timestamp.toNat ++ [BitVec.ofNat 8 x.eventCode.toNat]

theorem length_eventBody (x : SystemEventArgs) : (eventBody x).length = 12 := by simp [eventBody]

theorem encodeSystemEvent_eq (h : encodeSystemEvent x = .ok bs) : bs = toBytes 2 12 ++ eventBody x := by
  simp only [encodeSystemEvent, bind_eq_ok, pack_eq_ok, intToBytes_eq_ok, ordByte_eq_ok] at h
  obtain ⟨_, ⟨-, rfl⟩, _, ⟨-, rfl⟩, _, ⟨-, rfl⟩, _, ⟨-, rfl⟩, _, ⟨-, rfl⟩, h⟩ := h
  rw [← Except.ok.inj h, ← List.nil_append (List.replicate 12 0),
    setSlice_zeros (m := 11) (by simp) (by simp), setSlice_zeros (m := 9) (by simp) (by simp),
    setSlice_zeros (m := 7) (by simp) (by simp), setSlice_zeros (m := 1) (by simp) (by simp),
    setSlice_zeros (m := 0) (by simp) (by simp), List.replicate_zero, List.append_nil, List.nil_append, eventBody]
  rfl

/-- The message as the parser frames it. -/
def eventMsg (x : SystemEventArgs) : ItchMsg where
  body := eventBody x
  nonempty := by rw [length_eventBody]; decide
  fits := by rw [length_eventBody]; decide
  complete h := by
    have htype : (eventBody x).getD 0 0 = msgTypeSystemEvent := rfl
    rw [htype] at h
    cases h

/-- No parser gives it. -/
theorem pulse_eventMsg (x : SystemEventArgs) : (eventMsg x).pulse = [] := rfl

theorem encode_eventMsg (x : SystemEventArgs) : (eventMsg x).encode = toBytes 2 12 ++ eventBody x := by
  have hlen : (eventMsg x).body.length = 12 := length_eventBody x
  rw [ItchMsg.encode, hlen]
  rfl

end SystemEvent

/-! ## calls -/

/-- A message that a test sends. -/
inductive Call where
  | addOrder (x : AddOrderArgs)
  | systemEvent (x : SystemEventArgs)

namespace Call

/-- Its bytes. -/
def encode : Call → Except PyError (List Byte)
  | addOrder x => encodeAddOrder x
  | systemEvent x => encodeSystemEvent x

/-- What the parser of the second version is to give. -/
def outputs : Call → List ItchParserV2.Fields
  | addOrder x => [(message x).outputs]
  | systemEvent _ => []

/-- The message as the parser frames it. -/
def msg : Call → ItchMsg
  | addOrder x => addOrderMsg x
  | systemEvent x => eventMsg x

/-- A message alone in its packet may end anywhere in a beat. -/
theorem aligned_alone : ∀ m ∈ ([] : List ItchMsg), m.encode.length % 8 = 0 :=
  fun _ hm => absurd hm List.not_mem_nil

/-- Its packet. -/
def packet (c : Call) : Packet where
  messages := []
  last := c.msg
  aligned := aligned_alone

variable {c : Call} {bs : List Byte}

theorem encode_eq (h : c.encode = .ok bs) : bs = c.packet.encode := by
  rw [Packet.encode, Packet.all, packet, List.nil_append, List.flatMap_singleton]
  cases c with
  | addOrder x => exact (encodeAddOrder_eq_ok.mp h).2.trans (encode_addOrderMsg x).symm
  | systemEvent x => exact (encodeSystemEvent_eq h).trans (encode_eventMsg x).symm

theorem pulse_eq (h : c.encode = .ok bs) : c.msg.pulse = c.outputs := by
  cases c with
  | addOrder x => exact pulse_addOrderMsg (encodeAddOrder_eq_ok.mp h).1
  | systemEvent x => exact pulse_eventMsg x

end Call

/-- The packets of calls, one after the other on the stream. -/
theorem brings_calls {cs : List Call} {bss : List (List Byte)}
    (h : List.Forall₂ (fun c bs => c.encode = .ok bs) cs bss) :
    Brings (bss.flatMap Axi4StreamDriver.send) (cs.map Call.packet) := by
  induction h with
  | nil => exact .nil
  | @cons c bs cs bss hc _ ih =>
      have hne : bs ≠ [] := by
        rw [Call.encode_eq hc]
        simp [Packet.encode, Packet.all, ItchMsg.encode]
      refine .cons _ _ _ _ ?_ ih
      rw [← Call.encode_eq hc]
      exact Axi4StreamDriver.words_send hne

theorem pulses_calls {cs : List Call} {bss : List (List Byte)}
    (h : List.Forall₂ (fun c bs => c.encode = .ok bs) cs bss) :
    ((cs.map Call.packet).flatMap Packet.all).flatMap ItchMsg.pulse = cs.flatMap Call.outputs := by
  induction h with
  | nil => rfl
  | @cons c bs cs bss hc _ ih =>
      rw [List.map_cons, List.flatMap_cons, List.flatMap_append, ih, List.flatMap_cons, ← Call.pulse_eq hc]
      congr 1
      exact List.append_nil _

/-- The Add Order that the parser of the first version is to give. -/
def addOrder? : Call → Option GoldenModel.AddOrder
  | .addOrder x => some ⟨x.orderRef.toNat, if x.side = 'B' then 1 else 0, x.price.toNat⟩
  | .systemEvent _ => none

theorem toAddOrder_outputs {c : Call} {bs : List Byte} (h : c.encode = .ok bs) :
    c.outputs.filterMap GoldenModel.toAddOrder = (addOrder? c).toList := by
  cases c with
  | systemEvent x => rfl
  | addOrder x =>
      have hx : Encodable x := (encodeAddOrder_eq_ok.mp h).1
      have hside : (BitVec.ofNat 8 x.side.toNat == 0x42#8).toNat = if x.side = 'B' then 1 else 0 := by
        have hlt := hx.side
        by_cases hb : x.side = 'B'
        · rw [if_pos hb, hb]
          rfl
        · have hne : (BitVec.ofNat 8 x.side.toNat == 0x42#8) = false := by
            refine beq_eq_false_iff_ne.mpr fun he => hb ?_
            have hnat := congrArg BitVec.toNat he
            rw [BitVec.toNat_ofNat, Nat.mod_eq_of_lt hlt] at hnat
            rw [← Char.ofNat_toNat x.side, hnat]
            rfl
          rw [if_neg hb, hne]
          rfl
      have href := toNat_field hx.orderRef
      have hprice := toNat_field hx.price
      have hadd : GoldenModel.toAddOrder (message x).outputs =
          some ⟨x.orderRef.toNat, if x.side = 'B' then 1 else 0, x.price.toNat⟩ := by
        rw [GoldenModel.toAddOrder]
        refine (if_pos rfl).trans ?_
        rw [← href, ← hprice, ← hside]
        rfl
      rw [Call.outputs, List.filterMap_cons_some hadd]
      rfl

theorem addOrders_calls {cs : List Call} {bss : List (List Byte)}
    (h : List.Forall₂ (fun c bs => c.encode = .ok bs) cs bss) :
    (cs.flatMap Call.outputs).filterMap GoldenModel.toAddOrder = cs.filterMap addOrder? := by
  induction h with
  | nil => rfl
  | @cons c bs cs bss hc _ ih =>
      rw [List.flatMap_cons, List.filterMap_append, ih, toAddOrder_outputs hc, List.filterMap_cons]
      cases addOrder? c <;> rfl

/-- **Encoder and parsers**: when the beats taken are those of calls, both parsers have given the
Add Orders two cycles later, with the arguments. -/
theorem sent_parsed {i : Nat → ItchParserIn} {n : Nat} {cs : List Call} {bss : List (List Byte)}
    (hcalls : List.Forall₂ (fun c bs => c.encode = .ok bs) cs bss)
    (hbeats : GoldenModel.beats i n = bss.flatMap Axi4StreamDriver.send) :
    GoldenModel.addOrders i (n + 2) = cs.filterMap addOrder? ∧
    ItchParserV2.pulsed (ItchParserV2.started fun _ => 0) (fun k => (i k).toV2) (n + 2) =
      cs.flatMap Call.outputs := by
  have hbrings := brings_calls hcalls
  rw [← hbeats] at hbrings
  have hpulses := pulses_calls hcalls
  constructor
  · rw [GoldenModel.addOrders_packets hbrings, ← List.filterMap_flatMap, hpulses, addOrders_calls hcalls]
  · have htaken := GoldenModel.taken_eq (GoldenModel.shortFrames_of_brings hbrings)
    rw [ItchParserV2.pulsed_packets _ _ (htaken.symm ▸ hbrings), hpulses]

/-- A System Event, and in the third cycle after it an Add Order. -/
def eventThenOrder : List Call :=
  [.systemEvent {}, .addOrder { orderRef := 42, side := 'B', price := 1000 }]

/-- Their bytes. -/
def eventThenOrderBytes : List (List Byte) :=
  [toBytes 2 12 ++ eventBody {}, toBytes 2 36 ++ body { orderRef := 42, side := 'B', price := 1000 }]

/-- The stream, with two cycles without a beat. -/
def eventThenOrderIn (n : Nat) : ItchParserIn :=
  let slots : List (Option ItchParserV2.ItchBeat) :=
    match eventThenOrderBytes.map Axi4StreamDriver.send with
    | [event, order] => event.map some ++ [none, none] ++ order.map some
    | _ => []
  { sAxisTdata := (slots.getD n none).elim 0 (·.tdata)
    sAxisTvalid := (slots.getD n none).isSome
    sAxisTlast := (slots.getD n none).elim false (·.tlast)
    pipelineHold := false }

/-- Both parsers give the order and nothing else. -/
theorem eventThenOrder_parsed :
    (GoldenModel.addOrders eventThenOrderIn 11 = [⟨42, 1, 1000⟩]) ∧
    GoldenModel.addOrders eventThenOrderIn 11 = eventThenOrder.filterMap addOrder? ∧
    ItchParserV2.pulsed (ItchParserV2.started fun _ => 0) (fun k => (eventThenOrderIn k).toV2) 11 =
      eventThenOrder.flatMap Call.outputs := by
  have hcalls : List.Forall₂ (fun (c : Call) bs => c.encode = .ok bs) eventThenOrder eventThenOrderBytes :=
    .cons rfl (.cons (encodeAddOrder_eq_ok.mpr ⟨⟨by decide, by decide, by decide, by decide, by decide, by decide,
      by simp, by decide⟩, rfl⟩) .nil)
  exact ⟨by decide +kernel, sent_parsed hcalls (n := 9) (by decide +kernel)⟩

end ItchDecoder

end Lliu
