import Mathlib.Data.List.DropRight
import Lliu.Hdl.Bytes
import Lliu.Pkg

/-!
# Lliu.ItchDecoder

`tb/cocotb/utils/itch_decoder.py`: how the tests make Add Orders and System Events, and how they
read Add Orders back.  A `str` is the list of its characters.
-/

namespace Lliu

open Hdl

namespace ItchDecoder

/-- `MSG_TYPE_SYSTEM_EVENT`. -/
def msgTypeSystemEvent : BitVec 8 := 0x53

/-- `ADD_ORDER_LEN`. -/
def addOrderLen : Nat := 36

/-! ## Python -/

/-- What a call can raise. -/
inductive PyError where
  | structError
  | overflowError
  | valueError
  | unicodeEncodeError
  | unicodeDecodeError
  deriving DecidableEq, Repr

/-- `struct.pack` of an unsigned field of `n` bytes. -/
def pack (n : Nat) (v : Int) : Except PyError (List Byte) :=
  if 0 ≤ v ∧ v < 256 ^ n then .ok (toBytes n v.toNat) else .error .structError

/-- `int.to_bytes`. -/
def intToBytes (n : Nat) (v : Int) : Except PyError (List Byte) :=
  if 0 ≤ v ∧ v < 256 ^ n then .ok (toBytes n v.toNat) else .error .overflowError

/-- The byte that `ord` is stored in. -/
def ordByte (c : Char) : Except PyError Byte :=
  if c.toNat < 256 then .ok (BitVec.ofNat 8 c.toNat) else .error .valueError

/-- `.encode('ascii')`. -/
def encodeAscii (s : List Char) : Except PyError (List Byte) :=
  if s.all (·.toNat < 128) then .ok (s.map fun c => BitVec.ofNat 8 c.toNat)
  else .error .unicodeEncodeError

/-- `.decode('ascii')`. -/
def decodeAscii (bs : List Byte) : Except PyError (List Char) :=
  if bs.all (·.toNat < 128) then .ok (bs.map fun b => Char.ofNat b.toNat)
  else .error .unicodeDecodeError

/-- `.ljust`. -/
def ljust (n : Nat) (s : List Char) : List Char := s ++ List.replicate (n - s.length) ' '

/-- The white space of ASCII. -/
def isSpace (c : Char) : Bool :=
  (9 ≤ c.toNat && c.toNat ≤ 13) || (28 ≤ c.toNat && c.toNat ≤ 32)

/-- `.rstrip()`. -/
def rstrip (s : List Char) : List Char := s.rdropWhile isSpace

/-- The assignment to a slice, with as many bytes. -/
def setSlice (body : List Byte) (k : Nat) (bs : List Byte) : List Byte :=
  body.take k ++ bs ++ body.drop (k + bs.length)

/-! ## encoding -/

/-- The arguments of `encode_add_order`. -/
structure AddOrderArgs where
  orderRef : Int
  side : Char
  price : Int
  stock : List Char := ['A', 'A', 'P', 'L', ' ', ' ', ' ', ' ']
  shares : Int := 100
  stockLocate : Int := 1
  trackingNumber : Int := 0
  timestamp : Int := 0
  deriving DecidableEq

/-- `encode_add_order`. -/
def encodeAddOrder (x : AddOrderArgs) : Except PyError (List Byte) := do
  let body := List.replicate addOrderLen 0
  let body := setSlice body 0 [itchMsgAddOrder]
  let body := setSlice body 1 (← pack 2 x.stockLocate)
  let body := setSlice body 3 (← pack 2 x.trackingNumber)
  let body := setSlice body 5 (← intToBytes 6 x.timestamp)
  let body := setSlice body 11 (← pack 8 x.orderRef)
  let body := setSlice body 19 [← ordByte x.side]
  let body := setSlice body 20 (← pack 4 x.shares)
  let body := setSlice body 24 (← encodeAscii ((ljust 8 x.stock).take 8))
  let body := setSlice body 32 (← pack 4 x.price)
  let lengthPrefix ← pack 2 addOrderLen
  return lengthPrefix ++ body

/-- The arguments of `encode_system_event`. -/
structure SystemEventArgs where
  eventCode : Char := 'O'
  stockLocate : Int := 0
  trackingNumber : Int := 0
  timestamp : Int := 0
  deriving DecidableEq

/-- `encode_system_event`. -/
def encodeSystemEvent (x : SystemEventArgs) : Except PyError (List Byte) := do
  let bodyLen := 12
  let body := List.replicate bodyLen 0
  let body := setSlice body 0 [msgTypeSystemEvent]
  let body := setSlice body 1 (← pack 2 x.stockLocate)
  let body := setSlice body 3 (← pack 2 x.trackingNumber)
  let body := setSlice body 5 (← intToBytes 6 x.timestamp)
  let body := setSlice body 11 [← ordByte x.eventCode]
  let lengthPrefix ← pack 2 bodyLen
  return lengthPrefix ++ body

/-! ## decoding -/

/-- The dictionary of `decode_add_order`. -/
structure AddOrderDict where
  messageType : Nat
  stockLocate : Nat
  trackingNumber : Nat
  timestamp : Nat
  orderRef : Nat
  side : Char
  shares : Nat
  stock : List Char
  price : Nat
  deriving DecidableEq, Repr

/-- `decode_add_order`. -/
def decodeAddOrder (raw : List Byte) : Except PyError (Option AddOrderDict) :=
  let body :=
    if 38 ≤ raw.length ∧ fromBytes (raw.take 2) = addOrderLen then raw.drop 2 else raw
  if body.length < addOrderLen then .ok none
  else if body.getD 0 0 ≠ itchMsgAddOrder then .ok none
  else do
    let stock ← decodeAscii ((body.drop 24).take 8)
    return some
      { messageType := (body.getD 0 0).toNat
        stockLocate := fromBytes ((body.drop 1).take 2)
        trackingNumber := fromBytes ((body.drop 3).take 2)
        timestamp := fromBytes ((body.drop 5).take 6)
        orderRef := fromBytes ((body.drop 11).take 8)
        side := Char.ofNat (body.getD 19 0).toNat
        shares := fromBytes ((body.drop 20).take 4)
        stock := rstrip stock
        price := fromBytes ((body.drop 32).take 4) }

end ItchDecoder

end Lliu
