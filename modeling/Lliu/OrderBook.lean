import Mathlib.Logic.Function.Basic
import Lliu.Pkg

/-!
# Lliu.OrderBook

`order_book.sv`: the order book behind a four-level price array and an
open-addressed table of order references.

* `Book` holds the arrays that outlive an operation: `ref_mem`, `book_mem`
  with its shadow `l2_cache`, the four BBO arrays and the collision counter.
* `UpdateRegs` are the registers that state `S_UPDATE` reads; what it writes is
  a function of them, `UpdateRegs.updateBook` and `UpdateRegs.refWrite`.
* `OrderBook` is the whole register state and `OrderBook.step` its clock edge.

`ref_mem`, `book_mem` and `l2_cache` have no reset in the source; the model
starts from zeroed tables.
-/

namespace Lliu

/-! ## messages -/

/-- The parsed message presented by `itch_parser_v2`. -/
structure BookMsg where
  msgType : BitVec 8
  orderRef : OrderRef
  newOrderRef : OrderRef
  price : BitVec 32
  shares : BitVec 32
  side : Bool
  symId : SymId
  deriving DecidableEq, Repr

/-- The operations the book distinguishes. -/
inductive BookOp where
  | add | cancel | delete | replace | execute
  deriving DecidableEq, Repr

/-- The operation of a message type; trades and unknown types have none. -/
def bookOp (msgType : BitVec 8) : Option BookOp :=
  if msgType = 0x41#8 ∨ msgType = 0x46#8 then some .add
  else if msgType = 0x58#8 then some .cancel
  else if msgType = 0x44#8 then some .delete
  else if msgType = 0x55#8 then some .replace
  else if msgType = 0x45#8 ∨ msgType = 0x43#8 then some .execute
  else none

/-- The low 24 bits of the share count; bits 31:24 are reserved. -/
def BookMsg.shares24 (m : BookMsg) : BitVec 24 := m.shares.setWidth 24

/-! ## the hash -/

/-- One bit of the CRC, most significant data bit first. -/
def crc17Bit (crc : BitVec 17) (bit : Bool) : BitVec 17 :=
  if crc.getLsbD 16 ^^ bit then (crc <<< 1) ^^^ 0x1002D#17 else crc <<< 1

/-- `crc17`: polynomial `0x1002D`, initial value zero. -/
@[irreducible] def crc17 (data : BitVec 64) : BitVec 17 :=
  (List.range 64).foldl (fun crc i => crc17Bit crc (data.getLsbD (63 - i))) 0#17

/-- `OB_MAX_PROBE`: extra slots probed on a collision. -/
def obMaxProbe : Nat := 4

/-- The table address probed at distance `p` from the hash. -/
def slotOfHash (hash : BitVec 17) (p : BitVec 3) : RefAddr :=
  (hash + p.setWidth 17).setWidth obRefTableBits

/-! ## storage -/

/-- An entry of `ref_mem`. -/
structure RefEntry where
  valid : Bool
  orderRef : OrderRef
  price : BitVec 32
  shares : BitVec 24
  side : Bool
  deriving DecidableEq, Repr

/-- `128'h0`. -/
def RefEntry.zero : RefEntry where
  valid := false
  orderRef := 0
  price := 0
  shares := 0
  side := false

/-- An entry of `book_mem`. -/
structure Level where
  price : BitVec 32
  shares : BitVec 24
  deriving DecidableEq, Repr

/-- `56'h0`. -/
def Level.zero : Level where
  price := 0
  shares := 0

/-- The arrays of the order book. -/
structure Book where
  refMem : RefAddr → RefEntry
  bookMem : Fin obLevels → SymId × Bool → Level
  l2Cache : Fin obLevels → SymId × Bool → Level
  bboBidPriceR : SymId → BitVec 32
  bboAskPriceR : SymId → BitVec 32
  bboBidSizeR : SymId → BitVec 24
  bboAskSizeR : SymId → BitVec 24
  collisionCount : BitVec 32

namespace Book

/-- Zeroed tables. -/
def zero : Book where
  refMem := fun _ => RefEntry.zero
  bookMem := fun _ _ => Level.zero
  l2Cache := fun _ _ => Level.zero
  bboBidPriceR := fun _ => 0
  bboAskPriceR := fun _ => 0
  bboBidSizeR := fun _ => 0
  bboAskSizeR := fun _ => 0
  collisionCount := 0

/-- The BBO price register of a symbol's side (`true` is the bid side). -/
def bboPrice (b : Book) (side : Bool) (sym : SymId) : BitVec 32 :=
  if side then b.bboBidPriceR sym else b.bboAskPriceR sym

/-- The BBO size register of a symbol's side. -/
def bboSize (b : Book) (side : Bool) (sym : SymId) : BitVec 24 :=
  if side then b.bboBidSizeR sym else b.bboAskSizeR sym

/-- Write the BBO registers of a symbol's side. -/
def writeBbo (b : Book) (side : Bool) (sym : SymId) (price : BitVec 32) (size : BitVec 24) :
    Book :=
  if side then
    { b with
      bboBidPriceR := Function.update b.bboBidPriceR sym price
      bboBidSizeR := Function.update b.bboBidSizeR sym size }
  else
    { b with
      bboAskPriceR := Function.update b.bboAskPriceR sym price
      bboAskSizeR := Function.update b.bboAskSizeR sym size }

/-- Write one entry of one level of `book_mem`, mirrored to `l2_cache`. -/
def writeLevel (b : Book) (lvl : Fin obLevels) (sym : SymId) (side : Bool) (e : Level) : Book :=
  { b with
    bookMem := Function.update b.bookMem lvl (Function.update (b.bookMem lvl) (sym, side) e)
    l2Cache := Function.update b.l2Cache lvl (Function.update (b.l2Cache lvl) (sym, side) e) }

/-- Write one entry of `ref_mem`. -/
def writeRef (b : Book) (a : RefAddr) (e : RefEntry) : Book :=
  { b with refMem := Function.update b.refMem a e }

/-- Count `n` collisions. -/
def addCollisions (b : Book) (n : Nat) : Book :=
  { b with collisionCount := b.collisionCount + BitVec.ofNat 32 n }

end Book

/-! ## the update -/

/-- The registers that `S_UPDATE` and `S_UPDATE2` read. -/
structure UpdateRegs where
  op : Option BookOp
  orderRef : OrderRef
  newOrderRef : OrderRef
  price : BitVec 32
  shares : BitVec 24
  side : Bool
  symId : SymId
  newHash : BitVec 17
  resolvedAddr : RefAddr
  refPrice : BitVec 32
  refSide : Bool
  newSh : BitVec 24
  newShZero : Bool
  targetLevel : Fin obLevels
  targetFound : Bool
  bidBetter : Bool
  askBetter : Bool
  refEqBid : Bool
  refEqAsk : Bool

namespace UpdateRegs

/-- `bbo_*_better_r` of the operation's side. -/
def better (u : UpdateRegs) : Bool := if u.side then u.bidBetter else u.askBetter

/-- `bbo_ref_eq_*_r` of the reference entry's side. -/
def refEq (u : UpdateRegs) : Bool := if u.refSide then u.refEqBid else u.refEqAsk

/-- Write the target level, when there is one. -/
def writeTarget (u : UpdateRegs) (side : Bool) (e : Level) (b : Book) : Book :=
  if u.targetFound then b.writeLevel u.targetLevel u.symId side e else b

/-- The BBO update of an added order: a better price wins. -/
def bboAdd (u : UpdateRegs) (b : Book) : Book :=
  if u.better then b.writeBbo u.side u.symId u.price u.shares else b

/-- The BBO update of a removed order: reset if it was at the BBO price. -/
def bboClear (u : UpdateRegs) (b : Book) : Book :=
  if u.refEq then b.writeBbo u.refSide u.symId 0 0 else b

/-- The writes of `S_UPDATE` to the level and BBO arrays, in the order of the
source: the later of two writes to one entry wins. -/
def updateBook (u : UpdateRegs) (b : Book) : Book :=
  match u.op with
  | some .add => u.bboAdd (u.writeTarget u.side ⟨u.price, u.shares⟩ b)
  | some .cancel =>
      let b' := u.writeTarget u.refSide ⟨u.refPrice, u.newSh⟩ b
      if u.newShZero then u.bboClear b' else b'
  | some .delete => u.bboClear (u.writeTarget u.refSide Level.zero b)
  | some .replace =>
      u.bboAdd (u.bboClear (u.writeTarget u.side ⟨u.price, u.shares⟩
        (u.writeTarget u.refSide Level.zero b)))
  | some .execute =>
      if u.newShZero then u.bboClear (u.writeTarget u.refSide Level.zero b)
      else u.writeTarget u.refSide ⟨u.refPrice, u.newSh⟩ b
  | none => b

/-- The entry of the resolved order with its shares reduced. -/
def reducedEntry (u : UpdateRegs) : RefEntry where
  valid := true
  orderRef := u.orderRef
  price := u.refPrice
  shares := u.newSh
  side := u.refSide

/-- The reference table write that `S_UPDATE` puts on the write port. -/
def refWrite (u : UpdateRegs) : Option (RefAddr × RefEntry) :=
  match u.op with
  | some .add => some (u.resolvedAddr, ⟨true, u.orderRef, u.price, u.shares, u.side⟩)
  | some .cancel => some (u.resolvedAddr, u.reducedEntry)
  | some .delete => some (u.resolvedAddr, RefEntry.zero)
  | some .replace =>
      some (u.newHash.setWidth obRefTableBits, ⟨true, u.newOrderRef, u.price, u.shares, u.side⟩)
  | some .execute =>
      some (u.resolvedAddr, if u.newShZero then RefEntry.zero else u.reducedEntry)
  | none => none

end UpdateRegs

/-! ## comparisons -/

/-- The priority encoder of `S_SCAN_BOOK3`: the first set match flag. -/
def firstMatch (matchVec : Fin obLevels → Bool) : Option (Fin obLevels) :=
  (List.finRange obLevels).find? matchVec

/-- `bbo_bid_better_r`. -/
def bidBetter (price snap : BitVec 32) : Bool := snap.ult price

/-- `bbo_ask_better_r`. -/
def askBetter (price snap : BitVec 32) : Bool := snap == 0#32 || price.ult snap

/-- `new_sh_r`: the shares left, never below zero. -/
def newSh (refShares shares : BitVec 24) : BitVec 24 :=
  if shares.ult refShares then refShares - shares else 0#24

/-- `new_sh_zero_r`. -/
def newShZero (refShares shares : BitVec 24) : Bool := !shares.ult refShares

/-! ## the state machine -/

/-- The FSM states of `order_book`. -/
inductive ObState where
  | sIdle | sReadRef1 | sReadRef2 | sProcess | sMatch | sScanBook | sScanBook2 | sScanBook3
  | sUpdate | sUpdate2 | sDone
  deriving DecidableEq, Repr

/-- The inputs of `order_book`. -/
structure OrderBookIn where
  msg : BookMsg
  fieldsValid : Bool
  bboQuerySym : SymId

/-- The registers of `order_book`. -/
structure OrderBook where
  state : ObState
  book : Book
  opMsgType : BitVec 8
  opOrderRef : OrderRef
  opNewOrderRef : OrderRef
  opPrice : BitVec 32
  opShares : BitVec 24
  opSide : Bool
  opSymId : SymId
  opHash : BitVec 17
  opNewHash : BitVec 17
  probeCnt : BitVec 3
  opResolvedAddr : RefAddr
  refRdData : RefEntry
  refRdAddr : RefAddr
  refWrEn : Bool
  refWrAddr : RefAddr
  refWrData : RefEntry
  targetLevel : Fin obLevels
  targetFound : Bool
  opRefPrice : BitVec 32
  opRefShares : BitVec 24
  opRefSide : Bool
  isAddR : Bool
  opBookSideR : Bool
  isAddOpR : Bool
  refMatchR : Bool
  refEmptyR : Bool
  matchVec : Fin obLevels → Bool
  bookEntryR : Fin obLevels → Level
  newShR : BitVec 24
  newShZeroR : Bool
  bboBidPriceSnapR : BitVec 32
  bboAskPriceSnapR : BitVec 32
  bboBidSizeSnapR : BitVec 24
  bboAskSizeSnapR : BitVec 24
  bboBidBetterR : Bool
  bboAskBetterR : Bool
  bboRefEqBidR : Bool
  bboRefEqAskR : Bool
  collisionFlag : Bool
  bboValid : Bool
  bboSymId : SymId
  bboBidPrice : BitVec 32
  bboAskPrice : BitVec 32
  bboBidSize : BitVec 24
  bboAskSize : BitVec 24
  l2BidPrice : Fin 4 → BitVec 32
  l2BidSize : Fin 4 → BitVec 24
  l2AskPrice : Fin 4 → BitVec 32
  l2AskSize : Fin 4 → BitVec 24

namespace OrderBook

/-- The registers after reset, with zeroed tables. -/
def reset : OrderBook where
  state := .sIdle
  book := Book.zero
  opMsgType := 0
  opOrderRef := 0
  opNewOrderRef := 0
  opPrice := 0
  opShares := 0
  opSide := false
  opSymId := 0
  opHash := 0
  opNewHash := 0
  probeCnt := 0
  opResolvedAddr := 0
  refRdData := RefEntry.zero
  refRdAddr := 0
  refWrEn := false
  refWrAddr := 0
  refWrData := RefEntry.zero
  targetLevel := 0
  targetFound := false
  opRefPrice := 0
  opRefShares := 0
  opRefSide := false
  isAddR := false
  opBookSideR := false
  isAddOpR := false
  refMatchR := false
  refEmptyR := false
  matchVec := fun _ => false
  bookEntryR := fun _ => Level.zero
  newShR := 0
  newShZeroR := false
  bboBidPriceSnapR := 0
  bboAskPriceSnapR := 0
  bboBidSizeSnapR := 0
  bboAskSizeSnapR := 0
  bboBidBetterR := false
  bboAskBetterR := false
  bboRefEqBidR := false
  bboRefEqAskR := false
  collisionFlag := false
  bboValid := false
  bboSymId := 0
  bboBidPrice := 0
  bboAskPrice := 0
  bboBidSize := 0
  bboAskSize := 0
  l2BidPrice := fun _ => 0
  l2BidSize := fun _ => 0
  l2AskPrice := fun _ => 0
  l2AskSize := fun _ => 0

/-- `book_ready`. -/
def bookReady (s : OrderBook) : Bool := s.state == .sIdle

/-- The registers as `S_UPDATE` reads them. -/
def updateRegs (s : OrderBook) : UpdateRegs where
  op := bookOp s.opMsgType
  orderRef := s.opOrderRef
  newOrderRef := s.opNewOrderRef
  price := s.opPrice
  shares := s.opShares
  side := s.opSide
  symId := s.opSymId
  newHash := s.opNewHash
  resolvedAddr := s.opResolvedAddr
  refPrice := s.opRefPrice
  refSide := s.opRefSide
  newSh := s.newShR
  newShZero := s.newShZeroR
  targetLevel := s.targetLevel
  targetFound := s.targetFound
  bidBetter := s.bboBidBetterR
  askBetter := s.bboAskBetterR
  refEqBid := s.bboRefEqBidR
  refEqAsk := s.bboRefEqAskR

/-- What every clock edge does: the query outputs are loaded, the reference
table takes the write on its port, and the pulses fall. -/
def advance (s : OrderBook) (i : OrderBookIn) : OrderBook :=
  { s with
    book := if s.refWrEn then s.book.writeRef s.refWrAddr s.refWrData else s.book
    bboBidPrice := s.book.bboBidPriceR i.bboQuerySym
    bboAskPrice := s.book.bboAskPriceR i.bboQuerySym
    bboBidSize := s.book.bboBidSizeR i.bboQuerySym
    bboAskSize := s.book.bboAskSizeR i.bboQuerySym
    l2BidPrice := fun k => (s.book.l2Cache k (i.bboQuerySym, true)).price
    l2BidSize := fun k => (s.book.l2Cache k (i.bboQuerySym, true)).shares
    l2AskPrice := fun k => (s.book.l2Cache k (i.bboQuerySym, false)).price
    l2AskSize := fun k => (s.book.l2Cache k (i.bboQuerySym, false)).shares
    bboValid := false
    collisionFlag := false
    refWrEn := false }

/-- `S_IDLE`: latch an operation; trades and unknown messages are no-ops. -/
def stepIdle (i : OrderBookIn) (d : OrderBook) : OrderBook :=
  if i.fieldsValid then
    { d with
      opMsgType := i.msg.msgType
      opOrderRef := i.msg.orderRef
      opNewOrderRef := i.msg.newOrderRef
      opPrice := i.msg.price
      opShares := i.msg.shares24
      opSide := i.msg.side
      opSymId := i.msg.symId
      opHash := crc17 i.msg.orderRef
      opNewHash := crc17 i.msg.newOrderRef
      probeCnt := 0
      isAddOpR := bookOp i.msg.msgType == some .add
      state := if (bookOp i.msg.msgType).isSome then .sReadRef1 else .sIdle }
  else d

/-- `S_PROCESS`: register the comparisons on the entry read. -/
def stepProcess (s : OrderBook) (d : OrderBook) : OrderBook :=
  { d with
    refMatchR := s.refRdData.valid && s.refRdData.orderRef == s.opOrderRef
    refEmptyR := !s.refRdData.valid
    opRefSide := s.refRdData.side
    opRefPrice := s.refRdData.price
    opRefShares := s.refRdData.shares
    opResolvedAddr := s.refRdAddr
    newShR := newSh s.refRdData.shares s.opShares
    newShZeroR := newShZero s.refRdData.shares s.opShares
    state := .sMatch }

/-- Count a collision in `collision_count`. -/
def collide (d : OrderBook) : OrderBook :=
  { d with collisionFlag := true, book := d.book.addCollisions 1 }

/-- `S_MATCH`: proceed to the book, probe the next slot, or drop. -/
def stepMatch (s : OrderBook) (d : OrderBook) : OrderBook :=
  if s.isAddOpR then
    if s.refEmptyR || s.refMatchR then
      { d with isAddR := true, opBookSideR := s.opSide, state := .sScanBook }
    else if s.probeCnt = BitVec.ofNat 3 obMaxProbe then { d.collide with state := .sDone }
    else { d with probeCnt := s.probeCnt + 1, state := .sReadRef1 }
  else
    if s.refEmptyR then { d with state := .sDone }
    else if s.refMatchR then
      { d with isAddR := false, opBookSideR := s.opRefSide, state := .sScanBook }
    else if s.probeCnt = BitVec.ofNat 3 obMaxProbe then { d.collide with state := .sDone }
    else { d.collide with probeCnt := s.probeCnt + 1, state := .sReadRef1 }

/-- `S_SCAN_BOOK`: read the levels and the BBO of the symbol. -/
def stepScanBook (s : OrderBook) (d : OrderBook) : OrderBook :=
  { d with
    bookEntryR := fun k => s.book.bookMem k (s.opSymId, s.opBookSideR)
    bboBidPriceSnapR := s.book.bboBidPriceR s.opSymId
    bboAskPriceSnapR := s.book.bboAskPriceR s.opSymId
    bboBidSizeSnapR := s.book.bboBidSizeR s.opSymId
    bboAskSizeSnapR := s.book.bboAskSizeR s.opSymId
    state := .sScanBook2 }

/-- `S_SCAN_BOOK2`: an add looks for an empty level, a modification for the
level of its price. -/
def stepScanBook2 (s : OrderBook) (d : OrderBook) : OrderBook :=
  { d with
    matchVec := fun k =>
      if s.isAddR then (s.bookEntryR k).shares == 0#24
      else (s.bookEntryR k).price == s.opRefPrice
    state := .sScanBook3 }

/-- `S_SCAN_BOOK3`: pick the level and compare with the BBO. -/
def stepScanBook3 (s : OrderBook) (d : OrderBook) : OrderBook :=
  { d with
    targetLevel := (firstMatch s.matchVec).getD 0
    targetFound := (firstMatch s.matchVec).isSome
    bboBidBetterR := bidBetter s.opPrice s.bboBidPriceSnapR
    bboAskBetterR := askBetter s.opPrice s.bboAskPriceSnapR
    bboRefEqBidR := s.opRefPrice == s.bboBidPriceSnapR
    bboRefEqAskR := s.opRefPrice == s.bboAskPriceSnapR
    state := .sUpdate }

/-- Put a write on the reference table's port. -/
def portWrite (d : OrderBook) : Option (RefAddr × RefEntry) → OrderBook
  | none => d
  | some w => { d with refWrEn := true, refWrAddr := w.1, refWrData := w.2 }

/-- `S_UPDATE`: write the arrays; a replace needs a second table write. -/
def stepUpdate (s : OrderBook) (d : OrderBook) : OrderBook :=
  let u := s.updateRegs
  { d.portWrite u.refWrite with
    book := u.updateBook d.book
    bboValid := u.op.isSome
    bboSymId := if u.op.isSome then s.opSymId else s.bboSymId
    state := if u.op = some .replace then .sUpdate2 else .sDone }

/-- `S_UPDATE2`: invalidate the slot of the replaced order. -/
def stepUpdate2 (s : OrderBook) (d : OrderBook) : OrderBook :=
  { d.portWrite (some (s.opResolvedAddr, RefEntry.zero)) with state := .sDone }

/-- One clock edge of the order book. -/
def step (s : OrderBook) (i : OrderBookIn) : OrderBook :=
  let d := s.advance i
  match s.state with
  | .sIdle => stepIdle i d
  | .sReadRef1 =>
      { d with refRdAddr := slotOfHash s.opHash s.probeCnt, state := .sReadRef2 }
  | .sReadRef2 => { d with refRdData := s.book.refMem s.refRdAddr, state := .sProcess }
  | .sProcess => s.stepProcess d
  | .sMatch => s.stepMatch d
  | .sScanBook => s.stepScanBook d
  | .sScanBook2 => s.stepScanBook2 d
  | .sScanBook3 => s.stepScanBook3 d
  | .sUpdate => s.stepUpdate d
  | .sUpdate2 => s.stepUpdate2 d
  | .sDone => { d with state := .sIdle }

end OrderBook

end Lliu
