import Lliu.Hdl.Run
import Lliu.Hdl.Probe
import Lliu.OrderBook

/-!
# Lliu.OrderBook.Exec

One operation of the order book as a transaction.  `Book.exec` is the book after
a message: the reference table is searched, and the resolved order is updated
with the comparisons of the old book.

The state machine takes between five and twenty-seven cycles for it.  `Phase`
says what its registers hold on the way, `Phase.step` that each cycle moves to
the next phase or is done with the book of `exec`, and `book_of_ready` that in
every cycle in which the book is ready it is the fold of `exec` over the
messages accepted so far.
-/

namespace Lliu

open Hdl

/-! ## the transaction -/

/-- The table address probed in step `p` for an order reference. -/
def refSlot (r : OrderRef) (p : Nat) : RefAddr := slotOfHash (crc17 r) (BitVec.ofNat 3 p)

namespace Book

/-- The reference stored at an address. -/
def keyAt (b : Book) (a : RefAddr) : Option OrderRef :=
  if (b.refMem a).valid then some (b.refMem a).orderRef else none

/-- The search of the reference table. -/
def lookup (b : Book) (r : OrderRef) : ProbeResult := find refSlot (obMaxProbe + 1) b.keyAt r

/-- The probe step at which a message goes on to the book.  An add also takes a
vacant slot. -/
def resolve (b : Book) (m : BookMsg) : Option Nat :=
  match b.lookup m.orderRef with
  | .hit p => some p
  | .vacant p => if bookOp m.msgType = some .add then some p else none
  | .full => none

/-- The collisions a message counts: an add only when it is dropped, the other
operations for every slot of another order they look at. -/
def collisions (b : Book) (m : BookMsg) : Nat :=
  match b.lookup m.orderRef with
  | .hit p | .vacant p => if bookOp m.msgType = some .add then 0 else p
  | .full => if bookOp m.msgType = some .add then 1 else obMaxProbe + 1

/-- The book side a message works on. -/
def bookSide (b : Book) (m : BookMsg) (a : RefAddr) : Bool :=
  if bookOp m.msgType = some .add then m.side else (b.refMem a).side

/-- The level a message works on. -/
def targetLevel (b : Book) (m : BookMsg) (a : RefAddr) : Option (Fin obLevels) :=
  firstMatch fun k =>
    if bookOp m.msgType = some .add then (b.bookMem k (m.symId, b.bookSide m a)).shares == 0#24
    else (b.bookMem k (m.symId, b.bookSide m a)).price == (b.refMem a).price

/-- The update registers for a message resolved at `a`. -/
def regs (b : Book) (m : BookMsg) (a : RefAddr) : UpdateRegs where
  op := bookOp m.msgType
  orderRef := m.orderRef
  newOrderRef := m.newOrderRef
  price := m.price
  shares := m.shares24
  side := m.side
  symId := m.symId
  newHash := crc17 m.newOrderRef
  resolvedAddr := a
  refPrice := (b.refMem a).price
  refSide := (b.refMem a).side
  newSh := newSh (b.refMem a).shares m.shares24
  newShZero := newShZero (b.refMem a).shares m.shares24
  targetLevel := (b.targetLevel m a).getD 0
  targetFound := (b.targetLevel m a).isSome
  bidBetter := bidBetter m.price (b.bboBidPriceR m.symId)
  askBetter := askBetter m.price (b.bboAskPriceR m.symId)
  refEqBid := (b.refMem a).price == b.bboBidPriceR m.symId
  refEqAsk := (b.refMem a).price == b.bboAskPriceR m.symId

/-- A write on the port of the reference table. -/
def writePort (b : Book) : Option (RefAddr × RefEntry) → Book
  | none => b
  | some w => b.writeRef w.1 w.2

/-- The update of a message resolved at `a`. -/
def update (b : Book) (m : BookMsg) (a : RefAddr) : Book :=
  let u := b.regs m a
  let b' := (u.updateBook b).writePort u.refWrite
  if u.op = some .replace then b'.writeRef a RefEntry.zero else b'

/-- The book with the collisions of `m` counted. -/
def counted (b : Book) (m : BookMsg) : Book := b.addCollisions (b.collisions m)

/-- **One message**: search, then update or drop. -/
def exec (b : Book) (m : BookMsg) : Book :=
  if bookOp m.msgType = none then b
  else
    match b.resolve m with
    | none => b.counted m
    | some p => (b.counted m).update m (refSlot m.orderRef p)

/-- Messages one after the other. -/
def execs (b : Book) (ms : List BookMsg) : Book := ms.foldl exec b

theorem execs_append_singleton (b : Book) (ms : List BookMsg) (m : BookMsg) :
    b.execs (ms ++ [m]) = (b.execs ms).exec m := by
  rw [execs, List.foldl_append]
  rfl

@[simp] theorem addCollisions_zero (b : Book) : b.addCollisions 0 = b := by
  simp [addCollisions]

theorem addCollisions_succ (b : Book) (n : Nat) :
    b.addCollisions (n + 1) = (b.addCollisions n).addCollisions 1 := by
  simp only [addCollisions, BitVec.ofNat_add, BitVec.add_assoc]

end Book

/-! ## the phases of an operation -/

namespace OrderBook

/-- The operation registers hold message `m`. -/
structure Latched (m : BookMsg) (s : OrderBook) : Prop where
  isOp : bookOp m.msgType ≠ none
  msgType : s.opMsgType = m.msgType
  orderRef : s.opOrderRef = m.orderRef
  newOrderRef : s.opNewOrderRef = m.newOrderRef
  price : s.opPrice = m.price
  shares : s.opShares = m.shares24
  side : s.opSide = m.side
  symId : s.opSymId = m.symId
  hash : s.opHash = crc17 m.orderRef
  newHash : s.opNewHash = crc17 m.newOrderRef
  isAdd : s.isAddOpR = (bookOp m.msgType == some .add)

/-- The search has passed `p` slots of other orders. -/
structure Probing (b : Book) (m : BookMsg) (p : Nat) (s : OrderBook) : Prop extends Latched m s where
  le : p ≤ obMaxProbe
  cnt : s.probeCnt = BitVec.ofNat 3 p
  book : s.book = b.addCollisions (if bookOp m.msgType = some .add then 0 else p)
  quiet : s.refWrEn = false
  blocked : ∀ q, q < p → Blocked (fun p => b.keyAt (refSlot m.orderRef p)) m.orderRef q

/-- The registers taken from the reference entry `e` read at address `a`. -/
structure RefRegs (m : BookMsg) (a : RefAddr) (e : RefEntry) (s : OrderBook) : Prop where
  refAddr : s.opResolvedAddr = a
  refPrice : s.opRefPrice = e.price
  refSide : s.opRefSide = e.side
  newSh : s.newShR = newSh e.shares m.shares24
  newShZero : s.newShZeroR = newShZero e.shares m.shares24

/-- The search has ended at address `a`; `b` has the collisions counted. -/
structure Resolved (b : Book) (m : BookMsg) (a : RefAddr) (s : OrderBook) : Prop
    extends Latched m s, RefRegs m a (b.refMem a) s where
  book : s.book = b
  quiet : s.refWrEn = false
  isAddR : s.isAddR = (bookOp m.msgType == some .add)
  bookSide : s.opBookSideR = b.bookSide m a

/-- What the registers hold while message `m` is applied to book `b`. -/
inductive Phase (b : Book) (m : BookMsg) (s : OrderBook) : Prop where
  | readRef1 (p : Nat) (hs : s.state = .sReadRef1) (h : Probing b m p s)
  | readRef2 (p : Nat) (hs : s.state = .sReadRef2) (h : Probing b m p s)
      (haddr : s.refRdAddr = refSlot m.orderRef p)
  | process (p : Nat) (hs : s.state = .sProcess) (h : Probing b m p s)
      (haddr : s.refRdAddr = refSlot m.orderRef p)
      (hdata : s.refRdData = b.refMem (refSlot m.orderRef p))
  | matching (p : Nat) (hs : s.state = .sMatch) (h : Probing b m p s)
      (href : RefRegs m (refSlot m.orderRef p) (b.refMem (refSlot m.orderRef p)) s)
      (hempty : s.refEmptyR = !(b.refMem (refSlot m.orderRef p)).valid)
      (hmatch : s.refMatchR = ((b.refMem (refSlot m.orderRef p)).valid &&
        (b.refMem (refSlot m.orderRef p)).orderRef == m.orderRef))
  | scanBook (p : Nat) (hs : s.state = .sScanBook) (hp : b.resolve m = some p)
      (h : Resolved (b.counted m) m (refSlot m.orderRef p) s)
  | scanBook2 (p : Nat) (hs : s.state = .sScanBook2) (hp : b.resolve m = some p)
      (h : Resolved (b.counted m) m (refSlot m.orderRef p) s)
      (hentry : s.bookEntryR = fun k => b.bookMem k (m.symId, b.bookSide m (refSlot m.orderRef p)))
      (hbid : s.bboBidPriceSnapR = b.bboBidPriceR m.symId)
      (hask : s.bboAskPriceSnapR = b.bboAskPriceR m.symId)
  | scanBook3 (p : Nat) (hs : s.state = .sScanBook3) (hp : b.resolve m = some p)
      (h : Resolved (b.counted m) m (refSlot m.orderRef p) s)
      (hlevel : firstMatch s.matchVec = (b.counted m).targetLevel m (refSlot m.orderRef p))
      (hbid : s.bboBidPriceSnapR = b.bboBidPriceR m.symId)
      (hask : s.bboAskPriceSnapR = b.bboAskPriceR m.symId)
  | updating (p : Nat) (hs : s.state = .sUpdate) (hp : b.resolve m = some p)
      (h : Resolved (b.counted m) m (refSlot m.orderRef p) s)
      (hregs : s.updateRegs = (b.counted m).regs m (refSlot m.orderRef p))
  | updating2 (p : Nat) (hs : s.state = .sUpdate2) (hp : b.resolve m = some p)
      (hop : bookOp m.msgType = some .replace)
      (haddr : s.opResolvedAddr = refSlot m.orderRef p)
      (hbook : (if s.refWrEn then s.book.writeRef s.refWrAddr s.refWrData else s.book) =
        (((b.counted m).regs m (refSlot m.orderRef p)).updateBook (b.counted m)).writePort
          ((b.counted m).regs m (refSlot m.orderRef p)).refWrite)
  | finishing (hs : s.state = .sDone)
      (hbook : (if s.refWrEn then s.book.writeRef s.refWrAddr s.refWrData else s.book) = b.exec m)

/-- Bounds the cycles until the book is ready again. -/
def cyclesLeft (s : OrderBook) : Nat :=
  match s.state with
  | .sIdle => 0
  | .sDone => 1
  | .sUpdate2 => 2
  | .sUpdate => 3
  | .sScanBook3 => 4
  | .sScanBook2 => 5
  | .sScanBook => 6
  | .sMatch => 7 + 4 * (obMaxProbe - s.probeCnt.toNat)
  | .sProcess => 8 + 4 * (obMaxProbe - s.probeCnt.toNat)
  | .sReadRef2 => 9 + 4 * (obMaxProbe - s.probeCnt.toNat)
  | .sReadRef1 => 10 + 4 * (obMaxProbe - s.probeCnt.toNat)

/-- The book is ready and holds `b`. -/
structure Ready (b : Book) (s : OrderBook) : Prop where
  state : s.state = .sIdle
  quiet : s.refWrEn = false
  book : s.book = b

/-! ## one step in each phase -/

section Step

variable {b : Book} {m : BookMsg} {s : OrderBook} {i : OrderBookIn}

/-- The operation registers are only written in `S_IDLE`. -/
theorem op_step (hs : s.state ≠ .sIdle) :
    (s.step i).opMsgType = s.opMsgType ∧ (s.step i).opOrderRef = s.opOrderRef ∧
    (s.step i).opNewOrderRef = s.opNewOrderRef ∧ (s.step i).opPrice = s.opPrice ∧
    (s.step i).opShares = s.opShares ∧ (s.step i).opSide = s.opSide ∧
    (s.step i).opSymId = s.opSymId ∧ (s.step i).opHash = s.opHash ∧
    (s.step i).opNewHash = s.opNewHash ∧ (s.step i).isAddOpR = s.isAddOpR := by
  cases hst : s.state with
  | sIdle => exact absurd hst hs
  | sMatch =>
      simp only [step, hst, stepMatch]
      split_ifs <;> simp [advance, collide]
  | sUpdate =>
      simp only [step, hst, stepUpdate]
      cases s.updateRegs.refWrite <;> simp [advance, portWrite]
  | sReadRef1 | sReadRef2 | sProcess | sScanBook | sScanBook2 | sScanBook3 | sUpdate2 | sDone =>
      simp [step, hst, advance, stepProcess, stepScanBook, stepScanBook2, stepScanBook3,
        stepUpdate2, portWrite]

theorem Latched.step (h : Latched m s) (hs : s.state ≠ .sIdle) : Latched m (s.step i) := by
  obtain ⟨h1, h2, h3, h4, h5, h6, h7, h8, h9, h10⟩ := op_step (i := i) hs
  exact ⟨h.isOp, h1 ▸ h.msgType, h2 ▸ h.orderRef, h3 ▸ h.newOrderRef, h4 ▸ h.price,
    h5 ▸ h.shares, h6 ▸ h.side, h7 ▸ h.symId, h8 ▸ h.hash, h9 ▸ h.newHash, h10 ▸ h.isAdd⟩

/-- An operation presented while the book is ready starts a search. -/
theorem phase_accept (h : Ready b s) (hv : i.fieldsValid = true) (hop : bookOp i.msg.msgType ≠ none) :
    Phase b i.msg (s.step i) := by
  have hsome : (bookOp i.msg.msgType).isSome = true := Option.isSome_iff_ne_none.mpr hop
  have hst := h.state
  have hq := h.quiet
  refine .readRef1 0 (by simp [step, stepIdle, hst, hv, hsome]) ?_
  refine ⟨⟨hop, ?_, ?_, ?_, ?_, ?_, ?_, ?_, ?_, ?_, ?_⟩, by decide, ?_, ?_, ?_, by simp⟩ <;>
    simp [step, stepIdle, advance, hst, hv, hq, h.book]

/-- Without an operation a ready book stays as it is. -/
theorem ready_step (h : Ready b s) (hv : i.fieldsValid = true → bookOp i.msg.msgType = none) :
    Ready b (s.step i) := by
  have hst := h.state
  have hq := h.quiet
  cases hf : i.fieldsValid with
  | false => exact ⟨by simp [step, stepIdle, advance, hst, hf], by simp [step, stepIdle, advance, hst, hf],
      by simp [step, stepIdle, advance, hst, hf, hq, h.book]⟩
  | true =>
      have hnone := hv hf
      exact ⟨by simp [step, stepIdle, advance, hst, hf, hnone],
        by simp [step, stepIdle, advance, hst, hf],
        by simp [step, stepIdle, advance, hst, hf, hq, h.book]⟩

/-- A step that changes neither the probe counter nor the arrays keeps the
search where it is. -/
theorem Probing.step {p : Nat} (h : Probing b m p s) (hs : s.state ≠ .sIdle)
    (hcnt : (s.step i).probeCnt = s.probeCnt) (hbook : (s.step i).book = s.book)
    (hquiet : (s.step i).refWrEn = false) : Probing b m p (s.step i) :=
  ⟨h.toLatched.step hs, h.le, hcnt.trans h.cnt, hbook.trans h.book, hquiet, h.blocked⟩

/-! ### the search -/

section Search

variable {p : Nat}

theorem Probing.lookup_vacant (h : Probing b m p s)
    (hv : (b.refMem (refSlot m.orderRef p)).valid = false) : b.lookup m.orderRef = .vacant p :=
  find_vacant_iff.mpr ⟨Nat.lt_succ_of_le h.le, by simp [Book.keyAt, hv], h.blocked⟩

theorem Probing.lookup_hit (h : Probing b m p s)
    (hv : (b.refMem (refSlot m.orderRef p)).valid = true)
    (hr : (b.refMem (refSlot m.orderRef p)).orderRef = m.orderRef) :
    b.lookup m.orderRef = .hit p :=
  find_hit_iff.mpr ⟨Nat.lt_succ_of_le h.le, by simp [Book.keyAt, hv, hr], h.blocked⟩

/-- A slot of another order extends the part already searched. -/
theorem Probing.blocked_succ (h : Probing b m p s)
    (hv : (b.refMem (refSlot m.orderRef p)).valid = true)
    (hr : (b.refMem (refSlot m.orderRef p)).orderRef ≠ m.orderRef) (q : Nat) (hq : q < p + 1) :
    Blocked (fun p => b.keyAt (refSlot m.orderRef p)) m.orderRef q := by
  by_cases hlt : q < p
  · exact h.blocked q hlt
  · rw [show q = p by omega]
    simp [Blocked, Book.keyAt, hv, hr]

theorem Probing.lookup_full (h : Probing b m obMaxProbe s)
    (hv : (b.refMem (refSlot m.orderRef obMaxProbe)).valid = true)
    (hr : (b.refMem (refSlot m.orderRef obMaxProbe)).orderRef ≠ m.orderRef) :
    b.lookup m.orderRef = .full :=
  find_full_iff.mpr (h.blocked_succ hv hr)

/-- The probe counter has room for every step. -/
theorem Probing.toNat_cnt (h : Probing b m p s) : s.probeCnt.toNat = p := by
  have hle := h.le
  rw [obMaxProbe] at hle
  rw [h.cnt, BitVec.toNat_ofNat, Nat.mod_eq_of_lt (by omega)]

theorem Probing.cnt_eq_iff (h : Probing b m p s) :
    s.probeCnt = BitVec.ofNat 3 obMaxProbe ↔ p = obMaxProbe := by
  rw [← BitVec.toNat_inj, h.toNat_cnt]
  rfl

end Search

/-- What a step makes of an operation in progress: it is complete, or in a
phase with fewer cycles left. -/
def Progress (b : Book) (m : BookMsg) (s s' : OrderBook) : Prop :=
  Ready (b.exec m) s' ∨ (Phase b m s' ∧ s'.cyclesLeft < s.cyclesLeft)

theorem progress_readRef1 {p : Nat} (hs : s.state = .sReadRef1) (h : Probing b m p s) :
    Progress b m s (s.step i) := by
  have hst : (s.step i).state = .sReadRef2 := by simp [OrderBook.step, hs]
  have hcnt : (s.step i).probeCnt = s.probeCnt := by simp [OrderBook.step, hs, advance]
  refine Or.inr ⟨.readRef2 p hst (h.step (by simp [hs]) hcnt ?_ ?_) ?_, ?_⟩
  · simp [OrderBook.step, hs, advance, h.quiet]
  · simp [OrderBook.step, hs, advance]
  · simp [OrderBook.step, hs, refSlot, h.hash, h.cnt]
  · simp only [cyclesLeft, hs, hst, hcnt]
    omega

theorem progress_readRef2 {p : Nat} (hs : s.state = .sReadRef2) (h : Probing b m p s)
    (haddr : s.refRdAddr = refSlot m.orderRef p) : Progress b m s (s.step i) := by
  have hst : (s.step i).state = .sProcess := by simp [OrderBook.step, hs]
  have hcnt : (s.step i).probeCnt = s.probeCnt := by simp [OrderBook.step, hs, advance]
  refine Or.inr ⟨.process p hst (h.step (by simp [hs]) hcnt ?_ ?_) ?_ ?_, ?_⟩
  · simp [OrderBook.step, hs, advance, h.quiet]
  · simp [OrderBook.step, hs, advance]
  · simp [OrderBook.step, hs, advance, haddr]
  · simp [OrderBook.step, hs, haddr, h.book, Book.addCollisions]
  · simp only [cyclesLeft, hs, hst, hcnt]
    omega

theorem progress_process {p : Nat} (hs : s.state = .sProcess) (h : Probing b m p s)
    (haddr : s.refRdAddr = refSlot m.orderRef p)
    (hdata : s.refRdData = b.refMem (refSlot m.orderRef p)) : Progress b m s (s.step i) := by
  have hst : (s.step i).state = .sMatch := by simp [OrderBook.step, hs, stepProcess]
  have hcnt : (s.step i).probeCnt = s.probeCnt := by
    simp [OrderBook.step, hs, stepProcess, advance]
  refine Or.inr ⟨.matching p hst (h.step (by simp [hs]) hcnt ?_ ?_) ⟨?_, ?_, ?_, ?_, ?_⟩ ?_ ?_, ?_⟩
  · simp [OrderBook.step, hs, stepProcess, advance, h.quiet]
  · simp [OrderBook.step, hs, stepProcess, advance]
  · simp [OrderBook.step, hs, stepProcess, haddr]
  · simp [OrderBook.step, hs, stepProcess, hdata]
  · simp [OrderBook.step, hs, stepProcess, hdata]
  · simp [OrderBook.step, hs, stepProcess, hdata, h.shares]
  · simp [OrderBook.step, hs, stepProcess, hdata, h.shares]
  · simp [OrderBook.step, hs, stepProcess, hdata]
  · simp [OrderBook.step, hs, stepProcess, hdata, h.orderRef]
  · simp only [cyclesLeft, hs, hst, hcnt]
    omega

/-! ### the decision -/

section Matching

variable {p : Nat}

/-- The search goes on to the book. -/
theorem progress_resolved (hs : s.state = .sMatch) (h : Probing b m p s)
    (href : RefRegs m (refSlot m.orderRef p) (b.refMem (refSlot m.orderRef p)) s)
    (hp : b.resolve m = some p)
    (hc : b.collisions m = if bookOp m.msgType = some .add then 0 else p)
    (hstep : s.step i = { s.advance i with
      isAddR := s.isAddOpR
      opBookSideR := if s.isAddOpR then s.opSide else s.opRefSide
      state := .sScanBook }) : Progress b m s (s.step i) := by
  have hlatched : Latched m (s.step i) := h.toLatched.step (by simp [hs])
  have hst : (s.step i).state = .sScanBook := by rw [hstep]
  refine Or.inr ⟨.scanBook p hst hp ⟨hlatched, ⟨?_, ?_, ?_, ?_, ?_⟩, ?_, ?_, ?_, ?_⟩, ?_⟩
  · rw [hstep]; exact href.refAddr
  · rw [hstep]; exact href.refPrice
  · rw [hstep]; exact href.refSide
  · rw [hstep]; exact href.newSh
  · rw [hstep]; exact href.newShZero
  · rw [hstep]
    simp [advance, h.quiet, h.book, Book.counted, hc]
  · rw [hstep]; rfl
  · rw [hstep]; exact h.isAdd
  · rw [hstep]
    simp [Book.bookSide, h.isAdd, h.side, href.refSide, Book.counted, Book.addCollisions]
  · simp only [cyclesLeft, hs, hst]
    omega

/-- The message is dropped. -/
theorem progress_dropped {n : Nat} (hs : s.state = .sMatch) (h : Probing b m p s)
    (hp : b.resolve m = none)
    (hc : b.collisions m = (if bookOp m.msgType = some .add then 0 else p) + n)
    (hst : (s.step i).state = .sDone) (hq : (s.step i).refWrEn = false)
    (hbook : (s.step i).book = s.book.addCollisions n) : Progress b m s (s.step i) := by
  refine Or.inr ⟨.finishing hst ?_, ?_⟩
  · rw [hq, if_neg Bool.false_ne_true, hbook, h.book, Book.exec, if_neg h.isOp, hp]
    simp only [Book.counted, hc, Book.addCollisions, BitVec.ofNat_add, BitVec.add_assoc]
  · simp only [cyclesLeft, hs, hst]
    omega

/-- The search moves on to the next slot. -/
theorem progress_next (hs : s.state = .sMatch) (h : Probing b m p s) (hp : p ≠ obMaxProbe)
    (hv : (b.refMem (refSlot m.orderRef p)).valid = true)
    (hr : (b.refMem (refSlot m.orderRef p)).orderRef ≠ m.orderRef)
    (hst : (s.step i).state = .sReadRef1) (hcnt : (s.step i).probeCnt = s.probeCnt + 1)
    (hq : (s.step i).refWrEn = false)
    (hbook : (s.step i).book = s.book.addCollisions (if bookOp m.msgType = some .add then 0 else 1)) :
    Progress b m s (s.step i) := by
  have hle := h.le
  have hnext : Probing b m (p + 1) (s.step i) := by
    refine ⟨h.toLatched.step (by simp [hs]), by omega, ?_, ?_, hq, h.blocked_succ hv hr⟩
    · rw [hcnt, h.cnt, BitVec.ofNat_add]
      rfl
    · rw [hbook, h.book]
      by_cases hadd : bookOp m.msgType = some .add
      · simp [hadd]
      · rw [if_neg hadd, if_neg hadd, if_neg hadd, ← Book.addCollisions_succ]
  refine Or.inr ⟨.readRef1 (p + 1) hst hnext, ?_⟩
  simp only [cyclesLeft, hs, hst, hnext.toNat_cnt, h.toNat_cnt]
  omega

theorem progress_matching (hs : s.state = .sMatch) (h : Probing b m p s)
    (href : RefRegs m (refSlot m.orderRef p) (b.refMem (refSlot m.orderRef p)) s)
    (hempty : s.refEmptyR = !(b.refMem (refSlot m.orderRef p)).valid)
    (hmatch : s.refMatchR = ((b.refMem (refSlot m.orderRef p)).valid &&
      (b.refMem (refSlot m.orderRef p)).orderRef == m.orderRef)) : Progress b m s (s.step i) := by
  have hadd := h.isAdd
  have hcnt := h.cnt_eq_iff
  cases hv : (b.refMem (refSlot m.orderRef p)).valid with
  | false =>
      have hlook := h.lookup_vacant hv
      rw [hv] at hempty hmatch
      by_cases hop : bookOp m.msgType = some .add
      · -- an add takes the vacant slot
        apply progress_resolved hs h href
        · simp [Book.resolve, hlook, hop]
        · simp [Book.collisions, hlook, hop]
        · simp [OrderBook.step, hs, stepMatch, hadd, hop, hempty]
      · -- anything else is not in the table
        apply progress_dropped (n := 0) hs h
        · simp [Book.resolve, hlook, hop]
        · simp [Book.collisions, hlook, hop]
        · simp [OrderBook.step, hs, stepMatch, hadd, hop, hempty]
        · simp [OrderBook.step, hs, stepMatch, hadd, hop, hempty, advance]
        · simp [OrderBook.step, hs, stepMatch, hadd, hop, hempty, advance, h.quiet]
  | true =>
      rw [hv] at hempty hmatch
      by_cases hr : (b.refMem (refSlot m.orderRef p)).orderRef = m.orderRef
      · have hlook := h.lookup_hit hv hr
        rw [hr] at hmatch
        apply progress_resolved hs h href
        · simp [Book.resolve, hlook]
        · simp [Book.collisions, hlook]
        · by_cases hop : bookOp m.msgType = some .add <;>
            simp [OrderBook.step, hs, stepMatch, hadd, hop, hempty, hmatch]
      · have hne : ((b.refMem (refSlot m.orderRef p)).orderRef == m.orderRef) = false := by
          simpa using hr
        rw [hne] at hmatch
        by_cases hp : p = obMaxProbe
        · -- all slots are taken by other orders
          subst hp
          have hlook := h.lookup_full hv hr
          rw [eq_self, iff_true] at hcnt
          apply progress_dropped (n := 1) hs h
          · simp [Book.resolve, hlook]
          · by_cases hop : bookOp m.msgType = some .add <;> simp [Book.collisions, hlook, hop]
          · by_cases hop : bookOp m.msgType = some .add <;>
              simp [OrderBook.step, hs, stepMatch, hadd, hop, hempty, hmatch, hcnt]
          · by_cases hop : bookOp m.msgType = some .add <;>
              simp [OrderBook.step, hs, stepMatch, hadd, hop, hempty, hmatch, hcnt, advance, collide]
          · by_cases hop : bookOp m.msgType = some .add <;>
              simp [OrderBook.step, hs, stepMatch, hadd, hop, hempty, hmatch, hcnt, advance, collide,
                h.quiet]
        · have hcnt' : s.probeCnt ≠ BitVec.ofNat 3 obMaxProbe := fun he => hp (hcnt.mp he)
          apply progress_next hs h hp hv hr <;>
            by_cases hop : bookOp m.msgType = some .add <;>
            simp [OrderBook.step, hs, stepMatch, hadd, hop, hempty, hmatch, hcnt', advance, collide,
              h.quiet]

end Matching

/-! ### the book -/

section Update

variable {p : Nat}

/-- A step that writes none of the registers of a resolved operation. -/
theorem Resolved.step {a : RefAddr} (h : Resolved b m a s) (hs : s.state ≠ .sIdle)
    (href : (s.step i).opResolvedAddr = s.opResolvedAddr ∧
      (s.step i).opRefPrice = s.opRefPrice ∧ (s.step i).opRefSide = s.opRefSide ∧
      (s.step i).newShR = s.newShR ∧ (s.step i).newShZeroR = s.newShZeroR)
    (hbook : (s.step i).book = s.book) (hquiet : (s.step i).refWrEn = false)
    (hadd : (s.step i).isAddR = s.isAddR) (hside : (s.step i).opBookSideR = s.opBookSideR) :
    Resolved b m a (s.step i) := by
  obtain ⟨h1, h2, h3, h4, h5⟩ := href
  exact ⟨h.toLatched.step hs, ⟨h1.trans h.refAddr, h2.trans h.refPrice, h3.trans h.refSide,
    h4.trans h.newSh, h5.trans h.newShZero⟩, hbook.trans h.book, hquiet, hadd.trans h.isAddR,
    hside.trans h.bookSide⟩

theorem progress_scanBook (hs : s.state = .sScanBook) (hp : b.resolve m = some p)
    (h : Resolved (b.counted m) m (refSlot m.orderRef p) s) : Progress b m s (s.step i) := by
  have hst : (s.step i).state = .sScanBook2 := by simp [OrderBook.step, hs, stepScanBook]
  have hnext : Resolved (b.counted m) m (refSlot m.orderRef p) (s.step i) := by
    apply h.step (by simp [hs]) <;> simp [OrderBook.step, hs, stepScanBook, advance, h.quiet]
  refine Or.inr ⟨.scanBook2 p hst hp hnext ?_ ?_ ?_, ?_⟩
  · simp [OrderBook.step, hs, stepScanBook, h.book, h.symId, h.bookSide, Book.counted,
      Book.addCollisions, Book.bookSide]
  · simp [OrderBook.step, hs, stepScanBook, h.book, h.symId, Book.counted, Book.addCollisions]
  · simp [OrderBook.step, hs, stepScanBook, h.book, h.symId, Book.counted, Book.addCollisions]
  · simp [cyclesLeft, hs, hst]

theorem progress_scanBook2 (hs : s.state = .sScanBook2) (hp : b.resolve m = some p)
    (h : Resolved (b.counted m) m (refSlot m.orderRef p) s)
    (hentry : s.bookEntryR = fun k => b.bookMem k (m.symId, b.bookSide m (refSlot m.orderRef p)))
    (hbid : s.bboBidPriceSnapR = b.bboBidPriceR m.symId)
    (hask : s.bboAskPriceSnapR = b.bboAskPriceR m.symId) : Progress b m s (s.step i) := by
  have hst : (s.step i).state = .sScanBook3 := by simp [OrderBook.step, hs, stepScanBook2]
  have hnext : Resolved (b.counted m) m (refSlot m.orderRef p) (s.step i) := by
    apply h.step (by simp [hs]) <;> simp [OrderBook.step, hs, stepScanBook2, advance, h.quiet]
  refine Or.inr ⟨.scanBook3 p hst hp hnext ?_ ?_ ?_, ?_⟩
  · simp [OrderBook.step, hs, stepScanBook2, Book.targetLevel, hentry, h.isAddR, h.refPrice,
      Book.counted, Book.addCollisions, Book.bookSide]
  · simp [OrderBook.step, hs, stepScanBook2, advance, hbid]
  · simp [OrderBook.step, hs, stepScanBook2, advance, hask]
  · simp [cyclesLeft, hs, hst]

theorem progress_scanBook3 (hs : s.state = .sScanBook3) (hp : b.resolve m = some p)
    (h : Resolved (b.counted m) m (refSlot m.orderRef p) s)
    (hlevel : firstMatch s.matchVec = (b.counted m).targetLevel m (refSlot m.orderRef p))
    (hbid : s.bboBidPriceSnapR = b.bboBidPriceR m.symId)
    (hask : s.bboAskPriceSnapR = b.bboAskPriceR m.symId) : Progress b m s (s.step i) := by
  have hst : (s.step i).state = .sUpdate := by simp [OrderBook.step, hs, stepScanBook3]
  have hnext : Resolved (b.counted m) m (refSlot m.orderRef p) (s.step i) := by
    apply h.step (by simp [hs]) <;> simp [OrderBook.step, hs, stepScanBook3, advance, h.quiet]
  refine Or.inr ⟨.updating p hst hp hnext ?_, ?_⟩
  · simp [OrderBook.step, hs, stepScanBook3, advance, updateRegs, Book.regs, hlevel, hbid, hask,
      h.msgType, h.orderRef, h.newOrderRef, h.price, h.shares, h.side, h.symId, h.newHash,
      h.refAddr, h.refPrice, h.refSide, h.newSh, h.newShZero, Book.counted, Book.addCollisions]
  · simp [cyclesLeft, hs, hst]

/-- The table write on the port and the array writes do not interfere. -/
theorem writePort_updateBook (u : UpdateRegs) (b' : Book) (d : OrderBook) (hq : d.refWrEn = false) :
    (if (d.portWrite u.refWrite).refWrEn then
      (u.updateBook b').writeRef (d.portWrite u.refWrite).refWrAddr (d.portWrite u.refWrite).refWrData
      else u.updateBook b') = (u.updateBook b').writePort u.refWrite := by
  cases u.refWrite with
  | none => simp [portWrite, hq, Book.writePort]
  | some w => simp [portWrite, Book.writePort]

theorem progress_updating (hs : s.state = .sUpdate) (hp : b.resolve m = some p)
    (h : Resolved (b.counted m) m (refSlot m.orderRef p) s)
    (hregs : s.updateRegs = (b.counted m).regs m (refSlot m.orderRef p)) :
    Progress b m s (s.step i) := by
  have hop : s.updateRegs.op = bookOp m.msgType := by rw [hregs]; rfl
  have hstep : s.step i = s.stepUpdate (s.advance i) := by simp only [OrderBook.step, hs]
  have hport := writePort_updateBook s.updateRegs (s.advance i).book (s.advance i) rfl
  have hadv : (s.advance i).book = b.counted m := by simp [advance, h.quiet, h.book]
  have hbook : (if (s.step i).refWrEn then
      (s.step i).book.writeRef (s.step i).refWrAddr (s.step i).refWrData else (s.step i).book) =
      (((b.counted m).regs m (refSlot m.orderRef p)).updateBook (b.counted m)).writePort
        ((b.counted m).regs m (refSlot m.orderRef p)).refWrite := by
    rw [← hregs, ← hadv, ← hport, hstep]
    rfl
  have haddr : (s.step i).opResolvedAddr = refSlot m.orderRef p := by
    rw [hstep, ← h.refAddr, stepUpdate]
    cases s.updateRegs.refWrite <;> rfl
  by_cases hrep : bookOp m.msgType = some .replace
  · have hst : (s.step i).state = .sUpdate2 := by rw [hstep]; simp [stepUpdate, hop, hrep]
    exact Or.inr ⟨.updating2 p hst hp hrep haddr hbook, by simp [cyclesLeft, hs, hst]⟩
  · have hst : (s.step i).state = .sDone := by rw [hstep]; simp [stepUpdate, hop, hrep]
    refine Or.inr ⟨.finishing hst ?_, by simp [cyclesLeft, hs, hst]⟩
    rw [hbook, Book.exec, if_neg h.isOp, hp]
    exact (if_neg hrep).symm

theorem progress_updating2 (hs : s.state = .sUpdate2) (hp : b.resolve m = some p)
    (hop : bookOp m.msgType = some .replace) (haddr : s.opResolvedAddr = refSlot m.orderRef p)
    (hbook : (if s.refWrEn then s.book.writeRef s.refWrAddr s.refWrData else s.book) =
      (((b.counted m).regs m (refSlot m.orderRef p)).updateBook (b.counted m)).writePort
        ((b.counted m).regs m (refSlot m.orderRef p)).refWrite) : Progress b m s (s.step i) := by
  have hst : (s.step i).state = .sDone := by simp [OrderBook.step, hs, stepUpdate2]
  refine Or.inr ⟨.finishing hst ?_, by simp [cyclesLeft, hs, hst]⟩
  simp only [OrderBook.step, hs, stepUpdate2, portWrite, if_true]
  simp only [advance, hbook, haddr]
  rw [Book.exec, if_neg (by simp [hop]), hp]
  exact (if_pos hop).symm

theorem progress_finishing (hs : s.state = .sDone)
    (hbook : (if s.refWrEn then s.book.writeRef s.refWrAddr s.refWrData else s.book) = b.exec m) :
    Progress b m s (s.step i) := by
  refine Or.inl ⟨?_, ?_, ?_⟩
  · simp [OrderBook.step, hs]
  · simp [OrderBook.step, hs, advance]
  · simpa [OrderBook.step, hs, advance] using hbook

end Update

/-- **Step lemma**: every cycle of an operation brings it closer to the book of
`exec`. -/
theorem Phase.step (h : Phase b m s) : Progress b m s (s.step i) := by
  cases h with
  | readRef1 p hs h => exact progress_readRef1 hs h
  | readRef2 p hs h haddr => exact progress_readRef2 hs h haddr
  | process p hs h haddr hdata => exact progress_process hs h haddr hdata
  | matching p hs h href hempty hmatch => exact progress_matching hs h href hempty hmatch
  | scanBook p hs hp h => exact progress_scanBook hs hp h
  | scanBook2 p hs hp h hentry hbid hask => exact progress_scanBook2 hs hp h hentry hbid hask
  | scanBook3 p hs hp h hlevel hbid hask => exact progress_scanBook3 hs hp h hlevel hbid hask
  | updating p hs hp h hregs => exact progress_updating hs hp h hregs
  | updating2 p hs hp hop haddr hbook => exact progress_updating2 hs hp hop haddr hbook
  | finishing hs hbook => exact progress_finishing hs hbook

theorem Phase.not_idle (h : Phase b m s) : s.state ≠ .sIdle := by
  cases h <;> simp_all

end Step

/-! ## runs -/

section Run

/-- The messages the book has accepted before cycle `n`: those presented while
it was ready. -/
def accepted (s : OrderBook) (i : Nat → OrderBookIn) : Nat → List BookMsg
  | 0 => []
  | n + 1 =>
      if (run step s i n).bookReady && (i n).fieldsValid then accepted s i n ++ [(i n).msg]
      else accepted s i n

/-- The messages presented before cycle `n`. -/
def issued (i : Nat → OrderBookIn) : Nat → List BookMsg
  | 0 => []
  | n + 1 => if (i n).fieldsValid then issued i n ++ [(i n).msg] else issued i n

/-- Every message is issued while `book_ready` is high. -/
def IssuedWhenReady (s : OrderBook) (i : Nat → OrderBookIn) : Prop :=
  ∀ n, (i n).fieldsValid = true → (run step s i n).bookReady = true

variable {b : Book} {s : OrderBook} {i : Nat → OrderBookIn}

theorem bookReady_iff (s : OrderBook) : s.bookReady = true ↔ s.state = .sIdle := by
  simp [bookReady]

/-- The state after a run: ready with every accepted message applied, or
working on the last one. -/
theorem run_track (h0 : Ready b s) (n : Nat) :
    Ready (b.execs (accepted s i n)) (run step s i n) ∨
    ∃ ms m, accepted s i n = ms ++ [m] ∧ Phase (b.execs ms) m (run step s i n) := by
  induction n with
  | zero => exact Or.inl h0
  | succ n ih =>
      rw [accepted, run_succ]
      rcases ih with hr | ⟨ms, m, hms, hph⟩
      · have hready : (run step s i n).bookReady = true := (bookReady_iff _).mpr hr.state
        rw [hready, Bool.true_and]
        cases hv : (i n).fieldsValid with
        | false =>
            rw [if_neg Bool.false_ne_true]
            exact Or.inl (ready_step hr (by simp [hv]))
        | true =>
            rw [if_pos rfl]
            by_cases hop : bookOp (i n).msg.msgType = none
            · have hsame : (b.execs (accepted s i n)).exec (i n).msg = b.execs (accepted s i n) := by
                rw [Book.exec, if_pos hop]
              rw [Book.execs_append_singleton, hsame]
              exact Or.inl (ready_step hr fun _ => hop)
            · exact Or.inr ⟨_, _, rfl, phase_accept hr hv hop⟩
      · have hbusy : (run step s i n).bookReady = false := by
          rw [← Bool.not_eq_true, bookReady_iff]
          exact hph.not_idle
        rw [hbusy, Bool.false_and, if_neg Bool.false_ne_true, hms]
        rcases hph.step (i := i n) with hdone | ⟨hph', -⟩
        · rw [Book.execs_append_singleton]
          exact Or.inl hdone
        · exact Or.inr ⟨ms, m, rfl, hph'⟩

/-- **Run lemma**: whenever the book is ready it is the fold of `exec` over the
accepted messages. -/
theorem book_of_ready (h0 : Ready b s) {n : Nat} (hn : (run step s i n).bookReady = true) :
    (run step s i n).book = b.execs (accepted s i n) := by
  rcases run_track (i := i) h0 n with hr | ⟨ms, m, -, hph⟩
  · exact hr.book
  · exact absurd ((bookReady_iff _).mp hn) hph.not_idle

/-- Messages issued only while the book is ready are all accepted. -/
theorem accepted_eq_issued (hi : IssuedWhenReady s i) (n : Nat) :
    accepted s i n = issued i n := by
  induction n with
  | zero => rfl
  | succ n ih =>
      rw [accepted, issued, ih]
      cases hv : (i n).fieldsValid with
      | false => simp
      | true => simp [hi n hv]

/-- Nothing is accepted while the book is busy. -/
theorem accepted_of_busy {n n' : Nat} (hle : n ≤ n')
    (hbusy : ∀ j, n ≤ j → j < n' → (run step s i j).bookReady = false) :
    accepted s i n' = accepted s i n := by
  induction n', hle using Nat.le_induction with
  | base => rfl
  | succ n' hle ih =>
      rw [accepted, hbusy n' hle (Nat.lt_succ_self _), Bool.false_and, if_neg Bool.false_ne_true]
      exact ih fun j hj hjn => hbusy j hj (Nat.lt_succ_of_lt hjn)

/-- Nothing is accepted while nothing is presented. -/
theorem accepted_of_quiet {n n' : Nat} (hle : n ≤ n')
    (hq : ∀ j, n ≤ j → j < n' → (i j).fieldsValid = false) :
    accepted s i n' = accepted s i n := by
  induction n', hle using Nat.le_induction with
  | base => rfl
  | succ n' hle ih =>
      rw [accepted, hq n' hle (Nat.lt_succ_self _), Bool.and_false, if_neg Bool.false_ne_true]
      exact ih fun j hj hjn => hq j hj (Nat.lt_succ_of_lt hjn)

/-- **One operation**: from one ready cycle to the next the book takes exactly
the message presented in the first of them. -/
theorem book_next_ready (h0 : Ready b s) {n n' : Nat} (hlt : n < n')
    (hn : (run step s i n).bookReady = true) (hv : (i n).fieldsValid = true)
    (hn' : (run step s i n').bookReady = true)
    (hbusy : ∀ j, n < j → j < n' → (run step s i j).bookReady = false) :
    (run step s i n').book = (run step s i n).book.exec (i n).msg := by
  rw [book_of_ready h0 hn', accepted_of_busy (n := n + 1) hlt fun j hj hjn => hbusy j hj hjn,
    accepted, hn, hv, Bool.true_and, if_pos rfl, Book.execs_append_singleton, book_of_ready h0 hn]

/-- **Termination**: a busy book is ready again within `cyclesLeft` cycles. -/
theorem ready_within {m : BookMsg} {c : Nat} :
    ∀ s, Phase b m s → s.cyclesLeft ≤ c → ∀ i : Nat → OrderBookIn,
      ∃ k, k ≤ c ∧ (run step s i k).bookReady = true := by
  induction c with
  | zero =>
      intro s h hc
      have hpos : 0 < s.cyclesLeft := by
        cases hst : s.state with
        | sIdle => exact absurd hst h.not_idle
        | _ => simp [cyclesLeft, hst]
      omega
  | succ c ih =>
      intro s h hc i
      rcases h.step (i := i 0) with hdone | ⟨hph, hlt⟩
      · exact ⟨1, by omega, (bookReady_iff _).mpr hdone.state⟩
      · obtain ⟨k, hk, hready⟩ := ih _ hph (by omega) fun m => i (1 + m)
        exact ⟨1 + k, by omega, by rwa [run_add]⟩

theorem cyclesLeft_le (s : OrderBook) : s.cyclesLeft ≤ 26 := by
  cases hs : s.state <;> simp only [cyclesLeft, hs, obMaxProbe] <;> omega

/-- From every cycle of a run the book is ready again within 26 cycles. -/
theorem ready_again (h0 : Ready b s) (n : Nat) :
    ∃ k, k ≤ 26 ∧ (run step s i (n + k)).bookReady = true := by
  rcases run_track (i := i) h0 n with hr | ⟨ms, m, -, hph⟩
  · exact ⟨0, by omega, (bookReady_iff _).mpr hr.state⟩
  · obtain ⟨k, hk, hready⟩ := ready_within _ hph (cyclesLeft_le _) fun m => i (n + m)
    exact ⟨k, hk, by rwa [run_add]⟩

/-- After reset the book is ready, with zeroed tables. -/
theorem ready_reset : Ready Book.zero reset := ⟨rfl, rfl, rfl⟩

end Run

end OrderBook

end Lliu
