import Lliu.OrderBook.Bbo

/-!
# Lliu.OrderBook.Model

`order_book_model.py`: the reference model the order book is tested against, and
how far the book agrees with it.

The model keeps a dictionary from the CRC of a reference to its entry.  In a run
without reference collisions the dictionary holds the live orders of the book
except those cancelled down to zero, which the model deletes and the book keeps
(`ModelSim`).  The BBO registers agree as long as no message names such an order
to any effect, and no order is replaced by its own reference.
-/

namespace Lliu

open Hdl

/-! ## the reference model -/

/-- An entry of `ref_table`. -/
structure ModelEntry where
  orderRef : OrderRef
  price : BitVec 32
  shares : BitVec 24
  side : Bool
  symId : SymId
  deriving DecidableEq, Repr

/-- `OrderBookModel`.  The dictionary is a partial function. -/
structure OrderBookModel where
  refTable : BitVec 17 → Option ModelEntry
  bboBidPrice : SymId → BitVec 32
  bboAskPrice : SymId → BitVec 32
  bboBidSize : SymId → BitVec 24
  bboAskSize : SymId → BitVec 24
  collisionCount : Nat

namespace OrderBookModel

/-- `__init__`. -/
def init : OrderBookModel where
  refTable := fun _ => none
  bboBidPrice := fun _ => 0
  bboAskPrice := fun _ => 0
  bboBidSize := fun _ => 0
  bboAskSize := fun _ => 0
  collisionCount := 0

/-- `get_bbo`: bid price, ask price, bid size, ask size. -/
def getBbo (s : OrderBookModel) (sym : SymId) :
    BitVec 32 × BitVec 32 × BitVec 24 × BitVec 24 :=
  (s.bboBidPrice sym, s.bboAskPrice sym, s.bboBidSize sym, s.bboAskSize sym)

/-- Assign the bid of a symbol. -/
def setBid (s : OrderBookModel) (sym : SymId) (price : BitVec 32) (size : BitVec 24) :
    OrderBookModel :=
  { s with
    bboBidPrice := Function.update s.bboBidPrice sym price
    bboBidSize := Function.update s.bboBidSize sym size }

/-- Assign the ask of a symbol. -/
def setAsk (s : OrderBookModel) (sym : SymId) (price : BitVec 32) (size : BitVec 24) :
    OrderBookModel :=
  { s with
    bboAskPrice := Function.update s.bboAskPrice sym price
    bboAskSize := Function.update s.bboAskSize sym size }

/-- Assign an entry of the dictionary. -/
def setEntry (s : OrderBookModel) (h : BitVec 17) (e : Option ModelEntry) : OrderBookModel :=
  { s with refTable := Function.update s.refTable h e }

/-- The entry of a reference: that of its hash, if it is for this reference. -/
def entryOf (s : OrderBookModel) (orderRef : OrderRef) : Option ModelEntry :=
  match s.refTable (crc17 orderRef) with
  | none => none
  | some e => if e.orderRef ≠ orderRef then none else some e

/-- `_bbo_clear_if_at_bbo`. -/
def bboClearIfAtBbo (s : OrderBookModel) (e : ModelEntry) : OrderBookModel :=
  if e.side then
    if e.price = s.bboBidPrice e.symId then s.setBid e.symId 0 0 else s
  else if e.price = s.bboAskPrice e.symId then s.setAsk e.symId 0 0 else s

/-- `add`. -/
def add (s : OrderBookModel) (orderRef : OrderRef) (price : BitVec 32) (shares : BitVec 32)
    (side : Bool) (symId : SymId) : OrderBookModel :=
  let h := crc17 orderRef
  let insert : OrderBookModel :=
    let s' := s.setEntry h (some ⟨orderRef, price, shares.setWidth 24, side, symId⟩)
    if side then
      if s.bboBidPrice symId < price then s'.setBid symId price (shares.setWidth 24) else s'
    else if s.bboAskPrice symId = 0 ∨ price < s.bboAskPrice symId then
      s'.setAsk symId price (shares.setWidth 24)
    else s'
  match s.refTable h with
  | none => insert
  | some e =>
      if e.orderRef ≠ orderRef then { s with collisionCount := s.collisionCount + 1 } else insert

/-- `cancel`: an entry reduced to zero shares is deleted. -/
def cancel (s : OrderBookModel) (orderRef : OrderRef) (cancelledShares : BitVec 32) :
    OrderBookModel :=
  match s.entryOf orderRef with
  | none => s
  | some e =>
      let newSh := max 0 ((e.shares.toNat : Int) - ((cancelledShares.setWidth 24 : BitVec 24).toNat : Int))
      if newSh = 0 then (s.setEntry (crc17 orderRef) none).bboClearIfAtBbo e
      else s.setEntry (crc17 orderRef) (some { e with shares := BitVec.ofInt 24 newSh })

/-- `delete`. -/
def delete (s : OrderBookModel) (orderRef : OrderRef) : OrderBookModel :=
  match s.entryOf orderRef with
  | none => s
  | some e => (s.setEntry (crc17 orderRef) none).bboClearIfAtBbo e

/-- `replace`: the new price is compared with the BBO before the old order is
cleared from it. -/
def replace (s : OrderBookModel) (orderRef newOrderRef : OrderRef) (price shares : BitVec 32)
    (side : Bool) (symId : SymId) : OrderBookModel :=
  match s.entryOf orderRef with
  | none => s
  | some old =>
      let preBid := s.bboBidPrice symId
      let preAsk := s.bboAskPrice symId
      let newBid := if old.side = true ∧ old.price = preBid then (0, 0)
        else (preBid, s.bboBidSize symId)
      let newAsk := if old.side = false ∧ old.price = preAsk then (0, 0)
        else (preAsk, s.bboAskSize symId)
      let s' := (s.setEntry (crc17 orderRef) none).setEntry (crc17 newOrderRef)
        (some ⟨newOrderRef, price, shares.setWidth 24, side, symId⟩)
      let newBid := if side = true ∧ preBid < price then (price, shares.setWidth 24) else newBid
      let newAsk := if side = false ∧ (preAsk = 0 ∨ price < preAsk) then
        (price, shares.setWidth 24) else newAsk
      (s'.setBid symId newBid.1 newBid.2).setAsk symId newAsk.1 newAsk.2

/-- `execute`. -/
def execute (s : OrderBookModel) (orderRef : OrderRef) (execShares : BitVec 32) : OrderBookModel :=
  s.cancel orderRef execShares

/-- The method a message calls. -/
def step (s : OrderBookModel) (m : BookMsg) : OrderBookModel :=
  match bookOp m.msgType with
  | some .add => s.add m.orderRef m.price m.shares m.side m.symId
  | some .cancel => s.cancel m.orderRef m.shares
  | some .delete => s.delete m.orderRef
  | some .replace => s.replace m.orderRef m.newOrderRef m.price m.shares m.side m.symId
  | some .execute => s.execute m.orderRef m.shares
  | none => s

/-! ## its BBO -/

/-- The BBO of a symbol's side. -/
def bbo (s : OrderBookModel) (side : Bool) (sym : SymId) : BboEntry :=
  if side then (s.bboBidPrice sym, s.bboBidSize sym) else (s.bboAskPrice sym, s.bboAskSize sym)

section BboWrites

variable {s : OrderBookModel} {m : BookMsg} {r r' : OrderRef}

@[simp] theorem bbo_setEntry (h : BitVec 17) (e : Option ModelEntry) :
    (s.setEntry h e).bbo = s.bbo := rfl

theorem bbo_setBid (sym : SymId) (p : BitVec 32) (n : BitVec 24) (side : Bool) (sym' : SymId) :
    (s.setBid sym p n).bbo side sym' =
      if side = true ∧ sym' = sym then (p, n) else s.bbo side sym' := by
  by_cases hsym : sym' = sym <;> cases side <;> simp [setBid, bbo, hsym]

theorem bbo_setAsk (sym : SymId) (p : BitVec 32) (n : BitVec 24) (side : Bool) (sym' : SymId) :
    (s.setAsk sym p n).bbo side sym' =
      if side = false ∧ sym' = sym then (p, n) else s.bbo side sym' := by
  by_cases hsym : sym' = sym <;> cases side <;> simp [setAsk, bbo, hsym]

@[simp] theorem refTable_bboClearIfAtBbo (e : ModelEntry) :
    (s.bboClearIfAtBbo e).refTable = s.refTable := by
  rw [bboClearIfAtBbo]
  split <;> split <;> rfl

theorem bbo_bboClearIfAtBbo (e : ModelEntry) (side : Bool) (sym : SymId) :
    (s.bboClearIfAtBbo e).bbo side sym =
      if e.price = (s.bbo e.side e.symId).1 ∧ side = e.side ∧ sym = e.symId then (0, 0)
      else s.bbo side sym := by
  rw [bboClearIfAtBbo]
  cases e.side with
  | false =>
      rw [if_neg Bool.false_ne_true]
      change _ = if e.price = s.bboAskPrice e.symId ∧ _ then _ else _
      split
      next hp => simp [bbo_setAsk, hp]
      next hp => simp [hp]
  | true =>
      rw [if_pos rfl]
      change _ = if e.price = s.bboBidPrice e.symId ∧ _ then _ else _
      split
      next hp => simp [bbo_setBid, hp]
      next hp => simp [hp]

/-- A price that takes the model's BBO of a side. -/
theorem better_bbo (side : Bool) (price : BitVec 32) (sym : SymId) :
    betterPrice side price (s.bbo side sym).1 = true ↔
      if side then s.bboBidPrice sym < price
      else s.bboAskPrice sym = 0 ∨ price < s.bboAskPrice sym := by
  cases side <;> simp [betterPrice, bidBetter, askBetter, bbo, BitVec.lt_def, BitVec.ult]

theorem entryOf_eq_some {e : ModelEntry} :
    s.entryOf r = some e ↔ s.refTable (crc17 r) = some e ∧ e.orderRef = r := by
  rw [entryOf]
  cases s.refTable (crc17 r) with
  | none => simp
  | some e' =>
      simp only [ne_eq, ite_not, Option.ite_none_right_eq_some, Option.some.injEq]
      constructor
      · rintro ⟨hr, rfl⟩
        exact ⟨rfl, hr⟩
      · rintro ⟨rfl, hr⟩
        exact ⟨hr, rfl⟩

/-- `max(0, entry - cancelled)` is the subtraction of the book. -/
theorem newSh_eq (n k : BitVec 24) :
    (max 0 ((n.toNat : Int) - (k.toNat : Int)) = 0 ↔ newShZero n k = true) ∧
    BitVec.ofInt 24 (max 0 ((n.toNat : Int) - (k.toNat : Int))) = newSh n k := by
  by_cases h : k.ult n = true
  · have hlt : k.toNat < n.toNat := by simpa [BitVec.ult] using h
    rw [newShZero, newSh, h, if_pos rfl, max_eq_right (by omega)]
    refine ⟨by simp; omega, ?_⟩
    rw [← Int.ofNat_sub hlt.le]
    apply BitVec.eq_of_toNat_eq
    rw [BitVec.toNat_sub_of_le (BitVec.le_def.mpr hlt.le)]
    change (BitVec.ofNat 24 (n.toNat - k.toNat)).toNat = _
    rw [BitVec.toNat_ofNat, Nat.mod_eq_of_lt (by omega)]
  · have hle : n.toNat ≤ k.toNat := by simpa [BitVec.ult] using h
    rw [Bool.not_eq_true] at h
    rw [newShZero, newSh, h, max_eq_left (by omega)]
    exact ⟨by simp, rfl⟩

theorem cancel_of_entryOf {e : ModelEntry} (h : s.entryOf r = some e) (n : BitVec 32) :
    s.cancel r n =
      if newShZero e.shares (n.setWidth 24) = true then
        (s.setEntry (crc17 r) none).bboClearIfAtBbo e
      else s.setEntry (crc17 r) (some { e with shares := newSh e.shares (n.setWidth 24) }) := by
  obtain ⟨hzero, hsh⟩ := newSh_eq e.shares (n.setWidth 24)
  simp only [cancel, h, hzero, hsh]

/-- An add to an entry that is absent or of the same reference. -/
theorem add_spec {price shares : BitVec 32} {side : Bool} {sym : SymId}
    (h : ∀ e, s.refTable (crc17 r) = some e → e.orderRef = r) :
    (s.add r price shares side sym).refTable = Function.update s.refTable (crc17 r)
      (some ⟨r, price, shares.setWidth 24, side, sym⟩) ∧
    ∀ side' sym', (s.add r price shares side sym).bbo side' sym' =
      if betterPrice side price (s.bbo side sym).1 = true ∧ side' = side ∧ sym' = sym then
        (price, shares.setWidth 24)
      else s.bbo side' sym' := by
  have hadd : s.add r price shares side sym =
      let s' := s.setEntry (crc17 r) (some ⟨r, price, shares.setWidth 24, side, sym⟩)
      if betterPrice side price (s.bbo side sym).1 = true then
        if side then s'.setBid sym price (shares.setWidth 24)
        else s'.setAsk sym price (shares.setWidth 24)
      else s' := by
    simp only [add, better_bbo]
    cases hm : s.refTable (crc17 r) with
    | none => cases side <;> rfl
    | some e =>
        simp only [h e hm, ne_eq, not_true_eq_false, if_false]
        cases side <;> rfl
  rw [hadd]
  by_cases hb : betterPrice side price (s.bbo side sym).1 = true
  · simp only [if_pos hb]
    cases side with
    | false => exact ⟨rfl, fun side' sym' => by simp [bbo_setAsk, hb]⟩
    | true => exact ⟨rfl, fun side' sym' => by simp [bbo_setBid, hb]⟩
  · simp only [if_neg hb]
    exact ⟨rfl, fun side' sym' => by simp [hb]⟩

/-- A replace: the old order leaves the BBO, and the new one is compared with the
BBO before that. -/
theorem replace_spec {old : ModelEntry} {price shares : BitVec 32} {side : Bool} {sym : SymId}
    (h : s.entryOf r = some old) :
    (s.replace r r' price shares side sym).refTable =
      Function.update (Function.update s.refTable (crc17 r) none) (crc17 r')
        (some ⟨r', price, shares.setWidth 24, side, sym⟩) ∧
    ∀ side' sym', (s.replace r r' price shares side sym).bbo side' sym' =
      if betterPrice side price (s.bbo side sym).1 = true ∧ side' = side ∧ sym' = sym then
        (price, shares.setWidth 24)
      else if old.price = (s.bbo old.side sym).1 ∧ side' = old.side ∧ sym' = sym then (0, 0)
      else s.bbo side' sym' := by
  simp only [replace, h]
  refine ⟨rfl, fun side' sym' => ?_⟩
  rw [bbo_setAsk, bbo_setBid]
  simp only [better_bbo, bbo_setEntry]
  by_cases hsym : sym' = sym
  · subst hsym
    cases side' <;> cases side <;> cases old.side <;> simp [bbo]
  · simp [hsym]

end BboWrites

end OrderBookModel

/-! ## simulation -/

/-- The dictionary entry of a live order; one cancelled down to zero has none. -/
def LiveOrder.modelEntry (o : LiveOrder) : Option ModelEntry :=
  if o.spent then none else some ⟨o.orderRef, o.price, o.shares, o.side, o.symId⟩

/-- The dictionary holds the live orders with a reference in `R`. -/
def TableSim (R : Set OrderRef) (f : BitVec 17 → Option ModelEntry) (L : Ledger) : Prop :=
  ∀ r ∈ R, f (crc17 r) = (L.find r).bind LiveOrder.modelEntry

/-- The reference model `s` simulates the book `b` with live orders `L`. -/
structure ModelSim (R : Set OrderRef) (b : Book) (L : Ledger) (s : OrderBookModel) : Prop
    extends Tidy R b L where
  table : TableSim R s.refTable L
  bbo : s.bbo = b.bbo

/-- Messages on which the book and the model agree: no live order is replaced by
its own reference, an order cancelled down to zero is not replaced, and when it
is named otherwise it is not at the BBO price. -/
structure ModelMsg (R : Set OrderRef) (b : Book) (L : Ledger) (m : BookMsg) : Prop where
  names : NamesIn R m
  symbol : OwnSymbol L m
  other : ReplacesByOther L m
  spent : ∀ o, L.find m.orderRef = some o → o.spent = true → IsModify m →
    bookOp m.msgType ≠ some .replace ∧
    (o.price ≠ b.bboPrice o.side o.symId ∨ b.bbo o.side o.symId = (0, 0))

section TableSim

variable {R : Set OrderRef} {f : BitVec 17 → Option ModelEntry} {L L' : Ledger} {r : OrderRef}
  {e : Option ModelEntry} {m : BookMsg} {b : Book} {o : LiveOrder}

theorem crc17_inj (hR : DistinctHomes R) {r r' : OrderRef} (hr : r ∈ R) (hr' : r' ∈ R)
    (h : crc17 r = crc17 r') : r = r' := hR r hr r' hr' (by rw [refSlot, refSlot, h])

/-- Assigning the entry of one reference. -/
theorem TableSim.update (h : TableSim R f L) (hR : DistinctHomes R) (hr : r ∈ R)
    (hself : (L'.find r).bind LiveOrder.modelEntry = e)
    (hother : ∀ r', r' ≠ r → L'.find r' = L.find r') :
    TableSim R (Function.update f (crc17 r) e) L' := by
  intro r' hr'
  by_cases he : r' = r
  · rw [he, Function.update_self, hself]
  · rw [Function.update_of_ne fun hc => he (crc17_inj hR hr' hr hc), hother r' he]
    exact h r' hr'

theorem TableSim.erase (h : TableSim R f L) (hR : DistinctHomes R) (hr : r ∈ R) :
    TableSim R (Function.update f (crc17 r) none) (L.erase r) := by
  apply h.update hR hr
  · rw [Ledger.find_erase, if_pos rfl, Option.bind_none]
  · exact fun r' hne => by rw [Ledger.find_erase, if_neg hne]

theorem TableSim.put (h : TableSim R f L) (hR : DistinctHomes R) (hr : r ∈ R) :
    TableSim R (Function.update f (crc17 r)
      (some ⟨r, m.price, m.shares.setWidth 24, m.side, m.symId⟩)) (L.put (LiveOrder.ofMsg m r)) := by
  apply h.update hR hr
  · rw [Ledger.find_put, if_pos (show r = (LiveOrder.ofMsg m r).orderRef from rfl)]
    rfl
  · intro r' hne
    rw [Ledger.find_put, if_neg (show r' ≠ (LiveOrder.ofMsg m r).orderRef from hne)]

theorem TableSim.entryOf {s : OrderBookModel} (h : TableSim R s.refTable L) (hr : r ∈ R) :
    s.entryOf r = (L.find r).bind LiveOrder.modelEntry := by
  apply Option.ext
  intro e
  rw [OrderBookModel.entryOf_eq_some, h r hr]
  constructor
  · exact And.left
  · intro he
    refine ⟨he, ?_⟩
    obtain ⟨o, ho, hoe⟩ := Option.bind_eq_some_iff.mp he
    rw [LiveOrder.modelEntry, Option.ite_none_left_eq_some] at hoe
    rw [← Option.some.inj hoe.2]
    exact (Ledger.find_eq_some_iff.mp ho).2

/-- A cancel or execute leaves the order it names reduced, or removes it when
nothing is left; either way the model has the entry of the reduced order. -/
theorem Ledger.find_step_of_reduce (hf : L.find m.orderRef = some o)
    (hop : bookOp m.msgType = some .cancel ∨ bookOp m.msgType = some .execute) :
    ((L.step b m).find m.orderRef).bind LiveOrder.modelEntry =
      (o.reduce m.shares24).modelEntry ∧
    ∀ r, r ≠ m.orderRef → (L.step b m).find r = L.find r := by
  have hreduce : ((L.reduce m.orderRef m.shares24).find m.orderRef).bind LiveOrder.modelEntry =
      (o.reduce m.shares24).modelEntry ∧
      ∀ r, r ≠ m.orderRef → (L.reduce m.orderRef m.shares24).find r = L.find r := by
    constructor
    · rw [Ledger.find_reduce, hf, Option.map_some, if_pos rfl, Option.bind_some]
    · intro r hr
      simp only [Ledger.find_reduce, if_neg hr, Option.map_id']
  rcases hop with hop | hop
  · simpa only [Ledger.step, hop] using hreduce
  · simp only [Ledger.step, hop, hf]
    split
    next hz =>
      constructor
      · rw [Ledger.find_erase, if_pos rfl, LiveOrder.modelEntry, if_pos (by simp [LiveOrder.reduce, hz])]
        rfl
      · exact fun r hr => by rw [Ledger.find_erase, if_neg hr]
    next => exact hreduce

end TableSim

namespace ModelSim

variable {R : Set OrderRef} {b : Book} {L : Ledger} {s : OrderBookModel} {m : BookMsg}
  {o : LiveOrder} {p : Nat}

/-- The model after `m` matches the book in its dictionary and its BBO. -/
def After (R : Set OrderRef) (b : Book) (L : Ledger) (s : OrderBookModel) (m : BookMsg) : Prop :=
  TableSim R (s.step m).refTable (L.step b m) ∧ (s.step m).bbo = (b.exec m).bbo

/-- When an order that is not spent leaves, both reset the BBO alike. -/
theorem bbo_clear (h : s.bbo = b.bbo) (hsym : m.symId = o.symId) (r : OrderRef) (n : BitVec 24)
    (e : Option ModelEntry) (c : BitVec 17) :
    ((s.setEntry c e).bboClearIfAtBbo ⟨r, o.price, n, o.side, o.symId⟩).bbo =
      b.bboWithout m o := by
  funext side sym
  rw [OrderBookModel.bbo_bboClearIfAtBbo, OrderBookModel.bbo_setEntry, h, Book.bboWithout, hsym]
  rfl

/-- Clearing a spent order changes no BBO under the condition on messages. -/
theorem bboWithout_of_spent (hm : ModelMsg R b L m) (hf : L.find m.orderRef = some o)
    (hs : o.spent = true) (hmod : IsModify m) : b.bboWithout m o = b.bbo := by
  funext side sym
  simp only [Book.bboWithout, Book.bboWithClear, hm.symbol o hf hmod]
  split
  next hc =>
    obtain ⟨hp, rfl, rfl⟩ := hc
    rcases (hm.spent o hf hs hmod).2 with hne | hz
    · exact absurd hp hne
    · exact hz.symm
  next => rfl

theorem after_add (h : ModelSim R b L s) (hR : DistinctHomes R) (hm : ModelMsg R b L m)
    (hop : bookOp m.msgType = some .add) : After R b L s m := by
  have hr := h.resolve_add hR hm.names.1 hop
  have hsame : ∀ e, s.refTable (crc17 m.orderRef) = some e → e.orderRef = m.orderRef := by
    intro e he
    rw [h.table _ hm.names.1, ← h.table.entryOf hm.names.1] at he
    exact (OrderBookModel.entryOf_eq_some.mp he).2
  obtain ⟨htable, hbbo⟩ := @OrderBookModel.add_spec s m.orderRef m.price m.shares m.side m.symId
    hsame
  simp only [After, OrderBookModel.step, Ledger.step, hop, hr]
  rw [htable, if_neg (by simp), Book.bbo_exec_add hr hop]
  refine ⟨h.table.put hR hm.names.1, ?_⟩
  funext side sym
  rw [hbbo, h.bbo]
  rfl

theorem after_reduce (h : ModelSim R b L s) (hR : DistinctHomes R) (hm : ModelMsg R b L m)
    (hres : Resolves b L m o p)
    (hop : bookOp m.msgType = some .cancel ∨ bookOp m.msgType = some .execute) :
    After R b L s m := by
  have hmod : IsModify m := by rcases hop with hop | hop <;> simp [IsModify, hop]
  have hsym := hm.symbol o hres.find hmod
  obtain ⟨hself, hother⟩ := Ledger.find_step_of_reduce (b := b) hres.find hop
  have hentry := h.table.entryOf hm.names.1
  rw [hres.find, Option.bind_some, LiveOrder.modelEntry] at hentry
  have hstep : s.step m = s.cancel m.orderRef m.shares := by
    rcases hop with hop | hop <;> simp only [OrderBookModel.step, hop, OrderBookModel.execute]
  rw [After, hstep, hres.bbo_exec_reduce hop]
  by_cases hs : o.spent = true
  · rw [if_pos hs] at hentry
    rw [OrderBookModel.cancel, hentry, bboWithout_of_spent hm hres.find hs hmod, ite_self]
    refine ⟨fun r hr => ?_, h.bbo⟩
    by_cases he : r = m.orderRef
    · rw [he, h.table _ hm.names.1, hself, hres.find, Option.bind_some, LiveOrder.modelEntry,
        if_pos hs, LiveOrder.modelEntry, if_pos (by simp [LiveOrder.reduce, hs])]
    · rw [hother r he]
      exact h.table r hr
  · rw [if_neg hs] at hentry
    have hcancel : s.cancel m.orderRef m.shares =
        if newShZero o.shares m.shares24 = true then
          (s.setEntry (crc17 m.orderRef) none).bboClearIfAtBbo
            ⟨o.orderRef, o.price, o.shares, o.side, o.symId⟩
        else s.setEntry (crc17 m.orderRef)
          (some ⟨o.orderRef, o.price, newSh o.shares m.shares24, o.side, o.symId⟩) :=
      OrderBookModel.cancel_of_entryOf hentry m.shares
    rw [LiveOrder.modelEntry] at hself
    rw [hcancel]
    cases hz : newShZero o.shares m.shares24 with
    | true =>
        rw [if_pos (by simp [LiveOrder.reduce, hz])] at hself
        rw [if_pos rfl, if_pos rfl, bbo_clear h.bbo hsym, OrderBookModel.refTable_bboClearIfAtBbo]
        exact ⟨h.table.update hR hm.names.1 hself hother, rfl⟩
    | false =>
        rw [if_neg (by simp [LiveOrder.reduce, hs, hz])] at hself
        rw [if_neg Bool.false_ne_true, if_neg Bool.false_ne_true, OrderBookModel.bbo_setEntry, h.bbo]
        exact ⟨h.table.update hR hm.names.1 hself hother, rfl⟩

theorem after_delete (h : ModelSim R b L s) (hR : DistinctHomes R) (hm : ModelMsg R b L m)
    (hres : Resolves b L m o p) (hop : bookOp m.msgType = some .delete) : After R b L s m := by
  have hmod : IsModify m := by simp [IsModify, hop]
  have hentry := h.table.entryOf hm.names.1
  rw [hres.find, Option.bind_some, LiveOrder.modelEntry] at hentry
  rw [After, hres.bbo_exec_delete hop]
  simp only [OrderBookModel.step, Ledger.step, hop]
  by_cases hs : o.spent = true
  · rw [if_pos hs] at hentry
    rw [OrderBookModel.delete, hentry, bboWithout_of_spent hm hres.find hs hmod]
    refine ⟨fun r hr => ?_, h.bbo⟩
    rw [Ledger.find_erase, h.table r hr]
    split
    next he => rw [he, hres.find, Option.bind_some, LiveOrder.modelEntry, if_pos hs, Option.bind_none]
    next => rfl
  · rw [if_neg hs] at hentry
    rw [OrderBookModel.delete, hentry]
    refine ⟨?_, bbo_clear h.bbo (hm.symbol o hres.find hmod) _ _ _ _⟩
    rw [OrderBookModel.refTable_bboClearIfAtBbo]
    exact h.table.erase hR hm.names.1

theorem after_replace (h : ModelSim R b L s) (hR : DistinctHomes R) (hm : ModelMsg R b L m)
    (hres : Resolves b L m o p) (hop : bookOp m.msgType = some .replace) : After R b L s m := by
  have hmod : IsModify m := by simp [IsModify, hop]
  have hs : o.spent ≠ true := fun hs => (hm.spent o hres.find hs hmod).1 hop
  have hentry := h.table.entryOf hm.names.1
  rw [hres.find, Option.bind_some, LiveOrder.modelEntry, if_neg hs] at hentry
  obtain ⟨htable, hbbo⟩ := @OrderBookModel.replace_spec s m.orderRef m.newOrderRef _ m.price
    m.shares m.side m.symId hentry
  rw [After, hres.bbo_exec_replace hop]
  simp only [OrderBookModel.step, Ledger.step, hop]
  rw [htable, if_neg (by simp [hres.find])]
  refine ⟨(h.table.erase hR hm.names.1).put hR (hm.names.2 hop), ?_⟩
  funext side sym
  rw [hbbo, h.bbo]
  rfl

/-- A message that names no live order changes neither side. -/
theorem after_dropped (h : ModelSim R b L s) (hr : m.orderRef ∈ R)
    (hf : L.find m.orderRef = none) (hres : b.resolve m = none)
    (hadd : bookOp m.msgType ≠ some .add) : After R b L s m := by
  have hentry := h.table.entryOf hr
  rw [hf, Option.bind_none] at hentry
  rw [After, Book.bbo_exec_of_dropped hres]
  have hstep : s.step m = s := by
    rw [OrderBookModel.step]
    split <;>
      simp_all [OrderBookModel.cancel, OrderBookModel.delete, OrderBookModel.replace,
        OrderBookModel.execute]
  rw [hstep]
  refine ⟨fun r' hr' => ?_, h.bbo⟩
  have hfind : (L.step b m).find r' = L.find r' := by
    rw [Ledger.find, Ledger.find]
    congr 1
    rw [Ledger.step]
    split <;> simp_all [Ledger.reduce_of_find_eq_none, Ledger.erase_of_find_eq_none]
  rw [hfind]
  exact h.table r' hr'

/-- **Step lemma**: book and model stay in step on a `ModelMsg`. -/
theorem step (h : ModelSim R b L s) (hR : DistinctHomes R) (hm : ModelMsg R b L m) :
    ModelSim R (b.exec m) (L.step b m) (s.step m) := by
  have hafter : After R b L s m := by
    by_cases hadd : bookOp m.msgType = some .add
    · exact h.after_add hR hm hadd
    rcases h.resolves m hadd with ⟨hf, hr⟩ | ⟨o, p, hres⟩
    · exact h.after_dropped hm.names.1 hf hr hadd
    · cases hop : bookOp m.msgType with
      | none =>
          rw [After, Book.exec, if_pos hop]
          simp only [OrderBookModel.step, Ledger.step, hop]
          exact ⟨h.table, h.bbo⟩
      | some op =>
          cases op with
          | add => exact absurd hop hadd
          | cancel => exact h.after_reduce hR hm hres (Or.inl hop)
          | delete => exact h.after_delete hR hm hres hop
          | replace => exact h.after_replace hR hm hres hop
          | execute => exact h.after_reduce hR hm hres (Or.inr hop)
  exact ⟨h.toTidy.step hR hm.names hm.other, hafter.1, hafter.2⟩

end ModelSim

/-! ## runs -/

/-- The model after a sequence of operations. -/
def OrderBookModel.ofMsgs (ms : List BookMsg) : OrderBookModel := ms.foldl OrderBookModel.step init

/-- The four BBO registers of every symbol are those of the model. -/
def Book.AgreesWith (b : Book) (s : OrderBookModel) : Prop :=
  ∀ sym, s.getBbo sym =
    (b.bboBidPriceR sym, b.bboAskPriceR sym, b.bboBidSizeR sym, b.bboAskSizeR sym)

/-- No two references have home slots within the probe window of each other. -/
def HomesApart (R : Set OrderRef) : Prop :=
  ∀ r ∈ R, ∀ r' ∈ R, r ≠ r' → ∀ p, p ≤ obMaxProbe → refSlot r p ≠ refSlot r' 0

theorem HomesApart.distinctHomes {R : Set OrderRef} (h : HomesApart R) : DistinctHomes R := by
  intro r hr r' hr' hslot
  by_contra hne
  exact h r hr r' hr' hne 0 (Nat.zero_le _) hslot

theorem Book.agreesWith_of_bbo_eq {b : Book} {s : OrderBookModel} (h : s.bbo = b.bbo) :
    b.AgreesWith s := by
  intro sym
  have hbid : (s.bboBidPrice sym, s.bboBidSize sym) = (b.bboBidPriceR sym, b.bboBidSizeR sym) :=
    congrFun (congrFun h true) sym
  have hask : (s.bboAskPrice sym, s.bboAskSize sym) = (b.bboAskPriceR sym, b.bboAskSizeR sym) :=
    congrFun (congrFun h false) sym
  rw [Prod.mk.injEq] at hbid hask
  rw [OrderBookModel.getBbo, hbid.1, hbid.2, hask.1, hask.2]

namespace OrderBook

variable {R : Set OrderRef} {i : Nat → OrderBookIn}

/-- The ledger and the model beside a run. -/
theorem ghost_ledger_model (i : Nat → OrderBookIn) (n : Nat) :
    ghost (fun (g : Ledger × OrderBookModel) b m => (g.1.step b m, g.2.step m))
      (Ledger.empty, OrderBookModel.init) i n =
    (ledger i n, OrderBookModel.ofMsgs (accepted reset i n)) := by
  induction n with
  | zero => rfl
  | succ n ih =>
      rw [ghost, ledger_succ, accepted, ih]
      split
      · rw [OrderBookModel.ofMsgs, OrderBookModel.ofMsgs, List.foldl_append]
        rfl
      · rfl

/-- **Refinement**: in a run in which every message is a `ModelMsg` the BBO
registers are those of the reference model after every operation. -/
theorem bbo_agrees_with_model (hR : DistinctHomes R) (hi : IssuedWhenReady reset i)
    (hm : EveryMsg (ModelMsg R) i) (n : Nat) (hn : (run step reset i n).bookReady = true) :
    (run step reset i n).book.AgreesWith (OrderBookModel.ofMsgs (issued i n)) := by
  have hrule := @ghost_rule _ (fun (g : Ledger × OrderBookModel) b m => (g.1.step b m, g.2.step m))
    (Ledger.empty, OrderBookModel.init) (fun b g => ModelSim R b g.1 g.2)
    (fun b g m => ModelMsg R b g.1 m) i
    ⟨tidy_zero R, fun _ _ => rfl, by funext side sym; cases side <;> rfl⟩
    (fun _ _ _ h hok => h.step hR hok) n
    (fun k _ hk hv => by
      rw [ghost_ledger_model]
      exact hm k hk hv) hn
  rw [ghost_ledger_model, accepted_eq_issued hi] at hrule
  exact Book.agreesWith_of_bbo_eq hrule.bbo

/-! ## an order cancelled down to zero -/

/-- A bid at 100 is cancelled in full, another is entered at `price`, and the
first is deleted. -/
def deleteSpent (price : BitVec 32) : List BookMsg :=
  [⟨0x41#8, 1#64, 0, 100, 10, true, 0⟩, ⟨0x58#8, 1#64, 0, 0, 10, true, 0⟩,
    ⟨0x41#8, 2#64, 0, price, 5, true, 0⟩, ⟨0x44#8, 1#64, 0, 0, 0, true, 0⟩]

theorem homesApart_one_two : HomesApart {1#64, 2#64} := by
  rintro r (rfl | rfl) r' (rfl | rfl) hne
  · exact absurd rfl hne
  · decide +kernel
  · decide +kernel
  · exact absurd rfl hne

/-- Every message of the run names its references and carries symbol 0. -/
theorem names_deleteSpent {price : BitVec 32} {m : BookMsg} (h : m ∈ deleteSpent price) :
    NamesIn {1#64, 2#64} m ∧ m.symId = 0 ∧ bookOp m.msgType ≠ some .replace := by
  simp only [deleteSpent, List.mem_cons, List.not_mem_nil, or_false] at h
  rcases h with rfl | rfl | rfl | rfl
  · exact ⟨⟨Or.inl rfl, by simp [bookOp]⟩, rfl, by simp [bookOp]⟩
  · exact ⟨⟨Or.inl rfl, by simp [bookOp]⟩, rfl, by simp [bookOp]⟩
  · exact ⟨⟨Or.inr rfl, by simp [bookOp]⟩, rfl, by simp [bookOp]⟩
  · exact ⟨⟨Or.inl rfl, by simp [bookOp]⟩, rfl, by simp [bookOp]⟩

theorem ownSymbol_deleteSpent {price : BitVec 32} {m : BookMsg} {L : Ledger}
    (h : m ∈ deleteSpent price) (hL : (L.find m.orderRef).all (·.symId = 0) = true) :
    OwnSymbol L m := by
  intro o ho _
  rw [ho, Option.all_some, decide_eq_true_eq] at hL
  rw [(names_deleteSpent h).2.1, hL]

/-- At another price the BBO of the second bid survives the delete. -/
theorem bbo_agrees_with_model_deleteSpent :
    (run step reset (spaced (deleteSpent 200)) 128).book.AgreesWith
      (OrderBookModel.ofMsgs (issued (spaced (deleteSpent 200)) 128)) := by
  refine bbo_agrees_with_model homesApart_one_two.distinctHomes (issuedWhenReady_spaced _) ?_ 128
    (by decide +kernel)
  have hmsg : ∀ {b : Book} {L : Ledger} {m : BookMsg}, m ∈ deleteSpent 200 →
      (L.find m.orderRef).all (·.symId = 0) = true →
      (L.find m.orderRef).all (fun o => !o.spent || o.price ≠ b.bboPrice o.side o.symId) = true →
      ModelMsg {1#64, 2#64} b L m := by
    intro b L m hm hsym hspent
    obtain ⟨hnames, -, hrep⟩ := names_deleteSpent hm
    refine ⟨hnames, ownSymbol_deleteSpent hm hsym, fun hop => absurd hop hrep, fun o ho hs _ => ?_⟩
    rw [ho, Option.all_some, hs, Bool.not_true, Bool.false_or, decide_eq_true_eq] at hspent
    exact ⟨hrep, Or.inl hspent⟩
  apply everyMsg_spaced
  exact ⟨hmsg (by simp [deleteSpent]) (by decide +kernel) (by decide +kernel),
    hmsg (by simp [deleteSpent]) (by decide +kernel) (by decide +kernel),
    hmsg (by simp [deleteSpent]) (by decide +kernel) (by decide +kernel),
    hmsg (by simp [deleteSpent]) (by decide +kernel) (by decide +kernel), trivial⟩

/-- At the same price the delete resets the BBO of the second bid, in the book
but not in the model. -/
theorem bbo_differs_from_model :
    HomesApart {1#64, 2#64} ∧ IssuedWhenReady reset (spaced (deleteSpent 100)) ∧
    EveryMsg (fun _ L m => NamesIn {1#64, 2#64} m ∧ OwnSymbol L m) (spaced (deleteSpent 100)) ∧
    ¬ ∀ n, (run step reset (spaced (deleteSpent 100)) n).bookReady = true →
      (run step reset (spaced (deleteSpent 100)) n).book.AgreesWith
        (OrderBookModel.ofMsgs (issued (spaced (deleteSpent 100)) n)) := by
  refine ⟨homesApart_one_two, issuedWhenReady_spaced _, ?_, fun h => ?_⟩
  · have hmsg : ∀ {L : Ledger} {m : BookMsg}, m ∈ deleteSpent 100 →
        (L.find m.orderRef).all (·.symId = 0) = true →
        NamesIn {1#64, 2#64} m ∧ OwnSymbol L m := fun hm hsym =>
      ⟨(names_deleteSpent hm).1, ownSymbol_deleteSpent hm hsym⟩
    apply everyMsg_spaced
    exact ⟨hmsg (by simp [deleteSpent]) (by decide +kernel),
      hmsg (by simp [deleteSpent]) (by decide +kernel),
      hmsg (by simp [deleteSpent]) (by decide +kernel),
      hmsg (by simp [deleteSpent]) (by decide +kernel), trivial⟩
  · obtain ⟨hr, -⟩ := replay_spaced (deleteSpent 100) 4 (le_refl _)
    have hagree := h _ ((bookReady_iff _).mpr hr.state) 0
    rw [hr.book, show issued (spaced (deleteSpent 100)) (32 * 4) = deleteSpent 100 by
      decide +kernel] at hagree
    revert hagree
    decide +kernel

end OrderBook

end Lliu
