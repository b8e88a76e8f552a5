import Lliu.OrderBook.Homes

/-!
# Lliu.OrderBook.Bbo

The best bid and offer registers.  An added order takes the BBO when its price
is better than the one before the message; an order that leaves resets it when
its price is the BBO price.  There is no rescan.

In a run without reference collisions a BBO that is not reset is therefore backed
by a live order (`BboBacked`): its price is that of the order, and its size the
share count the order was entered with.
-/

namespace Lliu

open Hdl

/-! ## what a message writes to the BBO -/

/-- A BBO: price and size. -/
abbrev BboEntry := BitVec 32 × BitVec 24

/-- The BBO of a symbol's side. -/
def Book.bbo (b : Book) (side : Bool) (sym : SymId) : BboEntry :=
  (b.bboPrice side sym, b.bboSize side sym)

/-- A price that takes the BBO of a side from `snap`. -/
def betterPrice (side : Bool) (price snap : BitVec 32) : Bool :=
  if side then bidBetter price snap else askBetter price snap

/-- The BBO `f` after message `m` has entered its order. -/
def Book.bboWithAdd (b : Book) (m : BookMsg) (f : Bool → SymId → BboEntry) :
    Bool → SymId → BboEntry := fun side sym =>
  if betterPrice m.side m.price (b.bboPrice m.side m.symId) = true ∧ side = m.side ∧ sym = m.symId
  then (m.price, m.shares24) else f side sym

/-- The BBO `f` after an order of a symbol's side at `price` has left. -/
def Book.bboWithClear (b : Book) (side : Bool) (sym : SymId) (price : BitVec 32)
    (f : Bool → SymId → BboEntry) : Bool → SymId → BboEntry := fun side' sym' =>
  if price = b.bboPrice side sym ∧ side' = side ∧ sym' = sym then (0, 0) else f side' sym'

section Writes

variable {b b' : Book} {u : UpdateRegs}

theorem Book.bbo_writeBbo (side side' : Bool) (sym sym' : SymId) (p : BitVec 32) (n : BitVec 24) :
    (b.writeBbo side sym p n).bbo side' sym' =
      if side' = side ∧ sym' = sym then (p, n) else b.bbo side' sym' := by
  by_cases hsym : sym' = sym
  · cases side <;> cases side' <;> simp [writeBbo, bbo, bboPrice, bboSize, hsym]
  · cases side <;> cases side' <;>
      simp [writeBbo, bbo, bboPrice, bboSize, hsym]

@[simp] theorem UpdateRegs.bbo_writeTarget (side : Bool) (e : Level) :
    (u.writeTarget side e b).bbo = b.bbo := by
  rw [writeTarget]
  split <;> rfl

theorem UpdateRegs.bbo_bboAdd (side : Bool) (sym : SymId) :
    (u.bboAdd b).bbo side sym =
      if u.better = true ∧ side = u.side ∧ sym = u.symId then (u.price, u.shares)
      else b.bbo side sym := by
  rw [bboAdd]
  cases u.better with
  | false => simp
  | true => simp [Book.bbo_writeBbo]

theorem UpdateRegs.bbo_bboClear (side : Bool) (sym : SymId) :
    (u.bboClear b).bbo side sym =
      if u.refEq = true ∧ side = u.refSide ∧ sym = u.symId then (0, 0) else b.bbo side sym := by
  rw [bboClear]
  cases u.refEq with
  | false => simp
  | true => simp [Book.bbo_writeBbo]

@[simp] theorem Book.bbo_writePort (w : Option (RefAddr × RefEntry)) :
    (b.writePort w).bbo = b.bbo := by
  cases w <;> rfl

end Writes

section Exec

variable {b : Book} {m : BookMsg} {a : RefAddr} {p : Nat}

theorem Book.better_regs : ((b.counted m).regs m a).better =
    betterPrice m.side m.price (b.bboPrice m.side m.symId) := by
  cases hside : m.side <;> simp [regs, UpdateRegs.better, betterPrice, bboPrice, hside, counted,
    addCollisions]

theorem Book.refEq_regs : ((b.counted m).regs m a).refEq =
    ((b.refMem a).price == b.bboPrice (b.refMem a).side m.symId) := by
  cases hside : (b.refMem a).side <;> simp [regs, UpdateRegs.refEq, bboPrice, hside, counted,
    addCollisions]

theorem Book.bbo_bboAdd_regs : (((b.counted m).regs m a).bboAdd b').bbo =
    b.bboWithAdd m b'.bbo := by
  funext side sym
  rw [UpdateRegs.bbo_bboAdd, better_regs]
  rfl

theorem Book.bbo_bboClear_regs : (((b.counted m).regs m a).bboClear b').bbo =
    b.bboWithClear (b.refMem a).side m.symId (b.refMem a).price b'.bbo := by
  funext side sym
  rw [UpdateRegs.bbo_bboClear, refEq_regs]
  simp only [bboWithClear, beq_iff_eq]
  rfl

/-- A message that is dropped leaves the BBO alone. -/
theorem Book.bbo_exec_of_dropped (h : b.resolve m = none) : (b.exec m).bbo = b.bbo := by
  rw [exec]
  split
  · rfl
  · rw [h]
    rfl

theorem Book.bbo_exec (h : b.resolve m = some p) (hop : bookOp m.msgType ≠ none) :
    (b.exec m).bbo =
      (((b.counted m).regs m (refSlot m.orderRef p)).updateBook (b.counted m)).bbo := by
  rw [exec, if_neg hop, h]
  simp only [update]
  split
  · exact bbo_writePort _
  · exact bbo_writePort _

theorem Book.bbo_exec_add (h : b.resolve m = some p) (hop : bookOp m.msgType = some .add) :
    (b.exec m).bbo = b.bboWithAdd m b.bbo := by
  rw [bbo_exec h (by simp [hop]), UpdateRegs.updateBook, show UpdateRegs.op _ = _ from hop]
  simp only [bbo_bboAdd_regs, UpdateRegs.bbo_writeTarget]
  rfl

end Exec

section Modify

variable {b : Book} {L : Ledger} {m : BookMsg} {o : LiveOrder} {p : Nat}

/-- The BBO after the order `o` named by `m` has left. -/
def Book.bboWithout (b : Book) (m : BookMsg) (o : LiveOrder) : Bool → SymId → BboEntry :=
  b.bboWithClear o.side m.symId o.price b.bbo

theorem Resolves.bbo_exec_reduce (h : Resolves b L m o p)
    (hop : bookOp m.msgType = some .cancel ∨ bookOp m.msgType = some .execute) :
    (b.exec m).bbo = if newShZero o.shares m.shares24 then b.bboWithout m o else b.bbo := by
  obtain ⟨-, -, -, hz⟩ := h.regs
  have hne : bookOp m.msgType ≠ none := by rcases hop with hop | hop <;> simp [hop]
  rw [Book.bbo_exec h.resolve hne, UpdateRegs.updateBook]
  rcases hop with hop | hop <;>
    rw [show UpdateRegs.op _ = _ from hop] <;>
    simp only [hz] <;>
    split <;>
    simp only [Book.bbo_bboClear_regs, UpdateRegs.bbo_writeTarget, h.entry] <;> rfl

theorem Resolves.bbo_exec_delete (h : Resolves b L m o p)
    (hop : bookOp m.msgType = some .delete) : (b.exec m).bbo = b.bboWithout m o := by
  rw [Book.bbo_exec h.resolve (by simp [hop]), UpdateRegs.updateBook,
    show UpdateRegs.op _ = _ from hop]
  simp only [Book.bbo_bboClear_regs, UpdateRegs.bbo_writeTarget, h.entry]
  rfl

theorem Resolves.bbo_exec_replace (h : Resolves b L m o p)
    (hop : bookOp m.msgType = some .replace) :
    (b.exec m).bbo = b.bboWithAdd m (b.bboWithout m o) := by
  rw [Book.bbo_exec h.resolve (by simp [hop]), UpdateRegs.updateBook,
    show UpdateRegs.op _ = _ from hop]
  simp only [Book.bbo_bboAdd_regs, Book.bbo_bboClear_regs, UpdateRegs.bbo_writeTarget, h.entry]
  rfl

end Modify

/-! ## the order behind the BBO -/

/-- Messages of a run without collisions: they name references of `R`, enter no
live reference, carry the symbol of the order they name, and enter between `1`
and `2 ^ 24 - 1` shares. -/
structure ProperMsg (R : Set OrderRef) (L : Ledger) (m : BookMsg) : Prop where
  names : NamesIn R m
  fresh : FreshRef L m
  symbol : OwnSymbol L m
  shares : bookOp m.msgType = some .add ∨ bookOp m.msgType = some .replace →
    1 ≤ m.shares.toNat ∧ m.shares.toNat < 2 ^ 24

/-- A live order that explains a BBO: it is at the BBO price, has shares left,
and was entered with the BBO size. -/
structure LiveOrder.Backs (o : LiveOrder) (side : Bool) (sym : SymId) (q : BboEntry) : Prop where
  side : o.side = side
  symId : o.symId = sym
  price : o.price = q.1
  pos : o.shares ≠ 0
  entered : o.entered = q.2
  le : o.shares ≤ o.entered

/-- Every BBO that is not reset is backed by a live order. -/
def BboBacked (f : Bool → SymId → BboEntry) (L : Ledger) : Prop :=
  ∀ side sym, (f side sym).1 ≠ 0 → ∃ o ∈ L, o.Backs side sym (f side sym)

theorem newSh_ne_zero {n k : BitVec 24} (h : newShZero n k = false) : newSh n k ≠ 0 := by
  simp only [newShZero, Bool.not_eq_false'] at h
  rw [newSh, if_pos h]
  simp only [BitVec.ult, decide_eq_true_eq] at h
  bv_omega

theorem newSh_le (n k : BitVec 24) : newSh n k ≤ n := by
  rw [newSh]
  split
  next h =>
    simp only [BitVec.ult, decide_eq_true_eq] at h
    bv_omega
  next => bv_omega

theorem shares24_ne_zero {m : BookMsg} (h : 1 ≤ m.shares.toNat ∧ m.shares.toNat < 2 ^ 24) :
    m.shares24 ≠ 0 := by
  obtain ⟨h1, h2⟩ := h
  intro he
  have hnat := congrArg BitVec.toNat he
  simp only [BookMsg.shares24, BitVec.toNat_setWidth] at hnat
  rw [Nat.mod_eq_of_lt h2] at hnat
  simp only [BitVec.ofNat_eq_ofNat, BitVec.toNat_ofNat] at hnat
  omega

theorem LiveOrder.backs_ofMsg {m : BookMsg} (r : OrderRef) (h : m.shares24 ≠ 0) :
    (LiveOrder.ofMsg m r).Backs m.side m.symId (m.price, m.shares24) :=
  ⟨rfl, rfl, rfl, h, rfl, BitVec.le_refl _⟩

theorem LiveOrder.Backs.reduce {o : LiveOrder} {side : Bool} {sym : SymId} {q : BboEntry}
    {n : BitVec 24} (h : o.Backs side sym q) (hn : newShZero o.shares n = false) :
    (o.reduce n).Backs side sym q :=
  ⟨h.side, h.symId, h.price, newSh_ne_zero hn, h.entered, BitVec.le_trans (newSh_le _ _) h.le⟩

namespace BboBacked

variable {b : Book} {L L' : Ledger} {m : BookMsg} {o : LiveOrder} {p : Nat}
  {f : Bool → SymId → BboEntry}

/-- Entering an order with shares keeps the BBO backed. -/
theorem withAdd {r : OrderRef} (h : BboBacked f L) (hr : L.find r = none) (hsh : m.shares24 ≠ 0) :
    BboBacked (b.bboWithAdd m f) (L.put (LiveOrder.ofMsg m r)) := by
  intro side sym hne
  simp only [Book.bboWithAdd] at hne ⊢
  split
  next hbest =>
    obtain ⟨-, rfl, rfl⟩ := hbest
    exact ⟨_, Ledger.mem_put.mpr (Or.inl rfl), LiveOrder.backs_ofMsg r hsh⟩
  next hkeep =>
    rw [if_neg hkeep] at hne
    obtain ⟨o, ho, hbacks⟩ := h side sym hne
    have hor : o.orderRef ≠ r := Ledger.find_eq_none_iff.mp hr o ho
    exact ⟨o, Ledger.mem_put.mpr (Or.inr ⟨ho, hor⟩), hbacks⟩

/-- When an order leaves, either it did not back the BBO or the BBO is reset. -/
theorem without (h : BboBacked b.bbo L) (hres : Resolves b L m o p) (hsym : m.symId = o.symId)
    (hmem : ∀ o' ∈ L, o'.orderRef ≠ m.orderRef → o' ∈ L') : BboBacked (b.bboWithout m o) L' := by
  intro side sym hne
  simp only [Book.bboWithout, Book.bboWithClear] at hne ⊢
  split
  next hclear =>
    rw [if_pos hclear] at hne
    exact absurd rfl hne
  next hkeep =>
    rw [if_neg hkeep] at hne
    obtain ⟨o', ho', hbacks⟩ := h side sym hne
    refine ⟨o', hmem o' ho' fun hr => hkeep ?_, hbacks⟩
    obtain rfl := Ledger.eq_of_orderRef_eq ho' hres.mem (hr.trans hres.orderRef.symm)
    obtain ⟨rfl, rfl, hprice, -⟩ := hbacks
    rw [hsym]
    exact ⟨hprice, rfl, rfl⟩

/-- Reducing an order that keeps some shares keeps the BBO backed. -/
theorem reduced (h : BboBacked f L) {n : BitVec 24}
    (hn : ∀ o ∈ L, o.orderRef = m.orderRef → newShZero o.shares n = false) :
    BboBacked f (L.reduce m.orderRef n) := by
  intro side sym hne
  obtain ⟨o, ho, hbacks⟩ := h side sym hne
  refine ⟨_, Ledger.mem_reduce.mpr ⟨o, ho, rfl⟩, ?_⟩
  split
  next hr => exact hbacks.reduce (hn o ho hr)
  next => exact hbacks

theorem mono (h : BboBacked f L) (hmem : ∀ o ∈ L, o ∈ L') : BboBacked f L' := by
  intro side sym hne
  obtain ⟨o, ho, hbacks⟩ := h side sym hne
  exact ⟨o, hmem o ho, hbacks⟩

/-- A message that names no live order is dropped. -/
theorem step_dropped (h : BboBacked b.bbo L) (hm : IsModify m) (hf : L.find m.orderRef = none)
    (hr : b.resolve m = none) : BboBacked (b.exec m).bbo (L.step b m) := by
  have hnone := Ledger.find_eq_none_iff.mp hf
  rw [Book.bbo_exec_of_dropped hr]
  cases hop : bookOp m.msgType with
  | none => exact absurd hop hm.1
  | some op =>
      cases op with
      | add => exact absurd hop hm.2
      | cancel =>
          simp only [Ledger.step, hop]
          exact h.reduced fun o ho hr => absurd hr (hnone o ho)
      | delete =>
          simp only [Ledger.step, hop]
          exact h.mono fun o ho => Ledger.mem_erase.mpr ⟨ho, hnone o ho⟩
      | replace | execute =>
          simp only [Ledger.step, hop, hf]
          exact h

/-- An order reduced by a message leaves the BBO with its last share. -/
theorem step_reduced (h : BboBacked b.bbo L) (hres : Resolves b L m o p) (hsym : m.symId = o.symId)
    (hop : bookOp m.msgType = some .cancel ∨ bookOp m.msgType = some .execute)
    (hgone : newShZero o.shares m.shares24 = true → ∀ o' ∈ L, o'.orderRef ≠ m.orderRef → o' ∈ L')
    (hleft : newShZero o.shares m.shares24 = false → L' = L.reduce m.orderRef m.shares24) :
    BboBacked (b.exec m).bbo L' := by
  rw [hres.bbo_exec_reduce hop]
  cases hz : newShZero o.shares m.shares24 with
  | true => exact h.without hres hsym (hgone hz)
  | false =>
      rw [hleft hz]
      refine h.reduced fun o' ho' hr => ?_
      rwa [Ledger.eq_of_orderRef_eq ho' hres.mem (hr.trans hres.orderRef.symm)]

/-- A message that names a live order. -/
theorem step_modify {R : Set OrderRef} (h : BboBacked b.bbo L) (hres : Resolves b L m o p)
    (hm : ProperMsg R L m) (hmod : IsModify m) : BboBacked (b.exec m).bbo (L.step b m) := by
  have hsym := hm.symbol o hres.find hmod
  have hstay : ∀ o' ∈ L, o'.orderRef ≠ m.orderRef → o' ∈ L.erase m.orderRef := fun o' ho' hr =>
    Ledger.mem_erase.mpr ⟨ho', hr⟩
  cases hop : bookOp m.msgType with
  | none => exact absurd hop hmod.1
  | some op =>
      cases op with
      | add => exact absurd hop hmod.2
      | cancel =>
          simp only [Ledger.step, hop]
          exact h.step_reduced hres hsym (Or.inl hop)
            (fun _ o' ho' hr => Ledger.mem_reduce.mpr ⟨o', ho', if_neg hr⟩) fun _ => rfl
      | delete =>
          simp only [Ledger.step, hop]
          rw [hres.bbo_exec_delete hop]
          exact h.without hres hsym hstay
      | replace =>
          have hlive : L.find m.orderRef ≠ none := by simp [hres.find]
          have hnew := Ledger.find_eq_none_iff.mp (hm.fresh.2 hop hlive)
          simp only [Ledger.step, hop]
          rw [hres.bbo_exec_replace hop, if_neg hlive]
          apply withAdd
          · exact h.without hres hsym hstay
          · exact Ledger.find_eq_none_iff.mpr fun o' ho' => hnew o' (Ledger.mem_erase.mp ho').1
          · exact shares24_ne_zero (hm.shares (Or.inr hop))
      | execute =>
          simp only [Ledger.step, hop, hres.find]
          exact h.step_reduced hres hsym (Or.inr hop)
            (fun hz => by rw [if_pos hz]; exact hstay) fun hz => by rw [hz]; rfl

/-- **Step lemma**: a proper message keeps the BBO backed. -/
theorem step {R : Set OrderRef} (h : BboBacked b.bbo L) (ht : Tidy R b L) (hR : DistinctHomes R)
    (hm : ProperMsg R L m) : BboBacked (b.exec m).bbo (L.step b m) := by
  by_cases hnone : bookOp m.msgType = none
  · rw [Book.exec, if_pos hnone]
    simpa only [Ledger.step, hnone] using h
  · by_cases hadd : bookOp m.msgType = some .add
    · have hr := ht.resolve_add hR hm.names.1 hadd
      simp only [Ledger.step, hadd, hr]
      rw [Book.bbo_exec_add hr hadd, if_neg (by simp)]
      exact h.withAdd (hm.fresh.1 hadd) (shares24_ne_zero (hm.shares (Or.inl hadd)))
    · rcases ht.resolves m hadd with ⟨hf, hr⟩ | ⟨o, p, hres⟩
      · exact h.step_dropped ⟨hnone, hadd⟩ hf hr
      · exact h.step_modify hres hm ⟨hnone, hadd⟩

end BboBacked

/-! ## runs -/

namespace OrderBook

variable {R : Set OrderRef} {i : Nat → OrderBookIn}

/-- In a run of proper messages every BBO that is not reset is backed. -/
theorem bboBacked_of_proper (hR : DistinctHomes R)
    (hm : EveryMsg (fun _ L m => ProperMsg R L m) i) :
    EveryReady (fun b L => BboBacked b.bbo L) i := by
  intro n hn
  have hrule := ledger_rule (i := i) (P := fun b L => Tidy R b L ∧ BboBacked b.bbo L)
    ⟨tidy_zero R, fun side sym hne => by cases side <;> exact absurd rfl hne⟩
    (fun b L m h hok => ⟨h.1.step hR hok.names hok.fresh.replacesByOther, h.2.step h.1 hR hok⟩) hm
  exact (hrule n hn).2

/-- **BBO price soundness**: whenever the book is ready, a nonzero best bid is
the price of a live bid of that symbol with shares left, and a nonzero best ask
that of a live ask. -/
theorem bbo_price_sound (hR : DistinctHomes R)
    (hm : EveryMsg (fun _ L m => ProperMsg R L m) i) :
    EveryReady (fun b L => ∀ sym,
      (b.bboBidPriceR sym ≠ 0 → ∃ o ∈ L, o.symId = sym ∧ o.side = true ∧
        0 < o.shares.toNat ∧ o.price = b.bboBidPriceR sym) ∧
      (b.bboAskPriceR sym ≠ 0 → ∃ o ∈ L, o.symId = sym ∧ o.side = false ∧
        0 < o.shares.toNat ∧ o.price = b.bboAskPriceR sym)) i := by
  intro n hn sym
  have hpos : ∀ {k : BitVec 24}, k ≠ 0 → 0 < k.toNat := fun hk =>
    Nat.pos_of_ne_zero fun he => hk (BitVec.eq_of_toNat_eq he)
  constructor
  · intro hne
    obtain ⟨o, ho, hb⟩ := bboBacked_of_proper hR hm n hn true sym hne
    exact ⟨o, ho, hb.symId, hb.side, hpos hb.pos, hb.price⟩
  · intro hne
    obtain ⟨o, ho, hb⟩ := bboBacked_of_proper hR hm n hn false sym hne
    exact ⟨o, ho, hb.symId, hb.side, hpos hb.pos, hb.price⟩

/-- **BBO size**: whenever the book is ready and a BBO price is nonzero, some
live order of that symbol and side at that price was entered with the BBO size,
and has between one and that many shares left. -/
theorem bbo_size_entered (hR : DistinctHomes R)
    (hm : EveryMsg (fun _ L m => ProperMsg R L m) i) :
    EveryReady (fun b L => ∀ side sym, b.bboPrice side sym ≠ 0 →
      ∃ o ∈ L, o.symId = sym ∧ o.side = side ∧ o.price = b.bboPrice side sym ∧
        b.bboSize side sym = o.entered ∧ 0 < o.shares.toNat ∧
        o.shares.toNat ≤ o.entered.toNat) i := by
  intro n hn side sym hne
  obtain ⟨o, ho, hb⟩ := bboBacked_of_proper hR hm n hn side sym hne
  have hpos : 0 < o.shares.toNat := Nat.pos_of_ne_zero fun he => hb.pos (BitVec.eq_of_toNat_eq he)
  exact ⟨o, ho, hb.symId, hb.side, hb.price, hb.entered.symm, hpos, hb.le⟩

/-! ## a partial cancel -/

/-- A bid of ten shares, four of which are then cancelled. -/
def partialCancel : List BookMsg :=
  [⟨0x41#8, 1#64, 0, 100, 10, true, 0⟩, ⟨0x58#8, 1#64, 0, 0, 4, true, 0⟩]

theorem distinctHomes_singleton (r : OrderRef) : DistinctHomes {r} := by
  rintro _ rfl _ rfl -
  rfl

theorem properMsg_partialCancel :
    EveryMsg (fun _ L m => ProperMsg {1#64} L m) (spaced partialCancel) := by
  apply everyMsg_spaced
  refine ⟨⟨⟨rfl, by decide⟩, ⟨fun _ => rfl, by decide⟩, fun o ho => ?_, by decide⟩,
    ⟨⟨rfl, by decide⟩, ⟨by decide, by decide⟩, fun o ho _ => ?_, by decide⟩, trivial⟩
  · cases ho
  · have hfind : (replay (partialCancel.take 1)).2.find 1#64 =
        some ⟨1, 0, true, 100, 10, 10, false⟩ := by decide +kernel
    rw [← Option.some.inj (hfind.symm.trans ho)]

theorem bbo_price_sound_partialCancel :
    EveryReady (fun b L => ∀ sym,
      (b.bboBidPriceR sym ≠ 0 → ∃ o ∈ L, o.symId = sym ∧ o.side = true ∧
        0 < o.shares.toNat ∧ o.price = b.bboBidPriceR sym) ∧
      (b.bboAskPriceR sym ≠ 0 → ∃ o ∈ L, o.symId = sym ∧ o.side = false ∧
        0 < o.shares.toNat ∧ o.price = b.bboAskPriceR sym)) (spaced partialCancel) :=
  bbo_price_sound (distinctHomes_singleton 1#64) properMsg_partialCancel

theorem bbo_size_entered_partialCancel :
    EveryReady (fun b L => ∀ side sym, b.bboPrice side sym ≠ 0 →
      ∃ o ∈ L, o.symId = sym ∧ o.side = side ∧ o.price = b.bboPrice side sym ∧
        b.bboSize side sym = o.entered ∧ 0 < o.shares.toNat ∧
        o.shares.toNat ≤ o.entered.toNat) (spaced partialCancel) :=
  bbo_size_entered (distinctHomes_singleton 1#64) properMsg_partialCancel

/-- The BBO size is the remaining shares of one of the orders at the BBO price,
or of all of them. -/
def BboSizeFresh (b : Book) (L : Ledger) : Prop :=
  ∀ side sym, b.bboPrice side sym ≠ 0 →
    (∃ o ∈ L.atPrice sym side (b.bboPrice side sym), b.bboSize side sym = o.shares) ∨
    (b.bboSize side sym).toNat =
      ((L.atPrice sym side (b.bboPrice side sym)).map (·.shares.toNat)).sum

/-- After a partial cancel the BBO size is still the ten shares entered. -/
theorem bbo_size_stale :
    IssuedWhenReady reset (spaced partialCancel) ∧ DistinctHomes {1#64} ∧
    EveryMsg (fun _ L m => ProperMsg {1#64} L m) (spaced partialCancel) ∧
    ¬ EveryReady BboSizeFresh (spaced partialCancel) := by
  refine ⟨issuedWhenReady_spaced _, distinctHomes_singleton _, properMsg_partialCancel, fun h => ?_⟩
  have hfresh := h.replay true 0 (by decide +kernel)
  revert hfresh
  decide +kernel

end OrderBook

end Lliu
