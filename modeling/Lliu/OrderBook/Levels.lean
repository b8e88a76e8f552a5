import Mathlib.Algebra.BigOperators.Fin
import Lliu.OrderBook.Homes

/-!
# Lliu.OrderBook.Levels

The price levels against the live orders.  An add writes the first level without
shares, every other operation the first level with the price of the order it
names.  The levels hold the shares of the live orders as long as that level is
the one of the named order: `LevelOk`.  It fails when two orders share a price,
when an order with price zero meets an emptied level, and when the level of a
cancelled order has been taken by another before it is replaced.

The two sides are compared through weights, `Balanced`: any weight of a level
that is zero without shares sums up to the same over the levels as over the live
orders.
-/

namespace Lliu

open Hdl

/-! ## what a message writes to the levels -/

/-- The levels of a symbol's side. -/
def Book.levels (b : Book) (sym : SymId) (side : Bool) : Fin obLevels → Level := fun k =>
  b.bookMem k (sym, side)

/-- Write a level, if one was found. -/
def writeAt (t : Option (Fin obLevels)) (e : Level) (f : Fin obLevels → Level) :
    Fin obLevels → Level :=
  match t with
  | none => f
  | some k => Function.update f k e

section Writes

variable {b : Book} {u : UpdateRegs}

@[simp] theorem Book.bookMem_writeBbo (side : Bool) (sym : SymId) (p : BitVec 32) (n : BitVec 24) :
    (b.writeBbo side sym p n).bookMem = b.bookMem := by
  cases side <;> rfl

@[simp] theorem UpdateRegs.levels_bboAdd : (u.bboAdd b).levels = b.levels := by
  rw [bboAdd]
  split
  · funext sym side k
    simp only [Book.levels, Book.bookMem_writeBbo]
  · rfl

@[simp] theorem UpdateRegs.levels_bboClear : (u.bboClear b).levels = b.levels := by
  rw [bboClear]
  split
  · funext sym side k
    simp only [Book.levels, Book.bookMem_writeBbo]
  · rfl

@[simp] theorem Book.levels_writePort (w : Option (RefAddr × RefEntry)) :
    (b.writePort w).levels = b.levels := by
  cases w <;> rfl

theorem Book.levels_writeLevel (k : Fin obLevels) (sym : SymId) (side : Bool) (e : Level)
    (sym' : SymId) (side' : Bool) :
    (b.writeLevel k sym side e).levels sym' side' =
      if sym' = sym ∧ side' = side then Function.update (b.levels sym' side') k e
      else b.levels sym' side' := by
  funext j
  by_cases hk : j = k
  · subst hk
    by_cases hkey : sym' = sym ∧ side' = side
    · obtain ⟨rfl, rfl⟩ := hkey
      simp [levels, writeLevel]
    · have hne : (sym', side') ≠ (sym, side) := fun he => hkey (Prod.mk.inj he)
      rw [if_neg hkey]
      simp [levels, writeLevel, Function.update_of_ne hne]
  · by_cases hkey : sym' = sym ∧ side' = side <;>
      simp [levels, writeLevel, hk, hkey]

theorem UpdateRegs.levels_writeTarget (side : Bool) (e : Level) (t : Option (Fin obLevels))
    (hl : u.targetLevel = t.getD 0) (hf : u.targetFound = t.isSome) (sym' : SymId) (side' : Bool) :
    (u.writeTarget side e b).levels sym' side' =
      if sym' = u.symId ∧ side' = side then writeAt t e (b.levels sym' side')
      else b.levels sym' side' := by
  rw [writeTarget, hl, hf]
  cases t with
  | none => simp [writeAt]
  | some k => simp [writeAt, Book.levels_writeLevel]

end Writes

section Exec

variable {b : Book} {L : Ledger} {m : BookMsg} {o : LiveOrder} {p : Nat}

theorem Book.levels_exec_of_dropped (h : b.resolve m = none) : (b.exec m).levels = b.levels := by
  rw [exec]
  split
  · rfl
  · rw [h]
    rfl

theorem Book.levels_exec (h : b.resolve m = some p) (hop : bookOp m.msgType ≠ none) :
    (b.exec m).levels =
      (((b.counted m).regs m (refSlot m.orderRef p)).updateBook (b.counted m)).levels := by
  rw [exec, if_neg hop, h]
  simp only [update]
  split
  · exact levels_writePort _
  · exact levels_writePort _

/-- An add writes the first level without shares. -/
theorem Book.levels_exec_add (h : b.resolve m = some p) (hop : bookOp m.msgType = some .add)
    (sym : SymId) (side : Bool) :
    (b.exec m).levels sym side =
      if sym = m.symId ∧ side = m.side then
        writeAt (firstMatch fun k => (b.levels sym side k).shares == 0#24)
          ⟨m.price, m.shares24⟩ (b.levels sym side)
      else b.levels sym side := by
  rw [levels_exec h (by simp [hop]), UpdateRegs.updateBook, show UpdateRegs.op _ = _ from hop]
  simp only [UpdateRegs.levels_bboAdd]
  rw [UpdateRegs.levels_writeTarget _ _ _ rfl rfl]
  simp only [targetLevel, hop, bookSide, if_true]
  by_cases hkey : sym = m.symId ∧ side = m.side
  · refine (if_pos hkey).trans (Eq.trans ?_ (if_pos hkey).symm)
    rw [hkey.1, hkey.2]
    rfl
  · exact (if_neg hkey).trans (if_neg hkey).symm

/-- What a message that names order `o` leaves in the level of that order. -/
def levelAfter (m : BookMsg) (o : LiveOrder) : Level :=
  match bookOp m.msgType with
  | some .cancel => ⟨o.price, newSh o.shares m.shares24⟩
  | some .execute =>
      if newShZero o.shares m.shares24 then Level.zero else ⟨o.price, newSh o.shares m.shares24⟩
  | some .replace => ⟨m.price, m.shares24⟩
  | _ => Level.zero

/-- The first level at the price of an order. -/
def Book.levelOf (b : Book) (o : LiveOrder) : Option (Fin obLevels) :=
  firstMatch fun k => (b.levels o.symId o.side k).price == o.price

/-- The other operations write the first level at the price of their order. -/
theorem Resolves.levels_exec (h : Resolves b L m o p) (hm : IsModify m)
    (hsym : m.symId = o.symId) (hside : bookOp m.msgType = some .replace → m.side = o.side)
    (sym : SymId) (side : Bool) :
    (b.exec m).levels sym side =
      if sym = o.symId ∧ side = o.side then
        writeAt (b.levelOf o) (levelAfter m o) (b.levels sym side)
      else b.levels sym side := by
  have htarget : (b.counted m).targetLevel m (refSlot m.orderRef p) = b.levelOf o := by
    rw [Book.targetLevel, Book.levelOf, Book.bookSide]
    simp only [if_neg hm.2]
    rw [show (b.counted m).refMem = b.refMem from rfl, h.entry, hsym]
    rfl
  have hwrite : ∀ e (b' : Book), (((b.counted m).regs m (refSlot m.orderRef p)).writeTarget
      o.side e b').levels sym side = if sym = o.symId ∧ side = o.side then
        writeAt (b.levelOf o) e (b'.levels sym side) else b'.levels sym side := by
    intro e b'
    rw [UpdateRegs.levels_writeTarget _ _ _ rfl rfl, htarget, show UpdateRegs.symId _ = _ from hsym]
  obtain ⟨hrs, hrp, hsh, hz⟩ := h.regs
  rw [Book.levels_exec h.resolve hm.1, UpdateRegs.updateBook]
  cases hop : bookOp m.msgType with
  | none => exact absurd hop hm.1
  | some op =>
      rw [show UpdateRegs.op _ = _ from hop, levelAfter, hop]
      cases op with
      | add => exact absurd hop hm.2
      | cancel =>
          simp only [hrs, hrp, hsh]
          split
          · rw [UpdateRegs.levels_bboClear, hwrite]
            rfl
          · rw [hwrite]
            rfl
      | delete =>
          simp only [hrs]
          rw [UpdateRegs.levels_bboClear, hwrite]
          rfl
      | replace =>
          simp only [hrs]
          rw [UpdateRegs.levels_bboAdd, UpdateRegs.levels_bboClear,
            show UpdateRegs.side _ = _ from hside hop, hwrite, hwrite]
          split
          · cases b.levelOf o with
            | none => rfl
            | some k => exact Function.update_idem ..
          · rfl
      | execute =>
          simp only [hrs, hrp, hsh, hz]
          split
          · rw [UpdateRegs.levels_bboClear, hwrite]
            rfl
          · rw [hwrite]
            rfl

end Exec

/-! ## weights -/

/-- A weight that ignores levels without shares. -/
def NullWeight (w : Level → Nat) : Prop := ∀ l, l.shares = 0 → w l = 0

/-- The level of an order that has one to itself. -/
def LiveOrder.level (o : LiveOrder) : Level := ⟨o.price, o.shares⟩

/-- The weight of a live order on a symbol's side. -/
def keyWeight (sym : SymId) (side : Bool) (w : Level → Nat) (o : LiveOrder) : Nat :=
  if o.symId = sym ∧ o.side = side then w o.level else 0

/-- The levels and the live orders of every symbol's side weigh the same. -/
def Balanced (b : Book) (L : Ledger) : Prop :=
  ∀ sym side w, NullWeight w → ∑ k, w (b.levels sym side k) = L.total (keyWeight sym side w)

/-- The shares of a level at a given price. -/
def priceWeight (price : BitVec 32) (l : Level) : Nat :=
  if l.price = price then l.shares.toNat else 0

/-- Whether a level has shares. -/
def openWeight (l : Level) : Nat := if l.shares = 0 then 0 else 1

theorem nullWeight_priceWeight (price : BitVec 32) : NullWeight (priceWeight price) := by
  intro l hl
  rw [priceWeight, hl]
  split <;> rfl

theorem nullWeight_openWeight : NullWeight openWeight := fun _ hl => if_pos hl

/-- Writing a level trades its weight for that of the new entry. -/
theorem sum_update_level (w : Level → Nat) (f : Fin obLevels → Level) (k : Fin obLevels)
    (e : Level) : ∑ j, w (Function.update f k e j) + w (f k) = ∑ j, w (f j) + w e := by
  have hupd : (fun j => w (Function.update f k e j)) = Function.update (fun j => w (f j)) k (w e) := by
    funext j
    by_cases hj : j = k
    · rw [hj, Function.update_self, Function.update_self]
    · rw [Function.update_of_ne hj, Function.update_of_ne hj]
  rw [hupd, Finset.sum_update_of_mem (Finset.mem_univ k), ← Finset.erase_eq,
    ← Finset.add_sum_erase _ _ (Finset.mem_univ k)]
  omega

theorem firstMatch_some {f : Fin obLevels → Bool} {k : Fin obLevels} (h : firstMatch f = some k) :
    f k = true := List.find?_some h

theorem firstMatch_none {f : Fin obLevels → Bool} (h : firstMatch f = none) (k : Fin obLevels) :
    f k = false := by
  have hk := List.find?_eq_none.mp h k (List.mem_finRange k)
  simpa using hk

/-! ## the condition on a message -/

/-- The first level at the price of the order a message names holds the shares
of that order; if there is none, a replace enters no shares. -/
def LevelOk (b : Book) (L : Ledger) (m : BookMsg) : Prop :=
  ∀ o, L.find m.orderRef = some o → IsModify m →
    match b.levelOf o with
    | some k => (b.levels o.symId o.side k).shares = o.shares
    | none => bookOp m.msgType = some .replace → m.shares24 = 0

/-- The live orders of a symbol's side. -/
def Ledger.countAt (L : Ledger) (sym : SymId) (side : Bool) : Nat :=
  L.total fun o => if o.symId = sym ∧ o.side = side then 1 else 0

/-- Messages of a run with distinct references that do not collide, each
carrying its order's symbol, with at most `OB_LEVELS` live orders per symbol and
side, and replaces that keep their side. -/
structure LevelMsg (R : Set OrderRef) (b : Book) (L : Ledger) (m : BookMsg) : Prop where
  names : NamesIn R m
  fresh : FreshRef L m
  symbol : OwnSymbol L m
  side : bookOp m.msgType = some .replace → ∀ o, L.find m.orderRef = some o → m.side = o.side
  capacity : ∀ sym side, (L.step b m).countAt sym side ≤ obLevels

section Step

variable {R : Set OrderRef} {b : Book} {L : Ledger} {m : BookMsg} {o : LiveOrder} {p : Nat}

/-- What a message that names order `o` does to the weight of the live orders. -/
theorem Resolves.total_step (hres : Resolves b L m o p) (hm : IsModify m) (hl : LevelMsg R b L m)
    (sym : SymId) (side : Bool) {w : Level → Nat} (hw : NullWeight w) :
    (L.step b m).total (keyWeight sym side w) =
      (if sym = o.symId ∧ side = o.side then w (levelAfter m o) else 0) +
        (L.erase m.orderRef).total (keyWeight sym side w) := by
  have hsym := hl.symbol o hres.find hm
  have hreduce : (L.reduce m.orderRef m.shares24).total (keyWeight sym side w) =
      (if sym = o.symId ∧ side = o.side then w ⟨o.price, newSh o.shares m.shares24⟩ else 0) +
        (L.erase m.orderRef).total (keyWeight sym side w) := by
    rw [Ledger.total_reduce hres.mem hres.orderRef]
    simp only [keyWeight, LiveOrder.reduce, LiveOrder.level, eq_comm (a := o.symId),
      eq_comm (a := o.side)]
  have hzero : w Level.zero = 0 := hw _ rfl
  cases hop : bookOp m.msgType with
  | none => exact absurd hop hm.1
  | some op =>
      rw [levelAfter, hop]
      simp only [Ledger.step, hop]
      cases op with
      | add => exact absurd hop hm.2
      | cancel => exact hreduce
      | delete => simp [hzero]
      | replace =>
          have hlive : L.find m.orderRef ≠ none := by simp [hres.find]
          have hnew := hl.fresh.2 hop hlive
          have hnew' : (L.erase m.orderRef).find m.newOrderRef = none :=
            Ledger.find_eq_none_iff.mpr fun o' ho' =>
              Ledger.find_eq_none_iff.mp hnew o' (Ledger.mem_erase.mp ho').1
          rw [if_neg hlive, Ledger.total_put,
            show (LiveOrder.ofMsg m m.newOrderRef).orderRef = m.newOrderRef from rfl,
            Ledger.total_erase_of_find_eq_none hnew']
          simp only [keyWeight, LiveOrder.ofMsg, LiveOrder.level, hsym, hl.side hop o hres.find,
            eq_comm (a := o.symId), eq_comm (a := o.side)]
      | execute =>
          simp only [hres.find]
          cases hz : newShZero o.shares m.shares24 with
          | true => simp [hzero]
          | false => exact hreduce

/-- An order for whose price there is no level has no shares left. -/
theorem Balanced.shares_eq_zero (h : Balanced b L) (ho : o ∈ L) (hnone : b.levelOf o = none) :
    o.shares = 0 := by
  have hsum := h o.symId o.side _ (nullWeight_priceWeight o.price)
  have hlevels : ∀ k, priceWeight o.price (b.levels o.symId o.side k) = 0 := by
    intro k
    have hne := firstMatch_none hnone k
    rw [priceWeight, if_neg (by simpa using hne)]
  rw [Finset.sum_eq_zero fun k _ => hlevels k, Ledger.total_of_mem ho] at hsum
  have hown : keyWeight o.symId o.side (priceWeight o.price) o = o.shares.toNat := by
    simp [keyWeight, priceWeight, LiveOrder.level]
  rw [hown] at hsum
  exact BitVec.eq_of_toNat_eq (show o.shares.toNat = 0 by omega)

/-- Without shares left there is nothing to leave behind but a replacing order. -/
theorem shares_levelAfter (hm : IsModify m) (ho : o.shares = 0)
    (hrep : bookOp m.msgType = some .replace → m.shares24 = 0) : (levelAfter m o).shares = 0 := by
  rw [levelAfter]
  cases hop : bookOp m.msgType with
  | none => exact absurd hop hm.1
  | some op =>
      cases op with
      | add => exact absurd hop hm.2
      | cancel => simp [newSh, ho, BitVec.ult]
      | delete => rfl
      | replace => exact hrep hop
      | execute => simp [newShZero, ho, BitVec.ult, Level.zero]

/-- The weights of the levels before and after a message that names order `o`. -/
theorem Resolves.sum_levels (hres : Resolves b L m o p) (hm : IsModify m) (hl : LevelMsg R b L m)
    (w : Level → Nat) :
    match b.levelOf o with
    | some k => ∑ j, w ((b.exec m).levels o.symId o.side j) + w (b.levels o.symId o.side k) =
        ∑ j, w (b.levels o.symId o.side j) + w (levelAfter m o)
    | none => ∑ j, w ((b.exec m).levels o.symId o.side j) = ∑ j, w (b.levels o.symId o.side j) := by
  have hlevels := hres.levels_exec hm (hl.symbol o hres.find hm)
    (fun hop => hl.side hop o hres.find) o.symId o.side
  rw [if_pos ⟨rfl, rfl⟩] at hlevels
  rw [hlevels]
  cases b.levelOf o with
  | none => rfl
  | some k => exact sum_update_level w _ k _

/-- A message that names a live order keeps the balance if its level is that of
the order. -/
theorem Balanced.step_modify (h : Balanced b L) (hres : Resolves b L m o p) (hm : IsModify m)
    (hl : LevelMsg R b L m) (hok : LevelOk b L m) : Balanced (b.exec m) (L.step b m) := by
  intro sym side w hw
  have hbefore := h sym side w hw
  rw [Ledger.total_of_mem hres.mem, hres.orderRef] at hbefore
  rw [hres.total_step hm hl sym side hw]
  by_cases hkey : sym = o.symId ∧ side = o.side
  · obtain ⟨rfl, rfl⟩ := hkey
    have hown : keyWeight o.symId o.side w o = w o.level := if_pos ⟨rfl, rfl⟩
    have hsum := hres.sum_levels hm hl w
    have hcond := hok o hres.find hm
    rw [hown] at hbefore
    rw [if_pos ⟨rfl, rfl⟩]
    cases hlevel : b.levelOf o with
    | none =>
        rw [hlevel] at hsum hcond
        have hzero := h.shares_eq_zero hres.mem hlevel
        rw [hsum, hbefore, hw _ hzero, hw _ (shares_levelAfter hm hzero hcond)]
    | some k =>
        rw [hlevel] at hsum hcond
        dsimp only at hsum hcond
        have hprice : (b.levels o.symId o.side k).price = o.price := by
          simpa using firstMatch_some hlevel
        have hsame : b.levels o.symId o.side k = o.level := by
          rw [LiveOrder.level, ← hprice, ← hcond]
        rw [hsame] at hsum
        omega
  · have hlevels := hres.levels_exec hm (hl.symbol o hres.find hm)
      (fun hop => hl.side hop o hres.find) sym side
    rw [if_neg hkey] at hlevels
    have hown : keyWeight sym side w o = 0 := if_neg fun he => hkey ⟨he.1.symm, he.2.symm⟩
    rw [hlevels, hbefore, hown, if_neg hkey]

/-- With fewer than four orders on a side some level is without shares. -/
theorem Balanced.exists_free (h : Balanced b L) {sym : SymId} {side : Bool}
    (hcount : L.countAt sym side < obLevels) :
    firstMatch (fun k => (b.levels sym side k).shares == 0#24) ≠ none := by
  intro hnone
  have hopen := h sym side _ nullWeight_openWeight
  have hone : ∀ k, openWeight (b.levels sym side k) = 1 := by
    intro k
    have hne := firstMatch_none hnone k
    exact if_neg (by simpa using hne)
  rw [Finset.sum_congr rfl fun k _ => hone k, Finset.sum_const, Finset.card_univ,
    Fintype.card_fin, smul_eq_mul, mul_one] at hopen
  have hle : L.total (keyWeight sym side openWeight) ≤ L.countAt sym side := by
    apply List.sum_le_sum
    intro o _
    simp only [keyWeight, openWeight]
    split
    · split <;> omega
    · exact le_refl _
  omega

/-- An added order takes a free level. -/
theorem Balanced.step_add (h : Balanced b L) (ht : Tidy R b L) (hR : DistinctHomes R)
    (hop : bookOp m.msgType = some .add) (hl : LevelMsg R b L m) :
    Balanced (b.exec m) (L.step b m) := by
  have hr := ht.resolve_add hR hl.names.1 hop
  have hfresh := hl.fresh.1 hop
  have hstep : L.step b m = L.put (LiveOrder.ofMsg m m.orderRef) := by
    simp [Ledger.step, hop, hr]
  have htotal : ∀ v, (L.step b m).total v = v (LiveOrder.ofMsg m m.orderRef) + L.total v := by
    intro v
    rw [hstep, Ledger.total_put,
      show (LiveOrder.ofMsg m m.orderRef).orderRef = m.orderRef from rfl,
      Ledger.total_erase_of_find_eq_none hfresh]
  intro sym side w hw
  have hbefore := h sym side w hw
  rw [htotal, Book.levels_exec_add hr hop, keyWeight]
  by_cases hkey : sym = m.symId ∧ side = m.side
  · obtain ⟨rfl, rfl⟩ := hkey
    have hcap := hl.capacity m.symId m.side
    rw [Ledger.countAt, htotal] at hcap
    have hcount : L.countAt m.symId m.side < obLevels := by
      rw [Ledger.countAt]
      simp only [LiveOrder.ofMsg, and_self, if_true] at hcap
      omega
    have hfree := h.exists_free hcount
    obtain ⟨k, hk⟩ := Option.ne_none_iff_exists'.mp hfree
    have hzero : w (b.levels m.symId m.side k) = 0 := hw _ (by simpa using firstMatch_some hk)
    have hsum := sum_update_level w (b.levels m.symId m.side) k ⟨m.price, m.shares24⟩
    rw [if_pos ⟨rfl, rfl⟩, hk, if_pos ⟨rfl, rfl⟩]
    simp only [writeAt, LiveOrder.level, LiveOrder.ofMsg]
    omega
  · rw [if_neg hkey, hbefore, if_neg fun he => hkey ⟨he.1.symm, he.2.symm⟩, Nat.zero_add]

/-- **Step lemma**: the balance is kept by a message whose level is that of the
order it names. -/
theorem Balanced.step (h : Balanced b L) (ht : Tidy R b L) (hR : DistinctHomes R)
    (hl : LevelMsg R b L m) (hok : LevelOk b L m) : Balanced (b.exec m) (L.step b m) := by
  cases hop : bookOp m.msgType with
  | none =>
      rw [Book.exec, if_pos hop]
      simpa only [Ledger.step, hop] using h
  | some op =>
      by_cases hadd : op = .add
      · exact h.step_add ht hR (by rw [hop, hadd]) hl
      · have hm : IsModify m := ⟨by simp [hop], by simpa [hop] using hadd⟩
        rcases ht.resolves m hm.2 with ⟨hf, hr⟩ | ⟨o, p, hres⟩
        · intro sym side w hw
          rw [Book.levels_exec_of_dropped hr, h sym side w hw]
          have herase := Ledger.erase_of_find_eq_none hf
          have hreduce := Ledger.reduce_of_find_eq_none (n := m.shares24) hf
          cases op <;> simp [Ledger.step, hop, hf, Ledger.total, herase, hreduce] at hadd ⊢
        · exact h.step_modify hres hm hl hok

end Step

/-! ## share conservation -/

/-- For every symbol, side and price the levels at that price hold the shares
of the live orders at that price. -/
def SharesConserved (b : Book) (L : Ledger) : Prop :=
  ∀ sym side price,
    ∑ k, (if (b.bookMem k (sym, side)).price = price then (b.bookMem k (sym, side)).shares.toNat
      else 0) = ((L.atPrice sym side price).map (·.shares.toNat)).sum

section Conserved

variable {R : Set OrderRef} {b : Book} {L : Ledger} {m : BookMsg} {o : LiveOrder} {p : Nat}

/-- The shares at a price, as a weight. -/
theorem sum_atPrice (L : Ledger) (sym : SymId) (side : Bool) (price : BitVec 32) :
    ((L.atPrice sym side price).map (·.shares.toNat)).sum =
      L.total (keyWeight sym side (priceWeight price)) := by
  rw [Ledger.atPrice, Ledger.total]
  induction L.orders with
  | nil => rfl
  | cons o os ih =>
      by_cases hkey : o.symId = sym ∧ o.side = side ∧ o.price = price
      · have hown : keyWeight sym side (priceWeight price) o = o.shares.toNat := by
          rw [keyWeight, if_pos ⟨hkey.1, hkey.2.1⟩]
          exact if_pos hkey.2.2
        rw [List.filter_cons_of_pos (by simpa using hkey), List.map_cons, List.sum_cons, ih,
          List.map_cons, List.sum_cons, hown]
      · have hzero : keyWeight sym side (priceWeight price) o = 0 := by
          rw [keyWeight]
          split
          next hside => exact if_neg fun hprice => hkey ⟨hside.1, hside.2, hprice⟩
          next => rfl
        rw [List.filter_cons_of_neg (by simpa using hkey), ih, List.map_cons, List.sum_cons, hzero,
          Nat.zero_add]

theorem sharesConserved_iff : SharesConserved b L ↔ ∀ sym side price,
    ∑ k, priceWeight price (b.levels sym side k) =
      L.total (keyWeight sym side (priceWeight price)) := by
  simp only [SharesConserved, sum_atPrice]
  rfl

theorem Balanced.sharesConserved (h : Balanced b L) : SharesConserved b L :=
  sharesConserved_iff.mpr fun sym side price => h sym side _ (nullWeight_priceWeight price)

/-- **Exactness**: if the shares are conserved after a message, its level was
that of the order it names. -/
theorem Balanced.levelOk_of_conserved (h : Balanced b L) (ht : Tidy R b L)
    (hl : LevelMsg R b L m) (hafter : SharesConserved (b.exec m) (L.step b m)) :
    LevelOk b L m := by
  intro o hfind hm
  obtain ⟨p, hres⟩ : ∃ p, Resolves b L m o p := by
    rcases ht.resolves m hm.2 with ⟨hf, -⟩ | ⟨o', p, hres⟩
    · rw [hf] at hfind
      cases hfind
    · rw [← Option.some.inj (hres.find.symm.trans hfind)]
      exact ⟨p, hres⟩
  -- the sums of one price before and after the message
  have hsums : ∀ price, ∑ j, priceWeight price (b.levels o.symId o.side j) + priceWeight price
      (levelAfter m o) = ∑ j, priceWeight price ((b.exec m).levels o.symId o.side j) +
        priceWeight price o.level := by
    intro price
    have hw := nullWeight_priceWeight price
    have hbefore := h o.symId o.side _ hw
    have hstep := sharesConserved_iff.mp hafter o.symId o.side price
    rw [Ledger.total_of_mem hres.mem, hres.orderRef,
      show keyWeight o.symId o.side (priceWeight price) o = priceWeight price o.level from
        if_pos ⟨rfl, rfl⟩] at hbefore
    rw [hres.total_step hm hl _ _ hw, if_pos ⟨rfl, rfl⟩] at hstep
    omega
  have hlevels := fun price => hres.sum_levels hm hl (priceWeight price)
  cases hlevel : b.levelOf o with
  | some k =>
      have hsum := hlevels o.price
      rw [hlevel] at hsum
      dsimp only at hsum ⊢
      have hprice : (b.levels o.symId o.side k).price = o.price := by
        simpa using firstMatch_some hlevel
      have hown := hsums o.price
      have hk : priceWeight o.price (b.levels o.symId o.side k) =
          (b.levels o.symId o.side k).shares.toNat := if_pos hprice
      have ho : priceWeight o.price o.level = o.shares.toNat := if_pos rfl
      rw [hk] at hsum
      rw [ho] at hown
      exact BitVec.eq_of_toNat_eq (by omega)
  | none =>
      dsimp only
      intro hop
      have hsum := hlevels m.price
      rw [hlevel] at hsum
      dsimp only at hsum
      have hown := hsums m.price
      have hzero := h.shares_eq_zero hres.mem hlevel
      have ho : priceWeight m.price o.level = 0 := nullWeight_priceWeight _ _ hzero
      have hnew : priceWeight m.price (levelAfter m o) = m.shares24.toNat := by
        simp [levelAfter, hop, priceWeight]
      rw [ho, hnew] at hown
      exact BitVec.eq_of_toNat_eq (show m.shares24.toNat = 0 by omega)

end Conserved

/-- No side has more orders than the whole ledger. -/
theorem Ledger.countAt_le (L : Ledger) (sym : SymId) (side : Bool) :
    L.countAt sym side ≤ L.orders.length := by
  have hle := List.sum_le_card_nsmul
    (L.orders.map fun o => if o.symId = sym ∧ o.side = side then 1 else 0) 1 (by
      intro x hx
      obtain ⟨o, -, rfl⟩ := List.mem_map.mp hx
      split <;> omega)
  rw [List.length_map, smul_eq_mul, Nat.mul_one] at hle
  exact hle

/-! ## runs -/

namespace OrderBook

variable {R : Set OrderRef} {i : Nat → OrderBookIn}

/-- The invariant of a run in which every message finds the level of its
order, up to a cycle. -/
theorem balanced_upto (hR : DistinctHomes R) (hm : EveryMsg (LevelMsg R) i) (N : Nat)
    (hok : ∀ n, n < N → (run step reset i n).bookReady = true → (i n).fieldsValid = true →
      LevelOk (run step reset i n).book (ledger i n) (i n).msg)
    (hN : (run step reset i N).bookReady = true) :
    Tidy R (run step reset i N).book (ledger i N) ∧ Balanced (run step reset i N).book (ledger i N) :=
  @ledger_rule_upto (fun b L => Tidy R b L ∧ Balanced b L)
    (fun b L m => LevelMsg R b L m ∧ LevelOk b L m) i
    ⟨tidy_zero R, fun _ _ _ hw => Finset.sum_eq_zero fun _ _ => hw _ rfl⟩
    (fun _ _ _ h hs => ⟨h.1.step hR hs.1.names hs.1.fresh.replacesByOther,
      h.2.step h.1 hR hs.1 hs.2⟩) N
    (fun n hn hready hv => ⟨hm n hready hv, hok n hn hready hv⟩) hN

/-- **Share conservation**: in a run of distinct references that do not collide
the levels hold the shares of the live orders at every price, whenever the book
is ready, exactly when every message finds the level of the order it names. -/
theorem shares_conserved_iff (hR : DistinctHomes R) (hm : EveryMsg (LevelMsg R) i) :
    EveryReady SharesConserved i ↔ EveryMsg LevelOk i := by
  constructor
  · intro h n
    induction n using Nat.strong_induction_on with
    | _ n ih =>
        intro hn hv
        obtain ⟨ht, hb⟩ := balanced_upto hR hm n ih hn
        obtain ⟨n', -, hn', hbook, hledger⟩ := exists_ready_after hn hv
        have hafter := h n' hn'
        rw [hbook, hledger] at hafter
        exact hb.levelOk_of_conserved ht (hm n hn hv) hafter
  · intro hok n hn
    exact (balanced_upto hR hm n (fun k _ => hok k) hn).2.sharesConserved

/-- Two bids at one price, and a partial cancel of the second. -/
def sharedPrice : List BookMsg :=
  [⟨0x41#8, 1#64, 0, 100, 10, true, 0⟩, ⟨0x41#8, 2#64, 0, 100, 7, true, 0⟩,
    ⟨0x58#8, 2#64, 0, 0, 2, true, 0⟩]

theorem distinctHomes_one_two : DistinctHomes {1#64, 2#64} := by
  have hne : refSlot 1#64 0 ≠ refSlot 2#64 0 := by decide +kernel
  rintro r (rfl | rfl) r' (rfl | rfl) h
  · rfl
  · exact absurd h hne
  · exact absurd h.symm hne
  · rfl

theorem levelMsg_sharedPrice : EveryMsg (LevelMsg {1#64, 2#64}) (spaced sharedPrice) := by
  apply everyMsg_spaced
  have hcap : ∀ {L : Ledger}, L.orders.length ≤ 4 → ∀ sym side, L.countAt sym side ≤ obLevels :=
    fun hle sym side => le_trans (Ledger.countAt_le _ sym side) hle
  have hfind : (replay (sharedPrice.take 2)).2.find 2#64 = some ⟨2, 0, true, 100, 7, 7, false⟩ := by
    decide +kernel
  refine ⟨⟨⟨Or.inl rfl, by decide⟩, ⟨fun _ => rfl, by decide⟩, fun o ho => ?_, by decide,
      hcap (by decide +kernel)⟩,
    ⟨⟨Or.inr rfl, by decide⟩, ⟨fun _ => by decide +kernel, by decide⟩, fun o _ hm => ?_,
      fun hop => absurd hop (by decide), hcap (by decide +kernel)⟩,
    ⟨⟨Or.inr rfl, by decide⟩, ⟨by decide, by decide⟩, fun o ho _ => ?_,
      fun hop => absurd hop (by decide), hcap (by decide +kernel)⟩, trivial⟩
  · cases ho
  · exact absurd rfl hm.2
  · rw [← Option.some.inj (hfind.symm.trans ho)]

theorem shares_conserved_iff_sharedPrice :
    EveryReady SharesConserved (spaced sharedPrice) ↔ EveryMsg LevelOk (spaced sharedPrice) :=
  shares_conserved_iff distinctHomes_one_two levelMsg_sharedPrice

/-- The cancel reduces the level of the first bid: twelve shares are left in the
levels at the price where fifteen are live. -/
theorem shares_not_conserved :
    IssuedWhenReady reset (spaced sharedPrice) ∧ DistinctHomes {1#64, 2#64} ∧
    EveryMsg (LevelMsg {1#64, 2#64}) (spaced sharedPrice) ∧
    ¬ EveryReady SharesConserved (spaced sharedPrice) := by
  refine ⟨issuedWhenReady_spaced _, distinctHomes_one_two, levelMsg_sharedPrice, fun h => ?_⟩
  have hsum := h.replay 0 true 100
  revert hsum
  decide +kernel

end OrderBook

end Lliu
