import Lliu.OrderBook.Live

/-!
# Lliu.OrderBook.Table

The reference table against the live orders.  `Mirror` says that the table is
findable and holds exactly the live orders.  It is kept by every message that is
`Safe`, that is

* a delete or a full execution may only vacate a slot that no other stored
  reference has on its probe path, for the search stops at a vacant slot;
* a replace must write its new reference to a slot that is free of other
  orders and is not the slot it vacates afterwards.

Both conditions are exact; see `Lliu.OrderBook.Found`.
-/

namespace Lliu

open Hdl

/-! ## what a message writes to the table -/

section Writes

variable (u : UpdateRegs) (b : Book) (m : BookMsg)

@[simp] theorem Book.refMem_writeLevel (lvl : Fin obLevels) (sym : SymId) (side : Bool)
    (e : Level) : (b.writeLevel lvl sym side e).refMem = b.refMem := rfl

@[simp] theorem Book.refMem_writeBbo (side : Bool) (sym : SymId) (p : BitVec 32) (n : BitVec 24) :
    (b.writeBbo side sym p n).refMem = b.refMem := by
  cases side <;> rfl

@[simp] theorem UpdateRegs.refMem_writeTarget (side : Bool) (e : Level) :
    (u.writeTarget side e b).refMem = b.refMem := by
  rw [writeTarget]
  split <;> rfl

@[simp] theorem UpdateRegs.refMem_bboAdd : (u.bboAdd b).refMem = b.refMem := by
  rw [bboAdd]
  split <;> simp

@[simp] theorem UpdateRegs.refMem_bboClear : (u.bboClear b).refMem = b.refMem := by
  rw [bboClear]
  split <;> simp

/-- `S_UPDATE` writes the table only through its port. -/
@[simp] theorem UpdateRegs.refMem_updateBook : (u.updateBook b).refMem = b.refMem := by
  rw [updateBook]
  split <;> (try split) <;> simp

/-- The entry a message stores for reference `r`. -/
def RefEntry.ofMsg (m : BookMsg) (r : OrderRef) : RefEntry where
  valid := true
  orderRef := r
  price := m.price
  shares := m.shares24
  side := m.side

/-- The entry with `n` shares fewer. -/
def RefEntry.reduce (e : RefEntry) (n : BitVec 24) : RefEntry :=
  { e with shares := newSh e.shares n }

/-- The table after a message resolved at `a`. -/
def Book.refMemAfter (b : Book) (m : BookMsg) (a : RefAddr) : RefAddr → RefEntry :=
  match bookOp m.msgType with
  | some .add => Function.update b.refMem a (RefEntry.ofMsg m m.orderRef)
  | some .cancel => Function.update b.refMem a ((b.refMem a).reduce m.shares24)
  | some .delete => Function.update b.refMem a RefEntry.zero
  | some .replace =>
      Function.update (Function.update b.refMem (refSlot m.newOrderRef 0)
        (RefEntry.ofMsg m m.newOrderRef)) a RefEntry.zero
  | some .execute =>
      Function.update b.refMem a
        (if newShZero (b.refMem a).shares m.shares24 then RefEntry.zero
        else (b.refMem a).reduce m.shares24)
  | none => b.refMem

section After

variable {b m} {a : RefAddr}

theorem Book.refMemAfter_add (hop : bookOp m.msgType = some .add) :
    b.refMemAfter m a = Function.update b.refMem a (RefEntry.ofMsg m m.orderRef) := by
  rw [refMemAfter, hop]

theorem Book.refMemAfter_cancel (hop : bookOp m.msgType = some .cancel) :
    b.refMemAfter m a = Function.update b.refMem a ((b.refMem a).reduce m.shares24) := by
  rw [refMemAfter, hop]

theorem Book.refMemAfter_delete (hop : bookOp m.msgType = some .delete) :
    b.refMemAfter m a = Function.update b.refMem a RefEntry.zero := by
  rw [refMemAfter, hop]

theorem Book.refMemAfter_replace (hop : bookOp m.msgType = some .replace) :
    b.refMemAfter m a = Function.update (Function.update b.refMem (refSlot m.newOrderRef 0)
      (RefEntry.ofMsg m m.newOrderRef)) a RefEntry.zero := by
  rw [refMemAfter, hop]

theorem Book.refMemAfter_execute (hop : bookOp m.msgType = some .execute) :
    b.refMemAfter m a = Function.update b.refMem a
      (if newShZero (b.refMem a).shares m.shares24 then RefEntry.zero
      else (b.refMem a).reduce m.shares24) := by
  rw [refMemAfter, hop]

end After

theorem refSlot_zero (r : OrderRef) : refSlot r 0 = (crc17 r).setWidth obRefTableBits := by
  simp [refSlot, slotOfHash]

/-- A message that is dropped leaves the table alone. -/
theorem Book.refMem_exec_of_dropped (h : b.resolve m = none) : (b.exec m).refMem = b.refMem := by
  rw [exec]
  split
  · rfl
  · rw [h]
    rfl

/-- **Table writes** of a message that is resolved.  Other than an add, it is
resolved at a valid entry of its own reference. -/
theorem Book.refMem_exec {p : Nat} (h : b.resolve m = some p)
    (he : bookOp m.msgType ≠ some .add → (b.refMem (refSlot m.orderRef p)).valid = true ∧
      (b.refMem (refSlot m.orderRef p)).orderRef = m.orderRef) :
    (b.exec m).refMem = b.refMemAfter m (refSlot m.orderRef p) := by
  have hc : (b.counted m).refMem = b.refMem := rfl
  have hreduced : bookOp m.msgType ≠ some .add → ((b.counted m).regs m (refSlot m.orderRef p)).reducedEntry =
      (b.refMem (refSlot m.orderRef p)).reduce m.shares24 := by
    intro hne
    obtain ⟨hv, hr⟩ := he hne
    rw [RefEntry.reduce, hv, hr]
    rfl
  rw [exec, refMemAfter]
  cases hop : bookOp m.msgType with
  | none => rw [if_pos rfl]
  | some op =>
      rw [if_neg (by simp), h]
      rw [hop] at hreduced
      have hregs : ((b.counted m).regs m (refSlot m.orderRef p)).op = some op := hop
      cases op with
      | add =>
          simp only [update, UpdateRegs.refWrite, hregs, writePort, writeRef]
          simp [regs, hc, RefEntry.ofMsg]
      | cancel =>
          simp only [update, UpdateRegs.refWrite, hregs, writePort, writeRef,
            hreduced (by simp)]
          simp [regs, hc]
      | delete =>
          simp only [update, UpdateRegs.refWrite, hregs, writePort, writeRef]
          simp [regs, hc]
      | replace =>
          simp only [update, UpdateRegs.refWrite, hregs, writePort, writeRef]
          simp [regs, hc, RefEntry.ofMsg, refSlot_zero]
      | execute =>
          simp only [update, UpdateRegs.refWrite, hregs, writePort, writeRef,
            hreduced (by simp)]
          simp [regs, hc]

end Writes

/-! ## the table mirrors the live orders -/

/-- The table entry of a live order. -/
def LiveOrder.entry (o : LiveOrder) : RefEntry where
  valid := true
  orderRef := o.orderRef
  price := o.price
  shares := o.shares
  side := o.side

/-- The reference an entry stores. -/
def RefEntry.key (e : RefEntry) : Option OrderRef := if e.valid then some e.orderRef else none

@[simp] theorem RefEntry.key_zero : RefEntry.zero.key = none := rfl

@[simp] theorem LiveOrder.key_entry (o : LiveOrder) : o.entry.key = some o.orderRef := rfl

theorem Book.keyAt_eq (b : Book) (a : RefAddr) : b.keyAt a = (b.refMem a).key := rfl

/-- A stored reference is that of a valid entry. -/
theorem Book.entry_of_keyAt {b : Book} {a : RefAddr} {r : OrderRef} (h : b.keyAt a = some r) :
    (b.refMem a).valid = true ∧ (b.refMem a).orderRef = r := by
  rw [keyAt_eq, RefEntry.key] at h
  cases hv : (b.refMem a).valid with
  | false => simp [hv] at h
  | true =>
      rw [hv, if_pos rfl] at h
      exact ⟨rfl, Option.some.inj h⟩

theorem Book.keyAt_update {b b' : Book} {a : RefAddr} {e : RefEntry}
    (h : b'.refMem = Function.update b.refMem a e) :
    b'.keyAt = Function.update b.keyAt a e.key := by
  funext a'
  rw [keyAt_eq, h]
  by_cases ha : a' = a
  · rw [ha, Function.update_self, Function.update_self]
  · rw [Function.update_of_ne ha, Function.update_of_ne ha, keyAt_eq]

/-- Every stored reference is found by its own search. -/
def Book.TableFindable (b : Book) : Prop := Findable refSlot (obMaxProbe + 1) b.keyAt

/-- No other stored reference has `a` on its probe path. -/
def Book.SlotVacatable (b : Book) (a : RefAddr) : Prop :=
  Vacatable refSlot (obMaxProbe + 1) b.keyAt a

/-- The reference table is findable and holds exactly the live orders. -/
structure Mirror (b : Book) (L : Ledger) : Prop where
  findable : b.TableFindable
  sound : ∀ a, (b.refMem a).valid = true → ∃ o ∈ L, b.refMem a = o.entry
  complete : ∀ o ∈ L, ∃ a, b.refMem a = o.entry

namespace Mirror

variable {b b' : Book} {L L' : Ledger} {o : LiveOrder} {a : RefAddr} {p : Nat}

/-- A live order is found, in its own entry. -/
theorem lookup_of_mem (h : Mirror b L) (ho : o ∈ L) :
    ∃ p, b.lookup o.orderRef = .hit p ∧ b.refMem (refSlot o.orderRef p) = o.entry := by
  obtain ⟨a, ha⟩ := h.complete o ho
  obtain ⟨p, hp, rfl⟩ := h.findable a o.orderRef (by rw [Book.keyAt_eq, ha, LiveOrder.key_entry])
  exact ⟨p, hp, ha⟩

/-- A stored reference is that of a live order. -/
theorem mem_of_keyAt (h : Mirror b L) {a : RefAddr} {r : OrderRef} (hk : b.keyAt a = some r) :
    ∃ o ∈ L, o.orderRef = r ∧ b.refMem a = o.entry := by
  obtain ⟨hv, hr⟩ := Book.entry_of_keyAt hk
  obtain ⟨o, ho, he⟩ := h.sound _ hv
  rw [he] at hr
  exact ⟨o, ho, hr, he⟩

/-- What is found is a live order. -/
theorem mem_of_lookup (h : Mirror b L) {r : OrderRef} (hp : b.lookup r = .hit p) :
    ∃ o ∈ L, o.orderRef = r ∧ b.refMem (refSlot r p) = o.entry :=
  h.mem_of_keyAt (stored_of_find hp)

/-- A reference that is not live is not found. -/
theorem lookup_ne_hit (h : Mirror b L) {r : OrderRef} (hr : L.find r = none) (p : Nat) :
    b.lookup r ≠ .hit p := by
  intro hp
  obtain ⟨o, ho, hor, -⟩ := h.mem_of_lookup hp
  exact Ledger.find_eq_none_iff.mp hr o ho hor

theorem congr (h : Mirror b L) (ht : b'.refMem = b.refMem) (hL : ∀ o, o ∈ L' ↔ o ∈ L) :
    Mirror b' L' := by
  have hkey : b'.keyAt = b.keyAt := by
    funext a
    rw [Book.keyAt_eq, Book.keyAt_eq, ht]
  refine ⟨?_, fun a ha => ?_, fun o ho => ?_⟩
  · rw [Book.TableFindable, hkey]
    exact h.findable
  · rw [ht] at ha ⊢
    obtain ⟨o, ho, he⟩ := h.sound a ha
    exact ⟨o, (hL o).mpr ho, he⟩
  · rw [ht]
    exact h.complete o ((hL o).mp ho)

/-- An order stored where its search ends becomes live. -/
theorem store (h : Mirror b L) (hp : EndsAt refSlot (obMaxProbe + 1) b.keyAt o.orderRef p)
    (ht : b'.refMem = Function.update b.refMem (refSlot o.orderRef p) o.entry) :
    Mirror b' (L.put o) := by
  have hkey := Book.keyAt_update ht
  refine ⟨?_, fun a ha => ?_, fun o' ho' => ?_⟩
  · rw [Book.TableFindable, hkey, LiveOrder.key_entry]
    exact h.findable.store hp
  · rw [ht] at ha ⊢
    by_cases haddr : a = refSlot o.orderRef p
    · exact ⟨o, by simp, by rw [haddr, Function.update_self]⟩
    · rw [Function.update_of_ne haddr] at ha ⊢
      obtain ⟨o', ho', he⟩ := h.sound a ha
      have hstored : b.keyAt a = some o'.orderRef := by rw [Book.keyAt_eq, he, LiveOrder.key_entry]
      refine ⟨o', Ledger.mem_put.mpr (Or.inr ⟨ho', fun hr => ?_⟩), he⟩
      -- another copy of the reference would have ended its search
      rw [hr] at hstored
      rcases hp with hvac | hhit
      · exact h.findable.not_stored (fun q hq => by rw [hvac] at hq; cases hq) a hstored
      · exact haddr (h.findable.unique hstored (stored_of_find hhit))
  · rw [ht]
    rcases Ledger.mem_put.mp ho' with rfl | ⟨ho', hr⟩
    · exact ⟨_, Function.update_self ..⟩
    · obtain ⟨a, ha⟩ := h.complete o' ho'
      refine ⟨a, ?_⟩
      rw [Function.update_of_ne, ha]
      rintro rfl
      have hend := (endsAt_iff.mp hp).2.1
      rw [Book.keyAt_eq, ha, LiveOrder.key_entry] at hend
      simp [hr] at hend

/-- An order whose slot is vacated safely is no longer live. -/
theorem vacate (h : Mirror b L) (ha : b.refMem a = o.entry) (hv : b.SlotVacatable a)
    (ht : b'.refMem = Function.update b.refMem a RefEntry.zero) : Mirror b' (L.erase o.orderRef) := by
  have hkey := Book.keyAt_update ht
  have hstored : b.keyAt a = some o.orderRef := by rw [Book.keyAt_eq, ha, LiveOrder.key_entry]
  refine ⟨?_, fun a' ha' => ?_, fun o' ho' => ?_⟩
  · rw [Book.TableFindable, hkey, RefEntry.key_zero]
    exact (findable_vacate_iff h.findable).mpr hv
  · rw [ht] at ha' ⊢
    by_cases haa : a' = a
    · rw [haa, Function.update_self] at ha'
      cases ha'
    · rw [Function.update_of_ne haa] at ha' ⊢
      obtain ⟨o', ho', he⟩ := h.sound a' ha'
      refine ⟨o', Ledger.mem_erase.mpr ⟨ho', fun hr => haa ?_⟩, he⟩
      exact h.findable.unique (by rw [Book.keyAt_eq, he, LiveOrder.key_entry, hr]) hstored
  · rw [ht]
    obtain ⟨ho', hr⟩ := Ledger.mem_erase.mp ho'
    obtain ⟨a', ha'⟩ := h.complete o' ho'
    refine ⟨a', ?_⟩
    rw [Function.update_of_ne, ha']
    rintro rfl
    rw [ha] at ha'
    exact hr (congrArg RefEntry.orderRef ha').symm

end Mirror

/-- The zeroed table mirrors the empty ledger. -/
theorem mirror_zero : Mirror Book.zero Ledger.empty where
  findable := findable_empty
  sound a ha := by cases ha
  complete o ho := absurd ho Ledger.not_mem_empty

/-! ## where a message is resolved -/

theorem Book.resolve_add_iff {b : Book} {m : BookMsg} {p : Nat} (hop : bookOp m.msgType = some .add) :
    b.resolve m = some p ↔ EndsAt refSlot (obMaxProbe + 1) b.keyAt m.orderRef p := by
  rw [resolve, EndsAt, ← lookup]
  cases b.lookup m.orderRef <;> simp [hop]

theorem Book.resolve_modify_iff {b : Book} {m : BookMsg} {p : Nat}
    (hop : bookOp m.msgType ≠ some .add) :
    b.resolve m = some p ↔ b.lookup m.orderRef = .hit p := by
  rw [resolve]
  cases b.lookup m.orderRef <;> simp [hop]

/-- An operation on an order already in the table: the live order `o` it names,
and the step `p` of the search that finds it. -/
structure Resolves (b : Book) (L : Ledger) (m : BookMsg) (o : LiveOrder) (p : Nat) : Prop where
  mem : o ∈ L
  orderRef : o.orderRef = m.orderRef
  lookup : b.lookup m.orderRef = .hit p
  entry : b.refMem (refSlot m.orderRef p) = o.entry

namespace Resolves

variable {b : Book} {L : Ledger} {m : BookMsg} {o : LiveOrder} {p : Nat}

theorem find (h : Resolves b L m o p) : L.find m.orderRef = some o :=
  Ledger.find_eq_some_iff.mpr ⟨h.mem, h.orderRef⟩

theorem resolve (h : Resolves b L m o p) : b.resolve m = some p := by
  rw [Book.resolve, h.lookup]

/-- The update registers hold the data of the order found. -/
theorem regs (h : Resolves b L m o p) :
    ((b.counted m).regs m (refSlot m.orderRef p)).refSide = o.side ∧
    ((b.counted m).regs m (refSlot m.orderRef p)).refPrice = o.price ∧
    ((b.counted m).regs m (refSlot m.orderRef p)).newSh = newSh o.shares m.shares24 ∧
    ((b.counted m).regs m (refSlot m.orderRef p)).newShZero = newShZero o.shares m.shares24 := by
  have he : (b.counted m).refMem (refSlot m.orderRef p) = o.entry := h.entry
  simp only [Book.regs, he]
  exact ⟨rfl, rfl, rfl, rfl⟩

theorem refMem_exec (h : Resolves b L m o p) :
    (b.exec m).refMem = b.refMemAfter m (refSlot m.orderRef p) :=
  b.refMem_exec m h.resolve fun _ => by
    rw [h.entry]
    exact ⟨rfl, h.orderRef⟩

end Resolves

/-- **Resolution**: an operation other than an add is dropped when it names no
live order, and is resolved at the order it names otherwise. -/
theorem Mirror.resolves {b : Book} {L : Ledger} (h : Mirror b L) (m : BookMsg)
    (hop : bookOp m.msgType ≠ some .add) :
    (L.find m.orderRef = none ∧ b.resolve m = none) ∨ ∃ o p, Resolves b L m o p := by
  cases hf : L.find m.orderRef with
  | none =>
      left
      refine ⟨rfl, Option.eq_none_iff_forall_ne_some.mpr fun p hp => ?_⟩
      exact h.lookup_ne_hit hf p ((Book.resolve_modify_iff hop).mp hp)
  | some o =>
      right
      obtain ⟨ho, hr⟩ := Ledger.find_eq_some_iff.mp hf
      obtain ⟨p, hp, he⟩ := h.lookup_of_mem ho
      rw [hr] at hp he
      exact ⟨o, p, ho, hr, hp, he⟩

/-! ## safe messages -/

/-- The home slot of a reference holds no other order. -/
def Book.HomeFree (b : Book) (r : OrderRef) : Prop :=
  b.keyAt (refSlot r 0) = none ∨ b.keyAt (refSlot r 0) = some r

/-- A message resolved in step `p` keeps every live order findable. -/
def SafeAt (b : Book) (m : BookMsg) (p : Nat) : Prop :=
  match bookOp m.msgType with
  | some .delete => b.SlotVacatable (refSlot m.orderRef p)
  | some .execute =>
      newShZero (b.refMem (refSlot m.orderRef p)).shares m.shares24 = true →
        b.SlotVacatable (refSlot m.orderRef p)
  | some .replace =>
      refSlot m.newOrderRef 0 ≠ refSlot m.orderRef p ∧ b.HomeFree m.newOrderRef ∧
        b.SlotVacatable (refSlot m.orderRef p)
  | _ => True

/-- A message keeps every live order findable: a delete or full execution must
not vacate a slot on the probe path of another stored reference, and a replace
must in addition find the home slot of its new reference free. -/
def Safe (b : Book) (m : BookMsg) : Prop := ∀ p, b.lookup m.orderRef = .hit p → SafeAt b m p

theorem Book.HomeFree.endsAt {b : Book} {r : OrderRef} (h : b.HomeFree r) :
    EndsAt refSlot (obMaxProbe + 1) b.keyAt r 0 :=
  endsAt_iff.mpr ⟨by decide, h, fun q hq => absurd hq (Nat.not_lt_zero q)⟩

namespace Mirror

variable {b : Book} {L : Ledger} {m : BookMsg}

theorem step_add (h : Mirror b L) (hop : bookOp m.msgType = some .add) :
    Mirror (b.exec m) (L.step b m) := by
  simp only [Ledger.step, hop]
  cases hr : b.resolve m with
  | none => exact h.congr (b.refMem_exec_of_dropped m hr) fun o => by rw [if_pos rfl]
  | some p =>
      rw [if_neg (by simp)]
      apply h.store (o := LiveOrder.ofMsg m m.orderRef) ((Book.resolve_add_iff hop).mp hr)
      rw [b.refMem_exec m hr fun hne => absurd hop hne, Book.refMemAfter_add hop]
      rfl

/-- A resolved order whose shares are reduced. -/
theorem reduce (h : Mirror b L) {o : LiveOrder} {p : Nat} (hres : Resolves b L m o p)
    (n : BitVec 24) {b' : Book} (ht : b'.refMem = Function.update b.refMem (refSlot m.orderRef p)
      ((b.refMem (refSlot m.orderRef p)).reduce n)) : Mirror b' (L.reduce m.orderRef n) := by
  have hput : Mirror b' (L.put (o.reduce n)) := by
    have hend : EndsAt refSlot (obMaxProbe + 1) b.keyAt (o.reduce n).orderRef p := by
      rw [show (o.reduce n).orderRef = m.orderRef from hres.orderRef]
      exact Or.inr hres.lookup
    apply h.store hend
    rw [ht, hres.entry, show (o.reduce n).orderRef = m.orderRef from hres.orderRef]
    rfl
  refine hput.congr rfl fun o' => ?_
  rw [Ledger.mem_reduce, Ledger.mem_put, show (o.reduce n).orderRef = m.orderRef from hres.orderRef]
  constructor
  · rintro ⟨o'', ho'', rfl⟩
    by_cases hr : o''.orderRef = m.orderRef
    · left
      rw [if_pos hr, Ledger.eq_of_orderRef_eq ho'' hres.mem (hr.trans hres.orderRef.symm)]
    · right
      rw [if_neg hr]
      exact ⟨ho'', hr⟩
  · rintro (rfl | ⟨ho', hr⟩)
    · exact ⟨o, hres.mem, by rw [if_pos hres.orderRef]⟩
    · exact ⟨o', ho', by rw [if_neg hr]⟩

/-- A reference that is not live is not affected by reducing or erasing it. -/
theorem congr_reduce (h : Mirror b L) (hf : L.find m.orderRef = none) (n : BitVec 24) {b' : Book}
    (ht : b'.refMem = b.refMem) : Mirror b' (L.reduce m.orderRef n) := by
  have hne := Ledger.find_eq_none_iff.mp hf
  refine h.congr ht fun o => ?_
  rw [Ledger.mem_reduce]
  constructor
  · rintro ⟨o', ho', rfl⟩
    rwa [if_neg (hne o' ho')]
  · exact fun ho => ⟨o, ho, by rw [if_neg (hne o ho)]⟩

theorem congr_erase (h : Mirror b L) (hf : L.find m.orderRef = none) {b' : Book}
    (ht : b'.refMem = b.refMem) : Mirror b' (L.erase m.orderRef) := by
  have hne := Ledger.find_eq_none_iff.mp hf
  refine h.congr ht fun o => ?_
  rw [Ledger.mem_erase]
  exact ⟨fun ho => ho.1, fun ho => ⟨ho, hne o ho⟩⟩

theorem step_cancel (h : Mirror b L) (hop : bookOp m.msgType = some .cancel) :
    Mirror (b.exec m) (L.step b m) := by
  simp only [Ledger.step, hop]
  rcases h.resolves m (by simp [hop]) with ⟨hf, hr⟩ | ⟨o, p, hres⟩
  · exact h.congr_reduce hf _ (b.refMem_exec_of_dropped m hr)
  · exact h.reduce hres _ (by rw [hres.refMem_exec, Book.refMemAfter_cancel hop])

theorem step_delete (h : Mirror b L) (hop : bookOp m.msgType = some .delete) (hs : Safe b m) :
    Mirror (b.exec m) (L.step b m) := by
  simp only [Ledger.step, hop]
  rcases h.resolves m (by simp [hop]) with ⟨hf, hr⟩ | ⟨o, p, hres⟩
  · exact h.congr_erase hf (b.refMem_exec_of_dropped m hr)
  · have hv := hs p hres.lookup
    rw [SafeAt, hop] at hv
    rw [← hres.orderRef]
    exact h.vacate hres.entry hv (by rw [hres.refMem_exec, Book.refMemAfter_delete hop])

theorem step_execute (h : Mirror b L) (hop : bookOp m.msgType = some .execute) (hs : Safe b m) :
    Mirror (b.exec m) (L.step b m) := by
  simp only [Ledger.step, hop]
  rcases h.resolves m (by simp [hop]) with ⟨hf, hr⟩ | ⟨o, p, hres⟩
  · exact h.congr (b.refMem_exec_of_dropped m hr) fun o => by rw [hf]
  · have hv := hs p hres.lookup
    have ht := hres.refMem_exec
    rw [SafeAt, hop] at hv
    rw [Book.refMemAfter_execute hop] at ht
    simp only [hres.find]
    have hsh : (b.refMem (refSlot m.orderRef p)).shares = o.shares := by rw [hres.entry]; rfl
    rw [hsh] at hv ht
    cases hz : newShZero o.shares m.shares24 with
    | true =>
        rw [if_pos rfl, ← hres.orderRef]
        exact h.vacate hres.entry (hv hz) (by rw [ht, hz]; rfl)
    | false =>
        rw [if_neg Bool.false_ne_true]
        exact h.reduce hres _ (by rw [ht, hz]; rfl)

theorem step_replace (h : Mirror b L) (hop : bookOp m.msgType = some .replace) (hs : Safe b m) :
    Mirror (b.exec m) (L.step b m) := by
  simp only [Ledger.step, hop]
  rcases h.resolves m (by simp [hop]) with ⟨hf, hr⟩ | ⟨o, p, hres⟩
  · exact h.congr (b.refMem_exec_of_dropped m hr) fun o => by rw [hf, if_pos rfl]
  · have hsafe := hs p hres.lookup
    rw [SafeAt, hop] at hsafe
    obtain ⟨hslot, hfree, hv⟩ := hsafe
    have ht := hres.refMem_exec
    rw [Book.refMemAfter_replace hop] at ht
    -- the table between the two writes
    let b₁ : Book := b.writeRef (refSlot m.newOrderRef 0) (RefEntry.ofMsg m m.newOrderRef)
    have h₁ : Mirror b₁ (L.put (LiveOrder.ofMsg m m.newOrderRef)) :=
      h.store (o := LiveOrder.ofMsg m m.newOrderRef) hfree.endsAt rfl
    have he₁ : b₁.refMem (refSlot m.orderRef p) = o.entry := by
      rw [← hres.entry]
      exact Function.update_of_ne (Ne.symm hslot) _ _
    have hv₁ : b₁.SlotVacatable (refSlot m.orderRef p) := by
      have hstore := Vacatable.store h.findable hv hfree.endsAt fun q hq =>
        absurd hq (Nat.not_lt_zero q)
      rw [Book.SlotVacatable, Book.keyAt_update (show b₁.refMem = _ from rfl)]
      exact hstore
    have h₂ : Mirror (b.exec m) _ := h₁.vacate he₁ hv₁ ht
    refine h₂.congr rfl fun o' => ?_
    rw [hres.find, if_neg (by simp)]
    have hne : m.newOrderRef ≠ o.orderRef := by
      -- otherwise the search would have met the free home slot first
      intro he
      have hhit := find_hit_iff.mp hres.lookup
      rw [he, hres.orderRef] at hslot hfree
      cases p with
      | zero => exact hslot rfl
      | succ p =>
          have hbefore := hhit.2.2 0 (Nat.succ_pos p)
          rcases hfree with hfree | hfree
          · exact hbefore.1 hfree
          · exact hbefore.2 hfree
    simp only [Ledger.mem_put, Ledger.mem_erase, ← hres.orderRef]
    constructor
    · rintro (rfl | ⟨⟨ho', h1⟩, h2⟩)
      · exact ⟨Or.inl rfl, hne⟩
      · exact ⟨Or.inr ⟨ho', h2⟩, h1⟩
    · rintro ⟨rfl | ⟨ho', h2⟩, h1⟩
      · exact Or.inl rfl
      · exact Or.inr ⟨⟨ho', h1⟩, h2⟩

/-- **Step lemma**: a safe message keeps the table a mirror of the live
orders. -/
theorem step (h : Mirror b L) (hs : Safe b m) : Mirror (b.exec m) (L.step b m) := by
  cases hop : bookOp m.msgType with
  | none =>
      have hexec : b.exec m = b := by rw [Book.exec, if_pos hop]
      exact h.congr (by rw [hexec]) fun o => by simp only [Ledger.step, hop]
  | some op =>
      cases op with
      | add => exact h.step_add hop
      | cancel => exact h.step_cancel hop
      | delete => exact h.step_delete hop hs
      | replace => exact h.step_replace hop hs
      | execute => exact h.step_execute hop hs

end Mirror

end Lliu
