import Lliu.OrderBook.Table

/-!
# Lliu.OrderBook.Found

Which orders the search finds.  In a run of safe messages every live order is
found; after a message that is not safe some live order is lost
(`OrderBook.live_orders_found_iff`).  A replace is atomic exactly when it writes
the new reference to a slot of no other order (`OrderBook.replace_atomic_iff`).
-/

namespace Lliu

open Hdl

/-! ## live orders are found -/

/-- A message that looks up an order already in the book. -/
def IsModify (m : BookMsg) : Prop := bookOp m.msgType ≠ none ∧ bookOp m.msgType ≠ some .add

/-- Every message that names a live order resolves to a slot holding its
reference, and no reference occupies two valid slots. -/
def LiveOrdersFound (b : Book) (L : Ledger) : Prop :=
  (∀ o ∈ L, ∀ m, IsModify m → m.orderRef = o.orderRef →
    ∃ p, b.resolve m = some p ∧ b.keyAt (refSlot m.orderRef p) = some o.orderRef) ∧
  ∀ a a' r, b.keyAt a = some r → b.keyAt a' = some r → a = a'

section Found

variable {b : Book} {L : Ledger} {m : BookMsg} {o : LiveOrder} {p : Nat}

theorem Mirror.liveOrdersFound (h : Mirror b L) : LiveOrdersFound b L := by
  refine ⟨fun o ho m hm hr => ?_, fun a a' r => h.findable.unique⟩
  obtain ⟨p, hp, he⟩ := h.lookup_of_mem ho
  rw [← hr] at hp he
  exact ⟨p, (Book.resolve_modify_iff hm.2).mpr hp, by rw [Book.keyAt_eq, he, LiveOrder.key_entry]⟩

/-- A live order that messages resolve to is found by its search. -/
theorem LiveOrdersFound.lookup (h : LiveOrdersFound b L) (ho : o ∈ L) :
    ∃ p, b.lookup o.orderRef = .hit p := by
  let m : BookMsg := ⟨0x44#8, o.orderRef, 0, 0, 0, false, 0⟩
  have hop : bookOp m.msgType = some .delete := rfl
  have hm : IsModify m := ⟨by simp [hop], by simp [hop]⟩
  obtain ⟨p, hp, -⟩ := h.1 o ho m hm rfl
  exact ⟨p, (Book.resolve_modify_iff hm.2).mp hp⟩

/-- The slot of order `o` is not on its own probe path, so it is vacatable as
soon as it is on the path of no other live order. -/
theorem Mirror.slotVacatable (h : Mirror b L) (hres : Resolves b L m o p)
    (hother : ∀ o' ∈ L, o'.orderRef ≠ m.orderRef → ∀ q j, b.lookup o'.orderRef = .hit q → j < q →
      refSlot o'.orderRef j ≠ refSlot m.orderRef p) : b.SlotVacatable (refSlot m.orderRef p) := by
  intro k q hq j hj hja
  obtain ⟨o', ho', rfl, -⟩ := h.mem_of_lookup hq
  by_cases hr : o'.orderRef = m.orderRef
  · have hbefore := (find_hit_iff.mp hq).2.2 j hj
    rw [hja, hr] at hbefore
    exact hbefore.2 (stored_of_find hres.lookup)
  · exact hother o' ho' hr q j hq hj hja

/-- The table after a replace that finds the old order. -/
theorem Book.refMem_exec_replace (hop : bookOp m.msgType = some .replace)
    (hp : b.lookup m.orderRef = .hit p) :
    (b.exec m).refMem = Function.update (Function.update b.refMem (refSlot m.newOrderRef 0)
      (RefEntry.ofMsg m m.newOrderRef)) (refSlot m.orderRef p) RefEntry.zero := by
  have hentry := entry_of_keyAt (stored_of_find hp)
  rw [b.refMem_exec m (by rw [resolve, hp]) fun _ => hentry, refMemAfter_replace hop]

/-- Its keys. -/
theorem Book.keyAt_exec_replace (hop : bookOp m.msgType = some .replace)
    (hp : b.lookup m.orderRef = .hit p) :
    (b.exec m).keyAt = Function.update (Function.update b.keyAt (refSlot m.newOrderRef 0)
      (some m.newOrderRef)) (refSlot m.orderRef p) none := by
  let b₁ : Book := b.writeRef (refSlot m.newOrderRef 0) (RefEntry.ofMsg m m.newOrderRef)
  have h₁ : b₁.keyAt = Function.update b.keyAt (refSlot m.newOrderRef 0)
      (RefEntry.ofMsg m m.newOrderRef).key := Book.keyAt_update rfl
  rw [show (RefEntry.ofMsg m m.newOrderRef).key = some m.newOrderRef from rfl] at h₁
  rw [← h₁]
  exact Book.keyAt_update (b := b₁) (Book.refMem_exec_replace hop hp)

/-- A new entry written to the slot of the old order is cleared with it. -/
theorem Book.lookup_newOrderRef_of_eq (hop : bookOp m.msgType = some .replace)
    (hp : b.lookup m.orderRef = .hit p) (hslot : refSlot m.newOrderRef 0 = refSlot m.orderRef p)
    (q : Nat) : (b.exec m).lookup m.newOrderRef ≠ .hit q := by
  rw [lookup, keyAt_exec_replace hop hp]
  exact find_vacate_of_passes (find_home (by decide) (Function.update_self ..)) (le_refl 0) hslot q

/-- A new entry written to another slot is found. -/
theorem Book.lookup_newOrderRef_of_ne (hop : bookOp m.msgType = some .replace)
    (hp : b.lookup m.orderRef = .hit p) (hslot : refSlot m.newOrderRef 0 ≠ refSlot m.orderRef p) :
    (b.exec m).lookup m.newOrderRef = .hit 0 := by
  rw [lookup, keyAt_exec_replace hop hp]
  exact find_home (by decide) (by rw [Function.update_of_ne hslot, Function.update_self])

/-- And the old reference is not. -/
theorem Book.lookup_orderRef_of_ne (hop : bookOp m.msgType = some .replace)
    (hp : b.lookup m.orderRef = .hit p) (hslot : refSlot m.newOrderRef 0 ≠ refSlot m.orderRef p)
    (hrefs : m.newOrderRef ≠ m.orderRef) (q : Nat) : (b.exec m).lookup m.orderRef ≠ .hit q := by
  rw [lookup, keyAt_exec_replace hop hp]
  exact find_vacate_of_passes (find_store_of_ne hrefs.symm hslot.symm hp) (le_refl p) rfl q

/-- The live orders after a replace. -/
theorem Resolves.mem_step_replace (hres : Resolves b L m o p)
    (hop : bookOp m.msgType = some .replace) (o' : LiveOrder) :
    o' ∈ L.step b m ↔ o' = LiveOrder.ofMsg m m.newOrderRef ∨
      ((o' ∈ L ∧ o'.orderRef ≠ m.orderRef) ∧ o'.orderRef ≠ m.newOrderRef) := by
  simp only [Ledger.step, hop, hres.find]
  rw [if_neg (by simp), Ledger.mem_put, Ledger.mem_erase]
  rfl

/-- An order overwritten by a replace is stored nowhere else. -/
theorem Mirror.homeFree_of_found (h : Mirror b L) (hres : Resolves b L m o p)
    (hop : bookOp m.msgType = some .replace)
    (hslot : refSlot m.newOrderRef 0 ≠ refSlot m.orderRef p)
    (hfound : LiveOrdersFound (b.exec m) (L.step b m)) : b.HomeFree m.newOrderRef := by
  cases hk : b.keyAt (refSlot m.newOrderRef 0) with
  | none => exact Or.inl hk
  | some k =>
      right
      rw [hk]
      by_contra hne
      have hne' : k ≠ m.newOrderRef := fun he => hne (by rw [he])
      obtain ⟨o', ho', rfl, -⟩ := h.mem_of_keyAt hk
      have hold : o'.orderRef ≠ m.orderRef := fun hr =>
        hslot (h.findable.unique (hr ▸ hk) (stored_of_find hres.lookup))
      obtain ⟨q, hq⟩ := hfound.lookup ((hres.mem_step_replace hop o').mpr (Or.inr ⟨⟨ho', hold⟩, hne'⟩))
      -- it is still found, so it is stored at an address the replace did not write
      have ha := stored_of_find hq
      rw [Book.keyAt_exec_replace hop hres.lookup] at ha
      by_cases h1 : refSlot o'.orderRef q = refSlot m.orderRef p
      · rw [h1, Function.update_self] at ha
        cases ha
      · rw [Function.update_of_ne h1] at ha
        by_cases h2 : refSlot o'.orderRef q = refSlot m.newOrderRef 0
        · rw [h2, Function.update_self] at ha
          exact hne' (Option.some.inj ha).symm
        · rw [Function.update_of_ne h2] at ha
          exact h2 (h.findable.unique ha hk)

/-- After a replace that is not safe some live order is lost. -/
theorem Mirror.safeAt_replace (h : Mirror b L) (hres : Resolves b L m o p)
    (hop : bookOp m.msgType = some .replace)
    (hfound : LiveOrdersFound (b.exec m) (L.step b m)) : SafeAt b m p := by
  have hslot : refSlot m.newOrderRef 0 ≠ refSlot m.orderRef p := by
    intro he
    obtain ⟨q, hq⟩ := hfound.lookup ((hres.mem_step_replace hop _).mpr (Or.inl rfl))
    exact Book.lookup_newOrderRef_of_eq hop hres.lookup he q hq
  have hfree := h.homeFree_of_found hres hop hslot hfound
  have hv : b.SlotVacatable (refSlot m.orderRef p) := by
    apply h.slotVacatable hres
    intro o' ho' hr q j hq hj hja
    by_cases hnew : o'.orderRef = m.newOrderRef
    · -- found at its free home slot, the new reference has no path
      have hbefore := (find_hit_iff.mp hq).2.2 0 (by omega)
      rw [hnew] at hbefore
      rcases hfree with hfree | hfree
      · exact hbefore.1 hfree
      · exact hbefore.2 hfree
    · obtain ⟨q', hq'⟩ := hfound.lookup
        ((hres.mem_step_replace hop o').mpr (Or.inr ⟨⟨ho', hr⟩, hnew⟩))
      rw [Book.lookup, Book.keyAt_exec_replace hop hres.lookup] at hq'
      exact find_vacate_of_passes (find_store_ne hnew hfree hq) hj.le hja q' hq'
  rw [SafeAt, hop]
  exact ⟨hslot, hfree, hv⟩

/-- After a slot has been vacated unsafely some live order is lost. -/
theorem Mirror.slotVacatable_of_found (h : Mirror b L) (hres : Resolves b L m o p)
    (ht : (b.exec m).refMem = Function.update b.refMem (refSlot m.orderRef p) RefEntry.zero)
    (hfound : LiveOrdersFound (b.exec m) (L.erase m.orderRef)) :
    b.SlotVacatable (refSlot m.orderRef p) := by
  have hkey := Book.keyAt_update ht
  apply h.slotVacatable hres
  intro o' ho' hr q j hq hj hja
  obtain ⟨q', hq'⟩ := hfound.lookup (Ledger.mem_erase.mpr ⟨ho', hr⟩)
  rw [Book.lookup, hkey] at hq'
  exact find_vacate_of_passes hq hj.le hja q' hq'

/-- **Exactness**: if the live orders are all found after a message, the message
was safe. -/
theorem Mirror.safe_of_found (h : Mirror b L)
    (hfound : LiveOrdersFound (b.exec m) (L.step b m)) : Safe b m := by
  intro p hp
  obtain ⟨o, ho, hr, he⟩ := h.mem_of_lookup hp
  have hres : Resolves b L m o p := ⟨ho, hr, hp, he⟩
  have ht := hres.refMem_exec
  rw [SafeAt]
  cases hop : bookOp m.msgType with
  | none => trivial
  | some op =>
      cases op with
      | add | cancel => trivial
      | delete =>
          rw [Book.refMemAfter_delete hop] at ht
          simp only [Ledger.step, hop] at hfound
          exact h.slotVacatable_of_found hres ht hfound
      | execute =>
          intro hz
          rw [Book.refMemAfter_execute hop, if_pos hz] at ht
          rw [he] at hz
          simp only [Ledger.step, hop, hres.find] at hfound
          rw [if_pos (show newShZero o.shares m.shares24 = true from hz)] at hfound
          exact h.slotVacatable_of_found hres ht hfound
      | replace =>
          have hsafe := h.safeAt_replace hres hop hfound
          rwa [SafeAt, hop] at hsafe

end Found

/-! ## replaces -/

/-- A replace from book `b` to book `b'` is atomic: the new reference is found
with its price and shares, the old one is no longer found, and the entries of
the other live orders are what they were. -/
structure ReplaceAtomic (b b' : Book) (L : Ledger) (m : BookMsg) : Prop where
  newLive : ∃ p, b'.lookup m.newOrderRef = .hit p ∧
    b'.refMem (refSlot m.newOrderRef p) = RefEntry.ofMsg m m.newOrderRef
  oldGone : ∀ p, b'.lookup m.orderRef ≠ .hit p
  others : ∀ o ∈ L, o.orderRef ≠ m.orderRef → ∀ a, b.keyAt a = some o.orderRef →
    b'.refMem a = b.refMem a

/-- The replace finds the old order, the home slot of the new reference is not
the slot of the old order, and it holds no other live order. -/
def ReplaceSafe (b : Book) (L : Ledger) (m : BookMsg) : Prop :=
  ∃ p, b.lookup m.orderRef = .hit p ∧ refSlot m.newOrderRef 0 ≠ refSlot m.orderRef p ∧
    ∀ o ∈ L, o.orderRef ≠ m.orderRef → b.keyAt (refSlot m.newOrderRef 0) ≠ some o.orderRef

section Replace

variable {b : Book} {L : Ledger} {m : BookMsg} {p : Nat}

/-- A replace that does not find the old order leaves the table alone. -/
theorem Book.refMem_exec_replace_dropped (hop : bookOp m.msgType = some .replace)
    (h : ∀ p, b.lookup m.orderRef ≠ .hit p) : (b.exec m).refMem = b.refMem := by
  refine b.refMem_exec_of_dropped m (Option.eq_none_iff_forall_ne_some.mpr fun p hp => h p ?_)
  exact (resolve_modify_iff (by simp [hop])).mp hp

/-- A replace that is atomic finds the old order and overwrites no other. -/
theorem ReplaceAtomic.safe (hop : bookOp m.msgType = some .replace)
    (hnew : ∀ p, b.lookup m.newOrderRef ≠ .hit p) (h : ReplaceAtomic b (b.exec m) L m) :
    ReplaceSafe b L m := by
  obtain ⟨q, hq, -⟩ := h.newLive
  by_cases hfound : ∃ p, b.lookup m.orderRef = .hit p
  · obtain ⟨p, hp⟩ := hfound
    have hslot : refSlot m.newOrderRef 0 ≠ refSlot m.orderRef p := fun he =>
      Book.lookup_newOrderRef_of_eq hop hp he q hq
    refine ⟨p, hp, hslot, fun o ho hr hk => ?_⟩
    -- the other order's entry would have been overwritten
    have hsame := h.others o ho hr _ hk
    rw [Book.refMem_exec_replace hop hp, Function.update_of_ne hslot, Function.update_self] at hsame
    refine hnew 0 (find_home (by decide) ?_)
    rw [Book.keyAt_eq, ← hsame]
    rfl
  · -- a dropped replace does not enter the new reference
    have hdrop := Book.refMem_exec_replace_dropped hop fun p hp => hfound ⟨p, hp⟩
    have hkey : (b.exec m).keyAt = b.keyAt := by
      funext a
      rw [Book.keyAt_eq, Book.keyAt_eq, hdrop]
    rw [Book.lookup, hkey] at hq
    exact absurd hq (hnew q)

/-- A safe replace is atomic. -/
theorem ReplaceSafe.atomic (hop : bookOp m.msgType = some .replace)
    (hnew : ∀ p, b.lookup m.newOrderRef ≠ .hit p) (h : ReplaceSafe b L m) :
    ReplaceAtomic b (b.exec m) L m := by
  obtain ⟨p, hp, hne, hother⟩ := h
  have ht := Book.refMem_exec_replace hop hp
  have hrefs : m.newOrderRef ≠ m.orderRef := fun he => hnew p (by rw [he]; exact hp)
  refine ⟨⟨0, Book.lookup_newOrderRef_of_ne hop hp hne, ?_⟩,
    Book.lookup_orderRef_of_ne hop hp hne hrefs, fun o ho hr a ha => ?_⟩
  · rw [ht, Function.update_of_ne hne, Function.update_self]
  · have h1 : a ≠ refSlot m.orderRef p := by
      rintro rfl
      exact hr (Option.some.inj (ha.symm.trans (stored_of_find hp)))
    have h2 : a ≠ refSlot m.newOrderRef 0 := by
      rintro rfl
      exact hother o ho hr ha
    rw [ht, Function.update_of_ne h1, Function.update_of_ne h2]

/-- Replacing an order by a reference not in the table is atomic exactly when
it is safe. -/
theorem replaceAtomic_exec_iff (hop : bookOp m.msgType = some .replace)
    (hnew : ∀ p, b.lookup m.newOrderRef ≠ .hit p) :
    ReplaceAtomic b (b.exec m) L m ↔ ReplaceSafe b L m :=
  ⟨ReplaceAtomic.safe hop hnew, ReplaceSafe.atomic hop hnew⟩

end Replace

/-! ## runs -/

namespace OrderBook

variable {i : Nat → OrderBookIn}

/-- In a run of safe messages the table mirrors the live orders. -/
theorem mirror_of_safe (hsafe : EveryMsg (fun b _ m => Safe b m) i) : EveryReady Mirror i :=
  ledger_rule mirror_zero (fun _ _ _ h hs => h.step hs) hsafe

/-- **Live orders are always found** in a run from reset exactly when every
message of the run is safe in the state it finds. -/
theorem live_orders_found_iff (i : Nat → OrderBookIn) :
    EveryReady LiveOrdersFound i ↔ EveryMsg (fun b _ m => Safe b m) i := by
  constructor
  · intro hfound n
    induction n using Nat.strong_induction_on with
    | _ n ih =>
        intro hn hv
        have hmirror : Mirror (run step reset i n).book (ledger i n) :=
          ledger_rule_upto mirror_zero (fun _ _ _ h hs => h.step hs) n ih hn
        obtain ⟨n', -, hn', hbook, hledger⟩ := exists_ready_after hn hv
        have hfound' := hfound n' hn'
        rw [hbook, hledger] at hfound'
        exact hmirror.safe_of_found hfound'
  · intro hsafe n hn
    exact (mirror_of_safe hsafe n hn).liveOrdersFound

/-- Two bids whose references share their home slot; then the first, which
occupies that slot, is deleted. -/
def deleteBeforeCollided : List BookMsg :=
  [⟨0x41#8, 4098#64, 0, 100, 10, true, 0⟩, ⟨0x41#8, 8192#64, 0, 101, 10, true, 0⟩,
    ⟨0x44#8, 4098#64, 0, 0, 0, false, 0⟩]

/-- The second bid is live, and the search for it ends at the vacated slot. -/
theorem live_order_lost :
    IssuedWhenReady reset (spaced deleteBeforeCollided) ∧
    ¬ EveryReady LiveOrdersFound (spaced deleteBeforeCollided) := by
  refine ⟨issuedWhenReady_spaced _, fun h => ?_⟩
  have hlive : (replay deleteBeforeCollided).2.find 8192#64 =
      some ⟨8192, 0, true, 101, 10, 10, false⟩ := by decide +kernel
  have hvacant : (replay deleteBeforeCollided).1.lookup 8192#64 = .vacant 0 := by decide +kernel
  obtain ⟨p, hp⟩ := h.replay.lookup (Ledger.find_eq_some_iff.mp hlive).1
  cases hvacant.symm.trans hp

/-- **Replace**: in every reachable state, a replace by a reference that is not
in the table is atomic, once the book is ready again, exactly when it finds the
old order and its new home slot is neither that order's slot nor the slot of
another live order. -/
theorem replace_atomic_iff {n n' : Nat} (hn : (run step reset i n).bookReady = true)
    (hv : (i n).fieldsValid = true) (hop : bookOp (i n).msg.msgType = some .replace)
    (hnew : ∀ p, (run step reset i n).book.lookup (i n).msg.newOrderRef ≠ .hit p)
    (hlt : n < n') (hn' : (run step reset i n').bookReady = true)
    (hbusy : ∀ j, n < j → j < n' → (run step reset i j).bookReady = false) :
    ReplaceAtomic (run step reset i n).book (run step reset i n').book (ledger i n) (i n).msg ↔
      ReplaceSafe (run step reset i n).book (ledger i n) (i n).msg := by
  rw [book_next_ready ready_reset hlt hn hv hn' hbusy]
  exact replaceAtomic_exec_iff hop hnew

/-- A bid replaced by a reference whose home slot is free. -/
def replaceToFreeSlot : List BookMsg :=
  [⟨0x41#8, 1#64, 0, 100, 10, true, 0⟩, ⟨0x55#8, 1#64, 2#64, 101, 5, true, 0⟩]

theorem replace_atomic_iff_free_slot :
    ReplaceAtomic (run step reset (spaced replaceToFreeSlot) 32).book
        (run step reset (spaced replaceToFreeSlot) 43).book
        (ledger (spaced replaceToFreeSlot) 32) (spaced replaceToFreeSlot 32).msg ↔
      ReplaceSafe (run step reset (spaced replaceToFreeSlot) 32).book
        (ledger (spaced replaceToFreeSlot) 32) (spaced replaceToFreeSlot 32).msg := by
  have hbusy : ∀ j, j < 43 → 32 < j →
      (run step reset (spaced replaceToFreeSlot) j).bookReady = false := by decide +kernel
  have hvacant : (run step reset (spaced replaceToFreeSlot) 32).book.lookup 2#64 = .vacant 0 := by
    decide +kernel
  exact replace_atomic_iff (by decide +kernel) rfl rfl
    (fun p hp => by cases hvacant.symm.trans hp) (by decide) (by decide +kernel)
    fun j hj hjn => hbusy j hjn hj

/-- A bid replaced by a reference with the same home slot. -/
def replaceIntoOwnSlot : List BookMsg :=
  [⟨0x41#8, 4098#64, 0, 100, 10, true, 0⟩, ⟨0x55#8, 4098#64, 8192#64, 101, 5, true, 0⟩]

/-- A bid replaced by a reference whose home slot belongs to another bid. -/
def replaceIntoOtherSlot : List BookMsg :=
  [⟨0x41#8, 4098#64, 0, 100, 10, true, 0⟩, ⟨0x41#8, 1#64, 0, 99, 10, true, 0⟩,
    ⟨0x55#8, 1#64, 8192#64, 101, 5, true, 0⟩]

/-- In the first case the new order is not in the table, in the second the other
bid's entry is overwritten. -/
theorem replace_not_atomic :
    (IssuedWhenReady reset (spaced replaceIntoOwnSlot) ∧
      (run step reset (spaced replaceIntoOwnSlot) 43).bookReady = true ∧
      ¬ ReplaceAtomic (run step reset (spaced replaceIntoOwnSlot) 32).book
        (run step reset (spaced replaceIntoOwnSlot) 43).book
        (ledger (spaced replaceIntoOwnSlot) 32) (spaced replaceIntoOwnSlot 32).msg) ∧
    (IssuedWhenReady reset (spaced replaceIntoOtherSlot) ∧
      (run step reset (spaced replaceIntoOtherSlot) 75).bookReady = true ∧
      ¬ ReplaceAtomic (run step reset (spaced replaceIntoOtherSlot) 64).book
        (run step reset (spaced replaceIntoOtherSlot) 75).book
        (ledger (spaced replaceIntoOtherSlot) 64) (spaced replaceIntoOtherSlot 64).msg) := by
  refine ⟨⟨issuedWhenReady_spaced _, by decide +kernel, fun h => ?_⟩,
    ⟨issuedWhenReady_spaced _, by decide +kernel, fun h => ?_⟩⟩
  · have hvacant : (run step reset (spaced replaceIntoOwnSlot) 43).book.lookup 8192#64 =
        .vacant 0 := by decide +kernel
    obtain ⟨p, hp, -⟩ := h.newLive
    cases hvacant.symm.trans hp
  · have hlive : (ledger (spaced replaceIntoOtherSlot) 64).find 4098#64 =
        some ⟨4098, 0, true, 100, 10, 10, false⟩ := by decide +kernel
    have hslot : (run step reset (spaced replaceIntoOtherSlot) 64).book.keyAt 65#13 =
        some 4098#64 := by decide +kernel
    have hchanged : (run step reset (spaced replaceIntoOtherSlot) 75).book.refMem 65#13 ≠
        (run step reset (spaced replaceIntoOtherSlot) 64).book.refMem 65#13 := by decide +kernel
    exact hchanged (h.others _ (Ledger.find_eq_some_iff.mp hlive).1 (by decide +kernel) _ hslot)

end OrderBook

end Lliu
