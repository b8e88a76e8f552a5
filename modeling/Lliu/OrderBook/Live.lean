import Mathlib.Tactic
import Lliu.OrderBook.Exec

/-!
# Lliu.OrderBook.Live

The live orders, kept beside a run of the book.  `Ledger` is what the messages
say, whatever the hardware's tables hold: an order is live from the add or
replace that enters it until it is deleted, replaced or fully executed.  An order
cancelled down to zero shares stays live.  The only thing the ledger takes from
the book is whether an add was dropped for collisions.

`ghost_rule` is the induction over a run for properties that tie the book to a
value kept beside it, such as the ledger: what one message preserves, under a condition on that message, holds
in every ready cycle.
-/

namespace Lliu

open Hdl

/-- A live order.  `entered` is the share count it was entered with, and `spent`
says that it has been cancelled down to zero. -/
structure LiveOrder where
  orderRef : OrderRef
  symId : SymId
  side : Bool
  price : BitVec 32
  shares : BitVec 24
  entered : BitVec 24
  spent : Bool
  deriving DecidableEq, Repr

/-- The order that message `m` enters under reference `r`. -/
def LiveOrder.ofMsg (m : BookMsg) (r : OrderRef) : LiveOrder where
  orderRef := r
  symId := m.symId
  side := m.side
  price := m.price
  shares := m.shares24
  entered := m.shares24
  spent := false

/-- The order with `n` shares fewer. -/
def LiveOrder.reduce (o : LiveOrder) (n : BitVec 24) : LiveOrder :=
  { o with shares := newSh o.shares n, spent := o.spent || newShZero o.shares n }

/-- The live orders, one for each reference. -/
structure Ledger where
  orders : List LiveOrder
  nodup : (orders.map (·.orderRef)).Nodup

namespace Ledger

/-! ## operations -/

/-- No live orders. -/
def empty : Ledger := ⟨[], List.nodup_nil⟩

/-- The live order with reference `r`. -/
def find (L : Ledger) (r : OrderRef) : Option LiveOrder := L.orders.find? (·.orderRef = r)

/-- Remove the order with reference `r`. -/
def erase (L : Ledger) (r : OrderRef) : Ledger where
  orders := L.orders.filter (·.orderRef ≠ r)
  nodup := (List.filter_sublist.map _).nodup L.nodup

/-- Enter an order in place of any other with its reference. -/
def put (L : Ledger) (o : LiveOrder) : Ledger where
  orders := o :: (L.erase o.orderRef).orders
  nodup := by
    rw [List.map_cons, List.nodup_cons]
    exact ⟨by simp [erase], (L.erase o.orderRef).nodup⟩

/-- Take `n` shares from the order with reference `r`. -/
def reduce (L : Ledger) (r : OrderRef) (n : BitVec 24) : Ledger where
  orders := L.orders.map fun o => if o.orderRef = r then o.reduce n else o
  nodup := by
    rw [List.map_map]
    convert L.nodup using 2
    funext o
    by_cases h : o.orderRef = r <;> simp [h, LiveOrder.reduce]

/-- The live orders after message `m` on book `b`. -/
def step (L : Ledger) (b : Book) (m : BookMsg) : Ledger :=
  match bookOp m.msgType with
  | some .add => if b.resolve m = none then L else L.put (LiveOrder.ofMsg m m.orderRef)
  | some .cancel => L.reduce m.orderRef m.shares24
  | some .delete => L.erase m.orderRef
  | some .replace =>
      if L.find m.orderRef = none then L
      else (L.erase m.orderRef).put (LiveOrder.ofMsg m m.newOrderRef)
  | some .execute =>
      match L.find m.orderRef with
      | none => L
      | some o =>
          if newShZero o.shares m.shares24 then L.erase m.orderRef
          else L.reduce m.orderRef m.shares24
  | none => L

/-- The live orders of a symbol's side at a price. -/
def atPrice (L : Ledger) (sym : SymId) (side : Bool) (price : BitVec 32) : List LiveOrder :=
  L.orders.filter fun o => o.symId = sym ∧ o.side = side ∧ o.price = price

/-! ## membership -/

section Membership

variable {L : Ledger} {o o' : LiveOrder} {r : OrderRef} {n : BitVec 24}

instance : Membership LiveOrder Ledger := ⟨fun L o => o ∈ L.orders⟩

theorem mem_def : o ∈ L ↔ o ∈ L.orders := Iff.rfl

@[simp] theorem not_mem_empty : o ∉ empty := by simp [mem_def, empty]

@[simp] theorem mem_erase : o ∈ L.erase r ↔ o ∈ L ∧ o.orderRef ≠ r := by
  simp [mem_def, erase]

@[simp] theorem mem_put : o' ∈ L.put o ↔ o' = o ∨ (o' ∈ L ∧ o'.orderRef ≠ o.orderRef) := by
  rw [mem_def, put, List.mem_cons, ← mem_def, mem_erase]

@[simp] theorem mem_reduce :
    o' ∈ L.reduce r n ↔ ∃ o ∈ L, (if o.orderRef = r then o.reduce n else o) = o' := by
  simp [mem_def, reduce]

/-- A reference belongs to one live order only. -/
theorem eq_of_orderRef_eq (h : o ∈ L) (h' : o' ∈ L) (hr : o.orderRef = o'.orderRef) : o = o' :=
  List.inj_on_of_nodup_map L.nodup h h' hr

theorem find_eq_some_iff : L.find r = some o ↔ o ∈ L ∧ o.orderRef = r := by
  constructor
  · intro h
    exact ⟨List.mem_of_find?_eq_some h, by simpa using List.find?_some h⟩
  · rintro ⟨h, hr⟩
    cases hf : L.find r with
    | none =>
        have := List.find?_eq_none.mp hf o h
        simp [hr] at this
    | some o' =>
        have ho' : o' ∈ L := List.mem_of_find?_eq_some hf
        have hr' : o'.orderRef = r := by simpa using List.find?_some hf
        rw [eq_of_orderRef_eq ho' h (hr'.trans hr.symm)]

theorem find_eq_none_iff : L.find r = none ↔ ∀ o ∈ L, o.orderRef ≠ r := by
  rw [find, List.find?_eq_none]
  simp [mem_def]

theorem find_put : (L.put o).find r = if r = o.orderRef then some o else L.find r := by
  split
  next h => exact find_eq_some_iff.mpr ⟨mem_put.mpr (Or.inl rfl), h.symm⟩
  next h =>
    apply Option.ext
    intro o'
    rw [find_eq_some_iff, find_eq_some_iff, mem_put]
    constructor
    · rintro ⟨rfl | ⟨ho', -⟩, hr⟩
      · exact absurd hr.symm h
      · exact ⟨ho', hr⟩
    · rintro ⟨ho', hr⟩
      exact ⟨Or.inr ⟨ho', fun he => h (hr.symm.trans he)⟩, hr⟩

theorem find_erase (r' : OrderRef) : (L.erase r).find r' = if r' = r then none else L.find r' := by
  split
  next h => exact find_eq_none_iff.mpr fun o ho => h ▸ (mem_erase.mp ho).2
  next h =>
    apply Option.ext
    intro o'
    rw [find_eq_some_iff, find_eq_some_iff, mem_erase]
    constructor
    · rintro ⟨⟨ho', -⟩, hr⟩
      exact ⟨ho', hr⟩
    · rintro ⟨ho', hr⟩
      exact ⟨⟨ho', fun he => h (hr.symm.trans he)⟩, hr⟩

/-- Reducing keeps the references. -/
@[simp] theorem orderRef_reduce (o : LiveOrder) (r : OrderRef) (n : BitVec 24) :
    (if o.orderRef = r then o.reduce n else o).orderRef = o.orderRef := by
  split <;> rfl

theorem find_reduce (r' : OrderRef) : (L.reduce r n).find r' =
    (L.find r').map fun o => if r' = r then o.reduce n else o := by
  apply Option.ext
  intro o'
  rw [find_eq_some_iff, mem_reduce, Option.map_eq_some_iff]
  simp only [find_eq_some_iff]
  constructor
  · rintro ⟨⟨o, ho, rfl⟩, hr⟩
    rw [orderRef_reduce] at hr
    exact ⟨o, ⟨ho, hr⟩, by rw [hr]⟩
  · rintro ⟨o, ⟨ho, rfl⟩, rfl⟩
    exact ⟨⟨o, ho, rfl⟩, orderRef_reduce o r n⟩

/-- A message only enters orders under the references it names. -/
theorem orderRef_of_mem_step {b : Book} {m : BookMsg} (h : o ∈ L.step b m) :
    (∃ o' ∈ L, o'.orderRef = o.orderRef) ∨ o.orderRef = m.orderRef ∨
      (bookOp m.msgType = some .replace ∧ o.orderRef = m.newOrderRef) := by
  have hput : ∀ {L' : Ledger} {r : OrderRef}, (∀ o' ∈ L', o' ∈ L) →
      o ∈ L'.put (LiveOrder.ofMsg m r) → (∃ o' ∈ L, o'.orderRef = o.orderRef) ∨ o.orderRef = r := by
    intro L' r hsub ho
    rcases mem_put.mp ho with rfl | ⟨ho, -⟩
    · exact Or.inr rfl
    · exact Or.inl ⟨o, hsub o ho, rfl⟩
  have hreduce : ∀ n, o ∈ L.reduce m.orderRef n → ∃ o' ∈ L, o'.orderRef = o.orderRef := by
    intro n ho
    obtain ⟨o', ho', rfl⟩ := mem_reduce.mp ho
    exact ⟨o', ho', (orderRef_reduce o' _ _).symm⟩
  have herase : o ∈ L.erase m.orderRef → ∃ o' ∈ L, o'.orderRef = o.orderRef := fun ho =>
    ⟨o, (mem_erase.mp ho).1, rfl⟩
  simp only [step] at h
  cases hop : bookOp m.msgType with
  | none =>
      rw [hop] at h
      exact Or.inl ⟨o, h, rfl⟩
  | some op =>
      rw [hop] at h
      cases op with
      | add =>
          by_cases hr : b.resolve m = none
          · exact Or.inl ⟨o, by simpa [hr] using h, rfl⟩
          · simp only [if_neg hr] at h
            exact (hput (fun _ ho' => ho') h).imp_right Or.inl
      | cancel => exact Or.inl (hreduce _ h)
      | delete => exact Or.inl (herase h)
      | replace =>
          by_cases hf : L.find m.orderRef = none
          · exact Or.inl ⟨o, by simpa [hf] using h, rfl⟩
          · simp only [if_neg hf] at h
            rcases hput (fun o' ho' => (mem_erase.mp ho').1) h with h | h
            · exact Or.inl h
            · exact Or.inr (Or.inr ⟨rfl, h⟩)
      | execute =>
          cases hf : L.find m.orderRef with
          | none => exact Or.inl ⟨o, by simpa [hf] using h, rfl⟩
          | some o' =>
              simp only [hf] at h
              split at h
              · exact Or.inl (herase h)
              · exact Or.inl (hreduce _ h)

end Membership

/-! ## sums over the live orders -/

section Total

variable {L : Ledger} {o : LiveOrder} {r : OrderRef} {n : BitVec 24} {v : LiveOrder → Nat}

/-- The sum of `v` over the live orders. -/
def total (L : Ledger) (v : LiveOrder → Nat) : Nat := (L.orders.map v).sum

/-- The total splits into one order and the others. -/
theorem total_of_mem (h : o ∈ L) : L.total v = v o + (L.erase o.orderRef).total v := by
  obtain ⟨l, hl⟩ := L
  change o ∈ l at h
  simp only [total, erase]
  induction l with
  | nil => cases h
  | cons x xs ih =>
      rw [List.map_cons, List.nodup_cons] at hl
      rcases List.mem_cons.mp h with rfl | hmem
      · have hrest : ∀ y ∈ xs, y.orderRef ≠ o.orderRef := fun y hy he =>
          hl.1 (he ▸ List.mem_map_of_mem hy)
        rw [List.filter_cons_of_neg (by simp),
          List.filter_eq_self.mpr fun y hy => by simpa using hrest y hy]
        rfl
      · have hne : x.orderRef ≠ o.orderRef := fun he =>
          hl.1 (he ▸ List.mem_map_of_mem hmem)
        rw [List.filter_cons_of_pos (by simpa using hne), List.map_cons, List.sum_cons,
          List.map_cons, List.sum_cons, ih hl.2 hmem]
        omega

theorem total_put : (L.put o).total v = v o + (L.erase o.orderRef).total v := rfl

theorem erase_of_find_eq_none (h : L.find r = none) : (L.erase r).orders = L.orders := by
  rw [erase, List.filter_eq_self]
  intro o ho
  simpa using find_eq_none_iff.mp h o ho

theorem total_erase_of_find_eq_none (h : L.find r = none) : (L.erase r).total v = L.total v := by
  rw [total, erase_of_find_eq_none h, total]

/-- Reducing an order only changes its own contribution. -/
theorem total_reduce (h : o ∈ L) (hr : o.orderRef = r) :
    (L.reduce r n).total v = v (o.reduce n) + (L.erase r).total v := by
  have hmem : o.reduce n ∈ L.reduce r n := mem_reduce.mpr ⟨o, h, if_pos hr⟩
  have hrest : ((L.reduce r n).erase r).orders = (L.erase r).orders := by
    simp only [erase, reduce, List.filter_map]
    rw [show ((fun o : LiveOrder => decide (o.orderRef ≠ r)) ∘ fun o =>
      if o.orderRef = r then o.reduce n else o) = fun o => decide (o.orderRef ≠ r) by
        funext o
        simp]
    conv_rhs => rw [← List.map_id (L.orders.filter _)]
    apply List.map_congr_left
    intro o ho
    exact if_neg (by simpa using (List.mem_filter.mp ho).2)
  rw [total_of_mem hmem, show (o.reduce n).orderRef = r from hr, total, hrest]
  rfl

theorem reduce_of_find_eq_none (h : L.find r = none) : (L.reduce r n).orders = L.orders := by
  rw [reduce]
  conv_rhs => rw [← List.map_id L.orders]
  apply List.map_congr_left
  intro o ho
  exact if_neg (find_eq_none_iff.mp h o ho)

end Total

end Ledger

/-! ## the ledger of a run -/

namespace OrderBook

/-- A value kept beside a run from reset: at cycle `n` it has been stepped with
the messages presented while the book was ready, each together with the book it
found. -/
def ghost (gstep : γ → Book → BookMsg → γ) (g : γ) (i : Nat → OrderBookIn) : Nat → γ
  | 0 => g
  | n + 1 =>
      if (run step reset i n).bookReady && (i n).fieldsValid then
        gstep (ghost gstep g i n) (run step reset i n).book (i n).msg
      else ghost gstep g i n

/-- The live orders at cycle `n` of a run from reset. -/
def ledger (i : Nat → OrderBookIn) (n : Nat) : Ledger := ghost Ledger.step Ledger.empty i n

theorem ledger_succ (i : Nat → OrderBookIn) (n : Nat) :
    ledger i (n + 1) =
      if (run step reset i n).bookReady && (i n).fieldsValid then
        (ledger i n).step (run step reset i n).book (i n).msg
      else ledger i n := rfl

/-- Every message accepted in a run from reset meets `Ok` of the book and the
live orders it finds. -/
def EveryMsg (Ok : Book → Ledger → BookMsg → Prop) (i : Nat → OrderBookIn) : Prop :=
  ∀ n, (run step reset i n).bookReady = true → (i n).fieldsValid = true →
    Ok (run step reset i n).book (ledger i n) (i n).msg

/-- `P` ties the book to the ledger in every ready cycle of a run from reset. -/
def EveryReady (P : Book → Ledger → Prop) (i : Nat → OrderBookIn) : Prop :=
  ∀ n, (run step reset i n).bookReady = true → P (run step reset i n).book (ledger i n)

section Rule

/-- **Ghost rule**: a property of the book and a value kept beside it that holds
at first, and is kept by every acceptable message, holds whenever the book is
ready, as far as all messages before have been acceptable. -/
theorem ghost_rule {gstep : γ → Book → BookMsg → γ} {g : γ} {P : Book → γ → Prop}
    {Ok : Book → γ → BookMsg → Prop} {i : Nat → OrderBookIn} (h0 : P Book.zero g)
    (hstep : ∀ b g m, P b g → Ok b g m → P (b.exec m) (gstep g b m)) (N : Nat)
    (hok : ∀ n, n < N → (run step reset i n).bookReady = true → (i n).fieldsValid = true →
      Ok (run step reset i n).book (ghost gstep g i n) (i n).msg)
    (hN : (run step reset i N).bookReady = true) :
    P (run step reset i N).book (ghost gstep g i N) := by
  -- while the book is busy the value beside it is one message ahead
  have htrack : ∀ n, n ≤ N →
      (∃ b, Ready b (run step reset i n) ∧ P b (ghost gstep g i n)) ∨
      ∃ b g' m, Phase b m (run step reset i n) ∧ ghost gstep g i n = gstep g' b m ∧ P b g' ∧
        Ok b g' m := by
    intro n hn
    induction n with
    | zero => exact Or.inl ⟨_, ready_reset, h0⟩
    | succ n ih =>
        rw [ghost, run_succ]
        rcases ih (by omega) with ⟨b, hr, hP⟩ | ⟨b, g', m, hph, hg, hP, hOk⟩
        · have hready : (run step reset i n).bookReady = true := (bookReady_iff _).mpr hr.state
          cases hv : (i n).fieldsValid with
          | false =>
              rw [Bool.and_false, if_neg Bool.false_ne_true]
              exact Or.inl ⟨b, ready_step hr (by simp [hv]), hP⟩
          | true =>
              have hOk := hok n hn hready hv
              rw [hr.book] at hOk
              rw [hready, Bool.true_and, if_pos rfl, hr.book]
              by_cases hop : bookOp (i n).msg.msgType = none
              · have hkeep := hstep b _ (i n).msg hP hOk
                rw [Book.exec, if_pos hop] at hkeep
                exact Or.inl ⟨b, ready_step hr fun _ => hop, hkeep⟩
              · exact Or.inr ⟨b, _, (i n).msg, phase_accept hr hv hop, rfl, hP, hOk⟩
        · have hbusy : (run step reset i n).bookReady = false := by
            rw [← Bool.not_eq_true, bookReady_iff]
            exact hph.not_idle
          rw [hbusy, Bool.false_and, if_neg Bool.false_ne_true]
          rcases hph.step (i := i n) with hdone | ⟨hph', -⟩
          · exact Or.inl ⟨_, hdone, hg ▸ hstep b g' m hP hOk⟩
          · exact Or.inr ⟨b, g', m, hph', hg, hP, hOk⟩
  rcases htrack N (le_refl _) with ⟨b, hr, hP⟩ | ⟨b, g', m, hph, -⟩
  · rwa [hr.book]
  · exact absurd ((bookReady_iff _).mp hN) hph.not_idle

variable {P : Book → Ledger → Prop} {Ok : Book → Ledger → BookMsg → Prop} {i : Nat → OrderBookIn}

/-- The ghost rule for the live orders. -/
theorem ledger_rule_upto (h0 : P Book.zero Ledger.empty)
    (hstep : ∀ b L m, P b L → Ok b L m → P (b.exec m) (L.step b m)) (N : Nat)
    (hok : ∀ n, n < N → (run step reset i n).bookReady = true → (i n).fieldsValid = true →
      Ok (run step reset i n).book (ledger i n) (i n).msg)
    (hN : (run step reset i N).bookReady = true) :
    P (run step reset i N).book (ledger i N) :=
  ghost_rule h0 hstep N hok hN

theorem ledger_rule (h0 : P Book.zero Ledger.empty)
    (hstep : ∀ b L m, P b L → Ok b L m → P (b.exec m) (L.step b m)) (hok : EveryMsg Ok i) :
    EveryReady P i :=
  fun N hN => ledger_rule_upto h0 hstep N (fun n _ => hok n) hN

/-- Every accepted message is followed by a ready cycle with its effect: there
the book is `exec` of it and the ledger has taken it. -/
theorem exists_ready_after {n : Nat} (hn : (run step reset i n).bookReady = true)
    (hv : (i n).fieldsValid = true) :
    ∃ n', n < n' ∧ (run step reset i n').bookReady = true ∧
      (run step reset i n').book = (run step reset i n).book.exec (i n).msg ∧
      ledger i n' = (ledger i n).step (run step reset i n).book (i n).msg := by
  classical
  have hex : ∃ k, (run step reset i (n + 1 + k)).bookReady = true := by
    obtain ⟨k, -, hk⟩ := ready_again (i := i) ready_reset (n + 1)
    exact ⟨k, hk⟩
  have hbusy : ∀ j, n < j → j < n + 1 + Nat.find hex → (run step reset i j).bookReady = false := by
    intro j hj hjk
    have hmin := Nat.find_min hex (m := j - (n + 1)) (by omega)
    rwa [show n + 1 + (j - (n + 1)) = j by omega, Bool.not_eq_true] at hmin
  have hready := Nat.find_spec hex
  refine ⟨n + 1 + Nat.find hex, by omega, hready,
    book_next_ready ready_reset (by omega) hn hv hready hbusy, ?_⟩
  have hledger : ∀ k, k ≤ Nat.find hex → ledger i (n + 1 + k) = ledger i (n + 1) := by
    intro k hk
    induction k with
    | zero => rfl
    | succ k ih =>
        rw [← Nat.add_assoc, ledger_succ, hbusy _ (by omega) (by omega), Bool.false_and,
          if_neg Bool.false_ne_true]
        exact ih (by omega)
  rw [hledger _ (le_refl _), ledger_succ, hn, hv, Bool.true_and, if_pos rfl]

end Rule

/-! ## messages one at a time -/

section Spaced

variable {b : Book} {i : Nat → OrderBookIn}

/-- While no message is presented a ready book stays as it is. -/
theorem ready_of_quiet {n n' : Nat} (h : Ready b (run step reset i n)) (hle : n ≤ n')
    (hq : ∀ j, n ≤ j → j < n' → (i j).fieldsValid = false) : Ready b (run step reset i n') := by
  induction n', hle using Nat.le_induction with
  | base => exact h
  | succ n' hle ih =>
      have hquiet := hq n' hle (Nat.lt_succ_self _)
      rw [run_succ]
      exact ready_step (ih fun j hj hjn => hq j hj (Nat.lt_succ_of_lt hjn)) (by simp [hquiet])

/-- Without messages the ledger stays as it is. -/
theorem ledger_of_quiet {n n' : Nat} (hle : n ≤ n')
    (hq : ∀ j, n ≤ j → j < n' → (i j).fieldsValid = false) : ledger i n' = ledger i n := by
  induction n', hle using Nat.le_induction with
  | base => rfl
  | succ n' hle ih =>
      rw [ledger_succ, hq n' hle (Nat.lt_succ_self _), Bool.and_false, if_neg Bool.false_ne_true]
      exact ih fun j hj hjn => hq j hj (Nat.lt_succ_of_lt hjn)

/-- A message followed by 31 quiet cycles is applied by the end of them. -/
theorem ready_after_message {n : Nat} (h : Ready b (run step reset i n))
    (hv : (i n).fieldsValid = true)
    (hq : ∀ j, n < j → j < n + 32 → (i j).fieldsValid = false) :
    Ready (b.exec (i n).msg) (run step reset i (n + 32)) ∧
    ledger i (n + 32) = (ledger i n).step b (i n).msg := by
  have hready : (run step reset i n).bookReady = true := (bookReady_iff _).mpr h.state
  constructor
  · by_cases hop : bookOp (i n).msg.msgType = none
    · rw [Book.exec, if_pos hop]
      apply ready_of_quiet (n := n + 1) (ready_step h fun _ => hop) (by omega)
      exact fun j hj hjn => hq j hj hjn
    · have hph := phase_accept h hv hop
      obtain ⟨k, hk, hidle⟩ := ready_within _ hph (cyclesLeft_le _) fun m => i (n + 1 + m)
      have hrun : run step reset i (n + 1 + k) =
          run step ((run step reset i n).step (i n)) (fun m => i (n + 1 + m)) k := run_add _ _
      have hbook : Ready (b.exec (i n).msg) (run step reset i (n + 1 + k)) := by
        rcases run_track (i := fun m => i (n + m)) h (1 + k) with hr | ⟨ms, m, -, hph'⟩
        · have hacc : accepted (run step reset i n) (fun m => i (n + m)) (1 + k) = [(i n).msg] := by
            rw [accepted_of_quiet (n := 1) (by omega) fun j hj hjk => hq (n + j) (by omega) (by omega)]
            simp [accepted, hready, hv]
          rw [hacc, ← run_add, ← Nat.add_assoc] at hr
          exact hr
        · rw [← run_add, ← Nat.add_assoc, hrun] at hph'
          exact absurd ((bookReady_iff _).mp hidle) hph'.not_idle
      exact ready_of_quiet hbook (by omega) fun j hj hjn => hq j (by omega) hjn
  · rw [ledger_of_quiet (n := n + 1) (by omega) fun j hj hjn => hq j hj hjn, ledger_succ, hready, hv,
      Bool.true_and, if_pos rfl, h.book]

/-- The book and the live orders after the messages `ms`, from zeroed tables. -/
def replay (ms : List BookMsg) : Book × Ledger :=
  ms.foldl (fun s m => (s.1.exec m, s.2.step s.1 m)) (Book.zero, Ledger.empty)

/-- The stream that presents message `k` of a list in cycle `32 k`. -/
def spaced (ms : List BookMsg) (n : Nat) : OrderBookIn where
  msg := ms.getD (n / 32) ⟨0, 0, 0, 0, 0, false, 0⟩
  fieldsValid := decide (n % 32 = 0 ∧ n / 32 < ms.length)
  bboQuerySym := 0

/-- **Replay**: messages 32 cycles apart are applied one after the other. -/
theorem replay_spaced (ms : List BookMsg) (k : Nat) (hk : k ≤ ms.length) :
    Ready (replay (ms.take k)).1 (run step reset (spaced ms) (32 * k)) ∧
    ledger (spaced ms) (32 * k) = (replay (ms.take k)).2 := by
  induction k with
  | zero => exact ⟨ready_reset, rfl⟩
  | succ k ih =>
      have hlt : k < ms.length := by omega
      obtain ⟨hr, hL⟩ := ih (by omega)
      have hmsg : (spaced ms (32 * k)).msg = ms[k] := by
        simp [spaced, List.getD_eq_getElem?_getD, List.getElem?_eq_getElem hlt]
      have hv : (spaced ms (32 * k)).fieldsValid = true := by
        simp only [spaced, decide_eq_true_eq]
        omega
      obtain ⟨hr', hL'⟩ := ready_after_message hr hv fun j hj hjn => by
        simp only [spaced, decide_eq_false_iff_not]
        omega
      have htake : replay (ms.take (k + 1)) =
          ((replay (ms.take k)).1.exec ms[k],
            (replay (ms.take k)).2.step (replay (ms.take k)).1 ms[k]) := by
        rw [replay, List.take_succ_eq_append_getElem hlt, List.foldl_append]
        rfl
      rw [htake, Nat.mul_succ, ← hmsg]
      exact ⟨hr', by rw [hL', hL]⟩

/-- A spaced stream issues its messages while the book is ready. -/
theorem issuedWhenReady_spaced (ms : List BookMsg) : IssuedWhenReady reset (spaced ms) := by
  intro n hn
  simp only [spaced, decide_eq_true_eq] at hn
  have hr := (replay_spaced ms (n / 32) (by omega)).1
  rw [show 32 * (n / 32) = n by omega] at hr
  exact (bookReady_iff _).mpr hr.state

/-- `Ok` holds of each message of a list in the state the ones before it lead
to. -/
def EachMsg (Ok : Book → Ledger → BookMsg → Prop) : Book × Ledger → List BookMsg → Prop
  | _, [] => True
  | s, m :: ms => Ok s.1 s.2 m ∧ EachMsg Ok (s.1.exec m, s.2.step s.1 m) ms

theorem EachMsg.get {Ok : Book → Ledger → BookMsg → Prop} {ms : List BookMsg} :
    ∀ {s : Book × Ledger}, EachMsg Ok s ms → ∀ (k : Nat) (hk : k < ms.length),
      Ok ((ms.take k).foldl (fun s m => (s.1.exec m, s.2.step s.1 m)) s).1
        ((ms.take k).foldl (fun s m => (s.1.exec m, s.2.step s.1 m)) s).2 ms[k] := by
  induction ms with
  | nil =>
      intro s _ k hk
      exact absurd hk (Nat.not_lt_zero k)
  | cons m ms ih =>
      intro s h k hk
      cases k with
      | zero => exact h.1
      | succ k => exact ih h.2 k (Nat.lt_of_succ_lt_succ hk)

/-- The messages of a spaced stream find the states of the list. -/
theorem everyMsg_spaced {Ok : Book → Ledger → BookMsg → Prop} {ms : List BookMsg}
    (h : EachMsg Ok (Book.zero, Ledger.empty) ms) : EveryMsg Ok (spaced ms) := by
  intro n _ hv
  simp only [spaced, decide_eq_true_eq] at hv
  have hlt : n / 32 < ms.length := hv.2
  obtain ⟨hr, hL⟩ := replay_spaced ms (n / 32) hlt.le
  rw [show 32 * (n / 32) = n by omega] at hr hL
  have hmsg : (spaced ms n).msg = ms[n / 32] := by
    simp [spaced, List.getD_eq_getElem?_getD, List.getElem?_eq_getElem hlt]
  rw [hr.book, hL, hmsg]
  exact h.get (n / 32) hlt

/-- A property that holds in every ready cycle holds after any messages. -/
theorem EveryReady.replay {P : Book → Ledger → Prop} {ms : List BookMsg}
    (h : EveryReady P (spaced ms)) : P (replay ms).1 (replay ms).2 := by
  obtain ⟨hr, hL⟩ := replay_spaced ms ms.length (le_refl _)
  have hP := h (32 * ms.length) ((bookReady_iff _).mpr hr.state)
  rwa [hr.book, hL, List.take_length] at hP

end Spaced

end OrderBook

end Lliu
