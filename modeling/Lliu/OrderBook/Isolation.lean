import Lliu.OrderBook.Levels
import Lliu.OrderBook.Bbo

/-!
# Lliu.OrderBook.Isolation

What an operation leaves alone, in every cycle from the one in which it is
issued up to the next in which the book is ready (`During`).

* A Cancel, Delete or Execute changes at most one slot of the reference table,
  and only one that held its own reference.
* A message that is dropped changes no array and raises no `bbo_valid`.
* Only the levels and the BBO of the message's symbol change, on the sides of
  the orders involved (`Book.ChangesSide`).
* `l2_cache` equals `book_mem` in every state.
-/

namespace Lliu

open Hdl

namespace OrderBook

/-! ## the cycles of an operation -/

/-- The registers after reset, with the arrays holding `b`. -/
def resetWith (b : Book) : OrderBook := { reset with book := b }

theorem ready_resetWith (b : Book) : Ready b (resetWith b) := ⟨rfl, rfl, rfl⟩

/-- Cycle `j` belongs to the operation issued in cycle `n`: the book was ready
in cycle `n` and has not been ready since. -/
structure During (s : OrderBook) (i : Nat → OrderBookIn) (n j : Nat) : Prop where
  ready : (run step s i n).bookReady = true
  valid : (i n).fieldsValid = true
  lt : n < j
  busy : ∀ k, n < k → k < j → (run step s i k).bookReady = false

section During

variable {b : Book} {s : OrderBook} {i : Nat → OrderBookIn} {n j : Nat}

/-- A ready book is ready for what it holds. -/
theorem ready_of_bookReady (h0 : Ready b s) (hn : (run step s i n).bookReady = true) :
    Ready (run step s i n).book (run step s i n) := by
  rcases run_track (i := i) h0 n with hr | ⟨ms, m, -, hph⟩
  · rw [hr.book]
    exact hr
  · exact absurd ((bookReady_iff _).mp hn) hph.not_idle

/-- **Window rule**: what the issuing cycle establishes and every cycle of the
operation preserves holds in all of them, the last included. -/
theorem During.rule (h0 : Ready b s) (hd : During s i n j) (hop : bookOp (i n).msg.msgType ≠ none)
    {P : OrderBook → Prop} (hstart : P ((run step s i n).step (i n)))
    (hstep : ∀ t k, Phase (run step s i n).book (i n).msg t → P t → P (t.step k)) :
    (Phase (run step s i n).book (i n).msg (run step s i j) ∨
      Ready ((run step s i n).book.exec (i n).msg) (run step s i j)) ∧ P (run step s i j) := by
  have hlt := hd.lt
  have hbusy := hd.busy
  induction j, hlt using Nat.le_induction with
  | base =>
      rw [run_succ]
      exact ⟨Or.inl (phase_accept (ready_of_bookReady h0 hd.ready) hd.valid hop), hstart⟩
  | succ j hlt ih =>
      have hd' : During s i n j :=
        ⟨hd.ready, hd.valid, hlt, fun k hk hkj => hbusy k hk (Nat.lt_succ_of_lt hkj)⟩
      obtain ⟨hph | hr, hP⟩ := ih hd' hd'.busy
      · rw [run_succ]
        refine ⟨?_, hstep _ _ hph hP⟩
        rcases hph.step (i := i j) with hdone | ⟨hnext, -⟩
        · exact Or.inr hdone
        · exact Or.inl hnext
      · have hready : (run step s i j).bookReady = true := (bookReady_iff _).mpr hr.state
        rw [hbusy j hlt (Nat.lt_succ_self j)] at hready
        exact absurd hready Bool.false_ne_true

/-- A message without an operation leaves the book ready. -/
theorem During.of_no_op (h0 : Ready b s) (hd : During s i n j)
    (hop : bookOp (i n).msg.msgType = none) :
    j = n + 1 ∧ Ready (run step s i n).book (run step s i j) := by
  have hr : Ready (run step s i n).book (run step s i (n + 1)) :=
    ready_step (ready_of_bookReady h0 hd.ready) fun _ => hop
  have hj : j = n + 1 := by
    by_contra hne
    have hlt := hd.lt
    have hbusy := hd.busy (n + 1) (Nat.lt_succ_self n) (by omega)
    rw [(bookReady_iff _).mpr hr.state] at hbusy
    cases hbusy
  rw [hj]
  exact ⟨rfl, hr⟩

end During

/-! ## the pulses and the table during an operation -/

section Phase

variable {b : Book} {m : BookMsg} {s : OrderBook} {i : OrderBookIn}

/-- `bbo_valid` and `bbo_sym_id` are written in `S_UPDATE` only. -/
theorem bbo_pulse_step (hs : s.state ≠ .sUpdate) :
    (s.step i).bboValid = false ∧ (s.step i).bboSymId = s.bboSymId := by
  cases hst : s.state with
  | sUpdate => exact absurd hst hs
  | sIdle =>
      simp only [step, hst, stepIdle]
      split_ifs <;> simp [advance]
  | sMatch =>
      simp only [step, hst, stepMatch]
      split_ifs <;> simp [advance, collide]
  | sReadRef1 | sReadRef2 | sProcess | sScanBook | sScanBook2 | sScanBook3 | sUpdate2 | sDone =>
      simp [step, hst, advance, stepProcess, stepScanBook, stepScanBook2, stepScanBook3,
        stepUpdate2, portWrite]

/-- The table only takes the write on its port. -/
theorem refMem_step (hq : s.refWrEn = false) : (s.step i).book.refMem = s.book.refMem := by
  cases hst : s.state with
  | sIdle =>
      simp only [step, hst, stepIdle]
      split_ifs <;> simp [advance, hq]
  | sMatch =>
      simp only [step, hst, stepMatch]
      split_ifs <;> simp [advance, hq, collide, Book.addCollisions]
  | sUpdate => simp [step, hst, stepUpdate, advance, hq]
  | sReadRef1 | sReadRef2 | sProcess | sScanBook | sScanBook2 | sScanBook3 | sUpdate2 | sDone =>
      simp [step, hst, advance, stepProcess, stepScanBook, stepScanBook2, stepScanBook3,
        stepUpdate2, portWrite, hq]

/-- A dropped message never reaches `S_UPDATE`. -/
theorem Phase.not_update (h : Phase b m s) (hr : b.resolve m = none) : s.state ≠ .sUpdate := by
  cases h with
  | updating p hs hp => simp [hr] at hp
  | _ => simp_all

/-- Until an operation is done, only a replace puts anything on the table's port. -/
theorem Phase.quiet (h : Phase b m s) (hop : bookOp m.msgType = some .replace → b.resolve m = none)
    (hs : s.state ≠ .sDone) : s.refWrEn = false := by
  cases h with
  | readRef1 p _ h | readRef2 p _ h | process p _ h | matching p _ h => exact h.quiet
  | scanBook p _ _ h | scanBook2 p _ _ h | scanBook3 p _ _ h | updating p _ _ h => exact h.quiet
  | updating2 p _ hp hrep => simp [hop hrep] at hp
  | finishing hdone => exact absurd hdone hs

/-- Two books with the same levels, shadow levels and BBO. -/
structure SameQuotes (b b' : Book) : Prop where
  bookMem : b.bookMem = b'.bookMem
  l2Cache : b.l2Cache = b'.l2Cache
  bbo : b.bbo = b'.bbo

theorem SameQuotes.trans {b b' b'' : Book} (h : SameQuotes b b') (h' : SameQuotes b' b'') :
    SameQuotes b b'' :=
  ⟨h.bookMem.trans h'.bookMem, h.l2Cache.trans h'.l2Cache, h.bbo.trans h'.bbo⟩

theorem sameQuotes_port (s : OrderBook) : SameQuotes s.book
    (if s.refWrEn then s.book.writeRef s.refWrAddr s.refWrData else s.book) := by
  split <;> exact ⟨rfl, rfl, rfl⟩

/-- During an operation the levels and the BBO are those before or those after it. -/
theorem Phase.sameQuotes (h : Phase b m s) :
    SameQuotes s.book b ∨ SameQuotes s.book (b.exec m) := by
  cases h with
  | readRef1 p _ h | readRef2 p _ h | process p _ h | matching p _ h =>
      rw [h.book]
      exact Or.inl ⟨rfl, rfl, rfl⟩
  | scanBook p _ _ h | scanBook2 p _ _ h | scanBook3 p _ _ h | updating p _ _ h =>
      rw [h.book]
      exact Or.inl ⟨rfl, rfl, rfl⟩
  | updating2 p _ hp hop _ hbook =>
      have hs := sameQuotes_port s
      rw [hbook] at hs
      rw [Book.exec, if_neg (by simp [hop]), hp]
      have hu : ((b.counted m).regs m (refSlot m.orderRef p)).op = some .replace := hop
      simp only [Book.update, if_pos hu]
      exact Or.inr ⟨hs.bookMem, hs.l2Cache, hs.bbo⟩
  | finishing _ hbook =>
      rw [← hbook]
      exact Or.inr (sameQuotes_port s)

end Phase

end OrderBook

/-! ## no other order -/

namespace Book

/-- Slot `p` of the search for `r` holds `r`. -/
def Holds (b : Book) (r : OrderRef) (p : Nat) : Prop :=
  (b.refMem (refSlot r p)).valid = true ∧ (b.refMem (refSlot r p)).orderRef = r

/-- Slot `p` of the search for `r` holds another order. -/
def TakenByOther (b : Book) (r : OrderRef) (p : Nat) : Prop :=
  (b.refMem (refSlot r p)).valid = true ∧ (b.refMem (refSlot r p)).orderRef ≠ r

/-- The search for `r` reaches slot `p` of its window. -/
def Reaches (b : Book) (r : OrderRef) (p : Nat) : Prop :=
  p ≤ obMaxProbe ∧ ∀ q, q < p → b.TakenByOther r q

/-- Message `m` is dropped: an add finds every slot taken by another order, any
other message reaches no slot that holds its reference. -/
def Drops (b : Book) (m : BookMsg) : Prop :=
  if bookOp m.msgType = some .add then ∀ p, p ≤ obMaxProbe → b.TakenByOther m.orderRef p
  else ∀ p, b.Reaches m.orderRef p → ¬ b.Holds m.orderRef p

section Search

variable {b : Book} {m : BookMsg} {r : OrderRef} {p : Nat}

theorem holds_iff : b.Holds r p ↔ b.keyAt (refSlot r p) = some r := by
  cases hv : (b.refMem (refSlot r p)).valid <;> simp [Holds, keyAt, hv]

theorem takenByOther_iff :
    b.TakenByOther r p ↔ b.keyAt (refSlot r p) ≠ none ∧ b.keyAt (refSlot r p) ≠ some r := by
  cases hv : (b.refMem (refSlot r p)).valid <;> simp [TakenByOther, keyAt, hv]

theorem lookup_hit_iff : b.lookup r = .hit p ↔ b.Reaches r p ∧ b.Holds r p := by
  rw [lookup, find_hit_iff, Nat.lt_succ_iff, Reaches, holds_iff]
  simp only [takenByOther_iff]
  tauto

theorem lookup_full_iff : b.lookup r = .full ↔ ∀ p, p ≤ obMaxProbe → b.TakenByOther r p := by
  rw [lookup, find_full_iff]
  simp only [takenByOther_iff, Nat.lt_succ_iff]

/-- The messages that are not resolved are the dropped ones. -/
theorem resolve_eq_none_iff : b.resolve m = none ↔ b.Drops m := by
  rw [Drops]
  split
  · rename_i hop
    rw [← lookup_full_iff, resolve]
    cases b.lookup m.orderRef <;> simp [hop]
  · rename_i hop
    rw [Option.eq_none_iff_forall_not_mem]
    simp only [Option.mem_def, resolve_modify_iff hop, lookup_hit_iff, not_and]

/-- From `b` to `b'` at most one slot of the table has changed, and one that
held `r`. -/
structure OnlyOwnSlot (b b' : Book) (r : OrderRef) : Prop where
  own : ∀ a, b'.refMem a ≠ b.refMem a → (b.refMem a).valid = true ∧ (b.refMem a).orderRef = r
  unique : ∀ a a', b'.refMem a ≠ b.refMem a → b'.refMem a' ≠ b.refMem a' → a = a'

theorem OnlyOwnSlot.of_eq {b' : Book} (h : b'.refMem = b.refMem) : OnlyOwnSlot b b' r where
  own a ha := absurd (congrFun h a) ha
  unique a _ ha := absurd (congrFun h a) ha

theorem OnlyOwnSlot.of_update {b' : Book} {e : RefEntry} (hp : b.Holds r p)
    (h : b'.refMem = Function.update b.refMem (refSlot r p) e) : OnlyOwnSlot b b' r := by
  have hslot : ∀ a, b'.refMem a ≠ b.refMem a → a = refSlot r p := by
    intro a ha
    by_contra hne
    rw [h, Function.update_of_ne hne] at ha
    exact ha rfl
  refine ⟨fun a ha => ?_, fun a a' ha ha' => (hslot a ha).trans (hslot a' ha').symm⟩
  rw [hslot a ha]
  exact hp

/-- A Cancel, Delete or Execute writes the slot in which it finds its reference. -/
theorem onlyOwnSlot_exec (hop : bookOp m.msgType = some .cancel ∨ bookOp m.msgType = some .delete ∨
    bookOp m.msgType = some .execute) : OnlyOwnSlot b (b.exec m) m.orderRef := by
  have hadd : bookOp m.msgType ≠ some .add := by rcases hop with hop | hop | hop <;> simp [hop]
  cases hr : b.resolve m with
  | none => exact .of_eq (b.refMem_exec_of_dropped m hr)
  | some p =>
      have hp := (lookup_hit_iff.mp ((resolve_modify_iff hadd).mp hr)).2
      have hexec := b.refMem_exec m hr fun _ => hp
      rcases hop with hop | hop | hop
      · exact .of_update hp (hexec.trans (refMemAfter_cancel hop))
      · exact .of_update hp (hexec.trans (refMemAfter_delete hop))
      · exact .of_update hp (hexec.trans (refMemAfter_execute hop))

end Search

end Book

namespace OrderBook

/-- From `s` to `s'` no array has changed but the collision counter, and neither
has `bbo_valid` or its symbol. -/
structure Untouched (s s' : OrderBook) : Prop extends SameQuotes s'.book s.book where
  refMem : s'.book.refMem = s.book.refMem
  bboValid : s'.bboValid = s.bboValid
  bboSymId : s'.bboSymId = s.bboSymId

section Slots

variable {b : Book} {i : Nat → OrderBookIn} {n j : Nat}

/-- After reset `bbo_valid` is low whenever the book is ready. -/
theorem bboValid_of_ready (hn : (run step (resetWith b) i n).bookReady = true) :
    (run step (resetWith b) i n).bboValid = false := by
  cases n with
  | zero => rfl
  | succ n =>
      rw [run_succ] at hn ⊢
      refine (bbo_pulse_step fun hs => ?_).1
      rw [bookReady_iff] at hn
      simp only [step, hs, stepUpdate] at hn
      split at hn <;> cases hn

/-- The table during an operation, unless a replace goes on to the book: as
before, until the book is ready again. -/
theorem refMem_during (hd : During (resetWith b) i n j) (hnone : bookOp (i n).msg.msgType ≠ none)
    (hop : bookOp (i n).msg.msgType = some .replace →
      (run step (resetWith b) i n).book.resolve (i n).msg = none) :
    (run step (resetWith b) i j).book.refMem = (run step (resetWith b) i n).book.refMem ∨
      Ready ((run step (resetWith b) i n).book.exec (i n).msg) (run step (resetWith b) i j) := by
  have hr := ready_of_bookReady (ready_resetWith b) hd.ready
  obtain ⟨hph | hdone, hP⟩ := hd.rule (ready_resetWith b) hnone
    (P := fun t => t.state ≠ .sIdle → t.book.refMem = (run step (resetWith b) i n).book.refMem)
    (fun _ => refMem_step hr.quiet) fun t k hph hP hidle => by
      have hs : t.state ≠ .sDone := fun hs => hidle (by simp [step, hs])
      rw [refMem_step (hph.quiet hop hs), hP hph.not_idle]
  · exact Or.inl (hP hph.not_idle)
  · exact Or.inr hdone

/-- A dropped message touches nothing in any cycle of its operation. -/
theorem untouched_of_drops (hd : During (resetWith b) i n j)
    (hdrop : (run step (resetWith b) i n).book.Drops (i n).msg) :
    Untouched (run step (resetWith b) i n) (run step (resetWith b) i j) := by
  have hr := ready_of_bookReady (ready_resetWith b) hd.ready
  have hres := Book.resolve_eq_none_iff.mpr hdrop
  have hstart := bbo_pulse_step (i := i n) (s := run step (resetWith b) i n) (by simp [hr.state])
  have hv := bboValid_of_ready hd.ready
  by_cases hnone : bookOp (i n).msg.msgType = none
  · obtain ⟨rfl, hdone⟩ := hd.of_no_op (ready_resetWith b) hnone
    exact ⟨by rw [hdone.book]; exact ⟨rfl, rfl, rfl⟩, by rw [hdone.book],
      hstart.1.trans hv.symm, hstart.2⟩
  · have hexec : SameQuotes ((run step (resetWith b) i n).book.exec (i n).msg)
        (run step (resetWith b) i n).book := by
      rw [Book.exec, if_neg hnone, hres]
      exact ⟨rfl, rfl, rfl⟩
    obtain ⟨hph, hvalid, hsym⟩ := hd.rule (ready_resetWith b) hnone
      (P := fun t => t.bboValid = false ∧ t.bboSymId = (run step (resetWith b) i n).bboSymId)
      hstart fun t k hph hP =>
        ⟨(bbo_pulse_step (hph.not_update hres)).1,
          (bbo_pulse_step (hph.not_update hres)).2.trans hP.2⟩
    refine ⟨?_, ?_, hvalid.trans hv.symm, hsym⟩
    · rcases hph with hph | hdone
      · rcases hph.sameQuotes with hq | hq
        · exact hq
        · exact hq.trans hexec
      · rw [hdone.book]
        exact hexec
    · rcases refMem_during hd hnone fun _ => hres with hm | hdone
      · exact hm
      · rw [hdone.book, Book.refMem_exec_of_dropped _ _ hres]

/-- **No wrong-order modification**: with any table contents and any colliding
hashes, in every cycle of an operation issued to a ready book, a Cancel, Delete
or Execute has changed at most one slot, and one that held its reference; a
message that is dropped has changed nothing. -/
theorem no_wrong_order (b : Book) (i : Nat → OrderBookIn) (n j : Nat)
    (hd : During (resetWith b) i n j) :
    (bookOp (i n).msg.msgType = some .cancel ∨ bookOp (i n).msg.msgType = some .delete ∨
        bookOp (i n).msg.msgType = some .execute →
      Book.OnlyOwnSlot (run step (resetWith b) i n).book (run step (resetWith b) i j).book
        (i n).msg.orderRef) ∧
    ((run step (resetWith b) i n).book.Drops (i n).msg →
      Untouched (run step (resetWith b) i n) (run step (resetWith b) i j)) := by
  refine ⟨fun hop => ?_, untouched_of_drops hd⟩
  have hnone : bookOp (i n).msg.msgType ≠ none := by rcases hop with hop | hop | hop <;> simp [hop]
  have hrep : bookOp (i n).msg.msgType ≠ some .replace := by
    rcases hop with hop | hop | hop <;> simp [hop]
  rcases refMem_during hd hnone fun h => absurd h hrep with hm | hdone
  · exact .of_eq hm
  · rw [hdone.book]
    exact Book.onlyOwnSlot_exec hop

/-- A table in which the home slot of 8192 holds the colliding reference 4098. -/
def collidingTable : Book := Book.zero.writeRef (refSlot 4098#64 0) ⟨true, 4098, 100, 10, true⟩

/-- A cancel of 8192. -/
def cancelColliding : List BookMsg := [⟨0x58#8, 8192#64, 0, 0, 10, true, 0⟩]

theorem no_wrong_order_colliding :
    Book.OnlyOwnSlot (run step (resetWith collidingTable) (spaced cancelColliding) 0).book
      (run step (resetWith collidingTable) (spaced cancelColliding) 10).book 8192#64 ∧
    Untouched (run step (resetWith collidingTable) (spaced cancelColliding) 0)
      (run step (resetWith collidingTable) (spaced cancelColliding) 10) := by
  have hbusy : ∀ k, k < 10 → 0 < k →
      (run step (resetWith collidingTable) (spaced cancelColliding) k).bookReady = false := by
    decide +kernel
  have h := no_wrong_order collidingTable (spaced cancelColliding) 0 10
    ⟨rfl, rfl, by decide, fun k hk hkj => hbusy k hkj hk⟩
  exact ⟨h.1 (Or.inl rfl), h.2 (Book.resolve_eq_none_iff.mp (by decide +kernel))⟩

end Slots

end OrderBook

/-! ## the symbol and the sides of a message -/

section Sides

variable {b b' b'' : Book} {m : BookMsg} {u : UpdateRegs} {sym : SymId} {side : Bool} {e : Level}

/-- The levels and the BBO of a symbol's side are the same in both books. -/
structure Book.SameSide (b b' : Book) (sym : SymId) (side : Bool) : Prop where
  levels : b'.levels sym side = b.levels sym side
  bbo : b'.bbo side sym = b.bbo side sym

theorem Book.SameSide.trans (h : b.SameSide b' sym side) (h' : b'.SameSide b'' sym side) :
    b.SameSide b'' sym side :=
  ⟨h'.levels.trans h.levels, h'.bbo.trans h.bbo⟩

theorem UpdateRegs.sameSide_writeTarget {side' : Bool} (h : ¬ (sym = u.symId ∧ side = side')) :
    b.SameSide (u.writeTarget side' e b) sym side := by
  refine ⟨?_, by rw [bbo_writeTarget]⟩
  rw [writeTarget]
  split
  · rw [Book.levels_writeLevel, if_neg h]
  · rfl

theorem UpdateRegs.sameSide_bboAdd (h : ¬ (sym = u.symId ∧ side = u.side)) :
    b.SameSide (u.bboAdd b) sym side := by
  refine ⟨by rw [levels_bboAdd], ?_⟩
  rw [bbo_bboAdd, if_neg fun hc => h ⟨hc.2.2, hc.2.1⟩]

theorem UpdateRegs.sameSide_bboClear (h : ¬ (sym = u.symId ∧ side = u.refSide)) :
    b.SameSide (u.bboClear b) sym side := by
  refine ⟨by rw [levels_bboClear], ?_⟩
  rw [bbo_bboClear, if_neg fun hc => h ⟨hc.2.2, hc.2.1⟩]

/-- The sides that `S_UPDATE` writes. -/
def UpdateRegs.Touches (u : UpdateRegs) (side : Bool) : Prop :=
  match u.op with
  | none => False
  | some .add => side = u.side
  | some .replace => side = u.side ∨ side = u.refSide
  | some .cancel | some .delete | some .execute => side = u.refSide

/-- `S_UPDATE` writes no other symbol and no other side. -/
theorem UpdateRegs.sameSide_updateBook (h : ¬ (sym = u.symId ∧ u.Touches side)) :
    b.SameSide (u.updateBook b) sym side := by
  rw [Touches] at h
  rw [updateBook]
  cases hop : u.op with
  | none => exact ⟨rfl, rfl⟩
  | some op =>
      rw [hop] at h
      cases op with
      | add => exact (sameSide_writeTarget h).trans (sameSide_bboAdd h)
      | cancel =>
          simp only
          split
          · exact (sameSide_writeTarget h).trans (sameSide_bboClear h)
          · exact sameSide_writeTarget h
      | delete => exact (sameSide_writeTarget h).trans (sameSide_bboClear h)
      | replace =>
          have hnew : ¬ (sym = u.symId ∧ side = u.side) := fun hc => h ⟨hc.1, Or.inl hc.2⟩
          have hold : ¬ (sym = u.symId ∧ side = u.refSide) := fun hc => h ⟨hc.1, Or.inr hc.2⟩
          exact (((sameSide_writeTarget hold).trans (sameSide_writeTarget hnew)).trans
            (sameSide_bboClear hold)).trans (sameSide_bboAdd hnew)
      | execute =>
          simp only
          split
          · exact (sameSide_writeTarget h).trans (sameSide_bboClear h)
          · exact sameSide_writeTarget h

/-- The sides a message may change: that of the order it adds, that of the order
it finds under its reference, and both for a replace. -/
def Book.ChangesSide (b : Book) (m : BookMsg) (side : Bool) : Prop :=
  match bookOp m.msgType with
  | none => False
  | some .add => side = m.side
  | some .replace => ∃ p, b.Reaches m.orderRef p ∧ b.Holds m.orderRef p ∧
      (side = m.side ∨ side = (b.refMem (refSlot m.orderRef p)).side)
  | some .cancel | some .delete | some .execute => ∃ p, b.Reaches m.orderRef p ∧
      b.Holds m.orderRef p ∧ side = (b.refMem (refSlot m.orderRef p)).side

theorem Book.changesSide_of_touches {p : Nat} (hp : b.resolve m = some p)
    (h : ((b.counted m).regs m (refSlot m.orderRef p)).Touches side) : b.ChangesSide m side := by
  have hfound : bookOp m.msgType ≠ some .add → b.Reaches m.orderRef p ∧ b.Holds m.orderRef p :=
    fun hadd => lookup_hit_iff.mp ((resolve_modify_iff hadd).mp hp)
  rw [UpdateRegs.Touches, show UpdateRegs.op _ = bookOp m.msgType from rfl] at h
  rw [ChangesSide]
  cases hop : bookOp m.msgType with
  | none => simp [hop] at h
  | some op =>
      rw [hop] at h hfound
      cases op with
      | add => exact h
      | cancel | delete | replace | execute =>
          obtain ⟨hreach, hholds⟩ := hfound (by simp)
          exact ⟨p, hreach, hholds, h⟩

/-- A message changes no other symbol and no other side. -/
theorem Book.sameSide_exec (h : ¬ (sym = m.symId ∧ b.ChangesSide m side)) :
    b.SameSide (b.exec m) sym side := by
  cases hp : b.resolve m with
  | none => exact ⟨by rw [levels_exec_of_dropped hp], by rw [bbo_exec_of_dropped hp]⟩
  | some p =>
      by_cases hop : bookOp m.msgType = none
      · rw [exec, if_pos hop]
        exact ⟨rfl, rfl⟩
      · have hu : (b.counted m).SameSide (((b.counted m).regs m (refSlot m.orderRef p)).updateBook
            (b.counted m)) sym side :=
          UpdateRegs.sameSide_updateBook fun hc => h ⟨hc.1, changesSide_of_touches hp hc.2⟩
        exact ⟨by rw [levels_exec hp hop, hu.levels]; rfl, by rw [bbo_exec hp hop, hu.bbo]; rfl⟩

end Sides

/-! ## the shadow levels -/

/-- `l2_cache` shadows `book_mem`. -/
def Book.Mirrored (b : Book) : Prop := b.l2Cache = b.bookMem

section Shadow

variable {b : Book} {u : UpdateRegs}

theorem Book.Mirrored.writeLevel (h : b.Mirrored) (lvl : Fin obLevels) (sym : SymId) (side : Bool)
    (e : Level) : (b.writeLevel lvl sym side e).Mirrored := by
  rw [Mirrored] at h
  simp only [Mirrored, Book.writeLevel, h]

theorem Book.Mirrored.writeTarget (h : b.Mirrored) (side : Bool) (e : Level) :
    (u.writeTarget side e b).Mirrored := by
  rw [UpdateRegs.writeTarget]
  split
  · exact h.writeLevel _ _ _ _
  · exact h

theorem Book.Mirrored.writeBbo (h : b.Mirrored) (side : Bool) (sym : SymId) (p : BitVec 32)
    (n : BitVec 24) : (b.writeBbo side sym p n).Mirrored := by
  cases side <;> exact h

theorem Book.Mirrored.bboAdd (h : b.Mirrored) : (u.bboAdd b).Mirrored := by
  rw [UpdateRegs.bboAdd]
  split
  · exact h.writeBbo _ _ _ _
  · exact h

theorem Book.Mirrored.bboClear (h : b.Mirrored) : (u.bboClear b).Mirrored := by
  rw [UpdateRegs.bboClear]
  split
  · exact h.writeBbo _ _ _ _
  · exact h

/-- Every write to a level is repeated in the shadow. -/
theorem Book.Mirrored.updateBook (h : b.Mirrored) : (u.updateBook b).Mirrored := by
  rw [UpdateRegs.updateBook]
  cases u.op with
  | none => exact h
  | some op =>
      cases op with
      | add => exact (h.writeTarget _ _).bboAdd
      | cancel =>
          simp only
          split
          · exact (h.writeTarget _ _).bboClear
          · exact h.writeTarget _ _
      | delete => exact (h.writeTarget _ _).bboClear
      | replace => exact ((h.writeTarget _ _).writeTarget _ _).bboClear.bboAdd
      | execute =>
          simp only
          split
          · exact (h.writeTarget _ _).bboClear
          · exact h.writeTarget _ _

end Shadow

namespace OrderBook

section Isolation

variable {s : OrderBook} {i : OrderBookIn}

theorem mirrored_step (h : s.book.Mirrored) : (s.step i).book.Mirrored := by
  have hadv : (s.advance i).book.Mirrored := by
    rw [advance]
    split <;> exact h
  cases hst : s.state with
  | sIdle =>
      simp only [step, hst, stepIdle]
      split_ifs <;> exact hadv
  | sMatch =>
      simp only [step, hst, stepMatch]
      split_ifs <;> exact hadv
  | sUpdate =>
      simp only [step, hst, stepUpdate]
      exact hadv.updateBook
  | sReadRef1 | sReadRef2 | sProcess | sScanBook | sScanBook2 | sScanBook3 | sUpdate2 | sDone =>
      simpa [step, hst, stepProcess, stepScanBook, stepScanBook2, stepScanBook3, stepUpdate2,
        portWrite] using hadv

/-- The books of an operation that agree with the one before it. -/
theorem sameSide_during {b : Book} {s : OrderBook} {i : Nat → OrderBookIn} {n j : Nat}
    (h0 : Ready b s) (hd : During s i n j) {sym : SymId} {side : Bool}
    (h : ¬ (sym = (i n).msg.symId ∧ (run step s i n).book.ChangesSide (i n).msg side)) :
    (run step s i n).book.SameSide (run step s i j).book sym side := by
  by_cases hnone : bookOp (i n).msg.msgType = none
  · rw [(hd.of_no_op h0 hnone).2.book]
    exact ⟨rfl, rfl⟩
  · have hexec := Book.sameSide_exec h
    have hquotes : ∀ {b' b'' : Book}, SameQuotes b'' b' → b'.SameSide b'' sym side := by
      intro b' b'' hq
      refine ⟨funext fun k => ?_, by rw [hq.bbo]⟩
      rw [Book.levels, Book.levels, hq.bookMem]
    obtain ⟨hph | hdone, -⟩ := hd.rule h0 hnone (P := fun _ => True) trivial fun _ _ _ _ => trivial
    · rcases hph.sameQuotes with hq | hq
      · exact hquotes hq
      · exact hexec.trans (hquotes hq)
    · rw [hdone.book]
      exact hexec

/-- **Symbol isolation and level mirror**: in every run from zeroed tables
`l2_cache` equals `book_mem` in every cycle, and in every cycle of an operation
the levels, the shadow levels and the BBO are those before it, but for the
symbol of the message and the sides it may change. -/
theorem symbol_isolation (i : Nat → OrderBookIn) :
    (∀ n, (run step reset i n).book.Mirrored) ∧
    ∀ n j, During reset i n j → ∀ sym side,
      ¬ (sym = (i n).msg.symId ∧ (run step reset i n).book.ChangesSide (i n).msg side) →
      (∀ k, (run step reset i j).book.bookMem k (sym, side) =
        (run step reset i n).book.bookMem k (sym, side) ∧
        (run step reset i j).book.l2Cache k (sym, side) =
        (run step reset i n).book.l2Cache k (sym, side)) ∧
      (run step reset i j).book.bbo side sym = (run step reset i n).book.bbo side sym := by
  have hmirror : ∀ n, (run step reset i n).book.Mirrored :=
    run_invariant (P := fun _ (t : OrderBook) => t.book.Mirrored) rfl fun _ h => mirrored_step h
  refine ⟨hmirror, fun n j hd sym side h => ?_⟩
  have hs := sameSide_during ready_reset hd h
  have hlevel : ∀ k, (run step reset i j).book.bookMem k (sym, side) =
      (run step reset i n).book.bookMem k (sym, side) := fun k => congrFun hs.levels k
  refine ⟨fun k => ⟨hlevel k, ?_⟩, hs.bbo⟩
  rw [hmirror j, hmirror n]
  exact hlevel k

end Isolation

end OrderBook

end Lliu
