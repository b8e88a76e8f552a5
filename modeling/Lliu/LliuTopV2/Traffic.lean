import Lliu.Hdl.Server
import Lliu.LliuTopV2.Updates
import Lliu.OrderBook.Service

/-!
# Lliu.LliuTopV2.Traffic

How dense the messages to the order book may be.  The book is a server without a queue, and
the time of a message is known from the message and the book before: so whether updates are
lost can be told from the messages and their cycles alone (`updates_complete_iff`).
-/

namespace Lliu

namespace LliuTopV2

open Hdl

variable {i : Nat → LliuTopV2In}

/-- The parser pulses `fields_valid` for a book message. -/
def bookPulse (i : Nat → LliuTopV2In) (n : Nat) : Bool :=
  (trace i n).uParser.fieldsValid && isBookMsg (trace i n).parserMsg

/-- The time of the message of cycle `t`, on the book after all messages before. -/
def serviceAt (i : Nat → LliuTopV2In) (t : Nat) : Nat :=
  (oneAtATime (pulsed i t)).service (trace i t).parserMsg

/-- Every book message comes after the time of those before. -/
def Sparse (i : Nat → LliuTopV2In) : Prop :=
  ∀ t n, bookPulse i t = true → bookPulse i n = true → t < n → t + serviceAt i t < n

/-! ## the book as a server -/

theorem uOb_add (n m : Nat) : (trace i (n + m)).uOb =
    run OrderBook.step (trace i n).uOb (fun k => bookIn i (n + k)) m := by
  rw [uOb_trace, uOb_trace, run_add]

/-- A ready book has nothing on its write port. -/
theorem ready_uOb {n : Nat} (h : (trace i n).uOb.bookReady = true) :
    OrderBook.Ready (trace i n).uOb.book (trace i n).uOb := by
  rw [uOb_trace] at h ⊢
  rcases OrderBook.run_track (i := bookIn i) OrderBook.ready_reset n with hr | ⟨ms, m, -, hph⟩
  · exact ⟨hr.state, hr.quiet, rfl⟩
  · exact absurd ((OrderBook.bookReady_iff _).mp h) hph.not_idle

theorem server_book (i : Nat → LliuTopV2In) : Server (fun n => (trace i n).uOb.bookReady) (bookPulse i)
    (fun n => (trace i n).uOb.book.service (trace i n).parserMsg) := by
  have hserve : ∀ n, (trace i n).uOb.bookReady = true → bookPulse i n = true →
      (∀ k, k < (trace i n).uOb.book.service (trace i n).parserMsg →
        (trace i (n + 1 + k)).uOb.bookReady = false) ∧
      (trace i (n + 1 + (trace i n).uOb.book.service (trace i n).parserMsg)).uOb.bookReady = true := by
    intro n hr hq
    obtain ⟨hv, hop⟩ := Bool.and_eq_true_iff.mp hq
    have hserved := OrderBook.run_service (ready_uOb hr) (fun k => bookIn i (n + k)) hv
      (Option.isSome_iff_ne_none.mp hop)
    simp only [← uOb_add, ← Nat.add_assoc] at hserved
    exact hserved
  refine ⟨rfl, fun n hr hq => ?_, fun n hr hq => (hserve n hr hq).1, fun n hr hq => (hserve n hr hq).2⟩
  -- trades and unknown messages leave the book ready
  have hstay := OrderBook.ready_step (i := (trace i n).obIn) (ready_uOb hr) fun hv => by
    have hnot : isBookMsg (trace i n).parserMsg = false := by
      rwa [bookPulse, show (trace i n).uParser.fieldsValid = true from hv, Bool.true_and] at hq
    change bookOp (trace i n).parserMsg.msgType = none
    simpa [isBookMsg] using hnot
  exact (OrderBook.bookReady_iff _).mpr hstay.state

/-! ## lost updates -/

/-- As long as no pulse has met a busy book every message has been taken. -/
theorem applied_eq_pulsed_upto {n : Nat} (h : ∀ k, k < n → bookPulse i k = true →
    (trace i k).uOb.bookReady = true) : applied i n = pulsed i n := by
  induction n with
  | zero => rfl
  | succ n ih =>
      rw [applied_succ, pulsed, ih fun k hk => h k (Nat.lt_succ_of_lt hk), Bool.and_assoc]
      cases hp : bookPulse i n with
      | false =>
          rw [bookPulse] at hp
          rw [hp, Bool.and_false]
      | true =>
          have hr := h n (Nat.lt_succ_self n) hp
          rw [bookPulse] at hp
          rw [hp, hr, Bool.true_and]

/-- And a ready book is that of the messages so far. -/
theorem book_eq_oneAtATime {n : Nat} (h : ∀ k, k < n → bookPulse i k = true →
    (trace i k).uOb.bookReady = true) (hr : (trace i n).uOb.bookReady = true) :
    (trace i n).uOb.book = oneAtATime (pulsed i n) := by
  rw [oneAtATime_eq, ← applied_eq_pulsed_upto h, applied, execs_filter, uOb_trace]
  rw [uOb_trace] at hr
  exact OrderBook.book_of_ready OrderBook.ready_reset hr

theorem ready_of_sparse (h : Sparse i) (n : Nat) (hn : bookPulse i n = true) :
    (trace i n).uOb.bookReady = true := by
  induction n using Nat.strong_induction_on with
  | _ n ih =>
      refine (server_book i).ready_of_after fun t hlt hr hq => ?_
      rw [book_eq_oneAtATime (fun k hk => ih k (by omega)) hr]
      exact h t n hq hn hlt

theorem sparse_of_ready (h : ∀ n, bookPulse i n = true → (trace i n).uOb.bookReady = true) :
    Sparse i := by
  intro t n ht hn hlt
  rw [serviceAt, ← book_eq_oneAtATime (fun k _ => h k) (h t ht)]
  exact (server_book i).after_of_ready (h t ht) ht hlt (h n hn)

/-- **Traffic**: the order book takes every message, exactly once and in order, if and only if
every message comes after the time that those before need on the book that the messages lead
to one at a time; no message needs more than 26 cycles or less than five. -/
theorem updates_complete_iff (i : Nat → LliuTopV2In) :
    ((∀ n, applied i n = pulsed i n) ↔ Sparse i) ∧
    ∀ t, 5 ≤ serviceAt i t ∧ serviceAt i t ≤ 26 := by
  refine ⟨⟨fun h => sparse_of_ready fun n hn => ?_, fun h n => ?_⟩, fun t => Book.service_bounds _ _⟩
  · obtain ⟨hv, hm⟩ := Bool.and_eq_true_iff.mp hn
    exact pulsesWhenReady_of_applied h n hv hm
  · exact applied_eq_pulsed_upto fun k _ hk => ready_of_sparse h k hk

end LliuTopV2

end Lliu
