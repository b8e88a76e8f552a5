import Lliu.LliuTopV2.Trace
import Lliu.OrderBook.Live

/-!
# Lliu.LliuTopV2.Updates

The messages that reach the order book.  The book takes a message only while it
is idle, and its `book_ready` goes nowhere: a message whose `fields_valid` pulse
falls while the book works on another is lost.  The updates are complete exactly
when no pulse does.
-/

namespace Lliu

namespace LliuTopV2

open Hdl

/-- What the order book sees in a run. -/
def bookIn (i : Nat → LliuTopV2In) (n : Nat) : OrderBookIn := (trace i n).obIn

/-- The order book runs on the parser's outputs. -/
theorem uOb_trace (i : Nat → LliuTopV2In) (n : Nat) :
    (trace i n).uOb = run OrderBook.step OrderBook.reset (bookIn i) n :=
  run_map (fun _ => rfl) n

/-- A message with an operation on the book. -/
def isBookMsg (m : BookMsg) : Bool := (bookOp m.msgType).isSome

/-- The book messages for which the parser has pulsed `fields_valid` before
cycle `n`. -/
def pulsed (i : Nat → LliuTopV2In) : Nat → List BookMsg
  | 0 => []
  | n + 1 =>
      if (trace i n).uParser.fieldsValid && isBookMsg (trace i n).parserMsg then
        pulsed i n ++ [(trace i n).parserMsg]
      else pulsed i n

/-- The book messages the order book has taken before cycle `n`. -/
def applied (i : Nat → LliuTopV2In) (n : Nat) : List BookMsg :=
  (OrderBook.accepted OrderBook.reset (bookIn i) n).filter isBookMsg

/-- Every pulse for a book message falls while the book is ready. -/
def PulsesWhenReady (i : Nat → LliuTopV2In) : Prop :=
  ∀ n, (trace i n).uParser.fieldsValid = true → isBookMsg (trace i n).parserMsg = true →
    (trace i n).uOb.bookReady = true

/-- The book after the messages `ms` fed one at a time, each while it is idle. -/
def oneAtATime (ms : List BookMsg) : Book :=
  (run OrderBook.step OrderBook.reset (OrderBook.spaced ms) (32 * ms.length)).book

section Updates

variable {i : Nat → LliuTopV2In} {n : Nat}

theorem applied_succ : applied i (n + 1) =
    if (trace i n).uOb.bookReady && (trace i n).uParser.fieldsValid &&
        isBookMsg (trace i n).parserMsg then
      applied i n ++ [(trace i n).parserMsg]
    else applied i n := by
  rw [applied, OrderBook.accepted, ← uOb_trace, show (bookIn i n).fieldsValid =
    (trace i n).uParser.fieldsValid from rfl, show (bookIn i n).msg = (trace i n).parserMsg from rfl]
  cases (trace i n).uOb.bookReady && (trace i n).uParser.fieldsValid with
  | false => rfl
  | true =>
      rw [if_pos rfl, List.filter_append, Bool.true_and]
      cases hm : isBookMsg (trace i n).parserMsg with
      | false => simp [applied, hm]
      | true => simp [applied, hm]

/-- The messages without an operation do nothing. -/
theorem execs_filter (b : Book) (ms : List BookMsg) : b.execs (ms.filter isBookMsg) = b.execs ms := by
  induction ms generalizing b with
  | nil => rfl
  | cons m ms ih =>
      cases hm : isBookMsg m with
      | false =>
          have hop : bookOp m.msgType = none := by simpa [isBookMsg] using hm
          have hsame : b.exec m = b := by rw [Book.exec, if_pos hop]
          rw [List.filter_cons_of_neg (by simp [hm]), ih, Book.execs, Book.execs, List.foldl_cons,
            hsame]
      | true =>
          rw [List.filter_cons_of_pos hm, Book.execs, List.foldl_cons]
          exact ih _

theorem fst_replay (ms : List BookMsg) : (OrderBook.replay ms).1 = Book.zero.execs ms := by
  rw [OrderBook.replay]
  induction ms using List.reverseRecOn with
  | nil => rfl
  | append_singleton ms m ih => rw [List.foldl_append, Book.execs_append_singleton, ← ih]; rfl

theorem oneAtATime_eq (ms : List BookMsg) : oneAtATime ms = Book.zero.execs ms := by
  rw [oneAtATime, (OrderBook.replay_spaced ms ms.length (le_refl _)).1.book, List.take_length,
    fst_replay]

/-- When no pulse meets a busy book, every message is taken. -/
theorem applied_eq_pulsed (h : PulsesWhenReady i) (n : Nat) : applied i n = pulsed i n := by
  induction n with
  | zero => rfl
  | succ n ih =>
      rw [applied_succ, pulsed, ih]
      cases hv : (trace i n).uParser.fieldsValid && isBookMsg (trace i n).parserMsg with
      | false => rw [Bool.and_assoc, hv, Bool.and_false]
      | true =>
          rw [Bool.and_eq_true] at hv
          rw [h n hv.1 hv.2, Bool.true_and, hv.1, hv.2, Bool.true_and]

/-- A pulse that meets a busy book is lost. -/
theorem pulsesWhenReady_of_applied (h : ∀ n, applied i n = pulsed i n) : PulsesWhenReady i := by
  intro n hv hm
  by_contra hbusy
  rw [Bool.not_eq_true] at hbusy
  have hnext := h (n + 1)
  rw [applied_succ, pulsed, hbusy, hv, hm, h n, Bool.false_and, Bool.false_and,
    if_neg Bool.false_ne_true, Bool.true_and, if_pos rfl] at hnext
  have hlen := congrArg List.length hnext
  simp at hlen

/-- **Updates**: every message for which the parser pulses `fields_valid` is
applied exactly once and in order if and only if every pulse falls while the
book is ready; and then, whenever the book is ready, it is the book that the
messages lead to when they are fed one at a time. -/
theorem updates_applied_iff (i : Nat → LliuTopV2In) :
    ((∀ n, applied i n = pulsed i n) ↔ PulsesWhenReady i) ∧
    (PulsesWhenReady i → ∀ n, (trace i n).uOb.bookReady = true →
      (trace i n).uOb.book = oneAtATime (pulsed i n)) := by
  refine ⟨⟨pulsesWhenReady_of_applied, applied_eq_pulsed⟩, fun h n hn => ?_⟩
  rw [oneAtATime_eq, ← applied_eq_pulsed h, applied, execs_filter, uOb_trace]
  rw [uOb_trace] at hn
  exact OrderBook.book_of_ready OrderBook.ready_reset hn

/-- Two Add Orders back to back: bids at 100 and at 200. -/
def twoAdds : Nat → LliuTopV2In :=
  Schedule.inputs
    { axis := frameAt 0 (addFrame 1 buy 10 100 aapl) ++ frameAt 6 (addFrame 2 buy 10 200 aapl)
      axil := [] }

/-- The second bid arrives while the book works on the first, and is lost. -/
theorem second_add_lost :
    applied twoAdds 30 ≠ pulsed twoAdds 30 ∧ (trace twoAdds 30).uOb.bookReady = true ∧
    (trace twoAdds 30).uOb.book.bboBidPriceR 0 = 100 ∧
    (oneAtATime (pulsed twoAdds 30)).bboBidPriceR 0 = 200 := by
  decide +kernel

end Updates

end LliuTopV2

end Lliu
