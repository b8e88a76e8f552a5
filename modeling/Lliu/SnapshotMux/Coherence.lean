import Lliu.Hdl.Hold
import Lliu.LliuTopV2.Trace
import Lliu.OrderBook.Isolation

/-!
# Lliu.SnapshotMux.Coherence

The order book and the snapshot mux, wired as in the top level: the BBO query follows
the `sym_id` at the book's input, and the mux copies the query's answer to the entry of
the symbol whose BBO was updated.

The query answers for the symbol that is at the input in the cycle of `bbo_valid`, and
by then that may be another one.  A shadow entry is right exactly if, in the cycle of the
symbol's last `bbo_valid`, the symbol at the input had the same BBO.
-/

namespace Lliu

open Hdl OrderBook

/-- The inputs of the pair. -/
structure BookSnapIn where
  msg : BookMsg
  fieldsValid : Bool
  snapReq : Bool
  snapReady : Bool

/-- The order book with the snapshot mux. -/
@[ext]
structure BookSnap where
  ob : OrderBook
  snap : SnapshotMux

namespace BookSnap

/-- The registers after reset. -/
def reset : BookSnap where
  ob := OrderBook.reset
  snap := SnapshotMux.reset

/-- The inputs of the book: the query follows the message. -/
def obIn (i : BookSnapIn) : OrderBookIn where
  msg := i.msg
  fieldsValid := i.fieldsValid
  bboQuerySym := i.msg.symId

/-- The inputs of the mux. -/
def snapIn (s : BookSnap) (i : BookSnapIn) : SnapshotMuxIn where
  bboValid := s.ob.bboValid
  bboSymId := s.ob.bboSymId
  bboBidPrice := s.ob.bboBidPrice
  bboAskPrice := s.ob.bboAskPrice
  bboBidSize := s.ob.bboBidSize
  bboAskSize := s.ob.bboAskSize
  snapReq := i.snapReq
  snapReady := i.snapReady

/-- One clock edge. -/
def step (s : BookSnap) (i : BookSnapIn) : BookSnap where
  ob := s.ob.step (obIn i)
  snap := s.snap.step (s.snapIn i)

/-- The state in cycle `n` of a run from reset. -/
def trace (i : Nat → BookSnapIn) (n : Nat) : BookSnap := run step reset i n

/-! ## the top level -/

/-- The pair in the top level, and what it sees there. -/
def ofTop (s : LliuTopV2) : BookSnap := ⟨s.uOb, s.uSnap⟩

def topIn (i : Nat → LliuTopV2In) (n : Nat) : BookSnapIn where
  msg := (LliuTopV2.trace i n).parserMsg
  fieldsValid := (LliuTopV2.trace i n).uParser.fieldsValid
  snapReq := (i n).snapReq
  snapReady := (i n).snapReady

/-- In the top level the pair runs on its own, on the messages of the parser. -/
theorem ofTop_trace (i : Nat → LliuTopV2In) (n : Nat) :
    ofTop (LliuTopV2.trace i n) = trace (topIn i) n :=
  run_map (fun _ => rfl) n

end BookSnap

/-! ## the BBO registers -/

section Bbo

variable {b : Book} {u : UpdateRegs} {s : OrderBook} {i : OrderBookIn} {side : Bool} {sym : SymId}

/-- An update leaves the BBO of the other symbols. -/
theorem UpdateRegs.bbo_updateBook_of_ne (h : sym ≠ u.symId) :
    (u.updateBook b).bbo side sym = b.bbo side sym := by
  unfold updateBook
  split
  all_goals try split
  all_goals simp [bbo_bboAdd, bbo_bboClear, h]

/-- Outside `S_UPDATE` no BBO changes. -/
theorem bbo_step_of_ne (hs : s.state ≠ .sUpdate) : (s.step i).book.bbo = s.book.bbo := by
  have hport := (sameQuotes_port s).bbo
  cases hst : s.state with
  | sUpdate => exact absurd hst hs
  | sIdle =>
      simp only [step, hst, stepIdle]
      split_ifs <;> exact hport.symm
  | sMatch =>
      simp only [step, hst, stepMatch]
      split_ifs <;> exact hport.symm
  | sReadRef1 | sReadRef2 | sProcess | sScanBook | sScanBook2 | sScanBook3 | sUpdate2 | sDone =>
      simp only [step, hst]
      exact hport.symm

/-- A BBO changes with a `bbo_valid` of its symbol only. -/
theorem bbo_step (h : ¬ ((s.step i).bboValid = true ∧ (s.step i).bboSymId = sym)) :
    (s.step i).book.bbo side sym = s.book.bbo side sym := by
  by_cases hs : s.state = .sUpdate
  · have hport := congrFun (congrFun (sameQuotes_port s).bbo side) sym
    simp only [step, hs, stepUpdate] at h ⊢
    cases hop : s.updateRegs.op with
    | none =>
        unfold UpdateRegs.updateBook
        rw [hop]
        exact hport.symm
    | some op =>
        have hne : sym ≠ s.updateRegs.symId := by
          rintro rfl
          exact h ⟨by simp [hop], by rw [hop]; rfl⟩
        exact (UpdateRegs.bbo_updateBook_of_ne hne).trans hport.symm
  · rw [bbo_step_of_ne hs]

/-- The answer to the BBO query. -/
def OrderBook.answer (s : OrderBook) (side : Bool) : BboEntry :=
  if side then (s.bboBidPrice, s.bboBidSize) else (s.bboAskPrice, s.bboAskSize)

/-- The query is answered in the next cycle. -/
theorem answer_step : (s.step i).answer side = s.book.bbo side i.bboQuerySym := by
  have hadv : (s.advance i).answer side = s.book.bbo side i.bboQuerySym := by
    cases side <;> rfl
  rw [← hadv]
  cases hst : s.state with
  | sIdle =>
      simp only [step, hst, stepIdle]
      split_ifs <;> rfl
  | sMatch =>
      simp only [step, hst, stepMatch]
      split_ifs <;> rfl
  | sUpdate =>
      simp only [step, hst, stepUpdate]
      cases s.updateRegs.refWrite <;> rfl
  | sReadRef1 | sReadRef2 | sProcess | sScanBook | sScanBook2 | sScanBook3 | sUpdate2 | sDone =>
      simp only [step, hst]
      rfl

/-- From `S_IDLE` no `bbo_valid` comes in the next two cycles. -/
theorem bboValid_of_idle (hs : s.state = .sIdle) (j : OrderBookIn) :
    (s.step i).bboValid = false ∧ ((s.step i).step j).bboValid = false := by
  have hnext : (s.step i).state ≠ .sUpdate := by
    simp only [step, hs, stepIdle]
    split_ifs <;> simp [advance, hs]
  exact ⟨(bbo_pulse_step (by simp [hs])).1, (bbo_pulse_step hnext).1⟩

end Bbo

/-! ## the shadow memories -/

namespace SnapshotMux

/-- The shadow entry of a symbol's side. -/
def shadow (s : SnapshotMux) (side : Bool) (sym : SymId) : BitVec 64 :=
  if side then s.bidBram sym else s.askBram sym

/-- A BBO as it is stored. -/
def packed (e : BboEntry) : BitVec 64 := entry e.1 e.2

theorem packed_inj {e e' : BboEntry} : packed e = packed e' ↔ e = e' := by
  have hsize : ∀ e : BboEntry, (packed e).extractLsb' 0 24 = e.2 := fun e => by
    change ((e.1 ++ 0#8 ++ e.2 : BitVec (32 + 8 + 24)).extractLsb' 0 24) = e.2
    rw [BitVec.extractLsb'_append_eq_right]
  have hprice : ∀ e : BboEntry, ((packed e).extractLsb' 24 40).extractLsb' 8 32 = e.1 := fun e => by
    change ((e.1 ++ 0#8 ++ e.2 : BitVec (32 + 8 + 24)).extractLsb' 24 (32 + 8)).extractLsb' 8 32 = e.1
    rw [BitVec.extractLsb'_append_eq_left, BitVec.extractLsb'_append_eq_left]
  constructor
  · intro h
    exact Prod.ext (by rw [← hprice e, h, hprice]) (by rw [← hsize e, h, hsize])
  · exact fun h => congrArg packed h

/-- The memories and the delay of `bbo_valid` run in every state. -/
theorem delay_step (s : SnapshotMux) (i : SnapshotMuxIn) :
    (s.step i).shadow = (s.advance i).shadow ∧ (s.step i).bboValidD1 = i.bboValid ∧
    (s.step i).bboSymIdD1 = i.bboSymId := by
  unfold step
  split
  all_goals try split_ifs
  all_goals exact ⟨rfl, rfl, rfl⟩

theorem shadow_step (s : SnapshotMux) (i : SnapshotMuxIn) (side : Bool) (sym : SymId) :
    (s.step i).shadow side sym =
      if (s.bboValidD1 && s.bboSymIdD1 == sym) = true then
        packed (if side then (i.bboBidPrice, i.bboBidSize) else (i.bboAskPrice, i.bboAskSize))
      else s.shadow side sym := by
  rw [(delay_step s i).1]
  unfold shadow advance packed
  by_cases hsym : sym = s.bboSymIdD1
  · subst hsym
    cases s.bboValidD1 <;> cases side <;> simp
  · cases s.bboValidD1 <;> cases side <;> simp [hsym, Ne.symm hsym]

end SnapshotMux

/-! ## runs -/

namespace BookSnap

open SnapshotMux

/-- The book pulses `bbo_valid` for a symbol. -/
def updated (i : Nat → BookSnapIn) (sym : SymId) (k : Nat) : Bool :=
  (trace i k).ob.bboValid && (trace i k).ob.bboSymId == sym

/-- The shadow entry of a symbol is its BBO on both sides. -/
def Coherent (s : BookSnap) (sym : SymId) : Prop :=
  ∀ side, s.snap.shadow side sym = packed (s.ob.book.bbo side sym)

section Run

variable {i : Nat → BookSnapIn} {sym : SymId} {n v : Nat} {side : Bool}

/-- Two cycles after `bbo_valid` the entry holds the answer for the symbol that was at
the input with it. -/
theorem hold_shadow : Hold (updated i sym)
    (fun k => packed ((trace i k).ob.book.bbo side (i k).msg.symId))
    (fun k => (trace i (k + 1)).snap.shadow side sym) := by
  intro k
  obtain ⟨-, hvalid, hsym⟩ := delay_step (trace i k).snap ((trace i k).snapIn (i k))
  have hvalid' : (trace i (k + 1)).snap.bboValidD1 = (trace i k).ob.bboValid := hvalid
  have hsym' : (trace i (k + 1)).snap.bboSymIdD1 = (trace i k).ob.bboSymId := hsym
  have hanswer : (trace i (k + 1)).ob.answer side = (trace i k).ob.book.bbo side (i k).msg.symId :=
    answer_step
  have hshadow := shadow_step (trace i (k + 1)).snap ((trace i (k + 1)).snapIn (i (k + 1))) side sym
  rw [hvalid', hsym'] at hshadow
  beta_reduce
  rw [← hanswer]
  exact hshadow

/-- The BBO of a symbol is that of its last `bbo_valid`. -/
theorem bbo_of_lastLoad {t : Nat} (hlt : v ≤ t)
    (hlast : ∀ k, v < k → k ≤ t → updated i sym k = false) :
    (trace i t).ob.book.bbo side sym = (trace i v).ob.book.bbo side sym := by
  induction t, hlt using Nat.le_induction with
  | base => rfl
  | succ t hge ih =>
      have hnone := hlast (t + 1) (by omega) (Nat.le_refl _)
      have hstep : (trace i (t + 1)).ob.book.bbo side sym = (trace i t).ob.book.bbo side sym := by
        refine bbo_step fun h => ?_
        have hupd : updated i sym (t + 1) = true := by
          unfold updated
          rw [Bool.and_eq_true, beq_iff_eq]
          exact h
        rw [hnone] at hupd
        cases hupd
      rw [hstep]
      exact ih fun k hk hkt => hlast k hk (Nat.le_succ_of_le hkt)

/-- **Shadow coherence**: with the book idle in cycle `n` and two further cycles, the
entry of a symbol is its BBO exactly if, in the cycle `v` of its last `bbo_valid`, the
symbol at the input had the same BBO on both sides. -/
theorem coherent_iff (hidle : (trace i n).ob.state = .sIdle)
    (hv : LastLoad (updated i sym) 0 (n + 1) v) : (trace i (n + 2)).Coherent sym ↔
      ∀ side, (trace i v).ob.book.bbo side (i v).msg.symId = (trace i v).ob.book.bbo side sym := by
  obtain ⟨hq1, hq2⟩ := bboValid_of_idle (i := obIn (i n)) hidle (obIn (i (n + 1)))
  have hquiet : ∀ k, v < k → k ≤ n + 2 → updated i sym k = false := by
    intro k hk hkn
    by_cases hlt : k < n + 1
    · exact hv.last k hk hlt
    · obtain rfl | rfl : k = n + 1 ∨ k = n + 2 := by omega
      · unfold updated
        rw [show (trace i (n + 1)).ob.bboValid = false from hq1, Bool.false_and]
      · unfold updated
        rw [show (trace i (n + 2)).ob.bboValid = false from hq2, Bool.false_and]
  have hle : v ≤ n + 2 := by
    have := hv.lt
    omega
  have hentry : ∀ side, (trace i (n + 2)).snap.shadow side sym =
      packed ((trace i v).ob.book.bbo side (i v).msg.symId) := fun side =>
    hold_shadow.of_lastLoad hv
  unfold Coherent
  simp only [hentry, bbo_of_lastLoad hle hquiet, packed_inj]

end Run

/-! ## another symbol at the input -/

/-- An Add Order of symbol 1 in cycle 0, and from cycle `t` on symbol 2 at the input. -/
def symbolsAt (t n : Nat) : BookSnapIn where
  msg :=
    { msgType := 0x41
      orderRef := 7
      newOrderRef := 0
      price := 1000
      shares := 10
      side := true
      symId := if n < t then 1 else 2 }
  fieldsValid := n == 0
  snapReq := false
  snapReady := true

/-- With the symbol at the input until the book is idle, its entry is coherent. -/
theorem symbolsAt_coherent : (trace (symbolsAt 10) 12).Coherent 1 := by
  have hlast : LastLoad (updated (symbolsAt 10) 1) 0 11 9 :=
    ⟨by decide, by decide, by decide +kernel, fun d h9 h11 => by
      obtain rfl : d = 10 := by omega
      decide +kernel⟩
  exact (coherent_iff (n := 10) (by decide +kernel) hlast).mpr fun side => by rfl

/-- With the next symbol at the input in cycle 9, that of `bbo_valid`, the entry has the
BBO of that symbol. -/
theorem symbolsAt_stale : (trace (symbolsAt 9) 10).ob.state = .sIdle ∧
    updated (symbolsAt 9) 1 9 = true ∧ (trace (symbolsAt 9) 12).ob.book.bbo true 1 = (1000, 10) ∧
    (trace (symbolsAt 9) 12).snap.shadow true 1 = 0 := by
  decide +kernel

end BookSnap

end Lliu
