import Lliu.FeatureExtractorV2.Vector
import Lliu.LliuTopV2.Causes
import Lliu.LliuTopV2.Features
import Lliu.LliuTopV2.Symbols
import Lliu.LliuTopV2.Traffic
import Lliu.OrderBook.Isolation
import Lliu.OuchEngine.Watchdog

/-!
# Lliu.LliuTopV2.Desk

The top level as a function of the messages.  If every message finds the order book ready
and the receiver does not stall for 64 cycles in a row (`Paced`), the signals are those of the
desk of `Lliu.Desk` for the parsed messages, whatever their timing: so in a calm run
positions and orders are what trader and desk make of them (`orders_of_messages`).
-/

namespace Lliu

namespace LliuTopV2

open Hdl OuchEngine

variable {i : Nat → LliuTopV2In}

/-! ## messages and settings -/

/-- The outputs of the parser. -/
def fieldsAt (i : Nat → LliuTopV2In) (t : Nat) : ItchParserV2.Fields := (trace i t).uParser.fields

/-- The outputs in the cycle before. -/
def fieldsBefore (i : Nat → LliuTopV2In) : Nat → ItchParserV2.Fields
  | 0 => ItchParserV2.reset.fields
  | t + 1 => fieldsAt i t

/-- A message, supported or not, has come to the outputs. -/
def parsed (i : Nat → LliuTopV2In) : Nat → Bool
  | 0 => false
  | t + 1 => (trace i t).uParser.state == .sEmit

/-- The messages parsed before cycle `n`. -/
def events (i : Nat → LliuTopV2In) (n : Nat) : List (Nat × ItchParserV2.Fields) :=
  collect (fun t => if parsed i t then some (t, fieldsAt i t) else none) n

/-- The settings that the message of a cycle meets. -/
def setupOf (i : Nat → LliuTopV2In) : Setup where
  watches t stock := (List.finRange symFilterEntries).any fun k => watchlistSet i t k == some stock
  weight t k j := weightSet i (t + 11 + j) k (BitVec.ofNat 5 j)
  scoreThresh t := (settings i (t + 73)).scoreThresh
  shares t := (settings i (t + 76)).coreShares
  bandBps t := (settings i (t + 76)).bandBps
  maxQty t := (settings i (t + 76)).maxQty
  halted t := (settings i (t + 76)).killSw

/-- Every message finds the order book ready, and the receiver is never away for 64 cycles. -/
structure Paced (i : Nat → LliuTopV2In) : Prop where
  book : ∀ t n, bookPulse i t = true → (trace i n).uParser.fieldsValid = true → t < n →
    t + serviceAt i t < n
  receiver : ∀ n, ∃ k, k < 64 ∧ (i (n + k)).mAxisTready = true

/-! ## the parser's outputs -/

theorem fields_step {s : ItchParserV2} (hs : s.state ≠ .sEmit) (x : ItchParserV2In) :
    (s.step x).fields = s.fields := by
  rw [ItchParserV2.step]
  cases hst : s.state with
  | sIdle =>
      simp only [ItchParserV2.stepIdle]
      split <;> rfl
  | sAccumulate =>
      simp only [ItchParserV2.stepAccumulate]
      split <;> rfl
  | sEmit => exact absurd hst hs

/-- Without a message the outputs stay. -/
theorem fieldsAt_of_not_parsed {t : Nat} (h : parsed i t = false) : fieldsAt i t = fieldsBefore i t := by
  cases t with
  | zero => rfl
  | succ t =>
      have hst : (trace i t).uParser.state ≠ .sEmit := by simpa [parsed] using h
      exact fields_step hst _

/-- `fields_valid` pulses for the supported messages. -/
theorem fieldsValid_eq (t : Nat) : (trace i t).uParser.fieldsValid =
    (parsed i t && ItchParserV2.supported (fieldsAt i t).msgType) := by
  cases t with
  | zero => rfl
  | succ t =>
      cases hp : parsed i (t + 1) with
      | false =>
          have hst : (trace i t).uParser.state ≠ .sEmit := by simpa [parsed] using hp
          rw [Bool.false_and]
          exact ItchParserV2.fieldsValid_step (validInIdle_trace t) hst
      | true =>
          have hst : (trace i t).uParser.state = .sEmit := by simpa [parsed] using hp
          have hstep : (trace i (t + 1)).uParser = (trace i t).uParser.stepEmit := by
            change (trace i t).uParser.step _ = _
            rw [ItchParserV2.step, hst]
          rw [Bool.true_and, fieldsAt, hstep]
          rfl

/-- The parser gives no symbol index but zero. -/
theorem parserMsg_eq (t : Nat) : (trace i t).parserMsg = bookMsg (fieldsAt i t) := by
  have hsym := (symIdZero_trace (i := i) t).parser
  rw [parserMsg, hsym]
  rfl

theorem supported_of_bookOp {x : BitVec 8} (h : (bookOp x).isSome = true) :
    ItchParserV2.supported x = true := by
  revert h
  revert x
  decide

/-! ## the book -/

/-- Only `S_UPDATE` writes levels and best prices. -/
theorem sameQuotes_step {s : OrderBook} (hs : s.state ≠ .sUpdate) (x : OrderBookIn) :
    OrderBook.SameQuotes (s.step x).book s.book := by
  have hport := (OrderBook.sameQuotes_port s)
  cases hst : s.state with
  | sUpdate => exact absurd hst hs
  | sMatch =>
      simp only [OrderBook.step, hst, OrderBook.stepMatch]
      split_ifs <;> exact ⟨hport.bookMem.symm, hport.l2Cache.symm, hport.bbo.symm⟩
  | sIdle =>
      simp only [OrderBook.step, hst, OrderBook.stepIdle]
      split_ifs <;> exact ⟨hport.bookMem.symm, hport.l2Cache.symm, hport.bbo.symm⟩
  | sReadRef1 | sReadRef2 | sProcess | sScanBook | sScanBook2 | sScanBook3 | sUpdate2 | sDone =>
      simp only [OrderBook.step, hst]
      exact ⟨hport.bookMem.symm, hport.l2Cache.symm, hport.bbo.symm⟩

/-- An idle book is not at an update before the third cycle from then on. -/
theorem not_update_of_idle {t : Nat} (h : (trace i t).uOb.state = .sIdle) :
    (trace i (t + 1)).uOb.state ≠ .sUpdate ∧ (trace i (t + 2)).uOb.state ≠ .sUpdate := by
  have hidle : ∀ s : OrderBook, s.state = .sIdle → ∀ x, (s.step x).state = .sIdle ∨
      (s.step x).state = .sReadRef1 := fun s hs x => by
    simp only [OrderBook.step, hs, OrderBook.stepIdle]
    split
    · simp only
      split <;> simp
    · exact Or.inl hs
  have hread : ∀ s : OrderBook, s.state = .sReadRef1 → ∀ x, (s.step x).state = .sReadRef2 :=
    fun s hs x => by simp only [OrderBook.step, hs]
  rcases hidle _ h (trace i t).obIn with h1 | h1
  · have h1' : (trace i (t + 1)).uOb.state = .sIdle := h1
    refine ⟨by rw [h1']; decide, ?_⟩
    rcases hidle _ h1' (trace i (t + 1)).obIn with h2 | h2
    · exact fun he => by cases h2.symm.trans he
    · exact fun he => by cases h2.symm.trans he
  · have h1' : (trace i (t + 1)).uOb.state = .sReadRef1 := h1
    refine ⟨by rw [h1']; decide, fun he => ?_⟩
    cases (hread _ h1' (trace i (t + 1)).obIn).symm.trans he

/-- So for three cycles it shows what it showed. -/
theorem sameQuotes_of_idle {t : Nat} (h : (trace i t).uOb.state = .sIdle) :
    OrderBook.SameQuotes (trace i (t + 2)).uOb.book (trace i t).uOb.book ∧
    OrderBook.SameQuotes (trace i (t + 3)).uOb.book (trace i t).uOb.book := by
  obtain ⟨hu1, hu2⟩ := not_update_of_idle h
  have hu0 : (trace i t).uOb.state ≠ .sUpdate := by
    rw [h]
    decide
  have h1 : OrderBook.SameQuotes (trace i (t + 1)).uOb.book (trace i t).uOb.book :=
    sameQuotes_step hu0 _
  have h2 : OrderBook.SameQuotes (trace i (t + 2)).uOb.book (trace i t).uOb.book :=
    (sameQuotes_step hu1 _).trans h1
  exact ⟨h2, (sameQuotes_step hu2 _).trans h2⟩

theorem quotes_eq {b b' : Book} (h : OrderBook.SameQuotes b b') (sym : SymId) : b.quotes sym = b'.quotes sym := by
  have hbid := congrFun (congrFun h.bbo true) sym
  have hask := congrFun (congrFun h.bbo false) sym
  have hbidPrice : b.bboBidPriceR sym = b'.bboBidPriceR sym := congrArg Prod.fst hbid
  have hbidSize : b.bboBidSizeR sym = b'.bboBidSizeR sym := congrArg Prod.snd hbid
  have haskPrice : b.bboAskPriceR sym = b'.bboAskPriceR sym := congrArg Prod.fst hask
  have haskSize : b.bboAskSizeR sym = b'.bboAskSizeR sym := congrArg Prod.snd hask
  rw [Book.quotes, hbidPrice, hbidSize, haskPrice, haskSize, h.bookMem, Book.quotes]

/-- What the query outputs show. -/
def shown (s : OrderBook) : Quotes where
  bidPrice := s.bboBidPrice
  askPrice := s.bboAskPrice
  bidSize := s.bboBidSize
  askSize := s.bboAskSize
  level := fun k side => if side then ⟨s.l2BidPrice k, s.l2BidSize k⟩ else ⟨s.l2AskPrice k, s.l2AskSize k⟩

/-- They show what the symbol asked for had in the cycle before. -/
theorem shown_step {s : OrderBook} (hm : s.book.Mirrored) (x : OrderBookIn) :
    shown (s.step x) = s.book.quotes x.bboQuerySym := by
  have hkeep : shown (s.step x) = shown (s.advance x) := by
    cases hst : s.state with
    | sMatch =>
        simp only [OrderBook.step, hst, OrderBook.stepMatch]
        split_ifs <;> rfl
    | sIdle =>
        simp only [OrderBook.step, hst, OrderBook.stepIdle]
        split_ifs <;> rfl
    | sUpdate =>
        simp only [OrderBook.step, hst, OrderBook.stepUpdate]
        cases s.updateRegs.refWrite <;> rfl
    | sReadRef1 | sReadRef2 | sProcess | sScanBook | sScanBook2 | sScanBook3 | sUpdate2 | sDone =>
        simp only [OrderBook.step, hst]
        rfl
  have hlevel : ∀ k side, s.book.l2Cache k (x.bboQuerySym, side) = s.book.bookMem k (x.bboQuerySym, side) :=
    fun k side => by rw [hm]
  rw [hkeep, shown, Book.quotes]
  congr 1
  funext k side
  cases side
  · exact hlevel k false
  · exact hlevel k true

/-- The parser asks for the symbol zero. -/
theorem shown_trace (n : Nat) : shown (trace i (n + 1)).uOb = (trace i n).uOb.book.quotes 0 := by
  have hmirror : (trace i n).uOb.book.Mirrored := by
    have hreset : OrderBook.reset.book.Mirrored := rfl
    rw [uOb_trace]
    exact run_invariant (P := fun _ (s : OrderBook) => s.book.Mirrored) hreset
      (fun _ h => OrderBook.mirrored_step h) n
  have hsym : (trace i n).obIn.bboQuerySym = 0 := (symIdZero_trace n).parser
  rw [← hsym]
  exact shown_step hmirror _

/-! ## what the message meets -/

section Paced

variable (h : Paced i)

include h

theorem Paced.ready (n : Nat) (hn : (trace i n).uParser.fieldsValid = true) :
    (trace i n).uOb.bookReady = true := by
  have hsparse : Sparse i := fun t n ht hn hlt => h.book t n ht (Bool.and_eq_true_iff.mp hn).1 hlt
  refine (server_book i).ready_of_after fun t hlt hr hq => ?_
  rw [book_eq_oneAtATime (fun k _ hk => ready_of_sparse hsparse k hk) hr]
  exact h.book t n hq hn hlt

/-- With every message the book is that of the messages before. -/
theorem Paced.book_eq {n : Nat} (hn : (trace i n).uParser.fieldsValid = true) :
    (trace i n).uOb.book = Book.zero.execs (pulsed i n) := by
  rw [← oneAtATime_eq]
  exact book_eq_oneAtATime (fun k _ hk => h.ready k (Bool.and_eq_true_iff.mp hk).1) (h.ready n hn)

/-- The hold register and the extractor see this book. -/
theorem Paced.shown {t : Nat} (ht : (trace i t).uParser.fieldsValid = true) :
    shown (trace i (t + 3)).uOb = (Book.zero.execs (pulsed i t)).quotes 0 ∧
    shown (trace i (t + 4)).uOb = (Book.zero.execs (pulsed i t)).quotes 0 := by
  have hidle := (OrderBook.bookReady_iff _).mp (h.ready t ht)
  obtain ⟨h2, h3⟩ := sameQuotes_of_idle hidle
  rw [← h.book_eq ht]
  exact ⟨(shown_trace (t + 2)).trans (quotes_eq h2 0), (shown_trace (t + 3)).trans (quotes_eq h3 0)⟩

/-- The transmitter never overflows. -/
theorem Paced.not_txOverflow (n : Nat) : (trace i n).uOuch.txOverflow = false := by
  have hrun : ∀ n, (trace i n).uOuch = run OuchEngine.step (OuchEngine.start OuchEngine.reset.tmpl)
      (fun k => (trace i k).ouchIn (i k)) n := fun n => run_map (f := LliuTopV2.uOuch) (fun _ => rfl) n
  induction n with
  | zero => rfl
  | succ n ih =>
      rw [hrun] at ih ⊢
      rw [Bool.eq_false_iff]
      intro hset
      obtain ⟨hle, hall⟩ := le_streak.mp ((sets_iff ih).mp hset)
      obtain ⟨k, hk, hready⟩ := h.receiver (n + 1 - 64)
      have hstalled := hall (n + 1 - 64 + k) (by omega) (by omega)
      rw [stalledAt, stalled, ouchIn_mAxisTready, hready, Bool.not_true, Bool.and_false] at hstalled
      cases hstalled

end Paced

/-! ## the desk, one message at a time -/

/-- With the messages parsed before cycle `t` the desk has the book of the messages pulsed, has
seen what the extractor has taken, and holds what is at the outputs. -/
structure DeskTracks (i : Nat → LliuTopV2In) (t : Nat) : Prop where
  book : (Desk.after (setupOf i) (events i t)).book = Book.zero.execs (pulsed i t)
  seen : (Desk.after (setupOf i) (events i t)).seen = FeatureExtractorV2.seenBefore (featIn i) (t + 3)
  last : (Desk.after (setupOf i) (events i t)).last = fieldsBefore i t
  signals : Desk.signals (setupOf i) (events i t) = signals i t

theorem deskTracks_zero : DeskTracks i 0 := ⟨rfl, rfl, rfl, rfl⟩

theorem events_succ (t : Nat) : events i (t + 1) =
    events i t ++ if parsed i t then [(t, fieldsAt i t)] else [] := by
  rw [events, collect_succ, events]
  cases parsed i t <;> rfl

/-- Every message parsed goes to the book of the desk. -/
theorem exec_parsed (b : Book) (t : Nat) (hp : parsed i t = true) : b.exec (bookMsg (fieldsAt i t)) =
    b.execs (if bookPulse i t then [(trace i t).parserMsg] else []) := by
  rw [bookPulse, fieldsValid_eq, hp, Bool.true_and, parserMsg_eq]
  cases hm : isBookMsg (bookMsg (fieldsAt i t)) with
  | false =>
      have hop : bookOp (bookMsg (fieldsAt i t)).msgType = none := by simpa [isBookMsg] using hm
      rw [Bool.and_false, if_neg Bool.false_ne_true, Book.exec, if_pos hop]
      rfl
  | true =>
      have hsupp : ItchParserV2.supported (fieldsAt i t).msgType = true := supported_of_bookOp hm
      rw [hsupp, Bool.and_true, if_pos rfl]
      rfl

theorem pulsed_succ (t : Nat) : pulsed i (t + 1) =
    pulsed i t ++ if bookPulse i t then [(trace i t).parserMsg] else [] := by
  rw [pulsed, bookPulse]
  split <;> simp

theorem execs_append (b : Book) (ms ms' : List BookMsg) : b.execs (ms ++ ms') = (b.execs ms).execs ms' :=
  List.foldl_append

/-- The watchlist is asked for the stock of a supported message. -/
theorem arrives_eq (t : Nat) : arrives i t = (parsed i t &&
    (ItchParserV2.supported (fieldsAt i t).msgType && (setupOf i).watches t (fieldsAt i t).stock)) := by
  have hwatch : (setupOf i).watches t (fieldsAt i t).stock = true ↔
      (trace i t).uParser.stock ∈ (watchlistSet i t).tickers := by
    rw [setupOf, List.any_eq_true]
    simp only [beq_iff_eq]
    exact ⟨fun ⟨k, _, hk⟩ => ⟨k, hk⟩, fun ⟨k, hk⟩ => ⟨k, List.mem_finRange k, hk⟩⟩
  rw [Bool.eq_iff_iff, arrives_iff, fieldsValid_eq, Bool.and_eq_true, Bool.and_eq_true, Bool.and_eq_true,
    hwatch, and_assoc]

/-- The extractor takes the message as the desk sees it. -/
theorem seenAt_eq {t : Nat} {d : Desk} (ht : arrives i t = true) (hlast : d.last = fieldsBefore i t) :
    FeatureExtractorV2.seenAt (featIn i) (t + 3) = d.see t (fieldsAt i t) := by
  obtain ⟨t', heq, hpulse⟩ := fieldsValid_of_featExtFv ht
  obtain rfl : t = t' := by omega
  have hidle : (trace i t).uParser.state ≠ .sEmit := by rw [state_of_fieldsValid hpulse]; decide
  -- the inputs in the cycle after the pulse
  have hkept : fieldsAt i (t + 1) = fieldsAt i t := fields_step hidle _
  have hprod : (FeatureExtractorV2.taken (featIn i) (t + 3)).msgPxvol.toNat =
      (d.last.price.toNat % 2 ^ 27) * (d.last.shares.toNat % 2 ^ 18) := by
    rw [FeatureExtractorV2.toNat_msgPxvol_taken, hlast]
    cases t with
    | zero => cases hpulse
    | succ t => rfl
  rw [FeatureExtractorV2.seenAt, hprod, Desk.see, ← hkept]
  rfl

/-- The vector that the cores get is that of the desk. -/
theorem vector_eq (h : Paced i) {t : Nat} {d : Desk} (ht : arrives i t = true)
    (hbook : d.book = Book.zero.execs (pulsed i t))
    (hseen : d.seen = FeatureExtractorV2.seenBefore (featIn i) (t + 3))
    (hlast : d.last = fieldsBefore i t) (k : Fin 32) :
    (trace i (t + 10)).uFeatExt.features k = Desk.toBf16 (d.features t (fieldsAt i t) k) := by
  obtain ⟨t', heq, hpulse⟩ := fieldsValid_of_featExtFv ht
  obtain rfl : t = t' := by omega
  have hsym : ∀ n, (featIn i n).symId = 0 := fun n => (symIdZero_trace n).d3
  have hquotes : FeatureExtractorV2.quotesAt (featIn i) (t + 3) = d.book.quotes 0 := by
    rw [hbook, ← (h.shown hpulse).2]
    rfl
  rw [uFeatExt_trace, show t + 10 = t + 3 + 7 by omega, FeatureExtractorV2.features_eq hsym ht, hquotes,
    seenAt_eq ht hlast, ← hseen, Desk.features]

theorem coreSharesAr_trace (n : Nat) : (trace i n).axil.coreSharesAr = (settings i n).coreShares :=
  congrArg ControlRegs.coreShares (controlRegs_trace n)

/-- And the signal as well. -/
theorem signalAt_eq (h : Paced i) {t : Nat} {d : Desk} (ht : arrives i t = true)
    (hbook : d.book = Book.zero.execs (pulsed i t))
    (hseen : d.seen = FeatureExtractorV2.seenBefore (featIn i) (t + 3))
    (hlast : d.last = fieldsBefore i t) :
    signalAt i t = Desk.signal (setupOf i) d t (fieldsAt i t) := by
  obtain ⟨t', heq, hpulse⟩ := fieldsValid_of_featExtFv ht
  obtain rfl : t = t' := by omega
  have hscores : scoreAt i (t + 3) = Desk.score (setupOf i) t (d.features t (fieldsAt i t)) := by
    funext k
    have hpairs : ((List.range 32).map fun j =>
          ((trace i (t + 10)).uFeatExt.features j, weightSet i (t + 11 + j) k (BitVec.ofNat 5 j))) =
        (List.finRange 32).map fun j : Fin 32 =>
          (Desk.toBf16 (d.features t (fieldsAt i t) j), (setupOf i).weight t k j.val) := by
      rw [← List.map_coe_finRange_eq_range, List.map_map]
      exact List.map_congr_left fun j _ => congrArg₂ Prod.mk (vector_eq h ht hbook hseen hlast j) rfl
    rw [scoreAt_eq, scoreSet, hpairs, Desk.score]
  have hmid : (trace i (t + 3)).midPrice = (d.book.quotes 0).refPrice := by
    rw [hbook, ← (h.shown hpulse).1]
    rfl
  have hsym : (msgFields i t).symId = 0 := (symIdZero_trace t).parser
  have hside : (msgFields i t).side = (fieldsAt i t).side := rfl
  have hprice : (msgFields i t).price = (fieldsAt i t).price := rfl
  have hthresh : (trace i (t + 73)).axil.scoreThreshR = (setupOf i).scoreThresh t := by
    rw [scoreThreshR_trace, setupOf]
  have hshares : (trace i (t + 76)).axil.coreSharesAr = (setupOf i).shares t := by
    rw [coreSharesAr_trace, setupOf]
  have hband : (trace i (t + 76)).axil.bandBpsR = (setupOf i).bandBps t := by
    rw [bandBpsR_trace, setupOf]
  have hqty : (trace i (t + 76)).axil.maxQtyR = (setupOf i).maxQty t := by
    rw [maxQtyR_trace, setupOf]
  have hkill : (trace i (t + 76)).axil.killSwR = (setupOf i).halted t := by
    rw [killSwR_settings, setupOf]
  rw [signalAt, hscores, hmid, hsym, hside, hprice, hthresh, hshares, hband, hqty, hkill,
    h.not_txOverflow, Bool.or_false, Desk.signal]

/-- **Step lemma**: a cycle in which a message is parsed is a step of the desk. -/
theorem DeskTracks.succ (h : Paced i) {t : Nat} (ih : DeskTracks i t) : DeskTracks i (t + 1) := by
  have hbook : ((Desk.after (setupOf i) (events i t)).book).execs
      (if bookPulse i t then [(trace i t).parserMsg] else []) = Book.zero.execs (pulsed i (t + 1)) := by
    rw [pulsed_succ, execs_append, ih.book]
  have hseen : FeatureExtractorV2.seenBefore (featIn i) (t + 1 + 3) =
      (if arrives i t then [FeatureExtractorV2.seenAt (featIn i) (t + 3)] else []) ++
        FeatureExtractorV2.seenBefore (featIn i) (t + 3) := by
    have hv : (featIn i (t + 3)).fieldsValid = arrives i t := rfl
    rw [show t + 1 + 3 = t + 3 + 1 by omega, FeatureExtractorV2.seenBefore, FeatureExtractorV2.pulses, hv]
    cases arrives i t <;> rfl
  cases hp : parsed i t with
  | false =>
      have hsame : events i (t + 1) = events i t := by
        rw [events_succ, hp, if_neg Bool.false_ne_true, List.append_nil]
      have hquiet : arrives i t = false := by rw [arrives_eq, hp, Bool.false_and]
      have hpulse : bookPulse i t = false := by rw [bookPulse, fieldsValid_eq, hp]; rfl
      rw [hquiet] at hseen
      rw [hpulse] at hbook
      constructor
      · rw [hsame]
        exact hbook
      · rw [hsame, hseen]
        exact ih.seen
      · rw [hsame]
        exact ih.last.trans (fieldsAt_of_not_parsed hp).symm
      · rw [hsame, signals_succ, hquiet, if_neg Bool.false_ne_true, List.append_nil]
        exact ih.signals
  | true =>
      have hgrow : events i (t + 1) = events i t ++ [(t, fieldsAt i t)] := by
        rw [events_succ, hp, if_pos rfl]
      have harrive := arrives_eq (i := i) t
      rw [hp, Bool.true_and] at harrive
      have htake : (Desk.take (setupOf i) (Desk.after (setupOf i) (events i t)) (t, fieldsAt i t)).1.seen =
            FeatureExtractorV2.seenBefore (featIn i) (t + 1 + 3) ∧
          (Desk.take (setupOf i) (Desk.after (setupOf i) (events i t)) (t, fieldsAt i t)).2 =
            if arrives i t then [signalAt i t] else [] := by
        rw [hseen]
        cases ha : arrives i t with
        | false =>
            obtain ⟨hs, hq⟩ := Desk.take_of_not_watched (d := Desk.after (setupOf i) (events i t))
              (harrive.symm.trans ha)
            exact ⟨hs.trans ih.seen, hq⟩
        | true =>
            obtain ⟨hs, hq⟩ := Desk.take_of_watched (d := Desk.after (setupOf i) (events i t))
              (harrive.symm.trans ha)
            rw [hs, hq, signalAt_eq h ha ih.book ih.seen ih.last, seenAt_eq ha ih.last, ih.seen]
            exact ⟨rfl, rfl⟩
      constructor
      · rw [hgrow, Desk.after_concat, Desk.book_take, exec_parsed _ t hp, hbook]
      · rw [hgrow, Desk.after_concat, htake.1]
      · rw [hgrow, Desk.after_concat, Desk.last_take]
        rfl
      · rw [hgrow, Desk.signals_concat, htake.2, ih.signals, signals_succ]

theorem deskTracks (h : Paced i) (t : Nat) : DeskTracks i t := by
  induction t with
  | zero => exact deskTracks_zero
  | succ t ih => exact ih.succ h

/-- **The top level computes the desk**: in a run without collisions in which every message finds
the order book ready, the positions and the orders, 82 cycles behind the parser, are those
that trader and desk make of the messages parsed, one at a time; and what has been sent and is
still to be sent are the packets of these orders. -/
theorem orders_of_messages (i : Nat → LliuTopV2In) (h : Calm i) (hp : Paced i) (t : Nat) :
    (∀ sym, (position i (t + 82) sym).toInt =
      Trader.positions (Desk.signals (setupOf i) (events i t)) sym) ∧
    (accepted i (t + 82)).map Prod.fst =
      (Trader.orders (Desk.signals (setupOf i) (events i t))).map Order.latched ∧
    transferred i (t + 82) ++ (trace i (t + 82)).uOuch.due =
      (packets 0 (accepted i (t + 82))).flatten := by
  have htracks := h.tracks t
  rw [(deskTracks hp t).signals]
  exact ⟨htracks.positions, by rw [map_accepted, htracks.orders], transferred_accepted _⟩

/-- The messages come 16 cycles apart or more, and the first two take nine. -/
theorem paced_spacedOrders : Paced spacedOrders where
  book t n ht hn hlt := by
    have hserved : serviceAt spacedOrders 6 = 9 ∧ serviceAt spacedOrders 22 = 9 := by decide +kernel
    obtain ⟨hfirst, hsecond⟩ := hserved
    have hbound : serviceAt spacedOrders t ≤ 26 := (Book.service_bounds _ _).2
    rcases fieldsValid_spacedOrders (Bool.and_eq_true_iff.mp ht).1 with rfl | rfl | rfl | rfl <;>
      rcases fieldsValid_spacedOrders hn with rfl | rfl | rfl | rfl <;> omega
  receiver _ := ⟨0, by decide, rfl⟩

/-- Two orders come of the four messages. -/
theorem spacedOrders_computed :
    Trader.orders (Desk.signals (setupOf spacedOrders) (events spacedOrders 137)) =
      [⟨true, 990, 0, 100⟩, ⟨true, 1005, 0, 100⟩] ∧
    (∀ sym, (position spacedOrders (137 + 82) sym).toInt =
      Trader.positions (Desk.signals (setupOf spacedOrders) (events spacedOrders 137)) sym) ∧
    (accepted spacedOrders (137 + 82)).map Prod.fst =
      (Trader.orders (Desk.signals (setupOf spacedOrders) (events spacedOrders 137))).map Order.latched ∧
    transferred spacedOrders (137 + 82) ++ (trace spacedOrders (137 + 82)).uOuch.due =
      (packets 0 (accepted spacedOrders (137 + 82))).flatten :=
  ⟨by decide +kernel, orders_of_messages spacedOrders calm_spacedOrders paced_spacedOrders 137⟩

end LliuTopV2

end Lliu
