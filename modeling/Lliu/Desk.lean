import Lliu.DotProductEngine.Result
import Lliu.Hdl.Window
import Lliu.ItchParserV2.Messages
import Lliu.MagToBf16
import Lliu.OrderBook.Exec
import Lliu.Trader

/-!
# Lliu.Desk

What the trading path computes from the messages, without pipeline.  A desk keeps the order
book, the watched messages it has seen and the message before.  For a watched message it
makes 32 numbers of these (`Desk.feature`), scores their bfloat16 values with the weights of
each core, and hands the signal to the trader of `Lliu.Trader`.

The numbers are integers with the widths of the hardware as remainders.  The stocks are not
told apart: the parser gives all of them the symbol index zero.
-/

namespace Lliu

open Hdl ItchParserV2

/-! ## what a message is seen with -/

/-- A watched message. -/
structure Seen where
  /-- The cycle in which the extractor stamps it. -/
  stamp : Nat
  side : Bool
  price : BitVec 32
  shares : BitVec 24
  /-- The product that counts for the volume-weighted price. -/
  pxVol : Nat
  deriving DecidableEq, Repr

/-- The shares of a buy. -/
def Seen.bought (x : Seen) : Nat := if x.side then x.shares.toNat else 0

/-- The shares of a sell. -/
def Seen.sold (x : Seen) : Nat := if x.side then 0 else x.shares.toNat

/-- What the book shows of a symbol. -/
@[ext]
structure Quotes where
  bidPrice : BitVec 32
  askPrice : BitVec 32
  bidSize : BitVec 24
  askSize : BitVec 24
  level : Fin obLevels → Bool → Level

def Book.quotes (b : Book) (sym : SymId) : Quotes where
  bidPrice := b.bboBidPriceR sym
  askPrice := b.bboAskPriceR sym
  bidSize := b.bboBidSizeR sym
  askSize := b.bboAskSizeR sym
  level := fun k side => b.bookMem k (sym, side)

/-- `ref_price`: the middle of the best prices. -/
def Quotes.refPrice (q : Quotes) : BitVec 32 := (q.bidPrice >>> 1) + (q.askPrice >>> 1)

/-- A message as the order book gets it. -/
def bookMsg (m : Fields) : BookMsg where
  msgType := m.msgType
  orderRef := m.orderRef
  newOrderRef := m.newOrderRef
  price := m.price
  shares := m.shares
  side := m.side
  symId := 0

namespace Desk

/-! ## the features -/

/-- Buys less sells. -/
def netBuys (old : List Seen) : Int := (old.map fun x => if x.side then 1 else -1).sum

/-- The price of the newest message, zero if there is none. -/
def lastPrice (old : List Seen) : Nat := old.head?.elim 0 fun x => x.price.toNat

/-- The shares of the last eight messages. -/
def volume (xs : List Seen) : Nat := windowSum 8 (xs.map fun x => x.shares.toNat)

/-- Their products, divided by the power of two in the volume. -/
def quotient (xs : List Seen) : Nat := windowSum 8 (xs.map Seen.pxVol) / 2 ^ (volume xs).log2 % 2 ^ 32

/-- Feature 30.  A quotient of zero comes out as `2 ^ 31`. -/
def weightedPrice (xs : List Seen) : Nat :=
  if volume xs = 0 then 0 else if quotient xs = 0 then 2 ^ 31 else quotient xs

/-- Feature 31: the cycles since the eighth message before, or since reset. -/
def eightAgo (old : List Seen) (x : Seen) : Nat :=
  (old[7]?.elim x.stamp fun y => x.stamp - y.stamp) % 2 ^ 16

/-- Features 0 to 11. -/
def intFeature (q : Quotes) (old : List Seen) (x : Seen) (k : Fin 12) : Int :=
  match k with
  | 0 => (x.price.toNat - lastPrice old : Int).bmod (2 ^ 32)
  | 1 => if x.side then 1 else -1
  | 2 => (netBuys old).bmod (2 ^ 16) + if x.side then 1 else -1
  | 3 => (x.price.toNat % 2 ^ 31 : Nat)
  | 4 => q.bidPrice.toNat
  | 5 => q.askPrice.toNat
  | 6 => q.bidSize.toNat
  | 7 => q.askSize.toNat
  | 8 => max (q.askPrice.toNat - q.bidPrice.toNat : Int) 0
  | 9 => ((q.bidPrice.toNat + q.askPrice.toNat) % 2 ^ 32 / 2 : Nat)
  | 10 => x.shares.toNat - q.bidSize.toNat
  | 11 => x.shares.toNat - q.askSize.toNat

/-- The features of message `x` after the messages `old`, the newest first. -/
def feature (q : Quotes) (old : List Seen) (x : Seen) (k : Fin 32) : Int :=
  if h : k.val < 12 then intFeature q old x ⟨k.val, h⟩
  else if k.val < 16 then (q.level (Fin.ofNat 4 k.val) true).price.toNat
  else if k.val < 20 then (q.level (Fin.ofNat 4 k.val) false).price.toNat
  else if k.val < 24 then (q.level (Fin.ofNat 4 k.val) true).shares.toNat
  else if k.val < 28 then (q.level (Fin.ofNat 4 k.val) false).shares.toNat
  else if k.val = 28 then windowSum 8 ((x :: old).map Seen.bought)
  else if k.val = 29 then windowSum 8 ((x :: old).map Seen.sold)
  else if k.val = 30 then weightedPrice (x :: old)
  else eightAgo old x

/-- An integer of 32 bits and a sign in bfloat16, truncated to eight significant bits. -/
def toBf16 (e : Int) : Bfloat16T := magToBf16 (e == 0) (decide (e < 0)) (BitVec.ofNat 32 e.natAbs)

end Desk

/-! ## the desk -/

/-- How a desk is set up for the message of each cycle. -/
structure Setup where
  watches : Nat → BitVec 64 → Bool
  /-- The weights of the cores. -/
  weight : Nat → Fin numCores → Nat → Bfloat16T
  scoreThresh : Nat → Float32T
  shares : Nat → Fin numCores → BitVec 24
  bandBps : Nat → BitVec 32
  maxQty : Nat → BitVec 32
  halted : Nat → Bool

/-- What a desk knows. -/
structure Desk where
  book : Book
  /-- The watched messages, the newest first. -/
  seen : List Seen
  /-- The message before. -/
  last : Fields

namespace Desk

/-- Before the first message. -/
def start : Desk := ⟨Book.zero, [], ⟨0, 0, 0, 0, 0, false, 0⟩⟩

/-- Message `m` of cycle `t` as it is seen.  The product that comes with it is that of the message
before, cut to 27 and 18 bits. -/
def see (d : Desk) (t : Nat) (m : Fields) : Seen where
  stamp := t + 5
  side := m.side
  price := m.price
  shares := m.shares.setWidth 24
  pxVol := (d.last.price.toNat % 2 ^ 27) * (d.last.shares.toNat % 2 ^ 18)

/-- The features of message `m` of cycle `t`. -/
def features (d : Desk) (t : Nat) (m : Fields) : Fin 32 → Int :=
  feature (d.book.quotes 0) d.seen (d.see t m)

/-- The score of the features `v` with the weights of core `k`. -/
def score (P : Setup) (t : Nat) (v : Fin 32 → Int) (k : Fin numCores) : Float32T :=
  DotProductEngine.mergeOver (DotProductEngine.retainedAccs 32)
    ((List.finRange 32).map fun j => (toBf16 (v j), P.weight t k j.val))

/-- The signal of message `m` of cycle `t`. -/
def signal (P : Setup) (d : Desk) (t : Nat) (m : Fields) : Signal where
  side := m.side
  price := m.price
  symId := 0
  refPrice := (d.book.quotes 0).refPrice
  scores := score P t (d.features t m)
  scoreThresh := P.scoreThresh t
  shares := P.shares t
  bandBps := P.bandBps t
  maxQty := P.maxQty t
  halted := P.halted t

/-- The desk takes a message with its cycle. -/
def take (P : Setup) (d : Desk) (e : Nat × Fields) : Desk × List Signal :=
  let d' := { d with book := d.book.exec (bookMsg e.2), last := e.2 }
  if supported e.2.msgType && P.watches e.1 e.2.stock then
    ({ d' with seen := d.see e.1 e.2 :: d.seen }, [signal P d e.1 e.2])
  else (d', [])

/-- The desk after the messages `es`. -/
def after (P : Setup) (es : List (Nat × Fields)) : Desk := (feed (take P) start es).1

/-- The signals of the messages `es`. -/
def signals (P : Setup) (es : List (Nat × Fields)) : List Signal := (feed (take P) start es).2

/-! ## one more message -/

section Concat

variable {P : Setup} {es : List (Nat × Fields)} {t : Nat} {m : Fields}

theorem after_concat (e : Nat × Fields) : after P (es ++ [e]) = (take P (after P es) e).1 := by
  rw [after, feed_concat, after]

theorem signals_concat (e : Nat × Fields) :
    signals P (es ++ [e]) = signals P es ++ (take P (after P es) e).2 := by
  rw [signals, feed_concat, signals, after]

/-- Every message goes to the book. -/
theorem book_take (d : Desk) (e : Nat × Fields) : (take P d e).1.book = d.book.exec (bookMsg e.2) := by
  rw [take]
  split <;> rfl

/-- Every message is the one before the next. -/
theorem last_take (d : Desk) (e : Nat × Fields) : (take P d e).1.last = e.2 := by
  rw [take]
  split <;> rfl

theorem take_of_watched {d : Desk} (h : (supported m.msgType && P.watches t m.stock) = true) :
    (take P d (t, m)).1.seen = d.see t m :: d.seen ∧ (take P d (t, m)).2 = [signal P d t m] := by
  rw [take, if_pos h]
  exact ⟨rfl, rfl⟩

theorem take_of_not_watched {d : Desk} (h : (supported m.msgType && P.watches t m.stock) = false) :
    (take P d (t, m)).1.seen = d.seen ∧ (take P d (t, m)).2 = [] := by
  rw [take, h, if_neg Bool.false_ne_true]
  exact ⟨rfl, rfl⟩

end Concat

end Desk

end Lliu
