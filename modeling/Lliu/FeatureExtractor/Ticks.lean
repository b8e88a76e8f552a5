import Lliu.FeatureExtractor
import Lliu.FeatureExtractorV2.Vector

/-!
# Lliu.FeatureExtractor.Ticks

The four features of the first version as integers, of a message and of the messages since
reset.  They are the first four of the 32 of the second version, and the outputs of the two
extractors for a message are the same, four cycles apart (`features_agree`).
-/

namespace Lliu

open Hdl

/-- A message as the first version sees it. -/
structure Tick where
  price : BitVec 32
  side : Bool
  deriving DecidableEq, Repr

namespace Tick

/-- Buys less sells. -/
def netBuys (old : List Tick) : Int := (old.map fun x => if x.side then 1 else -1).sum

/-- The price of the newest message, zero if there is none. -/
def lastPrice (old : List Tick) : Nat := old.head?.elim 0 fun x => x.price.toNat

/-- The features of message `x` after the messages `old`, the newest first. -/
def feature (old : List Tick) (x : Tick) (k : Fin featureVecLen) : Int :=
  match k with
  | 0 => (x.price.toNat - lastPrice old : Int).bmod (2 ^ 32)
  | 1 => if x.side then 1 else -1
  | 2 => (netBuys old).bmod (2 ^ 16) + if x.side then 1 else -1
  | 3 => (x.price.toNat % 2 ^ 31 : Nat)

/-- A message of the second version. -/
def ofSeen (x : Seen) : Tick := ⟨x.price, x.side⟩

/-- The second version has the same four, whatever the book shows. -/
theorem feature_ofSeen (q : Quotes) (old : List Seen) (x : Seen) (k : Fin featureVecLen) :
    Desk.feature q old x (k.castLE (by decide : featureVecLen ≤ 32)) = feature (old.map ofSeen) (ofSeen x) k := by
  have hnet : Desk.netBuys old = netBuys (old.map ofSeen) := by
    rw [Desk.netBuys, netBuys, List.map_map]
    rfl
  have hlast : Desk.lastPrice old = lastPrice (old.map ofSeen) := by cases old <;> rfl
  fin_cases k
  · change (x.price.toNat - Desk.lastPrice old : Int).bmod (2 ^ 32) = _
    rw [hlast]
    rfl
  · rfl
  · change (Desk.netBuys old).bmod (2 ^ 16) + (if x.side then 1 else -1) = _
    rw [hnet]
    rfl
  · rfl

end Tick

/-- A magnitude and its sign give the bfloat16 of their number. -/
theorem toBf16_of_converts {x : SignMag} {e : Int} (h : FeatureExtractorV2.Converts x e)
    (hz : x.zero = (x.mag == 0)) : x.toBf16 = Desk.toBf16 e := by
  have hmark : x.zero = true ∨ x.mag ≠ 0 := by
    by_cases hm : x.mag = 0
    · exact .inl (by rw [hz, hm]; rfl)
    · exact .inr hm
  rw [← FeatureExtractorV2.norm_bf16_of_converts h hz, norm_bf16 hmark, SignMag.toBf16]

namespace FeatureExtractor

/-- What is kept of the messages `old`. -/
structure Remembers (s : FeatureExtractor) (old : List Tick) : Prop where
  lastPrice : s.lastPrice.toNat = Tick.lastPrice old
  orderFlow : s.orderFlow = BitVec.ofInt 16 (Tick.netBuys old)

theorem remembers_reset : Remembers reset [] := ⟨rfl, rfl⟩

/-- The messages after a clock edge. -/
def next (old : List Tick) (i : FeatureExtractorIn) : List Tick :=
  if i.fieldsValid then ⟨i.price, i.side⟩ :: old else old

/-- **Step lemma**. -/
theorem Remembers.step {s : FeatureExtractor} {old : List Tick} (h : Remembers s old)
    (i : FeatureExtractorIn) : Remembers (s.step i) (next old i) := by
  rw [next]
  cases hv : i.fieldsValid with
  | false =>
      refine ⟨?_, ?_⟩
      · rw [FeatureExtractor.step, hv]
        exact h.lastPrice
      · rw [FeatureExtractor.step, hv]
        exact h.orderFlow
  | true =>
      refine ⟨?_, ?_⟩
      · rw [FeatureExtractor.step, hv]
        rfl
      · have hnet : Tick.netBuys (⟨i.price, i.side⟩ :: old) =
            Tick.netBuys old + if i.side then 1 else -1 := by
          rw [Tick.netBuys, List.map_cons, List.sum_cons, Int.add_comm]
          rfl
        have hflow : (s.step i).orderFlow = if i.side then s.orderFlow + 1 else s.orderFlow - 1 :=
          if_pos hv
        rw [if_pos rfl, hnet, BitVec.ofInt_add, ← h.orderFlow, hflow]
        cases i.side with
        | true => rfl
        | false => exact BitVec.sub_eq_add_neg _ _

/-- The vector of the next message. -/
theorem Remembers.vector {s : FeatureExtractor} {old : List Tick} (h : Remembers s old)
    (i : FeatureExtractorIn) (k : Fin featureVecLen) :
    s.vector i k = Desk.toBf16 (Tick.feature old ⟨i.price, i.side⟩ k) := by
  rw [FeatureExtractor.vector]
  match k with
  | 0 =>
      refine toBf16_of_converts ?_ (FeatureExtractorV2.zero_signed _)
      have hword : (FeatInts.of s.lastPrice s.orderFlow i.price i.side).priceDelta =
          i.price - s.lastPrice := FeatureExtractorV2.setWidth_sub _ _
      change FeatureExtractorV2.Converts (.signed _) _
      rw [FeatureExtractorV2.converts_signed, hword, BitVec.toInt_sub, BitVec.toInt_eq_toNat_bmod,
        BitVec.toInt_eq_toNat_bmod, Int.bmod_sub_bmod, Int.sub_bmod_bmod, h.lastPrice]
      rfl
  | 1 =>
      change SignMag.toBf16 { SignMag.signed (if i.side then 1 else -1) with zero := false } =
        Desk.toBf16 (if i.side then 1 else -1)
      cases i.side <;> decide
  | 2 =>
      refine toBf16_of_converts ?_ (FeatureExtractorV2.zero_signed _)
      change FeatureExtractorV2.Converts (.signed (if i.side then s.orderFlow.signExtend 32 + 1
        else s.orderFlow.signExtend 32 - 1)) _
      rw [FeatureExtractorV2.converts_signed, h.orderFlow]
      exact FeatureExtractorV2.toInt_flow _ _
  | 3 =>
      refine toBf16_of_converts ?_ rfl
      change FeatureExtractorV2.Converts (.unsigned ((i.price.setWidth 31).setWidth 32))
        ((i.price.toNat % 2 ^ 31 : Nat) : Int)
      rw [FeatureExtractorV2.converts_unsigned, BitVec.toNat_setWidth_of_le (by decide),
        BitVec.toNat_setWidth]

/-! ## both versions -/

/-- The state in cycle `n` of a run from reset. -/
def trace (i : Nat → FeatureExtractorIn) (n : Nat) : FeatureExtractor := run step reset i n

/-- What the first version sees of the inputs of the second. -/
def ofV2 (i : FeatureExtractorV2In) : FeatureExtractorIn where
  price := i.price
  side := i.side
  fieldsValid := i.fieldsValid

section Agreement

variable {i : Nat → FeatureExtractorV2In}

/-- The first version remembers what the second has seen. -/
theorem remembers_trace (hheld : FeatureExtractorV2.Held i) (n : Nat) :
    Remembers (trace (fun k => ofV2 (i k)) n) ((FeatureExtractorV2.seenBefore i n).map Tick.ofSeen) := by
  induction n with
  | zero => exact remembers_reset
  | succ n ih =>
      have hstep := ih.step (ofV2 (i n))
      rw [next] at hstep
      rw [FeatureExtractorV2.seenBefore, FeatureExtractorV2.pulses]
      cases hv : (i n).fieldsValid with
      | false =>
          rw [show (ofV2 (i n)).fieldsValid = false from hv] at hstep
          exact hstep
      | true =>
          rw [show (ofV2 (i n)).fieldsValid = true from hv] at hstep
          obtain ⟨hprice, -, hside, -⟩ := hheld n hv
          have hseen : Tick.ofSeen (FeatureExtractorV2.seenAt i n) = ⟨(i n).price, (i n).side⟩ := by
            rw [← hprice, ← hside]
            rfl
          rw [if_pos rfl, List.map_cons, List.map_cons, hseen]
          exact hstep

/-- **Agreement**: with one symbol index for all and inputs that are held for a cycle after each
pulse, the outputs for a message are the first four of the second version, four cycles later. -/
theorem features_agree (hheld : FeatureExtractorV2.Held i) {sym : SymId} (hsym : ∀ n, (i n).symId = sym)
    {t : Nat} (hv : (i t).fieldsValid = true) (k : Fin featureVecLen) :
    (trace (fun n => ofV2 (i n)) (t + 3)).features k =
      (FeatureExtractorV2.trace i (t + 7)).features (k.castLE (by decide : featureVecLen ≤ 32)) ∧
    (trace (fun n => ofV2 (i n)) (t + 3)).featuresValid = true ∧
    (FeatureExtractorV2.trace i (t + 7)).featuresValid = true := by
  obtain ⟨hfeat, hvalid⟩ := features_of_fieldsValid (s := trace (fun n => ofV2 (i n)) t) (i := ofV2 (i t)) hv
    (ofV2 (i (t + 1))) (ofV2 (i (t + 2)))
  obtain ⟨hprice, -, hside, -⟩ := hheld t hv
  have hseen : Tick.ofSeen (FeatureExtractorV2.seenAt i t) = ⟨(i t).price, (i t).side⟩ := by
    rw [← hprice, ← hside]
    rfl
  refine ⟨?_, hvalid, ?_⟩
  · rw [FeatureExtractorV2.features_eq hsym hv, Tick.feature_ofSeen, hseen]
    exact (congrFun hfeat k).trans ((remembers_trace hheld t).vector (ofV2 (i t)) k)
  · exact hv

end Agreement

/-- The price of a single message, 1000, comes out of both. -/
theorem oneMessage_agrees :
    (trace (fun n => ofV2 (FeatureExtractorV2.oneMessage 0 0 n)) 4).features 3 = 0x447A ∧
    (trace (fun n => ofV2 (FeatureExtractorV2.oneMessage 0 0 n)) 4).features 3 =
      (FeatureExtractorV2.trace (FeatureExtractorV2.oneMessage 0 0) 8).features 3 ∧
    (trace (fun n => ofV2 (FeatureExtractorV2.oneMessage 0 0 n)) 4).featuresValid = true ∧
    (FeatureExtractorV2.trace (FeatureExtractorV2.oneMessage 0 0) 8).featuresValid = true :=
  ⟨by decide +kernel, features_agree (FeatureExtractorV2.held_oneMessage 0 0) (fun _ => rfl) (t := 1) rfl 3⟩

end FeatureExtractor

end Lliu
