import Lliu.FeatureExtractorV2
import Lliu.Hdl.Run
import Lliu.Hdl.Window

/-!
# Lliu.FeatureExtractorV2.History

What the feature extractor remembers of a run.  The message whose `fields_valid` is high
in cycle `t` is taken by stage 1 at the end of cycle `t + 2`, with the inputs of cycle
`t + 1` and the product of those of cycle `t - 1`.  After any messages the windows hold
the last eight of them, the sums are exact, and the counter and the last prices are
those of all messages (`Remembers`).
-/

namespace Lliu

open Hdl

/-! ## what is remembered -/

/-- Buys less sells. -/
def netBuys : List FeatStage05 → Int
  | [] => 0
  | r :: ms => netBuys ms + if r.sideS05 then 1 else -1

/-- The price of the last message of a symbol, zero if there was none. -/
def lastPrice (sym : SymId) : List FeatStage05 → BitVec 32
  | [] => 0
  | r :: ms => if r.symIdS05 = sym then r.priceS05 else lastPrice sym ms

/-- The history `h` is that of the messages `ms`, the newest first. -/
structure Remembers (h : FeatHistory) (ms : List FeatStage05) : Prop where
  lastPriceLut : ∀ sym, h.lastPriceLut sym = lastPrice sym ms
  orderFlowCnt : h.orderFlowCnt = BitVec.ofInt 16 (netBuys ms)
  buyVolWin : ∀ k, (h.buyVolWin k).toNat = (ms.map fun r => r.buyVol.toNat).getD k.val 0
  sellVolWin : ∀ k, (h.sellVolWin k).toNat = (ms.map fun r => r.sellVol.toNat).getD k.val 0
  pxVolWin : ∀ k, (h.pxVolWin k).toNat = (ms.map fun r => r.msgPxvol.toNat).getD k.val 0
  buyVolSum : h.buyVolSum.toNat = windowSum 8 (ms.map fun r => r.buyVol.toNat)
  sellVolSum : h.sellVolSum.toNat = windowSum 8 (ms.map fun r => r.sellVol.toNat)
  pxVolSum : h.pxVolSum.toNat = windowSum 8 (ms.map fun r => r.msgPxvol.toNat)

theorem remembers_reset : Remembers FeatureExtractorV2.reset.hist [] := by
  constructor <;> simp [FeatureExtractorV2.reset, lastPrice, netBuys]

/-- A window with a new entry. -/
theorem shiftWin_getD {win : Fin 8 → BitVec v} {xs : List Nat}
    (h : ∀ k, (win k).toNat = xs.getD k.val 0) (x : BitVec v) (k : Fin 8) :
    (shiftWin win x k).toNat = (x.toNat :: xs).getD k.val 0 := by
  unfold shiftWin
  obtain ⟨k, hk⟩ := k
  cases k with
  | zero => simp
  | succ k => simpa using h ⟨k, by omega⟩

/-- A sum of eight entries of `v` bits has room in `v + 3`. -/
theorem rolling_push {v : Nat} {win : Fin 8 → BitVec v} {sum : BitVec (v + 3)} {ms : List FeatStage05}
    (vol : FeatStage05 → BitVec v)
    (hwin : ∀ k, (win k).toNat = (ms.map fun r => (vol r).toNat).getD k.val 0)
    (hsum : sum.toNat = windowSum 8 (ms.map fun r => (vol r).toNat)) (r : FeatStage05) :
    (sum + (vol r).setWidth (v + 3) - (win 7).setWidth (v + 3)).toNat =
      windowSum 8 ((r :: ms).map fun r => (vol r).toNat) := by
  have hwide : ∀ x : BitVec v, (x.setWidth (v + 3)).toNat = x.toNat := fun x =>
    BitVec.toNat_setWidth_of_le (by omega)
  have hbound : windowSum 8 ((r :: ms).map fun r => (vol r).toNat) ≤ 8 * (2 ^ v - 1) := by
    refine windowSum_le (fun x hx => ?_) 8
    obtain ⟨r', -, rfl⟩ := List.mem_map.mp hx
    exact Nat.le_sub_one_of_lt (vol r').isLt
  have hroll := rolling_sum (x := (vol r).setWidth (v + 3)) (d := 7) hsum
    (by rw [hwide]; exact hwin 7)
  rw [hwide] at hroll
  refine hroll (lt_of_le_of_lt hbound ?_)
  have hpos := Nat.two_pow_pos v
  rw [Nat.pow_add]
  omega

/-- **Step lemma**: the history after a message. -/
theorem Remembers.push {h : FeatHistory} {ms : List FeatStage05} (hr : Remembers h ms)
    (r : FeatStage05) (localCnt : BitVec 16) : Remembers (h.push r localCnt) (r :: ms) where
  lastPriceLut sym := by
    have hlut := hr.lastPriceLut sym
    by_cases hsym : r.symIdS05 = sym
    · simp [FeatHistory.push, lastPrice, hsym]
    · simpa [FeatHistory.push, lastPrice, hsym, Function.update_of_ne (Ne.symm hsym)] using hlut
  orderFlowCnt := by
    have hsell : BitVec.ofInt 16 (-1) = -1#16 := by decide
    rw [FeatHistory.push, hr.orderFlowCnt, netBuys, BitVec.ofInt_add]
    cases r.sideS05 with
    | true => rfl
    | false => exact (BitVec.sub_eq_add_neg _ _).trans (congrArg _ hsell.symm)
  buyVolWin := shiftWin_getD hr.buyVolWin r.buyVol
  sellVolWin := shiftWin_getD hr.sellVolWin r.sellVol
  pxVolWin := shiftWin_getD hr.pxVolWin r.msgPxvol
  buyVolSum := rolling_push FeatStage05.buyVol hr.buyVolWin hr.buyVolSum r
  sellVolSum := rolling_push FeatStage05.sellVol hr.sellVolWin hr.sellVolSum r
  pxVolSum := rolling_push FeatStage05.msgPxvol hr.pxVolWin hr.pxVolSum r

/-- A message is a buy or a sell. -/
theorem buyVol_add_sellVol (r : FeatStage05) :
    r.buyVol.toNat + r.sellVol.toNat = r.sharesS05.toNat := by
  unfold FeatStage05.buyVol FeatStage05.sellVol
  cases r.sideS05 <;> simp

/-- Buys and sells together have room in the width of either sum. -/
theorem Remembers.toNat_volSum {h : FeatHistory} {ms : List FeatStage05} (hr : Remembers h ms) :
    (h.buyVolSum + h.sellVolSum).toNat = h.buyVolSum.toNat + h.sellVolSum.toNat ∧
      (h.buyVolSum + h.sellVolSum).toNat = windowSum 8 (ms.map fun r => r.sharesS05.toNat) := by
  have htotal : h.buyVolSum.toNat + h.sellVolSum.toNat =
      windowSum 8 (ms.map fun r => r.sharesS05.toNat) := by
    rw [hr.buyVolSum, hr.sellVolSum, ← windowSum_map_add]
    simp only [buyVol_add_sellVol]
  have hbound : windowSum 8 (ms.map fun r => r.sharesS05.toNat) ≤ 8 * (2 ^ 24 - 1) := by
    refine windowSum_le (fun x hx => ?_) 8
    obtain ⟨r, -, rfl⟩ := List.mem_map.mp hx
    exact Nat.le_sub_one_of_lt r.sharesS05.isLt
  have hroom : (h.buyVolSum + h.sellVolSum).toNat = h.buyVolSum.toNat + h.sellVolSum.toNat :=
    BitVec.toNat_add_of_lt (by omega)
  exact ⟨hroom, hroom.trans htotal⟩

/-! ## the messages of a run -/

namespace FeatureExtractorV2

variable {i : Nat → FeatureExtractorV2In}

/-- The registers in cycle `n` of a run from reset. -/
def trace (i : Nat → FeatureExtractorV2In) (n : Nat) : FeatureExtractorV2 := run step reset i n

/-- The cycles before `n` with `fields_valid`, the last one first. -/
def pulses (i : Nat → FeatureExtractorV2In) : Nat → List Nat
  | 0 => []
  | n + 1 => if (i n).fieldsValid then n :: pulses i n else pulses i n

/-- What stage 1 takes for the message of cycle `t`. -/
def taken (i : Nat → FeatureExtractorV2In) (t : Nat) : FeatStage05 := (trace i (t + 2)).s05

/-- The product that comes with it: that of the inputs before. -/
def staleProduct (i : Nat → FeatureExtractorV2In) : Nat → Nat
  | 0 => 0
  | t + 1 => ((i t).price.toNat % 2 ^ 27) * ((i t).shares.toNat % 2 ^ 18)

/-- The fields taken are at the inputs in the cycle after the pulse. -/
theorem taken_fields (t : Nat) : (taken i t).priceS05 = (i (t + 1)).price ∧
    (taken i t).sharesS05 = (i (t + 1)).shares.setWidth 24 ∧
    (taken i t).sideS05 = (i (t + 1)).side ∧ (taken i t).symIdS05 = (i (t + 1)).symId :=
  ⟨rfl, rfl, rfl, rfl⟩

/-- The product is that of the inputs in the cycle before the pulse, cut to 27 and 18
bits. -/
theorem toNat_msgPxvol_taken (t : Nat) : (taken i t).msgPxvol.toNat = staleProduct i t := by
  have hwide : (taken i t).msgPxvol.toNat = (taken i t).msgPxvolS075.toNat :=
    BitVec.toNat_setWidth_of_le (by decide)
  rw [hwide]
  cases t with
  | zero => rfl
  | succ t =>
      have hreg : (taken i (t + 1)).msgPxvolS075 =
          ((i t).price.setWidth 27).setWidth 48 * ((i t).shares.setWidth 18).setWidth 48 := rfl
      have hprice : (i t).price.toNat % 2 ^ 27 < 2 ^ 27 := Nat.mod_lt _ (by decide)
      have hshares : (i t).shares.toNat % 2 ^ 18 < 2 ^ 18 := Nat.mod_lt _ (by decide)
      have hlt : (i t).price.toNat % 2 ^ 27 * ((i t).shares.toNat % 2 ^ 18) < 2 ^ 27 * 2 ^ 18 :=
        Nat.mul_lt_mul'' hprice hshares
      rw [hreg, BitVec.toNat_mul]
      simp only [BitVec.toNat_setWidth]
      rw [Nat.mod_eq_of_lt (b := 2 ^ 48) (lt_of_lt_of_le hprice (by decide)),
        Nat.mod_eq_of_lt (b := 2 ^ 48) (lt_of_lt_of_le hshares (by decide)),
        Nat.mod_eq_of_lt (lt_of_lt_of_le hlt (by decide)), staleProduct]

/-- **Run lemma**: the history two cycles later is that of the messages before. -/
theorem remembers_trace (n : Nat) :
    Remembers (trace i (n + 2)).hist ((pulses i n).map (taken i)) := by
  induction n with
  | zero => exact remembers_reset
  | succ n ih =>
      have hnext : (trace i (n + 1 + 2)).hist =
          if (i n).fieldsValid then (trace i (n + 2)).hist.push (taken i n) (trace i (n + 2)).localCnt
          else (trace i (n + 2)).hist := rfl
      rw [hnext, pulses]
      split
      · exact ih.push _ _
      · exact ih

/-- In any cycle. -/
theorem remembers_sub_two (n : Nat) :
    Remembers (trace i n).hist ((pulses i (n - 2)).map (taken i)) := by
  match n with
  | 0 | 1 => exact remembers_reset
  | n + 2 => exact remembers_trace n

/-! ## the windows -/

/-- The sums in stage 1 are those of the history. -/
theorem s1_sums (n : Nat) : (trace i n).s1.buyVolSum = (trace i n).hist.buyVolSum ∧
    (trace i n).s1.sellVolSum = (trace i n).hist.sellVolSum ∧
    (trace i n).s1.pxVolSum = (trace i n).hist.pxVolSum ∧
    (trace i n).s1.volSum = (trace i n).hist.buyVolSum + (trace i n).hist.sellVolSum := by
  induction n with
  | zero => exact ⟨rfl, rfl, rfl, rfl⟩
  | succ n ih =>
      have hnext : trace i (n + 1) = (trace i n).step (i n) := rfl
      rw [hnext]
      simp only [step]
      split
      · exact ⟨rfl, rfl, rfl, rfl⟩
      · exact ih

/-- The shares of a buy message. -/
def buyVolume (m : FeatureExtractorV2In) : Nat := if m.side then m.shares.toNat % 2 ^ 24 else 0

/-- The shares of a sell message. -/
def sellVolume (m : FeatureExtractorV2In) : Nat := if m.side then 0 else m.shares.toNat % 2 ^ 24

theorem toNat_buyVol_taken (t : Nat) : (taken i t).buyVol.toNat = buyVolume (i (t + 1)) := by
  obtain ⟨-, hshares, hside, -⟩ := taken_fields (i := i) t
  rw [FeatStage05.buyVol, buyVolume, hside, hshares, apply_ite BitVec.toNat, BitVec.toNat_setWidth]
  rfl

theorem toNat_sellVol_taken (t : Nat) : (taken i t).sellVol.toNat = sellVolume (i (t + 1)) := by
  obtain ⟨-, hshares, hside, -⟩ := taken_fields (i := i) t
  rw [FeatStage05.sellVol, sellVolume, hside, hshares, apply_ite BitVec.toNat, BitVec.toNat_setWidth]
  rfl

/-- The pulses of the last eight messages that stage 1 has taken before cycle `n`. -/
def lastEight (i : Nat → FeatureExtractorV2In) (n : Nat) : List Nat := (pulses i (n - 2)).take 8

/-- The sums are those of their windows, and the sum of both volumes is that of both sums. -/
structure WindowsExact (i : Nat → FeatureExtractorV2In) (n : Nat) : Prop where
  buy : (trace i n).hist.buyVolSum.toNat = ∑ k, ((trace i n).hist.buyVolWin k).toNat
  sell : (trace i n).hist.sellVolSum.toNat = ∑ k, ((trace i n).hist.sellVolWin k).toNat
  px : (trace i n).hist.pxVolSum.toNat = ∑ k, ((trace i n).hist.pxVolWin k).toNat
  vol : (trace i n).s1.volSum.toNat =
    (trace i n).s1.buyVolSum.toNat + (trace i n).s1.sellVolSum.toNat

/-- The sums are the volumes of the buys and the sells among the last eight messages, that
of cycle `t` being `m t`. -/
structure VolumesOf (i : Nat → FeatureExtractorV2In) (m : Nat → FeatureExtractorV2In) (n : Nat) :
    Prop where
  buy : (trace i n).hist.buyVolSum.toNat = ((lastEight i n).map fun t => buyVolume (m t)).sum
  sell : (trace i n).hist.sellVolSum.toNat = ((lastEight i n).map fun t => sellVolume (m t)).sum

theorem windowsExact (i : Nat → FeatureExtractorV2In) (n : Nat) : WindowsExact i n := by
  have hr := remembers_sub_two (i := i) n
  obtain ⟨hbuy, hsell, -, hvol⟩ := s1_sums (i := i) n
  constructor
  · simp only [hr.buyVolSum, windowSum_eq_sum, hr.buyVolWin]
  · simp only [hr.sellVolSum, windowSum_eq_sum, hr.sellVolWin]
  · simp only [hr.pxVolSum, windowSum_eq_sum, hr.pxVolWin]
  · rw [hvol, hbuy, hsell, hr.toNat_volSum.1]

/-- The volumes are those at the inputs in the cycles after the pulses. -/
theorem volumesOf_next (i : Nat → FeatureExtractorV2In) (n : Nat) :
    VolumesOf i (fun t => i (t + 1)) n := by
  have hr := remembers_sub_two (i := i) n
  constructor
  · simp only [hr.buyVolSum, windowSum, lastEight, List.map_map, ← List.map_take, Function.comp_def,
      toNat_buyVol_taken]
  · simp only [hr.sellVolSum, windowSum, lastEight, List.map_map, ← List.map_take,
      Function.comp_def, toNat_sellVol_taken]

/-- **Windows**: in every cycle of every run the sums are exact, and are the volumes of the
last eight messages as they are at the inputs in the cycle after `fields_valid`; these are
the messages' own if they are held for that cycle. -/
theorem windows_exact (i : Nat → FeatureExtractorV2In) (n : Nat) :
    WindowsExact i n ∧ VolumesOf i (fun t => i (t + 1)) n ∧
      ((∀ t ∈ lastEight i n, (i (t + 1)).side = (i t).side ∧ (i (t + 1)).shares = (i t).shares) →
        VolumesOf i i n) := by
  refine ⟨windowsExact i n, volumesOf_next i n, fun hheld => ⟨?_, ?_⟩⟩
  · rw [(volumesOf_next i n).buy, List.map_congr_left fun t ht => ?_]
    simp only [buyVolume, (hheld t ht).1, (hheld t ht).2]
  · rw [(volumesOf_next i n).sell, List.map_congr_left fun t ht => ?_]
    simp only [sellVolume, (hheld t ht).1, (hheld t ht).2]

/-- A buy of 5 shares in cycle 0; in the cycle after there are 7 at the inputs. -/
def changedShares (n : Nat) : FeatureExtractorV2In where
  price := 100
  shares := if n = 0 then 5 else 7
  side := true
  symId := 0
  fieldsValid := n == 0
  bboBidPrice := 0
  bboAskPrice := 0
  bboBidSize := 0
  bboAskSize := 0
  l2BidPrice := fun _ => 0
  l2BidSize := fun _ => 0
  l2AskPrice := fun _ => 0
  l2AskSize := fun _ => 0

theorem not_volumesOf_changedShares : ¬ VolumesOf changedShares changedShares 3 := by
  intro h
  have hbuy := h.buy
  revert hbuy
  decide +kernel

end FeatureExtractorV2

end Lliu
