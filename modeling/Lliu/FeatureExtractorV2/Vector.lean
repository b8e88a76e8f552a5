import Lliu.Desk
import Lliu.FeatureExtractorV2.Bf16
import Lliu.FeatureExtractorV2.Integers

/-!
# Lliu.FeatureExtractorV2.Vector

The whole vector of a message.  Seven cycles after its pulse all 32 outputs are the
features of `Lliu.Desk` in bfloat16, made of the message, of the messages before and of what
the book shows, as they are at the inputs in the cycle after the pulse (`features_eq`).
-/

namespace Lliu

open Hdl

namespace FeatureExtractorV2

variable {i : Nat → FeatureExtractorV2In} {t : Nat}

/-- The message of cycle `t` as stage 1 takes it. -/
def seenAt (i : Nat → FeatureExtractorV2In) (t : Nat) : Seen where
  stamp := t + 2
  side := (taken i t).sideS05
  price := (taken i t).priceS05
  shares := (taken i t).sharesS05
  pxVol := (taken i t).msgPxvol.toNat

/-- The messages taken before cycle `n`, the newest first. -/
def seenBefore (i : Nat → FeatureExtractorV2In) (n : Nat) : List Seen := (pulses i n).map (seenAt i)

/-- What the book shows with it. -/
def quotesAt (i : Nat → FeatureExtractorV2In) (t : Nat) : Quotes where
  bidPrice := (taken i t).bboBidPxS05
  askPrice := (taken i t).bboAskPxS05
  bidSize := (taken i t).bboBidSzS05
  askSize := (taken i t).bboAskSzS05
  level := fun k side =>
    if side then ⟨(taken i t).l2BidPxS05 k, (taken i t).l2BidSzS05 k⟩
    else ⟨(taken i t).l2AskPxS05 k, (taken i t).l2AskSzS05 k⟩

/-! ## the history -/

theorem netBuys_seen (us : List Nat) : netBuys (us.map (taken i)) = Desk.netBuys (us.map (seenAt i)) := by
  induction us with
  | nil => rfl
  | cons u us ih =>
      rw [List.map_cons, netBuys, ih, Desk.netBuys, Desk.netBuys, List.map_cons, List.map_cons,
        List.sum_cons, Int.add_comm]
      rfl

/-- With one symbol index for all, the last price is that of the newest message. -/
theorem lastPrice_seen {sym : SymId} (hsym : ∀ n, (i n).symId = sym) (us : List Nat) :
    (lastPrice sym (us.map (taken i))).toNat = Desk.lastPrice (us.map (seenAt i)) := by
  cases us with
  | nil => rfl
  | cons u us =>
      have hu : (taken i u).symIdS05 = sym := hsym (u + 1)
      rw [List.map_cons, lastPrice, if_pos hu]
      rfl

/-- The volumes are those of the messages seen. -/
theorem sums_seen (us : List Nat) :
    ((us.map (taken i)).map fun r => r.buyVol.toNat) = (us.map (seenAt i)).map Seen.bought ∧
    ((us.map (taken i)).map fun r => r.sellVol.toNat) = (us.map (seenAt i)).map Seen.sold ∧
    ((us.map (taken i)).map fun r => r.msgPxvol.toNat) = (us.map (seenAt i)).map Seen.pxVol := by
  simp only [List.map_map]
  refine ⟨List.map_congr_left fun u _ => ?_, List.map_congr_left fun u _ => ?_,
    List.map_congr_left fun u _ => rfl⟩
  · exact apply_ite BitVec.toNat _ _ _
  · exact apply_ite BitVec.toNat _ _ _

theorem localCnt_trace (n : Nat) : (trace i n).localCnt = BitVec.ofNat 16 n := by
  induction n with
  | zero => rfl
  | succ n ih =>
      change (trace i n).localCnt + 1 = _
      rw [ih, BitVec.ofNat_add]
      rfl

/-- The stamps of the last eight messages. -/
theorem msgLcntWin_trace (n : Nat) (k : Fin 8) : (trace i (n + 2)).hist.msgLcntWin k =
    BitVec.ofNat 16 (((seenBefore i n).map Seen.stamp).getD k.val 0) := by
  induction n generalizing k with
  | zero => simp [seenBefore, pulses, trace, run, step, reset, FeatStage05.step]
  | succ n ih =>
      have hnext : (trace i (n + 1 + 2)).hist =
          if (i n).fieldsValid then (trace i (n + 2)).hist.push (taken i n) (trace i (n + 2)).localCnt
          else (trace i (n + 2)).hist := rfl
      rw [hnext, seenBefore, pulses]
      split
      · rw [FeatHistory.push, localCnt_trace, List.map_cons, List.map_cons]
        obtain ⟨k, hk⟩ := k
        cases k with
        | zero => rfl
        | succ k => exact ih ⟨k, by omega⟩
      · exact ih k

/-! ## the features -/

section Pulse

variable {sym : SymId} (hsym : ∀ n, (i n).symId = sym)

/-- Stage 1 works on the message and the history before. -/
theorem s1_of_pulse (hv : (i t).fieldsValid = true) : (trace i (t + 3)).s1 =
    (trace i (t + 2)).hist.stage1 (taken i t) (BitVec.ofNat 16 (t + 2)) := by
  rw [← localCnt_trace (i := i) (t + 2)]
  exact if_pos hv

include hsym in
theorem converts_int (hv : (i t).fieldsValid = true) (k : Fin 12) : Converts ((trace i (t + 3)).s1.signMag (k.castLE (by decide)))
    (Desk.intFeature (quotesAt i t) (seenBefore i t) (seenAt i t) k) := by
  have hr := remembers_trace (i := i) t
  have hfeat := s1_int hv
  match k with
  | 0 =>
      have hlast : ((trace i (t + 2)).hist.lastPriceLut (taken i t).symIdS05).toNat =
          Desk.lastPrice (seenBefore i t) := by
        rw [hr.lastPriceLut, show (taken i t).symIdS05 = sym from hsym (t + 1), lastPrice_seen hsym]
        rfl
      have hword : (trace i (t + 3)).s1.feat 0 =
          (taken i t).priceS05 - (trace i (t + 2)).hist.lastPriceLut (taken i t).symIdS05 :=
        (hfeat 0).trans (setWidth_sub _ _)
      change Converts (.signed ((trace i (t + 3)).s1.feat 0)) _
      rw [converts_signed, hword, BitVec.toInt_sub, BitVec.toInt_eq_toNat_bmod,
        BitVec.toInt_eq_toNat_bmod, Int.bmod_sub_bmod, Int.sub_bmod_bmod, hlast]
      rfl
  | 1 =>
      have hword : (trace i (t + 3)).s1.feat 1 = if (taken i t).sideS05 then 1 else -1 := hfeat 1
      change Converts (.sideFeature ((trace i (t + 3)).s1.feat 1)) (if (taken i t).sideS05 then 1 else -1)
      rw [hword]
      cases (taken i t).sideS05 <;> decide
  | 2 =>
      have hword : (trace i (t + 3)).s1.feat 2 =
          if (taken i t).sideS05 then (BitVec.ofInt 16 (Desk.netBuys (seenBefore i t))).signExtend 32 + 1
          else (BitVec.ofInt 16 (Desk.netBuys (seenBefore i t))).signExtend 32 - 1 := by
        rw [seenBefore, ← netBuys_seen, ← hr.orderFlowCnt]
        exact hfeat 2
      change Converts (.signed ((trace i (t + 3)).s1.feat 2)) _
      rw [converts_signed, hword, toInt_flow]
      rfl
  | 3 =>
      have hword : (trace i (t + 3)).s1.feat 3 = ((taken i t).priceS05.setWidth 31).setWidth 32 := hfeat 3
      change Converts (.unsigned ((trace i (t + 3)).s1.feat 3)) (((taken i t).priceS05.toNat % 2 ^ 31 : Nat) : Int)
      rw [converts_unsigned, hword, BitVec.toNat_setWidth_of_le (by decide), BitVec.toNat_setWidth]
  | 4 => exact converts_unsigned.mpr (congrArg (fun x : BitVec 32 => (x.toNat : Int)) (hfeat 4))
  | 5 => exact converts_unsigned.mpr (congrArg (fun x : BitVec 32 => (x.toNat : Int)) (hfeat 5))
  | 6 =>
      have hword : (trace i (t + 3)).s1.feat 6 = (taken i t).bboBidSzS05.setWidth 32 := hfeat 6
      change Converts (.unsigned ((trace i (t + 3)).s1.feat 6)) ((taken i t).bboBidSzS05.toNat : Int)
      rw [converts_unsigned, hword, BitVec.toNat_setWidth_of_le (by decide)]
  | 7 =>
      have hword : (trace i (t + 3)).s1.feat 7 = (taken i t).bboAskSzS05.setWidth 32 := hfeat 7
      change Converts (.unsigned ((trace i (t + 3)).s1.feat 7)) ((taken i t).bboAskSzS05.toNat : Int)
      rw [converts_unsigned, hword, BitVec.toNat_setWidth_of_le (by decide)]
  | 8 =>
      have hword : (trace i (t + 3)).s1.feat 8 =
          if (taken i t).bboBidPxS05 ≤ (taken i t).bboAskPxS05 then
            (taken i t).bboAskPxS05 - (taken i t).bboBidPxS05
          else 0 := hfeat 8
      change Converts (.unsigned ((trace i (t + 3)).s1.feat 8))
        (max ((taken i t).bboAskPxS05.toNat - (taken i t).bboBidPxS05.toNat : Int) 0)
      rw [converts_unsigned, hword]
      split
      · next hle =>
          have hle' := BitVec.le_def.mp hle
          rw [BitVec.toNat_sub_of_le hle]
          omega
      · next hlt =>
          have hlt' := BitVec.lt_def.mp (BitVec.not_le.mp hlt)
          have hzero : (0 : BitVec 32).toNat = 0 := rfl
          omega
  | 9 =>
      have hword : (trace i (t + 3)).s1.feat 9 =
          ((taken i t).bboAskPxS05 + (taken i t).bboBidPxS05) >>> 1 := hfeat 9
      change Converts (.unsigned ((trace i (t + 3)).s1.feat 9))
        ((((taken i t).bboBidPxS05.toNat + (taken i t).bboAskPxS05.toNat) % 2 ^ 32 / 2 : Nat) : Int)
      rw [converts_unsigned, hword, BitVec.toNat_ushiftRight, BitVec.toNat_add, Nat.shiftRight_one,
        Nat.add_comm]
  | 10 =>
      have hword : (trace i (t + 3)).s1.feat 10 =
          (taken i t).sharesS05.setWidth 32 - (taken i t).bboBidSzS05.setWidth 32 := hfeat 10
      change Converts (.signed ((trace i (t + 3)).s1.feat 10)) _
      rw [converts_signed, hword, toInt_sub_setWidth]
      rfl
  | 11 =>
      have hword : (trace i (t + 3)).s1.feat 11 =
          (taken i t).sharesS05.setWidth 32 - (taken i t).bboAskSzS05.setWidth 32 := hfeat 11
      change Converts (.signed ((trace i (t + 3)).s1.feat 11)) _
      rw [converts_signed, hword, toInt_sub_setWidth]
      rfl

/-- The words of stage 1 that are converted without sign. -/
theorem converts_level (hv : (i t).fieldsValid = true) (k : Fin 4) :
    Converts (.unsigned ((trace i (t + 3)).s1.l2BidPx k)) ((quotesAt i t).level k true).price.toNat ∧
    Converts (.unsigned ((trace i (t + 3)).s1.l2AskPx k)) ((quotesAt i t).level k false).price.toNat ∧
    Converts (.unsigned ((trace i (t + 3)).s1.l2BidSz k)) ((quotesAt i t).level k true).shares.toNat ∧
    Converts (.unsigned ((trace i (t + 3)).s1.l2AskSz k)) ((quotesAt i t).level k false).shares.toNat := by
  have hwide : ∀ x : BitVec 24, (x.setWidth 32).toNat = x.toNat := fun x =>
    BitVec.toNat_setWidth_of_le (by decide)
  rw [s1_of_pulse hv]
  simp only [converts_unsigned, FeatHistory.stage1, hwide, Nat.cast_inj]
  exact ⟨rfl, rfl, rfl, rfl⟩

/-- The sums are those of the message and the messages before. -/
theorem s1_windows :
    (trace i (t + 3)).s1.buyVolSum.toNat = windowSum 8 ((seenBefore i (t + 1)).map Seen.bought) ∧
    (trace i (t + 3)).s1.sellVolSum.toNat = windowSum 8 ((seenBefore i (t + 1)).map Seen.sold) ∧
    (trace i (t + 3)).s1.pxVolSum.toNat = windowSum 8 ((seenBefore i (t + 1)).map Seen.pxVol) ∧
    (trace i (t + 3)).s1.volSum.toNat = Desk.volume (seenBefore i (t + 1)) := by
  have hr := remembers_trace (i := i) (t + 1)
  obtain ⟨hbuy, hsell, hpx, hvol⟩ := s1_sums (i := i) (t + 3)
  obtain ⟨hb, hs, hp⟩ := sums_seen (i := i) (pulses i (t + 1))
  refine ⟨?_, ?_, ?_, ?_⟩
  · rw [hbuy, seenBefore, ← hb]
    exact hr.buyVolSum
  · rw [hsell, seenBefore, ← hs]
    exact hr.sellVolSum
  · rw [hpx, seenBefore, ← hp]
    exact hr.pxVolSum
  · rw [hvol, Desk.volume, seenBefore, List.map_map]
    have htotal := hr.toNat_volSum.2
    rw [List.map_map] at htotal
    exact htotal

theorem seenBefore_succ (hv : (i t).fieldsValid = true) :
    seenBefore i (t + 1) = seenAt i t :: seenBefore i t := by
  rw [seenBefore, pulses, if_pos hv, List.map_cons, seenBefore]

/-- Stage 1 has the difference of two stamps. -/
theorem converts_eightAgo (hv : (i t).fieldsValid = true) :
    Converts (.unsigned ((trace i (t + 3)).s1.msgDelta.setWidth 32))
      (Desk.eightAgo (seenBefore i t) (seenAt i t)) := by
  have hword : (trace i (t + 3)).s1.msgDelta =
      BitVec.ofNat 16 (t + 2) - (trace i (t + 2)).hist.msgLcntWin 7 := by
    rw [s1_of_pulse hv]
    rfl
  have hold : (trace i (t + 2)).hist.msgLcntWin 7 =
      BitVec.ofNat 16 ((seenBefore i t)[7]?.elim 0 Seen.stamp) := by
    rw [msgLcntWin_trace, List.getD_eq_getElem?_getD, List.getElem?_map]
    change BitVec.ofNat 16 (((seenBefore i t)[7]?.map Seen.stamp).getD 0) = _
    cases (seenBefore i t)[7]? <;> rfl
  rw [converts_unsigned, hword, hold, BitVec.toNat_setWidth_of_le (by decide), BitVec.toNat_sub,
    BitVec.toNat_ofNat, BitVec.toNat_ofNat, Desk.eightAgo, Nat.cast_inj]
  cases hy : (seenBefore i t)[7]? with
  | none =>
      change (2 ^ 16 - 0 + (t + 2) % 2 ^ 16) % 2 ^ 16 = (t + 2) % 2 ^ 16
      omega
  | some y =>
      obtain ⟨u, hu, rfl⟩ := List.mem_map.mp (List.mem_of_getElem? hy)
      have hlt := (mem_pulses hu).1
      change (2 ^ 16 - (u + 2) % 2 ^ 16 + (t + 2) % 2 ^ 16) % 2 ^ 16 = (t + 2 - (u + 2)) % 2 ^ 16
      omega

/-! ## the vector -/

/-- A magnitude with its zeros marked is converted to the bfloat16 of its number. -/
theorem norm_bf16_of_converts {x : SignMag} {e : Int} (h : Converts x e)
    (hz : x.zero = (x.mag == 0)) : x.norm.bf16 = Desk.toBf16 e := by
  obtain ⟨hmag, hsgn⟩ := h
  have hzero : x.zero = (e == 0) := by
    rw [hz, Bool.eq_iff_iff, beq_iff_eq, beq_iff_eq, ← Int.natAbs_eq_zero, ← hmag,
      BitVec.toNat_eq]
    rfl
  have hsign : x.sgn = decide (e < 0) := by
    rw [Bool.eq_iff_iff, hsgn, decide_eq_true_iff]
  have hmarked : x.zero = true ∨ x.mag ≠ 0 := by
    by_cases h0 : x.mag = 0
    · exact Or.inl (by rw [hz, h0]; rfl)
    · exact Or.inr h0
  rw [norm_bf16 hmarked, Desk.toBf16, ← hmag, BitVec.ofNat_toNat,
    BitVec.setWidth_eq, hzero, hsign]

/-- An unmarked zero is converted to `2 ^ 31`. -/
theorem norm_bf16_unmarked : (⟨0, false, false⟩ : SignMag).norm.bf16 = Desk.toBf16 (2 ^ 31) := by
  decide

/-- Feature 30. -/
theorem vwap_bf16 :
    (SignMag.vwap (trace i (t + 3)).s1.pxVolSum (trace i (t + 3)).s1.volSum).norm.bf16 =
      Desk.toBf16 (Desk.weightedPrice (seenBefore i (t + 1))) := by
  obtain ⟨-, -, hpx, hvol⟩ := s1_windows (i := i) (t := t)
  generalize (trace i (t + 3)).s1.pxVolSum = px at hpx
  generalize (trace i (t + 3)).s1.volSum = vol at hvol
  have hquot : ((px >>> msbPos27 vol).setWidth 32).toNat = Desk.quotient (seenBefore i (t + 1)) := by
    rw [BitVec.toNat_setWidth, BitVec.ushiftRight_eq', BitVec.toNat_ushiftRight, toNat_msbPos27, hpx, hvol,
      Nat.shiftRight_eq_div_pow, Desk.quotient]
  rw [Desk.weightedPrice, ← hvol, ← hquot]
  by_cases hzero : vol = 0
  · have hnat : vol.toNat = 0 := by rw [hzero]; rfl
    rw [if_pos hnat, SignMag.vwap, if_pos hzero]
    apply norm_bf16_of_converts
    · exact ⟨rfl, iff_of_false Bool.false_ne_true (by decide)⟩
    · rw [hzero]
      rfl
  · have hnat : vol.toNat ≠ 0 := fun h => hzero (BitVec.eq_of_toNat_eq h)
    have hmark : (vol == 0) = false := beq_eq_false_iff_ne.mpr hzero
    rw [if_neg hnat, SignMag.vwap, if_neg hzero, hmark]
    by_cases hq : (px >>> msbPos27 vol).setWidth 32 = 0#32
    · have hq' : ((px >>> msbPos27 vol).setWidth 32).toNat = 0 := by rw [hq]; rfl
      rw [if_pos hq', hq]
      exact norm_bf16_unmarked
    · have hq' : ((px >>> msbPos27 vol).setWidth 32).toNat ≠ 0 := fun h => hq (BitVec.eq_of_toNat_eq h)
      rw [if_neg hq']
      apply norm_bf16_of_converts
      · exact ⟨rfl, iff_of_false Bool.false_ne_true (by omega)⟩
      · exact (beq_eq_false_iff_ne.mpr hq).symm

include hsym in
/-- What stage 1 makes of every feature but the weighted price. -/
theorem converts_feature (hv : (i t).fieldsValid = true) (k : Fin 32) (hk : k ≠ 30) : Converts ((trace i (t + 3)).s1.signMag k)
    (Desk.feature (quotesAt i t) (seenBefore i t) (seenAt i t) k) := by
  obtain ⟨hbuy, hsell, -, -⟩ := s1_windows (i := i) (t := t)
  have hlevel := converts_level hv (Fin.ofNat 4 k.val)
  rw [seenBefore_succ hv] at hbuy hsell
  by_cases hint : k.val < 12
  · have h := converts_int hsym hv ⟨k.val, hint⟩
    rw [Desk.feature, dif_pos hint]
    exact h
  · have hat28 : (k = 28) = (k.val = 28) := propext Fin.ext_iff
    have hat29 : (k = 29) = (k.val = 29) := propext Fin.ext_iff
    rw [Desk.feature, FeatStage1.signMag, dif_neg hint, dif_neg hint]
    simp only [hat28, hat29]
    split_ifs with h16 h20 h24 h28 h28' h29 h30
    · exact hlevel.1
    · exact hlevel.2.1
    · exact hlevel.2.2.1
    · exact hlevel.2.2.2
    · rw [converts_unsigned, BitVec.toNat_setWidth_of_le (by decide), hbuy]
    · rw [converts_unsigned, BitVec.toNat_setWidth_of_le (by decide), hsell]
    · exact absurd (Fin.ext h30) hk
    · exact converts_eightAgo hv

include hsym in
/-- **The vector**: seven cycles after its pulse the outputs are the features of the message. -/
theorem features_eq (hv : (i t).fieldsValid = true) (k : Fin 32) : (trace i (t + 7)).features k =
    Desk.toBf16 (Desk.feature (quotesAt i t) (seenBefore i t) (seenAt i t) k) := by
  have hvalid : (trace i (t + 4)).validD2 = true := hv
  have hout : (trace i (t + 7)).features k = ((trace i (t + 3)).s1.signMag k).norm.bf16 := by
    rw [← s2_of_pulse hv]
    exact features_of_validD2 hvalid (i (t + 4)) (i (t + 5)) (i (t + 6)) k
  rw [hout]
  by_cases hk : k = 30
  · obtain rfl := hk
    have hweighted : Desk.feature (quotesAt i t) (seenBefore i t) (seenAt i t) 30 =
        Desk.weightedPrice (seenAt i t :: seenBefore i t) := rfl
    rw [hweighted, ← seenBefore_succ hv]
    exact vwap_bf16
  · refine norm_bf16_of_converts (converts_feature hsym hv k hk) ?_
    exact (zero_signMag_iff _ k).mpr fun h => absurd h hk

end Pulse

end FeatureExtractorV2

end Lliu
