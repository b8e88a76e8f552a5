import Lliu.FeatureExtractorV2.Vwap

/-!
# Lliu.FeatureExtractorV2.Integers

The integer features against exact integers.  Stage 1 forms them in 32 bits, the order
flow in 16: the price delta is right within 32 signed bits, the order flow as long as
the count before fits 16, the price below `2^31`, the mid price if the sum of bid and
ask has 32 bits; the spread and the order sizes always are (`intsExact_iff`).
-/

namespace Lliu

open Hdl

namespace FeatureExtractorV2

/-- Magnitude and sign are those of `e`. -/
def Converts (x : SignMag) (e : Int) : Prop := x.mag.toNat = e.natAbs ∧ (x.sgn = true ↔ e < 0)

instance (x : SignMag) (e : Int) : Decidable (Converts x e) := inferInstanceAs (Decidable (_ ∧ _))

/-- A signed feature converts the number it stands for. -/
theorem converts_signed {x : BitVec 32} {e : Int} : Converts (.signed x) e ↔ x.toInt = e := by
  have hlt := x.isLt
  have htoInt := BitVec.toInt_eq_msb_cond x
  have hmsb := BitVec.msb_eq_decide x
  rw [Converts, SignMag.signed]
  cases hm : x.msb with
  | true =>
      rw [hm, if_pos rfl] at htoInt
      rw [hm] at hmsb
      have hge := of_decide_eq_true hmsb.symm
      have hmag : (~~~x + 1).toNat = 2 ^ 32 - x.toNat := by
        rw [BitVec.toNat_add, BitVec.toNat_not]
        exact (Nat.mod_eq_of_lt (by simp; omega)).trans (by simp; omega)
      simp only [if_true, hmag, true_iff]
      omega
  | false =>
      rw [hm, if_neg Bool.false_ne_true] at htoInt
      simp only [Bool.false_eq_true, if_false, false_iff]
      omega

/-- An unsigned one as well. -/
theorem converts_unsigned {x : BitVec 32} {e : Int} :
    Converts (.unsigned x) e ↔ (x.toNat : Int) = e := by
  simp only [Converts, SignMag.unsigned, Bool.false_eq_true, false_iff]
  omega

/-! ## the reference -/

/-- The BBO stays at the inputs for the cycle after a pulse. -/
def BboHeld (i : Nat → FeatureExtractorV2In) : Prop :=
  ∀ t, (i t).fieldsValid = true → (i (t + 1)).bboBidPrice = (i t).bboBidPrice ∧
    (i (t + 1)).bboAskPrice = (i t).bboAskPrice ∧ (i (t + 1)).bboBidSize = (i t).bboBidSize ∧
    (i (t + 1)).bboAskSize = (i t).bboAskSize

/-- The price of the last of the messages `us` with the symbol `sym`, zero if there is
none. -/
def previousPrice (i : Nat → FeatureExtractorV2In) (sym : SymId) : List Nat → Nat
  | [] => 0
  | u :: us => if (i u).symId = sym then (i u).price.toNat else previousPrice i sym us

/-- The buys among the messages `us` less the sells. -/
def netOrders (i : Nat → FeatureExtractorV2In) : List Nat → Int
  | [] => 0
  | u :: us => netOrders i us + if (i u).side then 1 else -1

/-- The price less that of the message before of the same symbol. -/
def exactDelta (i : Nat → FeatureExtractorV2In) (t : Nat) : Int :=
  (i t).price.toNat - previousPrice i (i t).symId (pulses i t)

/-- The numbers that the features 0, 2, 3, 8, 9, 10 and 11 of the message of cycle `t` are
to be. -/
def exactFeature (i : Nat → FeatureExtractorV2In) (t : Nat) (k : Fin 32) : Int :=
  match k with
  | 0 => exactDelta i t
  | 2 => netOrders i (pulses i (t + 1))
  | 3 => (i t).price.toNat
  | 8 => max ((i t).bboAskPrice.toNat - (i t).bboBidPrice.toNat : Int) 0
  | 9 => ((i t).bboBidPrice.toNat + (i t).bboAskPrice.toNat : Int) / 2
  | 10 => ((i t).shares.toNat % 2 ^ 24 : Nat) - (i t).bboBidSize.toNat
  | 11 => ((i t).shares.toNat % 2 ^ 24 : Nat) - (i t).bboAskSize.toNat
  | _ => 0

/-- All of them are converted exactly. -/
def IntsExact (i : Nat → FeatureExtractorV2In) (t : Nat) : Prop :=
  ∀ k ∈ [0, 2, 3, 8, 9, 10, 11], Converts ((trace i (t + 4)).s2 k) (exactFeature i t k)

/-- The message of cycle `t` is within the widths of stage 1. -/
structure InWidths (i : Nat → FeatureExtractorV2In) (t : Nat) : Prop where
  delta : -2 ^ 31 ≤ exactDelta i t ∧ exactDelta i t < 2 ^ 31
  flow : -2 ^ 15 ≤ netOrders i (pulses i t) ∧ netOrders i (pulses i t) < 2 ^ 15
  price : (i t).price.toNat < 2 ^ 31
  mid : (i t).bboBidPrice.toNat + (i t).bboAskPrice.toNat < 2 ^ 32

/-! ## words against numbers -/

/-- The signed words of `w + 1` bits. -/
theorem bmod_eq_self_iff {n : Int} (w : Nat) :
    n.bmod (2 ^ (w + 1)) = n ↔ -2 ^ w ≤ n ∧ n < 2 ^ w := by
  have hpow : (2 : Int) ^ (w + 1) = 2 ^ w * 2 := Int.pow_succ 2 w
  have hnat : ((2 ^ (w + 1) : Nat) : Int) = 2 ^ w * 2 := by push_cast; exact hpow
  have hpos : 0 < 2 ^ (w + 1) := Nat.two_pow_pos _
  constructor
  · intro h
    have hle := Int.le_bmod (x := n) hpos
    have hlt := Int.bmod_lt (x := n) hpos
    rw [hnat] at hle hlt
    omega
  · rintro ⟨hle, hlt⟩
    exact Int.bmod_eq_of_le (by rw [hnat]; omega) (by rw [hnat]; omega)

/-- A difference that is formed in 33 bits and cut to 32 is one of 32 bits. -/
theorem setWidth_sub (p l : BitVec 32) :
    (p.setWidth 33 - l.setWidth 33).setWidth 32 = p - l := by
  bv_omega

/-- A difference of two words, read as a signed word. -/
theorem toInt_sub_eq_iff {p l : BitVec 32} : (p - l).toInt = (p.toNat : Int) - l.toNat ↔
    -2 ^ 31 ≤ (p.toNat : Int) - l.toNat ∧ (p.toNat : Int) - l.toNat < 2 ^ 31 := by
  rw [← bmod_eq_self_iff 31, BitVec.toInt_sub, BitVec.toInt_eq_toNat_bmod,
    BitVec.toInt_eq_toNat_bmod, Int.bmod_sub_bmod, Int.sub_bmod_bmod]

/-- A count in 16 bits, one further. -/
theorem toInt_flow (n : Int) (side : Bool) :
    (if side then (BitVec.ofInt 16 n).signExtend 32 + 1
      else (BitVec.ofInt 16 n).signExtend 32 - 1 : BitVec 32).toInt =
        n.bmod (2 ^ 16) + if side then 1 else -1 := by
  have hle := Int.le_bmod (x := n) (m := 2 ^ 16) (by decide)
  have hlt := Int.bmod_lt (x := n) (m := 2 ^ 16) (by decide)
  have hext : ((BitVec.ofInt 16 n).signExtend 32).toInt = n.bmod (2 ^ 16) := by
    rw [BitVec.toInt_signExtend_of_le (by decide), BitVec.toInt_ofInt]
  have hone : (1 : BitVec 32).toInt = 1 := by decide
  cases side with
  | true =>
      simp only [if_true]
      rw [BitVec.toInt_add, hext, hone]
      exact Int.bmod_eq_of_le (by omega) (by omega)
  | false =>
      simp only [Bool.false_eq_true, if_false]
      rw [BitVec.toInt_sub, hext, hone]
      exact Int.bmod_eq_of_le (by omega) (by omega)

/-- A difference of two words of 24 bits fits 32. -/
theorem toInt_sub_setWidth (p l : BitVec 24) :
    (p.setWidth 32 - l.setWidth 32).toInt = (p.toNat : Int) - l.toNat := by
  have hp : (p.setWidth 32).toNat = p.toNat := BitVec.toNat_setWidth_of_le (by decide)
  have hl : (l.setWidth 32).toNat = l.toNat := BitVec.toNat_setWidth_of_le (by decide)
  have hltP := p.isLt
  have hltL := l.isLt
  rw [toInt_sub_eq_iff.mpr (by rw [hp, hl]; omega), hp, hl]

/-! ## the features -/

section Features

variable {i : Nat → FeatureExtractorV2In} {t : Nat}

/-- Stage 1 makes its features of what stage 0.5 took and of the history. -/
theorem s1_int (hv : (i t).fieldsValid = true) (k : Fin 12) : (trace i (t + 3)).s1.feat k =
    (trace i (t + 2)).hist.intFeature (taken i t) k := by
  have hvalid : (trace i (t + 2)).s05.fvS075 = true := hv
  have hs1 : (trace i (t + 3)).s1 =
      (trace i (t + 2)).hist.stage1 (taken i t) (trace i (t + 2)).localCnt := if_pos hvalid
  rw [hs1]
  rfl

/-- The last price is that of the messages before. -/
theorem lastPrice_taken (hheld : Held i) (sym : SymId) (n : Nat) :
    (lastPrice sym ((pulses i n).map (taken i))).toNat = previousPrice i sym (pulses i n) := by
  induction n with
  | zero => rfl
  | succ n ih =>
      rw [pulses]
      split
      · next hv =>
          obtain ⟨hprice, -, -, hsym⟩ := hheld n hv
          have hsym' : (taken i n).symIdS05 = (i n).symId := hsym
          have hprice' : (taken i n).priceS05 = (i n).price := hprice
          rw [List.map_cons, lastPrice, previousPrice, hsym', hprice', apply_ite BitVec.toNat, ih]
      · exact ih

/-- The order flow is that of the messages before. -/
theorem netBuys_taken (hheld : Held i) (n : Nat) :
    netBuys ((pulses i n).map (taken i)) = netOrders i (pulses i n) := by
  induction n with
  | zero => rfl
  | succ n ih =>
      rw [pulses]
      split
      · next hv =>
          have hside : (taken i n).sideS05 = (i n).side := (hheld n hv).2.2.1
          rw [List.map_cons, netBuys, netOrders, hside, ih]
      · exact ih

variable (hv : (i t).fieldsValid = true)

include hv

section Bbo

variable (hbbo : BboHeld i)

include hbbo

theorem converts_spread : Converts ((trace i (t + 4)).s2 8) (exactFeature i t 8) := by
  obtain ⟨hbid, hask, -, -⟩ := hbbo t hv
  have hfeat : (trace i (t + 3)).s1.feat 8 =
      if (i t).bboBidPrice ≤ (i t).bboAskPrice then (i t).bboAskPrice - (i t).bboBidPrice
      else 0 := by
    rw [s1_int hv, ← hbid, ← hask]
    rfl
  rw [s2_of_pulse hv]
  change Converts (.unsigned ((trace i (t + 3)).s1.feat 8))
    (max ((i t).bboAskPrice.toNat - (i t).bboBidPrice.toNat : Int) 0)
  rw [converts_unsigned, hfeat]
  split
  · next hle =>
      have hle' := BitVec.le_def.mp hle
      rw [BitVec.toNat_sub_of_le hle]
      omega
  · next hlt =>
      have hlt' := BitVec.lt_def.mp (BitVec.not_le.mp hlt)
      have hzero : (0 : BitVec 32).toNat = 0 := rfl
      omega

theorem converts_mid : Converts ((trace i (t + 4)).s2 9) (exactFeature i t 9) ↔
    (i t).bboBidPrice.toNat + (i t).bboAskPrice.toNat < 2 ^ 32 := by
  obtain ⟨hbid, hask, -, -⟩ := hbbo t hv
  have hfeat : (trace i (t + 3)).s1.feat 9 = ((i t).bboAskPrice + (i t).bboBidPrice) >>> 1 := by
    rw [s1_int hv, ← hbid, ← hask]
    rfl
  have hltBid := (i t).bboBidPrice.isLt
  have hltAsk := (i t).bboAskPrice.isLt
  rw [s2_of_pulse hv]
  change Converts (.unsigned ((trace i (t + 3)).s1.feat 9))
    (((i t).bboBidPrice.toNat + (i t).bboAskPrice.toNat : Int) / 2) ↔ _
  rw [converts_unsigned, hfeat, BitVec.toNat_ushiftRight, BitVec.toNat_add, Nat.shiftRight_one]
  omega

theorem converts_orderVsBid (hheld : Held i) :
    Converts ((trace i (t + 4)).s2 10) (exactFeature i t 10) := by
  have hfeat : (trace i (t + 3)).s1.feat 10 =
      ((i t).shares.setWidth 24).setWidth 32 - (i t).bboBidSize.setWidth 32 := by
    rw [s1_int hv, ← (hheld t hv).2.1, ← (hbbo t hv).2.2.1]
    rfl
  rw [s2_of_pulse hv]
  change Converts (.signed ((trace i (t + 3)).s1.feat 10))
    (((i t).shares.toNat % 2 ^ 24 : Nat) - (i t).bboBidSize.toNat)
  rw [converts_signed, hfeat, toInt_sub_setWidth, BitVec.toNat_setWidth]

theorem converts_orderVsAsk (hheld : Held i) :
    Converts ((trace i (t + 4)).s2 11) (exactFeature i t 11) := by
  have hfeat : (trace i (t + 3)).s1.feat 11 =
      ((i t).shares.setWidth 24).setWidth 32 - (i t).bboAskSize.setWidth 32 := by
    rw [s1_int hv, ← (hheld t hv).2.1, ← (hbbo t hv).2.2.2]
    rfl
  rw [s2_of_pulse hv]
  change Converts (.signed ((trace i (t + 3)).s1.feat 11))
    (((i t).shares.toNat % 2 ^ 24 : Nat) - (i t).bboAskSize.toNat)
  rw [converts_signed, hfeat, toInt_sub_setWidth, BitVec.toNat_setWidth]

end Bbo

section Message

variable (hheld : Held i)

include hheld

theorem converts_delta : Converts ((trace i (t + 4)).s2 0) (exactFeature i t 0) ↔
    -2 ^ 31 ≤ exactDelta i t ∧ exactDelta i t < 2 ^ 31 := by
  have hlut := (remembers_trace (i := i) t).lastPriceLut (i t).symId
  have hlast := lastPrice_taken hheld (i t).symId t
  obtain ⟨hprice, -, -, hsym⟩ := hheld t hv
  have hfeat : (trace i (t + 3)).s1.feat 0 =
      (i t).price - (trace i (t + 2)).hist.lastPriceLut (i t).symId := by
    rw [s1_int hv, ← hprice, ← hsym]
    exact setWidth_sub _ _
  rw [s2_of_pulse hv]
  change Converts (.signed ((trace i (t + 3)).s1.feat 0)) (exactDelta i t) ↔ _
  rw [converts_signed, hfeat, exactDelta, ← hlast, ← hlut, toInt_sub_eq_iff]

theorem converts_flow : Converts ((trace i (t + 4)).s2 2) (exactFeature i t 2) ↔
    -2 ^ 15 ≤ netOrders i (pulses i t) ∧ netOrders i (pulses i t) < 2 ^ 15 := by
  have hcnt := (remembers_trace (i := i) t).orderFlowCnt
  rw [netBuys_taken hheld] at hcnt
  have hfeat : (trace i (t + 3)).s1.feat 2 =
      if (i t).side then (BitVec.ofInt 16 (netOrders i (pulses i t))).signExtend 32 + 1
      else (BitVec.ofInt 16 (netOrders i (pulses i t))).signExtend 32 - 1 := by
    rw [s1_int hv, ← hcnt, ← (hheld t hv).2.2.1]
    rfl
  have hexact : exactFeature i t 2 =
      netOrders i (pulses i t) + if (i t).side then 1 else -1 := by
    change netOrders i (pulses i (t + 1)) = _
    rw [pulses, if_pos hv, netOrders]
  rw [s2_of_pulse hv, hexact, ← bmod_eq_self_iff 15]
  change Converts (.signed ((trace i (t + 3)).s1.feat 2)) _ ↔ _
  rw [converts_signed, hfeat, toInt_flow, Int.add_left_inj]

theorem converts_price : Converts ((trace i (t + 4)).s2 3) (exactFeature i t 3) ↔
    (i t).price.toNat < 2 ^ 31 := by
  have hfeat : (trace i (t + 3)).s1.feat 3 = ((i t).price.setWidth 31).setWidth 32 := by
    rw [s1_int hv, ← (hheld t hv).1]
    rfl
  rw [s2_of_pulse hv]
  change Converts (.unsigned ((trace i (t + 3)).s1.feat 3)) ((i t).price.toNat : Int) ↔ _
  rw [converts_unsigned, hfeat, BitVec.toNat_setWidth_of_le (by decide), BitVec.toNat_setWidth]
  omega

end Message

end Features

variable {i : Nat → FeatureExtractorV2In}

/-- The seven features of a message are exact if and only if it is within the widths of
stage 1; the spread and the order sizes are in any case. -/
theorem intsExact_iff (hheld : Held i) (hbbo : BboHeld i) (t : Nat)
    (hv : (i t).fieldsValid = true) : IntsExact i t ↔ InWidths i t := by
  constructor
  · intro h
    exact
      { delta := (converts_delta hv hheld).mp (h 0 (by decide))
        flow := (converts_flow hv hheld).mp (h 2 (by decide))
        price := (converts_price hv hheld).mp (h 3 (by decide))
        mid := (converts_mid hv hbbo).mp (h 9 (by decide)) }
  · intro h k hk
    simp only [List.mem_cons, List.not_mem_nil, or_false] at hk
    obtain rfl | rfl | rfl | rfl | rfl | rfl | rfl := hk
    · exact (converts_delta hv hheld).mpr h.delta
    · exact (converts_flow hv hheld).mpr h.flow
    · exact (converts_price hv hheld).mpr h.price
    · exact converts_spread hv hbbo
    · exact (converts_mid hv hbbo).mpr h.mid
    · exact converts_orderVsBid hv hbbo hheld
    · exact converts_orderVsAsk hv hbbo hheld

/-- A first message at 1000 is within the widths. -/
theorem intsExact_oneMessage : IntsExact (oneMessage 0 0) 1 :=
  (intsExact_iff (held_oneMessage 0 0) (fun _ _ => ⟨rfl, rfl, rfl, rfl⟩) 1 rfl).mpr
    { delta := by decide
      flow := by decide
      price := by decide
      mid := by decide }

/-- The same message at `2^31`. -/
def highPrice (n : Nat) : FeatureExtractorV2In := { oneMessage 0 0 n with price := 0x80000000 }

theorem held_highPrice : Held highPrice := by
  intro t hv
  obtain ⟨-, hshares, hside, hsym⟩ := held_oneMessage 0 0 t hv
  exact ⟨rfl, hshares, hside, hsym⟩

/-- There the price delta is converted as a negative number, and the price as zero. -/
theorem not_intsExact_highPrice : Held highPrice ∧ BboHeld highPrice ∧
    (highPrice 1).fieldsValid = true ∧ ¬ IntsExact highPrice 1 := by
  refine ⟨held_highPrice, fun _ _ => ⟨rfl, rfl, rfl, rfl⟩, rfl, ?_⟩
  unfold IntsExact
  decide +kernel

end FeatureExtractorV2

end Lliu
