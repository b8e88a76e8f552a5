import Lliu.Hdl.Run
import Lliu.RiskCheck

/-!
# Lliu.RiskCheck.Verdicts

The verdicts of a run of the risk check, against a reference decision that works
with exact numbers.  The stages keep the proposals apart: a verdict depends on the
inputs of its own cycle and the position read for it alone.  It differs from the
reference only where the resulting position does not fit: the sum has 25 bits, and
24 of its absolute value are compared with the limit (`verdicts_iff`).
-/

namespace Lliu

namespace RiskCheck

open Hdl

/-- The state in cycle `n` of a run from reset, with the given positions. -/
def trace (pos : SymId → BitVec 24) (i : Nat → RiskCheckIn) (n : Nat) : RiskCheck :=
  run step { reset with posMem := pos } i n

/-- The position read for the proposal of cycle `n`. -/
def posRead (pos : SymId → BitVec 24) (i : Nat → RiskCheckIn) (n : Nat) : BitVec 24 :=
  (trace pos i (n + 3)).posMem (i n).symbolId

/-! ## the reference -/

/-- The signed shares of a proposal. -/
def signedShares (i : RiskCheckIn) : Int :=
  if i.side then i.proposedShares.toNat else -i.proposedShares.toNat

/-- The position that a proposal leads to. -/
def resulting (i : RiskCheckIn) (pos : BitVec 24) : Int := pos.toInt + signedShares i

/-- The scaled threshold of the price band. -/
def bandThresh (i : RiskCheckIn) : BitVec 32 :=
  ((i.refPrice.setWidth 27).setWidth 48 * (i.bandBps.setWidth 14).setWidth 48).extractLsb' 13 32

/-- The verdict and the reason for a proposal. -/
def reference (posLimit : BitVec 24) (i : RiskCheckIn) (pos : BitVec 24) : Bool × BlockReason :=
  if i.killSw ∨ i.txOverflow then (false, .none)
  else if bandThresh i < priceDiff i then (false, .priceBand)
  else if i.maxQty.toNat < i.proposedShares.toNat then (false, .fatFinger)
  else if posLimit.toNat < (resulting i pos).natAbs then (false, .posLimit)
  else (true, .none)

/-- The proposals that come to the position check. -/
def ReachesLimit (i : RiskCheckIn) : Prop :=
  i.killSw = false ∧ i.txOverflow = false ∧ priceDiff i ≤ bandThresh i ∧
    i.proposedShares.toNat ≤ i.maxQty.toNat

/-- What the position check makes of the absolute value of `e`, a sum of 25 bits cut
to 24. -/
def seenAbs (e : Int) : Nat := if e.natAbs < 2 ^ 24 then e.natAbs else (2 ^ 25 - e.natAbs) % 2 ^ 24

/-- The position check gets `e` right: either its absolute value has 24 bits, or what
is left of it exceeds the limit as well. -/
def LimitSeen (posLimit : BitVec 24) (e : Int) : Prop :=
  e.natAbs < 2 ^ 24 ∨ posLimit.toNat < seenAbs e

/-! ## the position check -/

/-- The sum of a proposal has 25 bits. -/
theorem toInt_newNetR (i : RiskCheckIn) (pos : BitVec 24) :
    (checks i pos).newNetR.toInt = (resulting i pos).bmod (2 ^ 25) := by
  have hpos : (pos.signExtend 25).toInt = pos.toInt := BitVec.toInt_signExtend_of_le (by decide)
  have hshares : (i.proposedShares.setWidth 25).toInt = i.proposedShares.toNat := by
    have hlt := i.proposedShares.isLt
    rw [BitVec.toInt_eq_toNat_of_lt] <;> rw [BitVec.toNat_setWidth_of_le (by decide)]
    omega
  rw [checks, resulting, signedShares]
  cases i.side with
  | true => exact (BitVec.toInt_add _ _).trans (by rw [hpos, hshares]; rfl)
  | false => exact BitVec.toInt_sub.trans (by rw [hpos, hshares]; rfl)

/-- What is stored of it has 24. -/
theorem toInt_written (i : RiskCheckIn) (pos : BitVec 24) :
    ((checks i pos).newNetR.setWidth 24).toInt = (resulting i pos).bmod (2 ^ 24) := by
  have hdvd : 2 ^ 24 ∣ 2 ^ 25 := by decide
  rw [BitVec.toInt_setWidth, ← Int.bmod_bmod_of_dvd (a := (checks i pos).newNetR.toNat) hdvd,
    ← BitVec.toInt_eq_toNat_bmod, toInt_newNetR, Int.bmod_bmod_of_dvd hdvd]

/-- It is the position, moved by the shares. -/
theorem written_eq (i : RiskCheckIn) (pos : BitVec 24) :
    (checks i pos).newNetR.setWidth 24 = pos + BitVec.ofInt 24 (signedShares i) := by
  apply BitVec.eq_of_toInt_eq
  rw [toInt_written, resulting, BitVec.toInt_add, BitVec.toInt_ofInt, Int.add_bmod_bmod]

/-- Its absolute value is cut to 24 bits. -/
theorem toNat_newNetAbs (r : RiskStage2) :
    (newNetAbs r).toNat = r.newNetR.toInt.natAbs % 2 ^ 24 := by
  have hlt := r.newNetR.isLt
  have htoInt := BitVec.toInt_eq_msb_cond r.newNetR
  have hmsb := BitVec.msb_eq_decide r.newNetR
  rw [newNetAbs]
  cases hm : r.newNetR.msb with
  | true =>
      rw [hm, if_pos rfl] at htoInt
      rw [hm] at hmsb
      have hge := of_decide_eq_true hmsb.symm
      rw [if_pos rfl, BitVec.toNat_add, BitVec.toNat_not, BitVec.toNat_setWidth, htoInt]
      have hone : (1 : BitVec 24).toNat = 1 := rfl
      rw [hone]
      omega
  | false =>
      rw [hm, if_neg Bool.false_ne_true] at htoInt
      rw [if_neg Bool.false_ne_true, BitVec.toNat_setWidth, htoInt, Int.natAbs_natCast]

/-- How far a resulting position can be from zero. -/
theorem natAbs_resulting_lt (i : RiskCheckIn) (pos : BitVec 24) :
    (resulting i pos).natAbs < 2 ^ 24 + 2 ^ 23 := by
  have hlo := BitVec.le_toInt pos
  have hhi := BitVec.toInt_lt (x := pos)
  have hshares := i.proposedShares.isLt
  rw [resulting, signedShares]
  split <;> omega

/-- What the check compares with the limit. -/
theorem toNat_newNetAbs_checks (i : RiskCheckIn) (pos : BitVec 24) :
    (newNetAbs (checks i pos)).toNat = seenAbs (resulting i pos) := by
  have hlt := natAbs_resulting_lt i pos
  rw [toNat_newNetAbs, toInt_newNetR, seenAbs, Int.bmod_def]
  split <;> split <;> omega

theorem blockPosC1_checks {i : RiskCheckIn} (hv : i.scoreValid = true) (pos posLimit : BitVec 24) :
    blockPosC1 (checks i pos) posLimit = decide (posLimit.toNat < seenAbs (resulting i pos)) := by
  rw [← toNat_newNetAbs_checks, blockPosC1, show (checks i pos).scoreValidP2 = true from hv,
    Bool.true_and, BitVec.ult_eq_decide]

/-- The position check agrees with the exact one. -/
theorem limitSeen_iff (posLimit : BitVec 24) (e : Int) :
    LimitSeen posLimit e ↔ (posLimit.toNat < seenAbs e ↔ posLimit.toNat < e.natAbs) := by
  have hlimit := posLimit.isLt
  rw [LimitSeen, seenAbs]
  split
  · next hlt => exact iff_of_true (Or.inl hlt) Iff.rfl
  · next hge => constructor <;> intro h <;> omega

/-! ## one verdict -/

theorem blockBandP2_checks {i : RiskCheckIn} (hv : i.scoreValid = true) (pos : BitVec 24) :
    (checks i pos).blockBandP2 = decide (bandThresh i < priceDiff i) := by
  rw [checks, hv, Bool.true_and]
  rfl

theorem blockFatP2_checks {i : RiskCheckIn} (hv : i.scoreValid = true) (pos : BitVec 24) :
    (checks i pos).blockFatP2 = decide (i.maxQty.toNat < i.proposedShares.toNat) := by
  change blockFatC0 i = _
  rw [blockFatC0, hv, Bool.true_and, BitVec.ult_eq_decide, BitVec.toNat_setWidth_of_le (by decide)]

/-- The proposals that do not come to the position check are blocked. -/
theorem verdict_of_not_reachesLimit {i : RiskCheckIn} (hv : i.scoreValid = true)
    (h : ¬ ReachesLimit i) (pos posLimit : BitVec 24) :
    verdict (checks i pos) posLimit = reference posLimit i pos ∧
      (reference posLimit i pos).1 = false := by
  rw [verdict, reference, blockBandP2_checks hv, blockFatP2_checks hv,
    show (checks i pos).scoreValidP2 = i.scoreValid from rfl, hv,
    show (checks i pos).killSwP2 = i.killSw from rfl,
    show (checks i pos).txOverflowP2 = i.txOverflow from rfl]
  cases hk : i.killSw with
  | true => simp
  | false =>
      cases ht : i.txOverflow with
      | true => simp
      | false =>
          by_cases hband : bandThresh i < priceDiff i
          · simp [hband]
          · have hfat : i.maxQty.toNat < i.proposedShares.toNat := by
              by_contra hle
              exact h ⟨hk, ht, BitVec.not_lt.mp hband, Nat.not_lt.mp hle⟩
            simp [hband, hfat]

/-- The others are decided by it. -/
theorem verdict_of_reachesLimit {i : RiskCheckIn} (hv : i.scoreValid = true) (h : ReachesLimit i)
    (pos posLimit : BitVec 24) :
    verdict (checks i pos) posLimit =
      (if posLimit.toNat < seenAbs (resulting i pos) then (false, .posLimit) else (true, .none)) ∧
    reference posLimit i pos =
      (if posLimit.toNat < (resulting i pos).natAbs then (false, .posLimit) else (true, .none)) := by
  obtain ⟨hk, ht, hband, hfat⟩ := h
  rw [verdict, reference, blockBandP2_checks hv, blockFatP2_checks hv, blockPosC1_checks hv,
    show (checks i pos).scoreValidP2 = i.scoreValid from rfl, hv,
    show (checks i pos).killSwP2 = i.killSw from rfl,
    show (checks i pos).txOverflowP2 = i.txOverflow from rfl, hk, ht]
  simp [BitVec.not_lt.mpr hband, Nat.not_lt.mpr hfat]

/-- **The verdict** on a proposal is the reference decision if and only if the
position check, where it comes to it, gets the resulting position right. -/
theorem verdict_checks {i : RiskCheckIn} (hv : i.scoreValid = true) (pos posLimit : BitVec 24) :
    verdict (checks i pos) posLimit = reference posLimit i pos ↔
      (ReachesLimit i → LimitSeen posLimit (resulting i pos)) := by
  by_cases h : ReachesLimit i
  · obtain ⟨hverdict, hreference⟩ := verdict_of_reachesLimit hv h pos posLimit
    rw [hverdict, hreference, limitSeen_iff]
    by_cases hseen : posLimit.toNat < seenAbs (resulting i pos) <;>
      by_cases hexact : posLimit.toNat < (resulting i pos).natAbs <;> simp [h, hseen, hexact]
  · exact iff_of_true (verdict_of_not_reachesLimit hv h pos posLimit).1 fun hr => absurd hr h

/-- A proposal passes if it comes to the position check and the limit is not seen
exceeded. -/
theorem fst_verdict_checks {i : RiskCheckIn} (hv : i.scoreValid = true) (pos posLimit : BitVec 24) :
    (verdict (checks i pos) posLimit).1 = true ↔
      ReachesLimit i ∧ seenAbs (resulting i pos) ≤ posLimit.toNat := by
  by_cases h : ReachesLimit i
  · rw [(verdict_of_reachesLimit hv h pos posLimit).1]
    split
    · next hlt => simp [h, Nat.not_le.mpr hlt]
    · next hle => simp [h, Nat.not_lt.mp hle]
  · obtain ⟨hverdict, hfalse⟩ := verdict_of_not_reachesLimit hv h pos posLimit
    rw [hverdict, hfalse]
    simp [h]

/-! ## the verdicts of a run -/

section Run

variable {p : SymId → BitVec 24} {i : Nat → RiskCheckIn}

theorem trace_succ (n : Nat) : trace p i (n + 1) = (trace p i n).step (i n) := rfl

/-- What a proposal has become when it is decided. -/
theorem p2_trace (n : Nat) : (trace p i (n + 5)).p2 = checks (i n) (posRead p i n) :=
  p2_step _ _ _ _ _ _

/-- The outputs six cycles after a proposal are its verdict. -/
theorem outputs_add (n : Nat) : ((trace p i (n + 6)).riskPass, (trace p i (n + 6)).blockReason) =
    verdict (checks (i n) (posRead p i n)) (i (n + 5)).posLimit := by
  rw [← p2_trace]
  rfl

theorem riskBlocked_add (n : Nat) : (trace p i (n + 6)).riskBlocked =
    ((i n).scoreValid && !(trace p i (n + 6)).riskPass) := rfl

/-- No proposal, no pass. -/
theorem riskPass_of_not_scoreValid {n : Nat} (h : (i n).scoreValid = false) :
    (trace p i (n + 6)).riskPass = false := by
  have hpass := congrArg Prod.fst (outputs_add (p := p) (i := i) n)
  rw [verdict, if_pos (by rw [show (checks (i n) (posRead p i n)).scoreValidP2 = _ from h]; rfl)] at hpass
  exact hpass

/-- Nothing comes out in the first six cycles. -/
theorem quiet_of_lt {n : Nat} (h : n < 6) :
    (trace p i n).riskPass = false ∧ (trace p i n).riskBlocked = false := by
  match n, h with
  | 0, _ | 1, _ | 2, _ | 3, _ | 4, _ | 5, _ => exact ⟨rfl, rfl⟩

/-- A pulse belongs to a proposal of six cycles before, and the pulses exclude each
other. -/
theorem pulse_iff (n : Nat) : ((trace p i n).riskPass = true ∨ (trace p i n).riskBlocked = true ↔
      ∃ t, n = t + 6 ∧ (i t).scoreValid = true) ∧
    ¬ ((trace p i n).riskPass = true ∧ (trace p i n).riskBlocked = true) := by
  by_cases hlt : n < 6
  · obtain ⟨hpass, hblocked⟩ := quiet_of_lt (p := p) (i := i) hlt
    rw [hpass, hblocked]
    refine ⟨⟨fun h => by simp at h, fun ⟨t, ht, _⟩ => by omega⟩, by simp⟩
  · obtain ⟨t, rfl⟩ : ∃ t, n = t + 6 := ⟨n - 6, by omega⟩
    have hex : (∃ t', t + 6 = t' + 6 ∧ (i t').scoreValid = true) ↔ (i t).scoreValid = true := by
      refine ⟨fun ⟨t', ht, hv⟩ => ?_, fun hv => ⟨t, rfl, hv⟩⟩
      rwa [show t = t' by omega]
    rw [hex, riskBlocked_add]
    cases hv : (i t).scoreValid with
    | true => cases (trace p i (t + 6)).riskPass <;> simp
    | false => simp [riskPass_of_not_scoreValid hv]

/-- The verdicts come six cycles after their proposals, one pulse for each and no
other, and are the reference decisions. -/
structure VerdictsRight (posLimit : BitVec 24) (p : SymId → BitVec 24) (i : Nat → RiskCheckIn) :
    Prop where
  pulse : ∀ n, (trace p i n).riskPass = true ∨ (trace p i n).riskBlocked = true ↔
    ∃ t, n = t + 6 ∧ (i t).scoreValid = true
  one : ∀ n, ¬ ((trace p i n).riskPass = true ∧ (trace p i n).riskBlocked = true)
  verdict : ∀ n, (i n).scoreValid = true →
    ((trace p i (n + 6)).riskPass, (trace p i (n + 6)).blockReason) =
      reference posLimit (i n) (posRead p i n)

/-- **Verdicts**: with the limit held constant the verdicts are right if and only if
the position check gets every resulting position right that comes to it. -/
theorem verdicts_iff (posLimit : BitVec 24) (p : SymId → BitVec 24) (i : Nat → RiskCheckIn)
    (hlimit : ∀ n, (i n).posLimit = posLimit) :
    VerdictsRight posLimit p i ↔ ∀ n, (i n).scoreValid = true → ReachesLimit (i n) →
      LimitSeen posLimit (resulting (i n) (posRead p i n)) := by
  have hverdict : ∀ n, (i n).scoreValid = true →
      (((trace p i (n + 6)).riskPass, (trace p i (n + 6)).blockReason) =
          reference posLimit (i n) (posRead p i n) ↔
        (ReachesLimit (i n) → LimitSeen posLimit (resulting (i n) (posRead p i n)))) :=
    fun n hv => by rw [outputs_add, hlimit, verdict_checks hv]
  constructor
  · exact fun h n hv => (hverdict n hv).mp (h.verdict n hv)
  · intro h
    exact
      { pulse := fun n => (pulse_iff n).1
        one := fun n => (pulse_iff n).2
        verdict := fun n hv => (hverdict n hv).mpr (h n hv) }

end Run

/-! ## a position that does not fit -/

/-- A buy order of symbol 0 in the band, that nothing but its size may stop. -/
def buyOrder (posLimit shares : BitVec 24) : RiskCheckIn where
  scoreValid := true
  side := true
  price := 100
  symbolId := 0
  proposedShares := shares
  txOverflow := false
  bandBps := 200
  maxQty := 0xFFFFFFFF
  posLimit := posLimit
  killSw := false
  refPrice := 100

/-- Buy orders with the given shares, each in its cycle. -/
def buyOrders (posLimit : BitVec 24) (orders : List (Nat × BitVec 24)) (n : Nat) : RiskCheckIn :=
  match orders.find? fun o => o.1 = n with
  | some o => buyOrder posLimit o.2
  | none => { buyOrder posLimit 0 with scoreValid := false }

/-- With the limit at 1000 and a position of 1, a buy order of `2^24 - 1` shares
passes. -/
theorem wrapped_order_passes :
    ¬ VerdictsRight 1000 (fun _ => 0) (buyOrders 1000 [(0, 1), (8, 0xFFFFFF)]) := by
  intro h
  have hright := h.verdict 8 rfl
  revert hright
  decide +kernel

/-- Orders of 100 shares get the right verdicts. -/
theorem verdicts_small : VerdictsRight 1000 (fun _ => 0) (fun _ => buyOrder 1000 100) := by
  refine (verdicts_iff 1000 (fun _ => 0) (fun _ => buyOrder 1000 100) fun _ => rfl).mpr
    fun n _ _ => Or.inl ?_
  have hlo := BitVec.le_toInt (posRead (fun _ => 0) (fun _ => buyOrder 1000 100) n)
  have hhi := BitVec.toInt_lt (x := posRead (fun _ => 0) (fun _ => buyOrder 1000 100) n)
  rw [resulting, show signedShares (buyOrder 1000 100) = 100 from rfl]
  omega

end RiskCheck

end Lliu
