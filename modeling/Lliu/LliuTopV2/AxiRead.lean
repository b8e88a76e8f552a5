import Lliu.Hdl.Slot
import Lliu.LliuTopV2.Kill

/-!
# Lliu.LliuTopV2.AxiRead

The AXI4-Lite read channel of the top level over whole runs.  The channel takes an
address when no response waits, and in the next cycle acknowledges it and responds.

The status of blocked orders is cleared by the read that reports it, and no block is
lost to that.  The histogram is decoded at `0x280`, not at the `0x500` of the address
map: a read of a bin by the map returns zero.
-/

namespace Lliu

namespace LliuTopV2

open Hdl

/-! ## the channel -/

/-- The address at the input is taken. -/
def arTaken (i : Nat → LliuTopV2In) (k : Nat) : Bool :=
  (i k).sAxilArvalid && !(trace i k).axilRead.sAxilRvalid

/-- The address handshake. -/
def arBeat (i : Nat → LliuTopV2In) (k : Nat) : Bool :=
  (i k).sAxilArvalid && (trace i k).axilRead.sAxilArready

/-- A response is transferred. -/
def rBeat (i : Nat → LliuTopV2In) (k : Nat) : Bool :=
  (trace i k).axilRead.sAxilRvalid && (i k).sAxilRready

/-- The data of the response to the address taken in cycle `n`. -/
def response (i : Nat → LliuTopV2In) (n : Nat) : BitVec 32 := (trace i (n + 1)).axilRead.sAxilRdata

/-- The master holds an address until it is acknowledged. -/
def HoldsAddress (i : Nat → LliuTopV2In) : Prop :=
  ∀ k, (i k).sAxilArvalid = true → (trace i k).axilRead.sAxilArready = false →
    (i (k + 1)).sAxilArvalid = true

section Channel

variable {i : Nat → LliuTopV2In} {n : Nat}

theorem axilRead_succ (n : Nat) : (trace i (n + 1)).axilRead =
    if arTaken i n then ⟨true, true, (trace i n).readData (i n).sAxilAraddr⟩
    else ⟨false, (trace i n).axilRead.sAxilRvalid && !(i n).sAxilRready,
      (trace i n).axilRead.sAxilRdata⟩ := rfl

/-- An address is acknowledged in the cycle after. -/
theorem sAxilArready_succ (n : Nat) : (trace i (n + 1)).axilRead.sAxilArready = arTaken i n := by
  rw [axilRead_succ]
  cases arTaken i n <;> rfl

theorem flag_arTaken : Flag (arTaken i) (rBeat i) (fun _ => false)
    (fun k => (trace i k).axilRead.sAxilRvalid) where
  empty := rfl
  step k := by
    rw [axilRead_succ]
    unfold rBeat arTaken
    cases hv : (i k).sAxilArvalid <;> cases hr : (trace i k).axilRead.sAxilRvalid <;>
      cases hb : (i k).sAxilRready <;> simp

/-- **One response** for each address taken, but for one that waits. -/
theorem count_arTaken (n : Nat) : count (arTaken i) n =
    count (rBeat i) n + (trace i n).axilRead.sAxilRvalid.toNat :=
  ((flag_arTaken.count_eq_iff n).mpr fun _ _ => rfl).symm

theorem sAxilRvalid_of_arready (h : (trace i n).axilRead.sAxilArready = true) :
    (trace i n).axilRead.sAxilRvalid = true := by
  match n, h with
  | n + 1, h =>
      rw [sAxilArready_succ] at h
      rw [axilRead_succ, if_pos h]

/-- With a master that holds its addresses, a handshake follows each address taken. -/
theorem arBeat_succ (h : HoldsAddress i) (n : Nat) : arBeat i (n + 1) = arTaken i n := by
  rw [arBeat, sAxilArready_succ]
  cases ht : arTaken i n with
  | false => rw [Bool.and_false]
  | true =>
      unfold arTaken at ht
      rw [Bool.and_eq_true_iff, Bool.not_eq_true'] at ht
      have hready : (trace i n).axilRead.sAxilArready = false := by
        by_contra hr
        rw [Bool.not_eq_false] at hr
        simp [sAxilRvalid_of_arready hr] at ht
      rw [h n ht.1 hready, Bool.and_true]

theorem count_arBeat (h : HoldsAddress i) (n : Nat) :
    count (arBeat i) (n + 1) = count (arTaken i) n := by
  induction n with
  | zero => simp [count_succ, arBeat, trace, reset]
  | succ n ih => rw [count_succ, ih, arBeat_succ h, count_succ]

/-- The response stays until it is taken. -/
theorem response_stays (h : arTaken i n = true) (k : Nat)
    (hk : ∀ m, m < k → (i (n + 1 + m)).sAxilRready = false) :
    (trace i (n + 1 + k)).axilRead.sAxilRvalid = true ∧
    (trace i (n + 1 + k)).axilRead.sAxilRdata = response i n := by
  induction k with
  | zero =>
      refine ⟨?_, rfl⟩
      rw [Nat.add_zero, axilRead_succ, if_pos h]
  | succ k ih =>
      obtain ⟨hvalid, hdata⟩ := ih fun m hm => hk m (by omega)
      have hready := hk k (Nat.lt_succ_self k)
      have hnot : arTaken i (n + 1 + k) = false := by simp [arTaken, hvalid]
      rw [← Nat.add_assoc, axilRead_succ, hnot]
      simp [hvalid, hdata, hready]

end Channel

/-! ## the data -/

/-- `HIST_BIN[k]`, by the address map. -/
def histBinAddr (k : Fin 32) : BitVec 12 := 0x500#12 + BitVec.ofNat 12 (4 * k.val)

/-- The data of a read of address `a`, by the address map. -/
structure Documented (s : LliuTopV2) (a : BitVec 12) (d : BitVec 32) : Prop where
  histBin : ∀ k, a = histBinAddr k → d = s.uHist.histBins (BitVec.ofNat 5 k.val)
  histOverflow : a = 0x580#12 → d = s.uHist.overflowR
  collisionCount : a = 0x048#12 → d = s.uOb.book.collisionCount
  riskStatus : a = 0x410#12 → d.getLsbD 0 = s.axil.riskBlockedLatch

section Data

variable {i : Nat → LliuTopV2In} {n : Nat} {s : LliuTopV2}

theorem response_eq (h : arTaken i n = true) :
    response i n = (trace i n).readData (i n).sAxilAraddr := by
  rw [response, axilRead_succ, if_pos h]

/-- The histogram is decoded elsewhere. -/
theorem readData_histBinAddr (k : Fin 32) : s.readData (histBinAddr k) = 0 := by
  have hmap : ∀ k : Fin 32, histBinAddr k ≠ 0x410#12 ∧ histBinAddr k ≠ 0x048#12 ∧
      histBinAddr k ≠ 0x580#12 ∧ (histBinAddr k).extractLsb' 7 5 ≠ 0b00101#5 := by decide
  obtain ⟨hrisk, hcoll, hovf, hbin⟩ := hmap k
  rw [readData, if_neg hrisk, if_neg hcoll, if_neg hovf, if_neg hbin]

theorem readData_riskStatus :
    (s.readData 0x410#12).getLsbD 0 = s.axil.riskBlockedLatch := by
  rw [readData, if_pos rfl]
  cases s.axil.riskBlockedLatch <;> cases s.axil.killSwR <;> rfl

/-- A read has the data of the address map exactly if it is not of a bin that has
counted. -/
theorem documented_iff (h : arTaken i n = true) :
    Documented (trace i n) (i n).sAxilAraddr (response i n) ↔
      ∀ k, (i n).sAxilAraddr = histBinAddr k →
        (trace i n).uHist.histBins (BitVec.ofNat 5 k.val) = 0 := by
  rw [response_eq h]
  constructor
  · intro hdoc k hk
    rw [← hdoc.histBin k hk, hk, readData_histBinAddr]
  · intro hzero
    refine ⟨fun k hk => ?_, fun ha => ?_, fun ha => ?_, fun ha => ?_⟩
    · rw [hzero k hk, hk, readData_histBinAddr]
    · rw [ha]
      rfl
    · rw [ha]
      rfl
    · rw [ha, readData_riskStatus]

/-! ## blocked orders -/

/-- A read of the status is taken. -/
def statusTaken (i : Nat → LliuTopV2In) (k : Nat) : Bool :=
  arTaken i k && (i k).sAxilAraddr == 0x410#12

/-- A block sets the latch, also in the cycle in which a read clears it. -/
theorem riskBlockedLatch_succ (n : Nat) : (trace i (n + 1)).axil.riskBlockedLatch =
    ((trace i n).uRisk.riskBlocked ||
      ((trace i n).axil.riskBlockedLatch && !statusTaken i n)) := by
  change ((trace i n).axil.step (i n) _ _).riskBlockedLatch = _
  unfold Axil.step
  split
  · split <;> rfl
  · rfl

/-- The latch keeps a block until a read of the status. -/
theorem riskBlockedLatch_of_block {p : Nat} (h : (trace i p).uRisk.riskBlocked = true) (k : Nat)
    (hk : ∀ m, m < k → statusTaken i (p + 1 + m) = false) :
    (trace i (p + 1 + k)).axil.riskBlockedLatch = true := by
  induction k with
  | zero => rw [Nat.add_zero, riskBlockedLatch_succ, h, Bool.true_or]
  | succ k ih =>
      rw [← Nat.add_assoc, riskBlockedLatch_succ, ih fun m hm => hk m (by omega),
        hk k (Nat.lt_succ_self k), Bool.not_false, Bool.and_true, Bool.or_true]

/-- **No block is lost**: the first read of the status after a block reports it. -/
theorem block_reported {p c : Nat} (h : (trace i p).uRisk.riskBlocked = true) (hpc : p < c)
    (hread : statusTaken i c = true) (hfirst : ∀ d, p < d → d < c → statusTaken i d = false) :
    (response i c).getLsbD 0 = true := by
  unfold statusTaken at hread
  rw [Bool.and_eq_true_iff, beq_iff_eq] at hread
  obtain ⟨k, rfl⟩ := Nat.exists_eq_add_of_lt hpc
  rw [response_eq hread.1, hread.2, readData_riskStatus, show p + k + 1 = p + 1 + k by omega]
  exact riskBlockedLatch_of_block h k fun m hm => hfirst _ (by omega) (by omega)

/-- **The read channel**: each address taken is acknowledged once, in the next cycle,
and has one response, which stays until it is taken; with a master that holds its
addresses these are the handshakes.  A response has the data of the address map exactly
if the address is not that of a bin that has counted, and a block is reported by the
first read of the status after it. -/
theorem reads_responded (i : Nat → LliuTopV2In) :
    (∀ n, (trace i (n + 1)).axilRead.sAxilArready = arTaken i n ∧
      count (arTaken i) n = count (rBeat i) n + (trace i n).axilRead.sAxilRvalid.toNat) ∧
    (HoldsAddress i → ∀ n, count (arBeat i) (n + 1) =
      count (rBeat i) n + (trace i n).axilRead.sAxilRvalid.toNat) ∧
    (∀ n, arTaken i n = true →
      (∀ k, (∀ m, m < k → (i (n + 1 + m)).sAxilRready = false) →
        (trace i (n + 1 + k)).axilRead.sAxilRvalid = true ∧
        (trace i (n + 1 + k)).axilRead.sAxilRdata = response i n) ∧
      (Documented (trace i n) (i n).sAxilAraddr (response i n) ↔
        ∀ k, (i n).sAxilAraddr = histBinAddr k →
          (trace i n).uHist.histBins (BitVec.ofNat 5 k.val) = 0)) ∧
    ∀ p c, (trace i p).uRisk.riskBlocked = true → p < c → statusTaken i c = true →
      (∀ d, p < d → d < c → statusTaken i d = false) → (response i c).getLsbD 0 = true :=
  ⟨fun n => ⟨sAxilArready_succ n, count_arTaken n⟩,
    fun hold n => (count_arBeat hold n).trans (count_arTaken n),
    fun _ h => ⟨response_stays h, documented_iff h⟩,
    fun _ _ hblock hpc hread hfirst => block_reported hblock hpc hread hfirst⟩

end Data

/-- An order that passes in cycle 114, four cycles after the end of another packet, and
a read of bin 4 in cycle 122. -/
def binRead (n : Nat) : LliuTopV2In :=
  { Schedule.inputs
      { axis := frameAt 0 (addFrame 1 buy 10 1000 0x4D53465420202020#64) ++
          frameAt 15 (addFrame 2 sell 10 1000 0x4D53465420202020#64) ++
          frameAt 26 (addFrame 3 buy 10 990 aapl) ++ [(110, 110, 0x0024000000000000#64)]
        axil := watchAapl } n with
    sAxisTlast := n == 110
    sAxilAraddr := 0x510#12
    sAxilArvalid := n == 122 }

/-- The bin has counted the order, and the read returns zero. -/
theorem binRead_zero : arTaken binRead 122 = true ∧ (binRead 122).sAxilAraddr = histBinAddr 4 ∧
    (trace binRead 122).uHist.histBins 4 = 1 ∧ response binRead 122 = 0 := by
  decide +kernel

end LliuTopV2

end Lliu
