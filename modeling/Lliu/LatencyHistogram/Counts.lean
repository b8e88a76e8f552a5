import Mathlib.Algebra.BigOperators.Fin
import Mathlib.Data.BitVec
import Mathlib.Tactic.IntervalCases
import Lliu.LatencyHistogram
import Lliu.PtpCore.Timestamps

/-!
# Lliu.LatencyHistogram.Counts

What the histogram should count.  `Pairing` pairs each end stamp with the latest
earlier start stamp that no other end has taken, and keeps the pairs completed since
the last clear; a pair is of the bin of its elapsed time, or of none.

An update takes three cycles.  It reads the bin two cycles before it writes it, and no
other update is under way then, so that no count is lost.  But a clear in these cycles
is undone for the bin, the module compares the sub-counts alone, and a start is lost if
another one replaces it or if it comes with the end of an earlier pair.
-/

namespace Lliu

open Hdl PtpTap

/-! ## the measure -/

/-- A start and an end stamp. -/
abbrev StampPair := BitVec 74 × BitVec 74

/-- The elapsed time of a pair, in cycles. -/
def elapsed (p : StampPair) : Int := stampTime p.2 - stampTime p.1

/-- The difference of the sub-counts of a pair. -/
def subDelta (p : StampPair) : Int := ((p.2.setWidth 10 - p.1.setWidth 10 : BitVec 10).toNat : Int)

/-- The pairs of bin `k`. -/
def binCount (l : List StampPair) (k : BitVec 5) : Nat :=
  l.countP fun p => elapsed p == k.toNat

/-- The pairs of no bin. -/
def overflowCount (l : List StampPair) : Nat :=
  l.countP fun p => decide (elapsed p < 0) || decide (31 < elapsed p)

/-- Stamps of less than 1024 cycles, with epochs some periods apart. -/
structure Near (p : StampPair) : Prop where
  nonneg : 0 ≤ elapsed p
  lt : elapsed p < 1024
  periods : (p.1.extractLsb' 10 64).toNat % 1024 = (p.2.extractLsb' 10 64).toNat % 1024

section Measure

variable {l : List StampPair}

theorem binCount_append (l₁ l₂ : List StampPair) (k : BitVec 5) :
    binCount (l₁ ++ l₂) k = binCount l₁ k + binCount l₂ k := List.countP_append

theorem overflowCount_append (l₁ l₂ : List StampPair) :
    overflowCount (l₁ ++ l₂) = overflowCount l₁ + overflowCount l₂ := List.countP_append

theorem binCount_cons_ofNat (p : StampPair) (k : Fin 32) :
    binCount (p :: l) (BitVec.ofNat 5 k) =
      binCount l (BitVec.ofNat 5 k) + if elapsed p = k.val then 1 else 0 := by
  unfold binCount
  rw [List.countP_cons, BitVec.toNat_ofNat, Nat.mod_eq_of_lt k.isLt]
  simp only [beq_iff_eq]

/-- A pair is in one bin or in none. -/
theorem sum_bin (p : StampPair) : (∑ k : Fin 32, if elapsed p = k.val then 1 else 0) +
    (if elapsed p < 0 ∨ 31 < elapsed p then 1 else 0) = 1 := by
  by_cases hovf : elapsed p < 0 ∨ 31 < elapsed p
  · have hnone : ∀ k : Fin 32, ¬ elapsed p = k.val := fun k hk => by
      have := k.isLt
      omega
    simp [hnone, hovf]
  · have hlt : (elapsed p).toNat < 32 := by omega
    have hone : ∀ k : Fin 32, elapsed p = k.val ↔ (⟨(elapsed p).toNat, hlt⟩ : Fin 32) = k :=
      fun k => by
        simp only [Fin.ext_iff]
        omega
    simp only [hone, Finset.sum_ite_eq, Finset.mem_univ, if_true, hovf, if_false]

/-- The bins and the overflow are as many as the pairs. -/
theorem sum_binCount (l : List StampPair) :
    (∑ k : Fin 32, binCount l (BitVec.ofNat 5 k)) + overflowCount l = l.length := by
  induction l with
  | nil => simp [binCount, overflowCount]
  | cons p l ih =>
      have hone := sum_bin p
      have hovf : overflowCount (p :: l) =
          overflowCount l + if elapsed p < 0 ∨ 31 < elapsed p then 1 else 0 := by
        unfold overflowCount
        rw [List.countP_cons]
        simp only [Bool.or_eq_true, decide_eq_true_eq]
      simp only [binCount_cons_ofNat, hovf, Finset.sum_add_distrib, List.length_cons]
      omega

/-- The sub-counts of near stamps tell the elapsed time. -/
theorem Near.subDelta_eq {p : StampPair} (h : Near p) : subDelta p = elapsed p := by
  obtain ⟨hnonneg, hlt, hperiods⟩ := h
  have hsub : ∀ t : BitVec 74, t.setWidth 10 = t.extractLsb' 0 10 := fun t => by
    ext
    simp
  unfold elapsed stampTime at *
  unfold subDelta
  rw [hsub, hsub, BitVec.toNat_sub]
  have h1 := (p.1.extractLsb' 0 10).isLt
  have h2 := (p.2.extractLsb' 0 10).isLt
  omega

end Measure

/-- The sub-counts of a pair put it in the bin of its elapsed time, or in none. -/
def SameBin (p : StampPair) : Prop :=
  subDelta p = elapsed p ∨ (31 < subDelta p ∧ (elapsed p < 0 ∨ 31 < elapsed p))

/-! ### pairs -/

/-- The start stamps not taken, the latest first, and the pairs completed since the
last clear. -/
structure Pairing where
  starts : List (BitVec 74)
  since : List StampPair

namespace Pairing

/-- The pair that an end stamp completes. -/
def pair (p : Pairing) (i : LatencyHistogramIn) : Option StampPair :=
  if i.tEndValid then p.starts.head?.map fun t => (t, i.tEnd) else none

/-- One cycle.  An end takes a start of an earlier cycle; a pair completed with a
clear comes after it. -/
def step (p : Pairing) (i : LatencyHistogramIn) : Pairing where
  starts := (if i.tStartValid then [i.tStart] else []) ++
    if i.tEndValid then p.starts.tail else p.starts
  since := (if i.axilClear then [] else p.since) ++ (p.pair i).toList

end Pairing

namespace LatencyHistogram

/-- The state in cycle `n` of a run from reset. -/
def trace (i : Nat → LatencyHistogramIn) (n : Nat) : LatencyHistogram := run step reset i n

/-- The pairs of the inputs before cycle `n`. -/
def pairing (i : Nat → LatencyHistogramIn) (n : Nat) : Pairing := run Pairing.step ⟨[], []⟩ i n

/-! ## updates under way -/

/-- The start stamp held. -/
def held (s : LatencyHistogram) : Option (BitVec 74) := if s.tStartHeld then some s.tStartR else none

/-- An update of bin `k` whose pair has been compared. -/
def inDelta (s : LatencyHistogram) (k : BitVec 5) : Bool :=
  s.deltaValidR && !s.deltaOvfR && s.deltaR == k

/-- An update of bin `k` whose count has been read. -/
def inSel (s : LatencyHistogram) (k : BitVec 5) : Bool :=
  s.selValidR && !s.selOvfR && s.selIdxR == k

/-- No update is under way. -/
structure Drained (s : LatencyHistogram) : Prop where
  delta : s.deltaValidR = false
  sel : s.selValidR = false

/-- The inputs of a cycle that the module measures as they shall be: an end takes the
start held, the pair is put in its bin, and no clear comes while an update is under way. -/
structure Exact (s : LatencyHistogram) (p : Pairing) (i : LatencyHistogramIn) : Prop where
  held : i.tEndValid = true → p.starts.head? = s.held
  binned : ∀ q, p.pair i = some q → SameBin q
  clear : i.axilClear = true → s.Drained

/-- The counts, with the updates under way, are those of the pairs. -/
structure Accounts (s : LatencyHistogram) (since : List StampPair) : Prop where
  bins : ∀ k, s.histBins k + BitVec.ofNat 32 ((s.inSel k).toNat + (s.inDelta k).toNat) =
    BitVec.ofNat 32 (binCount since k)
  overflow : s.overflowR + BitVec.ofNat 32 ((s.selValidR && s.selOvfR).toNat +
    (s.deltaValidR && s.deltaOvfR).toNat) = BitVec.ofNat 32 (overflowCount since)
  fresh : s.selValidR = true → s.selBinR = s.histBins s.selIdxR
  apart : s.deltaValidR = true → s.selValidR = false ∧ s.tStartHeld = false

theorem accounts_reset : Accounts reset [] where
  bins _ := rfl
  overflow := rfl
  fresh h := absurd h Bool.false_ne_true
  apart h := absurd h Bool.false_ne_true

/-! ## one cycle -/

section Step

variable {s : LatencyHistogram} {p : Pairing} {since : List StampPair} {i : LatencyHistogramIn}

/-- An end completes a pair with the start held. -/
theorem pair_eq (h : i.tEndValid = true → p.starts.head? = s.held) :
    p.pair i = if s.paired i then some (s.tStartR, i.tEnd) else none := by
  unfold Pairing.pair paired
  unfold held at h
  cases he : i.tEndValid with
  | false => simp
  | true =>
      rw [if_pos rfl, h he]
      cases s.tStartHeld <;> rfl

/-- A pair in its bin is compared as its elapsed time. -/
theorem delta_of_sameBin (h : SameBin (s.tStartR, i.tEnd)) (k : BitVec 5) :
    (elapsed (s.tStartR, i.tEnd) == (k.toNat : Int)) =
      (!(31#10).ult (s.delta i) && (s.delta i).setWidth 5 == k) := by
  have hd : subDelta (s.tStartR, i.tEnd) = ((s.delta i).toNat : Int) := rfl
  have hk := k.isLt
  unfold SameBin at h
  rw [hd] at h
  rw [Bool.eq_iff_iff]
  simp only [beq_iff_eq, Bool.and_eq_true, Bool.not_eq_true', BitVec.ult_eq_decide,
    decide_eq_false_iff_not, ← BitVec.toNat_inj, BitVec.toNat_setWidth, BitVec.toNat_ofNat]
  omega

theorem deltaOvf_of_sameBin (h : SameBin (s.tStartR, i.tEnd)) :
    (decide (elapsed (s.tStartR, i.tEnd) < 0) || decide (31 < elapsed (s.tStartR, i.tEnd))) =
      (31#10).ult (s.delta i) := by
  have hd : subDelta (s.tStartR, i.tEnd) = ((s.delta i).toNat : Int) := rfl
  unfold SameBin at h
  rw [hd] at h
  rw [Bool.eq_iff_iff]
  simp only [Bool.or_eq_true, decide_eq_true_eq, BitVec.ult_eq_decide, BitVec.toNat_ofNat]
  omega

/-- A new pair is an update of its bin. -/
theorem binCount_pair (h : s.Exact p i) (k : BitVec 5) :
    binCount (p.pair i).toList k = ((s.step i).inDelta k).toNat := by
  have hbinned := h.binned
  rw [pair_eq h.held] at hbinned ⊢
  unfold inDelta step
  by_cases hp : s.paired i = true
  · have hbin := delta_of_sameBin (hbinned _ (if_pos hp)) k
    simp only [hp, if_true, Option.toList_some, binCount, List.countP_singleton, hbin, Bool.true_and]
    cases !(31#10).ult (s.delta i) && (s.delta i).setWidth 5 == k <;> rfl
  · simp [hp, binCount]

theorem overflowCount_pair (h : s.Exact p i) : overflowCount (p.pair i).toList =
    ((s.step i).deltaValidR && (s.step i).deltaOvfR).toNat := by
  have hbinned := h.binned
  rw [pair_eq h.held] at hbinned ⊢
  unfold step
  by_cases hp : s.paired i = true
  · have hovf := deltaOvf_of_sameBin (hbinned _ (if_pos hp))
    simp only [hp, if_true, Option.toList_some, overflowCount, List.countP_singleton, hovf,
      Bool.true_and]
    cases (31#10).ult (s.delta i) <;> rfl
  · simp [hp, overflowCount]

/-- What a clear leaves of the pairs. -/
def kept (since : List StampPair) (i : LatencyHistogramIn) : List StampPair :=
  if i.axilClear then [] else since

theorem bins_step (h : Accounts s since) (hc : i.axilClear = true → s.Drained) (k : BitVec 5) :
    (s.step i).histBins k + BitVec.ofNat 32 ((s.step i).inSel k).toNat =
      BitVec.ofNat 32 (binCount (kept since i) k) := by
  have hsel : (s.step i).inSel k = s.inDelta k := rfl
  rw [hsel]
  unfold kept
  cases hclear : i.axilClear with
  | true =>
      obtain ⟨hdelta, hsel⟩ := hc hclear
      simp [step, inDelta, hdelta, hsel, hclear, binCount]
  | false =>
      have hbins := h.bins k
      have hwrite : (s.step i).histBins k = s.histBins k + BitVec.ofNat 32 (s.inSel k).toNat := by
        simp only [step, inSel, hclear]
        split
        · rename_i hw
          simp only [Bool.and_eq_true, beq_iff_eq] at hw
          obtain ⟨⟨hv, hovf⟩, rfl⟩ := hw
          simp [hv, hovf, h.fresh hv]
        · rename_i hw
          simp [hw]
      rw [hwrite, BitVec.add_assoc, ← BitVec.ofNat_add, hbins]
      rfl

theorem overflow_step (h : Accounts s since) (hc : i.axilClear = true → s.Drained) :
    (s.step i).overflowR + BitVec.ofNat 32 ((s.step i).selValidR && (s.step i).selOvfR).toNat =
      BitVec.ofNat 32 (overflowCount (kept since i)) := by
  have hsel : ((s.step i).selValidR && (s.step i).selOvfR) = (s.deltaValidR && s.deltaOvfR) := rfl
  rw [hsel]
  unfold kept
  cases hclear : i.axilClear with
  | true =>
      obtain ⟨hdelta, hsel⟩ := hc hclear
      simp [step, hdelta, hsel, hclear, overflowCount]
  | false =>
      have hwrite : (s.step i).overflowR =
          s.overflowR + BitVec.ofNat 32 (s.selValidR && s.selOvfR).toNat := by
        simp only [step, hclear]
        cases hw : s.selValidR && s.selOvfR <;> simp
      rw [hwrite, BitVec.add_assoc, ← BitVec.ofNat_add, h.overflow]
      rfl

/-- The bin is not written in the cycle in which it is read for an update. -/
theorem fresh_step (h : Accounts s since) (hc : i.axilClear = true → s.Drained)
    (hv : (s.step i).selValidR = true) :
    (s.step i).selBinR = (s.step i).histBins (s.step i).selIdxR := by
  change s.deltaValidR = true at hv
  have hclear : i.axilClear = false := by
    by_contra hne
    rw [Bool.not_eq_false] at hne
    rw [(hc hne).delta] at hv
    exact Bool.false_ne_true hv
  simp [step, (h.apart hv).1, hclear]

theorem apart_step (h : Accounts s since) (hv : (s.step i).deltaValidR = true) :
    (s.step i).selValidR = false ∧ (s.step i).tStartHeld = false := by
  change s.paired i = true at hv
  have hheld : s.tStartHeld = true := (Bool.and_eq_true _ _ ▸ hv : _ ∧ _).2
  have hdelta : s.deltaValidR = false := by
    by_contra hne
    rw [Bool.not_eq_false] at hne
    rw [(h.apart hne).2] at hheld
    exact Bool.false_ne_true hheld
  simp [step, hv, hdelta]

theorem Accounts.step (h : Accounts s p.since) (he : s.Exact p i) :
    Accounts (s.step i) (p.step i).since where
  bins k := by
    rw [BitVec.ofNat_add, ← BitVec.add_assoc, bins_step h he.clear k, ← binCount_pair he k,
      ← BitVec.ofNat_add, ← binCount_append]
    rfl
  overflow := by
    rw [BitVec.ofNat_add, ← BitVec.add_assoc, overflow_step h he.clear, ← overflowCount_pair he,
      ← BitVec.ofNat_add, ← overflowCount_append]
    rfl
  fresh := fresh_step h he.clear
  apart := apart_step h

end Step

/-! ## runs -/

section Trace

variable {i : Nat → LatencyHistogramIn} {n : Nat}

theorem accounts_trace (hi : ∀ m, m < n → Exact (trace i m) (pairing i m) (i m)) :
    Accounts (trace i n) (pairing i n).since := by
  induction n with
  | zero => exact accounts_reset
  | succ n ih => exact (ih fun m hm => hi m (Nat.lt_succ_of_lt hm)).step (hi n (Nat.lt_succ_self n))

/-- Without an update under way the counts are those of the pairs. -/
theorem Accounts.drained {s : LatencyHistogram} {since : List StampPair} (h : Accounts s since)
    (hd : s.Drained) : (∀ k, s.histBins k = BitVec.ofNat 32 (binCount since k)) ∧
    s.overflowR = BitVec.ofNat 32 (overflowCount since) := by
  obtain ⟨hdelta, hsel⟩ := hd
  constructor
  · intro k
    have hbins := h.bins k
    simpa [inSel, inDelta, hdelta, hsel] using hbins
  · have hovf := h.overflow
    simpa [hdelta, hsel] using hovf

/-- **Latency histogram**: in a run whose cycles are all exact, once no update is under
way each bin holds the number of the pairs of its elapsed time completed since the last
clear, the overflow that of the other pairs, and all together that of the pairs. -/
theorem counts_exact (hi : ∀ m, m < n → Exact (trace i m) (pairing i m) (i m))
    (hd : (trace i n).Drained) :
    (∀ k, (trace i n).histBins k = BitVec.ofNat 32 (binCount (pairing i n).since k)) ∧
    (trace i n).overflowR = BitVec.ofNat 32 (overflowCount (pairing i n).since) ∧
    (∑ k : Fin 32, (trace i n).histBins (BitVec.ofNat 5 k)) + (trace i n).overflowR =
      BitVec.ofNat 32 (pairing i n).since.length := by
  obtain ⟨hbins, hovf⟩ := (accounts_trace hi).drained hd
  refine ⟨hbins, hovf, ?_⟩
  simp only [hbins, hovf]
  rw [← sum_binCount (pairing i n).since]
  simp only [← BitVec.natCast_eq_ofNat]
  push_cast
  rfl

end Trace

/-- A start stamp `a` in cycle 0, an end stamp `b` in cycle 1 and a clear in cycle `c`. -/
def clearedAt (a b : BitVec 74) (c n : Nat) : LatencyHistogramIn where
  tStart := a
  tStartValid := n == 0
  tEnd := b
  tEndValid := n == 1
  axilClear := n == c

/-- Stamps five cycles apart, and no clear: one count in bin 5. -/
theorem clearedAt_counted : (trace (clearedAt 7 12 9) 4).histBins 5 = 1 := by
  have hbin : SameBin (7, 12) := Or.inl (Near.subDelta_eq ⟨by decide, by decide, by decide⟩)
  have hexact : ∀ m, m < 4 →
      Exact (trace (clearedAt 7 12 9) m) (pairing (clearedAt 7 12 9) m) (clearedAt 7 12 9 m) :=
    fun m hm =>
      { held := by interval_cases m <;> decide
        binned := fun q hq => by
          have hpair : (pairing (clearedAt 7 12 9) m).pair (clearedAt 7 12 9 m) = none ∨
              (pairing (clearedAt 7 12 9) m).pair (clearedAt 7 12 9 m) = some (7, 12) := by
            interval_cases m <;> decide
          simp only [hq, reduceCtorEq, Option.some.injEq, false_or] at hpair
          exact hpair ▸ hbin
        clear := fun h => by
          have : m = 9 := by simpa [clearedAt] using h
          omega }
  exact (counts_exact hexact ⟨by decide, by decide⟩).1 5

/-- A clear in the cycle after the end leaves the pair counted. -/
theorem clearedAt_uncleared : (trace (clearedAt 7 12 2) 4).Drained ∧
    (pairing (clearedAt 7 12 2) 4).since = [] ∧ (trace (clearedAt 7 12 2) 4).histBins 5 = 1 :=
  ⟨⟨by decide, by decide⟩, by decide, by decide⟩

end LatencyHistogram

end Lliu
