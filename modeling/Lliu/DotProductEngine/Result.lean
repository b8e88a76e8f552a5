import Lliu.DotProductEngine.Timing

/-!
# Lliu.DotProductEngine.Result

What the engine computes.  Each round-robin accumulator meets the recurrence of
`Hdl.DelayAcc` with operations at least five cycles apart, so it holds the left
fold `partialSum j` of its products (`accOut_inference`).

The merge accumulator meets the same recurrence, but its operations follow each
other every four cycles.  An operation therefore does not see its predecessor,
only the one before that, and the result is read one operation early: the
merge keeps every second partial sum (`mergeChain`) and drops the others.
-/

namespace Lliu

namespace DotProductEngine

open Hdl

/-! ## the sums -/

/-- The product of a feature/weight pair. -/
def pairProduct (p : Bfloat16T × Bfloat16T) : Float32T := bf16Product p.1 p.2

/-- `S_j`: the left fold of the module's addition, from `+0`, over the products
of the pairs with index `j` modulo five. -/
def partialSum (j : Nat) (ps : List (Bfloat16T × Bfloat16T)) : Float32T :=
  (ps.zipIdx.filter fun p => p.2 % 5 == j).foldl (fun a p => fp32Add a (pairProduct p.1)) 0#32

/-- The module's addition folded, from `+0`, over the partial sums listed. -/
def mergeOver (js : List Nat) (ps : List (Bfloat16T × Bfloat16T)) : Float32T :=
  js.foldl (fun a j => fp32Add a (partialSum j ps)) 0#32

/-- All five partial sums merged in order. -/
def mergedSum (ps : List (Bfloat16T × Bfloat16T)) : Float32T :=
  fp32Add (fp32Add (fp32Add (fp32Add (fp32Add 0#32 (partialSum 0 ps)) (partialSum 1 ps))
    (partialSum 2 ps)) (partialSum 3 ps)) (partialSum 4 ps)

/-- The sums an accumulator with operations four cycles apart builds up: each
operation sees the one two places earlier. -/
def mergeChain (S : Nat → Float32T) : Nat → Float32T
  | 0 => 0#32
  | 1 => 0#32
  | k + 2 => fp32Add (mergeChain S k) (S k)

/-- The partial sums the merge keeps: every second one below the last, which is
`S_1` and `S_3` for vectors of at least five elements. -/
def retainedAccs (vecLen : Nat) : List Nat :=
  (List.range (numAccsUsed vecLen)).filter fun j => (numAccsUsed vecLen - j) % 2 == 0

/-- A further pair goes to the partial sum of its index. -/
theorem partialSum_append_singleton (j : Nat) (ps : List (Bfloat16T × Bfloat16T))
    (p : Bfloat16T × Bfloat16T) :
    partialSum j (ps ++ [p]) =
      if ps.length % 5 = j then fp32Add (partialSum j ps) (pairProduct p)
      else partialSum j ps := by
  simp only [partialSum, List.zipIdx_append, List.filter_append, List.foldl_append]
  by_cases h : ps.length % 5 = j <;> simp [h]

/-! ## the round-robin accumulators -/

section Accumulators

variable {vecLen : Nat} {s : DotProductEngine} {i0 : DpeIn} {i : Nat → DpeIn} {t : Nat}

/-- The inputs of round-robin accumulator `j`. -/
def accIn (r : Nat → DotProductEngine) (j : Fin 5) (n : Nat) : Fp32AccIn where
  addend := (r n).uMul.result
  accEn := (r n).accEnR j
  accClear := (r n).accClear

/-- The inputs of the merge accumulator. -/
def mergeIn (r : Nat → DotProductEngine) (n : Nat) : Fp32AccIn where
  addend := (r n).mergeAddendR
  accEn := (r n).mergeEnR
  accClear := (r n).mergeClear

theorem acc_inference_succ (j : Fin 5) (n : Nat) :
    (inference vecLen s i0 i (n + 1)).acc j =
      ((inference vecLen s i0 i n).acc j).step (accIn (inference vecLen s i0 i) j n) := by
  rw [inference, run_succ, (datapath_step _ _).2.1]
  rfl

theorem uMerge_inference_succ (n : Nat) :
    (inference vecLen s i0 i (n + 1)).uMerge =
      (inference vecLen s i0 i n).uMerge.step (mergeIn (inference vecLen s i0 i) n) := by
  rw [inference, run_succ, (datapath_step _ _).2.2.2.2]
  rfl

/-- Two cycles after a dispatch its product is offered to the accumulator of
its element number. -/
theorem accIn_inference_add_two (hs : s.state = .sIdle) (h0 : i0.start = true)
    (ht : LastPairAt vecLen i t) (j : Fin 5) (n : Nat) (hn : n < resultCycle vecLen t) :
    (accIn (inference vecLen s i0 i) j (n + 2)).accEn =
      (decide (n ≤ t) && (i n).featureValid && (fedPairs i n).length % 5 == j.val) ∧
    (n ≤ t → (i n).featureValid = true → (accIn (inference vecLen s i0 i) j (n + 2)).addend =
      pairProduct ((i n).featureIn, (i n).weightIn)) := by
  have hstep1 : inference vecLen s i0 i (n + 1) = (inference vecLen s i0 i n).step vecLen (i n) := rfl
  have hstep2 : inference vecLen s i0 i (n + 2) =
    (inference vecLen s i0 i (n + 1)).step vecLen (i (n + 1)) := rfl
  have hdis := dispatch_inference hs h0 ht n hn
  obtain ⟨hv0, he0, -, -⟩ := @macPipe_step vecLen (inference vecLen s i0 i n) (i n)
  obtain ⟨-, -, hv1, he1⟩ :=
    @macPipe_step vecLen (inference vecLen s i0 i (n + 1)) (i (n + 1))
  rw [← hstep1] at hv0 he0
  rw [← hstep2] at hv1 he1
  constructor
  · simp only [accIn, accEnR, hv1, he1, hv0]
    rw [hdis]
    by_cases hd : (inference vecLen s i0 i n).dispatch (i n) = true
    · have hle : n ≤ t := by
        rw [hdis] at hd
        simp only [Bool.and_eq_true, decide_eq_true_eq] at hd
        exact hd.1
      rw [he0 hd, (inference_streaming hs h0 ht n hle).2.2]
    · rw [hdis] at hd
      simp [Bool.eq_false_iff.mpr hd]
  · intro hle hv
    have hd : (inference vecLen s i0 i n).dispatch (i n) = true := by simp [hdis, hle, hv]
    simp only [accIn]
    rw [hstep2, (datapath_step _ _).1, hstep1, (datapath_step _ _).1,
      Bfloat16Mul.result_step_step, mulA, mulB, if_pos hd, if_pos hd, pairProduct]

/-- Nothing is offered before the first product can have arrived. -/
theorem accIn_inference_one (hs : s.state = .sIdle) (h0 : i0.start = true) (j : Fin 5) :
    (accIn (inference vecLen s i0 i) j 1).accEn = false := by
  have hv := (@macPipe_step vecLen (s.step vecLen i0) (i 0)).2.2.1
  rw [(start_step s i0 hs h0).2.2.2.1] at hv
  simp only [accIn, accEnR, inference, run_succ, run_zero, hv, Bool.false_and]

/-- Round-robin accumulator `j` meets the recurrence over the inference. -/
theorem acc_delayAcc (hs : s.state = .sIdle) (h0 : i0.start = true)
    (ht : LastPairAt vecLen i t) (j : Fin 5) :
    DelayAcc 5 fp32Add 0#32 1 (resultCycle vecLen t)
      (fun n => (accIn (inference vecLen s i0 i) j n).accEn)
      (fun n => (accIn (inference vecLen s i0 i) j n).addend)
      (fun n => ((inference vecLen s i0 i n).acc j).accFb)
      (fun n => ((inference vecLen s i0 i n).acc j).accReg) := by
  apply Fp32Acc.delayAcc (a := fun n => (inference vecLen s i0 i n).acc j)
    (x := accIn (inference vecLen s i0 i) j)
  · exact acc_inference_succ j
  · rw [acc_inference_succ j 0]
    exact Fp32Acc.step_clear _ (start_step s i0 hs h0).2.2.2.2.2.1
  · intro k hk hkT
    exact (clear_inference hs h0 ht k hk (by omega)).1

/-- Products of one accumulator are at least five cycles apart: their element
numbers differ by five, and at most one pair is fed per cycle. -/
theorem acc_spacing (hs : s.state = .sIdle) (h0 : i0.start = true)
    (ht : LastPairAt vecLen i t) (j : Fin 5) (m n : Nat) (hm : 1 ≤ m) (hmn : m < n)
    (hn : n ≤ resultCycle vecLen t) (hem : (accIn (inference vecLen s i0 i) j m).accEn = true)
    (hen : (accIn (inference vecLen s i0 i) j n).accEn = true) : m + 5 ≤ n := by
  by_cases hm1 : m = 1
  · rw [hm1, accIn_inference_one hs h0] at hem
    contradiction
  obtain ⟨m', rfl⟩ : ∃ k, m = k + 2 := ⟨m - 2, by omega⟩
  obtain ⟨n', rfl⟩ : ∃ k, n = k + 2 := ⟨n - 2, by omega⟩
  rw [(accIn_inference_add_two hs h0 ht j m' (by omega)).1] at hem
  rw [(accIn_inference_add_two hs h0 ht j n' (by omega)).1] at hen
  simp only [Bool.and_eq_true, decide_eq_true_eq, beq_iff_eq] at hem hen
  have hnext := length_fedPairs_succ (i := i) m'
  rw [if_pos hem.1.2] at hnext
  have hmono := length_fedPairs_mono (i := i) (show m' + 1 ≤ n' by omega)
  have hadd := length_fedPairs_le_add (i := i) m' (n' - m')
  rw [show m' + (n' - m') = n' by omega] at hadd
  omega

/-- The operands issued to accumulator `j` are the products of its pairs. -/
theorem issuedFold_accIn (hs : s.state = .sIdle) (h0 : i0.start = true)
    (ht : LastPairAt vecLen i t) (j : Fin 5) (n : Nat) (hn : n ≤ t + 1) :
    issuedFold fp32Add 0#32 1 (fun n => (accIn (inference vecLen s i0 i) j n).accEn)
      (fun n => (accIn (inference vecLen s i0 i) j n).addend) (n + 2) =
      partialSum j (fedPairs i n) := by
  induction n with
  | zero =>
      rw [issuedFold, if_neg (by simp [accIn_inference_one hs h0]), issuedFold_of_le (le_refl _)]
      rfl
  | succ n ih =>
      have hT : n < resultCycle vecLen t := by rw [resultCycle]; omega
      obtain ⟨hen, hadd⟩ := accIn_inference_add_two hs h0 ht j n hT
      have hle : n ≤ t := by omega
      rw [show n + 1 + 2 = n + 2 + 1 by omega, issuedFold, ih (by omega), hen, fedPairs]
      cases hv : (i n).featureValid with
      | false => simp
      | true =>
          rw [if_pos rfl, partialSum_append_singleton, hadd hle hv]
          by_cases hj : (fedPairs i n).length % 5 = j.val <;> simp [hj, hle]

/-- **Partial sums**: eight cycles after the last pair every round-robin
accumulator holds its partial sum. -/
theorem accOut_inference (hs : s.state = .sIdle) (h0 : i0.start = true)
    (ht : LastPairAt vecLen i t) (j : Fin 5) (n : Nat) (hn : t + 8 ≤ n)
    (hT : n ≤ resultCycle vecLen t) :
    (inference vecLen s i0 i n).accOut j = partialSum j (fedPairs i (t + 1)) := by
  have hfold := (acc_delayAcc hs h0 ht j).acc_eq_fold (by omega) (acc_spacing hs h0 ht j)
    (n - 6) (by omega) (by omega)
  rw [show n - 6 + 5 + 1 = n by omega] at hfold
  rw [accOut, Fp32Acc.accOut, hfold, ← issuedFold_accIn hs h0 ht j (t + 1) (le_refl _)]
  apply issuedFold_of_quiet (by omega)
  intro k hk hkn
  obtain ⟨k', rfl⟩ : ∃ k', k = k' + 2 := ⟨k - 2, by omega⟩
  rw [(accIn_inference_add_two hs h0 ht j k' (by omega)).1]
  simp [show ¬ k' ≤ t by omega]

/-- One cycle earlier the last product is still in flight. -/
theorem accOut_inference_early (hs : s.state = .sIdle) (h0 : i0.start = true)
    (ht : LastPairAt vecLen i t) (j : Fin 5) :
    (inference vecLen s i0 i (t + 7)).accOut j = partialSum j (fedPairs i t) := by
  have hT : t + 8 ≤ resultCycle vecLen t := by rw [resultCycle]; omega
  have hfold := (acc_delayAcc hs h0 ht j).acc_eq_fold (by omega) (acc_spacing hs h0 ht j)
    (t + 1) (by omega) (by omega)
  rw [accOut, Fp32Acc.accOut, show t + 7 = t + 1 + 5 + 1 by omega, hfold]
  exact issuedFold_accIn hs h0 ht j t (by omega)

end Accumulators

/-! ## the merge accumulator -/

section Merge

variable {vecLen : Nat} {s : DotProductEngine} {i0 : DpeIn} {i : Nat → DpeIn} {t : Nat}

/-- The cycle in which the merge of partial sum `k` is issued. -/
def mergeCycle (t k : Nat) : Nat := t + 8 + 4 * k

/-- The feedback of the merge accumulator is `mergeChain` of the partial sums,
whichever of them each merge finds on its input. -/
theorem fb_mergeCycle {en : Nat → Bool} {x fb acc : Nat → Float32T} {e m : Nat}
    (h : DelayAcc 5 fp32Add 0#32 1 e en x fb acc) (hm : mergeCycle t m ≤ e)
    (hq : ∀ n, n < t + 8 → en n = false)
    (hen : ∀ k, k < 4 * m → en (t + 8 + k) = (k % 4 == 0)) (k : Nat) (hk : k ≤ m) :
    fb (mergeCycle t k) = mergeChain (fun j => x (mergeCycle t j)) k := by
  simp only [mergeCycle] at hm ⊢
  induction k using mergeChain.induct with
  | case1 =>
      exact h.fb_eq_zero (by omega) (by omega) (by omega) fun j _ hj => hq j (by omega)
  | case2 =>
      apply h.fb_eq_zero (by omega) (by omega) (by omega)
      intro j _ hj
      exact hq j (by omega)
  | case3 k ih =>
      have hissue : en (t + 8 + 4 * k) = true := by
        rw [hen _ (by omega)]
        simp
      have hquiet : ∀ j, t + 8 + 4 * k < j → j ≤ t + 8 + 4 * k + 3 → en j = false := by
        intro j hj hj3
        have hslot := hen (j - (t + 8)) (by omega)
        rw [show t + 8 + (j - (t + 8)) = j by omega] at hslot
        rw [hslot, beq_eq_false_iff_ne]
        omega
      have hadd := h.fb_add (by omega) (by omega) hissue (by omega) (by omega) hquiet
      rw [show t + 8 + 4 * (k + 2) = t + 8 + 4 * k + 3 + 5 by omega, hadd, ih (by omega)]
      rfl

/-- The merge accumulator meets the recurrence over the inference. -/
theorem merge_delayAcc (hs : s.state = .sIdle) (h0 : i0.start = true)
    (ht : LastPairAt vecLen i t) :
    DelayAcc 5 fp32Add 0#32 1 (resultCycle vecLen t)
      (fun n => (mergeIn (inference vecLen s i0 i) n).accEn)
      (fun n => (mergeIn (inference vecLen s i0 i) n).addend)
      (fun n => (inference vecLen s i0 i n).uMerge.accFb)
      (fun n => (inference vecLen s i0 i n).uMerge.accReg) := by
  apply Fp32Acc.delayAcc (a := fun n => (inference vecLen s i0 i n).uMerge)
    (x := mergeIn (inference vecLen s i0 i))
  · exact uMerge_inference_succ
  · rw [uMerge_inference_succ 0]
    exact Fp32Acc.step_clear _ (start_step s i0 hs h0).2.2.2.2.2.2
  · intro k hk hkT
    exact (clear_inference hs h0 ht k hk (by omega)).2

/-- Before the drain counter starts nothing is merged. -/
theorem mergeIn_inference_quiet (hs : s.state = .sIdle) (h0 : i0.start = true)
    (ht : LastPairAt vecLen i t) (n : Nat) (hn : n < t + 8) :
    (mergeIn (inference vecLen s i0 i) n).accEn = false := by
  cases n with
  | zero => exact (start_step s i0 hs h0).2.2.2.2.1
  | succ n =>
      have hstream : (inference vecLen s i0 i n).state = .sStream := by
        by_cases hle : n ≤ t
        · exact (inference_streaming hs h0 ht n hle).1
        · have h := (inference_macDrain hs h0 ht (n - (t + 1)) (by omega)).1
          rwa [show t + 1 + (n - (t + 1)) = n by omega] at h
      rw [mergeIn, inference, run_succ, (datapath_step _ _).2.2.2.1, ← inference]
      simp [mergeEn, hstream]

/-- The merge schedule: every fourth cycle is issued the partial sum whose turn
it is. -/
theorem mergeIn_inference (hs : s.state = .sIdle) (h0 : i0.start = true)
    (ht : LastPairAt vecLen i t) (k : Nat) (hk : k < 4 * numAccsUsed vecLen) :
    (mergeIn (inference vecLen s i0 i) (t + 8 + k)).accEn = (k % 4 == 0) ∧
    ∀ j : Fin 5, k = 4 * j.val → (mergeIn (inference vecLen s i0 i) (t + 8 + k)).addend =
      (inference vecLen s i0 i (t + 7 + k)).accOut j := by
  have hle := numAccsUsed_le vecLen
  obtain ⟨hst, hdr⟩ := inference_drainCnt hs h0 ht k (by rw [drainExitVal_eq]; omega)
  have hstep : inference vecLen s i0 i (t + 8 + k) =
      (inference vecLen s i0 i (t + 7 + k)).step vecLen (i (t + 7 + k)) := by
    rw [show t + 8 + k = t + 7 + k + 1 by omega]
    rfl
  obtain ⟨-, -, hadd, hen, -⟩ :=
    @datapath_step vecLen (inference vecLen s i0 i (t + 7 + k)) (i (t + 7 + k))
  constructor
  · rw [mergeIn, hstep, hen, mergeEn, hst, hdr, Bool.eq_iff_iff]
    simp only [beq_self_eq_true, Bool.true_and, Bool.or_eq_true, Bool.and_eq_true, beq_iff_eq,
      decide_eq_true_eq]
    omega
  · intro j hj
    rw [mergeIn, hstep, hadd, mergeAddend, hdr, hj]
    have h5 : j = 4 → 5 ≤ numAccsUsed vecLen := by rintro rfl; simp at hj; omega
    fin_cases j <;> simp_all

/-- The partial sum that is merged `k`-th.  The first merge reads its sum one
cycle before the last product has settled. -/
theorem merge_addend_inference (hs : s.state = .sIdle) (h0 : i0.start = true)
    (ht : LastPairAt vecLen i t) (k : Nat) (hk : k < numAccsUsed vecLen) :
    (mergeIn (inference vecLen s i0 i) (mergeCycle t k)).addend =
      partialSum k (if k = 0 then fedPairs i t else fedPairs i (t + 1)) := by
  have hle := numAccsUsed_le vecLen
  have hadd := (mergeIn_inference hs h0 ht (4 * k) (by omega)).2 ⟨k, by omega⟩ rfl
  rw [mergeCycle, hadd]
  by_cases hk0 : k = 0
  · subst hk0
    exact accOut_inference_early hs h0 ht 0
  · rw [if_neg hk0]
    apply accOut_inference hs h0 ht ⟨k, by omega⟩ _ (by omega)
    rw [resultCycle, drainExitVal_eq]
    omega

/-- The merges that reach the result, counted from the last. -/
theorem mergeChain_eq_mergeOver (ps : List (Bfloat16T × Bfloat16T)) :
    mergeChain (fun j => partialSum j ps) (numAccsUsed vecLen) =
      mergeOver (retainedAccs vecLen) ps := by
  have hle := numAccsUsed_le vecLen
  rw [retainedAccs]
  generalize numAccsUsed vecLen = m at hle
  interval_cases m <;> rfl

/-- `mergeChain` only reads the operands of the parity of its index. -/
theorem mergeChain_congr {S S' : Nat → Float32T} {m : Nat}
    (h : ∀ j, j < m → (m - j) % 2 = 0 → S j = S' j) : mergeChain S m = mergeChain S' m := by
  induction m using mergeChain.induct with
  | case1 => rfl
  | case2 => rfl
  | case3 k ih =>
      rw [mergeChain, mergeChain, h k (by omega) (by omega),
        ih fun j hj hpar => h j (by omega) (by omega)]

/-- **Result**: the engine adds up the retained partial sums only. -/
theorem result_inference (hs : s.state = .sIdle) (h0 : i0.start = true)
    (ht : LastPairAt vecLen i t) :
    (inference vecLen s i0 i (resultCycle vecLen t)).result =
      mergeOver (retainedAccs vecLen) (fedPairs i (t + 1)) := by
  have hL := ht.1
  have hpos : 1 ≤ numAccsUsed vecLen := numAccsUsed_pos (by omega)
  have hT : resultCycle vecLen t = mergeCycle t (numAccsUsed vecLen) + 1 := by
    rw [resultCycle, drainExitVal_eq, mergeCycle]
    omega
  have hacc := merge_delayAcc hs h0 ht
  have hread := hacc.acc_succ (mergeCycle t (numAccsUsed vecLen)) (by rw [mergeCycle]; omega)
    (by omega)
  have hfb := fb_mergeCycle hacc (by omega) (mergeIn_inference_quiet hs h0 ht)
    (fun k hk => (mergeIn_inference hs h0 ht k hk).1) _ (le_refl _)
  rw [result, Fp32Acc.accOut, hT, hread, hfb, ← mergeChain_eq_mergeOver]
  apply mergeChain_congr
  intro j hj hpar
  rw [merge_addend_inference hs h0 ht j hj]
  by_cases hj0 : j = 0
  · -- an even number of accumulators is 2 or 4, so the last pair is not of sum 0
    have hlast : (fedPairs i t).length % 5 ≠ 0 := by
      rw [numAccsUsed] at hpar hj
      split at hpar <;> omega
    rw [if_pos hj0, fedPairs, if_pos ht.2, hj0, partialSum_append_singleton, if_neg hlast]
  · rw [if_neg hj0]

/-- **Completeness of the dot product**: for every vector length, every stream
of pairs and every pattern of idle cycles, `result_valid` pulses once all pairs
have been fed, and the result combines all five partial sums exactly when the
sums that the merge skips do not contribute to the total. -/
theorem result_complete_iff (hs : s.state = .sIdle) (h0 : i0.start = true)
    (ht : LastPairAt vecLen i t) :
    (∀ n, n ≤ resultCycle vecLen t →
      (inference vecLen s i0 i n).resultValid = decide (n = resultCycle vecLen t)) ∧
    ((inference vecLen s i0 i (resultCycle vecLen t)).result = mergedSum (fedPairs i (t + 1)) ↔
      mergeOver (retainedAccs vecLen) (fedPairs i (t + 1)) =
        mergeOver [0, 1, 2, 3, 4] (fedPairs i (t + 1))) := by
  refine ⟨resultValid_inference hs h0 ht, ?_⟩
  rw [result_inference hs h0 ht]
  rfl

end Merge

/-! ## a vector of ones -/

/-- The stream that feeds `1.0 × 1.0` in each of the first four cycles. -/
def onesStream (n : Nat) : DpeIn where
  featureIn := 0x3F80#16
  featureValid := decide (n < 4)
  weightIn := 0x3F80#16
  start := false

/-- The cycle that starts an inference. -/
def startIn : DpeIn where
  featureIn := 0#16
  featureValid := false
  weightIn := 0#16
  start := true

theorem lastPairAt_onesStream : LastPairAt 4 onesStream 3 := ⟨rfl, rfl⟩

/-- Four products of one add up to `2.0`: the sums `S_1` and `S_3` are lost. -/
theorem result_complete_iff_ones :
    (∀ n, n ≤ resultCycle 4 3 →
      (inference 4 reset startIn onesStream n).resultValid = decide (n = resultCycle 4 3)) ∧
    ((inference 4 reset startIn onesStream (resultCycle 4 3)).result =
        mergedSum (fedPairs onesStream 4) ↔
      mergeOver (retainedAccs 4) (fedPairs onesStream 4) =
        mergeOver [0, 1, 2, 3, 4] (fedPairs onesStream 4)) :=
  result_complete_iff rfl rfl lastPairAt_onesStream

/-- The engine's answer for the vector of ones is `2.0`; the merge of its five
partial sums is `4.0`. -/
theorem result_ones_ne_mergedSum :
    (inference 4 reset startIn onesStream (resultCycle 4 3)).resultValid = true ∧
    (inference 4 reset startIn onesStream (resultCycle 4 3)).result = 0x40000000#32 ∧
    mergedSum (fedPairs onesStream 4) = 0x40800000#32 ∧
    (inference 4 reset startIn onesStream (resultCycle 4 3)).result ≠
      mergedSum (fedPairs onesStream 4) := by
  have hresult : (inference 4 reset startIn onesStream (resultCycle 4 3)).result =
      0x40000000#32 := by
    rw [result_inference rfl rfl lastPairAt_onesStream]
    decide +kernel
  have hsum : mergedSum (fedPairs onesStream 4) = 0x40800000#32 := by decide +kernel
  refine ⟨?_, hresult, hsum, ?_⟩
  · rw [resultValid_inference rfl rfl lastPairAt_onesStream _ (le_refl _), decide_eq_true rfl]
  · rw [hresult, hsum]
    decide

end DotProductEngine

end Lliu
