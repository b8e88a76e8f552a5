import Lliu.Axi4LiteSlave.Reads
import Lliu.FeatureExtractor.Ticks
import Lliu.Hdl.Store
import Lliu.LliuTop.Lossless
import Mathlib.Data.List.Find

/-!
# Lliu.LliuTop.Host

The first version as its host sees it.  A host programs the weights with AXI4-Lite writes and
reads results; the market sends messages.  When the messages are far enough apart, every read
is answered with what a calculation without pipeline gives: the score of the newest message
that is 34 cycles old, made of the messages since the last soft reset and of the weights as
programmed (`reads_answered`).
-/

namespace Lliu

open Hdl

/-! ## the weights as programmed -/

/-- The weight that a command writes. -/
def Axi4LiteSlave.Command.weight? : Axi4LiteSlave.Command → Option (Nat × Bfloat16T)
  | .weight addr data => some (addr.toNat, data)
  | _ => none

/-- The weights after some AXI4-Lite writes, each an address and a data word. -/
def weightsAfter (w : Nat → Bfloat16T) (xs : List (BitVec 8 × BitVec 32)) : Nat → Bfloat16T :=
  store w ((feed Axi4LiteSlave.Controls.write Axi4LiteSlave.reset.controls xs).2.filterMap
    Axi4LiteSlave.Command.weight?)

namespace LliuTop

/-- The inputs of the control plane. -/
def axilIns (msgBuf : BitVec 7 → BitVec 8) (w : Nat → Bfloat16T) (i : Nat → LliuTopIn) (n : Nat) :
    Axi4LiteSlaveIn := (trace msgBuf w i n).axilIn (i n)

/-! ## what the host expects -/

/-- The cycles of the messages since the last soft reset, the newest first. -/
def messages (msgBuf : BitVec 7 → BitVec 8) (w : Nat → Bfloat16T) (i : Nat → LliuTopIn) : Nat → List Nat
  | 0 => []
  | n + 1 =>
      if (trace msgBuf w i n).sysRst then []
      else if (trace msgBuf w i n).parserFieldsValid then n :: messages msgBuf w i n
      else messages msgBuf w i n

section Expected

variable (msgBuf : BitVec 7 → BitVec 8) (w : Nat → Bfloat16T) (i : Nat → LliuTopIn)

/-- The message of cycle `n`. -/
def tickAt (n : Nat) : Tick where
  price := (trace msgBuf w i n).uParser.uFieldExtract.price
  side := (trace msgBuf w i n).uParser.uFieldExtract.side

/-- Weight `k` as programmed before cycle `n`. -/
def weightAt (n : Nat) (k : Fin featureVecLen) : Bfloat16T :=
  weightsAfter w (Axi4LiteSlave.writes (axilIns msgBuf w i) n) k

/-- The score of the message of cycle `m`.  Weight `k` is the one of cycle `m + 4 + k`. -/
def score (m : Nat) : Float32T :=
  DotProductEngine.mergeOver (DotProductEngine.retainedAccs featureVecLen)
    ((List.finRange featureVecLen).map fun k =>
      (Desk.toBf16 (Tick.feature ((messages msgBuf w i m).map (tickAt msgBuf w i)) (tickAt msgBuf w i m) k),
        weightAt msgBuf w i (m + 4 + k) k))

/-- The newest message that has a result in cycle `n`. -/
def latest (n : Nat) : Option Nat := (messages msgBuf w i n).find? fun m => m + 35 ≤ n

/-- A message is being fed to the engine. -/
def busy (n : Nat) : Bool := (messages msgBuf w i n).any fun m => m + 4 ≤ n && n ≤ m + 8

/-- The answer to a read accepted in cycle `r.1`, of address `r.2`. -/
def reply (r : Nat × BitVec 8) : BitVec 32 :=
  Axi4LiteSlave.readMap r.2
    { (i (r.1 + 1)).axil with
      statusResultReady := (latest msgBuf w i (r.1 + 1)).isSome
      statusBusy := busy msgBuf w i (r.1 + 1)
      resultData := (latest msgBuf w i (r.1 + 1)).elim 0 (score msgBuf w i) }

end Expected

section Run

variable {msgBuf : BitVec 7 → BitVec 8} {w : Nat → Bfloat16T} {i : Nat → LliuTopIn}

/-! ## the control plane and the weights -/

/-- The control plane and the weights go on through a soft reset. -/
theorem step_axil_mem (s : LliuTop) (j : LliuTopIn) : (s.step j).uAxil = s.uAxil.step (s.axilIn j) ∧
    (s.step j).uWeightMem.mem = (s.uWeightMem.step s.weightIn).mem := by
  rw [step]
  cases s.sysRst with
  | true => exact ⟨rfl, rfl⟩
  | false =>
      rw [if_neg Bool.false_ne_true]
      cases s.seqState with
      | seqIdle =>
          simp only [stepIdle]
          split <;> exact ⟨rfl, rfl⟩
      | seqPreload => exact ⟨rfl, rfl⟩
      | seqFeed =>
          simp only [stepFeed]
          split <;> exact ⟨rfl, rfl⟩

theorem uAxil_trace (n : Nat) :
    (trace msgBuf w i n).uAxil = Axi4LiteSlave.trace (axilIns msgBuf w i) n := by
  induction n with
  | zero => rfl
  | succ n ih =>
      have hstep := (step_axil_mem (trace msgBuf w i n) (i n)).1
      rw [ih] at hstep
      exact hstep

/-- A weight written is a command of the cycle. -/
theorem mem_succ (n : Nat) : (trace msgBuf w i (n + 1)).uWeightMem.mem =
    store (trace msgBuf w i n).uWeightMem.mem
      ((trace msgBuf w i n).uAxil.commands.filterMap Axi4LiteSlave.Command.weight?) := by
  have hstep := (step_axil_mem (trace msgBuf w i n) (i n)).2
  have hwrite : ((trace msgBuf w i n).uAxil.commands.filterMap Axi4LiteSlave.Command.weight?) =
      if (trace msgBuf w i n).uAxil.wgtWrEn then
        [((trace msgBuf w i n).uAxil.wgtAddrReg.toNat, (trace msgBuf w i n).uAxil.wgtWrData)]
      else [] := by
    rw [Axi4LiteSlave.commands]
    cases (trace msgBuf w i n).uAxil.ctrlStart <;> cases (trace msgBuf w i n).uAxil.ctrlSoftReset <;>
      cases (trace msgBuf w i n).uAxil.wgtWrEn <;> cases (trace msgBuf w i n).uAxil.camWrValid <;>
      cases (trace msgBuf w i n).uAxil.axilClear <;> rfl
  rw [hwrite]
  refine hstep.trans ?_
  rw [WeightMem.step, weightIn]
  cases (trace msgBuf w i n).uAxil.wgtWrEn <;> rfl

/-- The weights in memory are those programmed a cycle before. -/
theorem mem_trace (n : Nat) (k : Fin featureVecLen) :
    (trace msgBuf w i (n + 1)).uWeightMem.mem k = weightAt msgBuf w i n k := by
  have hrun : (trace msgBuf w i (n + 1)).uWeightMem.mem =
      store w ((List.range (n + 1)).flatMap fun n =>
        (trace msgBuf w i n).uAxil.commands.filterMap Axi4LiteSlave.Command.weight?) :=
    store_run (m := fun n => (trace msgBuf w i n).uWeightMem.mem) mem_succ (n + 1)
  have hcmd := (Axi4LiteSlave.executes_processed (i := axilIns msgBuf w i)).feed_eq n
  simp only [uAxil_trace] at hrun
  rw [← List.filterMap_flatMap, hcmd.2] at hrun
  exact congrFun hrun k

/-! ## the messages -/

theorem mem_messages {m n : Nat} (h : m ∈ messages msgBuf w i n) : m < n ∧
    (trace msgBuf w i m).parserFieldsValid = true := by
  induction n with
  | zero => exact absurd h List.not_mem_nil
  | succ n ih =>
      rw [messages] at h
      split_ifs at h with hr hv
      · exact absurd h List.not_mem_nil
      · obtain rfl | hold := List.mem_cons.mp h
        · exact ⟨Nat.lt_succ_self m, hv⟩
        · exact ⟨Nat.lt_succ_of_lt (ih hold).1, (ih hold).2⟩
      · exact ⟨Nat.lt_succ_of_lt (ih h).1, (ih h).2⟩

/-- A message stays until a soft reset. -/
theorem mem_messages_of_quiet {m d : Nat} (hv : (trace msgBuf w i m).parserFieldsValid = true)
    (hr : ∀ c, c ≤ d → (trace msgBuf w i (m + c)).sysRst = false) : m ∈ messages msgBuf w i (m + d + 1) := by
  induction d with
  | zero =>
      have hquiet : (trace msgBuf w i m).sysRst = false := hr 0 (Nat.le_refl 0)
      rw [Nat.add_zero, messages, if_neg (by rw [hquiet]; decide), if_pos hv]
      exact List.mem_cons_self
  | succ d ih =>
      have hold := ih fun c hc => hr c (Nat.le_succ_of_le hc)
      have hquiet : (trace msgBuf w i (m + (d + 1))).sysRst = false := hr (d + 1) (Nat.le_refl _)
      rw [messages, if_neg (by rw [hquiet]; decide)]
      split
      · exact List.mem_cons_of_mem _ hold
      · exact hold

theorem pairwise_messages (n : Nat) : (messages msgBuf w i n).Pairwise (· > ·) := by
  induction n with
  | zero => exact .nil
  | succ n ih =>
      rw [messages]
      split_ifs
      · exact .nil
      · exact .cons (fun m hm => (mem_messages hm).1) ih
      · exact ih

/-- The feature extractor remembers them. -/
theorem remembers_trace (n : Nat) : (trace msgBuf w i n).uFeatExtract.Remembers
    ((messages msgBuf w i n).map (tickAt msgBuf w i)) := by
  induction n with
  | zero => exact FeatureExtractor.remembers_reset
  | succ n ih =>
      have hstep : (trace msgBuf w i (n + 1)).uFeatExtract =
          if (trace msgBuf w i n).sysRst then .reset
          else (trace msgBuf w i n).uFeatExtract.step (trace msgBuf w i n).featIn :=
        (instances_step_ite _ _).2.1
      rw [hstep, messages]
      split_ifs with hr hv
      · exact FeatureExtractor.remembers_reset
      · have hnext := ih.step (trace msgBuf w i n).featIn
        have hvalid : (trace msgBuf w i n).featIn.fieldsValid = true := hv
        rw [FeatureExtractor.next, if_pos hvalid] at hnext
        exact hnext
      · have hnext := ih.step (trace msgBuf w i n).featIn
        have hvalid : ¬ (trace msgBuf w i n).featIn.fieldsValid = true := hv
        rw [FeatureExtractor.next, if_neg hvalid] at hnext
        exact hnext

/-! ## the results -/

/-- The result of a message is its score. -/
theorem dpResult_of_fieldsValid (hspaced : Spaced msgBuf w i) {m : Nat}
    (h : (trace msgBuf w i m).parserFieldsValid = true) :
    (trace msgBuf w i (m + 34)).dpResult = score msgBuf w i m := by
  have hund := undisturbed_of_fieldsValid hspaced h
  have hfeat := (features_trace h fun d hd => (hspaced m h).sysRst d (by omega)).1
  have hshift : trace msgBuf w i (m + 34) =
      run step (trace msgBuf w i (m + 3)) (fun k => i (m + 3 + k)) latency := by
    rw [← trace_add, latency]
  rw [hshift, dpResult_run hund, score]
  congr 1
  refine List.map_congr_left fun k _ => ?_
  rw [fedPair, hfeat, ← trace_add, (remembers_trace m).vector, show m + 3 + (k + 2) = m + 4 + k + 1 by omega,
    mem_trace]
  rfl

theorem uOutBuf_succ (n : Nat) : (trace msgBuf w i (n + 1)).uOutBuf =
    if (trace msgBuf w i n).sysRst then .reset
    else (trace msgBuf w i n).uOutBuf.step (trace msgBuf w i n).dpResult
      (trace msgBuf w i n).dpResultValid := by
  change ((trace msgBuf w i n).step (i n)).uOutBuf = _
  rw [step]
  cases (trace msgBuf w i n).sysRst with
  | true => rfl
  | false =>
      rw [if_neg Bool.false_ne_true, if_neg Bool.false_ne_true]
      cases (trace msgBuf w i n).seqState with
      | seqIdle =>
          simp only [stepIdle]
          split <;> rfl
      | seqPreload => rfl
      | seqFeed =>
          simp only [stepFeed]
          split <;> rfl

/-- The first that is old enough is the newest of them. -/
theorem find?_of_pairwise {l : List Nat} (h : l.Pairwise (· > ·)) {m : Nat} (hm : m ∈ l) {b : Nat}
    (hmb : m + b = n) : l.find? (fun k => k + b ≤ n) = some m := by
  induction l with
  | nil => exact absurd hm List.not_mem_nil
  | cons a l ih =>
      obtain ⟨hgt, hrest⟩ := List.pairwise_cons.mp h
      obtain rfl | hin := List.mem_cons.mp hm
      · exact List.find?_cons_of_pos (decide_eq_true (Nat.le_of_eq hmb))
      · have hlt := hgt m hin
        rw [List.find?_cons_of_neg (by simp only [decide_eq_true_eq]; omega), ih hrest hin]

/-- **Step lemma**: a result makes its message the latest, and a soft reset makes it none. -/
theorem latest_succ (hspaced : Spaced msgBuf w i) (n : Nat) : latest msgBuf w i (n + 1) =
    if (trace msgBuf w i n).sysRst then none
    else if (trace msgBuf w i n).dpResultValid then some (n - 34) else latest msgBuf w i n := by
  cases hr : (trace msgBuf w i n).sysRst with
  | true =>
      rw [latest, messages, if_pos hr]
      rfl
  | false =>
      rw [if_neg Bool.false_ne_true]
      cases hd : (trace msgBuf w i n).dpResultValid with
      | true =>
          obtain ⟨m, hm, rfl⟩ := dpResultValid_trace hspaced hd
          have hin : m ∈ messages msgBuf w i (m + 34 + 1) := by
            refine mem_messages_of_quiet hm fun c hc => ?_
            obtain hlt | rfl := Nat.lt_succ_iff_lt_or_eq.mp (Nat.lt_succ_of_le hc)
            · exact (hspaced m hm).sysRst c hlt
            · exact hr
          rw [if_pos rfl, Nat.add_sub_cancel, latest]
          exact find?_of_pairwise (pairwise_messages _) hin rfl
      | false =>
          have hsame : ∀ m ∈ messages msgBuf w i n,
              decide (m + 35 ≤ n + 1) = decide (m + 35 ≤ n) := by
            intro m hm
            have hne : m + 34 ≠ n := by
              rintro rfl
              rw [dpResultValid_of_fieldsValid hspaced (mem_messages hm).2] at hd
              exact absurd hd (by decide)
            exact decide_eq_decide.mpr (by omega)
          rw [if_neg Bool.false_ne_true, latest, messages, if_neg (by rw [hr]; decide)]
          split
          · rw [List.find?_cons_of_neg (by simp only [decide_eq_true_eq]; omega)]
            exact List.find?_congr hsame
          · exact List.find?_congr hsame

/-- **Run lemma**: the output buffer has the score of the latest message. -/
theorem uOutBuf_trace (hspaced : Spaced msgBuf w i) (n : Nat) : (trace msgBuf w i n).uOutBuf =
    (latest msgBuf w i n).elim .reset fun m => ⟨score msgBuf w i m, true⟩ := by
  induction n with
  | zero => rfl
  | succ n ih =>
      rw [uOutBuf_succ, latest_succ hspaced]
      cases hr : (trace msgBuf w i n).sysRst with
      | true => rfl
      | false =>
          rw [if_neg Bool.false_ne_true, if_neg Bool.false_ne_true]
          cases hd : (trace msgBuf w i n).dpResultValid with
          | true =>
              obtain ⟨m, hm, rfl⟩ := dpResultValid_trace hspaced hd
              rw [if_pos rfl, Nat.add_sub_cancel, dpResult_of_fieldsValid hspaced hm]
              rfl
          | false =>
              rw [if_neg Bool.false_ne_true, ih]
              rfl

/-- The sequencer is busy from the fourth to the eighth cycle after a message. -/
theorem statusBusy_of_fieldsValid (hspaced : Spaced msgBuf w i) {m d : Nat}
    (h : (trace msgBuf w i m).parserFieldsValid = true) (h1 : 1 ≤ d) (hd : d ≤ 5) :
    (trace msgBuf w i (m + 3 + d)).statusBusy = true := by
  have hund := undisturbed_of_fieldsValid hspaced h
  have hstate : (run step (trace msgBuf w i (m + 3)) (fun k => i (m + 3 + k)) d).seqState ≠ .seqIdle := by
    match d, h1 with
    | 1, _ =>
        rw [(run_one hund).1]
        decide
    | d + 2, _ =>
        rw [(run_feed hund d (by omega)).1]
        decide
  rw [statusBusy, trace_add]
  exact bne_iff_ne.mpr hstate

/-- It is busy at no other time. -/
theorem statusBusy_trace (hspaced : Spaced msgBuf w i) (n : Nat) :
    (trace msgBuf w i n).statusBusy = busy msgBuf w i n := by
  rw [Bool.eq_iff_iff, busy, List.any_eq_true]
  constructor
  · intro h
    obtain hidle | ⟨a, d, rfl, h1, hd, hund⟩ := idle_or_busy hspaced n
    · rw [statusBusy, hidle.seqState] at h
      exact absurd h (by decide)
    · obtain ⟨m, rfl, hm, -⟩ := featValid_trace hund.taken
      have hd5 : d ≤ 5 := by
        by_contra hlate
        rw [statusBusy, trace_add, seqState_run hund d (by omega) hd] at h
        exact absurd h (by decide)
      refine ⟨m, ?_, by simp only [Bool.and_eq_true, decide_eq_true_eq]; omega⟩
      rw [show m + 3 + d = m + (d + 2) + 1 by omega]
      exact mem_messages_of_quiet hm fun c hc => (hspaced m hm).sysRst c (by rw [latency]; omega)
  · rintro ⟨m, hm, hwindow⟩
    simp only [Bool.and_eq_true, decide_eq_true_eq] at hwindow
    have hbusy := statusBusy_of_fieldsValid hspaced (mem_messages hm).2 (d := n - (m + 3)) (by omega)
      (by omega)
    rwa [show m + 3 + (n - (m + 3)) = n by omega] at hbusy

/-! ## the reads -/

theorem axilIn_trace (hspaced : Spaced msgBuf w i) (n : Nat) : axilIns msgBuf w i n =
    { (i n).axil with
      statusResultReady := (latest msgBuf w i n).isSome
      statusBusy := busy msgBuf w i n
      resultData := (latest msgBuf w i n).elim 0 (score msgBuf w i) } := by
  have hready : (trace msgBuf w i n).uOutBuf.resultReadyReg = (latest msgBuf w i n).isSome := by
    rw [uOutBuf_trace hspaced]
    cases latest msgBuf w i n <;> rfl
  have hresult : (trace msgBuf w i n).uOutBuf.resultOut =
      (latest msgBuf w i n).elim 0 (score msgBuf w i) := by
    rw [uOutBuf_trace hspaced]
    cases latest msgBuf w i n <;> rfl
  rw [axilIns, axilIn, hready, hresult, statusBusy_trace hspaced]

/-- **The host's view**: if all messages are alone, the responses to the reads accepted are, in
order, the answers that the host expects, and at most the last one is still to be transferred. -/
theorem reads_answered (msgBuf : BitVec 7 → BitVec 8) (w : Nat → Bfloat16T) (i : Nat → LliuTopIn)
    (hspaced : Spaced msgBuf w i) (n : Nat) :
    (Axi4LiteSlave.reads (axilIns msgBuf w i) n).map (reply msgBuf w i) =
      Axi4LiteSlave.replies (axilIns msgBuf w i) n ++
        (Axi4LiteSlave.waiting (axilIns msgBuf w i) n).toList := by
  rw [← Axi4LiteSlave.replies_eq]
  refine List.map_congr_left fun r _ => ?_
  rw [Axi4LiteSlave.answer, axilIn_trace hspaced, reply]

end Run

/-- A host that makes weight 2, that of the order flow, one, and reads `RESULT` in cycle 50; the
message, a buy, is parsed in cycle 16. -/
def hostRun (n : Nat) : LliuTopIn :=
  { addOrderBeat (if n < 10 then 5 else n - 10) with
    axil :=
      { axilQuiet with
        sAxilAwaddr := if n = 0 then 0x08 else 0x0C
        sAxilAwvalid := n < 2
        sAxilWdata := if n = 0 then 2 else 0x3F80
        sAxilWvalid := n < 2
        sAxilAraddr := 0x10
        sAxilArvalid := n == 50 } }

theorem spaced_hostRun : Spaced (fun _ => 0) (fun _ => 0) hostRun := by
  intro n hn
  have hquiet : Quiet (trace (fun _ => 0) (fun _ => 0) hostRun 60) := by decide +kernel
  have hbefore : ∀ n < 60, (trace (fun _ => 0) (fun _ => 0) hostRun n).parserFieldsValid = true → n = 16 := by
    decide +kernel
  have hbeats : ∀ n, 60 ≤ n → (hostRun n).sAxisTvalid = false := by
    intro n hn
    have hbeat : (hostRun n).sAxisTvalid = (addOrderBeat (n - 10)).sAxisTvalid := by
      rw [hostRun, if_neg (by omega)]
    rw [hbeat]
    exact decide_eq_false (by omega)
  have hone : n = 16 := by
    by_contra hne
    by_cases hlt : n < 60
    · exact hne (hbefore n hlt hn)
    · rw [(quiet_trace hquiet hbeats n (by omega)).fieldsValid] at hn
      exact absurd hn (by decide)
  have hgap : ∀ d < latency, 1 ≤ d →
      (trace (fun _ => 0) (fun _ => 0) hostRun (16 + d)).parserFieldsValid = false := by
    decide +kernel
  have hrst : ∀ d < latency + 3, (trace (fun _ => 0) (fun _ => 0) hostRun (16 + d)).sysRst = false := by
    decide +kernel
  rw [hone]
  exact ⟨fun d h1 hd => hgap d hd h1, hrst⟩

/-- The score is the order flow, one. -/
theorem hostRun_answered :
    Axi4LiteSlave.replies (axilIns (fun _ => 0) (fun _ => 0) hostRun) 53 = [0x3F800000#32] ∧
    (Axi4LiteSlave.reads (axilIns (fun _ => 0) (fun _ => 0) hostRun) 53).map
        (reply (fun _ => 0) (fun _ => 0) hostRun) =
      Axi4LiteSlave.replies (axilIns (fun _ => 0) (fun _ => 0) hostRun) 53 ++
        (Axi4LiteSlave.waiting (axilIns (fun _ => 0) (fun _ => 0) hostRun) 53).toList :=
  ⟨by decide +kernel, reads_answered _ _ hostRun spaced_hostRun 53⟩

end LliuTop

end Lliu
