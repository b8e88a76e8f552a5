import Lliu.LliuTop.Inference

/-!
# Lliu.LliuTop.Lossless

Messages against results.  A message whose `fields_valid` is high in cycle `n` is a
vector in cycle `n + 3`, and its result comes in cycle `n + 34`, as long as no other
message comes in the 30 cycles after it and no soft reset meanwhile
(`lossless_of_spaced`).  `pipeline_hold` does not see to that: the second of two Add
Orders in a row finds the engine draining, and has no result (`not_lossless_backToBack`).
-/

namespace Lliu

namespace LliuTop

open Hdl DotProductEngine

section Run

variable {msgBuf : BitVec 7 → BitVec 8} {w : Nat → Bfloat16T} {i : Nat → LliuTopIn}

/-- The registers in cycle `n` of a run from reset. -/
def trace (msgBuf : BitVec 7 → BitVec 8) (w : Nat → Bfloat16T) (i : Nat → LliuTopIn) (n : Nat) :
    LliuTop := run step (reset msgBuf w) i n

/-- From cycle `a` on the run is that from the state of cycle `a`. -/
theorem trace_add (a n : Nat) :
    trace msgBuf w i (a + n) = run step (trace msgBuf w i a) (fun m => i (a + m)) n :=
  run_add a n

/-! ## the promise -/

/-- The elements of the message of cycle `n`, each with the weight in memory when it is
read. -/
def messagePairs (msgBuf : BitVec 7 → BitVec 8) (w : Nat → Bfloat16T) (i : Nat → LliuTopIn)
    (n : Nat) : List (Bfloat16T × Bfloat16T) :=
  (List.finRange featureVecLen).map fun k =>
    ((trace msgBuf w i n).uFeatExtract.vector (trace msgBuf w i n).featIn k,
      (trace msgBuf w i (n + 5 + k)).uWeightMem.mem k)

/-- Messages and results correspond one to one and in order, and each result is that of the
engine for the vector of its own message and the weights. -/
def Lossless (msgBuf : BitVec 7 → BitVec 8) (w : Nat → Bfloat16T) (i : Nat → LliuTopIn) : Prop :=
  ∃ r : Nat → Nat,
    (∀ n, (trace msgBuf w i n).parserFieldsValid = true →
      n < r n ∧ (trace msgBuf w i (r n)).dpResultValid = true ∧
      (trace msgBuf w i (r n)).dpResult =
        mergeOver (retainedAccs featureVecLen) (messagePairs msgBuf w i n)) ∧
    (∀ n n', (trace msgBuf w i n).parserFieldsValid = true →
      (trace msgBuf w i n').parserFieldsValid = true → n < n' → r n < r n') ∧
    ∀ m, (trace msgBuf w i m).dpResultValid = true →
      ∃ n, (trace msgBuf w i n).parserFieldsValid = true ∧ r n = m

/-- No other message in the 30 cycles after that of cycle `n`, and no soft reset before its
result. -/
structure Alone (msgBuf : BitVec 7 → BitVec 8) (w : Nat → Bfloat16T) (i : Nat → LliuTopIn)
    (n : Nat) : Prop where
  gap : ∀ d, 1 ≤ d → d < latency → (trace msgBuf w i (n + d)).parserFieldsValid = false
  sysRst : ∀ d, d < latency + 3 → (trace msgBuf w i (n + d)).sysRst = false

/-- All messages are alone. -/
def Spaced (msgBuf : BitVec 7 → BitVec 8) (w : Nat → Bfloat16T) (i : Nat → LliuTopIn) : Prop :=
  ∀ n, (trace msgBuf w i n).parserFieldsValid = true → Alone msgBuf w i n

/-! ## the feature extractor -/

/-- The valid bits of its stages are handed on, and a soft reset clears them. -/
theorem valid_succ (n : Nat) :
    ((trace msgBuf w i (n + 1)).featValid = true →
      (trace msgBuf w i n).uFeatExtract.validD2 = true ∧ (trace msgBuf w i n).sysRst = false) ∧
    ((trace msgBuf w i (n + 1)).uFeatExtract.validD2 = true →
      (trace msgBuf w i n).uFeatExtract.validD1 = true ∧ (trace msgBuf w i n).sysRst = false) ∧
    ((trace msgBuf w i (n + 1)).uFeatExtract.validD1 = true →
      (trace msgBuf w i n).parserFieldsValid = true ∧ (trace msgBuf w i n).sysRst = false) := by
  have hstep : (trace msgBuf w i (n + 1)).uFeatExtract =
      if (trace msgBuf w i n).sysRst then .reset
      else (trace msgBuf w i n).uFeatExtract.step (trace msgBuf w i n).featIn :=
    (instances_step_ite _ _).2.1
  rw [featValid, hstep]
  cases (trace msgBuf w i n).sysRst with
  | true => simp [FeatureExtractor.reset]
  | false => exact ⟨fun h => ⟨h, rfl⟩, fun h => ⟨h, rfl⟩, fun h => ⟨h, rfl⟩⟩

/-- Every vector is that of a message three cycles before, without a soft reset since. -/
theorem featValid_trace {n : Nat} (h : (trace msgBuf w i n).featValid = true) :
    ∃ m, n = m + 3 ∧ (trace msgBuf w i m).parserFieldsValid = true ∧
      ∀ d, d < 3 → (trace msgBuf w i (m + d)).sysRst = false := by
  match n with
  | 0 => exact absurd (show false = true from h) (by decide)
  | 1 => exact absurd (show false = true from ((valid_succ _).1 h).1) (by decide)
  | 2 =>
      obtain ⟨hd2, -⟩ := (valid_succ _).1 h
      exact absurd (show false = true from ((valid_succ _).2.1 hd2).1) (by decide)
  | m + 3 =>
      obtain ⟨hd2, hr2⟩ := (valid_succ _).1 h
      obtain ⟨hd1, hr1⟩ := (valid_succ _).2.1 hd2
      obtain ⟨hfields, hr0⟩ := (valid_succ _).2.2 hd1
      refine ⟨m, rfl, hfields, fun d hd => ?_⟩
      match d, hd with
      | 0, _ => exact hr0
      | 1, _ => exact hr1
      | 2, _ => exact hr2

/-- The vector of a message is there three cycles later. -/
theorem features_trace {n : Nat} (h : (trace msgBuf w i n).parserFieldsValid = true)
    (hr : ∀ d, d < 3 → (trace msgBuf w i (n + d)).sysRst = false) :
    (trace msgBuf w i (n + 3)).uFeatExtract.features =
      (trace msgBuf w i n).uFeatExtract.vector (trace msgBuf w i n).featIn ∧
    (trace msgBuf w i (n + 3)).featValid = true := by
  have hstep : ∀ d, d < 3 → (trace msgBuf w i (n + d + 1)).uFeatExtract =
      (trace msgBuf w i (n + d)).uFeatExtract.step (trace msgBuf w i (n + d)).featIn :=
    fun d hd => (instances_step _ (hr d hd)).2.1
  have h1 := hstep 0 (by decide)
  have h2 := hstep 1 (by decide)
  have h3 := hstep 2 (by decide)
  rw [featValid, h3, h2, h1]
  exact FeatureExtractor.features_of_fieldsValid h _ _

/-! ## the invariant -/

/-- The engine is idle as well. -/
structure Idle (s : LliuTop) : Prop extends Free s where
  engine : s.uDpEngine.state = .sIdle

theorem idle_reset : Idle (reset msgBuf w) := ⟨⟨rfl, rfl, .inl rfl⟩, rfl⟩

/-- Without a vector a free state goes idle. -/
theorem Free.step {s : LliuTop} (h : Free s) (hv : s.featValid = false) (j : LliuTopIn) :
    Idle (s.step j) := by
  cases hr : s.sysRst with
  | true =>
      rw [LliuTop.step, if_pos hr]
      exact ⟨⟨rfl, rfl, .inl rfl⟩, rfl⟩
  | false =>
      have hengine : (s.step j).uDpEngine.state = .sIdle := by
        rw [(instances_step j hr).2.2.2]
        obtain hidle | hdone := h.uDpEngine
        · simp [DotProductEngine.step, DotProductEngine.stepIdle, DotProductEngine.advance, hidle,
            dpeIn, h.dpStart]
        · simp [DotProductEngine.step, hdone]
      refine ⟨⟨?_, ?_, .inl hengine⟩, hengine⟩
      · simp [step_seqIdle j hr h.seqState, stepIdle, hv, advance, h.seqState]
      · simp [step_seqIdle j hr h.seqState, stepIdle, hv, advance]

/-- A vector that is taken in a run whose messages are alone is undisturbed. -/
theorem undisturbed_of_free (hspaced : Spaced msgBuf w i) {n : Nat}
    (h : Free (trace msgBuf w i n)) (hv : (trace msgBuf w i n).featValid = true) :
    Undisturbed (trace msgBuf w i n) (fun m => i (n + m)) := by
  obtain ⟨m, rfl, hm, -⟩ := featValid_trace hv
  have halone := hspaced m hm
  refine ⟨h, hv, fun d hd => ?_, fun d h1 hd => ?_⟩
  · rw [← trace_add, Nat.add_assoc]
    exact halone.sysRst (3 + d) (by omega)
  · rw [← trace_add, Bool.eq_false_iff]
    intro hvalid
    obtain ⟨k, hk, hfields, -⟩ := featValid_trace hvalid
    obtain rfl : k = m + d := by omega
    rw [halone.gap d h1 hd] at hfields
    exact absurd hfields (by decide)

/-- **Run lemma**: if all messages are alone, then in every cycle the engine is idle, or a
vector was taken at most 31 cycles ago, and undisturbed. -/
theorem idle_or_busy (hspaced : Spaced msgBuf w i) (n : Nat) : Idle (trace msgBuf w i n) ∨
    ∃ a d, n = a + d ∧ 1 ≤ d ∧ d ≤ latency ∧
      Undisturbed (trace msgBuf w i a) (fun m => i (a + m)) := by
  have hfree : ∀ n, Free (trace msgBuf w i n) → Idle (trace msgBuf w i (n + 1)) ∨
      ∃ a d, n + 1 = a + d ∧ 1 ≤ d ∧ d ≤ latency ∧
        Undisturbed (trace msgBuf w i a) (fun m => i (a + m)) := by
    intro n h
    cases hv : (trace msgBuf w i n).featValid with
    | false => exact .inl (h.step hv _)
    | true => exact .inr ⟨n, 1, rfl, Nat.le_refl 1, by decide, undisturbed_of_free hspaced h hv⟩
  induction n with
  | zero => exact .inl idle_reset
  | succ n ih =>
      obtain hidle | ⟨a, d, rfl, h1, hd, hund⟩ := ih
      · exact hfree n hidle.toFree
      · by_cases hlast : d = latency
        · -- the cycle of the result
          refine hfree (a + d) ?_
          rw [hlast, trace_add]
          exact free_run hund
        · exact .inr ⟨a, d + 1, by omega, by omega, by omega, hund⟩

/-- Every message is taken. -/
theorem undisturbed_of_fieldsValid (hspaced : Spaced msgBuf w i) {n : Nat}
    (h : (trace msgBuf w i n).parserFieldsValid = true) :
    Undisturbed (trace msgBuf w i (n + 3)) (fun m => i (n + 3 + m)) := by
  have hv := (features_trace h fun d hd => (hspaced n h).sysRst d (by omega)).2
  refine undisturbed_of_free hspaced ?_ hv
  obtain hidle | ⟨a, d, heq, h1, hd, hund⟩ := idle_or_busy hspaced (n + 3)
  · exact hidle.toFree
  · rw [heq, trace_add] at hv ⊢
    by_cases hlast : d = latency
    · rw [hlast]
      exact free_run hund
    · rw [hund.alone d h1 (by omega)] at hv
      exact absurd hv (by decide)

/-- Every result is that of a message 34 cycles before. -/
theorem dpResultValid_trace (hspaced : Spaced msgBuf w i) {n : Nat}
    (h : (trace msgBuf w i n).dpResultValid = true) :
    ∃ m, (trace msgBuf w i m).parserFieldsValid = true ∧ m + 34 = n := by
  obtain hidle | ⟨a, d, rfl, h1, hd, hund⟩ := idle_or_busy hspaced n
  · simp [dpResultValid, DotProductEngine.resultValid, hidle.engine] at h
  · rw [trace_add, dpResultValid_run hund d h1 hd, decide_eq_true_eq] at h
    obtain ⟨m, rfl, hm, -⟩ := featValid_trace hund.taken
    exact ⟨m, hm, by rw [h, latency]⟩

/-- Every message has a result 34 cycles later. -/
theorem dpResultValid_of_fieldsValid (hspaced : Spaced msgBuf w i) {n : Nat}
    (h : (trace msgBuf w i n).parserFieldsValid = true) :
    (trace msgBuf w i (n + 34)).dpResultValid = true := by
  have hund := undisturbed_of_fieldsValid hspaced h
  have hvalid := dpResultValid_run hund latency (by decide) (Nat.le_refl _)
  rw [← trace_add] at hvalid
  exact hvalid.trans (decide_eq_true rfl)

/-- **Messages against results**: if in a run no message comes within 30 cycles after
another, and no soft reset before its result, then messages and results correspond, and
each result is that of its own message. -/
theorem lossless_of_spaced (msgBuf : BitVec 7 → BitVec 8) (w : Nat → Bfloat16T)
    (i : Nat → LliuTopIn) (hspaced : Spaced msgBuf w i) : Lossless msgBuf w i := by
  refine ⟨fun n => n + 34, fun n h => ?_, fun n n' _ _ hlt => Nat.add_lt_add_right hlt 34, ?_⟩
  · have hund := undisturbed_of_fieldsValid hspaced h
    have hfeat := (features_trace h fun d hd => (hspaced n h).sysRst d (by omega)).1
    have hshift : trace msgBuf w i (n + 34) =
        run step (trace msgBuf w i (n + 3)) (fun m => i (n + 3 + m)) latency := by
      rw [← trace_add, latency]
    have hpairs : (List.finRange featureVecLen).map
        (fedPair (trace msgBuf w i (n + 3)) fun m => i (n + 3 + m)) =
        messagePairs msgBuf w i n := by
      refine List.map_congr_left fun k _ => ?_
      rw [fedPair, hfeat, ← trace_add, show n + 3 + (k + 2) = n + 5 + k by omega]
    have hresult : (trace msgBuf w i (n + 34)).dpResult =
        mergeOver (retainedAccs featureVecLen) (messagePairs msgBuf w i n) := by
      rw [hshift, dpResult_run hund, hpairs]
    exact ⟨Nat.lt_add_of_pos_right (by decide), dpResultValid_of_fieldsValid hspaced h, hresult⟩
  · intro m hm
    exact dpResultValid_trace hspaced hm

/-! ## after the last message -/

/-- Nothing is under way, and the parser is not at the end of a message. -/
structure Quiet (s : LliuTop) : Prop extends Idle s where
  parser : s.uParser.msgValid = false
  fieldsValid : s.parserFieldsValid = false
  validD1 : s.uFeatExtract.validD1 = false
  validD2 : s.uFeatExtract.validD2 = false
  featValid : s.featValid = false

instance (s : LliuTop) : Decidable (Quiet s) :=
  decidable_of_iff ((s.seqState = .seqIdle ∧ s.dpStart = false ∧ s.uDpEngine.state = .sIdle) ∧
      s.uParser.msgValid = false ∧ s.parserFieldsValid = false ∧
      s.uFeatExtract.validD1 = false ∧ s.uFeatExtract.validD2 = false ∧ s.featValid = false)
    ⟨fun ⟨⟨h1, h2, h3⟩, h4, h5, h6, h7, h8⟩ => ⟨⟨⟨h1, h2, .inl h3⟩, h3⟩, h4, h5, h6, h7, h8⟩,
      fun h => ⟨⟨h.seqState, h.dpStart, h.engine⟩, h.parser, h.fieldsValid, h.validD1, h.validD2,
        h.featValid⟩⟩

/-- Without a beat the parser stays where it is. -/
theorem msgValid_step {s : ItchParser} {j : ItchParserIn} (h : s.msgValid = false)
    (hj : j.sAxisTvalid = false) : (s.step j).msgValid = false := by
  have hbeat : s.beat j = false := by simp [ItchParser.beat, hj]
  rw [ItchParser.msgValid] at h ⊢
  cases hstate : s.state with
  | sIdle => simp [ItchParser.step, ItchParser.stepIdle, hstate, hbeat]
  | sAccumulate => simp [ItchParser.step, ItchParser.stepAccumulate, hstate, hbeat]
  | sEmit => simp [hstate] at h

/-- Nor does anything else move. -/
theorem Quiet.step {s : LliuTop} (h : Quiet s) {j : LliuTopIn} (hj : j.sAxisTvalid = false) :
    Quiet (s.step j) := by
  have hidle := h.toFree.step h.featValid j
  cases hr : s.sysRst with
  | true =>
      have hreset : s.step j = s.softReset j := if_pos hr
      rw [hreset] at hidle ⊢
      exact ⟨hidle, rfl, rfl, rfl, rfl, rfl⟩
  | false =>
      obtain ⟨hparser, hfeat, -, -⟩ := instances_step j hr
      refine ⟨hidle, ?_, ?_, ?_, ?_, ?_⟩
      · rw [hparser]
        exact msgValid_step h.parser hj
      · rw [parserFieldsValid, hparser, ItchParser.uFieldExtract_step, ItchFieldExtract.step,
          h.parser, Bool.false_and]
      · rw [hfeat]
        exact h.fieldsValid
      · rw [hfeat]
        exact h.validD1
      · rw [LliuTop.featValid, hfeat]
        exact h.validD2

theorem quiet_trace {a : Nat} (ha : Quiet (trace msgBuf w i a))
    (hi : ∀ n, a ≤ n → (i n).sAxisTvalid = false) (n : Nat) (hn : a ≤ n) :
    Quiet (trace msgBuf w i n) := by
  induction n, hn using Nat.le_induction with
  | base => exact ha
  | succ n hn ih => exact ih.step (hi n hn)

theorem Quiet.dpResultValid {s : LliuTop} (h : Quiet s) : s.dpResultValid = false := by
  simp [LliuTop.dpResultValid, DotProductEngine.resultValid, h.engine]

end Run

/-! ## two messages in a row -/

/-- The control plane left alone. -/
def axilQuiet : Axi4LiteSlaveIn where
  sAxilAwaddr := 0
  sAxilAwvalid := false
  sAxilWdata := 0
  sAxilWvalid := false
  sAxilBready := true
  sAxilAraddr := 0
  sAxilArvalid := false
  sAxilRready := true
  statusResultReady := false
  statusBusy := false
  resultData := 0
  droppedFrames := 0
  droppedDatagrams := 0
  expectedSeqNum := 0
  gtxLock := false
  axilBinData := 0
  overflowBin := 0
  collisionCount := 0

/-- Beat `k` of an Add Order, a buy at 1000; from the fifth on there is none. -/
def addOrderBeat (k : Nat) : LliuTopIn where
  sAxisTdata := [0x0024410000000000#64, 0#64, 0x0000000000420000#64, 0#64,
    0x0000000003E80000#64].getD k 0
  sAxisTvalid := decide (k < 5)
  sAxisTlast := k == 4
  axil := axilQuiet

/-- Two of them, each beat held until it is taken: the second waits for `S_EMIT` with its
first beat, and for `pipeline_hold` with its fourth. -/
def backToBack (n : Nat) : LliuTopIn :=
  addOrderBeat (if n ≤ 4 then n else if n ≤ 6 then 0 else if n ≤ 8 then n - 6
    else if n ≤ 15 then 3 else n - 12)

theorem sAxisTvalid_backToBack (n : Nat) (hn : 50 ≤ n) : (backToBack n).sAxisTvalid = false := by
  have hbeat : backToBack n = addOrderBeat (n - 12) := by
    simp only [backToBack, if_neg (show ¬ n ≤ 4 by omega), if_neg (show ¬ n ≤ 6 by omega),
      if_neg (show ¬ n ≤ 8 by omega), if_neg (show ¬ n ≤ 15 by omega)]
  rw [hbeat]
  exact decide_eq_false (by omega)

/-- Both are messages, in the cycles 6 and 18, but there is one result. -/
theorem not_lossless_backToBack :
    (trace (fun _ => 0) (fun _ => 0) backToBack 6).parserFieldsValid = true ∧
    (trace (fun _ => 0) (fun _ => 0) backToBack 18).parserFieldsValid = true ∧
    (∀ n, (trace (fun _ => 0) (fun _ => 0) backToBack n).dpResultValid = true → n = 40) ∧
    ¬ Lossless (fun _ => 0) (fun _ => 0) backToBack := by
  have hfirst : (trace (fun _ => 0) (fun _ => 0) backToBack 6).parserFieldsValid = true := by
    decide +kernel
  have hsecond : (trace (fun _ => 0) (fun _ => 0) backToBack 18).parserFieldsValid = true := by
    decide +kernel
  have hbefore : ∀ n < 50, (trace (fun _ => 0) (fun _ => 0) backToBack n).dpResultValid = true →
      n = 40 := by
    decide +kernel
  have honly : ∀ n, (trace (fun _ => 0) (fun _ => 0) backToBack n).dpResultValid = true →
      n = 40 := by
    intro n hn
    by_cases hlt : n < 50
    · exact hbefore n hlt hn
    · have hquiet : Quiet (trace (fun _ => 0) (fun _ => 0) backToBack 50) := by decide +kernel
      have hover := quiet_trace hquiet sAxisTvalid_backToBack n (by omega)
      rw [hover.dpResultValid] at hn
      exact absurd hn (by decide)
  refine ⟨hfirst, hsecond, honly, fun ⟨r, hresult, horder, _⟩ => ?_⟩
  have hone := honly _ (hresult 6 hfirst).2.1
  have htwo := honly _ (hresult 18 hsecond).2.1
  have hlt := horder 6 18 hfirst hsecond (by decide)
  omega

/-- The first, and as many cycles after it as it takes a sell at 1500. -/
def spacedOrders (n : Nat) : LliuTopIn :=
  if n < latency then addOrderBeat n
  else
    { addOrderBeat (n - latency) with
      sAxisTdata := [0x0024410000000000#64, 0#64, 0x0000000000530000#64, 0#64,
        0x0000000005DC0000#64].getD (n - latency) 0 }

theorem sAxisTvalid_spacedOrders (n : Nat) (hn : 81 ≤ n) : (spacedOrders n).sAxisTvalid = false := by
  have hlatency : latency = 31 := rfl
  rw [spacedOrders, if_neg (by omega)]
  exact decide_eq_false (by omega)

/-- The weights 1 to 4. -/
def oneToFour (k : Nat) : Bfloat16T := [0x3F80, 0x4000, 0x4040, 0x4080].getD k 0

/-- What the run comes to. -/
theorem spacedOrders_facts :
    (∀ n < 81, (trace (fun _ => 0) oneToFour spacedOrders n).parserFieldsValid = true → n = 6 ∨ n = 37) ∧
    (∀ n < 72, (trace (fun _ => 0) oneToFour spacedOrders n).sysRst = false) ∧
    Quiet (trace (fun _ => 0) oneToFour spacedOrders 81) ∧
    (trace (fun _ => 0) oneToFour spacedOrders 40).dpResult = 0x447AC000 ∧
    (trace (fun _ => 0) oneToFour spacedOrders 71).dpResult = 0x43FA0000 := by
  decide +kernel

theorem parserFieldsValid_spacedOrders {n : Nat}
    (h : (trace (fun _ => 0) oneToFour spacedOrders n).parserFieldsValid = true) : n = 6 ∨ n = 37 := by
  obtain ⟨hbefore, -, hquiet, -⟩ := spacedOrders_facts
  by_cases hlt : n < 81
  · exact hbefore n hlt h
  · have hover := quiet_trace hquiet sAxisTvalid_spacedOrders n (by omega)
    rw [hover.fieldsValid] at h
    cases h

/-- Both have their results, 1003 and 500. -/
theorem lossless_spacedOrders :
    (trace (fun _ => 0) oneToFour spacedOrders 40).dpResult = 0x447AC000 ∧
    (trace (fun _ => 0) oneToFour spacedOrders 71).dpResult = 0x43FA0000 ∧
    Lossless (fun _ => 0) oneToFour spacedOrders := by
  obtain ⟨-, hrst, -, hfirst, hsecond⟩ := spacedOrders_facts
  refine ⟨hfirst, hsecond, lossless_of_spaced _ _ _ fun n hn => ?_⟩
  have hlatency : latency = 31 := rfl
  have hcycle := parserFieldsValid_spacedOrders hn
  refine ⟨fun d h1 hd => ?_, fun d hd => hrst _ (by omega)⟩
  by_contra hother
  rw [Bool.not_eq_false] at hother
  have hcycle' := parserFieldsValid_spacedOrders hother
  omega

end LliuTop

end Lliu
