import Lliu.LatencySva
import Lliu.LliuTop.Lossless

/-!
# Lliu.LliuTop.Contracts

The latency contracts of the bench against the first version, bound as in `tb_top`.  A vector comes
three cycles after its message, whatever else happens.  The first result after a reset comes 34
cycles after the first message: messages that follow it can be lost, but they do not delay it
(`dpResultValid_first`).  So the contracts hold in every run (`contracts_hold`).
-/

namespace Lliu

namespace LliuTop

open Hdl

/-! ## the first message -/

/-- The sequencer and the engine wait. -/
structure Waiting (s : LliuTop) : Prop where
  seqState : s.seqState = .seqIdle
  dpStart : s.dpStart = false
  uDpEngine : s.uDpEngine.state = .sIdle

/-- Nothing is on its way. -/
structure Drained (s : LliuTop) : Prop extends Waiting s where
  validD1 : s.uFeatExtract.validD1 = false
  validD2 : s.uFeatExtract.validD2 = false
  featValid : s.featValid = false

/-- Where the first message after a reset is, some cycles after its `fields_valid`. -/
inductive FirstMessage (s : LliuTop) : Nat → Prop where
  | stage1 (h : Waiting s) (h1 : s.uFeatExtract.validD1 = true) (h2 : s.uFeatExtract.validD2 = false)
      (hv : s.featValid = false) : FirstMessage s 1
  | stage2 (h : Waiting s) (h2 : s.uFeatExtract.validD2 = true) (hv : s.featValid = false) : FirstMessage s 2
  | vector (h : Waiting s) (hv : s.featValid = true) : FirstMessage s 3
  | preload (hseq : s.seqState = .seqPreload) (hidx : s.seqIdx = 0) (hstart : s.dpStart = true)
      (hengine : s.uDpEngine.state = .sIdle) : FirstMessage s 4
  | feed (k : Nat) (hk : k < 4) (hseq : s.seqState = .seqFeed) (hidx : s.seqIdx = BitVec.ofNat 3 k)
      (hvalid : s.dpFeatureValid = decide (1 ≤ k)) (hengine : s.uDpEngine.state = .sStream)
      (hlast : s.uDpEngine.macLastFed = false) (helem : s.uDpEngine.macElem = k - 1) :
      FirstMessage s (k + 5)
  | last (hvalid : s.dpFeatureValid = true) (hengine : s.uDpEngine.state = .sStream)
      (hlast : s.uDpEngine.macLastFed = false) (helem : s.uDpEngine.macElem = 3) : FirstMessage s 9
  | flush (k : Nat) (hk : k ≤ 5) (hengine : s.uDpEngine.state = .sStream)
      (hlast : s.uDpEngine.macLastFed = true) (hdrain : s.uDpEngine.macDrain = k) : FirstMessage s (k + 10)
  | drain (k : Nat) (hk : k ≤ 17) (hengine : s.uDpEngine.state = .sDrain)
      (hcnt : s.uDpEngine.drainCnt = k) : FirstMessage s (k + 16)
  | done (hengine : s.uDpEngine.state = .sDone) : FirstMessage s 34

section Step

variable {s : LliuTop} {i : LliuTopIn}

theorem engine_step (hr : s.sysRst = false) :
    (s.step i).uDpEngine = s.uDpEngine.step featureVecLen s.dpeIn := (instances_step i hr).2.2.2

theorem valid_step (hr : s.sysRst = false) :
    (s.step i).uFeatExtract.validD1 = s.parserFieldsValid ∧
    (s.step i).uFeatExtract.validD2 = s.uFeatExtract.validD1 ∧
    (s.step i).featValid = s.uFeatExtract.validD2 := by
  rw [featValid, (instances_step i hr).2.1]
  exact ⟨rfl, rfl, rfl⟩

/-- An idle engine that is not started stays idle. -/
theorem Waiting.engine (h : Waiting s) (hr : s.sysRst = false) : (s.step i).uDpEngine.state = .sIdle := by
  rw [engine_step hr]
  simp [DotProductEngine.step, DotProductEngine.stepIdle, DotProductEngine.advance, h.uDpEngine, dpeIn,
    h.dpStart]

theorem Waiting.step (h : Waiting s) (hr : s.sysRst = false) (hv : s.featValid = false) :
    Waiting (s.step i) := by
  have hstep : s.step i = s.advance i := by
    rw [step_seqIdle i hr h.seqState, stepIdle, if_neg (by rw [hv]; decide)]
  exact ⟨by rw [hstep]; exact h.seqState, by rw [hstep]; rfl, h.engine hr⟩

theorem drained_reset {msgBuf : BitVec 7 → BitVec 8} {w : Nat → Bfloat16T} : Drained (reset msgBuf w) :=
  ⟨⟨rfl, rfl, rfl⟩, rfl, rfl, rfl⟩

theorem drained_softReset (hr : s.sysRst = true) : Drained (s.step i) := by
  rw [step, if_pos hr]
  exact ⟨⟨rfl, rfl, rfl⟩, rfl, rfl, rfl⟩

theorem Drained.step (h : Drained s) (hr : s.sysRst = false) (hf : s.parserFieldsValid = false) :
    Drained (s.step i) := by
  obtain ⟨h1, h2, hv⟩ := valid_step (i := i) hr
  exact ⟨h.toWaiting.step hr h.featValid, h1.trans hf, h2.trans h.validD1, hv.trans h.validD2⟩

/-- A message that finds nothing on its way is the first one. -/
theorem Drained.first (h : Drained s) (hr : s.sysRst = false) (hf : s.parserFieldsValid = true) :
    FirstMessage (s.step i) 1 := by
  obtain ⟨h1, h2, hv⟩ := valid_step (i := i) hr
  exact .stage1 (h.toWaiting.step hr h.featValid) (h1.trans hf) (h2.trans h.validD1) (hv.trans h.validD2)

theorem Drained.dpResultValid (h : Drained s) : s.dpResultValid = false := by
  simp [LliuTop.dpResultValid, DotProductEngine.resultValid, h.uDpEngine]

/-- **The first message goes through**: in each cycle it is one place further on, whatever messages
follow. -/
theorem FirstMessage.step {d : Nat} (h : FirstMessage s d) (hr : s.sysRst = false) (hd : d < 34) :
    FirstMessage (s.step i) (d + 1) := by
  obtain ⟨-, hd2, hfv⟩ := valid_step (i := i) hr
  have hengine := engine_step (i := i) hr
  cases h with
  | stage1 h h1 h2 hv => exact .stage2 (h.step hr hv) (hd2.trans h1) (hfv.trans h2)
  | stage2 h h2 hv => exact .vector (h.step hr hv) (hfv.trans h2)
  | vector h hv =>
      have hidle := h.engine (i := i) hr
      have hstep : s.step i = s.stepIdle (s.advance i) := step_seqIdle i hr h.seqState
      rw [stepIdle, if_pos hv] at hstep
      refine .preload ?_ ?_ ?_ hidle <;> rw [hstep]
  | preload hseq hidx hstart hidle =>
      have hstep := step_seqPreload i hr hseq
      refine .feed 0 (by decide) ?_ ?_ ?_ ?_ ?_ ?_
      · rw [hstep]
      · rw [hstep]; exact hidx
      · rw [hstep]; rfl
      all_goals
        rw [hengine]
        simp [DotProductEngine.step, hidle, DotProductEngine.stepIdle, dpeIn, hstart]
  | feed k hk hseq hidx hvalid hstream hlast helem =>
      have hstep := step_seqFeed i hr hseq
      have hmore := (seqIdx_eq hk).2.2
      -- the engine hears nothing with the first element, and then the one before
      have hfed : (s.step i).uDpEngine.state = .sStream ∧ (s.step i).uDpEngine.macLastFed = false ∧
          (s.step i).uDpEngine.macElem = k := by
        rw [hengine]
        have hwidth : featureVecLen % 8 - 1 = 3 := by decide
        have hpow : 2 ^ DotProductEngine.elemWidth featureVecLen = 8 := by decide
        by_cases h1 : 1 ≤ k
        · have hne : s.uDpEngine.macElem ≠ 3 := by omega
          have hnext : (s.uDpEngine.macElem + 1) % 8 = k := by omega
          simp [DotProductEngine.step, hstream, DotProductEngine.stepStream, hlast, dpeIn, hvalid, h1, hwidth,
            hpow, hne, hnext, DotProductEngine.advance]
        · have hzero : s.uDpEngine.macElem = k := by omega
          simp [DotProductEngine.step, hstream, DotProductEngine.stepStream, hlast, dpeIn, hvalid, h1, hzero,
            DotProductEngine.advance]
      obtain ⟨hstream', hlast', helem'⟩ := hfed
      by_cases hthree : k = 3
      · rw [stepFeed, hidx, if_pos (hmore.mpr hthree)] at hstep
        subst hthree
        exact .last (by rw [hstep]) hstream' hlast' helem'
      · rw [stepFeed, hidx, if_neg (fun h => hthree (hmore.mp h))] at hstep
        refine .feed (k + 1) (by omega) ?_ ?_ ?_ hstream' hlast' helem'
        · rw [hstep]; exact hseq
        · rw [hstep]; exact (BitVec.ofNat_add k 1).symm
        · rw [hstep]; simp
  | last hvalid hstream hlast helem =>
      have hwidth : featureVecLen % 2 ^ DotProductEngine.elemWidth featureVecLen - 1 = 3 := by decide
      refine .flush 0 (by decide) ?_ ?_ ?_
      all_goals
        rw [hengine]
        simp [DotProductEngine.step, hstream, DotProductEngine.stepStream, hlast, dpeIn, hvalid, hwidth, helem,
          DotProductEngine.advance]
  | flush k hk hstream hlast hdrain =>
      by_cases hfive : k = 5
      · subst hfive
        refine .drain 0 (by decide) ?_ ?_
        all_goals
          rw [hengine]
          simp [DotProductEngine.step, hstream, DotProductEngine.stepStream, hlast, hdrain]
      · have hnext : (k + 1) % 8 = k + 1 := by omega
        rw [show k + 10 + 1 = k + 1 + 10 by omega]
        refine .flush (k + 1) (by omega) ?_ ?_ ?_
        all_goals
          rw [hengine]
          simp [DotProductEngine.step, hstream, DotProductEngine.stepStream, hlast, hdrain, hfive, hnext,
            DotProductEngine.advance]
  | drain k hk hdrain hcnt =>
      have hexit : DotProductEngine.drainExitVal featureVecLen = 17 := by decide
      by_cases hseventeen : k = 17
      · subst hseventeen
        refine .done ?_
        rw [hengine]
        simp [DotProductEngine.step, hdrain, DotProductEngine.stepDrain, hcnt, hexit]
      · have hnext : (k + 1) % 32 = k + 1 := by omega
        rw [show k + 16 + 1 = k + 1 + 16 by omega]
        refine .drain (k + 1) (by omega) ?_ ?_
        all_goals
          rw [hengine]
          simp [DotProductEngine.step, hdrain, DotProductEngine.stepDrain, hcnt, hexit, hseventeen, hnext]
  | done _ => exact absurd hd (by decide)

/-- Its result comes in cycle 34. -/
theorem FirstMessage.dpResultValid {d : Nat} (h : FirstMessage s d) : s.dpResultValid = decide (d = 34) := by
  rw [LliuTop.dpResultValid, DotProductEngine.resultValid]
  cases h with
  | stage1 h | stage2 h | vector h => rw [h.uDpEngine]; decide
  | preload _ _ _ hengine => rw [hengine]; decide
  | last _ hengine => rw [hengine]; decide
  | done hengine => rw [hengine]; decide
  | feed k hk _ _ _ hengine | flush k hk hengine | drain k hk hengine =>
      rw [hengine, decide_eq_false (by omega)]
      rfl

theorem FirstMessage.le {d : Nat} (h : FirstMessage s d) : 1 ≤ d ∧ d ≤ 34 := by
  cases h <;> omega

/-! ## what is on its way -/

/-- The vectors and messages that a result may still come of. -/
def onTheWay (s : LliuTop) : Nat :=
  s.uFeatExtract.validD1.toNat + s.uFeatExtract.validD2.toNat + s.featValid.toNat + s.dpStart.toNat +
    (s.uDpEngine.state != .sIdle).toNat

theorem Drained.onTheWay (h : Drained s) : s.onTheWay = 0 := by
  simp [LliuTop.onTheWay, h.validD1, h.validD2, h.featValid, h.dpStart, h.uDpEngine]

/-- A vector is needed for a start. -/
theorem dpStart_step (hr : s.sysRst = false) : (s.step i).dpStart.toNat ≤ s.featValid.toNat := by
  cases hseq : s.seqState with
  | seqIdle =>
      rw [step_seqIdle i hr hseq, stepIdle]
      split <;> rename_i hv
      · rw [hv]
      · exact Nat.zero_le _
  | seqPreload => rw [step_seqPreload i hr hseq]; exact Nat.zero_le _
  | seqFeed =>
      have hstart : (s.step i).dpStart = false := by
        rw [step_seqFeed i hr hseq, stepFeed]
        split <;> rfl
      rw [hstart]
      exact Nat.zero_le _

/-- A start is needed for an inference, and an inference for a result. -/
theorem busy_step (e : DotProductEngine) (j : DpeIn) :
    ((e.step featureVecLen j).state != .sIdle).toNat + e.resultValid.toNat ≤
      (e.state != .sIdle).toNat + j.start.toNat := by
  have hbusy : ∀ d : DpeState, (d != .sIdle).toNat ≤ 1 := fun d => Bool.toNat_le _
  rw [DotProductEngine.resultValid]
  cases hstate : e.state with
  | sIdle =>
      cases hj : j.start with
      | false =>
          simp [DotProductEngine.step, hstate, DotProductEngine.stepIdle, hj, DotProductEngine.advance]
      | true => exact hbusy _
  | sStream => exact (hbusy _).trans (Nat.le_add_right _ _)
  | sDrain => exact (hbusy _).trans (Nat.le_add_right _ _)
  | sDone =>
      simp only [DotProductEngine.step, hstate]
      exact Nat.le_add_right 1 _

/-- Nothing comes of nothing. -/
theorem onTheWay_step (hr : s.sysRst = false) :
    (s.step i).onTheWay + s.dpResultValid.toNat ≤ s.onTheWay + s.parserFieldsValid.toNat := by
  obtain ⟨h1, h2, hv⟩ := valid_step (i := i) hr
  have hstart := dpStart_step (i := i) hr
  have hbusy := busy_step s.uDpEngine s.dpeIn
  rw [onTheWay, onTheWay, h1, h2, hv, engine_step hr, LliuTop.dpResultValid]
  change _ ≤ _ + s.dpStart.toNat at hbusy
  omega

theorem le_onTheWay : s.dpResultValid.toNat ≤ s.onTheWay := by
  have hone : s.dpResultValid = true → s.uDpEngine.state = .sDone := fun h => by
    simpa [LliuTop.dpResultValid, DotProductEngine.resultValid] using h
  rw [onTheWay]
  cases h : s.dpResultValid with
  | false => exact Nat.zero_le _
  | true =>
      rw [hone h]
      exact Nat.le_add_left _ _

end Step

/-! ## from messages to vectors -/

/-- What `feature_latency_sva` is bound to. -/
def featurePins (s : LliuTop) : LatencySvaIn := ⟨s.sysRst, s.parserFieldsValid, s.featValid⟩

/-- The starts of what is in the feature extractor. -/
def featureStarts (s : LliuTop) (c : BitVec 32) : List (BitVec 32) :=
  (if s.featValid then [c - 3] else []) ++ (if s.uFeatExtract.validD2 then [c - 2] else []) ++
    (if s.uFeatExtract.validD1 then [c - 1] else [])

section Contracts

variable {s : LliuTop} {i : LliuTopIn} {m : LatencySva}

theorem featureStarts_step (h : m.pendingStarts = s.featureStarts m.cycleCount) :
    (m.step s.featurePins).pendingStarts = (s.step i).featureStarts (m.step s.featurePins).cycleCount := by
  cases hr : s.sysRst with
  | true =>
      have hdrained := drained_softReset (i := i) hr
      rw [LatencySva.step_rst hr, featureStarts, hdrained.validD1, hdrained.validD2, hdrained.featValid]
      rfl
  | false =>
      obtain ⟨h1, h2, hv⟩ := valid_step (i := i) hr
      have hc3 : m.cycleCount + 1 - 3 = m.cycleCount - 2 := by bv_omega
      have hc2 : m.cycleCount + 1 - 2 = m.cycleCount - 1 := by bv_omega
      have hc1 : m.cycleCount + 1 - 1 = m.cycleCount := by bv_omega
      rw [LatencySva.step_run hr, featureStarts, h1, h2, hv, hc3, hc2, hc1, LatencySva.popped,
        LatencySva.pushed, h, featureStarts]
      cases hfv : s.featValid <;> cases hf : s.parserFieldsValid <;> simp [featurePins, hfv, hf]

theorem checkAll_featurePins (h : m.pendingStarts = s.featureStarts m.cycleCount) :
    m.checkAll 5 s.featurePins = [] := by
  have hc3 : m.cycleCount - (m.cycleCount - 3#32) = 3#32 := by bv_omega
  have hc2 : m.cycleCount - (m.cycleCount - 2#32) = 2#32 := by bv_omega
  have hc1 : m.cycleCount - (m.cycleCount - 1#32) = 1#32 := by bv_omega
  rw [LatencySva.checkAll, LatencySva.unmatched, LatencySva.sample, LatencySva.popped, LatencySva.pushed, h,
    featureStarts]
  cases hfv : s.featValid <;> cases hd2 : s.uFeatExtract.validD2 <;> cases hd1 : s.uFeatExtract.validD1 <;>
    cases hf : s.parserFieldsValid <;> simp [featurePins, hfv, hf, hc3, hc2, hc1]

/-! ## from messages to results -/

/-- What `end_to_end_latency_sva` is bound to. -/
def resultPins (s : LliuTop) : LatencySvaIn := ⟨s.sysRst, s.parserFieldsValid, s.dpResultValid⟩

/-- What the queue says of the design: there is a start for every result that may come, and until
the first result the oldest start is that of the first message. -/
structure Tracked (s : LliuTop) (m : LatencySva) : Prop where
  enough : s.onTheWay ≤ m.pendingStarts.length
  first : m.latencies = [] → Drained s ∧ m.pendingStarts = [] ∨
    ∃ d, FirstMessage s d ∧ m.pendingStarts.head? = some (m.cycleCount - BitVec.ofNat 32 d)

theorem Tracked.of_drained (h : Drained s) : Tracked s .reset :=
  ⟨by rw [h.onTheWay]; exact Nat.zero_le _, fun _ => .inl ⟨h, rfl⟩⟩

theorem Tracked.step (h : Tracked s m) : Tracked (s.step i) (m.step s.resultPins) := by
  cases hr : s.sysRst with
  | true =>
      rw [LatencySva.step_rst hr]
      exact .of_drained (drained_softReset hr)
  | false =>
      have hway := onTheWay_step (i := i) hr
      have henough := h.enough
      have hpushed : (m.pushed s.resultPins).length = m.pendingStarts.length + s.parserFieldsValid.toNat :=
        LatencySva.pushed_length
      rw [LatencySva.step_run hr]
      refine ⟨?_, fun hnone => ?_⟩
      · show _ ≤ (m.popped s.resultPins).length
        cases hv : s.dpResultValid with
        | false =>
            rw [LatencySva.popped_none hv, hpushed]
            rw [hv] at hway
            exact hway.trans (by omega)
        | true =>
            have hfinish : s.resultPins.finish = true := hv
            rw [LatencySva.popped, if_pos hfinish, List.length_tail, hpushed]
            rw [hv] at hway
            change _ + 1 ≤ _ at hway
            omega
      · obtain ⟨hnone, hsample⟩ := List.append_eq_nil_iff.mp hnone
        obtain ⟨hdrained, hnil⟩ | ⟨d, hfirst, hhead⟩ := h.first hnone
        · show _ ∧ m.popped s.resultPins = [] ∨ ∃ d, _ ∧ (m.popped s.resultPins).head? = _
          rw [LatencySva.popped_none hdrained.dpResultValid]
          cases hf : s.parserFieldsValid with
          | false => exact .inl ⟨hdrained.step hr hf, LatencySva.pushed_nil hnil hf⟩
          | true =>
              refine .inr ⟨1, hdrained.first hr hf, ?_⟩
              rw [LatencySva.head_pushed_nil hnil hf, List.head?_cons]
              exact congrArg some (by bv_omega)
        · have hhead' := LatencySva.head_pushed (i := s.resultPins) hhead
          -- no sample was taken, so this is not the cycle of the first result
          have hv : s.dpResultValid = false := by
            by_contra hv
            rw [Bool.not_eq_false] at hv
            rw [LatencySva.sample, if_pos (show s.resultPins.finish = true from hv), hhead'] at hsample
            exact List.cons_ne_nil _ _ hsample
          have hd : d ≠ 34 := of_decide_eq_false (hfirst.dpResultValid.symm.trans hv)
          have hle := hfirst.le
          refine .inr ⟨d + 1, hfirst.step hr (by omega), ?_⟩
          show (m.popped s.resultPins).head? = _
          rw [LatencySva.popped_none hv, hhead', BitVec.ofNat_add]
          exact congrArg some (by bv_omega)

/-- A result has a start. -/
theorem Tracked.pendingStarts_ne_nil (h : Tracked s m) (hv : s.dpResultValid = true) : m.pendingStarts ≠ [] := by
  have hone := le_onTheWay (s := s)
  have henough := h.enough
  rw [hv] at hone
  exact List.ne_nil_of_length_pos (Nat.lt_of_lt_of_le Nat.zero_lt_one (hone.trans henough))

/-- **The first latency** is 34 cycles. -/
theorem Tracked.check (h : Tracked s m) (limit : BitVec 32) : m.checkFirst limit s.resultPins =
    if !s.sysRst && s.dpResultValid && m.latencies.isEmpty && decide (limit ≤ 34) then [.exceeds 34]
    else [] := by
  cases hr : s.sysRst with
  | true => exact if_pos hr
  | false =>
      have hrst : s.resultPins.rst = false := hr
      rw [LatencySva.checkFirst, if_neg (by rw [hrst]; decide)]
      cases hv : s.dpResultValid with
      | false =>
          rw [LatencySva.unmatched, LatencySva.sample_none hv, show s.resultPins.finish = false from hv]
          rfl
      | true =>
          have hfinish : s.resultPins.finish = true := hv
          obtain ⟨a, as, hcons⟩ := List.exists_cons_of_ne_nil (h.pendingStarts_ne_nil hv)
          have hhead := LatencySva.head_pushed (i := s.resultPins) (by rw [hcons, List.head?_cons])
          have hunmatched : m.unmatched s.resultPins = [] := by
            have hnonempty : (m.pushed s.resultPins).isEmpty = false := by
              cases hp : m.pushed s.resultPins with
              | nil => rw [hp] at hhead; cases hhead
              | cons => rfl
            rw [LatencySva.unmatched, hnonempty, Bool.and_false]
            rfl
          have hsample : m.sample s.resultPins = some (m.cycleCount - a) := by
            rw [LatencySva.sample, if_pos hfinish, hhead]
            rfl
          rw [hunmatched, hsample, List.nil_append]
          cases hlat : m.latencies with
          | cons => simp
          | nil =>
              obtain ⟨hdrained, -⟩ | ⟨d, hfirst, hd⟩ := h.first hlat
              · rw [hdrained.dpResultValid] at hv
                cases hv
              · obtain rfl : d = 34 := of_decide_eq_true (hfirst.dpResultValid.symm.trans hv)
                rw [hcons, List.head?_cons, Option.some.injEq] at hd
                have hlatency : m.cycleCount - a = 34 := by rw [hd]; bv_omega
                rw [hlatency]
                by_cases hlimit : limit ≤ 34#32 <;> simp [hlimit]

end Contracts

/-! ## runs -/

section Run

variable {msgBuf : BitVec 7 → BitVec 8} {w : Nat → Bfloat16T} {i : Nat → LliuTopIn}

theorem tracked_trace (limit : BitVec 32) (n : Nat) : Tracked (trace msgBuf w i n)
    ((endToEndLatencySva limit).trace (fun k => (trace msgBuf w i k).resultPins) n) := by
  induction n with
  | zero => exact .of_drained drained_reset
  | succ n ih => exact ih.step

/-- A result outside a reset. -/
def resultCounts (s : LliuTop) : Bool := !s.sysRst && s.dpResultValid

/-- Before the first result that counts no latency is noted. -/
theorem latencies_eq_nil {limit : BitVec 32} {n : Nat}
    (h : ∀ k, k < n → (trace msgBuf w i k).resultCounts = false) :
    ((endToEndLatencySva limit).trace (fun k => (trace msgBuf w i k).resultPins) n).latencies = [] := by
  induction n with
  | zero => rfl
  | succ n ih =>
      show (LatencySva.step _ _).latencies = []
      cases hr : (trace msgBuf w i n).sysRst with
      | true => rw [LatencySva.step_rst hr]; rfl
      | false =>
          have hv : (trace msgBuf w i n).dpResultValid = false := by
            simpa [resultCounts, hr] using h n (Nat.lt_succ_self n)
          rw [LatencySva.step_run hr, LatencySva.sample_none hv]
          exact (List.append_nil _).trans (ih fun k hk => h k (by omega))

/-- The monitor has a complaint about the first result that counts, if the limit is not above 34. -/
theorem checkFirst_resultPins_iff (limit : BitVec 32) (k : Nat) :
    (endToEndLatencySva limit).check
        ((endToEndLatencySva limit).trace (fun k => (trace msgBuf w i k).resultPins) k)
        (trace msgBuf w i k).resultPins = [] ↔
    ¬ ((trace msgBuf w i k).resultCounts = true ∧
      ((endToEndLatencySva limit).trace (fun k => (trace msgBuf w i k).resultPins) k).latencies = [] ∧
      limit ≤ 34) := by
  have hcheck := (@tracked_trace msgBuf w i limit k).check limit
  rw [show (endToEndLatencySva limit).check = LatencySva.checkFirst limit from rfl, hcheck, resultCounts]
  split <;> simp_all

/-- The message of cycle `a` is the first after a reset, in which cycle `r` is the first one, and no
reset comes before its result. -/
structure FirstSince (msgBuf : BitVec 7 → BitVec 8) (w : Nat → Bfloat16T) (i : Nat → LliuTopIn)
    (r a : Nat) : Prop where
  reset : r = 0 ∨ ∃ k, r = k + 1 ∧ (trace msgBuf w i k).sysRst = true
  le : r ≤ a
  none : ∀ k, r ≤ k → k < a → (trace msgBuf w i k).parserFieldsValid = false
  message : (trace msgBuf w i a).parserFieldsValid = true
  sysRst : ∀ k, r ≤ k → k < a + 34 → (trace msgBuf w i k).sysRst = false

/-- Until then nothing is on its way. -/
theorem FirstSince.drained {r a : Nat} (h : FirstSince msgBuf w i r a) {n : Nat} (hr : r ≤ n) (hn : n ≤ a) :
    Drained (trace msgBuf w i n) := by
  induction n, hr using Nat.le_induction with
  | base =>
      obtain rfl | ⟨k, rfl, hk⟩ := h.reset
      · exact drained_reset
      · exact drained_softReset hk
  | succ n hr ih => exact (ih (by omega)).step (h.sysRst n hr (by omega)) (h.none n hr (by omega))

theorem FirstSince.firstMessage {r a : Nat} (h : FirstSince msgBuf w i r a) {d : Nat} (h1 : 1 ≤ d) (hd : d ≤ 34) :
    FirstMessage (trace msgBuf w i (a + d)) d := by
  have hle := h.le
  induction d, h1 using Nat.le_induction with
  | base => exact (h.drained hle (Nat.le_refl a)).first (h.sysRst a hle (by omega)) h.message
  | succ d h1 ih => exact (ih (by omega)).step (h.sysRst (a + d) (by omega) (by omega)) (by omega)

/-- **The first result** comes 34 cycles after the first message, whatever follows it. -/
theorem dpResultValid_first {r a : Nat} (h : FirstSince msgBuf w i r a) {n : Nat} (hr : r ≤ n) (hn : n ≤ a + 34) :
    (trace msgBuf w i n).dpResultValid = decide (n = a + 34) := by
  by_cases hle : n ≤ a
  · rw [(h.drained hr hle).dpResultValid, decide_eq_false (by omega)]
  · obtain ⟨d, rfl⟩ := Nat.exists_eq_add_of_lt (Nat.lt_of_not_le hle)
    rw [Nat.add_assoc, (h.firstMessage (by omega) (by omega)).dpResultValid]
    exact decide_eq_decide.mpr (by omega)

/-- **The contracts of the first version**: the bench never has a complaint about a vector.  About
the results it has none, in a run with results, just if the limit is above 34 cycles: every result
finds a start in the queue, and the first one after a reset comes 34 cycles after the first message. -/
theorem contracts_hold (msgBuf : BitVec 7 → BitVec 8) (w : Nat → Bfloat16T) (i : Nat → LliuTopIn)
    (limit : BitVec 32) (n : Nat) :
    featureLatencySva.report (fun k => (trace msgBuf w i k).featurePins) n = [] ∧
    ((endToEndLatencySva limit).report (fun k => (trace msgBuf w i k).resultPins) n = [] ↔
      34 < limit ∨
        ∀ k, k < n → (trace msgBuf w i k).sysRst = true ∨ (trace msgBuf w i k).dpResultValid = false) ∧
    ((trace msgBuf w i n).dpResultValid = true →
      ((endToEndLatencySva limit).trace (fun k => (trace msgBuf w i k).resultPins) n).pendingStarts ≠ []) ∧
    ∀ r a, FirstSince msgBuf w i r a → r ≤ n → n ≤ a + 34 →
      (trace msgBuf w i n).dpResultValid = decide (n = a + 34) := by
  refine ⟨?_, ?_, (tracked_trace limit n).pendingStarts_ne_nil, fun r a h => dpResultValid_first h⟩
  · exact Monitor.report_eq_nil
      (P := fun n m => m.pendingStarts = (trace msgBuf w i n).featureStarts m.cycleCount)
      rfl (fun _ h => featureStarts_step h) (fun _ h => checkAll_featurePins h) n
  · rw [Monitor.report_eq_nil_iff]
    constructor
    · intro h
      by_cases hlimit : 34 < limit
      · exact .inl hlimit
      · refine .inr fun k hk => by_contra fun hcon => ?_
        rw [not_or, Bool.not_eq_true, Bool.not_eq_false] at hcon
        obtain ⟨hr, hv⟩ := hcon
        obtain ⟨a, hle, ha, hfirst⟩ := exists_first (f := fun k => (trace msgBuf w i k).resultCounts) (k := k)
          (by rw [resultCounts, hr, hv]; rfl)
        exact (checkFirst_resultPins_iff limit a).mp (h a (by omega))
          ⟨ha, latencies_eq_nil hfirst, BitVec.not_lt.mp hlimit⟩
    · intro h k hk
      refine (checkFirst_resultPins_iff limit k).mpr fun ⟨hcounts, _, hlimit⟩ => ?_
      obtain hlt | hnone := h
      · exact absurd hlt (BitVec.not_lt.mpr hlimit)
      · rw [resultCounts, Bool.and_eq_true, Bool.not_eq_true'] at hcounts
        obtain hr | hv := hnone k hk
        · rw [hcounts.1] at hr
          cases hr
        · rw [hcounts.2] at hv
          cases hv

end Run

end LliuTop

end Lliu
