import Lliu.LliuTop.Lossless

/-!
# Lliu.LliuTop.Spacing

How close messages may come.  The engine needs 29 cycles from `start` to a result, and
`start` is that of a message of four cycles before, with no soft reset since
(`dpStart_trace`).  So the messages whose results all come in time are exactly those
without another in the 30 cycles after them, and without a soft reset (`results_iff`).
-/

namespace Lliu

namespace LliuTop

open Hdl DotProductEngine

section Run

variable {msgBuf : BitVec 7 → BitVec 8} {w : Nat → Bfloat16T} {i : Nat → LliuTopIn}

/-! ## messages -/

theorem uParser_succ (n : Nat) : (trace msgBuf w i (n + 1)).uParser =
    if (trace msgBuf w i n).sysRst then .reset (trace msgBuf w i n).uParser.msgBuf
    else (trace msgBuf w i n).uParser.step ((trace msgBuf w i n).parserIn (i n)) :=
  (instances_step_ite _ _).1

/-- The fields are those of a message in `S_EMIT`, unless there is a soft reset. -/
theorem parserFieldsValid_succ {n : Nat}
    (h : (trace msgBuf w i (n + 1)).parserFieldsValid = true) :
    (trace msgBuf w i n).uParser.msgValid = true ∧
    (trace msgBuf w i n).uParser.msgBuf 0 = itchMsgAddOrder ∧
    (trace msgBuf w i n).sysRst = false := by
  rw [parserFieldsValid, uParser_succ] at h
  cases hr : (trace msgBuf w i n).sysRst with
  | true => simp [hr, ItchParser.reset, ItchFieldExtract.reset] at h
  | false =>
      simp only [hr, Bool.false_eq_true, if_false, ItchParser.uFieldExtract_step,
        ItchFieldExtract.step, Bool.and_eq_true, beq_iff_eq] at h
      exact ⟨h.1, h.2, rfl⟩

/-- It is complete with the beat taken the cycle before. -/
theorem beat_of_parserFieldsValid {n : Nat}
    (h : (trace msgBuf w i (n + 2)).parserFieldsValid = true) :
    (trace msgBuf w i n).uParser.beat ((trace msgBuf w i n).parserIn (i n)) = true ∧
    (trace msgBuf w i (n + 1)).uParser.msgBuf 0 = itchMsgAddOrder := by
  obtain ⟨hemit, htype, -⟩ := parserFieldsValid_succ h
  rw [uParser_succ] at hemit
  split at hemit
  · exact absurd (show false = true from hemit) (by decide)
  · exact ⟨ItchParser.beat_of_msgValid hemit, htype⟩

/-- Two messages do not come in a row. -/
theorem not_parserFieldsValid_succ {n : Nat}
    (h : (trace msgBuf w i n).parserFieldsValid = true) :
    (trace msgBuf w i (n + 1)).parserFieldsValid = false := by
  cases n with
  | zero => exact absurd (show false = true from h) (by decide)
  | succ n =>
      obtain ⟨hemit, -, hr⟩ := parserFieldsValid_succ h
      have hstate : (trace msgBuf w i n).uParser.state = .sEmit := by
        simpa [ItchParser.msgValid] using hemit
      rw [Bool.eq_false_iff]
      intro hnext
      have hagain := (parserFieldsValid_succ hnext).1
      rw [uParser_succ, hr] at hagain
      simp [ItchParser.step, hstate, ItchParser.msgValid] at hagain

/-! ## the engine -/

/-- The engine is started four cycles after a message. -/
theorem dpStart_trace {n : Nat} (h : (trace msgBuf w i n).dpStart = true) :
    ∃ m, n = m + 4 ∧ (trace msgBuf w i m).parserFieldsValid = true ∧
      ∀ d, d < 4 → (trace msgBuf w i (m + d)).sysRst = false := by
  cases n with
  | zero => exact absurd (show false = true from h) (by decide)
  | succ n =>
      have hstep : trace msgBuf w i (n + 1) = (trace msgBuf w i n).step (i n) := rfl
      rw [hstep] at h
      cases hr : (trace msgBuf w i n).sysRst with
      | true =>
          rw [step, if_pos hr] at h
          exact absurd (show false = true from h) (by decide)
      | false =>
          have hvalid : (trace msgBuf w i n).featValid = true := by
            cases hstate : (trace msgBuf w i n).seqState with
            | seqIdle =>
                rw [step_seqIdle (i n) hr hstate, stepIdle] at h
                by_contra hv
                rw [if_neg hv] at h
                exact absurd (show false = true from h) (by decide)
            | seqPreload =>
                rw [step_seqPreload (i n) hr hstate] at h
                exact absurd (show false = true from h) (by decide)
            | seqFeed =>
                rw [step_seqFeed (i n) hr hstate, stepFeed] at h
                split at h <;> exact absurd (show false = true from h) (by decide)
          obtain ⟨m, rfl, hfields, hquiet⟩ := featValid_trace hvalid
          refine ⟨m, rfl, hfields, fun d hd => ?_⟩
          obtain hlt | rfl := Nat.lt_succ_iff_lt_or_eq.mp hd
          · exact hquiet d hlt
          · exact hr

theorem uDpEngine_succ (n : Nat) : (trace msgBuf w i (n + 1)).uDpEngine =
    if (trace msgBuf w i n).sysRst then .reset
    else (trace msgBuf w i n).uDpEngine.step featureVecLen (trace msgBuf w i n).dpeIn :=
  (instances_step_ite _ _).2.2

/-- `k` cycles bring the result closer by `k` at most. -/
theorem untilDone_trace (n k : Nat) : untilDone featureVecLen (trace msgBuf w i n).uDpEngine ≤
    untilDone featureVecLen (trace msgBuf w i (n + k)).uDpEngine + k := by
  induction k with
  | zero => exact Nat.le_refl _
  | succ k ih =>
      have hone : untilDone featureVecLen (trace msgBuf w i (n + k)).uDpEngine ≤
          untilDone featureVecLen (trace msgBuf w i (n + k + 1)).uDpEngine + 1 := by
        rw [uDpEngine_succ]
        split
        · -- a soft reset takes it as far away as it can be
          have hle := untilDone_le featureVecLen (trace msgBuf w i (n + k)).uDpEngine
          have hreset : untilDone featureVecLen DotProductEngine.reset =
              featureVecLen + drainExitVal featureVecLen + 8 := untilDone_of_idle rfl
          omega
        · exact untilDone_step _
      change _ ≤ untilDone featureVecLen (trace msgBuf w i (n + k + 1)).uDpEngine + (k + 1)
      omega

/-- The result of an idle engine needs a `start`, at least 29 cycles before. -/
theorem exists_dpStart {n k : Nat} (hidle : (trace msgBuf w i n).uDpEngine.state = .sIdle)
    (h : (trace msgBuf w i (n + k)).dpResultValid = true) :
    ∃ c, n ≤ c ∧ c + 29 ≤ n + k ∧ (trace msgBuf w i c).dpStart = true := by
  induction k generalizing n with
  | zero => simp [dpResultValid, DotProductEngine.resultValid, hidle] at h
  | succ k ih =>
      cases hstart : (trace msgBuf w i n).dpStart with
      | true =>
          have hle : untilDone featureVecLen (trace msgBuf w i n).uDpEngine ≤
              untilDone featureVecLen (trace msgBuf w i (n + (k + 1))).uDpEngine + (k + 1) :=
            untilDone_trace n (k + 1)
          rw [untilDone_of_done h, untilDone_of_idle hidle] at hle
          have h29 : featureVecLen + drainExitVal featureVecLen + 8 = 29 := by decide
          exact ⟨n, Nat.le_refl n, by omega, hstart⟩
      | false =>
          have hnext : (trace msgBuf w i (n + 1)).uDpEngine.state = .sIdle := by
            rw [uDpEngine_succ]
            split
            · rfl
            · simp [DotProductEngine.step, DotProductEngine.stepIdle, DotProductEngine.advance,
                hidle, dpeIn, hstart]
          obtain ⟨c, hle, hge, hc⟩ := ih hnext (by rwa [Nat.add_assoc, Nat.add_comm 1 k])
          exact ⟨c, by omega, by omega, hc⟩

/-- After a result the engine is idle. -/
theorem idle_succ {n : Nat} (h : (trace msgBuf w i n).dpResultValid = true) :
    (trace msgBuf w i (n + 1)).uDpEngine.state = .sIdle := by
  have hdone : (trace msgBuf w i n).uDpEngine.state = .sDone := by
    simpa [dpResultValid, DotProductEngine.resultValid] using h
  rw [uDpEngine_succ]
  split
  · rfl
  · simp [DotProductEngine.step, hdone]

/-- **Spacing**: the results of all messages come after 34 cycles if and only if all
messages are alone. -/
theorem results_iff : (∀ n, (trace msgBuf w i n).parserFieldsValid = true →
    (trace msgBuf w i (n + 34)).dpResultValid = true) ↔ Spaced msgBuf w i := by
  constructor
  · intro h n hn
    refine ⟨fun d h1 hd => ?_, fun d hd => ?_⟩
    · -- a `start` for the second result comes too late for the second message
      rw [Bool.eq_false_iff]
      intro hother
      have hresult := h (n + d) hother
      rw [show n + d + 34 = n + 34 + 1 + (d - 1) by omega] at hresult
      obtain ⟨c, hle, hge, hc⟩ := exists_dpStart (idle_succ (h n hn)) hresult
      obtain ⟨m, rfl, hm, -⟩ := dpStart_trace hc
      rw [latency] at hd
      obtain rfl : m = n + d + 1 := by omega
      rw [not_parserFieldsValid_succ hother] at hm
      exact absurd hm (by decide)
    · -- nor is there one in time after a soft reset
      rw [Bool.eq_false_iff]
      intro hr
      have hidle : (trace msgBuf w i (n + d + 1)).uDpEngine.state = .sIdle := by
        rw [uDpEngine_succ, if_pos hr]
        rfl
      have hresult := h n hn
      rw [latency] at hd
      rw [show n + 34 = n + d + 1 + (33 - d) by omega] at hresult
      obtain ⟨c, hle, hge, hc⟩ := exists_dpStart hidle hresult
      obtain ⟨m, rfl, hm, hquiet⟩ := dpStart_trace hc
      by_cases hmn : m = n + 1
      · rw [hmn, not_parserFieldsValid_succ hn] at hm
        exact absurd hm (by decide)
      · have hlow := hquiet (n + d - m) (by omega)
        rw [show m + (n + d - m) = n + d by omega, hr] at hlow
        exact absurd hlow (by decide)
  · intro hspaced n hn
    exact dpResultValid_of_fieldsValid hspaced hn

end Run

end LliuTop

end Lliu
