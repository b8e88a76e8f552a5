import Lliu.LliuCore.Control
import Lliu.LliuTopV2.Orders

/-!
# Lliu.LliuTopV2.Hold

The ingress hold.  `in_flight` is set by `core_features_valid` and cleared by the
result of core 0, and the two never fall into one cycle: from the cycle in which a
vector is taken no beat is taken, so no other vector comes out in the cycles 12 to 75
after (`Taken.quiet`), and the result is out in cycle 63.  The hold is therefore up
exactly while the cores work, and falls after at most 64 cycles
(`hold_never_sticks`).

What it does not do is keep the cores from being offered a second vector: the messages
that are past the parser when the first vector comes out meet busy cores, and are
not scored (`lossless_iff`).
-/

namespace Lliu

namespace ItchParserV2

variable {s : ItchParserV2} {i : ItchParserV2In}

/-- Without a beat no message gets complete. -/
theorem not_emit_step (h : s.beat i = false) : (s.step i).state ≠ .sEmit := by
  rw [step]
  cases hs : s.state with
  | sIdle => simp [stepIdle, h, hs]
  | sAccumulate => simp [stepAccumulate, h, hs]
  | sEmit => simp [stepEmit]

/-- Fields come out of `S_EMIT` only. -/
theorem fieldsValid_step (hv : s.ValidInIdle) (h : s.state ≠ .sEmit) :
    (s.step i).fieldsValid = false := by
  rw [step]
  cases hs : s.state with
  | sIdle =>
      simp only [stepIdle]
      split <;> rfl
  | sAccumulate =>
      have hnot := hv.of_ne (by simp [hs])
      simp only [stepAccumulate]
      split <;> exact hnot
  | sEmit => exact absurd hs h

/-- The hold keeps beats out. -/
theorem beat_of_hold (h : i.pipelineHold = true) : s.beat i = false := by
  simp [beat, sAxisTready, h]

end ItchParserV2

namespace LliuTopV2

open Hdl LliuCore

variable {i : Nat → LliuTopV2In}

/-! ## the cores in step -/

/-- The cores are in one control state. -/
theorem control_trace (n : Nat) (k : Fin numCores) :
    ((trace i n).uCore k).control = ((trace i n).uCore 0).control := by
  induction n with
  | zero => rfl
  | succ n ih => exact LliuCore.control_step ih rfl

/-! ## the hold over one inference -/

/-- The hold is up until the result. -/
theorem Taken.inFlight {a : Nat} (h : Taken i a) (m : Nat) (h1 : 1 ≤ m) (hm : m ≤ 63) :
    (trace i (a + m)).inFlight = true := by
  induction m, h1 using Nat.le_induction with
  | base =>
      change ((trace i a).coreFeaturesValid || _) = true
      rw [h.valid, Bool.true_or]
  | succ m h1 ih =>
      have hresult := h.result 0 m (by omega)
      change (_ || ((trace i (a + m)).inFlight && !((trace i (a + m)).uCore 0).resultValid)) = true
      rw [ih (by omega), hresult, decide_eq_false (by omega), Bool.not_false, Bool.and_true,
        Bool.or_true]

theorem Taken.hold {a : Nat} (h : Taken i a) (m : Nat) (hm : m ≤ 63) :
    (trace i (a + m)).pipelineHold = true := by
  rw [pipelineHold]
  cases m with
  | zero =>
      have hvalid : (trace i (a + 0)).coreFeaturesValid = true := h.valid
      rw [hvalid, Bool.true_or]
  | succ m => rw [h.inFlight (m + 1) (by omega) hm, Bool.or_true]

/-- No message gets complete under the hold. -/
theorem Taken.not_emit {a : Nat} (h : Taken i a) (m : Nat) (hm : m ≤ 63) :
    (trace i (a + m + 1)).uParser.state ≠ .sEmit :=
  ItchParserV2.not_emit_step (ItchParserV2.beat_of_hold (h.hold m hm))

theorem validInIdle_trace (n : Nat) : (trace i n).uParser.ValidInIdle :=
  run_invariant (P := fun _ (s : LliuTopV2) => s.uParser.ValidInIdle)
    ItchParserV2.validInIdle_reset (fun _ h => h.step _) n

/-- So no other vector comes out for a while after the result, either. -/
theorem Taken.quiet {a : Nat} (h : Taken i a) (m : Nat) (h12 : 12 ≤ m) (hm : m ≤ 75) :
    (trace i (a + m)).coreFeaturesValid = false := by
  obtain ⟨m, rfl⟩ : ∃ m', m = m' + 12 := ⟨m - 12, by omega⟩
  have hfields : (trace i (a + m + 2)).uParser.fieldsValid = false :=
    ItchParserV2.fieldsValid_step (validInIdle_trace _) (h.not_emit m (by omega))
  rw [show a + (m + 12) = a + m + 5 + 7 by omega, coreFeaturesValid_add, featExtFv,
    show (trace i (a + m + 5)).d3.fieldsValid = (trace i (a + m + 2)).uParser.fieldsValid from rfl,
    hfields, Bool.false_and]

/-- The flag falls with the result. -/
theorem Taken.inFlight_after {a : Nat} (h : Taken i a) : (trace i (a + 64)).inFlight = false := by
  have hresult := h.result 0 63 (le_refl 63)
  have hquiet := h.quiet 63 (by omega) (by omega)
  change ((trace i (a + 63)).coreFeaturesValid ||
    ((trace i (a + 63)).inFlight && !((trace i (a + 63)).uCore 0).resultValid)) = false
  rw [hresult, hquiet, decide_eq_true rfl, Bool.not_true, Bool.and_false, Bool.or_false]

/-- **Hold and cores**: in every cycle the cores are idle and the flag is down, or
they work on a vector. -/
theorem released_or_taken (n : Nat) :
    ((∀ k, Idle ((trace i n).uCore k)) ∧ (trace i n).inFlight = false) ∨
    ∃ a, Taken i a ∧ a < n ∧ n ≤ a + 63 := by
  induction n with
  | zero => exact Or.inl ⟨fun _ => idle_reset, rfl⟩
  | succ n ih =>
      rcases ih with ⟨hidle, hflight⟩ | ⟨a, ha, hlt, hle⟩
      · cases hv : (trace i n).coreFeaturesValid with
        | true => exact Or.inr ⟨n, ⟨hv, hidle⟩, by omega, by omega⟩
        | false =>
            refine Or.inl ⟨fun k => (hidle k).step hv, ?_⟩
            change ((trace i n).coreFeaturesValid || ((trace i n).inFlight && _)) = false
            rw [hv, hflight, Bool.false_and, Bool.or_false]
      · by_cases hlast : n = a + 63
        · rw [hlast]
          exact Or.inl ⟨ha.idle_again, ha.inFlight_after⟩
        · exact Or.inr ⟨a, ha, by omega, by omega⟩

/-- The flag is up exactly while the cores work. -/
theorem inFlight_iff (n : Nat) (k : Fin numCores) :
    (trace i n).inFlight = true ↔ ((trace i n).uCore k).seqState ≠ .seqIdle := by
  rcases released_or_taken (i := i) n with ⟨hidle, hflight⟩ | ⟨a, ha, hlt, hle⟩
  · rw [hflight, (hidle k).seqState]
    simp
  · have hflight := ha.inFlight (n - a) (by omega) (by omega)
    have hbusy := ha.busy k (n - a) (by omega) (by omega)
    rw [Nat.add_sub_cancel' (by omega)] at hflight hbusy
    exact iff_of_true hflight hbusy

/-- No vector comes out with a result. -/
theorem not_resultValid_of_valid {n : Nat} (h : (trace i n).coreFeaturesValid = true)
    (k : Fin numCores) : ((trace i n).uCore k).resultValid = false := by
  by_contra hv
  rw [Bool.not_eq_false] at hv
  obtain ⟨a, rfl, ha⟩ := taken_of_resultValid hv
  rw [ha.quiet 63 (by omega) (by omega)] at h
  cases h

/-- The hold falls within 64 cycles. -/
theorem hold_released (n : Nat) : ∃ m, n ≤ m ∧ m ≤ n + 64 ∧ (trace i m).pipelineHold = false := by
  have hfalls : ∀ a, Taken i a → (trace i (a + 64)).pipelineHold = false := fun a ha => by
    rw [pipelineHold, ha.inFlight_after, ha.quiet 64 (by omega) (by omega), Bool.or_false]
  rcases released_or_taken (i := i) n with ⟨hidle, hflight⟩ | ⟨a, ha, hlt, hle⟩
  · cases hv : (trace i n).coreFeaturesValid with
    | true => exact ⟨n + 64, by omega, le_refl _, hfalls n ⟨hv, hidle⟩⟩
    | false => exact ⟨n, le_refl n, by omega, by rw [pipelineHold, hv, hflight, Bool.or_false]⟩
  · exact ⟨a + 64, by omega, by omega, hfalls a ha⟩

/-- **The hold never sticks**: the cores are always in one control state, the flag is
up exactly while they are out of `SEQ_IDLE`, no vector comes out as they leave
`SEQ_WAIT`, and the hold falls within 64 cycles. -/
theorem hold_never_sticks (i : Nat → LliuTopV2In) :
    (∀ n k, ((trace i n).uCore k).control = ((trace i n).uCore 0).control) ∧
    (∀ n k, (trace i n).inFlight = true ↔ ((trace i n).uCore k).seqState ≠ .seqIdle) ∧
    (∀ n k, (trace i n).coreFeaturesValid = true →
      ¬ (((trace i n).uCore k).seqState = .seqWait ∧ ((trace i n).uCore k).resultValid = true)) ∧
    ∀ n, ∃ m, n ≤ m ∧ m ≤ n + 64 ∧ (trace i m).pipelineHold = false := by
  refine ⟨control_trace, inFlight_iff, fun n k hv hleave => ?_, hold_released⟩
  rw [not_resultValid_of_valid hv k] at hleave
  exact Bool.false_ne_true hleave.2

/-! ## messages that meet busy cores -/

/-- The vector of the message that reaches the extractor in cycle `c`. -/
def vectorAt (i : Nat → LliuTopV2In) (c : Nat) : Nat → Bfloat16T := (trace i (c + 7)).uFeatExt.features

/-- The score of that vector with the weights that core `k` reads. -/
def scoreAt (i : Nat → LliuTopV2In) (c : Nat) (k : Fin numCores) : Float32T :=
  DotProductEngine.mergeOver (DotProductEngine.retainedAccs vecLen) ((List.range vecLen).map fun j =>
    (vectorAt i c j, ((trace i (c + 9 + j)).uCore k).uWeightMem.mem j))

/-- Every message that reaches the extractor has one result on every core, that of its
own vector, and there are no others.  The result is out 70 cycles later, so the
results are in the order of the messages. -/
structure Lossless (i : Nat → LliuTopV2In) : Prop where
  scored : ∀ c, (trace i c).featExtFv = true → ∀ k,
    ((trace i (c + 70)).uCore k).resultValid = true ∧
    ((trace i (c + 70)).uCore k).result = scoreAt i c k
  only : ∀ n k, ((trace i n).uCore k).resultValid = true →
    ∃ c, n = c + 70 ∧ (trace i c).featExtFv = true

/-- Messages that are far enough apart find the cores idle. -/
theorem taken_of_apart {c : Nat} (hc : (trace i c).featExtFv = true)
    (h : ∀ b, (trace i b).featExtFv = true → b < c → b + 64 ≤ c) : Taken i (c + 7) := by
  rcases idle_or_taken (i := i) (c + 7) with hidle | ⟨a, ha, hlt, hle⟩
  · exact ⟨hc, hidle⟩
  · obtain ⟨b, rfl, hb⟩ := ha.message
    have := h b hb (by omega)
    omega

/-- **No message is lost** if and only if the messages reach the extractor at least 64
cycles apart. -/
theorem lossless_iff (i : Nat → LliuTopV2In) :
    Lossless i ↔ ∀ b c, (trace i b).featExtFv = true → (trace i c).featExtFv = true → b < c →
      b + 64 ≤ c := by
  constructor
  · intro h b c hb hc hlt
    obtain ⟨a, ha, htaken⟩ := taken_of_resultValid (h.scored b hb 0).1
    obtain ⟨a', ha', htaken'⟩ := taken_of_resultValid (h.scored c hc 0).1
    have := htaken.apart htaken' (by omega)
    omega
  · intro h
    refine ⟨fun c hc k => ?_, fun n k hv => ?_⟩
    · have htaken := taken_of_apart hc fun b hb => h b c hb hc
      have hvalid := htaken.result k 63 (le_refl 63)
      rw [decide_eq_true rfl] at hvalid
      exact ⟨hvalid, htaken.score k⟩
    · obtain ⟨a, rfl, ha⟩ := taken_of_resultValid hv
      obtain ⟨c, rfl, hc⟩ := ha.message
      exact ⟨c, rfl, hc⟩

/-- The second of two messages back to back reaches busy cores. -/
theorem second_vector_lost : (trace twoOrders 49).featExtFv = true ∧
    (trace twoOrders 55).featExtFv = true ∧
    (∀ k, ((trace twoOrders 119).uCore k).resultValid = true) ∧
    (∀ k, ((trace twoOrders 125).uCore k).resultValid = false) ∧ ¬ Lossless twoOrders := by
  have hrun : (trace twoOrders 49).featExtFv = true ∧ (trace twoOrders 55).featExtFv = true ∧
      (∀ k, ((trace twoOrders 119).uCore k).resultValid = true) ∧
      ∀ k, ((trace twoOrders 125).uCore k).resultValid = false := by decide +kernel
  obtain ⟨hfirst, hsecond, hscored, hlost⟩ := hrun
  refine ⟨hfirst, hsecond, hscored, hlost, fun h => ?_⟩
  exact Bool.false_ne_true ((hlost 0).symm.trans (h.scored 55 hsecond 0).1)

end LliuTopV2

end Lliu
