import Lliu.Hdl.Duty
import Lliu.LliuTopV2.Hold

/-!
# Lliu.LliuTopV2.Ingress

The throughput of the ingress.  The hold is up for exactly the 64 cycles in which the cores
work on a vector (`pipelineHold_iff`), and the vectors that they take are at least 76 cycles
apart: the hold leaves twelve cycles in which beats are taken again, and the pipeline from the
parser to the cores is as long.  So whatever is sent, `s_axis_tready` is high in six of any 76
cycles, and never low for more than 65 (`ingress_served`).
-/

namespace Lliu

namespace LliuTopV2

open Hdl

variable {i : Nat → LliuTopV2In}

/-- `s_axis_tready` in a run. -/
def ready (i : Nat → LliuTopV2In) (n : Nat) : Bool := (trace i n).sAxisTready

/-- `pipeline_hold` in a run. -/
def holdUp (i : Nat → LliuTopV2In) (n : Nat) : Bool := (trace i n).pipelineHold

/-! ## the hold -/

/-- The hold is up in the cycle in which a vector is taken and in the 63 after it. -/
theorem pipelineHold_iff (n : Nat) :
    holdUp i n = true ↔ ∃ a, Taken i a ∧ a ≤ n ∧ n < a + 64 := by
  constructor
  · intro h
    rcases released_or_taken (i := i) n with ⟨hidle, hflight⟩ | ⟨a, ha, hlt, hle⟩
    · have hvalid : (trace i n).coreFeaturesValid = true := by
        rwa [holdUp, pipelineHold, hflight, Bool.or_false] at h
      exact ⟨n, ⟨hvalid, hidle⟩, le_refl n, by omega⟩
    · exact ⟨a, ha, by omega, by omega⟩
  · rintro ⟨a, ha, hle, hlt⟩
    have hup := ha.hold (n - a) (by omega)
    rwa [show a + (n - a) = n by omega] at hup

/-- The vectors that are taken are 76 cycles apart. -/
theorem Taken.apart_hold {a b : Nat} (ha : Taken i a) (hb : Taken i b) (hlt : a < b) : a + 76 ≤ b := by
  have h64 := ha.apart hb hlt
  by_contra hge
  have hquiet := ha.quiet (b - a) (by omega) (by omega)
  rw [show a + (b - a) = b by omega, hb.valid] at hquiet
  cases hquiet

theorem duty_hold : Duty (Taken i) (holdUp i) 64 76 where
  within n h := (pipelineHold_iff n).mp h
  apart _ _ ha hb hlt := ha.apart_hold hb hlt

/-- After the hold beats are taken at once. -/
theorem Taken.ready_after {a : Nat} (h : Taken i a) : ready i (a + 64) = true := by
  have hemit := h.not_emit 63 (le_refl 63)
  have hhold : (trace i (a + 64)).pipelineHold = false := by
    rw [pipelineHold, h.inFlight_after, h.quiet 64 (by omega) (by omega), Bool.or_false]
  rw [ready, sAxisTready, hhold, ItchParserV2.sAxisTready, Bool.not_false, Bool.and_true, bne_iff_ne]
  exact hemit

/-! ## the beats between -/

/-- The parser is in `S_EMIT`. -/
def emits (i : Nat → LliuTopV2In) (n : Nat) : Bool := (trace i n).uParser.state == .sEmit

theorem ready_eq (n : Nat) : ready i n = (!emits i n && !holdUp i n) := rfl

/-- It gets there with a beat. -/
theorem ready_of_emits {n : Nat} (h : emits i (n + 1) = true) : ready i n = true := by
  by_contra hr
  rw [Bool.not_eq_true] at hr
  have hbeat : (trace i n).uParser.beat ((trace i n).parserIn (i n)) = false := by
    have hready : (trace i n).uParser.sAxisTready ((trace i n).parserIn (i n)).pipelineHold = false := hr
    rw [ItchParserV2.beat, hready, Bool.and_false]
  exact ItchParserV2.not_emit_step hbeat (eq_of_beq h)

/-- **Ingress**: in every run, of any 76 cycles in a row the hold is up in at most 64, and
`s_axis_tready` is high in at least six; and from any cycle on it is high within 65. -/
theorem ingress_served (i : Nat → LliuTopV2In) (n : Nat) :
    count (fun k => holdUp i (n + k)) 76 ≤ 64 ∧
    6 ≤ count (fun k => ready i (n + k)) 76 ∧
    ∃ m, m ≤ 65 ∧ ready i (n + m) = true := by
  have hhold := (duty_hold (i := i)).count_busy_le n
  refine ⟨hhold, ?_, ?_⟩
  · have hfree := count_not (fun k => holdUp i (n + k)) 76
    -- a free cycle is ready or in `S_EMIT`, and there is no `S_EMIT` without a beat before
    have hsplit : count (fun k => !holdUp i (n + k)) 76 ≤
        count (fun k => ready i (n + k)) 76 + count (fun k => emits i (n + k)) 76 :=
      count_le_add (fun k hk => by
        rw [ready_eq, hk, Bool.and_true, Bool.not_eq_true']
        cases emits i (n + k) <;> simp) 76
    have hemits : count (fun k => emits i (n + k)) 76 ≤ count (fun k => ready i (n + k)) 76 + 1 :=
      count_le_of_prev (f := fun k => emits i (n + k)) (fun _ hk => ready_of_emits hk) 76
    omega
  · cases hh : holdUp i n with
    | true =>
        obtain ⟨a, ha, hle, hlt⟩ := (pipelineHold_iff n).mp hh
        refine ⟨a + 64 - n, by omega, ?_⟩
        rw [show n + (a + 64 - n) = a + 64 by omega]
        exact ha.ready_after
    | false =>
        cases he : emits i n with
        | false => exact ⟨0, by omega, by rw [Nat.add_zero, ready_eq, he, hh]; rfl⟩
        | true =>
            have hidle : emits i (n + 1) = false := by
              by_contra hnext
              rw [Bool.not_eq_false] at hnext
              have hready := ready_of_emits hnext
              rw [ready_eq, he] at hready
              cases hready
            cases hn : holdUp i (n + 1) with
            | false => exact ⟨1, by omega, by rw [ready_eq, hidle, hn]; rfl⟩
            | true =>
                obtain ⟨a, ha, hle, hlt⟩ := (pipelineHold_iff (n + 1)).mp hn
                have hstart : a = n + 1 := by
                  by_contra hne
                  have hup := (pipelineHold_iff n).mpr ⟨a, ha, by omega, by omega⟩
                  rw [hh] at hup
                  cases hup
                subst hstart
                exact ⟨65, le_refl _, ha.ready_after⟩

end LliuTopV2

end Lliu
