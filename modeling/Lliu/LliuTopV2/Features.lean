import Lliu.FeatureExtractorV2.Vwap
import Lliu.LliuTopV2.Scoring

/-!
# Lliu.LliuTopV2.Features

The feature extractor of the top level.  It runs on the delayed outputs of the parser,
which change only at the end of `S_EMIT`: so in the cycle of a pulse they change to the
new message, and they are the same in the cycle after (`held_featIn`).
-/

namespace Lliu

namespace LliuTopV2

open Hdl

/-- What the feature extractor sees in a run. -/
def featIn (i : Nat → LliuTopV2In) (n : Nat) : FeatureExtractorV2In := (trace i n).featExtIn

variable {i : Nat → LliuTopV2In}

/-- It runs on the delayed messages. -/
theorem uFeatExt_trace (n : Nat) :
    (trace i n).uFeatExt = FeatureExtractorV2.trace (featIn i) n :=
  run_map (fun _ => rfl) n

/-- The fields of a message are held for the cycle after its pulse. -/
theorem held_featIn : FeatureExtractorV2.Held (featIn i) := by
  intro t hv
  obtain ⟨n, rfl, hpulse⟩ := fieldsValid_of_featExtFv hv
  have hidle : (trace i n).uParser.state ≠ .sEmit := by
    rw [state_of_fieldsValid hpulse]
    decide
  obtain ⟨hprice, hside, hsym, hshares⟩ :=
    ItchParserV2.outputs_step hidle ((trace i n).parserIn (i n))
  exact ⟨hprice, hshares, hside, hsym⟩

/-- So its volumes are those of the last eight messages of the watchlist. -/
theorem toNat_volSum_trace (t : Nat) : (trace i (t + 3)).uFeatExt.s1.volSum.toNat =
    FeatureExtractorV2.exactVol (featIn i) t := by
  rw [uFeatExt_trace]
  exact FeatureExtractorV2.toNat_volSum held_featIn t

/-- And its products those of what the parser had out before. -/
theorem toNat_pxVolSum_trace (t : Nat) : (trace i (t + 3)).uFeatExt.s1.pxVolSum.toNat =
    windowSum 8 ((FeatureExtractorV2.pulses (featIn i) (t + 1)).map
      (FeatureExtractorV2.staleProduct (featIn i))) := by
  rw [uFeatExt_trace]
  exact FeatureExtractorV2.toNat_pxVolSum t

end LliuTopV2

end Lliu
