import Mathlib.Data.Nat.Init

/-!
# Hdl.Hold

A register with a load enable: it takes `v` in the cycles in which `en` is high
and keeps its value in all others.  What it holds is the value of the last load
(`Hold.of_lastLoad`), or what it held before if there was none (`Hold.kept`).
-/

namespace Hdl

/-- The register `r` is loaded with `v` under the enable `en`. -/
def Hold (en : Nat → Bool) (v r : Nat → α) : Prop :=
  ∀ n, r (n + 1) = if en n then v n else r n

/-- The last load from cycle `t` on and before cycle `n` is in cycle `c`. -/
structure LastLoad (en : Nat → Bool) (t n c : Nat) : Prop where
  ge : t ≤ c
  lt : c < n
  load : en c = true
  last : ∀ d, c < d → d < n → en d = false

/-- The last load, if there is one, is of the value `x`. -/
def LastLoadIs (en : Nat → Bool) (v : Nat → α) (t n : Nat) (x : α) : Prop :=
  ∀ c, LastLoad en t n c → v c = x

variable {en : Nat → Bool} {v r : Nat → α} {t n c : Nat} {x : α}

/-- The register holds the value of the last load. -/
theorem Hold.of_lastLoad (h : Hold en v r) (hl : LastLoad en t n c) : r n = v c := by
  obtain ⟨-, hlt, hload, hlast⟩ := hl
  induction n, hlt using Nat.le_induction with
  | base => rw [h, if_pos hload]
  | succ n hge ih =>
      rw [h, hlast n hge (Nat.lt_succ_self n), if_neg Bool.false_ne_true]
      exact ih fun d hd hdn => hlast d hd (Nat.lt_succ_of_lt hdn)

/-- After a load there is a last one. -/
theorem exists_lastLoad (hload : en t = true) (hlt : t < n) : ∃ c, LastLoad en t n c := by
  induction n, hlt using Nat.le_induction with
  | base => exact ⟨t, Nat.le_refl t, Nat.lt_succ_self t, hload, fun d hd hdn => by omega⟩
  | succ n hge ih =>
      cases hen : en n with
      | true => exact ⟨n, by omega, Nat.lt_succ_self n, hen, fun d hd hdn => by omega⟩
      | false =>
          obtain ⟨c, hc⟩ := ih
          refine ⟨c, hc.ge, Nat.lt_succ_of_lt hc.lt, hc.load, fun d hd hdn => ?_⟩
          rcases Nat.lt_succ_iff_lt_or_eq.mp hdn with hlt | rfl
          · exact hc.last d hd hlt
          · exact hen

/-- Without a load the register is kept. -/
theorem Hold.kept (h : Hold en v r) (hle : t ≤ n) (hnone : ∀ c, t ≤ c → c < n → en c = false) :
    r n = r t := by
  induction n, hle using Nat.le_induction with
  | base => rfl
  | succ n hge ih =>
      rw [h, hnone n hge (Nat.lt_succ_self n), if_neg Bool.false_ne_true]
      exact ih fun c hc hcn => hnone c hc (Nat.lt_succ_of_lt hcn)

/-- After a load in cycle `t`, the register holds `x` exactly if the last load
is of `x`. -/
theorem Hold.eq_iff (h : Hold en v r) (hload : en t = true) (hlt : t < n) :
    r n = x ↔ LastLoadIs en v t n x := by
  constructor
  · intro heq c hc
    rw [← h.of_lastLoad hc, heq]
  · intro hl
    obtain ⟨c, hc⟩ := exists_lastLoad hload hlt
    rw [h.of_lastLoad hc, hl c hc]

/-- The register holds in cycle `n` what it held in cycle `t` exactly if the
last load between, if there is one, is of that value. -/
theorem Hold.kept_iff (h : Hold en v r) (hle : t ≤ n) :
    r n = r t ↔ LastLoadIs en v t n (r t) := by
  constructor
  · intro heq c hc
    rw [← h.of_lastLoad hc, heq]
  · intro hl
    by_cases hsome : ∃ c, t ≤ c ∧ c < n ∧ en c = true
    · obtain ⟨c, hge, hlt, hload⟩ := hsome
      obtain ⟨d, hd⟩ := exists_lastLoad hload hlt
      have hd' : LastLoad en t n d := ⟨Nat.le_trans hge hd.ge, hd.lt, hd.load, hd.last⟩
      rw [h.of_lastLoad hd', hl d hd']
    · refine h.kept hle fun c hge hlt => ?_
      rw [Bool.eq_false_iff]
      exact fun hload => hsome ⟨c, hge, hlt, hload⟩

end Hdl
