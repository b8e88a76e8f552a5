import Lliu.LliuTopV2.Causes

/-!
# Lliu.LliuTopV2.Exposure

The positions of the top level, with no assumption on the run.  A position read back is
never beyond the limit; but an order may pass that leads to `2^24` shares exactly, whose
24 bits are zero.  Without such an order the positions are the shares of the orders passed,
and with the first of them they no longer are (`positions_exact_iff`).
-/

namespace Lliu

namespace LliuTopV2

open Hdl

variable {i : Nat → LliuTopV2In}

/-- The signed shares of the orders passed before cycle `n`. -/
def passedShares (i : Nat → LliuTopV2In) (n : Nat) (sym : SymId) : Int :=
  ((cyclesOf (passes i) n).map fun a => signedShares (passedOrder i a) sym).sum

theorem passedShares_succ (n : Nat) (sym : SymId) : passedShares i (n + 1) sym =
    passedShares i n sym + if passes i n then signedShares (passedOrder i n) sym else 0 := by
  rw [passedShares, cyclesOf_succ, List.map_append, List.sum_append, passedShares]
  cases passes i n <;> simp

/-! ## one order -/

/-- The position check lets through what stays within the limit, and `2^24`. -/
theorem seenAbs_le_iff {e : Int} (h : e.natAbs < 2 ^ 24 + 2 ^ 23) :
    RiskCheck.seenAbs e ≤ 1000 ↔ e.natAbs ≤ 1000 ∨ e.natAbs = 2 ^ 24 := by
  rw [RiskCheck.seenAbs]
  split <;> omega

theorem natAbs_leadsTo_lt (t : Nat) : (leadsTo i t).natAbs < 2 ^ 24 + 2 ^ 23 := by
  have hlo := BitVec.le_toInt (position i (t + 79) (trace i (t + 76)).held.symId)
  have hhi := BitVec.toInt_lt (x := position i (t + 79) (trace i (t + 76)).held.symId)
  have hshares := (trace i (t + 76)).riskProposedShares.isLt
  rw [leadsTo]
  split <;> omega

theorem Fires.leadsTo_cases {t : Nat} (h : Fires i t) :
    (leadsTo i t).natAbs ≤ 1000 ∨ (leadsTo i t).natAbs = 2 ^ 24 :=
  (seenAbs_le_iff (natAbs_leadsTo_lt t)).mp h.limit

theorem Fires.passes {t : Nat} (h : Fires i t) : passes i (t + 82) = true :=
  (passes_iff_fires i (t + 82)).mpr ⟨t, rfl, h⟩

/-- The position that is checked is still there when the order is booked. -/
theorem position_of_passes {t : Nat} (h : passes i (t + 82) = true) :
    position i (t + 82) = position i (t + 79) := by
  have hquiet : ∀ a, t + 79 ≤ a → a < t + 82 → passes i a = false := fun a hge hlt => by
    by_contra hp
    rw [Bool.not_eq_false] at hp
    have := passes_apart hp h hlt
    omega
  rw [position_of_not_passes (hquiet (t + 81) (by omega) (by omega)),
    position_of_not_passes (hquiet (t + 80) (by omega) (by omega)),
    position_of_not_passes (hquiet (t + 79) (by omega) (by omega))]

/-- The shares of an order go to its own symbol. -/
theorem signedShares_passedOrder (t : Nat) (sym : SymId) :
    signedShares (passedOrder i (t + 82)) sym =
      if (trace i (t + 76)).held.symId = sym then
        leadsTo i t - (position i (t + 79) (trace i (t + 76)).held.symId).toInt
      else 0 := by
  rw [passedOrder, show t + 82 - 6 = t + 76 by omega, checkedOrder_eq, signedShares, leadsTo]
  by_cases hs : (trace i (t + 76)).held.symId = sym
  · rw [if_pos hs, if_pos (congrArg (BitVec.setWidth 7) hs), add_sub_cancel_left]
  · rw [if_neg hs, if_neg fun h => hs (symId_inj h)]

/-- **Step lemma**: an order that passes leaves the 24 bits of the position it leads to, and all
other positions as they are. -/
theorem toInt_position_succ {t : Nat} (h : passes i (t + 82) = true) (sym : SymId) :
    (position i (t + 83) sym).toInt =
      if (trace i (t + 76)).held.symId = sym then (leadsTo i t).bmod (2 ^ 24)
      else (position i (t + 82) sym).toInt := by
  have hsucc : position i (t + 83) sym = _ := position_succ (t + 82) sym
  rw [hsucc, if_pos h, BitVec.toInt_add, BitVec.toInt_ofInt, Int.add_bmod_bmod,
    signedShares_passedOrder]
  by_cases hs : (trace i (t + 76)).held.symId = sym
  · subst hs
    rw [if_pos rfl, if_pos rfl, position_of_passes h, add_sub_cancel]
  · rw [if_neg hs, if_neg hs, Int.add_zero]
    exact Int.bmod_eq_of_le (BitVec.le_toInt _) BitVec.toInt_lt

/-! ## runs -/

/-- A cycle without an order leaves the positions. -/
theorem position_succ_cases (n : Nat) : position i (n + 1) = position i n ∨
    ∃ t, n = t + 82 ∧ Fires i t := by
  cases hp : passes i n with
  | false => exact Or.inl (position_of_not_passes hp)
  | true => exact Or.inr ((passes_iff_fires i n).mp hp)

/-- No position is ever beyond the limit. -/
theorem natAbs_position_le (n : Nat) (sym : SymId) : (position i n sym).toInt.natAbs ≤ 1000 := by
  induction n with
  | zero => exact Nat.zero_le _
  | succ n ih =>
      rcases position_succ_cases (i := i) n with hkept | ⟨t, rfl, ht⟩
      · rwa [hkept]
      · rw [show t + 82 + 1 = t + 83 by omega, toInt_position_succ ht.passes]
        split
        · rcases ht.leadsTo_cases with hle | heq
          · rwa [Int.bmod_eq_of_le (by omega) (by omega)]
          · have hcases : leadsTo i t = 2 ^ 24 ∨ leadsTo i t = -2 ^ 24 := by omega
            rcases hcases with h | h <;> rw [h] <;> decide
        · exact ih

/-- The positions are the shares of the orders passed. -/
def PositionsExact (i : Nat → LliuTopV2In) : Prop :=
  ∀ n sym, (position i n sym).toInt = passedShares i n sym

/-- As long as no order leads to `2^24` shares. -/
theorem position_eq_passedShares (h : ∀ t, Fires i t → (leadsTo i t).natAbs ≠ 2 ^ 24) :
    PositionsExact i := by
  intro n sym
  induction n with
  | zero => rfl
  | succ n ih =>
      rw [passedShares_succ]
      cases hp : passes i n with
      | false => rw [position_of_not_passes hp, ih, if_neg Bool.false_ne_true, Int.add_zero]
      | true =>
          obtain ⟨t, rfl, ht⟩ := (passes_iff_fires i n).mp hp
          have hle : (leadsTo i t).natAbs ≤ 1000 := ht.leadsTo_cases.resolve_right (h t ht)
          rw [show t + 82 + 1 = t + 83 by omega, toInt_position_succ hp, if_pos rfl,
            signedShares_passedOrder, ← ih]
          by_cases hs : (trace i (t + 76)).held.symId = sym
          · subst hs
            rw [if_pos rfl, if_pos rfl, position_of_passes hp, Int.bmod_eq_of_le (by omega) (by omega)]
            omega
          · rw [if_neg hs, if_neg hs, Int.add_zero]

/-- **Exposure**: in every run no position is ever beyond the limit, and the positions are the
shares of the orders passed if and only if no order passes that leads to `2^24` shares. -/
theorem positions_exact_iff (i : Nat → LliuTopV2In) :
    (∀ n sym, (position i n sym).toInt.natAbs ≤ 1000) ∧
    (PositionsExact i ↔ ∀ t, Fires i t → (leadsTo i t).natAbs ≠ 2 ^ 24) := by
  refine ⟨natAbs_position_le, fun h t ht heq => ?_, position_eq_passedShares⟩
  -- the 24 bits of such a position are zero, the shares are not
  have hafter : (position i (t + 83) (trace i (t + 76)).held.symId).toInt = _ := h (t + 82 + 1) _
  rw [toInt_position_succ ht.passes, if_pos rfl, passedShares_succ, if_pos ht.passes,
    signedShares_passedOrder, if_pos rfl, ← h (t + 82), position_of_passes ht.passes] at hafter
  have hcases : leadsTo i t = 2 ^ 24 ∨ leadsTo i t = -2 ^ 24 := by omega
  have hzero : (leadsTo i t).bmod (2 ^ 24) = 0 := by
    rcases hcases with h | h <;> rw [h] <;> decide
  omega

end LliuTopV2

end Lliu
