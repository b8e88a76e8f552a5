import Lliu.Fp32Acc

/-!
# Lliu.Fp32Acc.Forwarding

The accumulator over whole runs, with clears anywhere.  Pulses of `acc_en` that are five
cycles apart add up: each one finds the sum of all before it, forwarded or committed
(`accOut_eq_fold`).
-/

namespace Lliu

open Hdl

namespace Fp32Acc

/-- The cycles before `n` with a pulse of `acc_en` since the last clear, in their order. -/
def sinceClear (i : Nat → Fp32AccIn) : Nat → List Nat
  | 0 => []
  | n + 1 =>
      if (i n).accClear then []
      else if (i n).accEn then sinceClear i n ++ [n]
      else sinceClear i n

/-- Each pulse is at least five cycles after the one before. -/
def Spaced (ks : List Nat) : Prop := ks.IsChain fun m n => m + 5 ≤ n

/-- All sums have been committed. -/
def Drained (ks : List Nat) (n : Nat) : Prop := ∀ k ∈ ks, k + 6 ≤ n

/-! ## the pulses -/

section Pulses

variable {i : Nat → Fp32AccIn} {c n : Nat}

/-- There is a last clear, or reset. -/
theorem exists_lastClear (i : Nat → Fp32AccIn) (n : Nat) :
    ∃ c ≤ n, run step reset i c = reset ∧ sinceClear i c = [] ∧
      ∀ k, c ≤ k → k < n → (i k).accClear = false := by
  induction n with
  | zero => exact ⟨0, Nat.le_refl 0, rfl, rfl, fun k hk hlt => by omega⟩
  | succ n ih =>
      obtain ⟨c, hc, hreset, hnone, hclear⟩ := ih
      cases h : (i n).accClear with
      | true =>
          refine ⟨n + 1, Nat.le_refl _, step_clear _ h, ?_, fun k hk hlt => by omega⟩
          rw [sinceClear, h, if_pos rfl]
      | false =>
          refine ⟨c, by omega, hreset, hnone, fun k hk hlt => ?_⟩
          obtain rfl | hlt : k = n ∨ k < n := by omega
          · exact h
          · exact hclear k hk hlt

theorem mem_sinceClear (hc : c ≤ n) (hnone : sinceClear i c = [])
    (hclear : ∀ k, c ≤ k → k < n → (i k).accClear = false) {k : Nat} :
    k ∈ sinceClear i n ↔ c ≤ k ∧ k < n ∧ (i k).accEn = true := by
  induction n, hc using Nat.le_induction with
  | base => simp [hnone]; omega
  | succ n hc ih =>
      have ih := ih fun k hk hlt => hclear k hk (by omega)
      rw [sinceClear, hclear n hc (Nat.lt_succ_self n), if_neg Bool.false_ne_true]
      cases he : (i n).accEn with
      | true =>
          rw [if_pos rfl, List.mem_append, ih, List.mem_singleton]
          constructor
          · rintro (h | rfl)
            · exact ⟨h.1, by omega, h.2.2⟩
            · exact ⟨hc, by omega, he⟩
          · rintro ⟨hk, hlt, hen⟩
            obtain rfl | hlt : k = n ∨ k < n := by omega
            · exact .inr rfl
            · exact .inl ⟨hk, hlt, hen⟩
      | false =>
          rw [if_neg Bool.false_ne_true, ih]
          constructor
          · rintro ⟨hk, hlt, hen⟩
            exact ⟨hk, by omega, hen⟩
          · rintro ⟨hk, hlt, hen⟩
            obtain rfl | hlt : k = n ∨ k < n := by omega
            · rw [he] at hen
              cases hen
            · exact ⟨hk, hlt, hen⟩

/-- The fold of what was issued is that over the pulses. -/
theorem issuedFold_eq (hc : c ≤ n) (hnone : sinceClear i c = [])
    (hclear : ∀ k, c ≤ k → k < n → (i k).accClear = false) :
    issuedFold fp32Add 0#32 c (fun k => (i k).accEn) (fun k => (i k).addend) n =
      ((sinceClear i n).map fun k => (i k).addend).foldl fp32Add 0#32 := by
  induction n, hc using Nat.le_induction with
  | base => rw [issuedFold_of_le (Nat.le_refl c), hnone]; rfl
  | succ n hc ih =>
      have ih := ih fun k hk hlt => hclear k hk (by omega)
      rw [issuedFold, sinceClear, hclear n hc (Nat.lt_succ_self n), if_neg Bool.false_ne_true]
      cases he : (i n).accEn with
      | true =>
          rw [if_pos ⟨hc, rfl⟩, if_pos rfl, List.map_append, List.foldl_append, ih]
          rfl
      | false => rw [if_neg fun h => Bool.false_ne_true h.2, if_neg Bool.false_ne_true, ih]

/-- Not only neighbours are spaced. -/
theorem Spaced.add_five_le {ks : List Nat} (h : Spaced ks) {j k : Nat} (hj : j ∈ ks) (hk : k ∈ ks)
    (hlt : j < k) : j + 5 ≤ k := by
  have htrans : Trans (fun m n : Nat => m + 5 ≤ n) (fun m n => m + 5 ≤ n) fun m n => m + 5 ≤ n :=
    ⟨fun h h' => by omega⟩
  have hsymm : Std.Symm fun m n : Nat => m + 5 ≤ n ∨ n + 5 ≤ m := ⟨fun _ _ => Or.symm⟩
  have hpair : ks.Pairwise fun m n => m + 5 ≤ n ∨ n + 5 ≤ m :=
    (List.isChain_iff_pairwise.mp h).imp .inl
  have hfar := hpair.forall hj hk (Nat.ne_of_lt hlt)
  omega

end Pulses

/-! ## the sum -/

/-- **Forwarding**: with pulses five cycles apart, the output is the sum of all addends since
the last clear once these have come through. -/
theorem accOut_eq_fold (i : Nat → Fp32AccIn) (n : Nat) (hspaced : Spaced (sinceClear i n))
    (hdrained : Drained (sinceClear i n) n) : (run step reset i n).accOut =
      ((sinceClear i n).map fun k => (i k).addend).foldl fp32Add 0#32 := by
  obtain ⟨c, hc, hreset, hnone, hclear⟩ := exists_lastClear i n
  have hmem := fun k => @mem_sinceClear i c n hc hnone hclear k
  have hacc := delayAcc (a := run step reset i) (x := i) run_succ hreset hclear
  rw [← issuedFold_eq hc hnone hclear]
  have hquiet : ∀ k, n - 5 ≤ k → k < n → c ≤ k → (i k).accEn = false := fun k hk hlt hck => by
    rw [Bool.eq_false_iff]
    intro hen
    have := hdrained k ((hmem k).mpr ⟨hck, hlt, hen⟩)
    omega
  obtain hearly | hlate := Nat.lt_or_ge n (c + 6)
  · -- nothing can have come through, and nothing is on its way
    have hfold := @issuedFold_of_quiet _ _ fp32Add 0#32 c _ (fun k => (i k).addend) c n hc
      fun k hk hlt => hquiet k (by omega) hlt hk
    rw [hfold, issuedFold_of_le (Nat.le_refl c), accOut]
    obtain rfl | hlt := Nat.eq_or_lt_of_le hc
    · rw [hreset]
      rfl
    · obtain ⟨m, rfl⟩ : ∃ m, n = c + m + 1 := ⟨n - c - 1, by omega⟩
      rw [hacc.acc_succ (c + m) (by omega) (by omega), hacc.fb_start m (by omega) (by omega)]
  · obtain ⟨m, rfl⟩ : ∃ m, n = m + 5 + 1 := ⟨n - 6, by omega⟩
    have hfar : ∀ j k, c ≤ j → j < k → k ≤ m + 5 + 1 → (i j).accEn = true → (i k).accEn = true →
        j + 5 ≤ k := fun j k hj hjk hk hej hek => by
      have hmj := (hmem j).mpr ⟨hj, by omega, hej⟩
      obtain rfl | hlt := Nat.eq_or_lt_of_le hk
      · have := hdrained j hmj
        omega
      · exact hspaced.add_five_le hmj ((hmem k).mpr ⟨by omega, hlt, hek⟩) hjk
    have hfold := hacc.acc_eq_fold (by decide) hfar m (by omega) (by omega)
    rw [accOut, hfold, issuedFold_of_quiet (show m + 1 ≤ m + 5 + 1 by omega)
      fun k hk hlt => hquiet k (by omega) hlt (by omega)]

/-- 1.0, and 2.0 five cycles later. -/
def twoPulses : Nat → Fp32AccIn := fun k =>
  { addend := if k = 0 then 0x3F800000#32 else 0x40000000#32
    accEn := k == 0 || k == 5
    accClear := false }

/-- Their sum. -/
theorem accOut_twoPulses : (run step reset twoPulses 11).accOut =
    [0x3F800000#32, 0x40000000#32].foldl fp32Add 0#32 := by
  have hpulses : sinceClear twoPulses 11 = [0, 5] := by decide
  have hspaced : Spaced (sinceClear twoPulses 11) := by simp [hpulses, Spaced]
  have hdrained : Drained (sinceClear twoPulses 11) 11 := by simp [hpulses, Drained]
  have hfold := accOut_eq_fold twoPulses 11 hspaced hdrained
  rwa [hpulses] at hfold

end Fp32Acc

end Lliu
