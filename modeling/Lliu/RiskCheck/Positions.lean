import Lliu.RiskCheck.Verdicts
import Mathlib.Algebra.BigOperators.Group.Finset.Basic

/-!
# Lliu.RiskCheck.Positions

The positions of a run from zero, when the proposals of a symbol are at least four
cycles apart.  Then every proposal is checked against the position of its cycle of
writing, and the stored positions are those of the orders that have passed as long
as they fit in 24 bits.  Nothing in the check sees to that: the position limit holds
exactly if no order passes that leads out of the range (`position_limit_iff`).
-/

namespace Lliu

namespace RiskCheck

open Hdl

/-- No shares of any symbol. -/
def noShares : SymId → BitVec 24 := fun _ => 0

/-- The proposals of a symbol are at least four cycles apart. -/
def Spaced (i : Nat → RiskCheckIn) : Prop :=
  ∀ m n, m < n → (i m).scoreValid = true → (i n).scoreValid = true →
    (i m).symbolId = (i n).symbolId → m + 4 ≤ n

/-- The order that passes in cycle `a` was proposed six cycles before. -/
def passedIn (i : Nat → RiskCheckIn) (a : Nat) : RiskCheckIn := i (a - 6)

/-- The signed shares of a symbol's orders that have passed before cycle `n`. -/
def passedShares (i : Nat → RiskCheckIn) (n : Nat) (sym : SymId) : Int :=
  ∑ a ∈ Finset.range n, if (trace noShares i a).riskPass ∧ (passedIn i a).symbolId = sym then
    signedShares (passedIn i a) else 0

/-- The stored positions are the shares of the orders that have passed, and no order
passes that leads beyond the limit. -/
structure LimitHolds (posLimit : BitVec 24) (i : Nat → RiskCheckIn) : Prop where
  stored : ∀ n sym, ((trace noShares i n).posMem sym).toInt = passedShares i n sym
  within : ∀ n, (trace noShares i n).riskPass = true →
    (passedShares i (n + 1) (passedIn i n).symbolId).natAbs ≤ posLimit.toNat

/-- A position that can be stored. -/
def Storable (e : Int) : Prop := -2 ^ 23 ≤ e ∧ e < 2 ^ 23

section Run

variable {p : SymId → BitVec 24} {i : Nat → RiskCheckIn}

/-! ## what is written -/

/-- The write port is used in the cycle of a pass. -/
theorem posWrEnR_trace (n : Nat) : (trace p i n).posWrEnR = (trace p i n).riskPass := by
  cases n <;> rfl

theorem posMem_of_not_riskPass {n : Nat} (h : (trace p i n).riskPass = false) :
    (trace p i (n + 1)).posMem = (trace p i n).posMem := by
  rw [trace_succ, step, posWrEnR_trace, h]
  rfl

/-- A pass is of a proposal. -/
theorem scoreValid_of_riskPass {n : Nat} (h : (trace p i n).riskPass = true) :
    ∃ t, n = t + 6 ∧ (i t).scoreValid = true :=
  ((pulse_iff n).1).mp (Or.inl h)

/-- The resulting position, cut to 24 bits, is written for its symbol. -/
theorem posMem_of_riskPass {n : Nat} (h : (trace p i (n + 6)).riskPass = true) (sym : SymId) :
    ((trace p i (n + 7)).posMem sym).toInt =
      if (i n).symbolId = sym then (resulting (i n) (posRead p i n)).bmod (2 ^ 24)
      else ((trace p i (n + 6)).posMem sym).toInt := by
  have hen : (trace p i (n + 6)).posWrEnR = true := (posWrEnR_trace (n + 6)).trans h
  have hwrite : (trace p i (n + 7)).posMem = Function.update (trace p i (n + 6)).posMem
      (trace p i (n + 5)).p2.symbolIdP2 ((trace p i (n + 5)).p2.newNetR.setWidth 24) := by
    rw [trace_succ, step, hen]
    rfl
  rw [hwrite, p2_trace, show (checks (i n) (posRead p i n)).symbolIdP2 = (i n).symbolId from rfl]
  by_cases hs : (i n).symbolId = sym
  · rw [if_pos hs, hs, Function.update_self, toInt_written]
  · rw [if_neg hs, Function.update_of_ne (Ne.symm hs)]

/-- The other symbols keep their position. -/
theorem posMem_of_ne {n : Nat} {sym : SymId}
    (h : (trace p i n).riskPass = true → (passedIn i n).symbolId ≠ sym) :
    (trace p i (n + 1)).posMem sym = (trace p i n).posMem sym := by
  cases hp : (trace p i n).riskPass with
  | false => rw [posMem_of_not_riskPass hp]
  | true =>
      obtain ⟨t, rfl, -⟩ := scoreValid_of_riskPass hp
      have hne : (i t).symbolId ≠ sym := h hp
      refine BitVec.eq_of_toInt_eq ?_
      rw [posMem_of_riskPass hp, if_neg hne]

/-- A proposal is checked against the position of the cycle of its verdict, when the
proposals of its symbol are apart. -/
theorem posRead_eq (h : Spaced i) {n : Nat} (hv : (i n).scoreValid = true) :
    posRead p i n = (trace p i (n + 6)).posMem (i n).symbolId := by
  have hkept : ∀ k, 3 ≤ k → k < 6 → (trace p i (n + k + 1)).posMem (i n).symbolId =
      (trace p i (n + k)).posMem (i n).symbolId := by
    refine fun k h3 h6 => posMem_of_ne fun hp hs => ?_
    obtain ⟨t, ht, hvt⟩ := scoreValid_of_riskPass hp
    rw [passedIn, ht, Nat.add_sub_cancel] at hs
    have := h t n (by omega) hvt hv hs
    omega
  rw [posRead, ← hkept 3 (by omega) (by omega), ← hkept 4 (by omega) (by omega),
    ← hkept 5 (by omega) (by omega)]

/-! ## the limit -/

theorem passedShares_succ (n : Nat) (sym : SymId) : passedShares i (n + 1) sym =
    passedShares i n sym + if (trace noShares i n).riskPass ∧ (passedIn i n).symbolId = sym then
      signedShares (passedIn i n) else 0 :=
  Finset.sum_range_succ _ n

/-- What a proposal that passes leads to, when the positions are right so far. -/
theorem resulting_eq (h : Spaced i) {n : Nat} (hp : (trace noShares i (n + 6)).riskPass = true)
    (hstored : ((trace noShares i (n + 6)).posMem (i n).symbolId).toInt =
      passedShares i (n + 6) (i n).symbolId) :
    resulting (i n) (posRead noShares i n) = passedShares i (n + 7) (i n).symbolId := by
  obtain ⟨t, ht, hv⟩ := scoreValid_of_riskPass hp
  obtain rfl : n = t := by omega
  rw [passedShares_succ, show passedIn i (n + 6) = i n from rfl, if_pos ⟨hp, rfl⟩, resulting,
    posRead_eq h hv, hstored]

/-- **Step lemma**: the stored positions stay right if the order that passes, if any,
leads to one that can be stored. -/
theorem stored_succ (h : Spaced i) {n : Nat}
    (hstored : ∀ sym, ((trace noShares i n).posMem sym).toInt = passedShares i n sym)
    (hfits : (trace noShares i n).riskPass = true →
      Storable (passedShares i (n + 1) (passedIn i n).symbolId)) (sym : SymId) :
    ((trace noShares i (n + 1)).posMem sym).toInt = passedShares i (n + 1) sym := by
  by_cases hp : (trace noShares i n).riskPass = true ∧ (passedIn i n).symbolId = sym
  · obtain ⟨hpass, rfl⟩ := hp
    obtain ⟨t, rfl, -⟩ := scoreValid_of_riskPass hpass
    obtain ⟨hlo, hhi⟩ : Storable (passedShares i (t + 7) (i t).symbolId) := hfits hpass
    have hres := resulting_eq h hpass (hstored _)
    rw [show (passedIn i (t + 6)).symbolId = (i t).symbolId from rfl, posMem_of_riskPass hpass,
      if_pos rfl, hres]
    exact Int.bmod_eq_of_le (by omega) (by omega)
  · rw [posMem_of_ne fun hpass hs => hp ⟨hpass, hs⟩, hstored, passedShares_succ, if_neg hp,
      Int.add_zero]

/-- What the check has seen of an order that passes. -/
theorem riskPass_iff {posLimit : BitVec 24} (hlimit : ∀ n, (i n).posLimit = posLimit) {n : Nat}
    (hv : (i n).scoreValid = true) : (trace p i (n + 6)).riskPass = true ↔
      ReachesLimit (i n) ∧ seenAbs (resulting (i n) (posRead p i n)) ≤ posLimit.toNat := by
  rw [← fst_verdict_checks hv, ← hlimit (n + 5), ← outputs_add]

/-- **Position limit**: for proposals that are apart, with the limit held constant,
the positions are those of the orders that have passed, and none beyond the limit,
if and only if every proposal that comes to the position check leads to a position
that can be stored or is seen to exceed the limit. -/
theorem position_limit_iff (posLimit : BitVec 24) (i : Nat → RiskCheckIn)
    (hlimit : ∀ n, (i n).posLimit = posLimit) (h : Spaced i) :
    LimitHolds posLimit i ↔ ∀ n, (i n).scoreValid = true → ReachesLimit (i n) →
      Storable (resulting (i n) (posRead noShares i n)) ∨
        posLimit.toNat < seenAbs (resulting (i n) (posRead noShares i n)) := by
  constructor
  · intro hholds n hv hreach
    by_cases hseen : posLimit.toNat < seenAbs (resulting (i n) (posRead noShares i n))
    · exact Or.inr hseen
    · have hp := (riskPass_iff (p := noShares) hlimit hv).mpr ⟨hreach, Nat.not_lt.mp hseen⟩
      left
      rw [resulting_eq h hp (hholds.stored _ _), ← hholds.stored]
      exact ⟨BitVec.le_toInt _, BitVec.toInt_lt⟩
  · intro hfits
    have hpassed : ∀ n, (trace noShares i n).riskPass = true →
        (∀ sym, ((trace noShares i n).posMem sym).toInt = passedShares i n sym) →
        Storable (passedShares i (n + 1) (passedIn i n).symbolId) ∧
          (passedShares i (n + 1) (passedIn i n).symbolId).natAbs ≤ posLimit.toNat := by
      intro n hp hstored
      obtain ⟨t, rfl, hv⟩ := scoreValid_of_riskPass hp
      obtain ⟨hreach, hseen⟩ := (riskPass_iff hlimit hv).mp hp
      have hres := resulting_eq h hp (hstored _)
      have hfit := (hfits t hv hreach).resolve_right (Nat.not_lt.mpr hseen)
      obtain ⟨hlo, hhi⟩ := hfit
      have habs : seenAbs (resulting (i t) (posRead noShares i t)) =
          (resulting (i t) (posRead noShares i t)).natAbs := by
        rw [seenAbs, if_pos (by omega)]
      rw [habs] at hseen
      rw [show passedIn i (t + 6) = i t from rfl, ← hres]
      exact ⟨⟨hlo, hhi⟩, hseen⟩
    have hstored : ∀ n sym, ((trace noShares i n).posMem sym).toInt = passedShares i n sym := by
      intro n
      induction n with
      | zero => exact fun _ => rfl
      | succ n ih => exact stored_succ h ih fun hp => (hpassed n hp ih).1
    exact ⟨hstored, fun n hp => (hpassed n hp (hstored n)).2⟩

end Run

/-! ## a limit exceeded -/

/-- Orders of 1 and of `2^24 - 1` shares of one symbol, eight cycles apart. -/
def wrappingOrders : Nat → RiskCheckIn := buyOrders 1000 [(0, 1), (8, 0xFFFFFF)]

theorem mem_of_scoreValid {posLimit : BitVec 24} {orders : List (Nat × BitVec 24)} {n : Nat}
    (h : (buyOrders posLimit orders n).scoreValid = true) : n ∈ orders.map Prod.fst := by
  rw [buyOrders] at h
  split at h
  · next o ho =>
      have hmem := List.mem_of_find?_eq_some ho
      have heq : o.1 = n := by simpa using List.find?_some ho
      exact heq ▸ List.mem_map_of_mem hmem
  · cases h

theorem posLimit_buyOrders (posLimit : BitVec 24) (orders : List (Nat × BitVec 24)) (n : Nat) :
    (buyOrders posLimit orders n).posLimit = posLimit := by
  rw [buyOrders]
  split <;> rfl

/-- Both orders pass a limit of 1000. -/
theorem limit_exceeded : (∀ n, (wrappingOrders n).posLimit = 1000) ∧ Spaced wrappingOrders ∧
    ¬ LimitHolds 1000 wrappingOrders := by
  refine ⟨posLimit_buyOrders _ _, fun m n hlt hm hn _ => ?_, fun h => ?_⟩
  · have hm' : m = 0 ∨ m = 8 := by simpa using mem_of_scoreValid hm
    have hn' : n = 0 ∨ n = 8 := by simpa using mem_of_scoreValid hn
    omega
  · have hpass : (trace noShares wrappingOrders 14).riskPass = true := by decide +kernel
    have hshares : passedShares wrappingOrders 15 0 = 2 ^ 24 := by decide +kernel
    have hwithin := h.within 14 hpass
    rw [show (passedIn wrappingOrders 14).symbolId = 0 from rfl, hshares] at hwithin
    exact absurd hwithin (by decide)

/-- Orders of 100 and of 200 shares of one symbol, four cycles apart. -/
def keptOrders : Nat → RiskCheckIn := buyOrders 1000 [(0, 100), (4, 200)]

/-- Both pass, and the position of 300 is that of both. -/
theorem limit_kept : passedShares keptOrders 11 0 = 300 ∧ LimitHolds 1000 keptOrders := by
  have hcycles : ∀ n, (keptOrders n).scoreValid = true → n = 0 ∨ n = 4 := fun n hv => by
    simpa using mem_of_scoreValid hv
  refine ⟨by decide +kernel, (position_limit_iff 1000 keptOrders (posLimit_buyOrders _ _)
    fun m n hlt hm hn _ => ?_).mpr fun n hv _ => Or.inl ?_⟩
  · have hm' := hcycles m hm
    have hn' := hcycles n hn
    omega
  · have hres : resulting (keptOrders 0) (posRead noShares keptOrders 0) = 100 ∧
        resulting (keptOrders 4) (posRead noShares keptOrders 4) = 300 := by decide +kernel
    obtain rfl | rfl := hcycles n hv
    · rw [hres.1]
      exact ⟨by decide, by decide⟩
    · rw [hres.2]
      exact ⟨by decide, by decide⟩

end RiskCheck

end Lliu
