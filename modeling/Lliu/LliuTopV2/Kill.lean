import Lliu.LliuTopV2.Packets

/-!
# Lliu.LliuTopV2.Kill

The kill switch.  A write of 1 to bit 0 of `RISK_CTRL` sets `kill_sw_r`, and nothing
but a reset clears it.  The proposals that are in the risk check by then may still
pass; six cycles later no order passes any more, the OUCH engine is left with at most
the packet of an order it has taken before, and the positions stand still.
-/

namespace Lliu

namespace Axil

variable {s : Axil} {i : LliuTopV2In} {rd blocked : Bool}

/-- A write of 1 to bit 0 of `RISK_CTRL` is applied in this cycle. -/
structure KillWrite (s : Axil) : Prop where
  fire : s.fire = true
  addr : s.wrAddrR = 0x40C#12
  data : s.wrDataR.getLsbD 0 = true

theorem killSwR_writeReg (s d : Axil) : (s.writeReg d).killSwR =
    if s.wrAddrR = 0x40C#12 ∧ s.wrDataR.getLsbD 0 = true then true else d.killSwR := rfl

theorem KillWrite.step (h : KillWrite s) : (s.step i rd blocked).killSwR = true := by
  rw [Axil.step, h.fire, if_pos rfl, h.addr, if_neg (by decide), killSwR_writeReg,
    if_pos ⟨h.addr, h.data⟩]

/-- No write clears the switch. -/
theorem killSwR_step (h : s.killSwR = true) : (s.step i rd blocked).killSwR = true := by
  have hadv : (s.advance i rd blocked).killSwR = true := h
  rw [Axil.step]
  split
  · split
    · exact hadv
    · rw [killSwR_writeReg]
      split
      · rfl
      · exact hadv
  · exact hadv

end Axil

namespace LliuTopV2

open Hdl OuchEngine

variable {i : Nat → LliuTopV2In} {n : Nat}

/-- The switch stays set. -/
theorem killSwR_trace (h : (trace i n).axil.killSwR = true) (k : Nat) :
    (trace i (n + k)).axil.killSwR = true := by
  induction k with
  | zero => exact h
  | succ k ih => exact Axil.killSwR_step ih

/-- A proposal made with the switch set does not pass. -/
theorem not_passes_of_killSwR (h : (trace i n).axil.killSwR = true) : passes i (n + 6) = false := by
  have hkill : (trace i (n + 5)).uRisk.p2.killSwP2 = true := h
  change (RiskCheck.verdict (trace i (n + 5)).uRisk.p2 _).1 = false
  rw [RiskCheck.verdict, hkill, Bool.true_or]
  split <;> rfl

/-! ## what is due -/

/-- What the engine has still to send is the rest of the packet of an order that it
has taken. -/
theorem due_of_takes (n : Nat) : (trace i n).uOuch.due = [] ∨
    ∃ a, a < n ∧ takes i a = true ∧ (trace i n).uOuch.due <:+ packetOf i a := by
  induction n with
  | zero => exact Or.inl rfl
  | succ n ih =>
      have hflow := flow_trace (i := i) n
      cases ht : takes i n with
      | true =>
          have hidle := eq_of_beq (Bool.and_eq_true_iff.mp ht).2
          have hdue : (trace i n).uOuch.due = [] := by rw [due, hidle]
          rw [hdue, ht, if_pos rfl, List.nil_append] at hflow
          exact Or.inr ⟨n, Nat.lt_succ_self n, ht, ⟨_, hflow⟩⟩
      | false =>
          rw [ht, if_neg Bool.false_ne_true, List.append_nil] at hflow
          have hsuffix : (trace i (n + 1)).uOuch.due <:+ (trace i n).uOuch.due := ⟨_, hflow⟩
          rcases ih with hnil | ⟨a, hlt, ha, hrest⟩
          · left
            rw [hnil] at hsuffix
            exact List.suffix_nil.mp hsuffix
          · exact Or.inr ⟨a, by omega, ha, hsuffix.trans hrest⟩

/-- Without further orders only what is due is sent. -/
theorem transferred_of_quiet (h : ∀ m, n ≤ m → takes i m = false) (k : Nat) :
    transferred i (n + k) ++ (trace i (n + k)).uOuch.due =
      transferred i n ++ (trace i n).uOuch.due := by
  induction k with
  | zero => rfl
  | succ k ih =>
      rw [← Nat.add_assoc, transferred_succ, h (n + k) (by omega), if_neg Bool.false_ne_true,
        List.append_nil, ih]

/-! ## the switch is final -/

/-- **Kill switch**: once the write has been applied in cycle `n` the switch stays
set; from six cycles after that no order passes and the engine takes none, so what it
sends is the rest of at most one packet, that of an order taken before; and no
position changes. -/
theorem kill_final (h : (trace i n).axil.KillWrite) :
    (∀ m, n + 1 ≤ m → (trace i m).axil.killSwR = true) ∧
    (∀ m, n + 1 + 6 ≤ m → passes i m = false ∧ takes i m = false) ∧
    (∃ rest, (rest = [] ∨ ∃ a, a < n + 1 + 6 ∧ takes i a = true ∧ rest <:+ packetOf i a) ∧
      ∀ k, transferred i (n + 1 + 6 + k) ++ (trace i (n + 1 + 6 + k)).uOuch.due =
        transferred i (n + 1 + 6) ++ rest) ∧
    (∀ m, n + 1 + 6 ≤ m → position i m = position i (n + 1 + 6)) := by
  have hset : (trace i (n + 1)).axil.killSwR = true := h.step
  have hkill : ∀ m, n + 1 ≤ m → (trace i m).axil.killSwR = true := fun m hm => by
    obtain ⟨k, rfl⟩ := Nat.exists_eq_add_of_le hm
    exact killSwR_trace hset k
  have hpass : ∀ m, n + 1 + 6 ≤ m → passes i m = false := fun m hm => by
    obtain ⟨k, rfl⟩ := Nat.exists_eq_add_of_le hm
    rw [show n + 1 + 6 + k = n + 1 + k + 6 by omega]
    exact not_passes_of_killSwR (hkill _ (by omega))
  have htake : ∀ m, n + 1 + 6 ≤ m → takes i m = false := fun m hm => by
    rw [takes, hpass m hm, Bool.false_and]
  refine ⟨hkill, fun m hm => ⟨hpass m hm, htake m hm⟩, ⟨_, due_of_takes (n + 1 + 6),
    transferred_of_quiet htake⟩, fun m hm => ?_⟩
  induction m, hm using Nat.le_induction with
  | base => rfl
  | succ m hm ih => rw [position_of_not_passes (hpass m hm), ih]

/-! ## an order under way -/

/-- An Add Order of a watched stock, and a kill write applied in the cycle of its
score. -/
def killedOrder : Nat → LliuTopV2In :=
  Schedule.inputs
    { axis := frameAt 0 (addFrame 1 buy 10 1000 0x4D53465420202020#64) ++
        frameAt 15 (addFrame 2 sell 10 1000 0x4D53465420202020#64) ++
        frameAt 26 (addFrame 3 buy 10 990 aapl)
      axil := watchAapl ++ [(107, 0x40C#12, 1#32)] }

/-- The order still passes and is the last one to do so. -/
theorem last_order_passes : takes killedOrder 114 = true ∧
    (∀ m, 115 ≤ m → passes killedOrder m = false) ∧
    ∀ m, 115 ≤ m → position killedOrder m = position killedOrder 115 := by
  have hrun : ((trace killedOrder 108).axil.fire = true ∧
      (trace killedOrder 108).axil.wrAddrR = 0x40C#12 ∧
      (trace killedOrder 108).axil.wrDataR.getLsbD 0 = true) ∧
      takes killedOrder 114 = true := by decide +kernel
  obtain ⟨⟨hfire, haddr, hdata⟩, htake⟩ := hrun
  obtain ⟨-, hpass, -, hpos⟩ := kill_final (i := killedOrder) (n := 108) ⟨hfire, haddr, hdata⟩
  exact ⟨htake, fun m hm => (hpass m hm).1, hpos⟩

end LliuTopV2

end Lliu
