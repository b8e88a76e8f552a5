import Lliu.Hdl.Axis
import Lliu.OuchEngine

/-!
# Lliu.OuchEngine.Packets

The beats that the engine sends.  An order taken in `S_IDLE` makes a packet of six
beats, and what is on the bus now and what is still due are always what the orders
taken so far have made (`flow_step`).  An order offered in another state leaves no
trace.
-/

namespace Lliu

namespace OuchEngine

open Hdl

/-- The beat on the bus. -/
def outBeat (s : OuchEngine) : Beat := ⟨s.mAxisTdata, s.mAxisTkeep, s.mAxisTlast⟩

/-- The beat transferred in a cycle. -/
def gave (s : OuchEngine) (i : OuchEngineIn) : Option Beat :=
  if s.mAxisTvalid && i.mAxisTready then some s.outBeat else none

/-- The order at the inputs. -/
def orderIn (i : OuchEngineIn) : LatchedOrder := ⟨i.symbolId, i.side, i.price, i.proposedShares⟩

/-- The packet of an order. -/
def packet (token : BitVec 64) (o : LatchedOrder) (t : OuchTemplate (BitVec 32) (BitVec 64)) :
    List Beat :=
  [⟨msgType ++ token.extractLsb' 8 56, 0xFF, false⟩,
    ⟨token.setWidth 8 ++ 0x303030303030#48 ++ sideByte o.side, 0xFF, false⟩,
    ⟨0#8 ++ o.shares ++ t.b2, 0xFF, false⟩, ⟨t.b3 ++ o.price, 0xFF, false⟩,
    ⟨t.b4, 0xFF, false⟩, ⟨t.b5, 0xFF, true⟩]

/-- The beats of a packet buffer after beat `c`. -/
def beatsAfter (buf : BitVec 3 → BitVec 64) (c : Nat) : List Beat :=
  ((List.range 6).drop (c + 1)).map fun k => ⟨buf (BitVec.ofNat 3 k), 0xFF, k == 5⟩

/-- The beats still to be sent. -/
def due (s : OuchEngine) : List Beat :=
  match s.state with
  | .sIdle => []
  | .sFetch => packet s.orderToken s.latched (s.readTemplate s.latchSymId)
  | .sLoad => packet s.orderToken s.latched s.tmplRd
  | .sSend => s.outBeat :: beatsAfter s.beatBuf s.beatCnt.toNat

/-- A beat is on the bus in `S_SEND` only. -/
structure OnBus (s : OuchEngine) : Prop where
  valid : s.mAxisTvalid = true ↔ s.state = .sSend
  le : s.state = .sSend → s.beatCnt ≤ 5

theorem onBus_reset : OnBus reset := ⟨by decide, fun h => absurd h (by decide)⟩

section Step

variable {s : OuchEngine} {i : OuchEngineIn}

/-- What every clock edge does: templates and the watchdog. -/
theorem advance_eq (s : OuchEngine) (i : OuchEngineIn) : ∃ bp clr ovf, s.advance i =
    { s with
      tmpl := s.writeTemplate i
      tmplRd := s.readTemplate s.latchSymId
      bpCnt := bp
      clrCnt := clr
      txOvfR := ovf } := by
  rw [advance, stepWatchdog]
  split_ifs <;> exact ⟨_, _, _, rfl⟩

theorem OnBus.step (h : OnBus s) : OnBus (s.step i) := by
  obtain ⟨bp, clr, ovf, hadv⟩ := advance_eq s i
  have hvalid := h.valid
  cases hst : s.state with
  | sIdle =>
      simp only [OuchEngine.step, hst, stepIdle, hadv]
      split <;> exact ⟨by simp, by simp⟩
  | sFetch =>
      rw [hst] at hvalid
      simp only [OuchEngine.step, hst, hadv]
      exact ⟨by simpa using hvalid, by simp⟩
  | sLoad =>
      simp only [OuchEngine.step, hst, stepLoad, hadv]
      exact ⟨by simp, fun _ => show (0 : BitVec 3) ≤ 5 by decide⟩
  | sSend =>
      rw [hst] at hvalid
      have hle := h.le hst
      simp only [OuchEngine.step, hst, stepSend, hadv]
      split
      · split
        · exact ⟨by simp, by simp⟩
        · exact ⟨hvalid, fun _ => show s.beatCnt + 1 ≤ 5 by bv_omega⟩
      · exact ⟨hvalid, fun _ => hle⟩

theorem beatsAfter_cons (buf : BitVec 3 → BitVec 64) {c : BitVec 3} (hc : c < 5) :
    beatsAfter buf c.toNat = ⟨buf (c + 1), 0xFF, c == 4⟩ :: beatsAfter buf (c + 1).toNat := by
  have hcases : c = 0 ∨ c = 1 ∨ c = 2 ∨ c = 3 ∨ c = 4 := by bv_omega
  rcases hcases with rfl | rfl | rfl | rfl | rfl <;> rfl

/-- **Flow**: a cycle passes on what is due and takes up the packet of an order
offered in `S_IDLE`. -/
theorem flow_step (h : OnBus s) : (s.gave i).toList ++ (s.step i).due =
    s.due ++ if s.state = .sIdle ∧ i.riskPass = true then
      packet s.orderToken (orderIn i) ((s.step i).readTemplate i.symbolId) else [] := by
  obtain ⟨bp, clr, ovf, hadv⟩ := advance_eq s i
  have hnone : s.state ≠ .sSend → s.gave i = none := fun hne => by
    rw [gave, Bool.eq_false_iff.mpr fun hv => hne (h.valid.mp hv)]
    rfl
  cases hst : s.state with
  | sIdle =>
      rw [hnone (by simp [hst])]
      cases hp : i.riskPass with
      | false => simp [step, hst, stepIdle, hadv, hp, due]
      | true =>
          simp only [step, hst, stepIdle, hadv, hp, due, if_true, and_self]
          rfl
  | sFetch =>
      rw [hnone (by simp [hst])]
      simp only [step, hst, hadv, due, reduceCtorEq, false_and, if_false, List.append_nil]
      rfl
  | sLoad =>
      rw [hnone (by simp [hst])]
      simp only [step, hst, stepLoad, hadv, due, reduceCtorEq, false_and, if_false, List.append_nil]
      rfl
  | sSend =>
      have hv := h.valid.mpr hst
      have hle := h.le hst
      simp only [step, hst, stepSend, hadv, due, gave, hv, reduceCtorEq, false_and, if_false,
        List.append_nil, Bool.true_and]
      cases hr : i.mAxisTready with
      | false =>
          simp only [Bool.false_eq_true, if_false]
          rfl
      | true =>
          by_cases hc : s.beatCnt = 5
          · simp only [hc, if_true]
            rfl
          · have hlt : s.beatCnt < 5 := by bv_omega
            have hult : s.beatCnt.ult 5 = true := by rwa [BitVec.ult_eq_decide, decide_eq_true_eq]
            simp only [hc, hult, if_true, if_false, beatsAfter_cons s.beatBuf hlt]
            rfl

end Step

end OuchEngine

end Lliu
