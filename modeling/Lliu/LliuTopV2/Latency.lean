import Lliu.LliuTopV2.Kill
import Lliu.LliuTopV2.Hold
import Lliu.OuchEngine.Encoding

/-!
# Lliu.LliuTopV2.Latency

Tick to trade.  The path from the ingress to the transmitter has no queue, so its latency is
one number: the first beat of a packet is on the bus 87 cycles after the beat was taken with
which its message got complete, and only the receiver can hold the packet up from there
(`tick_to_trade`).  An undelayed packet is out after 92 cycles, below the 100 of the
specification as long as the receiver stalls fewer than eight of them.
-/

namespace Lliu

namespace LliuTopV2

open Hdl OuchEngine

variable {i : Nat → LliuTopV2In}

/-! ## ingress -/

/-- A message gets complete with the beat taken in cycle `u`. -/
structure Completes (i : Nat → LliuTopV2In) (u : Nat) : Prop where
  beat : (trace i u).uParser.beat ((trace i u).parserIn (i u)) = true
  emit : (trace i (u + 1)).uParser.state = .sEmit

/-- Fields are valid two cycles after the last beat. -/
theorem completes_of_fieldsValid {t : Nat} (h : (trace i t).uParser.fieldsValid = true) :
    ∃ u, t = u + 2 ∧ Completes i u := by
  have hemit : ∀ n, (trace i (n + 1)).uParser.fieldsValid = true →
      (trace i n).uParser.state = .sEmit := fun n hn => by
    by_contra hne
    have hnot := ItchParserV2.fieldsValid_step (i := (trace i n).parserIn (i n)) (validInIdle_trace n) hne
    exact Bool.false_ne_true (hnot.symm.trans hn)
  match t, h with
  | 1, h => exact absurd (hemit 0 h) (show ParserState.sIdle ≠ .sEmit by decide)
  | u + 2, h =>
      refine ⟨u, rfl, ?_, hemit (u + 1) h⟩
      by_contra hb
      rw [Bool.not_eq_true] at hb
      exact ItchParserV2.not_emit_step hb (hemit (u + 1) h)

/-! ## the packet on the bus -/

/-- How often the receiver is ready in the first `m` cycles of the packet of cycle `a`. -/
def readyCount (i : Nat → LliuTopV2In) (a m : Nat) : Nat :=
  count (fun j => (i (a + 3 + j)).mAxisTready) m

/-- Three cycles after an order is taken its packet is on the bus. -/
theorem send_of_takes {a : Nat} (h : takes i a = true) :
    (trace i (a + 3)).uOuch.state = .sSend ∧ (trace i (a + 3)).uOuch.beatCnt = 0 ∧
    (trace i (a + 3)).uOuch.due = packetOf i a := by
  obtain ⟨hp, hidle⟩ := Bool.and_eq_true_iff.mp h
  have hidle' : (trace i a).uOuch.state = .sIdle := eq_of_beq hidle
  obtain ⟨hfetch, -⟩ := step_accept _ ((trace i a).ouchIn (i a)) hidle' hp
  obtain ⟨hload, -⟩ := step_fetch _ ((trace i (a + 1)).ouchIn (i (a + 1))) hfetch
  obtain ⟨hsend, -, -⟩ := step_load _ ((trace i (a + 2)).ouchIn (i (a + 2))) hload
  have hfetch' : (trace i (a + 1)).uOuch.state = .sFetch := hfetch
  have hload' : (trace i (a + 2)).uOuch.state = .sLoad := hload
  have hcnt : ((trace i (a + 2)).uOuch.step ((trace i (a + 2)).ouchIn (i (a + 2)))).beatCnt = 0 := by
    rw [OuchEngine.step, hload']
    rfl
  -- until the packet is on the bus nothing is given, and no other order is taken
  have hnone : ∀ n, (trace i n).uOuch.state ≠ .sSend →
      (trace i n).uOuch.gave ((trace i n).ouchIn (i n)) = none := fun n hn => by
    rw [gave, Bool.eq_false_iff.mpr fun hv => hn ((onBus_trace n).valid.mp hv), Bool.false_and]
    rfl
  have hkept : ∀ n, (trace i n).uOuch.state ≠ .sSend → (trace i n).uOuch.state ≠ .sIdle →
      (trace i (n + 1)).uOuch.due = (trace i n).uOuch.due := fun n hs hi => by
    have hflow := flow_trace (i := i) n
    rwa [hnone n hs, takes, beq_eq_false_iff_ne.mpr hi, Bool.and_false, if_neg Bool.false_ne_true,
      Option.toList_none, List.nil_append, List.append_nil] at hflow
  have hfirst : (trace i (a + 1)).uOuch.due = packetOf i a := by
    have hflow := flow_trace (i := i) a
    rwa [hnone a (by rw [hidle']; decide), if_pos h, Option.toList_none, List.nil_append,
      show (trace i a).uOuch.due = [] by rw [due, hidle'], List.nil_append] at hflow
  refine ⟨hsend, hcnt, ?_⟩
  rw [hkept (a + 2) (by rw [hload']; decide) (by rw [hload']; decide),
    hkept (a + 1) (by rw [hfetch']; decide) (by rw [hfetch']; decide), hfirst]

/-- **Step lemma**: a beat on the bus is transferred when the receiver is ready, and the rest of
the packet stays due. -/
theorem due_succ {n : Nat} (h : (trace i n).uOuch.state = .sSend) :
    (trace i n).uOuch.gave ((trace i n).ouchIn (i n)) =
      (if (i n).mAxisTready then (trace i n).uOuch.due.head? else none) ∧
    (trace i (n + 1)).uOuch.due =
      (trace i n).uOuch.due.drop (if (i n).mAxisTready then 1 else 0) := by
  have hvalid : (trace i n).uOuch.mAxisTvalid = true := (onBus_trace n).valid.mpr h
  have hdue : (trace i n).uOuch.due = (trace i n).uOuch.outBeat ::
      beatsAfter (trace i n).uOuch.beatBuf (trace i n).uOuch.beatCnt.toNat := by rw [due, h]
  have hgave : (trace i n).uOuch.gave ((trace i n).ouchIn (i n)) =
      if (i n).mAxisTready then some (trace i n).uOuch.outBeat else none := by
    rw [gave, hvalid, Bool.true_and]
    rfl
  have hflow := flow_trace (i := i) n
  rw [takes, h, show ((OuchState.sSend == .sIdle) = false) from rfl, Bool.and_false,
    if_neg Bool.false_ne_true, List.append_nil, hgave, hdue] at hflow
  rw [hgave, hdue]
  cases hr : (i n).mAxisTready with
  | false =>
      rw [hr, if_neg Bool.false_ne_true, Option.toList_none, List.nil_append] at hflow
      exact ⟨rfl, hflow⟩
  | true =>
      rw [hr, if_pos rfl, Option.toList_some, List.singleton_append] at hflow
      exact ⟨rfl, (List.cons.inj hflow).2⟩

/-- **Run lemma**: as long as the receiver has taken fewer than six beats, the packet is on the
bus, less those. -/
theorem sending_of_takes {a : Nat} (h : takes i a = true) {m : Nat} (hm : readyCount i a m ≤ 5) :
    (trace i (a + 3 + m)).uOuch.state = .sSend ∧
    (trace i (a + 3 + m)).uOuch.beatCnt.toNat = readyCount i a m ∧
    (trace i (a + 3 + m)).uOuch.due = (packetOf i a).drop (readyCount i a m) := by
  induction m with
  | zero =>
      obtain ⟨hsend, hcnt, hdue⟩ := send_of_takes h
      exact ⟨hsend, by rw [Nat.add_zero, hcnt]; rfl, hdue⟩
  | succ m ih =>
      have hcount : readyCount i a (m + 1) = readyCount i a m + (i (a + 3 + m)).mAxisTready.toNat :=
        count_succ _ _
      obtain ⟨hsend, hcnt, hdue⟩ := ih (by omega)
      obtain ⟨hstate, hnext, -⟩ := step_send ((trace i (a + 3 + m)).ouchIn (i (a + 3 + m))) hsend
      obtain ⟨-, hrest⟩ := due_succ hsend
      have hmore : ¬ ((i (a + 3 + m)).mAxisTready = true ∧ (trace i (a + 3 + m)).uOuch.beatCnt = 5) := by
        rintro ⟨hr, hlast⟩
        rw [hr, Bool.toNat_true, ← hcnt, hlast] at hcount
        have hfive : (5 : BitVec 3).toNat = 5 := rfl
        omega
      refine ⟨hstate.trans (if_neg hmore), ?_, ?_⟩
      · by_cases hr : (i (a + 3 + m)).mAxisTready = true
        · have hne : (trace i (a + 3 + m)).uOuch.beatCnt ≠ 5 := fun hlast => hmore ⟨hr, hlast⟩
          have hbeat := congrArg BitVec.toNat (hnext.trans (if_pos ⟨hr, hne⟩))
          rw [BitVec.toNat_add, hcnt] at hbeat
          rw [hr, Bool.toNat_true] at hcount
          rw [hcount]
          exact hbeat.trans (Nat.mod_eq_of_lt (show readyCount i a m + 1 < 2 ^ 3 by omega))
        · have hbeat := congrArg BitVec.toNat (hnext.trans (if_neg fun hc => hr hc.1))
          rw [Bool.eq_false_iff.mpr hr, Bool.toNat_false, Nat.add_zero] at hcount
          rw [hcount]
          exact hbeat.trans hcnt
      · rw [← Nat.add_assoc, hrest, hdue, List.drop_drop, hcount]
        cases (i (a + 3 + m)).mAxisTready <;> rfl

/-- **Tick to trade**: every packet is of a message whose last beat was taken 84 cycles before
the order; its beat `k` is transferred in the cycle in which the receiver is ready for the
`k + 1`-th time from 87 cycles after that beat on. -/
theorem tick_to_trade (i : Nat → LliuTopV2In) {a : Nat} (h : takes i a = true) :
    ∃ u, a = u + 84 ∧ Completes i u ∧
      ∀ m k, k < 6 → count (fun j => (i (u + 87 + j)).mAxisTready) m = k →
        (i (u + 87 + m)).mAxisTready = true →
        (trace i (u + 87 + m)).uOuch.gave ((trace i (u + 87 + m)).ouchIn (i (u + 87 + m))) =
          (packetOf i a)[k]? := by
  obtain ⟨n, rfl, hn⟩ := bestValid_of_riskPass (Bool.and_eq_true_iff.mp h).1
  obtain ⟨b, rfl, hb⟩ := taken_of_bestValid hn
  obtain ⟨c, rfl, hc⟩ := hb.message
  obtain ⟨t, rfl, ht⟩ := fieldsValid_of_featExtFv hc
  obtain ⟨u, rfl, hu⟩ := completes_of_fieldsValid ht
  refine ⟨u, by omega, hu, fun m k hk hcount hr => ?_⟩
  have ha : u + 2 + 3 + 7 + 66 + 6 + 3 = u + 87 := by omega
  have hready : readyCount i (u + 2 + 3 + 7 + 66 + 6) m = k := by rw [readyCount, ha, hcount]
  obtain ⟨hsend, -, hdue⟩ := sending_of_takes h (m := m) (by omega)
  rw [ha] at hsend hdue
  rw [(due_succ hsend).1, hr, if_pos rfl, hdue, hready, List.head?_drop]

/-- The first order of two is on the bus from cycle 131 on. -/
theorem latency_twoOrders : takes twoOrders 128 = true ∧ ∃ u, 128 = u + 84 ∧ Completes twoOrders u ∧
    ∀ m k, k < 6 → count (fun j => (twoOrders (u + 87 + j)).mAxisTready) m = k →
      (twoOrders (u + 87 + m)).mAxisTready = true →
      (trace twoOrders (u + 87 + m)).uOuch.gave
        ((trace twoOrders (u + 87 + m)).ouchIn (twoOrders (u + 87 + m))) = (packetOf twoOrders 128)[k]? := by
  have htakes : takes twoOrders 128 = true := by decide +kernel
  exact ⟨htakes, tick_to_trade twoOrders htakes⟩

end LliuTopV2

end Lliu
