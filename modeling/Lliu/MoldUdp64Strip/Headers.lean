import Lliu.MoldUdp64Strip

/-!
# Lliu.MoldUdp64Strip.Headers

The MoldUDP64 headers that a run completes, and the registers kept about them.
A header is gathered over the last two of three beats, with any gaps between
them.  It is accepted when its sequence number is the one expected; the
expected number is the count of the messages accepted, and the drop counter that
of the headers rejected (`sequence_accounting`).

The `seq_num` output is the register in which the number is gathered, and in the
cycle of `seq_valid` the two bytes of beat 2 are not yet in it
(`header_outputs_iff`).
-/

namespace Lliu

namespace MoldUdp64Strip

open Hdl

/-- The state in cycle `n` of a run from reset. -/
def trace (i : Nat → MoldUdp64StripIn) (n : Nat) : MoldUdp64Strip := run step reset i n

/-! ## completed headers -/

/-- The fields of a header. -/
structure Header where
  seqNum : BitVec 64
  msgCount : BitVec 16
  deriving DecidableEq, Repr

/-- The header whose second and third beat are given. -/
def Header.ofBeats (b₁ b₂ : Beat) : Header where
  seqNum := seqNumHi b₁.tdata ++ (tdataByte b₂.tdata 0 ++ tdataByte b₂.tdata 1)
  msgCount := tdataByte b₂.tdata 2 ++ tdataByte b₂.tdata 3

/-- The last beat taken before cycle `n`. -/
def lastTaken (i : Nat → MoldUdp64StripIn) (n : Nat) : Beat :=
  (taken reset i n).getLast?.getD ⟨0, 0, false⟩

/-- The header completed in cycle `n`: its second beat is the last one taken. -/
def headerAt (i : Nat → MoldUdp64StripIn) (n : Nat) : Option Header :=
  if (trace i n).headerAcceptB2 (i n) then some (Header.ofBeats (lastTaken i n) (i n).beat) else none

/-- The headers completed before cycle `n`. -/
def headers (i : Nat → MoldUdp64StripIn) (n : Nat) : List Header := collect (headerAt i) n

/-- The headers among them for which `seq_valid` has pulsed. -/
def accepted (i : Nat → MoldUdp64StripIn) (n : Nat) : List Header :=
  collect (fun k => (headerAt i k).filter fun _ => (trace i k).seqValid (i k)) n

/-- The headers among them for which it has not. -/
def rejected (i : Nat → MoldUdp64StripIn) (n : Nat) : List Header :=
  collect (fun k => (headerAt i k).filter fun _ => !(trace i k).seqValid (i k)) n

/-! ## the gathered sequence number -/

section Gather

variable {s : MoldUdp64Strip} {i : MoldUdp64StripIn}

theorem extractLsb'_hi (a : BitVec 48) (b : BitVec 16) : (a ++ b).extractLsb' 16 48 = a :=
  BitVec.extractLsb'_append_eq_left

theorem extractLsb'_lo (a : BitVec 48) (b : BitVec 16) : (a ++ b).extractLsb' 0 16 = b :=
  BitVec.extractLsb'_append_eq_right

theorem headerAcceptB2_of_ne (h : s.state ≠ .sHeaderB2) : s.headerAcceptB2 i = false := by
  simp [headerAcceptB2, h]

/-- Only beats 1 and 2 write the gathered number. -/
theorem seqNumR_of_ne (h1 : s.state ≠ .sHeaderB1) (h2 : s.state ≠ .sHeaderB2) :
    (s.step i).seqNumR = s.seqNumR ∧ (s.step i).state ≠ .sHeaderB2 := by
  cases hst : s.state with
  | sHeaderB1 => exact absurd hst h1
  | sHeaderB2 => exact absurd hst h2
  | sHeaderB0 =>
      simp only [step, next, hst, stepHeaderB0]
      split_ifs <;> simp [hst]
  | sPayload =>
      simp only [step, next, hst, stepPayload]
      split_ifs <;> simp [hst]
  | sDrop | sFlushShort =>
      simp only [step, next, hst]
      split_ifs <;> simp [hst]

/-- Beat 1 loads the upper bytes and leaves the lower ones. -/
theorem seqNumR_b1 (h : s.state = .sHeaderB1) :
    (s.step i).seqNumR.extractLsb' 0 16 = s.seqNumR.extractLsb' 0 16 ∧
    ((s.step i).state = .sHeaderB2 → s.got i = some i.beat ∧
      (s.step i).seqNumR.extractLsb' 16 48 = seqNumHi i.sTdata) := by
  simp only [step, next, h, stepHeaderB1]
  split_ifs with hv
  · simp
  · simp [extractLsb'_hi, extractLsb'_lo, got, hv, sTready, h]
  · simp [h]

/-- A complete header loads the lower bytes. -/
theorem seqNumR_b2 (h : s.state = .sHeaderB2) :
    (s.step i).seqNumR.extractLsb' 0 16 =
      (if s.headerAcceptB2 i then tdataByte i.sTdata 0 ++ tdataByte i.sTdata 1
      else s.seqNumR.extractLsb' 0 16) ∧
    ((s.step i).state = .sHeaderB2 → s.got i = none ∧ (s.step i).seqNumR = s.seqNumR) := by
  simp only [step, next, h, stepHeaderB2, headerAcceptB2, got, sTready]
  cases hv : i.sTvalid with
  | false => simp
  | true =>
      cases hb : headerB2Valid i <;> cases ho : s.headerInOrderB2 i <;> cases hl : i.sTlast <;>
        simp [headerSeqNumB2, extractLsb'_lo]

end Gather

section Run

variable {i : Nat → MoldUdp64StripIn} {n : Nat}

theorem trace_succ (n : Nat) : trace i (n + 1) = (trace i n).step (i n) := rfl

/-- The low bytes of the number gathered: those of the last header completed. -/
def lastLow (i : Nat → MoldUdp64StripIn) (n : Nat) : BitVec 16 :=
  ((headers i n).getLast?.map fun h => h.seqNum.extractLsb' 0 16).getD 0

theorem lastLow_succ (n : Nat) : lastLow i (n + 1) =
    ((headerAt i n).map fun h => h.seqNum.extractLsb' 0 16).getD (lastLow i n) := by
  rw [lastLow, headers, collect_succ]
  cases headerAt i n with
  | none => simp [lastLow, headers]
  | some h => simp

theorem lastTaken_succ (n : Nat) :
    lastTaken i (n + 1) = ((trace i n).got (i n)).getD (lastTaken i n) := by
  rw [lastTaken, taken, collect_succ]
  change ((taken reset i n) ++ ((trace i n).got (i n)).toList).getLast?.getD _ = _
  cases (trace i n).got (i n) with
  | none => simp [lastTaken]
  | some b => simp

/-- **Invariant**: the low bytes gathered are those of the last header
completed, and before beat 2 the upper bytes are those of beat 1. -/
theorem gathered (n : Nat) : (trace i n).seqNumR.extractLsb' 0 16 = lastLow i n ∧
    ((trace i n).state = .sHeaderB2 →
      (trace i n).seqNumR.extractLsb' 16 48 = seqNumHi (lastTaken i n).tdata) := by
  induction n with
  | zero => exact ⟨rfl, fun h => nomatch h⟩
  | succ n ih =>
      obtain ⟨hlow, hhi⟩ := ih
      rw [lastLow_succ, lastTaken_succ, trace_succ]
      by_cases h2 : (trace i n).state = .sHeaderB2
      · obtain ⟨hb, hn⟩ := seqNumR_b2 (i := i n) h2
        refine ⟨?_, fun hst => ?_⟩
        · rw [hb, headerAt]
          split
          · exact (extractLsb'_lo _ _).symm
          · exact hlow
        · rw [(hn hst).1, (hn hst).2]
          exact hhi h2
      · have hnone : headerAt i n = none := by rw [headerAt, headerAcceptB2_of_ne h2]; rfl
        rw [hnone]
        by_cases h1 : (trace i n).state = .sHeaderB1
        · obtain ⟨hb, hn⟩ := seqNumR_b1 (i := i n) h1
          refine ⟨hb.trans hlow, fun hst => ?_⟩
          rw [(hn hst).1]
          exact (hn hst).2
        · obtain ⟨hb, hn⟩ := seqNumR_of_ne (i := i n) h1 h2
          rw [hb]
          exact ⟨hlow, fun hst => absurd hst hn⟩

/-- The header completed in a cycle, as the code decodes it. -/
theorem headerAt_eq_some {h : Header} (hh : headerAt i n = some h) :
    (trace i n).headerAcceptB2 (i n) = true ∧ (trace i n).headerSeqNumB2 (i n) = h.seqNum ∧
    headerMsgCountB2 (i n) = h.msgCount := by
  rw [headerAt] at hh
  split at hh
  · rename_i hacc
    obtain rfl := Option.some.inj hh
    have hst : (trace i n).state = .sHeaderB2 := by
      by_contra hne
      rw [headerAcceptB2_of_ne hne] at hacc
      cases hacc
    exact ⟨hacc, by rw [headerSeqNumB2, (gathered n).2 hst]; rfl, rfl⟩
  · cases hh

theorem headerAt_eq_none (h : headerAt i n = none) : (trace i n).headerAcceptB2 (i n) = false := by
  by_contra hne
  rw [Bool.not_eq_false] at hne
  simp [headerAt, hne] at h

/-- A completed header is accepted if and only if its number is the one expected. -/
theorem seqValid_iff {h : Header} (hh : headerAt i n = some h) :
    (trace i n).seqValid (i n) = true ↔ h.seqNum = (trace i n).expectedSeqNum := by
  obtain ⟨hacc, hseq, -⟩ := headerAt_eq_some hh
  rw [seqValid, hacc, Bool.true_and, headerInOrderB2, hseq, beq_iff_eq]

theorem seqValid_eq_false (hh : headerAt i n = none) : (trace i n).seqValid (i n) = false := by
  rw [seqValid, headerAt_eq_none hh, Bool.false_and]

/-! ## the expected number and the drop counter -/

/-- The expected number moves by the message count of each accepted header. -/
theorem expectedSeqNum_succ (n : Nat) : (trace i (n + 1)).expectedSeqNum =
    if (trace i n).seqValid (i n) then
      (trace i n).expectedSeqNum + (headerMsgCountB2 (i n)).setWidth 64
    else (trace i n).expectedSeqNum := by
  rw [trace_succ]
  change (if (trace i n).seqValid (i n) then _ else _) = _
  split
  · rename_i hv
    rw [seqValid, Bool.and_eq_true, headerInOrderB2, beq_iff_eq] at hv
    rw [hv.2]
  · rfl

theorem expectedSeqNum_eq (n : Nat) : (trace i n).expectedSeqNum.toNat =
    (1 + ((accepted i n).map fun h => h.msgCount.toNat).sum) % 2 ^ 64 := by
  induction n with
  | zero => rfl
  | succ n ih =>
      rw [expectedSeqNum_succ, accepted, collect_succ]
      cases hh : headerAt i n with
      | none =>
          rw [seqValid_eq_false hh]
          simpa [accepted] using ih
      | some h =>
          cases hv : (trace i n).seqValid (i n) with
          | false => simpa [accepted, Option.filter] using ih
          | true =>
              have hcount : (h.msgCount.setWidth 64).toNat = h.msgCount.toNat := by
                rw [BitVec.toNat_setWidth]
                exact Nat.mod_eq_of_lt (lt_of_lt_of_le h.msgCount.isLt (by decide))
              rw [if_pos rfl, (headerAt_eq_some hh).2.2, BitVec.toNat_add, ih, hcount,
                Nat.mod_add_mod, Nat.add_assoc]
              simp [accepted, Option.filter]

/-- The drop counter moves with each rejected header, and stops at its top. -/
theorem droppedDatagrams_eq (n : Nat) :
    (trace i n).droppedDatagrams.toNat = min (rejected i n).length (2 ^ 32 - 1) := by
  induction n with
  | zero => rfl
  | succ n ih =>
      have hstep : (trace i (n + 1)).droppedDatagrams =
          if (trace i n).headerAcceptB2 (i n) && !(trace i n).headerInOrderB2 (i n) &&
            (trace i n).droppedDatagrams != 0xFFFFFFFF#32 then (trace i n).droppedDatagrams + 1
          else (trace i n).droppedDatagrams := rfl
      rw [hstep, rejected, collect_succ, List.length_append]
      change _ = min ((rejected i n).length + _) _
      cases hh : headerAt i n with
      | none => simpa [headerAt_eq_none hh] using ih
      | some h =>
          have hacc := (headerAt_eq_some hh).1
          rw [seqValid, hacc, Bool.true_and, Bool.true_and]
          cases ho : (trace i n).headerInOrderB2 (i n) with
          | true => simpa [Option.filter] using ih
          | false =>
              by_cases htop : (trace i n).droppedDatagrams = 0xFFFFFFFF#32
              · have hlen : 2 ^ 32 - 1 ≤ (rejected i n).length := by
                  rw [htop] at ih
                  change 2 ^ 32 - 1 = _ at ih
                  omega
                simp only [htop, Option.filter, Bool.not_false, if_true, Option.toList_some,
                  List.length_singleton, bne_self_eq_false, Bool.and_false, Bool.false_eq_true, if_false]
                change 2 ^ 32 - 1 = _
                omega
              · have hlt : (trace i n).droppedDatagrams.toNat < 2 ^ 32 - 1 := by
                  have := (trace i n).droppedDatagrams.isLt
                  have hne : (trace i n).droppedDatagrams.toNat ≠ 2 ^ 32 - 1 := fun he =>
                    htop (BitVec.eq_of_toNat_eq he)
                  omega
                simp only [Option.filter, Bool.not_false, if_true, Option.toList_some,
                  List.length_singleton, Bool.true_and, bne_iff_ne, ne_eq, htop, not_false_eq_true]
                rw [BitVec.toNat_add, Nat.mod_eq_of_lt (by simp; omega)]
                simp
                omega

/-- **Sequence accounting**: in every cycle of every run the expected number is
one plus the message counts of the accepted headers, modulo `2 ^ 64`; a header
completed in the cycle is accepted if and only if its number is the expected
one, and leaves the expected number alone if it is rejected; and the drop
counter is the number of rejected headers, up to its top. -/
theorem sequence_accounting (i : Nat → MoldUdp64StripIn) (n : Nat) :
    (trace i n).expectedSeqNum.toNat =
      (1 + ((accepted i n).map fun h => h.msgCount.toNat).sum) % 2 ^ 64 ∧
    (∀ h, headerAt i n = some h →
      ((trace i n).seqValid (i n) = true ↔ h.seqNum = (trace i n).expectedSeqNum) ∧
      ((trace i n).seqValid (i n) = false →
        (trace i (n + 1)).expectedSeqNum = (trace i n).expectedSeqNum)) ∧
    (headerAt i n = none → (trace i n).seqValid (i n) = false ∧
      (trace i (n + 1)).expectedSeqNum = (trace i n).expectedSeqNum) ∧
    (trace i n).droppedDatagrams.toNat = min (rejected i n).length (2 ^ 32 - 1) := by
  have hkept : (trace i n).seqValid (i n) = false →
      (trace i (n + 1)).expectedSeqNum = (trace i n).expectedSeqNum := fun hv => by
    rw [expectedSeqNum_succ, hv, if_neg Bool.false_ne_true]
  refine ⟨expectedSeqNum_eq n, fun h hh => ⟨seqValid_iff hh, hkept⟩, fun hh => ?_,
    droppedDatagrams_eq n⟩
  exact ⟨seqValid_eq_false hh, hkept (seqValid_eq_false hh)⟩

/-! ## the header outputs -/

/-- Whenever `seq_valid` is high the outputs are the fields of the header that
is completed in the cycle. -/
def HeaderOutputs (i : Nat → MoldUdp64StripIn) : Prop :=
  ∀ n h, headerAt i n = some h → (trace i n).seqValid (i n) = true →
    (trace i n).seqNum = h.seqNum ∧ (trace i n).msgCount (i n) = h.msgCount

/-- **Header outputs**: they are the fields of every accepted header if and only
if each has the same low 16 bits of the sequence number as the header completed
before it, or zero if it is the first. -/
theorem header_outputs_iff (i : Nat → MoldUdp64StripIn) : HeaderOutputs i ↔
    ∀ n h, headerAt i n = some h → (trace i n).seqValid (i n) = true →
      h.seqNum.extractLsb' 0 16 = lastLow i n := by
  refine forall_congr' fun n => forall_congr' fun h => forall_congr' fun hh =>
    forall_congr' fun _ => ?_
  obtain ⟨hacc, hseq, hcount⟩ := headerAt_eq_some hh
  have hmsg : (trace i n).msgCount (i n) = h.msgCount := by
    rw [headerAcceptB2, Bool.and_eq_true] at hacc
    rw [msgCount, if_pos hacc.1, hcount]
  rw [and_iff_left hmsg, ← (gathered n).1, seqNum]
  constructor
  · intro he
    rw [he]
  · intro he
    -- the upper bytes are registered, so only the lower ones can differ
    have hhi : h.seqNum.extractLsb' 16 48 = (trace i n).seqNumR.extractLsb' 16 48 := by
      rw [← hseq, headerSeqNumB2, extractLsb'_hi]
    have hsplit : ∀ x : BitVec 64, x.extractLsb' 16 48 ++ x.extractLsb' 0 16 = x := fun _ =>
      BitVec.extractLsb'_append_extractLsb'
    rw [← hsplit h.seqNum, hhi, he, hsplit]

end Run

/-! ## a first datagram -/

/-- Beats offered in successive cycles, with the receiver always ready. -/
def offered (bs : List Beat) (n : Nat) : MoldUdp64StripIn where
  sTdata := (bs.getD n ⟨0, 0, false⟩).tdata
  sTkeep := (bs.getD n ⟨0, 0, false⟩).tkeep
  sTvalid := n < bs.length
  sTlast := (bs.getD n ⟨0, 0, false⟩).tlast
  mTready := true

/-- A datagram with sequence number 1, one message and four payload bytes. -/
def firstDatagram : List Beat :=
  [⟨0x2020202020202020#64, 0xFF#8, false⟩, ⟨0x0000000000002020#64, 0xFF#8, false⟩,
    ⟨0x4401000001000100#64, 0xFF#8, true⟩]

/-- The first header after reset is accepted with number 1, while `seq_num` is 0. -/
theorem seq_num_stale :
    (trace (offered firstDatagram) 2).seqValid (offered firstDatagram 2) = true ∧
    headerAt (offered firstDatagram) 2 = some ⟨1, 1⟩ ∧
    (trace (offered firstDatagram) 2).seqNum = 0 ∧
    (trace (offered firstDatagram) 2).msgCount (offered firstDatagram 2) = 1 ∧
    ¬ HeaderOutputs (offered firstDatagram) := by
  have hrun : (trace (offered firstDatagram) 2).seqValid (offered firstDatagram 2) = true ∧
      headerAt (offered firstDatagram) 2 = some ⟨1, 1⟩ ∧
      (trace (offered firstDatagram) 2).seqNum = 0 ∧
      (trace (offered firstDatagram) 2).msgCount (offered firstDatagram 2) = 1 := by decide +kernel
  refine ⟨hrun.1, hrun.2.1, hrun.2.2.1, hrun.2.2.2, fun h => ?_⟩
  have hout := (h 2 _ hrun.2.1 hrun.1).1
  rw [hrun.2.2.1] at hout
  exact absurd hout (by decide)

end MoldUdp64Strip

end Lliu
