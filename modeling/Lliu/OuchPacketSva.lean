import Lliu.Hdl.Monitor
import Lliu.OuchEngine.Encoding

/-!
# Lliu.OuchPacketSva

`tb/uvm/sva/ouch_packet_sva.sv`, the structural checker that the UVM bench binds to the OUCH
output.  It collects the bytes of a packet, byte `k` of a beat from `tdata[8k +: 8]`, and checks
four fields after the last beat.

The engine puts the first byte of a beat at the top of the word.  So the checker reads other bytes
than it means to: what it has to say of a packet depends on the number of the packet and on the
stock name of its template, and not on the order (`verdicts_packets`).
-/

namespace Lliu

open Hdl

/-- What the checker can complain of. -/
inductive OuchFault where
  | packetType | side | shares | price | tvalidDropped
  deriving DecidableEq, Repr

/-- The signals of the output. -/
structure OuchPacketSvaIn where
  mAxisTdata : BitVec 64
  mAxisTkeep : BitVec 8
  mAxisTvalid : Bool
  mAxisTlast : Bool
  mAxisTready : Bool

/-- The registers of the checker.  `continuous` is set while `p_tvalid_continuous` waits for the
next cycle. -/
structure OuchPacketSva where
  pktBuf : Nat → Byte
  beatIdx : Nat
  checkNow : Bool
  continuous : Bool

namespace OuchPacketSva

/-- `MAX_BEATS` beats of eight bytes. -/
def pktBytes : Nat := 48

/-- After reset. -/
def reset : OuchPacketSva where
  pktBuf := fun _ => 0
  beatIdx := 0
  checkNow := false
  continuous := false

/-- `beat_accepted`. -/
def beatAccepted (i : OuchPacketSvaIn) : Bool := i.mAxisTvalid && i.mAxisTready

/-- The bytes of a beat go to the places of its index. -/
def store (buf : Nat → Byte) (idx : Nat) (tdata : BitVec 64) : Nat → Byte := fun a =>
  if a / 8 = idx ∧ a < pktBytes then tdata.extractLsb' (8 * (a % 8)) 8 else buf a

/-- The checks of a packet. -/
def faults (buf : Nat → Byte) : List OuchFault :=
  (if buf 0 ≠ 0x4F then [.packetType] else []) ++
  (if buf 15 ≠ 0x42 ∧ buf 15 ≠ 0x53 then [.side] else []) ++
  (if (buf 16 ++ buf 17 ++ buf 18 ++ buf 19 : BitVec 32) = 0 then [.shares] else []) ++
  (if (buf 28 ++ buf 29 ++ buf 30 ++ buf 31 : BitVec 32) = 0 then [.price] else [])

/-- One clock edge. -/
def step (s : OuchPacketSva) (i : OuchPacketSvaIn) : OuchPacketSva where
  pktBuf := if beatAccepted i then store s.pktBuf s.beatIdx i.mAxisTdata else s.pktBuf
  beatIdx := if beatAccepted i then (if i.mAxisTlast then 0 else s.beatIdx + 1) else s.beatIdx
  checkNow := beatAccepted i && i.mAxisTlast
  continuous := beatAccepted i && !i.mAxisTlast

/-- What is wrong in a cycle. -/
def check (s : OuchPacketSva) (i : OuchPacketSvaIn) : List OuchFault :=
  (if s.checkNow then faults s.pktBuf else []) ++
  (if s.continuous && !i.mAxisTvalid then [.tvalidDropped] else [])

/-- The checker. -/
def monitor : Monitor OuchPacketSva OuchPacketSvaIn OuchFault := ⟨reset, step, check⟩

/-! ## packets -/

/-- The beat taken in a cycle. -/
def got (_ : OuchPacketSva) (i : OuchPacketSvaIn) : Option Beat :=
  if beatAccepted i then some ⟨i.mAxisTdata, i.mAxisTkeep, i.mAxisTlast⟩ else none

/-- The packet checked in a cycle. -/
def gave (s : OuchPacketSva) (_ : OuchPacketSvaIn) : Option (List OuchFault) :=
  if s.checkNow then some (faults s.pktBuf) else none

/-- What the checker does with a beat. -/
def take (t : (Nat → Byte) × Nat) (b : Beat) : ((Nat → Byte) × Nat) × List (List OuchFault) :=
  let buf := store t.1 t.2 b.tdata
  if b.tlast then ((buf, 0), [faults buf]) else ((buf, t.2 + 1), [])

theorem refines : Refines step got gave take (fun _ => True) (fun s => (s.pktBuf, s.beatIdx))
    (fun s => if s.checkNow then [faults s.pktBuf] else []) where
  inv _ _ _ := trivial
  idle s i _ hnone := by
    have hno : beatAccepted i = false := by
      by_contra h
      rw [Bool.not_eq_false] at h
      rw [got, if_pos h] at hnone
      cases hnone
    rw [step, hno, gave]
    cases s.checkNow <;> exact ⟨rfl, rfl⟩
  took s i b _ hsome := by
    have hyes : beatAccepted i = true := by
      by_contra h
      rw [got, if_neg h] at hsome
      cases hsome
    rw [got, if_pos hyes, Option.some.injEq] at hsome
    subst hsome
    rw [step, hyes, gave, take]
    cases i.mAxisTlast <;> cases s.checkNow <;> exact ⟨rfl, rfl⟩

/-- Byte `k` of beats, as the checker counts. -/
def byteOf (bs : List Beat) (k : Nat) : Byte := ((bs[k / 8]?.map Beat.tdata).getD 0).extractLsb' (8 * (k % 8)) 8

/-- Six beats of which the last is marked. -/
def SixBeats (p : List Beat) : Prop := p.map Beat.tlast = [false, false, false, false, false, true]

section Feed

variable {buf : Nat → Byte} {k : Nat} {p bs rest : List Beat} {ps : List (List Beat)}

theorem SixBeats.eq (h : SixBeats p) : ∃ d0 d1 d2 d3 d4 d5 : Beat, p = [d0, d1, d2, d3, d4, d5] ∧
    d0.tlast = false ∧ d1.tlast = false ∧ d2.tlast = false ∧ d3.tlast = false ∧ d4.tlast = false ∧
    d5.tlast = true := by
  simp only [SixBeats, List.map_eq_cons_iff, List.map_eq_nil_iff] at h
  obtain ⟨d0, _, rfl, h0, d1, _, rfl, h1, d2, _, rfl, h2, d3, _, rfl, h3, d4, _, rfl, h4, d5, _, rfl, h5, rfl⟩ := h
  exact ⟨d0, d1, d2, d3, d4, d5, rfl, h0, h1, h2, h3, h4, h5⟩

/-- A packet is checked with its own bytes only. -/
theorem feed_packet (buf : Nat → Byte) (h : SixBeats p) : ∃ buf', feed take (buf, 0) p = ((buf', 0), [faults (byteOf p)]) := by
  obtain ⟨d0, d1, d2, d3, d4, d5, rfl, h0, h1, h2, h3, h4, h5⟩ := h.eq
  refine ⟨store (store (store (store (store (store buf 0 d0.tdata) 1 d1.tdata) 2 d2.tdata) 3 d3.tdata) 4 d4.tdata)
    5 d5.tdata, ?_⟩
  simp only [feed_cons, feed_nil, take, h0, h1, h2, h3, h4, h5, if_true, Bool.false_eq_true, if_false,
    List.nil_append, List.append_nil, Prod.mk.injEq, List.cons.injEq, and_true, true_and, Nat.zero_add,
    Nat.reduceAdd]
  simp [faults, store, pktBytes, byteOf]

/-- Beats that are not marked are only collected. -/
theorem feed_open (h : ∀ b ∈ bs, b.tlast = false) (t : (Nat → Byte) × Nat) : (feed take t bs).2 = [] := by
  induction bs generalizing t with
  | nil => rfl
  | cons b bs ih =>
      rw [feed_cons, ih fun a ha => h a (List.mem_cons_of_mem _ ha), List.append_nil, take,
        h b List.mem_cons_self, if_neg Bool.false_ne_true]

/-- Of a part of some packets, the packets that are complete are checked. -/
theorem feed_packets (h : ∀ p ∈ ps, SixBeats p) (heq : bs ++ rest = ps.flatten) :
    (feed take (buf, 0) bs).2 = (ps.take (bs.length / 6)).map fun p => faults (byteOf p) := by
  induction ps generalizing bs buf with
  | nil =>
      rw [List.flatten_nil, List.append_eq_nil_iff] at heq
      rw [heq.1]
      rfl
  | cons p ps ih =>
      have hp := h p List.mem_cons_self
      have hlen : p.length = 6 := by rw [← List.length_map Beat.tlast, hp]; rfl
      rw [List.flatten_cons] at heq
      by_cases hlt : bs.length < 6
      · have hpre : bs <+: p.dropLast := by
          have hpre : bs <+: p := List.prefix_of_prefix_length_le ⟨rest, heq⟩ (List.prefix_append _ _) (by omega)
          refine List.prefix_of_prefix_length_le hpre (List.dropLast_prefix _) ?_
          rw [List.length_dropLast]
          omega
        rw [Nat.div_eq_of_lt hlt, List.take_zero, List.map_nil]
        refine feed_open (fun b hb => ?_) _
        obtain ⟨d0, d1, d2, d3, d4, d5, rfl, h0, h1, h2, h3, h4, h5⟩ := hp.eq
        have hmem := hpre.subset hb
        simp only [List.dropLast_cons_cons, List.dropLast_singleton, List.mem_cons, List.not_mem_nil,
          or_false] at hmem
        rcases hmem with rfl | rfl | rfl | rfl | rfl <;> assumption
      · obtain ⟨bs', rfl⟩ : p <+: bs :=
          List.prefix_of_prefix_length_le (List.prefix_append _ _) ⟨rest, heq⟩ (by omega)
        rw [List.append_assoc, List.append_right_inj] at heq
        obtain ⟨buf', hfeed⟩ := feed_packet buf hp
        have hdiv : (p ++ bs').length / 6 = bs'.length / 6 + 1 := by
          rw [List.length_append, hlen]
          omega
        rw [feed_append, hfeed, ih (fun q hq => h q (List.mem_cons_of_mem _ hq)) heq, hdiv, List.take_succ_cons,
          List.map_cons]
        rfl

end Feed

end OuchPacketSva

end Lliu
